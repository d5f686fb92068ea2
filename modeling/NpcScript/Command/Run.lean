import NpcScript.Command.Options
import NpcScript.Command.Shell
import NpcScript.Command.WordFile
import NpcScript.Compiler
import NpcScript.Script.Listing

/-! # Runs

A run compiles files one after the other against one message table. A file that
fails does not keep the others from being compiled. The exit code is 0 if all
went well, 1 if a file failed, and 2 if the run could not be done or finished. -/
namespace NpcScript.Command
open NpcScript.Text

namespace Options

/-- Text in bold red or yellow for a terminal, unless plain text is asked for. -/
def paint (o : Options) (level : Level) (text : String) : String :=
  if o.plain then text
  else
    let colour := match level with
      | .error => "31"
      | .warning => "33"
    "\x1b[1;" ++ colour ++ "m" ++ text ++ "\x1b[0m"

/-- A message on a line of its own. -/
def notice (o : Options) (level : Level) (text : String) : String := o.paint level text ++ "\n"

def notices (o : Options) (log : Log) : String :=
  String.join (log.toList.map fun d => o.notice d.level d.render)

/-- The message that a file cannot be used. -/
def fileNotice (o : Options) (path : String) (e : FileError) : String :=
  o.notices (Log.push { script := path } (.fileError e.message))

/-- Where the words of a script go. -/
def target (o : Options) (path : String) : String := o.output.getD (wordFile path)

def compiler (o : Options) (assets : AssetTable) : Compiler MessageTable :=
  { host := .ofTables assets, limits := o.limits }

end Options

/-- The text of a source file. No more bytes are looked at than are needed to
see that the source is too large. If that cuts the last character, its bytes
are dropped; any other fault is an error. -/
def sourceText (maxSource : Nat) (bytes : List UInt8) : Except FileError (List Char) :=
  let limit := min (maxSource + 4) 0xFFFFFFFFFFFFFFFF
  let bytes := bytes.take limit
  let decoded := decode bytes
  match decoded.fault with
  | none => .ok decoded.text
  | some fault =>
    if bytes.length = limit ∧ fault.width = none then .ok decoded.text
    else .error (.other fault.message)

/-- The assets that a list names, one a line. An asset's slot is the number of
its line; blank lines count. -/
def assetList (bytes : List UInt8) : Except FileError AssetTable :=
  let decoded := decode bytes
  if decoded.fault.isSome then .error (.other "stream did not contain valid UTF-8")
  else .ok <| (splitAtChar '\n' decoded.text).zipIdx.foldl
    (fun t (line, slot) =>
      let name := trim line
      if name.isEmpty then t else t.insert (String.ofList name) (Int32.ofNat slot)) {}

/-- The content of a message list: each message on a line. -/
def messageList (t : MessageTable) : List UInt8 :=
  t.messages.toList.flatMap fun text => encode (text.toList ++ ['\n'])

/-- How far a run has come. -/
structure Batch where
  messages : MessageTable := {}
  /-- No file has failed. -/
  success : Bool := true
  deriving DecidableEq, Repr

def Batch.exitCode (b : Batch) : UInt32 := if b.success then 0 else 1

section
variable {m : Type → Type} [Monad m] [Shell m]

/-- Say what is being done, if that is asked for. -/
def trace (o : Options) (text : String) : m Unit :=
  if o.verbose then Shell.warn (text ++ "\n") else pure ()

/-- Write the words of a compiled script. -/
def save (o : Options) (b : Batch) (path : String) (script : Script) : m Batch := do
  match ← Shell.write (o.target path) script.bytes with
  | .ok () =>
    trace o ("wrote " ++ toString script.size ++ " words to " ++ o.target path)
    return b
  | .error e =>
    Shell.warn (o.fileNotice (o.target path) e)
    return { b with success := false }

/-- Compile one file. -/
def compileFile (o : Options) (assets : AssetTable) (b : Batch) (path : String) : m Batch := do
  match (← Shell.read path).bind (sourceText o.limits.maxSource) with
  | .error e =>
    Shell.warn (o.fileNotice path e)
    return { b with success := false }
  | .ok source =>
    trace o ("compiling " ++ path ++ " (" ++ toString (byteLength source) ++ " bytes)")
    let out := (o.compiler assets).compile b.messages path source
    Shell.warn (o.notices out.log)
    if o.listing then Shell.print (out.script.renderListing .builtin)
    let b := { b with messages := out.state }
    if out.log.hadError then return { b with success := false }
    else if o.check then return b
    else save o b path out.script

/-- The assets of a run. -/
def loadAssets (o : Options) : m (Except FileError AssetTable) := do
  match o.assets with
  | none => return .ok {}
  | some path => return (← Shell.read path).bind assetList

/-- Give up, saying why. -/
def giveUp (o : Options) (reason : String) : m UInt32 := do
  Shell.warn (o.notice .error reason)
  return 2

/-- Write the message list if one is asked for, and give the exit code. -/
def finish (o : Options) (b : Batch) : m UInt32 := do
  match o.messages with
  | none => return b.exitCode
  | some path =>
    match ← Shell.write path (messageList b.messages) with
    | .ok () => return b.exitCode
    | .error e => giveUp o e.message

def run (o : Options) : m UInt32 := do
  if o.output.isSome && decide (1 < o.files.length) then
    giveUp o "--output NEEDS A SINGLE INPUT FILE"
  else
    match ← loadAssets o with
    | .error e => giveUp o e.message
    | .ok assets => finish o (← o.files.foldlM (compileFile o assets) {})

def version : String := "aisc 0.3.0\n"

def usage : String :=
  "Usage: aisc [OPTIONS] <FILES>...\n\n" ++
  "  -o, --output <PATH>         word file to write, for a single input file\n" ++
  "      --listing               print a listing of every script\n" ++
  "      --check                 write no word files\n" ++
  "      --assets <PATH>         list of assets, one a line\n" ++
  "      --messages <PATH>       message list to write\n" ++
  "      --plain                 no colours\n" ++
  "  -v, --verbose               say what is being done\n" ++
  "      --max-source-len <N>    bytes of a source\n" ++
  "      --max-line-len <N>      characters of a line\n" ++
  "      --max-word-len <N>      characters of a word\n" ++
  "      --max-instructions <N>  words of a script\n" ++
  "  -h, --help                  print this help\n" ++
  "  -V, --version               print the version\n"

/-- The command: arguments in, exit code out. -/
def runArguments (args : List String) : m UInt32 := do
  match Options.parse args with
  | .ok o => run o
  | .error .version => Shell.print version; return 0
  | .error .help => Shell.print usage; return 0
  | .error .usage => Shell.warn usage; return 2

end

end NpcScript.Command
