import NpcScript.Compiler.Limits

/-! # Arguments of the command

Options and files can be mixed. A long option takes its value after `=` or as
the next argument, a short one also right behind its letter; short flags can be
joined. `--` ends the options. Each option is given at most once. Arguments are
taken from the left, and the first one that settles the matter (an error, or a
request for the version or for help) does so. -/
namespace NpcScript.Command

/-- What a run is asked to do. -/
structure Options where
  files : List String := []
  output : Option String := none
  assets : Option String := none
  messages : Option String := none
  listing : Bool := false
  check : Bool := false
  plain : Bool := false
  verbose : Bool := false
  limits : Limits := {}
  deriving DecidableEq, Repr

/-- Why there is nothing to run. -/
inductive Stop
  | usage
  | version
  | help
  deriving DecidableEq, Repr

inductive Switch
  | output
  | assets
  | messages
  | listing
  | check
  | plain
  | verbose
  | maxSource
  | maxLine
  | maxWord
  | maxWords
  | version
  | help
  deriving DecidableEq, Repr

namespace Switch

def ofLong? : String → Option Switch
  | "output" => some output
  | "assets" => some assets
  | "messages" => some messages
  | "listing" => some listing
  | "check" => some check
  | "plain" => some plain
  | "verbose" => some verbose
  | "max-source-len" => some maxSource
  | "max-line-len" => some maxLine
  | "max-word-len" => some maxWord
  | "max-instructions" => some maxWords
  | "version" => some version
  | "help" => some help
  | _ => none

def ofShort? : Char → Option Switch
  | 'o' => some output
  | 'v' => some verbose
  | 'V' => some version
  | 'h' => some help
  | _ => none

def takesValue : Switch → Bool
  | output | assets | messages | maxSource | maxLine | maxWord | maxWords => true
  | listing | check | plain | verbose | version | help => false

end Switch

/-- A decimal number of 64 bits, with an optional plus sign. -/
def number? (value : String) : Option Nat :=
  let digits := match value.toList with
    | '+' :: rest => rest
    | cs => cs
  if digits.isEmpty || !digits.all Char.isDigit then none
  else
    let n := digits.foldl (fun n c => n * 10 + (c.toNat - '0'.toNat)) 0
    if n < 0x10000000000000000 then some n else none

/-- A path is never empty. -/
def path? (value : String) : Option String := if value.isEmpty then none else some value

/-- One use of a switch, with the value attached to it. -/
inductive Use
  | given (switch : Switch) (value : Option String)
  | wrong
  deriving DecidableEq, Repr

namespace Use

def ofLong (body : List Char) : Use :=
  let name := body.takeWhile (· != '=')
  let value := match body.dropWhile (· != '=') with
    | [] => none
    | _ :: rest => some (String.ofList rest)
  match Switch.ofLong? (String.ofList name) with
  | none => wrong
  | some s => if value.isSome && !s.takesValue then wrong else given s value

/-- The value that stands right behind a short option. -/
def attached? : List Char → Option String
  | [] => none
  | '=' :: rest => some (String.ofList rest)
  | rest => some (String.ofList rest)

def ofCluster : List Char → List Use
  | [] => []
  | c :: rest =>
    match Switch.ofShort? c with
    | none => [wrong]
    | some s => if s.takesValue then [given s (attached? rest)] else given s none :: ofCluster rest

/-- The switches of an argument; none if it is a file. A lone dash is a file. -/
def ofArgument? (arg : String) : Option (List Use) :=
  match arg.toList with
  | '-' :: '-' :: body => some [ofLong body]
  | ['-'] => none
  | '-' :: body => some (ofCluster body)
  | _ => none

end Use

/-- The options so far and the switches that gave them. -/
structure Progress where
  options : Options := {}
  seen : List Switch := []
  deriving DecidableEq, Repr

namespace Progress

def orUsage {α : Type} : Option α → Except Stop α
  | some a => .ok a
  | none => .error .usage

/-- The options with one switch set. -/
def set (o : Options) (value : String) : Switch → Except Stop Options
  | .output => (orUsage (path? value)).map fun p => { o with output := some p }
  | .assets => (orUsage (path? value)).map fun p => { o with assets := some p }
  | .messages => (orUsage (path? value)).map fun p => { o with messages := some p }
  | .listing => .ok { o with listing := true }
  | .check => .ok { o with check := true }
  | .plain => .ok { o with plain := true }
  | .verbose => .ok { o with verbose := true }
  | .maxSource => (orUsage (number? value)).map fun n => { o with limits.maxSource := n }
  | .maxLine => (orUsage (number? value)).map fun n => { o with limits.maxLine := n }
  | .maxWord => (orUsage (number? value)).map fun n => { o with limits.maxWord := n }
  | .maxWords => (orUsage (number? value)).map fun n => { o with limits.maxWords := n }
  | .version => .error .version
  | .help => .error .help

def use (p : Progress) (s : Switch) (value : String) : Except Stop Progress :=
  if p.seen.contains s then .error .usage
  else (set p.options value s).map fun options => ⟨options, s :: p.seen⟩

/-- Use the switches of one argument; the last may still wait for its value. -/
def useAll (p : Progress) : List Use → Except Stop (Progress × Option Switch)
  | [] => .ok (p, none)
  | .wrong :: _ => .error .usage
  | .given s (some value) :: rest =>
    match p.use s value with
    | .error stop => .error stop
    | .ok p => useAll p rest
  | .given s none :: rest =>
    if s.takesValue then .ok (p, some s)
    else match p.use s "" with
      | .error stop => .error stop
      | .ok p => useAll p rest

def addFile (p : Progress) (arg : String) : Except Stop Progress :=
  (orUsage (path? arg)).map fun path =>
    { p with options := { p.options with files := p.options.files ++ [path] } }

def addFiles (p : Progress) : List String → Except Stop Progress
  | [] => .ok p
  | arg :: rest =>
    match p.addFile arg with
    | .error stop => .error stop
    | .ok p => addFiles p rest

/-- An argument that can be the value of the switch before it. -/
def isValue (arg : String) : Bool := (Use.ofArgument? arg).isNone

def takeAll (p : Progress) : List String → Except Stop Progress
  | [] => .ok p
  | arg :: rest =>
    if arg = "--" then p.addFiles rest
    else match Use.ofArgument? arg with
      | none =>
        match p.addFile arg with
        | .error stop => .error stop
        | .ok p => takeAll p rest
      | some uses =>
        match p.useAll uses with
        | .error stop => .error stop
        | .ok (p, none) => takeAll p rest
        | .ok (p, some s) =>
          match rest with
          | [] => .error .usage
          | value :: rest =>
            if isValue value then
              match p.use s value with
              | .error stop => .error stop
              | .ok p => takeAll p rest
            else .error .usage

end Progress

/-- The options that arguments ask for. There is at least one file. -/
def Options.parse (args : List String) : Except Stop Options :=
  match Progress.takeAll {} args with
  | .error stop => .error stop
  | .ok p => if p.options.files.isEmpty then .error .usage else .ok p.options

end NpcScript.Command
