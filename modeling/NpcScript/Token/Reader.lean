import NpcScript.Diagnostic
import NpcScript.Host
import NpcScript.Text.Utf8
import NpcScript.Token
import NpcScript.Token.Lexeme

/-! # Reading tokens

What a word stands for is decided in two steps. Its form can be told from its
characters alone: a numeral, a bracket code, `=`, an asset, a message, or a
name. Its meaning then comes from the form, the symbol table and the host. -/
namespace NpcScript
open NpcScript.Text

/-- Four bytes packed into twenty bits: the letters A to Z count from zero, and
five bits of each are kept. -/
def packCode (bytes : List UInt8) : Nat :=
  bytes.foldl (fun n b => n * 32 + (b.toNat + 31) % 32) 0

inductive WordForm
  | numeral (value : Nat)
  | code (bytes : List UInt8)
  | assign
  | asset (name : List Char)
  | message (text : List Char)
  | name
  deriving DecidableEq, Repr

namespace WordForm

/-- The bytes of a bracket code: four between square brackets. Bytes count here
and not characters, since a code is packed byte by byte. -/
def bracketed? (word : List Char) : Option (List UInt8) :=
  match encode word with
  | [l, a, b, c, d, r] => if l = 0x5B && r = 0x5D then some [a, b, c, d] else none
  | _ => none

/-- What stands between the quotes of a string; a string may lack the last one. -/
def unquote (rest : List Char) : List Char :=
  if rest.getLast? = some '"' then rest.dropLast else rest

def ofQuoted (text : List Char) : WordForm :=
  match text with
  | '#' :: label => asset label
  | _ => message text

def ofWord (word : List Char) : WordForm :=
  if !word.isEmpty && word.all Char.isDigit then
    numeral (word.foldl (fun n c => n * 10 + (c.toNat - '0'.toNat)) 0)
  else match bracketed? word with
    | some bytes => code bytes
    | none =>
      match word with
      | ['='] => assign
      | '"' :: rest => ofQuoted (unquote rest)
      | _ => name

end WordForm

/-- A token with the problems found in reading it and the host's state after. -/
structure Reading (σ : Type) where
  token : Token
  issues : List Diagnostic
  state : σ

/-- What reading depends on, apart from the words. -/
structure Reader (σ : Type) where
  symbols : SymbolTable
  host : Host σ
  /-- The number of characters of a word that count. -/
  maxWord : Nat

namespace Reader

variable {σ : Type} (r : Reader σ)

/-- The token for a name, with the problem if the table has no usable symbol. -/
def lookUp (word : String) (line : LineNumber) : Token × List Diagnostic :=
  match r.symbols.indexOf? word with
  | none => (.unknown word line, [.unknownOpcode word])
  | some index =>
    match r.symbols.entry? index with
    | none => (.unknown word line, [])
    | some s =>
      if s.kind.fits s.value then (⟨some s.kind, s.value, some index, word, line⟩, [])
      else (.unknown word line, [.symbolOutOfRange s.kind.label word s.value.toInt])

/-- The meaning of a word that is not too long. -/
def classify (line : LineNumber) (s : σ) (chars : List Char) : Reading σ :=
  let word := String.ofList chars
  match WordForm.ofWord chars with
  | .numeral n =>
    ⟨.constant word (Int32.ofNat (min n Token.maxValue)) line,
      if Token.maxValue < n then [Diagnostic.constantOverflow word] else [], s⟩
  | .code bytes => ⟨.constant word (Int32.ofNat (packCode bytes)) line, [], s⟩
  | .assign => ⟨.assign word line, [], s⟩
  | .asset name =>
    match r.host.asset (String.ofList name) s with
    | (some slot, s) => ⟨.constant word slot line, [], s⟩
    | (none, s) =>
      ⟨.constant word Token.notFound line, [.assetNotFound (String.ofList name)], s⟩
  | .message text =>
    let (index, s) := r.host.message (String.ofList text) s
    ⟨.constant word index line, [], s⟩
  | .name =>
    let (token, issues) := r.lookUp word line
    ⟨token, issues, s⟩

/-- Read a scanned word. The whole of an unclosed string and of a long word is
reported; of a long word only the first characters count. -/
def read (line : LineNumber) (s : σ) (l : Lexeme) : Reading σ :=
  let reading := r.classify line s (l.text.take r.maxWord)
  { reading with
    issues :=
      (if l.unclosed then [Diagnostic.unterminated (String.ofList l.text)] else []) ++
      ((if r.maxWord < l.text.length then [Diagnostic.wordTooLong (String.ofList l.text)] else []) ++
        reading.issues) |>.map (·.inLine line) }

/-- Read the word at a byte position of a line; with it comes the position
after the word. -/
def next? (text : List Char) (cursor : Nat) (line : LineNumber) (s : σ) : Option (Reading σ × Nat) := do
  let rest ← dropBytes? cursor text
  let (l, after) ← Lexeme.first? rest
  return (r.read line s l, cursor + (byteLength rest - byteLength after))

/-- Read all words of a line, left to right. -/
def readAll (line : LineNumber) (s : σ) (text : List Char) : List Token × List Diagnostic × σ :=
  let (tokens, issues, s) := (lexemes text).foldl
    (fun (tokens, issues, s) l =>
      let reading := r.read line s l
      (tokens.push reading.token, issues ++ reading.issues.toArray, reading.state))
    ((#[], #[], s) : Array Token × Array Diagnostic × σ)
  (tokens.toList, issues.toList, s)

end Reader

end NpcScript
