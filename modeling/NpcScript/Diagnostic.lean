/-! # Diagnostics

A problem found in a script never stops the compiler: it is a diagnostic, and
the log of a script keeps them in the order in which they were found. A
diagnostic says what kind of problem it is (`Code`), where it is, and a detail
in words. The wording of every detail stands here. -/
namespace NpcScript

inductive Level
  | error
  | warning
  deriving DecidableEq, Repr

/-- The part of the work that finds a problem. -/
inductive Category
  | lex
  | token
  | grammar
  | indentation
  | capacity
  | file
  | internal
  deriving DecidableEq, Repr

inductive Code
  | tabCharacter
  | unterminatedString
  | wordTooLong
  | lineTooLong
  | constantOverflow
  | unknownOpcode
  | assetNotFound
  | symbolOutOfRange
  | expectedAssign
  | missingOperand
  | missingOperator
  | invalidOperand
  | invalidStatement
  | trailingText
  | missingEnd
  | oddIndentation
  | tooDeep
  | programTooLarge
  | sourceTooLarge
  | fileError
  | internalError
  deriving DecidableEq, Repr

namespace Code

/-- The number by which tools know a code. -/
def number : Code → Nat
  | tabCharacter => 1
  | unterminatedString => 2
  | wordTooLong => 3
  | lineTooLong => 4
  | constantOverflow => 5
  | unknownOpcode => 10
  | assetNotFound => 11
  | symbolOutOfRange => 12
  | expectedAssign => 20
  | missingOperand => 21
  | missingOperator => 22
  | invalidOperand => 23
  | invalidStatement => 24
  | trailingText => 25
  | missingEnd => 26
  | oddIndentation => 30
  | tooDeep => 31
  | programTooLarge => 40
  | sourceTooLarge => 41
  | fileError => 42
  | internalError => 51

/-- All codes, by ascending number. -/
def all : List Code :=
  [tabCharacter, unterminatedString, wordTooLong, lineTooLong, constantOverflow,
   unknownOpcode, assetNotFound, symbolOutOfRange,
   expectedAssign, missingOperand, missingOperator, invalidOperand, invalidStatement,
   trailingText, missingEnd, oddIndentation, tooDeep,
   programTooLarge, sourceTooLarge, fileError, internalError]

theorem mem_all (c : Code) : c ∈ all := by cases c <;> decide

def title : Code → String
  | tabCharacter => "TAB CHARACTER"
  | unterminatedString => "UNTERMINATED STRING"
  | wordTooLong => "WORD TOO LONG"
  | lineTooLong => "LINE TOO LONG"
  | constantOverflow => "CONSTANT OUT OF RANGE"
  | unknownOpcode => "UNKNOWN OPCODE"
  | assetNotFound => "ASSET NOT FOUND"
  | symbolOutOfRange => "SYMBOL VALUE OUT OF RANGE"
  | expectedAssign => "EXPECTED ="
  | missingOperand => "MISSING OPERAND"
  | missingOperator => "MISSING OPERATOR"
  | invalidOperand => "INVALID OPERAND"
  | invalidStatement => "INVALID STATEMENT"
  | trailingText => "TRAILING TEXT"
  | missingEnd => "MISSING END"
  | oddIndentation => "INVALID INDENTATION"
  | tooDeep => "TOO MANY INDENTATION LEVELS"
  | programTooLarge => "PROGRAM TOO LARGE"
  | sourceTooLarge => "SOURCE TOO LARGE"
  | fileError => "FILE ERROR"
  | internalError => "INTERNAL ERROR"

def category : Code → Category
  | tabCharacter | unterminatedString | wordTooLong | lineTooLong | constantOverflow => .lex
  | unknownOpcode | assetNotFound | symbolOutOfRange => .token
  | expectedAssign | missingOperand | missingOperator | invalidOperand | invalidStatement
  | trailingText | missingEnd => .grammar
  | oddIndentation | tooDeep => .indentation
  | programTooLarge | sourceTooLarge => .capacity
  | fileError => .file
  | internalError => .internal

/-- A warning leaves the script usable: the compiler knows what was meant. -/
def level : Code → Level
  | tabCharacter | trailingText | missingEnd => .warning
  | _ => .error

end Code

/-- Lines are counted from one in 32 bits; after the last number comes zero. -/
abbrev LineNumber := UInt32

/-- Line 0 stands for the script as a whole, and an empty name for no script. -/
structure Diagnostic where
  code : Code
  detail : String := ""
  line : LineNumber := 0
  script : String := ""
  deriving DecidableEq, Repr

namespace Diagnostic

def level (d : Diagnostic) : Level := d.code.level

def inLine (d : Diagnostic) (line : LineNumber) : Diagnostic := { d with line }

def inScript (d : Diagnostic) (script : String) : Diagnostic := { d with script }

/-- The script and the line, as far as they are known. -/
def place (d : Diagnostic) : String :=
  (if d.script = "" then "" else " " ++ d.script) ++
    (if d.line = 0 then "" else " LINE " ++ toString d.line.toNat)

def render (d : Diagnostic) : String :=
  d.code.title ++ (if d.place = "" then "" else " IN" ++ d.place) ++
    (if d.detail = "" then "" else "; " ++ d.detail)

/-- The rendered text marked as a value of this type, for logs. -/
def inspect (d : Diagnostic) : String := "Error \x7b " ++ d.render ++ " \x7d"

/-! ## The problems that the compiler reports -/

def tabs (count : Nat) : Diagnostic :=
  { code := .tabCharacter, detail := toString count ++ " TAB(S) READ AS SPACES" }

def lineTooLong (kept : Nat) : Diagnostic :=
  { code := .lineTooLong, detail := "KEPT " ++ toString kept ++ " CHARACTERS" }

def unterminated (text : String) : Diagnostic := { code := .unterminatedString, detail := text }

def wordTooLong (word : String) : Diagnostic := { code := .wordTooLong, detail := word }

def constantOverflow (word : String) : Diagnostic := { code := .constantOverflow, detail := word }

def unknownOpcode (word : String) : Diagnostic := { code := .unknownOpcode, detail := word }

def assetNotFound (name : String) : Diagnostic := { code := .assetNotFound, detail := name }

def symbolOutOfRange (kind word : String) (value : Int) : Diagnostic :=
  { code := .symbolOutOfRange, detail := kind ++ " " ++ word ++ " IS " ++ toString value }

def nothingAssigned (target : String) : Diagnostic :=
  { code := .expectedAssign, detail := "NOTHING AFTER " ++ target }

def notAssigned (found target : String) : Diagnostic :=
  { code := .expectedAssign, detail := "FOUND " ++ found ++ " AFTER " ++ target }

def noOperandBefore (word : String) : Diagnostic :=
  { code := .missingOperand, detail := "BEFORE " ++ word }

def noOperandAtEnd : Diagnostic := { code := .missingOperand, detail := "AT END OF LINE" }

def noOperatorBefore (word : String) : Diagnostic :=
  { code := .missingOperator, detail := "BEFORE " ++ word }

def secondAssign : Diagnostic := { code := .invalidOperand, detail := "UNEXPECTED =" }

def notAValue (word : String) : Diagnostic :=
  { code := .invalidOperand, detail := word ++ " IS NOT A VALUE" }

def invalidStatement (word : String) : Diagnostic :=
  { code := .invalidStatement, detail := word ++ " CANNOT START A STATEMENT" }

def trailingText (word rest : String) : Diagnostic :=
  { code := .trailingText, detail := "IGNORED AFTER " ++ word ++ ": " ++ rest }

def missingEnd : Diagnostic := { code := .missingEnd }

def oddIndentation (spaces : Nat) : Diagnostic :=
  { code := .oddIndentation, detail := toString spaces ++ " SPACES, MUST BE EVEN" }

def tooDeep (level deepest : Nat) : Diagnostic :=
  { code := .tooDeep, detail := toString level ++ " LEVELS, CLAMPED TO " ++ toString deepest }

def bufferFull (message : String) (limit : Nat) : Diagnostic :=
  { code := .programTooLarge, detail := message ++ " (" ++ toString limit ++ " WORDS)" }

def sourceTooLarge (bytes limit : Nat) : Diagnostic :=
  { code := .sourceTooLarge, detail := toString bytes ++ " BYTES, LIMIT " ++ toString limit }

def fileError (message : String) : Diagnostic := { code := .fileError, detail := message }

def noEndSymbol : Diagnostic := { code := .internalError, detail := "SYMBOL TABLE HAS NO End" }

end Diagnostic

/-- The diagnostics of one script, in the order in which they were found. -/
structure Log where
  script : String := ""
  entries : Array Diagnostic := #[]
  deriving DecidableEq, Repr

namespace Log

/-- A diagnostic enters the log under the name of the log's script. -/
def push (l : Log) (d : Diagnostic) : Log :=
  { l with entries := l.entries.push (d.inScript l.script) }

def append (l : Log) (ds : List Diagnostic) : Log := ds.foldl push l

def toList (l : Log) : List Diagnostic := l.entries.toList

def size (l : Log) : Nat := l.entries.size

def isEmpty (l : Log) : Bool := l.entries.isEmpty

def count (l : Log) (level : Level) : Nat := l.entries.countP fun d => d.level = level

def hadError (l : Log) : Bool := l.entries.any fun d => d.level = .error

def contains (l : Log) (code : Code) : Bool := l.entries.any fun d => d.code = code

/-- The codes that occur, by ascending number. -/
def codes (l : Log) : List Code := Code.all.filter l.contains

@[simp]
theorem toList_push (l : Log) (d : Diagnostic) :
    (l.push d).toList = l.toList ++ [d.inScript l.script] := by simp [toList, push]

@[simp]
theorem script_push (l : Log) (d : Diagnostic) : (l.push d).script = l.script := rfl

@[simp]
theorem script_append (l : Log) (ds : List Diagnostic) : (l.append ds).script = l.script := by
  induction ds generalizing l with
  | nil => rfl
  | cons d ds ih => exact ih (l.push d)

@[simp]
theorem toList_append (l : Log) (ds : List Diagnostic) :
    (l.append ds).toList = l.toList ++ ds.map (·.inScript l.script) := by
  induction ds generalizing l with
  | nil => simp [append]
  | cons d ds ih =>
    have h : l.append (d :: ds) = (l.push d).append ds := rfl
    rw [h, ih]
    simp

end Log

end NpcScript
