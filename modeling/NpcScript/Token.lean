import NpcScript.Diagnostic
import NpcScript.Symbol.Table

/-! # Tokens

A token is a word of a line with what it stands for: a kind and a value. A word
that stands for nothing is an unknown token, so that reading can go on. -/
namespace NpcScript

structure Token where
  kind : Option Kind
  value : Int32
  /-- The index of the word in the symbol table, if the meaning is from there. -/
  symbol : Option Nat
  word : String
  line : LineNumber
  deriving DecidableEq, Repr

namespace Token

/-- The value that tells `=` from the operators of expressions. -/
def assignValue : Int32 := -1

/-- The largest constant. -/
def maxValue : Nat := 0x7FFFFF

/-- The value of an asset that is not there. -/
def notFound : Int32 := Int32.ofNat maxValue

def unknown (word : String) (line : LineNumber) : Token := ⟨none, 0, none, word, line⟩

def constant (word : String) (value : Int32) (line : LineNumber) : Token :=
  ⟨some .constant, value, none, word, line⟩

def assign (word : String) (line : LineNumber) : Token := ⟨some .operator, assignValue, none, word, line⟩

def isUnknown (t : Token) : Bool := t.kind.isNone

def isFunction (t : Token) : Bool := t.kind = some .function

def isVariable (t : Token) : Bool := t.kind = some .var

def isConstant (t : Token) : Bool := t.kind = some .constant

def isOperand (t : Token) : Bool := t.isConstant || t.isVariable

def isAssign (t : Token) : Bool := t.kind = some .operator && t.value = assignValue

def isOperator (t : Token) : Bool := t.kind = some .operator && t.value != assignValue

def render (t : Token) : String :=
  match t.kind with
  | none => "UNKNOWN(" ++ t.word ++ ")"
  | some kind => kind.label ++ "(" ++ t.word ++ "=" ++ toString t.value.toInt ++ ")"

end Token

end NpcScript
