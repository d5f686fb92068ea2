/-! # Symbols

A script names functions, variables, constants and operators. -/
namespace NpcScript

inductive Kind
  | function
  | var
  | constant
  | operator
  deriving DecidableEq, Repr

namespace Kind

def label : Kind → String
  | function => "FUNCTION"
  | var => "VARIABLE"
  | constant => "CONSTANT"
  | operator => "OPERATOR"

/-- The largest value that the word field for this kind holds. -/
def maxValue : Kind → Int
  | function => 0x07FFFFFF
  | var | constant => 0x7FFFFF
  | operator => 0xFF

/-- The value can be encoded without loss. -/
def fits (k : Kind) (value : Int32) : Bool :=
  decide (0 ≤ value.toInt) && decide (value.toInt ≤ k.maxValue)

end Kind

structure Symbol where
  name : String
  kind : Kind
  value : Int32
  deriving DecidableEq, Repr

/-- What a listing knows of a symbol. -/
def Symbol.key (s : Symbol) : Kind × Int32 := (s.kind, s.value)

theorem Symbol.key_eq_iff {s : Symbol} {kind : Kind} {value : Int32} :
    s.key = (kind, value) ↔ s.kind = kind ∧ s.value = value := Prod.ext_iff

end NpcScript
