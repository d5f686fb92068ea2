import NpcScript.Script
import NpcScript.Symbol.Table

/-! # Listings

A script shown as text, one line for each statement: its address, its name
indented as in the source, and its jump or its operands. Values without a name
are shown by number. -/
namespace NpcScript

/-- A number with at least four digits. -/
def paddedAddress (n : Nat) : String :=
  let digits := Nat.toDigits 10 n
  String.ofList (List.replicate (4 - digits.length) '0' ++ digits)

namespace SymbolTable

/-- The name of a value, or its number after `#`. -/
def labelOf (t : SymbolTable) (kind : Kind) (value : Nat) : String :=
  (t.nameOf? kind (Int32.ofNat value)).getD ("#" ++ toString value)

end SymbolTable

namespace Word

def renderOperand (symbols : SymbolTable) (w : Word) : String :=
  if w.flag then symbols.labelOf .var w.payload else toString w.payload

end Word

namespace Statement

/-- The operands of an assignment. The first operator is left out if it is
neutral, as it is in a source. -/
def renderOperands (symbols : SymbolTable) (operands : List Word) : String :=
  String.join <| operands.zipIdx.map fun (w, i) =>
    (if 0 < i || w.operator != 0 then " " ++ symbols.labelOf .operator w.operator else "") ++
      " " ++ w.renderOperand symbols

def render (symbols : SymbolTable) (s : Statement) : String :=
  paddedAddress s.addr ++ " " ++ String.join (List.replicate s.indent "  ") ++
    if s.isFunction then
      symbols.labelOf .function s.head.opcode ++
        match s.jump? with
        | some target => " -> " ++ paddedAddress target
        | none => ""
    else
      symbols.labelOf .var s.head.opcode ++ " =" ++ renderOperands symbols s.operands

end Statement

namespace Script

def listing (s : Script) (symbols : SymbolTable) : List String :=
  s.statements.map (Statement.render symbols)

/-- The listing as printed, each line with its end. -/
def renderListing (s : Script) (symbols : SymbolTable) : String :=
  String.join ((s.listing symbols).map (· ++ "\n"))

end Script

end NpcScript
