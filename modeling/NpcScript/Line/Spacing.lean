import NpcScript.Line.Cell
import NpcScript.Text.Blank

/-! # Spaces around operators

Words are parted by blanks only, so an operator that touches its neighbours is
set apart before the line is read. -/
namespace NpcScript
open NpcScript.Text

def isOperator (c : Char) : Bool :=
  ['+', '-', '/', '*', '%', '>', '<', '&', '='].contains c

namespace Cell

/-- An operator that is code. -/
def isOperator (x : Cell) : Bool := x.isCode && NpcScript.isOperator x.char

/-- A space is due before an operator unless it starts the line, follows a
blank, or follows another operator, which brings its own space. -/
def spaceBefore (x : Cell) : Bool :=
  match x.before with
  | none => false
  | some c => !isBlank c && !NpcScript.isOperator c

/-- A space is due after an operator unless it ends the line or a blank follows. -/
def spaceAfter (x : Cell) : Bool :=
  match x.after with
  | none => false
  | some c => !isBlank c

/-- The cell's share of the spaced line. -/
def spaced (x : Cell) : List Char :=
  if x.isOperator then
    (if x.spaceBefore then [' '] else []) ++ x.char :: (if x.spaceAfter then [' '] else [])
  else [x.char]

end Cell

/-- The line with every operator outside strings set apart by spaces. -/
def spaceOperators (line : List Char) : List Char := (cells line).flatMap Cell.spaced

end NpcScript
