/-! # Characters in context

Whether a character of a line is code or part of a string depends on the quotes
before it, and a quote counts unless a backslash stands right before it. `cells`
works this out once for a whole line, together with each character's
neighbours; the rules of loading and spacing then look at one cell at a time. -/
namespace NpcScript

/-- One character of a line, its neighbours, and whether a string is open
before it. -/
structure Cell where
  before : Option Char
  char : Char
  after : Option Char
  inString : Bool
  deriving DecidableEq, Repr

/-- A quote opens or closes a string unless a backslash escapes it. -/
def isDelimiter (before : Option Char) (c : Char) : Bool := c = '"' && before != some '\\'

namespace Cell

def delimits (x : Cell) : Bool := isDelimiter x.before x.char

/-- The character is code: outside every string and no quote of one. -/
def isCode (x : Cell) : Bool := !x.inString && !x.delimits

end Cell

/-- The cells of a text that follows `before`, after those already made (last
first). -/
def cellsFrom (made : List Cell) (before : Option Char) (inString : Bool) : List Char → List Cell
  | [] => made.reverse
  | c :: rest =>
    cellsFrom (⟨before, c, rest.head?, inString⟩ :: made) (some c)
      (inString != isDelimiter before c) rest

def cells (line : List Char) : List Cell := cellsFrom [] none false line

theorem cellsFrom_eq (made : List Cell) (before : Option Char) (inString : Bool)
    (line : List Char) :
    cellsFrom made before inString line = made.reverse ++ cellsFrom [] before inString line := by
  induction line generalizing made before inString with
  | nil => simp [cellsFrom]
  | cons c rest ih =>
    rw [cellsFrom, ih, cellsFrom, ih [_]]
    simp

theorem cellsFrom_cons (before : Option Char) (inString : Bool) (c : Char) (rest : List Char) :
    cellsFrom [] before inString (c :: rest) =
      ⟨before, c, rest.head?, inString⟩ ::
        cellsFrom [] (some c) (inString != isDelimiter before c) rest := by
  rw [cellsFrom, cellsFrom_eq]
  rfl

/-- Nothing is lost: the cells spell the line. -/
theorem map_char_cells (line : List Char) : (cells line).map Cell.char = line := by
  suffices h : ∀ before inString, (cellsFrom [] before inString line).map Cell.char = line from
    h none false
  induction line with
  | nil => intro _ _; rfl
  | cons c rest ih => intro before inString; rw [cellsFrom_cons]; simp [ih]

end NpcScript
