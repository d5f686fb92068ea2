/-! # Pieces between separators -/
namespace NpcScript.Text

/-- Go on splitting, with the pieces so far and the current piece, both last
first. -/
def splitFrom (sep : Char) (pieces : List (List Char)) (piece : List Char) :
    List Char → List (List Char)
  | [] => (piece.reverse :: pieces).reverse
  | c :: rest =>
    if c = sep then splitFrom sep (piece.reverse :: pieces) [] rest
    else splitFrom sep pieces (c :: piece) rest

/-- The pieces of a text between separators; one more than there are separators. -/
def splitAtChar (sep : Char) (cs : List Char) : List (List Char) := splitFrom sep [] [] cs

end NpcScript.Text
