import NpcScript.Line.Cell
import NpcScript.Line.Segment
import NpcScript.Text.Blank
import NpcScript.Text.Utf8

/-! # Source lines

Loading brings a physical line into a normal form. Its comment is dropped. A
blank or control character becomes a space, so that indentation can be counted
in spaces. Inside a string it becomes an underscore, and a tab a tilde, so that
a string is one word and a message one line. -/
namespace NpcScript
open NpcScript.Text

namespace Cell

/-- Two slashes outside a string start a comment. -/
def startsComment (x : Cell) : Bool := x.isCode && x.char = '/' && x.after = some '/'

/-- A tab that is read as a space. -/
def isTab (x : Cell) : Bool := x.isCode && x.char = '\t'

/-- The character as it stands in the loaded line. -/
def loaded (x : Cell) : Char :=
  if x.delimits then x.char
  else if x.inString && x.char = '\t' then '~'
  else if isBlank x.char || isControl x.char then (if x.inString then '_' else ' ')
  else x.char

end Cell

/-- So many spaces, and then no space. -/
def IndentedBy (n : Nat) (text : List Char) : Prop :=
  ∃ rest, text = List.replicate n ' ' ++ rest ∧ rest.head? ≠ some ' '

theorem IndentedBy.isPrefixOf {n : Nat} {text : List Char} (h : IndentedBy n text) :
    [' ', ' '].isPrefixOf text = decide (2 ≤ n) := by
  obtain ⟨rest, rfl, hrest⟩ := h
  cases rest with
  | nil => rcases n with _ | _ | n <;> rfl
  | cons x rest =>
    have hx : (' ' == x) = false := beq_eq_false_iff_ne.2 fun hx => hrest (congrArg some hx.symm)
    rcases n with _ | _ | n
    · show (' ' == x && _) = false
      rw [hx, Bool.false_and]
    · show (' ' == ' ' && (' ' == x && _)) = false
      rw [hx, Bool.false_and, Bool.and_false]
    · rfl

/-- A line ready to be read: its text, the number of tabs that were read as
spaces, and whether characters were cut off. -/
structure SourceLine where
  text : List Char := []
  tabs : Nat := 0
  truncated : Bool := false
  deriving DecidableEq, Repr

namespace SourceLine

def isEmpty (l : SourceLine) : Bool := l.text.isEmpty

def leadingSpaces (l : SourceLine) : Nat := (l.text.takeWhile (· = ' ')).length

theorem leadingSpaces_eq_iff {l : SourceLine} {n : Nat} : l.leadingSpaces = n ↔ IndentedBy n l.text := by
  constructor
  · rintro rfl
    refine ⟨l.text.dropWhile (· = ' '), ?_, ?_⟩
    · have hspaces : l.text.takeWhile (· = ' ') = List.replicate l.leadingSpaces ' ' :=
        List.eq_replicate_iff.2 ⟨rfl, fun x hx => by simpa using List.all_eq_true.1 List.all_takeWhile x hx⟩
      rw [← hspaces, List.takeWhile_append_dropWhile]
    · have hnot := List.head?_dropWhile_not (fun x => decide (x = ' ')) l.text
      intro hhead
      simp [hhead] at hnot
  · rintro ⟨rest, htext, hrest⟩
    have hstop : rest.takeWhile (· = ' ') = [] := by
      cases rest with
      | nil => rfl
      | cons x rest => exact List.takeWhile_cons_of_neg (by simpa using hrest)
    have hspaces : ∀ x ∈ List.replicate n ' ', decide (x = ' ') = true := by
      intro x hx
      exact decide_eq_true (List.eq_of_mem_replicate hx)
    rw [leadingSpaces, htext, List.takeWhile_append_of_pos hspaces, hstop, List.append_nil,
      List.length_replicate]

/-- The cells of a physical line before its comment. -/
def codeCells (body : List Char) : List Cell := (cells body).takeWhile fun x => !x.startsComment

/-- Load the characters of a physical line, keeping at most `maxLen`. Tabs are
counted over the whole line, and trailing blanks are cut last. -/
def ofBody (maxLen : Nat) (body : List Char) : SourceLine :=
  let code := codeCells body
  { text := trimEnd ((code.take maxLen).map Cell.loaded)
    tabs := code.countP Cell.isTab
    truncated := decide (maxLen < code.length) }

/-- The line at a byte position of a source, and the position after it. There
is none at the end, past it, and inside a character. -/
def load? (source : List Char) (cursor maxLen : Nat) : Option (SourceLine × Nat) := do
  let rest ← dropBytes? cursor source
  let (segment, _) ← Segment.first? rest
  return (ofBody maxLen segment.body, cursor + byteLength segment.text)

/-- Every line of a source with the byte position after it. -/
def loadAll (source : List Char) (maxLen : Nat) : List (SourceLine × Nat) :=
  ((segments source).foldl
    (fun (lines, cursor) s =>
      let next := cursor + byteLength s.text
      ((ofBody maxLen s.body, next) :: lines, next))
    ([], 0)).1.reverse

end SourceLine

end NpcScript
