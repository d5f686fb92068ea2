import NpcScript.Line.Cell
import NpcScript.Text.Blank

/-! # Lexemes

A spaced line is a sequence of words between blanks. A word that starts with a
quote runs to the quote that closes it, any other word to the next blank. -/
namespace NpcScript
open NpcScript.Text

/-- A scanned word. A string is unclosed if the line ends inside it. -/
structure Lexeme where
  text : List Char
  unclosed : Bool := false
  deriving DecidableEq, Repr

/-- How many characters a string has up to and with its closing quote, counted
from `n` on. -/
def closingFrom (n : Nat) (before : Option Char) : List Char → Option Nat
  | [] => none
  | c :: rest => if isDelimiter before c then some (n + 1) else closingFrom (n + 1) (some c) rest

namespace Lexeme

/-- The word at the start of a text that starts with no blank, and the rest. -/
def split : List Char → Lexeme × List Char
  | [] => (⟨[], false⟩, [])
  | c :: rest =>
    if c = '"' then
      match closingFrom 0 none rest with
      | some n => (⟨c :: rest.take n, false⟩, rest.drop n)
      | none => (⟨c :: rest, true⟩, [])
    else
      (⟨c :: rest.takeWhile fun d => !isBlank d, false⟩, rest.dropWhile fun d => !isBlank d)

/-- The first word of a text and the text after it; none if only blanks are left. -/
def first? (cs : List Char) : Option (Lexeme × List Char) :=
  match trimStart cs with
  | [] => none
  | c :: rest => some (split (c :: rest))

theorem split_text (cs : List Char) : (split cs).1.text ++ (split cs).2 = cs := by
  unfold split
  split
  · rfl
  · split
    · split <;> simp
    · simp

theorem split_length (c : Char) (rest : List Char) :
    (split (c :: rest)).2.length ≤ rest.length := by
  unfold split
  split
  · rename_i h; cases h
  · rename_i d ds h
    cases h
    split
    · split <;> simp
    · exact (List.dropWhile_sublist _).length_le

theorem first?_length {cs rest : List Char} {l : Lexeme} (h : first? cs = some (l, rest)) :
    rest.length < cs.length := by
  have ht := trimStart_length_le cs
  unfold first? at h
  split at h
  · cases h
  · rename_i c cs' hc
    have hs := split_length c cs'
    simp only [Option.some.injEq] at h
    rw [h] at hs
    rw [hc] at ht
    simp only [List.length_cons] at ht hs
    omega

end Lexeme

/-- The words of a text, after those already found (last first). -/
def lexemesFrom (found : List Lexeme) (cs : List Char) : List Lexeme :=
  match h : Lexeme.first? cs with
  | none => found.reverse
  | some (l, rest) =>
    have := Lexeme.first?_length h
    lexemesFrom (l :: found) rest
termination_by cs.length

def lexemes (cs : List Char) : List Lexeme := lexemesFrom [] cs

theorem lexemesFrom_eq (found : List Lexeme) (cs : List Char) :
    lexemesFrom found cs = found.reverse ++ lexemes cs := by
  unfold lexemes
  induction h : cs.length using Nat.strongRecOn generalizing found cs with
  | ind n ih =>
    rw [lexemesFrom, lexemesFrom]
    split
    · simp
    · rename_i l rest hf
      have hl := Lexeme.first?_length hf
      rw [ih rest.length (by omega) (l :: found) rest rfl, ih rest.length (by omega) [l] rest rfl]
      simp

theorem lexemes_of_none {cs : List Char} (h : Lexeme.first? cs = none) : lexemes cs = [] := by
  rw [lexemes, lexemesFrom]
  split
  · rfl
  · rename_i hs; rw [h] at hs; cases hs

theorem lexemes_cons {cs rest : List Char} {l : Lexeme} (h : Lexeme.first? cs = some (l, rest)) :
    lexemes cs = l :: lexemes rest := by
  rw [lexemes, lexemesFrom]
  split
  · rename_i hn; rw [hn] at h; cases h
  · rename_i l' rest' hf
    rw [hf] at h
    cases h
    rw [lexemesFrom_eq]
    rfl

end NpcScript
