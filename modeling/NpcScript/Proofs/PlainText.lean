import Mathlib.Data.List.Basic
import Mathlib.Data.List.TakeWhile
import NpcScript.Line.Source
import NpcScript.Line.Spacing
import NpcScript.Token.Lexeme

/-! # Text that is read as it stands

A line of words with one space between them, each an operator or a name without
quotes, is in the form that loading and spacing aim at: neither changes it, and
its words are found again. -/
namespace NpcScript
open NpcScript.Text

/-- A character that needs no care in a word. -/
def isWordChar (x : Char) : Bool := !isBlank x && !isControl x && x != '"' && !isOperator x

/-- What is checked of each operator holds of all. -/
theorem of_isOperator {p : Char → Bool}
    (hall : ['+', '-', '/', '*', '%', '>', '<', '&', '='].all p = true) {x : Char}
    (h : isOperator x = true) : p x = true :=
  List.all_eq_true.1 hall x (List.contains_iff_mem.1 h)

theorem isBlank_of_isOperator {x : Char} (h : isOperator x = true) :
    isBlank x = false ∧ isControl x = false ∧ x ≠ '"' := by
  have hx := of_isOperator (p := fun y => !isBlank y && (!isControl y && y != '"')) (by decide) h
  simpa only [Bool.and_eq_true, Bool.not_eq_true', bne_iff_ne] using hx

/-- A word without quotes: an operator, or a name without one. -/
structure PlainWord (w : List Char) : Prop where
  ne_nil : w ≠ []
  chars : (∀ x ∈ w, isWordChar x = true) ∨ ∃ x, w = [x] ∧ isOperator x = true

namespace PlainWord

variable {w : List Char}

theorem not_isBlank (h : PlainWord w) {x : Char} (hx : x ∈ w) : isBlank x = false ∧ x ≠ '"' := by
  rcases h.chars with hall | ⟨y, rfl, hy⟩
  · have hx := hall x hx
    simp only [isWordChar, Bool.and_eq_true, Bool.not_eq_true', bne_iff_ne] at hx
    exact ⟨hx.1.1.1, hx.1.2⟩
  · rw [List.mem_singleton.1 hx]
    exact ⟨(isBlank_of_isOperator hy).1, (isBlank_of_isOperator hy).2.2⟩

end PlainWord

/-! ## Cells -/

/-- At the side of an operator there is a space or the end of the line. -/
def Gap (side : Option Char) : Prop := ∀ x ∈ side, x = ' '

/-- A character that stands for itself: a space, a plain character, or an operator
between gaps. -/
def Stands (before : Option Char) (x : Char) (after : Option Char) : Prop :=
  x = ' ' ∨ isWordChar x = true ∨ isOperator x = true ∧ Gap before ∧ Gap after

/-- Every character of a text that follows `before` stands for itself. -/
def Settled : Option Char → List Char → Prop
  | _, [] => True
  | before, x :: xs => Stands before x xs.head? ∧ Settled (some x) xs

namespace Stands

variable {before after : Option Char} {x : Char}

theorem isDelimiter_eq_false (h : Stands before x after) : isDelimiter before x = false := by
  have hx : x ≠ '"' := by
    rcases h with rfl | hw | ⟨ho, _⟩
    · decide
    · rintro rfl
      cases hw
    · exact (isBlank_of_isOperator ho).2.2
  simp [isDelimiter, hx]

theorem not_startsComment (h : Stands before x after) :
    Cell.startsComment ⟨before, x, after, false⟩ = false := by
  rcases h with rfl | hw | ⟨_, _, ha⟩
  · simp [Cell.startsComment]
  · have hx : x ≠ '/' := by
      rintro rfl
      cases hw
    simp [Cell.startsComment, hx]
  · have hslash : after ≠ some '/' := by
      rintro rfl
      cases ha '/' rfl
    simp [Cell.startsComment, hslash]

theorem loaded_eq (h : Stands before x after) : Cell.loaded ⟨before, x, after, false⟩ = x := by
  have hd : Cell.delimits ⟨before, x, after, false⟩ = false := h.isDelimiter_eq_false
  rcases h with rfl | hw | ⟨ho, _⟩
  · simp [Cell.loaded]
  · simp only [isWordChar, Bool.and_eq_true, Bool.not_eq_true', bne_iff_ne] at hw
    simp [Cell.loaded, hw.1.1.1, hw.1.1.2]
  · obtain ⟨hb, hc, _⟩ := isBlank_of_isOperator ho
    simp [Cell.loaded, hb, hc]

theorem spaced_eq (h : Stands before x after) : Cell.spaced ⟨before, x, after, false⟩ = [x] := by
  have hgap {side : Option Char} (hg : Gap side) {y : Char} (hy : side = some y) : isBlank y = true := by
    rw [hg y hy]
    decide
  rcases h with rfl | hw | ⟨ho, hb, ha⟩
  · simp [Cell.spaced, Cell.isOperator, NpcScript.isOperator]
  · simp only [isWordChar, Bool.and_eq_true, Bool.not_eq_true', bne_iff_ne] at hw
    simp [Cell.spaced, Cell.isOperator, hw.2]
  · have hbefore : Cell.spaceBefore ⟨before, x, after, false⟩ = false := by
      cases before with
      | none => rfl
      | some y => simp [Cell.spaceBefore, hgap hb rfl]
    have hafter : Cell.spaceAfter ⟨before, x, after, false⟩ = false := by
      cases after with
      | none => rfl
      | some y => simp [Cell.spaceAfter, hgap ha rfl]
    simp [Cell.spaced, hbefore, hafter]

end Stands

namespace Settled

variable {cs : List Char}

theorem of_mem_cellsFrom {before : Option Char} (h : Settled before cs) :
    ∀ x ∈ cellsFrom [] before false cs, x.inString = false ∧ Stands x.before x.char x.after := by
  induction cs generalizing before with
  | nil => nofun
  | cons c cs ih =>
    rw [cellsFrom_cons, h.1.isDelimiter_eq_false]
    exact List.forall_mem_cons.2 ⟨⟨rfl, h.1⟩, ih h.2⟩

variable (h : Settled none cs)
include h

theorem of_mem_cells {x : Cell} (hx : x ∈ cells cs) :
    x.startsComment = false ∧ x.loaded = x.char ∧ x.spaced = [x.char] := by
  obtain ⟨hs, hstands⟩ := h.of_mem_cellsFrom x hx
  obtain ⟨before, char, after, inString⟩ := x
  subst hs
  exact ⟨hstands.not_startsComment, hstands.loaded_eq, hstands.spaced_eq⟩

/-- Spacing changes nothing. -/
theorem spaceOperators_eq : spaceOperators cs = cs := by
  have hspaced : (cells cs).flatMap Cell.spaced = (cells cs).flatMap fun x => [x.char] :=
    List.flatMap_congr fun x hx => (h.of_mem_cells hx).2.2
  rw [spaceOperators, hspaced, ← List.map_eq_flatMap, map_char_cells]

theorem not_isBreak {x : Char} (hx : x ∈ cs) : isBreak x = false := by
  rw [← map_char_cells cs] at hx
  obtain ⟨cell, hcell, rfl⟩ := List.mem_map.1 hx
  obtain ⟨_, hstands⟩ := h.of_mem_cellsFrom cell hcell
  have hbreak : isBlank cell.char = false → isBreak cell.char = false := by
    intro hblank
    cases hb : isBreak cell.char with
    | false => rfl
    | true =>
      have hcases : cell.char = '\n' ∨ cell.char = '\r' := by simpa [isBreak] using hb
      rcases hcases with he | he <;> rw [he] at hblank <;> cases hblank
  rcases hstands with hspace | hw | ⟨ho, _⟩
  · rw [hspace]
    rfl
  · simp only [isWordChar, Bool.and_eq_true, Bool.not_eq_true'] at hw
    exact hbreak hw.1.1.1
  · exact hbreak (isBlank_of_isOperator ho).1

theorem map_loaded : (SourceLine.codeCells cs).map Cell.loaded = cs := by
  have hcode : SourceLine.codeCells cs = cells cs := by
    rw [SourceLine.codeCells, List.takeWhile_eq_self_iff]
    intro x hx
    rw [(h.of_mem_cells hx).1]
    rfl
  have hload : (cells cs).map Cell.loaded = (cells cs).map Cell.char :=
    List.map_congr_left fun x hx => (h.of_mem_cells hx).2.1
  rw [hcode, hload, map_char_cells]

/-- Loading changes nothing, unless a blank is last or the line is too long. -/
theorem text_ofBody {maxLen : Nat} (hlen : cs.length ≤ maxLen) (hlast : trimEnd cs = cs) :
    (SourceLine.ofBody maxLen cs).text = cs := by
  show trimEnd (((SourceLine.codeCells cs).take maxLen).map Cell.loaded) = cs
  rw [List.map_take, h.map_loaded, List.take_of_length_le hlen, hlast]

end Settled

/-! ## Lines of words -/

/-- Words with a space before each. -/
def spacedWords (ws : List (List Char)) : List Char := ws.flatMap (' ' :: ·)

theorem spacedWords_cons (w : List Char) (ws : List (List Char)) :
    spacedWords (w :: ws) = ' ' :: (w ++ spacedWords ws) := rfl

/-- A line of words at an indentation. -/
def writtenLine (spaces : Nat) (first : List Char) (rest : List (List Char)) : List Char :=
  List.replicate spaces ' ' ++ (first ++ spacedWords rest)

theorem gap_spacedWords (ws : List (List Char)) : Gap (spacedWords ws).head? := by
  cases ws with
  | nil => nofun
  | cons w ws =>
    intro x hx
    cases hx
    rfl

section

variable {first : List Char} {rest : List (List Char)}

theorem settled_append {w cs : List Char} (hw : PlainWord w) {before : Option Char} (hb : Gap before)
    (hc : Gap cs.head?) (h : ∀ b, Settled b cs) : Settled before (w ++ cs) := by
  rcases hw.chars with hall | ⟨x, rfl, hx⟩
  · clear hb hw
    induction w generalizing before with
    | nil => exact h before
    | cons x w ih =>
      obtain ⟨hx, hw⟩ := List.forall_mem_cons.1 hall
      exact ⟨.inr (.inl hx), ih hw⟩
  · exact ⟨.inr (.inr ⟨hx, hb, hc⟩), h (some x)⟩

theorem settled_spacedWords (h : ∀ w ∈ rest, PlainWord w) (before : Option Char) :
    Settled before (spacedWords rest) := by
  have hspace : Gap (some ' ') := by
    intro x hx
    cases hx
    rfl
  induction rest generalizing before with
  | nil => trivial
  | cons w ws ih =>
    obtain ⟨hw, hws⟩ := List.forall_mem_cons.1 h
    exact ⟨.inl rfl, settled_append hw hspace (gap_spacedWords ws) (ih hws)⟩

variable (hf : PlainWord first) (hr : ∀ w ∈ rest, PlainWord w) (spaces : Nat)
include hf hr

theorem settled_writtenLine : Settled none (writtenLine spaces first rest) := by
  have key (before : Option Char) (hb : Gap before) :
      Settled before (List.replicate spaces ' ' ++ (first ++ spacedWords rest)) := by
    induction spaces generalizing before with
    | zero => exact settled_append hf hb (gap_spacedWords rest) (settled_spacedWords hr)
    | succ n ih =>
      refine ⟨.inl rfl, ih (some ' ') ?_⟩
      intro x hx
      cases hx
      rfl
  exact key none nofun

/-- A line of words ends with one of them. -/
theorem exists_last_word : ∃ pre w, writtenLine spaces first rest = pre ++ w ∧ PlainWord w := by
  rcases List.eq_nil_or_concat rest with rfl | ⟨ws, w, rfl⟩
  · exact ⟨List.replicate spaces ' ', first, by simp [writtenLine, spacedWords], hf⟩
  · refine ⟨List.replicate spaces ' ' ++ (first ++ spacedWords ws ++ [' ']), w, ?_, hr w (by simp)⟩
    simp [writtenLine, spacedWords]

theorem trimEnd_writtenLine : trimEnd (writtenLine spaces first rest) = writtenLine spaces first rest := by
  obtain ⟨pre, w, hline, hw⟩ := exists_last_word hf hr spaces
  obtain ⟨x, xs, hx⟩ := List.exists_cons_of_ne_nil (List.reverse_ne_nil_iff.2 hw.ne_nil)
  have hmem : x ∈ w := by
    rw [← List.mem_reverse, hx]
    exact List.mem_cons_self
  rw [hline, trimEnd, List.reverse_append, hx, List.cons_append, List.dropWhile_cons,
    (hw.not_isBlank hmem).1, if_neg Bool.false_ne_true, ← List.cons_append, ← hx, ← List.reverse_append,
    List.reverse_reverse]

omit hr in
theorem leadingSpaces_writtenLine :
    SourceLine.leadingSpaces { text := writtenLine spaces first rest } = spaces := by
  obtain ⟨x, xs, rfl⟩ := List.exists_cons_of_ne_nil hf.ne_nil
  refine SourceLine.leadingSpaces_eq_iff.2 ⟨_, rfl, ?_⟩
  intro hspace
  cases Option.some.inj hspace
  cases (hf.not_isBlank List.mem_cons_self).1

theorem text_writtenLine {maxLen : Nat} (h : (writtenLine spaces first rest).length ≤ maxLen) :
    (SourceLine.ofBody maxLen (writtenLine spaces first rest)).text = writtenLine spaces first rest :=
  (settled_writtenLine hf hr spaces).text_ofBody h (trimEnd_writtenLine hf hr spaces)

end

/-- Behind spaces the first word is found, up to the next space. -/
theorem first?_append {w cs : List Char} (hw : PlainWord w) (hc : Gap cs.head?) (spaces : Nat) :
    Lexeme.first? (List.replicate spaces ' ' ++ (w ++ cs)) = some (⟨w, false⟩, cs) := by
  have hword : ∀ x ∈ w, (!isBlank x) = true := fun x hx => by rw [(hw.not_isBlank hx).1]; rfl
  have hspaces : ∀ x ∈ List.replicate spaces ' ', isBlank x = true := by
    intro x hx
    rw [(List.mem_replicate.1 hx).2]
    decide
  have hrest : cs.takeWhile (fun x => !isBlank x) = [] ∧ cs.dropWhile (fun x => !isBlank x) = cs := by
    cases cs with
    | nil => exact ⟨rfl, rfl⟩
    | cons x xs =>
      rw [hc x rfl]
      exact ⟨rfl, rfl⟩
  obtain ⟨x, xs, rfl⟩ := List.exists_cons_of_ne_nil hw.ne_nil
  obtain ⟨hx, hquote⟩ := hw.not_isBlank (List.mem_cons_self (a := x) (l := xs))
  obtain ⟨_, hxs⟩ := List.forall_mem_cons.1 hword
  have htrim : trimStart (List.replicate spaces ' ' ++ (x :: xs ++ cs)) = x :: (xs ++ cs) := by
    rw [trimStart, List.dropWhile_append_of_pos hspaces, List.cons_append, List.dropWhile_cons, hx,
      if_neg Bool.false_ne_true]
  rw [Lexeme.first?, htrim]
  dsimp only
  rw [Lexeme.split, if_neg hquote, List.takeWhile_append_of_pos hxs, List.dropWhile_append_of_pos hxs,
    hrest.1, hrest.2, List.append_nil]

/-- The words behind spaces are found in their order. -/
theorem lexemes_spacedWords {ws : List (List Char)} (h : ∀ w ∈ ws, PlainWord w) :
    lexemes (spacedWords ws) = ws.map (⟨·, false⟩) := by
  induction ws with
  | nil => exact lexemes_of_none rfl
  | cons w ws ih =>
    obtain ⟨hw, hws⟩ := List.forall_mem_cons.1 h
    have hfirst : Lexeme.first? (spacedWords (w :: ws)) = some (⟨w, false⟩, spacedWords ws) :=
      first?_append hw (gap_spacedWords ws) 1
    rw [lexemes_cons hfirst, ih hws, List.map_cons]

end NpcScript
