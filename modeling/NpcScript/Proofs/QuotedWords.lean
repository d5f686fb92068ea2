import Mathlib.Data.List.DropRight
import NpcScript.Proofs.PlainText

/-! # Strings of loaded lines

Loading leaves no blank in a string and no control character anywhere, and every
quote and backslash stays where it was. Whoever looks at a line after that agrees
with the loader on where its strings are. -/
namespace NpcScript
open NpcScript.Text

/-- Two characters before a quote count as the same if neither or both are the
backslash. -/
theorem isDelimiter_congr {before before' : Option Char}
    (h : before = some '\\' ↔ before' = some '\\') (c : Char) :
    isDelimiter before c = isDelimiter before' c := by
  rw [isDelimiter, isDelimiter, Bool.eq_iff_iff]
  simp only [Bool.and_eq_true, decide_eq_true_iff, bne_iff_ne, ne_eq, h]

theorem eq_quote_of_isDelimiter {before : Option Char} {c : Char} (h : isDelimiter before c = true) :
    c = '"' := of_decide_eq_true (Bool.and_eq_true_iff.1 h).1

theorem isDelimiter_eq_false {c : Char} (h : c ≠ '"') (before : Option Char) :
    isDelimiter before c = false := by
  simp [isDelimiter, h]

theorem ne_quote_of_isBlank {c : Char} (h : isBlank c = true) : c ≠ '"' ∧ c ≠ '\\' := by
  constructor
  · rintro rfl
    cases h
  · rintro rfl
    cases h

namespace Cell

/-- Loading neither makes nor takes away a character that it has no use for. -/
theorem loaded_eq_iff (x : Cell) {d : Char} (hb : isBlank d = false) (hc : isControl d = false)
    (ht : d ≠ '~') (hu : d ≠ '_') : x.loaded = d ↔ x.char = d := by
  have hclass : isBlank x.char = true ∨ isControl x.char = true → x.char ≠ d := by
    rintro h rfl
    rw [hb, hc] at h
    simp at h
  unfold loaded
  split
  · rfl
  · split
    · rename_i htab
      obtain ⟨_, htab⟩ := Bool.and_eq_true_iff.1 htab
      have hx : x.char = '\t' := of_decide_eq_true htab
      exact iff_of_false ht.symm (hclass (.inl (by rw [hx]; rfl)))
    · split
      · rename_i h
        refine iff_of_false ?_ (hclass (Bool.or_eq_true_iff.1 h))
        split
        · exact hu.symm
        · rintro rfl
          cases hb
      · rfl

/-- Loading leaves a quote that counts, and makes none. -/
theorem isDelimiter_loaded (x : Cell) {before : Option Char}
    (hb : x.before = some '\\' ↔ before = some '\\') : isDelimiter before x.loaded = x.delimits := by
  have hquote : x.loaded = '"' ↔ x.char = '"' := x.loaded_eq_iff rfl rfl (by decide) (by decide)
  rw [delimits, isDelimiter_congr hb, isDelimiter, isDelimiter]
  simp only [hquote]

/-- Loading leaves a backslash, and makes none. -/
theorem escapes_loaded (x : Cell) : some x.char = some '\\' ↔ some x.loaded = some '\\' := by
  have hslash : x.loaded = '\\' ↔ x.char = '\\' := x.loaded_eq_iff rfl rfl (by decide) (by decide)
  rw [Option.some.injEq, Option.some.injEq, hslash]

/-- No blank is left in a string. -/
theorem isBlank_loaded {x : Cell} (h : x.inString = true) : isBlank x.loaded = false := by
  unfold loaded
  rw [if_pos h]
  split
  · rename_i hd
    rw [eq_quote_of_isDelimiter hd]
    rfl
  · split
    · rfl
    · split
      · rfl
      · rename_i hn
        simp only [Bool.or_eq_true, not_or, Bool.not_eq_true] at hn
        exact hn.1

/-- The only blank that is left is the space. -/
theorem eq_space_of_isBlank_loaded {x : Cell} (h : isBlank x.loaded = true) : x.loaded = ' ' := by
  unfold loaded at h ⊢
  split at h
  · rename_i hd
    rw [eq_quote_of_isDelimiter hd] at h
    cases h
  · rename_i hd
    rw [if_neg hd]
    split at h
    · cases h
    · rename_i htab
      rw [if_neg htab]
      split at h
      · rename_i hblank
        rw [if_pos hblank]
        split at h
        · cases h
        · rename_i hs
          rw [if_neg hs]
      · rename_i hblank
        exact absurd (by rw [h]; rfl) hblank

theorem isControl_loaded (x : Cell) : isControl x.loaded = false := by
  unfold loaded
  split
  · rename_i hd
    rw [eq_quote_of_isDelimiter hd]
    rfl
  · split
    · rfl
    · split
      · split <;> rfl
      · rename_i hn
        simp only [Bool.or_eq_true, not_or, Bool.not_eq_true] at hn
        exact hn.2

end Cell

/-- No blank stands in a string, in a text that follows `before`. -/
def Tight : Option Char → Bool → List Char → Prop
  | _, _, [] => True
  | before, inString, c :: cs =>
    (inString = true → isBlank c = false) ∧ Tight (some c) (inString != isDelimiter before c) cs

namespace Tight

variable {before before' : Option Char} {inString : Bool} {cs ds : List Char}

theorem of_isPrefix (h : Tight before inString ds) (hp : cs <+: ds) : Tight before inString cs := by
  obtain ⟨rest, rfl⟩ := hp
  induction cs generalizing before inString with
  | nil => trivial
  | cons c cs ih => exact ⟨h.1, ih h.2⟩

/-- Loaded cells, whatever they were before. -/
theorem map_loaded (hb : before = some '\\' ↔ before' = some '\\') (inString : Bool) (cs : List Char) :
    Tight before' inString ((cellsFrom [] before inString cs).map Cell.loaded) := by
  induction cs generalizing before before' inString with
  | nil => trivial
  | cons c cs ih =>
    rw [cellsFrom_cons, List.map_cons]
    refine ⟨fun hs => Cell.isBlank_loaded hs, ?_⟩
    rw [Cell.isDelimiter_loaded _ hb]
    exact ih (Cell.escapes_loaded _) _

/-- A space in the code does not matter. -/
theorem space (h : Tight (some ' ') false cs) (before : Option Char) :
    Tight before false (' ' :: cs) := by
  refine ⟨fun hs => absurd hs Bool.false_ne_true, ?_⟩
  rw [isDelimiter_eq_false (by decide)]
  exact h

end Tight

/-- What holds of a text and is handed on from word to word. -/
theorem forall_mem_lexemes {P : List Char → Prop} {Q : Lexeme → Prop}
    (step : ∀ cs l rest, P cs → Lexeme.first? cs = some (l, rest) → Q l ∧ P rest) {cs : List Char}
    (h : P cs) : ∀ l ∈ lexemes cs, Q l := by
  induction hn : cs.length using Nat.strongRecOn generalizing cs with
  | ind n ih =>
    cases hf : Lexeme.first? cs with
    | none =>
      rw [lexemes_of_none hf]
      nofun
    | some p =>
      obtain ⟨l, rest⟩ := p
      obtain ⟨hl, hrest⟩ := step cs l rest h hf
      have hlen := Lexeme.first?_length hf
      rw [lexemes_cons hf]
      exact List.forall_mem_cons.2 ⟨hl, ih rest.length (by omega) hrest rfl⟩

/-- A word is a part of the text. -/
theorem isInfix_of_mem_lexemes {cs : List Char} {l : Lexeme} (hl : l ∈ lexemes cs) : l.text <:+: cs := by
  have step (ds : List Char) (word : Lexeme) (rest : List Char) (hds : ds <:+ cs)
      (hf : Lexeme.first? ds = some (word, rest)) : word.text <:+: cs ∧ rest <:+ cs := by
    unfold Lexeme.first? at hf
    split at hf
    · cases hf
    · rename_i c ds' hc
      have ht := Lexeme.split_text (c :: ds')
      rw [Option.some.inj hf, ← hc] at ht
      have htrim : word.text ++ rest <:+ cs := by
        rw [ht]
        exact (List.dropWhile_suffix _).trans hds
      exact ⟨(List.infix_append' [] word.text rest).trans htrim.isInfix, (List.suffix_append _ _).trans htrim⟩
  exact forall_mem_lexemes step List.suffix_rfl l hl

/-- Of the characters of a spaced line, only spaces are new. -/
theorem mem_of_mem_spaceOperators {x : Char} {line : List Char} (h : x ∈ spaceOperators line) :
    x = ' ' ∨ x ∈ line := by
  obtain ⟨cell, hc, hx⟩ := List.mem_flatMap.1 h
  have hchar : cell.char ∈ line := by
    rw [← map_char_cells line]
    exact List.mem_map_of_mem hc
  unfold Cell.spaced at hx
  split at hx
  · rw [List.mem_append, List.mem_cons, List.mem_ite_nil_right, List.mem_ite_nil_right,
      List.mem_singleton] at hx
    rcases hx with hx | rfl | hx
    · exact .inl hx.2
    · exact .inr hchar
    · exact .inl hx.2
  · rw [List.mem_singleton.1 hx]
    exact .inr hchar

namespace SourceLine

/-- A loaded text is a part of the loaded cells of its line. -/
theorem text_isPrefix (maxLen : Nat) (body : List Char) :
    (ofBody maxLen body).text <+: (cells body).map Cell.loaded := by
  have htrim : trimEnd (((codeCells body).take maxLen).map Cell.loaded) <+:
      ((codeCells body).take maxLen).map Cell.loaded := List.rdropWhile_prefix isBlank _
  have htake : (codeCells body).take maxLen <+: cells body :=
    (List.take_prefix _ _).trans (List.takeWhile_prefix _)
  exact htrim.trans (htake.map _)

theorem tight_text (maxLen : Nat) (body : List Char) : Tight none false (ofBody maxLen body).text :=
  (Tight.map_loaded Iff.rfl false body).of_isPrefix (text_isPrefix maxLen body)

theorem isControl_of_mem_text {maxLen : Nat} {body : List Char} {x : Char}
    (hx : x ∈ (ofBody maxLen body).text) : isControl x = false := by
  obtain ⟨cell, _, rfl⟩ := List.mem_map.1 ((text_isPrefix maxLen body).subset hx)
  exact cell.isControl_loaded

theorem isBlank_iff_of_mem_text {maxLen : Nat} {body : List Char} {x : Char}
    (hx : x ∈ (ofBody maxLen body).text) : isBlank x = true ↔ x = ' ' := by
  obtain ⟨cell, _, rfl⟩ := List.mem_map.1 ((text_isPrefix maxLen body).subset hx)
  exact ⟨Cell.eq_space_of_isBlank_loaded, fun h => by rw [h]; rfl⟩

end SourceLine

end NpcScript
