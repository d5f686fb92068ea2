import NpcScript.Proofs.Placement

/-! # The terms behind operands

An operand is made from a term: a token and the operator before it. A phrase is
a block with terms in place of operands, so that the words of a script can be
traced to the tokens that they were made from. -/
namespace NpcScript

variable {σ : Type}

/-- The operand for a term. -/
def Word.ofTerm (term : Int32 × Token) : Word := .operand term.2.isVariable term.1 term.2.value

namespace RightSide

/-- The terms that are stored of the tokens of a right side. -/
def terms (m : RightSide) : List Token → List (Int32 × Token)
  | [] => []
  | t :: ts =>
    if t.isOperand && m.expecting then (m.operator, t) :: (m.next t).terms ts
    else (m.next t).terms ts

theorem words_eq_map_terms (m : RightSide) (ts : List Token) :
    m.words ts = (m.terms ts).map Word.ofTerm := by
  induction ts generalizing m with
  | nil => rfl
  | cons t ts ih =>
    rw [words, terms, operand?, ih]
    split <;> rfl

/-- Only operands are stored. -/
theorem of_mem_terms {m : RightSide} {ts : List Token} {x : Int32 × Token} (h : x ∈ m.terms ts) :
    x.2 ∈ ts ∧ x.2.isOperand = true := by
  induction ts generalizing m with
  | nil => cases h
  | cons t ts ih =>
    rw [terms] at h
    split at h
    · rename_i ho
      rcases List.mem_cons.1 h with rfl | h
      · exact ⟨List.mem_cons_self, (Bool.and_eq_true_iff.1 ho).1⟩
      · exact ⟨List.mem_cons_of_mem t (ih h).1, (ih h).2⟩
    · exact ⟨List.mem_cons_of_mem t (ih h).1, (ih h).2⟩

end RightSide

structure Phrase where
  head : Word
  terms : List (Int32 × Token) := []

/-- The block that a phrase is encoded as. -/
def Phrase.block (p : Phrase) : Block := ⟨p.head, p.terms.map Word.ofTerm⟩

namespace LineReading

/-- The code of a line: at most one phrase. -/
def phrases (l : LineReading σ) : List Phrase :=
  match l.tokens with
  | [] => []
  | t :: ts =>
    match t.kind with
    | some .function => if l.endsScript then [] else [{ head := .head true l.indent t.value }]
    | some .var =>
      [{ head := .head false l.indent t.value, terms := RightSide.terms {} (rightTokens ts) }]
    | _ => []

theorem map_block_phrases (l : LineReading σ) : l.phrases.map Phrase.block = l.blocks := by
  unfold phrases blocks
  cases l.tokens with
  | nil => rfl
  | cons t ts =>
    dsimp only
    cases t.kind with
    | none => rfl
    | some k =>
      cases k with
      | function => cases l.endsScript <;> rfl
      | var => simp [Phrase.block, Block.assignment, assignWords, RightSide.words_eq_map_terms]
      | constant | operator => rfl

/-- A term of a line is made from one of its tokens. -/
theorem of_mem_terms {l : LineReading σ} {p : Phrase} (hp : p ∈ l.phrases) {x : Int32 × Token}
    (hx : x ∈ p.terms) : x.2 ∈ l.tokens ∧ x.2.isOperand = true := by
  unfold phrases at hp
  split at hp
  · cases hp
  · rename_i t ts ht
    split at hp
    · split at hp
      · cases hp
      · rw [List.mem_singleton.1 hp] at hx
        cases hx
    · rw [List.mem_singleton.1 hp] at hx
      obtain ⟨hmem, ho⟩ := RightSide.of_mem_terms hx
      rw [ht]
      exact ⟨List.mem_cons_of_mem t ((sublist_rightTokens _).mem hmem), ho⟩
    · cases hp

end LineReading

namespace Compiler

variable (c : Compiler σ) (state : σ) (source : List Char)

/-- The phrases of a script: those of its lines, and the end if the table has one. -/
def phrases : List Phrase :=
  (c.lineReadings state source).flatMap LineReading.phrases ++
    c.symbols.end?.toList.map fun e => { head := .head true 0 e.value }

theorem map_block_phrases : (c.phrases state source).map Phrase.block = c.blocks state source := by
  rw [phrases, blocks, List.map_append, List.map_flatMap, List.map_map]
  congr 1
  exact List.flatMap_congr fun l _ => l.map_block_phrases

/-- The terms of a script, in the order of its operands. -/
def terms : List (Int32 × Token) := (c.phrases state source).flatMap Phrase.terms

theorem exists_of_mem_terms {x : Int32 × Token} (hx : x ∈ c.terms state source) :
    ∃ l ∈ c.lineReadings state source, x.2 ∈ l.tokens ∧ x.2.isOperand = true := by
  obtain ⟨p, hp, hx⟩ := List.mem_flatMap.1 hx
  rcases List.mem_append.1 hp with hp | hp
  · obtain ⟨l, hl, hp⟩ := List.mem_flatMap.1 hp
    exact ⟨l, hl, LineReading.of_mem_terms hp hx⟩
  · obtain ⟨e, _, rfl⟩ := List.mem_map.1 hp
    cases hx

/-- The operands of blocks are those of their terms. -/
theorem flatMap_operands_blocks :
    (c.blocks state source).flatMap Block.operands = (c.terms state source).map Word.ofTerm := by
  rw [← map_block_phrases, List.flatMap_map, terms, List.map_flatMap]
  rfl

end Compiler

end NpcScript
