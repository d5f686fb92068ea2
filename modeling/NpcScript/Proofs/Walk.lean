import NpcScript.Script

/-! # The walk over a script

`statementsFrom` cuts words by the sizes that the words themselves announce, so
it is not clear at once what a changed word does to the walk. A walk is
described here from the other side: `IsWalk` says which statements the words of
those statements are cut into. Cutting gives a walk that spells the words, and
every walk is found again in its own words. Whatever keeps `IsWalk` therefore
keeps the walk. -/
namespace NpcScript

namespace Statement

/-- The words of a statement, in their order. -/
def words (s : Statement) : List Word := s.head :: (s.slot.toList ++ s.operands)

/-- The number of operands that a statement announces: none for a function, the
content of the slot for a variable. -/
def announced (s : Statement) : Nat := if s.isFunction then 0 else (s.slot.map Word.toNat).getD 0

/-- The number of words that a statement announces. -/
def extent (s : Statement) : Nat := if s.slot.isSome then 2 + s.announced else 1

/-- A statement that has all of its words. -/
def Whole (s : Statement) : Prop := s.slot.isSome = true ∧ s.operands.length = s.announced

/-- A statement at the end of the words, which may lack some of its own. -/
def Cut (s : Statement) : Prop :=
  (s.slot = none ∧ s.operands = []) ∨ (s.slot.isSome = true ∧ s.operands.length ≤ s.announced)

theorem announced_of_function {s : Statement} (h : s.isFunction = true) : s.announced = 0 :=
  if_pos h

theorem announced_of_variable {s : Statement} (h : s.isFunction = false) {n : Word}
    (hn : s.slot = some n) : s.announced = n.toNat := by
  rw [announced, h, hn]
  rfl

theorem words_length (s : Statement) :
    s.words.length = 1 + s.slot.toList.length + s.operands.length := by
  simp only [words, List.length_cons, List.length_append]
  omega

theorem words_length_pos (s : Statement) : 0 < s.words.length := by
  rw [words_length]
  omega

theorem Whole.cut {s : Statement} (h : s.Whole) : s.Cut := .inr ⟨h.1, Nat.le_of_eq h.2⟩

theorem Whole.words_length {s : Statement} (h : s.Whole) : s.words.length = s.extent := by
  obtain ⟨hs, ho⟩ := h
  obtain ⟨n, hn⟩ := Option.isSome_iff_exists.1 hs
  rw [Statement.words_length, ho, extent, hn]
  simp

end Statement

/-- Statements that lie one after the other from an address on, all of them
whole but the last. -/
def IsWalk : Nat → List Statement → Prop
  | _, [] => True
  | addr, s :: rest =>
    s.addr = addr ∧ s.Cut ∧ (rest ≠ [] → s.Whole) ∧ IsWalk (addr + s.words.length) rest

/-- The words of statements, in their order. -/
def spell (ss : List Statement) : List Word := ss.flatMap Statement.words

@[simp]
theorem spell_nil : spell [] = [] := rfl

@[simp]
theorem spell_cons (s : Statement) (ss : List Statement) : spell (s :: ss) = s.words ++ spell ss := rfl

@[simp]
theorem spell_append (ss ts : List Statement) : spell (ss ++ ts) = spell ss ++ spell ts := by
  simp [spell]

/-- Cutting loses no word. -/
theorem spell_statementsFrom (addr : Nat) (ws : List Word) : spell (statementsFrom addr ws) = ws := by
  fun_induction statementsFrom addr ws with
  | case1 => rfl
  | case2 => rfl
  | case3 addr head slot rest count ih => simp [Statement.words, ih]

/-- Cutting gives a walk. -/
theorem isWalk_statementsFrom (addr : Nat) (ws : List Word) : IsWalk addr (statementsFrom addr ws) := by
  fun_induction statementsFrom addr ws with
  | case1 => trivial
  | case2 => exact ⟨rfl, .inl ⟨rfl, rfl⟩, fun h => absurd rfl h, trivial⟩
  | case3 addr head slot rest count ih =>
    have hann : Statement.announced ⟨addr, head, some slot, rest.take count⟩ = count := rfl
    by_cases hr : rest.drop count = []
    · -- the operands reach the end of the words: nothing is known of their number
      have hnil : statementsFrom (addr + 2 + count) (rest.drop count) = [] := by
        rw [hr, statementsFrom]
      rw [hnil]
      refine ⟨rfl, .inr ⟨rfl, ?_⟩, fun h => absurd rfl h, trivial⟩
      rw [hann, List.length_take]
      exact Nat.min_le_left ..
    · have hlen : (rest.take count).length = count := by
        have hc : ¬ rest.length ≤ count := fun hc => hr (List.drop_eq_nil_of_le hc)
        rw [List.length_take]
        omega
      have hw : Statement.Whole ⟨addr, head, some slot, rest.take count⟩ := ⟨rfl, hlen⟩
      refine ⟨rfl, hw.cut, fun _ => hw, ?_⟩
      rw [Statement.words_length, Option.toList_some, List.length_singleton, hlen, ← Nat.add_assoc]
      exact ih

/-- Cutting the words of a statement that has all of them gives it back. -/
theorem statementsFrom_words {s : Statement} (h : s.Whole) (ws : List Word) :
    statementsFrom s.addr (s.words ++ ws) =
      s :: statementsFrom (s.addr + s.words.length) ws := by
  obtain ⟨hs, ho⟩ := h
  rw [Statement.words_length]
  obtain ⟨addr, head, slot, operands⟩ := s
  obtain ⟨n, rfl⟩ := Option.isSome_iff_exists.1 hs
  have hcount : (if head.flag then 0 else n.toNat) = operands.length := ho.symm
  simp only [Statement.words, Option.toList_some, List.cons_append, List.nil_append,
    statementsFrom, hcount, List.take_left', List.drop_left',
    List.length_singleton, ← Nat.add_assoc]

theorem statementsFrom_cut {s : Statement} (h : s.Cut) : statementsFrom s.addr s.words = [s] := by
  obtain ⟨addr, head, slot, operands⟩ := s
  rcases h with ⟨rfl, rfl⟩ | ⟨hs, ho⟩
  · simp [Statement.words, statementsFrom]
  · obtain ⟨n, rfl⟩ := Option.isSome_iff_exists.1 hs
    have hcount : operands.length ≤ if head.flag then 0 else n.toNat := ho
    simp [Statement.words, statementsFrom, List.take_of_length_le hcount,
      List.drop_eq_nil_of_le hcount]

/-- Every walk is found again in its own words. -/
theorem statementsFrom_spell {addr : Nat} {ss : List Statement} (h : IsWalk addr ss) :
    statementsFrom addr (spell ss) = ss := by
  induction ss generalizing addr with
  | nil => simp [statementsFrom]
  | cons s rest ih =>
    obtain ⟨rfl, hc, hw, hr⟩ := h
    by_cases hn : rest = []
    · subst hn
      rw [spell_cons, spell_nil, List.append_nil, statementsFrom_cut hc]
    · rw [spell_cons, statementsFrom_words (hw hn), ih hr]

/-- What comes after some statements of a walk is a walk from where they end. -/
theorem IsWalk.drop {addr : Nat} {pre post : List Statement} (h : IsWalk addr (pre ++ post)) :
    IsWalk (addr + (spell pre).length) post := by
  induction pre generalizing addr with
  | nil => exact h
  | cons s pre ih =>
    obtain ⟨_, _, _, hr⟩ := h
    rw [spell_cons, List.length_append, ← Nat.add_assoc]
    exact ih hr

/-- A statement lies where the ones before it end. -/
theorem IsWalk.addr_eq {addr : Nat} {pre post : List Statement} {s : Statement}
    (h : IsWalk addr (pre ++ s :: post)) : s.addr = addr + (spell pre).length := h.drop.1

theorem IsWalk.le_addr {addr : Nat} {ss : List Statement} {s : Statement} (h : IsWalk addr ss)
    (hs : s ∈ ss) : addr ≤ s.addr := by
  obtain ⟨pre, post, rfl⟩ := List.append_of_mem hs
  rw [h.addr_eq]
  exact Nat.le_add_right ..

theorem IsWalk.addr_lt {addr : Nat} {ss : List Statement} {s : Statement} (h : IsWalk addr ss)
    (hs : s ∈ ss) : s.addr < addr + (spell ss).length := by
  obtain ⟨pre, post, rfl⟩ := List.append_of_mem hs
  have hp := s.words_length_pos
  rw [h.addr_eq, spell_append, spell_cons, List.length_append, List.length_append]
  omega

theorem IsWalk.ascend {addr : Nat} {ss : List Statement} (h : IsWalk addr ss) :
    ss.Pairwise fun s t => s.addr < t.addr := by
  induction ss generalizing addr with
  | nil => exact List.Pairwise.nil
  | cons s ss ih =>
    obtain ⟨rfl, _, _, hr⟩ := h
    refine List.pairwise_cons.2 ⟨fun t ht => ?_, ih hr⟩
    have hp := s.words_length_pos
    have ht := hr.le_addr ht
    omega

section

variable {addr : Nat} {before after : List Statement} {s : Statement}

/-- What comes after a statement of a walk starts where the statement ends. -/
theorem IsWalk.rest (h : IsWalk addr (before ++ s :: after)) :
    IsWalk (s.addr + s.words.length) after ∧
      s.addr + s.words.length + (spell after).length = addr + (spell (before ++ s :: after)).length := by
  obtain ⟨ha, _, _, hr⟩ := h.drop
  rw [← ha] at hr
  refine ⟨hr, ?_⟩
  rw [h.addr_eq, spell_append, spell_cons, List.length_append, List.length_append]
  omega

theorem IsWalk.mem_after (h : IsWalk addr (before ++ s :: after)) {t : Statement}
    (ht : t ∈ before ++ s :: after) (hlt : s.addr < t.addr) : t ∈ after := by
  obtain ⟨_, _, hcross⟩ := List.pairwise_append.1 h.ascend
  rcases List.mem_append.1 ht with ht | ht
  · have := hcross t ht s List.mem_cons_self
    omega
  · rcases List.mem_cons.1 ht with rfl | ht
    · omega
    · exact ht

end

end NpcScript
