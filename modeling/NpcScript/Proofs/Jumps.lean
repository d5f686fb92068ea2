import NpcScript.Proofs.Walk
import NpcScript.Script.Linker

/-! # The jumps of any script

The linker finds all targets in one walk. The plain way is to scan forward from
each function on its own. Both give the same jumps, in another order: the
waiting functions are kept innermost first, each strictly deeper than the next,
so that the ones a statement closes are exactly those it is the target of.

A jump is written into the slot of a function, and no size depends on such a
slot. So linking fills slots and leaves the walk as it is, whatever the words
were, and a second linking finds nothing to change. -/
namespace NpcScript

/-- The forward scan: the address of the first statement not deeper than a
depth, and the end of the script if all are deeper. -/
def nextAtMost (indent stop : Nat) (later : List Statement) : Nat :=
  ((later.find? fun t => decide (t.indent ≤ indent)).map Statement.addr).getD stop

theorem nextAtMost_nil (indent stop : Nat) : nextAtMost indent stop [] = stop := rfl

theorem nextAtMost_cons_of_le {indent stop : Nat} {s : Statement} {later : List Statement}
    (h : s.indent ≤ indent) : nextAtMost indent stop (s :: later) = s.addr := by
  rw [nextAtMost, List.find?_cons_of_pos (by simpa using h)]
  rfl

theorem nextAtMost_cons_of_lt {indent stop : Nat} {s : Statement} {later : List Statement}
    (h : indent < s.indent) : nextAtMost indent stop (s :: later) = nextAtMost indent stop later := by
  rw [nextAtMost, List.find?_cons_of_neg (by simpa using h)]
  rfl

/-- A scan stops at the end or at a statement that it passed. -/
theorem nextAtMost_cases (indent stop : Nat) (later : List Statement) :
    nextAtMost indent stop later = stop ∨
      ∃ t ∈ later, t.indent ≤ indent ∧ nextAtMost indent stop later = t.addr := by
  induction later with
  | nil => exact .inl rfl
  | cons s later ih =>
    by_cases hs : s.indent ≤ indent
    · exact .inr ⟨s, List.mem_cons_self, hs, nextAtMost_cons_of_le hs⟩
    · rw [nextAtMost_cons_of_lt (by omega)]
      rcases ih with h | ⟨t, ht, hi, h⟩
      · exact .inl h
      · exact .inr ⟨t, List.mem_cons_of_mem s ht, hi, h⟩

/-- A scan goes past no statement that is not deeper. -/
theorem nextAtMost_le {indent stop : Nat} {later : List Statement}
    (h : later.Pairwise fun s t => s.addr < t.addr) {t : Statement} (ht : t ∈ later)
    (hi : t.indent ≤ indent) : nextAtMost indent stop later ≤ t.addr := by
  induction later with
  | nil => cases ht
  | cons s later ih =>
    obtain ⟨hs, hr⟩ := List.pairwise_cons.1 h
    by_cases hl : s.indent ≤ indent
    · rw [nextAtMost_cons_of_le hl]
      rcases List.mem_cons.1 ht with rfl | ht
      · exact Nat.le_refl _
      · exact Nat.le_of_lt (hs t ht)
    · rw [nextAtMost_cons_of_lt (by omega)]
      rcases List.mem_cons.1 ht with rfl | ht
      · omega
      · exact ih hr ht

theorem nextAtMost_le_stop (indent : Nat) {addr : Nat} {later : List Statement} (h : IsWalk addr later) :
    nextAtMost indent (addr + (spell later).length) later ≤ addr + (spell later).length := by
  rcases nextAtMost_cases indent (addr + (spell later).length) later with he | ⟨t, ht, _, he⟩
  · exact Nat.le_of_eq he
  · rw [he]
    exact Nat.le_of_lt (h.addr_lt ht)

namespace Statement

/-- A function with a slot has a jump to write. -/
def jumps (s : Statement) : Bool := s.isFunction && s.slot.isSome

/-- Fill the slot of a function. -/
def fill (s : Statement) (target : Nat) : Statement :=
  if s.isFunction then { s with slot := s.slot.map fun _ => .ofNat target } else s

@[simp]
theorem addr_fill (s : Statement) (target : Nat) : (s.fill target).addr = s.addr := by
  unfold fill; split <;> rfl

@[simp]
theorem head_fill (s : Statement) (target : Nat) : (s.fill target).head = s.head := by
  unfold fill; split <;> rfl

@[simp]
theorem operands_fill (s : Statement) (target : Nat) : (s.fill target).operands = s.operands := by
  unfold fill; split <;> rfl

@[simp]
theorem isFunction_fill (s : Statement) (target : Nat) :
    (s.fill target).isFunction = s.isFunction := by
  rw [isFunction, head_fill, isFunction]

@[simp]
theorem indent_fill (s : Statement) (target : Nat) : (s.fill target).indent = s.indent := by
  rw [indent, head_fill, indent]

@[simp]
theorem isSome_slot_fill (s : Statement) (target : Nat) :
    (s.fill target).slot.isSome = s.slot.isSome := by
  unfold fill; split <;> simp

@[simp]
theorem jumps_fill (s : Statement) (target : Nat) : (s.fill target).jumps = s.jumps := by
  simp [jumps]

@[simp]
theorem fill_fill (s : Statement) (target again : Nat) :
    (s.fill target).fill again = s.fill again := by
  cases hf : s.isFunction with
  | false => simp [fill, hf]
  | true =>
    have hg : ({ s with slot := s.slot.map fun _ => .ofNat target } : Statement).isFunction = true := hf
    simp [fill, hf, hg, Function.comp_def]

/-- No size depends on the slot of a function. -/
@[simp]
theorem announced_fill (s : Statement) (target : Nat) : (s.fill target).announced = s.announced := by
  unfold announced
  rw [isFunction_fill]
  split
  · rfl
  · rename_i hf
    rw [fill, if_neg hf]

@[simp]
theorem words_length_fill (s : Statement) (target : Nat) :
    (s.fill target).words.length = s.words.length := by
  unfold fill
  split
  · cases hs : s.slot <;> simp [words_length, hs]
  · rfl

theorem fill_of_not_jumps {s : Statement} (h : s.jumps = false) (target : Nat) :
    s.fill target = s := by
  unfold fill
  split
  · rename_i hf
    have hs : s.slot = none := by simpa [jumps, hf] using h
    rw [hs]
    exact congrArg (fun slot => { s with slot }) hs.symm
  · rfl

theorem words_fill {s : Statement} (h : s.jumps = true) (target : Nat) :
    (s.fill target).words = s.words.set 1 (.ofNat target) := by
  obtain ⟨hf, hs⟩ := Bool.and_eq_true_iff.1 h
  obtain ⟨w, hw⟩ := Option.isSome_iff_exists.1 hs
  rw [fill, if_pos hf]
  simp [words, hw]

theorem one_lt_words_length {s : Statement} (h : s.slot.isSome = true) : 1 < s.words.length := by
  obtain ⟨w, hw⟩ := Option.isSome_iff_exists.1 h
  rw [words_length, hw, Option.toList_some, List.length_singleton]
  omega

theorem Whole.fill {s : Statement} (h : s.Whole) (target : Nat) : (s.fill target).Whole := by
  refine ⟨?_, ?_⟩
  · rw [isSome_slot_fill]; exact h.1
  · rw [operands_fill, announced_fill]; exact h.2

theorem Cut.fill {s : Statement} (h : s.Cut) (target : Nat) : (s.fill target).Cut := by
  rcases h with ⟨hs, ho⟩ | ⟨hs, ho⟩
  · refine .inl ⟨?_, by rw [operands_fill]; exact ho⟩
    rw [← Option.isNone_iff_eq_none, ← Option.not_isSome, isSome_slot_fill, hs]
    rfl
  · refine .inr ⟨by rw [isSome_slot_fill]; exact hs, ?_⟩
    rw [operands_fill, announced_fill]
    exact ho

end Statement

/-- Every function's slot filled by a forward scan of its own. -/
def resolve (stop : Nat) : List Statement → List Statement
  | [] => []
  | s :: later => s.fill (nextAtMost s.indent stop later) :: resolve stop later

/-- The jumps that forward scans find, in the order of the functions. -/
def forwardJumps (stop : Nat) : List Statement → List Jump
  | [] => []
  | s :: later =>
    if s.jumps then ⟨s.slotAddr, nextAtMost s.indent stop later⟩ :: forwardJumps stop later
    else forwardJumps stop later

namespace Linker

/-- Each waiting function is deeper than the one it waits inside of. -/
def Nested (l : Linker) : Prop := l.waiting.Pairwise fun a b => b.indent < a.indent

/-- The functions that go on waiting after a statement are less deep than it. -/
theorem Nested.lt_of_mem_dropWhile {l : Linker} (h : l.Nested) {indent : Nat} {w : Waiting}
    (hw : w ∈ l.waiting.dropWhile fun w => decide (indent ≤ w.indent)) : w.indent < indent := by
  unfold Nested at h
  generalize l.waiting = ws at h hw
  induction ws with
  | nil => cases hw
  | cons v ws ih =>
    obtain ⟨hv, hs⟩ := List.pairwise_cons.1 h
    by_cases hi : indent ≤ v.indent
    · rw [List.dropWhile_cons_of_pos (by simpa using hi)] at hw
      exact ih hs hw
    · rw [List.dropWhile_cons_of_neg (by simpa using hi)] at hw
      rcases List.mem_cons.1 hw with rfl | hm
      · omega
      · have := hv w hm
        omega

theorem Nested.visit {l : Linker} (h : l.Nested) (s : Statement) : (l.visit s).Nested := by
  have hd : (l.waiting.dropWhile fun w => decide (s.indent ≤ w.indent)).Pairwise
      fun a b => b.indent < a.indent := h.sublist (List.dropWhile_sublist _)
  unfold Linker.visit Nested
  dsimp only
  split
  · exact List.pairwise_cons.2 ⟨fun w hw => h.lt_of_mem_dropWhile hw, hd⟩
  · exact hd

@[simp]
theorem toList_found_visit (l : Linker) (s : Statement) :
    (l.visit s).found.toList =
      l.found.toList ++ (l.closedBy s.indent).map fun w => ⟨w.slot, s.addr⟩ := by
  simp [Linker.visit]

/-- A statement parts the waiting functions into those that it closes and those
less deep. So a rule for the waiting functions that has one case for each part
gives the same before the statement as after it, up to order. -/
theorem Nested.map_waiting_visit {β : Type} {l : Linker} (h : l.Nested) (s : Statement)
    {rule closed left : Waiting → β} (hclosed : ∀ w, s.indent ≤ w.indent → rule w = closed w)
    (hleft : ∀ w, w.indent < s.indent → rule w = left w) (rest : List β) :
    List.Perm ((l.closedBy s.indent).map closed ++ ((l.visit s).waiting.map left ++ rest))
      (l.waiting.map rule ++ if s.jumps then left ⟨s.indent, s.slotAddr⟩ :: rest else rest) := by
  have hparts : l.waiting.map rule = (l.closedBy s.indent).map closed ++
      (l.waiting.dropWhile fun w => decide (s.indent ≤ w.indent)).map left := by
    conv => lhs; rw [← List.takeWhile_append_dropWhile (l := l.waiting)
      (p := fun w => decide (s.indent ≤ w.indent)), List.map_append]
    congr 1
    · refine List.map_congr_left fun w hw => hclosed w ?_
      have hp := List.all_eq_true.1 List.all_takeWhile w hw
      simpa using hp
    · exact List.map_congr_left fun w hw => hleft w (h.lt_of_mem_dropWhile hw)
  have hj : (s.isFunction && s.slot.isSome) = s.jumps := rfl
  rw [hparts, List.append_assoc, Linker.visit, hj]
  refine (List.Perm.refl _).append ?_
  split
  · -- the statement itself moves behind the functions around it
    exact List.perm_middle.symm
  · exact List.Perm.refl _

/-- The jumps that are found or still to come: those found, those of the waiting
functions by forward scans, those of the statements ahead. -/
def outlook (l : Linker) (stop : Nat) (ahead : List Statement) : List Jump :=
  l.found.toList ++ ((l.waiting.map fun w => ⟨w.slot, nextAtMost w.indent stop ahead⟩) ++
    forwardJumps stop ahead)

/-- Passing a statement changes the order of the outlook, and nothing else: it is
the target of those that it closes and of no other. -/
theorem Nested.outlook_visit {l : Linker} (h : l.Nested) (stop : Nat) (s : Statement)
    (ahead : List Statement) :
    List.Perm ((l.visit s).outlook stop ahead) (l.outlook stop (s :: ahead)) := by
  unfold outlook
  rw [toList_found_visit, List.append_assoc, forwardJumps]
  refine (List.Perm.refl _).append (h.map_waiting_visit s (fun w hw => ?_) (fun w hw => ?_) _)
  · rw [nextAtMost_cons_of_le hw]
  · rw [nextAtMost_cons_of_lt hw]

/-- What a whole walk finds is the outlook from before it. -/
theorem Nested.found_perm {l : Linker} (h : l.Nested) (stop : Nat) (ss : List Statement) :
    List.Perm ((ss.foldl Linker.visit l).finish stop).found.toList (l.outlook stop ss) := by
  induction ss generalizing l with
  | nil => simp [finish, outlook, nextAtMost_nil, forwardJumps]
  | cons s ss ih => exact (ih (h.visit s)).trans (h.outlook_visit stop s ss)

/-- The linker and the forward scans find the same jumps. -/
theorem jumps_perm (s : Script) : List.Perm (jumps s).toList (forwardJumps s.size s.statements) := by
  have h : Nested {} := List.Pairwise.nil
  exact h.found_perm s.size s.statements

end Linker

/-! ## Scans along a walk -/

section

variable {addr : Nat} {before after : List Statement} {s : Statement}

/-- A scan from a statement with a slot stops behind the statement and not
behind the walk. -/
theorem IsWalk.nextAtMost_mem (h : IsWalk addr (before ++ s :: after)) (hs : s.slot.isSome = true)
    (indent : Nat) :
    s.addr + 2 ≤ nextAtMost indent (addr + (spell (before ++ s :: after)).length) after ∧
      nextAtMost indent (addr + (spell (before ++ s :: after)).length) after ≤
        addr + (spell (before ++ s :: after)).length := by
  obtain ⟨hr, hstop⟩ := h.rest
  have hl := Statement.one_lt_words_length hs
  rw [← hstop]
  refine ⟨?_, nextAtMost_le_stop indent hr⟩
  rcases nextAtMost_cases indent (s.addr + s.words.length + (spell after).length) after with
    he | ⟨t, ht, _, he⟩
  · rw [he]
    omega
  · have := hr.le_addr ht
    rw [he]
    omega

/-- A scan from inside another one does not leave it. -/
theorem IsWalk.nextAtMost_nested (h : IsWalk addr (before ++ s :: after)) {before' after' : List Statement}
    {t : Statement} (he : before ++ s :: after = before' ++ t :: after') (hlt : s.addr < t.addr)
    (hin : t.addr < nextAtMost s.indent (addr + (spell (before ++ s :: after)).length) after) :
    nextAtMost t.indent (addr + (spell (before ++ s :: after)).length) after' ≤
      nextAtMost s.indent (addr + (spell (before ++ s :: after)).length) after := by
  have h' := h
  rw [he] at h'
  obtain ⟨hr, _⟩ := h.rest
  obtain ⟨hr', hstop'⟩ := h'.rest
  have ht : t ∈ after := h.mem_after (by rw [he]; simp) hlt
  -- the inner statement is deeper, or the outer scan would have stopped there
  have hdeep : s.indent < t.indent := by
    rcases Nat.lt_or_ge s.indent t.indent with hd | hd
    · exact hd
    · have hle : nextAtMost s.indent (addr + (spell (before ++ s :: after)).length) after ≤ t.addr :=
        nextAtMost_le hr.ascend ht hd
      omega
  rcases nextAtMost_cases s.indent (addr + (spell (before ++ s :: after)).length) after with
    hj | ⟨u, hu, hi, hj⟩
  · rw [hj, he, ← hstop']
    exact nextAtMost_le_stop t.indent hr'
  · rw [hj] at hin ⊢
    have hu' : u ∈ before' ++ t :: after' := by
      rw [← he]
      simp [hu]
    exact nextAtMost_le hr'.ascend (h'.mem_after hu' hin) (by omega)

end

/-! ## Filled slots -/

theorem spell_resolve_length (stop : Nat) (ss : List Statement) :
    (spell (resolve stop ss)).length = (spell ss).length := by
  induction ss with
  | nil => rfl
  | cons s ss ih => simp [resolve, ih]

/-- Filling slots keeps the walk. -/
theorem IsWalk.resolve {addr : Nat} {ss : List Statement} (h : IsWalk addr ss) (stop : Nat) :
    IsWalk addr (resolve stop ss) := by
  induction ss generalizing addr with
  | nil => trivial
  | cons s ss ih =>
    obtain ⟨ha, hc, hw, hr⟩ := h
    refine ⟨by rw [Statement.addr_fill]; exact ha, hc.fill _, fun hn => ?_, ?_⟩
    · refine (hw fun h0 => hn ?_).fill _
      rw [h0]
      rfl
    · rw [Statement.words_length_fill]
      exact ih hr

/-- A scan sees depths and addresses only, and these stay. -/
theorem nextAtMost_resolve (indent stop stop' : Nat) (ss : List Statement) :
    nextAtMost indent stop (resolve stop' ss) = nextAtMost indent stop ss := by
  induction ss with
  | nil => rfl
  | cons s ss ih =>
    by_cases hs : s.indent ≤ indent
    · rw [resolve, nextAtMost_cons_of_le hs, nextAtMost_cons_of_le (by simpa using hs),
        Statement.addr_fill]
    · have hs : indent < s.indent := by omega
      rw [resolve, nextAtMost_cons_of_lt hs, nextAtMost_cons_of_lt (by simpa using hs), ih]

theorem resolve_resolve (stop : Nat) (ss : List Statement) :
    resolve stop (resolve stop ss) = resolve stop ss := by
  induction ss with
  | nil => rfl
  | cons s ss ih => simp [resolve, nextAtMost_resolve, ih]

theorem countP_jumps_resolve (stop : Nat) (ss : List Statement) :
    (resolve stop ss).countP Statement.jumps = ss.countP Statement.jumps := by
  induction ss with
  | nil => rfl
  | cons s ss ih => simp [resolve, List.countP_cons, ih]

/-- The word in a function's slot is the target that a forward scan finds. -/
theorem getElem?_slot_resolve (stop : Nat) (pre post : List Statement) {s : Statement}
    (h : s.jumps = true) :
    (spell (resolve stop (pre ++ s :: post)))[(spell pre).length + 1]? =
      some (.ofNat (nextAtMost s.indent stop post)) := by
  induction pre with
  | nil =>
    have hl := Statement.one_lt_words_length (Bool.and_eq_true_iff.1 h).2
    simp only [List.nil_append, resolve, spell_cons, spell_nil, List.length_nil, Nat.zero_add,
      Statement.words_fill h]
    rw [List.getElem?_append_left (by simpa using hl), List.getElem?_set_self hl]
  | cons t pre ih =>
    simp only [List.cons_append, resolve, spell_cons, List.length_append]
    rw [List.getElem?_append_right (by simp; omega), Statement.words_length_fill,
      show t.words.length + (spell pre).length + 1 - t.words.length = (spell pre).length + 1 by omega]
    exact ih

/-- Every other word stays. -/
theorem getElem?_resolve_of_ne (stop : Nat) {ss : List Statement} {a : Nat}
    (h : ∀ pre s post, ss = pre ++ s :: post → s.jumps = true → a ≠ (spell pre).length + 1) :
    (spell (resolve stop ss))[a]? = (spell ss)[a]? := by
  induction ss generalizing a with
  | nil => rfl
  | cons s ss ih =>
    rw [resolve, spell_cons, spell_cons]
    by_cases ha : a < s.words.length
    · rw [List.getElem?_append_left (by simpa using ha), List.getElem?_append_left ha]
      cases hj : s.jumps with
      | false => rw [Statement.fill_of_not_jumps hj]
      | true =>
        have hne : 1 ≠ a := (h [] s ss rfl hj).symm
        rw [Statement.words_fill hj, List.getElem?_set_ne hne]
    · rw [List.getElem?_append_right (by simpa using ha), List.getElem?_append_right (by omega),
        Statement.words_length_fill]
      refine ih fun pre t post hs ht => ?_
      have := h (s :: pre) t post (by rw [hs]; rfl) ht
      rw [spell_cons, List.length_append] at this
      omega

theorem map_addr_resolve (stop : Nat) (ss : List Statement) :
    (resolve stop ss).map Statement.addr = ss.map Statement.addr := by
  induction ss with
  | nil => rfl
  | cons s ss ih => simp [resolve, ih]

/-- Where a resolved statement comes from. -/
theorem resolve_eq_append {stop : Nat} {ss pre post : List Statement} {t : Statement}
    (h : resolve stop ss = pre ++ t :: post) :
    ∃ before s after, ss = before ++ s :: after ∧
      t = s.fill (nextAtMost s.indent stop after) ∧ post = resolve stop after := by
  induction ss generalizing pre with
  | nil => simp [resolve] at h
  | cons s ss ih =>
    rw [resolve] at h
    cases pre with
    | nil =>
      rw [List.nil_append, List.cons.injEq] at h
      exact ⟨[], s, ss, rfl, h.1.symm, h.2.symm⟩
    | cons u pre =>
      rw [List.cons_append, List.cons.injEq] at h
      obtain ⟨before, r, after, he, ht, hp⟩ := ih h.2
      exact ⟨s :: before, r, after, by rw [he]; rfl, ht, hp⟩

/-- The last statement goes on at the end. -/
theorem resolve_concat (stop : Nat) (ss : List Statement) (s : Statement) :
    ∃ pre, resolve stop (ss ++ [s]) = pre ++ [s.fill stop] := by
  induction ss with
  | nil => exact ⟨[], rfl⟩
  | cons t ss ih =>
    obtain ⟨pre, hp⟩ := ih
    exact ⟨_ :: pre, by rw [List.cons_append, resolve, hp]; rfl⟩

theorem Statement.jump_fill (s : Statement) (target : Nat) :
    (s.fill target).jump? = if s.jumps then some (Word.ofNat target).toNat else none := by
  unfold jump? jumps
  rw [isFunction_fill]
  cases hf : s.isFunction with
  | false => simp
  | true => cases hs : s.slot <;> simp [fill, hf, hs]

end NpcScript
