import NpcScript.Proofs.Jumps

/-! # Linking a script

The order in which jumps are found does not matter, because no two of them go
into the same slot. Written in the order of the functions, they turn the words
of a walk into the words of the resolved walk. -/
namespace NpcScript

/-- Write a jump into words. -/
def Jump.write (ws : List Word) (j : Jump) : List Word := ws.set j.slot (.ofNat j.target)

/-- A jump's slot lies among the words of the walk that the jump is from. -/
theorem slot_mem_range {addr stop : Nat} {ss : List Statement} (h : IsWalk addr ss)
    (hl : addr + (spell ss).length ≤ addressSpace) {j : Jump} (hj : j ∈ forwardJumps stop ss) :
    addr < j.slot ∧ j.slot < addr + (spell ss).length := by
  induction ss generalizing addr with
  | nil => cases hj
  | cons s ss ih =>
    obtain ⟨rfl, _, _, hr⟩ := h
    rw [spell_cons, List.length_append, ← Nat.add_assoc] at hl ⊢
    have hp := s.words_length_pos
    have later (hm : j ∈ forwardJumps stop ss) := ih hr hl hm
    rw [forwardJumps] at hj
    split at hj
    · rename_i hs
      have h1 := Statement.one_lt_words_length (Bool.and_eq_true_iff.1 hs).2
      rcases List.mem_cons.1 hj with rfl | hm
      · have ha : s.slotAddr = s.addr + 1 := Statement.slotAddr_of_lt (by omega)
        simp only [ha]
        omega
      · have := later hm
        omega
    · have := later hj
      omega

/-- The slots of jumps ascend with the functions. -/
theorem slots_ascend {addr stop : Nat} {ss : List Statement} (h : IsWalk addr ss)
    (hl : addr + (spell ss).length ≤ addressSpace) :
    (forwardJumps stop ss).Pairwise fun i j => i.slot < j.slot := by
  induction ss generalizing addr with
  | nil => exact List.Pairwise.nil
  | cons s ss ih =>
    obtain ⟨rfl, _, _, hr⟩ := h
    rw [spell_cons, List.length_append, ← Nat.add_assoc] at hl
    rw [forwardJumps]
    split
    · rename_i hs
      have h1 := Statement.one_lt_words_length (Bool.and_eq_true_iff.1 hs).2
      have ha : s.slotAddr = s.addr + 1 := Statement.slotAddr_of_lt (by omega)
      refine List.pairwise_cons.2 ⟨fun j hj => ?_, ih hr hl⟩
      have := (slot_mem_range hr hl hj).1
      simp only [ha]
      omega
    · exact ih hr hl

theorem slots_inj (stop : Nat) {addr : Nat} {ss : List Statement} (h : IsWalk addr ss)
    (hl : addr + (spell ss).length ≤ addressSpace) :
    ∀ i ∈ forwardJumps stop ss, ∀ j ∈ forwardJumps stop ss, i.slot = j.slot → i = j := by
  have ha : (forwardJumps stop ss).Pairwise fun i j => i.slot < j.slot := slots_ascend h hl
  refine fun i hi j hj => List.Pairwise.forall_of_forall_of_flip (R := fun i j => i.slot = j.slot → i = j)
    (fun _ _ _ => rfl) (ha.imp ?_) (ha.imp ?_) hi hj
  · intro i j hlt he
    omega
  · intro i j hlt he
    omega

/-- Jumps into different slots can be written in any order. -/
theorem write_comm {i j : Jump} (h : i.slot = j.slot → i = j) (ws : List Word) :
    Jump.write (Jump.write ws i) j = Jump.write (Jump.write ws j) i := by
  by_cases he : i.slot = j.slot
  · rw [h he]
  · exact List.set_comm _ _ he

/-- Written in the order of the functions, the jumps of a walk resolve it. -/
theorem foldl_write {stop : Nat} {ss : List Statement} (before : List Word)
    (h : IsWalk before.length ss) (hl : before.length + (spell ss).length ≤ addressSpace) :
    (forwardJumps stop ss).foldl Jump.write (before ++ spell ss) =
      before ++ spell (resolve stop ss) := by
  induction ss generalizing before with
  | nil => rfl
  | cons s ss ih =>
    obtain ⟨ha, _, _, hr⟩ := h
    rw [spell_cons, List.length_append, ← Nat.add_assoc] at hl
    -- the words up to the end of the first statement, once its slot is filled
    have step := ih (before ++ (s.fill (nextAtMost s.indent stop ss)).words)
      (by rw [List.length_append, Statement.words_length_fill]; exact hr)
      (by rw [List.length_append, Statement.words_length_fill]; exact hl)
    rw [List.append_assoc, List.append_assoc] at step
    rw [forwardJumps, resolve, spell_cons, spell_cons, ← step]
    split
    · rename_i hs
      have h1 := Statement.one_lt_words_length (Bool.and_eq_true_iff.1 hs).2
      have hslot : s.slotAddr = before.length + 1 := by
        rw [Statement.slotAddr_of_lt (by omega), ha]
      rw [List.foldl_cons, Statement.words_fill hs]
      simp only [Jump.write, hslot]
      rw [List.set_append_right _ _ (by omega), Nat.add_sub_cancel_left, List.set_append_left _ _ h1]
    · rename_i hs
      rw [Statement.fill_of_not_jumps (by simpa using hs)]

namespace Script

theorem isWalk_statements (s : Script) : IsWalk 0 s.statements := isWalk_statementsFrom 0 _

theorem spell_statements (s : Script) : spell s.statements = s.words.toList :=
  spell_statementsFrom 0 _

theorem spell_statements_length (s : Script) : (spell s.statements).length = s.size := by
  rw [spell_statements, Array.length_toList]
  rfl

theorem words_foldl_patch (js : List Jump) (s : Script) :
    (js.foldl (fun s j => s.patch j.slot j.target) s).words.toList =
      js.foldl Jump.write s.words.toList := by
  induction js generalizing s with
  | nil => rfl
  | cons j js ih =>
    rw [List.foldl_cons, List.foldl_cons, ih]
    simp [patch, Jump.write]

theorem name_foldl_patch (js : List Jump) (s : Script) :
    (js.foldl (fun s j => s.patch j.slot j.target) s).name = s.name := by
  induction js generalizing s with
  | nil => rfl
  | cons j js ih => exact ih (s.patch j.slot j.target)

@[simp]
theorem name_link (s : Script) : s.link.1.name = s.name := by
  rw [link, ← Array.foldl_toList]
  exact name_foldl_patch _ s

variable {s : Script}

/-- The words after linking, for any script that fits in the address space. -/
theorem words_link (h : s.size ≤ addressSpace) :
    s.link.1.words.toList = spell (resolve s.size s.statements) := by
  have hl : (spell s.statements).length ≤ addressSpace := by rwa [spell_statements_length]
  have hp := Linker.jumps_perm s
  have inj := slots_inj s.size s.isWalk_statements (Nat.zero_add _ ▸ hl)
  calc s.link.1.words.toList
      = (Linker.jumps s).toList.foldl Jump.write s.words.toList := by
        rw [link, ← Array.foldl_toList, words_foldl_patch]
    _ = (forwardJumps s.size s.statements).foldl Jump.write s.words.toList :=
        hp.foldl_eq' (fun i hi j hj ws =>
          write_comm (inj i (hp.mem_iff.1 hi) j (hp.mem_iff.1 hj)) ws) _
    _ = spell (resolve s.size s.statements) := by
        rw [← spell_statements s]
        exact foldl_write [] s.isWalk_statements (by simpa using hl)

theorem size_link (h : s.size ≤ addressSpace) : s.link.1.size = s.size := by
  rw [size, ← Array.length_toList, words_link h, spell_resolve_length, spell_statements_length]

/-- Linking fills slots and leaves the walk. -/
theorem statements_link (h : s.size ≤ addressSpace) :
    s.link.1.statements = resolve s.size s.statements := by
  rw [statements, words_link h]
  exact statementsFrom_spell (s.isWalk_statements.resolve s.size)

theorem length_forwardJumps (stop : Nat) (ss : List Statement) :
    (forwardJumps stop ss).length = ss.countP Statement.jumps := by
  induction ss with
  | nil => rfl
  | cons t ss ih =>
    rw [forwardJumps, List.countP_cons, ← ih]
    split <;> rfl

/-- Every jump finds its slot, so the number of jumps is returned. -/
theorem count_link (h : s.size ≤ addressSpace) :
    s.link.2 = s.statements.countP Statement.jumps := by
  have hl : 0 + (spell s.statements).length = s.size := by
    rw [Nat.zero_add, spell_statements_length]
  have hc : s.link.2 = (Linker.jumps s).toList.countP fun j => decide (j.slot < s.size) := by
    rw [link, Array.countP_toList]
  rw [hc, (Linker.jumps_perm s).countP_eq, ← length_forwardJumps s.size, List.countP_eq_length]
  intro j hj
  have := slot_mem_range s.isWalk_statements (by rw [hl]; exact h) hj
  rw [hl] at this
  exact decide_eq_true this.2

theorem link_link (h : s.size ≤ addressSpace) : s.link.1.link = s.link := by
  have h' : s.link.1.size ≤ addressSpace := by rwa [size_link h]
  refine Prod.ext ?_ ?_
  · have hw : s.link.1.link.1.words = s.link.1.words := by
      rw [← Array.toList_inj, words_link h', words_link h, statements_link h, size_link h,
        resolve_resolve]
    have hn : s.link.1.link.1.name = s.link.1.name := name_link _
    generalize s.link.1.link.1 = a at hw hn
    generalize s.link.1 = b at hw hn
    cases a; cases b; cases hw; cases hn; rfl
  · rw [count_link h', count_link h, statements_link h, countP_jumps_resolve]

/-- A target lies in the script or right after it. -/
theorem nextAtMost_le_size {before after : List Statement} {f : Statement}
    (h : s.statements = before ++ f :: after) (indent : Nat) :
    nextAtMost indent s.size after ≤ s.size := by
  have walk := s.isWalk_statements
  have hl := s.spell_statements_length
  rw [h] at walk hl
  obtain ⟨hr, hstop⟩ := walk.rest
  have hle := nextAtMost_le_stop indent hr
  rwa [hstop, Nat.zero_add, hl] at hle

/-- **One walk links as forward scans do.** Whatever the words are, the slot of
each function with a slot holds the address of the first later statement that
is not deeper, or the end of the script; no other word changes; the number of
those functions is returned; and linking again does nothing. -/
theorem link_eq_forward_scan (s : Script) (h : s.size < 0x100000000) :
    (∀ before f after, s.statements = before ++ f :: after →
      f.isFunction = true → f.slot.isSome = true →
      (s.link.1.get? (f.addr + 1)).map Word.toNat = some (nextAtMost f.indent s.size after)) ∧
    (∀ a, (∀ f ∈ s.statements, f.isFunction = true → f.slot.isSome = true → a ≠ f.addr + 1) →
      s.link.1.get? a = s.get? a) ∧
    s.link.2 = s.statements.countP (fun f => f.isFunction && f.slot.isSome) ∧
    s.link.1.link = s.link := by
  have hs : s.size ≤ addressSpace := Nat.le_of_lt (Nat.lt_trans h (by decide))
  have walk := s.isWalk_statements
  have get (a : Nat) : s.link.1.get? a = (spell (resolve s.size s.statements))[a]? := by
    rw [get?, ← Array.getElem?_toList, words_link hs]
  refine ⟨?_, ?_, count_link hs, link_link hs⟩
  · intro before f after he hf hslot
    rw [he] at walk
    have ha : f.addr = (spell before).length := by rw [walk.addr_eq, Nat.zero_add]
    have hj : f.jumps = true := by rw [Statement.jumps, hf, hslot]; rfl
    have hlt : nextAtMost f.indent s.size after < 0x100000000 :=
      Nat.lt_of_le_of_lt (nextAtMost_le_size he _) h
    rw [get, ha, he, getElem?_slot_resolve s.size before after hj, Option.map_some,
      Word.toNat_ofNat hlt]
  · intro a ha
    rw [get, getElem?_resolve_of_ne, spell_statements, Array.getElem?_toList, get?]
    intro before f after he hj
    obtain ⟨hf, hslot⟩ := Bool.and_eq_true_iff.1 hj
    have := ha f (by rw [he]; simp) hf hslot
    rw [he] at walk
    rwa [walk.addr_eq, Nat.zero_add] at this

/-- Two functions, and a variable that announces nine operands and has one. -/
def overrun : Script :=
  { name := "overrun"
    words := #[.head true 0 1, .ofNat 0, .head true 1 7, .ofNat 0, .head false 1 2, .ofNat 9, .ofNat 5] }

/-- The inner function goes on at the cut statement, the outer one at the end. -/
theorem link_eq_forward_scan_overrun :
    overrun.size < 0x100000000 ∧
    (overrun.link.1.get? 3).map Word.toNat = some 4 ∧
    (overrun.link.1.get? 1).map Word.toNat = some 7 ∧
    overrun.link.1.get? 5 = overrun.get? 5 ∧
    overrun.link.2 = 2 ∧ overrun.link.1.link = overrun.link := by
  have hs : overrun.size < 0x100000000 := by decide
  obtain ⟨slots, others, count, again⟩ := link_eq_forward_scan overrun hs
  have walk : overrun.statements =
      [⟨0, .head true 0 1, some (.ofNat 0), []⟩, ⟨2, .head true 1 7, some (.ofNat 0), []⟩,
        ⟨4, .head false 1 2, some (.ofNat 9), [.ofNat 5]⟩] := by decide +kernel
  refine ⟨hs, ?_, ?_, others 5 ?_, ?_, again⟩
  · exact slots [_] _ [_] walk (by decide) rfl
  · exact slots [] _ [_, _] walk (by decide) rfl
  · rw [walk]; decide
  · rw [count, walk]; decide

end Script

end NpcScript
