import NpcScript.Proofs.Placement

/-! # Scripts joined

Two scripts are joined by putting the second where the first one ends. A jump to
that end goes on into the second script, to where the same scan stops there, and
all other jumps keep their distance. For blocks in place this is what becomes of
them when others follow. -/
namespace NpcScript

theorem nextBlock_add (indent k addr : Nat) (bs : List Block) :
    nextBlock indent (k + addr) bs = k + nextBlock indent addr bs := by
  induction bs generalizing addr with
  | nil => rfl
  | cons b bs ih =>
    rw [nextBlock, nextBlock, Nat.add_assoc, ih]
    split <;> rfl

/-- A scan that finds nothing in the first blocks goes on in the others. -/
theorem nextBlock_append (indent addr : Nat) (bs cs : List Block) :
    nextBlock indent addr (bs ++ cs) =
      if nextBlock indent addr bs = addr + totalSize bs then nextBlock indent (addr + totalSize bs) cs
      else nextBlock indent addr bs := by
  induction bs generalizing addr with
  | nil => simp [nextBlock]
  | cons b bs ih =>
    rw [List.cons_append, nextBlock, nextBlock, totalSize_cons, ← Nat.add_assoc]
    split
    · rw [if_neg]
      rw [Block.size]
      omega
    · exact ih (addr + b.size)

/-- The scan over blocks finds the statement that the scan over the script does. -/
theorem find?_place {indent addr : Nat} {bs : List Block} (stop : Nat)
    (h : ∃ b ∈ bs, b.head.indent ≤ indent) :
    ∃ t, (place stop addr bs).find? (fun t => t.indent ≤ indent) = some t ∧
      t.addr = nextBlock indent addr bs := by
  induction bs generalizing addr with
  | nil =>
    obtain ⟨b, hb, _⟩ := h
    cases hb
  | cons b bs ih =>
    rw [place, nextBlock]
    by_cases hb : b.head.indent ≤ indent
    · rw [if_pos hb]
      exact ⟨_, List.find?_cons_of_pos (decide_eq_true hb), rfl⟩
    · have hrest : ∃ b ∈ bs, b.head.indent ≤ indent := by
        obtain ⟨d, hd, hi⟩ := h
        rcases List.mem_cons.1 hd with rfl | hd
        · exact absurd hi hb
        · exact ⟨d, hd, hi⟩
      obtain ⟨t, ht, ha⟩ := ih hrest
      have hskip : (decide (b.head.indent ≤ indent)) = false := decide_eq_false hb
      rw [if_neg hb]
      refine ⟨t, Eq.trans (List.find?_cons_of_neg ?_) ht, ha⟩
      rw [Bool.not_eq_true]
      exact hskip

namespace Block

variable {b : Block} {stop addr : Nat} {later : List Block}

theorem slotValue_of_function (hf : b.head.flag = true) (h : addr + totalSize (b :: later) ≤ stop) :
    b.slotValue stop addr later = nextBlock b.head.indent (addr + b.size) later := by
  have hle := nextBlock_le b.head.indent (addr + b.size) later
  rw [totalSize_cons] at h
  rw [slotValue, if_pos hf]
  omega

theorem slotValue_of_assignment (hf : b.head.flag = false) (h : addr + totalSize (b :: later) ≤ stop) :
    b.slotValue stop addr later = b.operands.length := by
  rw [totalSize_cons, size] at h
  rw [slotValue, hf, if_neg Bool.false_ne_true]
  omega

end Block

theorem length_spell_place (stop addr : Nat) (bs : List Block) :
    (spell (place stop addr bs)).length = totalSize bs := by
  induction bs generalizing addr with
  | nil => rfl
  | cons b bs ih =>
    rw [spell_place_cons, List.length_cons, List.length_cons, List.length_append, ih, totalSize_cons,
      Block.size]
    omega

/-- The words and the statements of a script are those of some blocks in place. -/
structure Script.IsPlaced (bs : List Block) (s : Script) : Prop where
  words : s.words.toList = spell (place (totalSize bs) 0 bs)
  statements : s.statements = place (totalSize bs) 0 bs

namespace Script.IsPlaced

variable {bs pre post : List Block} {b : Block} {s : Script}

theorem get?_eq (h : s.IsPlaced bs) (i : Nat) : s.get? i = (spell (place (totalSize bs) 0 bs))[i]? := by
  rw [get?, ← Array.getElem?_toList, h.words]

/-- A word that is no jump is one of the blocks. -/
theorem get?_of_not_jump (h : s.IsPlaced bs) {i : Nat}
    (hi : ∀ pre b post, bs = pre ++ b :: post → b.head.flag = true → i ≠ totalSize pre + 1) :
    s.get? i = (blockWords bs)[i]? := by
  rw [h.get?_eq]
  refine getElem?_place _ _ fun pre b post hb he => ?_
  cases hf : b.head.flag with
  | true => exact absurd he (hi pre b post hb hf)
  | false =>
    exact Block.slotValue_of_assignment hf (Nat.le_of_eq (by rw [hb, totalSize_append, Nat.zero_add]))

/-- A jump of a script with addresses of 32 bits is where the scan stops. -/
theorem slot_of_function (h : s.IsPlaced (pre ++ b :: post)) (hf : b.head.flag = true)
    (hsize : totalSize (pre ++ b :: post) < 0x100000000) :
    (s.get? (totalSize pre + 1)).map Word.toNat =
      some (nextBlock b.head.indent (totalSize pre + b.size) post) := by
  have hle := nextBlock_le b.head.indent (totalSize pre + b.size) post
  rw [totalSize_append, totalSize_cons] at hsize
  rw [h.get?_eq, getElem?_slot_place, Nat.zero_add,
    Block.slotValue_of_function hf (Nat.le_of_eq (totalSize_append ..).symm), Option.map_some,
    Word.toNat_ofNat (by omega)]

theorem mem_statements (h : s.IsPlaced bs) {f : Statement} :
    f ∈ s.statements ↔ ∃ pre b post, bs = pre ++ b :: post ∧
      f = ⟨totalSize pre, b.head, some (.ofNat (b.slotValue (totalSize bs) (totalSize pre) post)),
        b.operands⟩ := by
  rw [h.statements, mem_place]
  simp only [Nat.zero_add]

theorem size_eq (h : s.IsPlaced bs) : s.size = totalSize bs := by
  rw [size, ← Array.length_toList, h.words, length_spell_place]

/-- The jump of a statement is the number in its slot. -/
theorem jump?_eq (h : s.IsPlaced bs) {f : Statement} (hf : f ∈ s.statements)
    (hfun : f.isFunction = true) : f.jump? = (s.get? (f.addr + 1)).map Word.toNat := by
  obtain ⟨pre, b, post, rfl, rfl⟩ := h.mem_statements.1 hf
  have hslot := getElem?_slot_place (totalSize (pre ++ b :: post)) 0 pre b post
  rw [Nat.zero_add] at hslot
  rw [h.get?_eq, Statement.jump?, if_pos hfun]
  exact congrArg (Option.map Word.toNat) hslot.symm

end Script.IsPlaced

/-- One script is another one, without its end, and a third behind it: jumps of
the back move along, and a jump to the end of the front goes on to where it
stops in the back. -/
structure Script.IsJoin (s front back : Script) : Prop where
  size : s.size = front.size - 2 + back.size
  front_eq : ∀ i < front.size - 2, (∀ f ∈ front.statements, f.isFunction = true → i ≠ f.addr + 1) →
    s.get? i = front.get? i
  back_eq : ∀ i < back.size, (∀ f ∈ back.statements, f.isFunction = true → i ≠ f.addr + 1) →
    s.get? (front.size - 2 + i) = back.get? i
  front_jump : ∀ f ∈ front.statements, f.isFunction = true → f.addr < front.size - 2 →
    ∃ j, f.jump? = some j ∧
      if j = front.size - 2 then
        ∃ t, back.statements.find? (fun t => t.indent ≤ f.indent) = some t ∧
          (s.get? (f.addr + 1)).map Word.toNat = some (front.size - 2 + t.addr)
      else (s.get? (f.addr + 1)).map Word.toNat = some j
  back_jump : ∀ f ∈ back.statements, f.isFunction = true →
    ∃ j, f.jump? = some j ∧
      (s.get? (front.size - 2 + (f.addr + 1))).map Word.toNat = some (front.size - 2 + j)

section

variable {bs cs pre post : List Block} {b : Block}

theorem exists_of_append_of_lt (h : bs ++ cs = pre ++ b :: post) (hlt : totalSize pre < totalSize bs) :
    ∃ mid, bs = pre ++ b :: mid ∧ post = mid ++ cs := by
  rcases List.append_eq_append_iff.1 h with ⟨mid, rfl, _⟩ | ⟨mid, rfl, hmid⟩
  · rw [totalSize_append] at hlt
    omega
  · cases mid with
    | nil =>
      rw [List.append_nil] at hlt
      omega
    | cons d mid =>
      cases hmid
      exact ⟨mid, rfl, rfl⟩

theorem exists_of_append_of_le (h : bs ++ cs = pre ++ b :: post) (hle : totalSize bs ≤ totalSize pre) :
    ∃ mid, pre = bs ++ mid ∧ cs = mid ++ b :: post := by
  rcases List.append_eq_append_iff.1 h with ⟨mid, rfl, hmid⟩ | ⟨mid, rfl, hmid⟩
  · exact ⟨mid, rfl, hmid⟩
  · cases mid with
    | nil => exact ⟨[], by simp, hmid.symm⟩
    | cons d mid =>
      rw [totalSize_append, totalSize_cons, Block.size] at hle
      omega

end

namespace Script

variable {front back s : Script} {bs cs : List Block} {e : Block}

/-- Words of the front that are no jumps stay. -/
theorem get?_front (hf : front.IsPlaced (bs ++ [e])) (hs : s.IsPlaced (bs ++ cs)) {i : Nat}
    (hi : i < totalSize bs)
    (hne : ∀ f ∈ front.statements, f.isFunction = true → i ≠ f.addr + 1) : s.get? i = front.get? i := by
  have hnot (pre : List Block) (b : Block) (mid : List Block) (hb : bs = pre ++ b :: mid)
      (hfun : b.head.flag = true) : i ≠ totalSize pre + 1 :=
    hne _ (hf.mem_statements.2 ⟨pre, b, mid ++ [e], by rw [hb]; simp, rfl⟩) hfun
  have key (ds : List Block) {t : Script} (ht : t.IsPlaced (bs ++ ds)) :
      t.get? i = (blockWords bs)[i]? := by
    have hjump (pre : List Block) (b : Block) (post : List Block) (hd : bs ++ ds = pre ++ b :: post)
        (hfun : b.head.flag = true) : i ≠ totalSize pre + 1 := by
      intro hslot
      obtain ⟨mid, hmid, _⟩ := exists_of_append_of_lt hd (by omega)
      exact hnot pre b mid hmid hfun hslot
    rw [ht.get?_of_not_jump hjump, blockWords_append,
      List.getElem?_append_left (by rwa [length_blockWords])]
  rw [key _ hs, key _ hf]

/-- Words of the back that are no jumps move along. -/
theorem get?_back (hb : back.IsPlaced cs) (hs : s.IsPlaced (bs ++ cs)) {i : Nat}
    (hne : ∀ f ∈ back.statements, f.isFunction = true → i ≠ f.addr + 1) :
    s.get? (totalSize bs + i) = back.get? i := by
  have hnot (pre : List Block) (b : Block) (post : List Block) (hc : cs = pre ++ b :: post)
      (hfun : b.head.flag = true) : i ≠ totalSize pre + 1 :=
    hne _ (hb.mem_statements.2 ⟨pre, b, post, hc, rfl⟩) hfun
  have hjump (pre : List Block) (b : Block) (post : List Block) (hd : bs ++ cs = pre ++ b :: post)
      (hfun : b.head.flag = true) : totalSize bs + i ≠ totalSize pre + 1 := by
    intro hslot
    by_cases hlt : totalSize pre < totalSize bs
    · obtain ⟨mid, rfl, _⟩ := exists_of_append_of_lt hd hlt
      rw [totalSize_append, totalSize_cons, Block.size] at hslot
      omega
    · obtain ⟨mid, rfl, hmid⟩ := exists_of_append_of_le hd (by omega)
      rw [totalSize_append] at hslot
      exact hnot mid b post hmid hfun (by omega)
  rw [hb.get?_of_not_jump hnot, hs.get?_of_not_jump hjump, blockWords_append,
    List.getElem?_append_right (by rw [length_blockWords]; omega), length_blockWords,
    Nat.add_sub_cancel_left]

/-- The scan from a block of the front stops there, or at the end, and then it
goes on in the back. -/
theorem jump_front {pre mid : List Block} {b : Block} (he : e.head.indent = 0)
    (hf : front.IsPlaced (pre ++ b :: mid ++ [e])) (hb : back.IsPlaced (cs ++ [e]))
    (hs : s.IsPlaced (pre ++ b :: mid ++ (cs ++ [e]))) (hfun : b.head.flag = true)
    (hsize : totalSize (pre ++ b :: mid ++ (cs ++ [e])) < 0x100000000) :
    ∃ j, (front.get? (totalSize pre + 1)).map Word.toNat = some j ∧
      if j = totalSize (pre ++ b :: mid) then
        ∃ t, back.statements.find? (fun t => t.indent ≤ b.head.indent) = some t ∧
          (s.get? (totalSize pre + 1)).map Word.toNat = some (totalSize (pre ++ b :: mid) + t.addr)
      else (s.get? (totalSize pre + 1)).map Word.toNat = some j := by
  have hstop : totalSize (pre ++ b :: mid) = totalSize pre + b.size + totalSize mid := by
    rw [totalSize_append, totalSize_cons, Nat.add_assoc]
  have hsmall : totalSize (pre ++ b :: mid ++ [e]) < 0x100000000 := by
    simp only [totalSize_append] at hsize ⊢
    omega
  have hle (addr : Nat) (bs : List Block) : nextBlock b.head.indent addr (e :: bs) = addr :=
    if_pos (by omega)
  rw [List.append_assoc, List.cons_append] at hf hs hsize hsmall
  rw [hf.slot_of_function hfun hsmall, hs.slot_of_function hfun hsize, nextBlock_append,
    nextBlock_append, hle, ← hstop]
  refine ⟨_, rfl, ?_⟩
  by_cases hall : nextBlock b.head.indent (totalSize pre + b.size) mid = totalSize (pre ++ b :: mid)
  · rw [if_pos hall, if_pos rfl]
    obtain ⟨t, ht, ha⟩ : ∃ t, back.statements.find? (fun t => t.indent ≤ b.head.indent) = some t ∧
        t.addr = nextBlock b.head.indent 0 (cs ++ [e]) := by
      rw [hb.statements]
      exact find?_place _ ⟨e, by simp, by omega⟩
    refine ⟨t, ht, ?_⟩
    rw [if_pos hall, ha, ← nextBlock_add, Nat.add_zero]
  · rw [if_neg hall, if_neg hall, if_neg hall]

/-- Two scripts that end with the same block are joined at the end of the first. -/
theorem isJoin_of_isPlaced (he : e.head.indent = 0) (hend : e.size = 2)
    (hf : front.IsPlaced (bs ++ [e])) (hb : back.IsPlaced (cs ++ [e]))
    (hs : s.IsPlaced (bs ++ (cs ++ [e]))) (hsize : s.size < 0x100000000) : s.IsJoin front back := by
  have hoff : front.size - 2 = totalSize bs := by
    rw [hf.size_eq, totalSize_append, totalSize_cons, hend, totalSize_nil]
    omega
  have htotal := hs.size_eq
  rw [htotal, totalSize_append] at hsize
  refine ⟨?_, ?_, ?_, ?_, ?_⟩
  · rw [hoff, htotal, hb.size_eq, totalSize_append]
  · intro i hi hne
    exact get?_front hf hs (hoff ▸ hi) hne
  · intro i _ hne
    rw [hoff]
    exact get?_back hb hs hne
  · intro f hm hfun hlt
    have hjump := hf.jump?_eq hm hfun
    obtain ⟨pre, b, post, hd, rfl⟩ := hf.mem_statements.1 hm
    rw [hoff] at hlt ⊢
    obtain ⟨mid, rfl, rfl⟩ := exists_of_append_of_lt hd hlt
    rw [hjump]
    exact jump_front he hf hb hs hfun (by rwa [totalSize_append])
  · intro f hm hfun
    have hjump := hb.jump?_eq hm hfun
    obtain ⟨pre, b, post, hd, rfl⟩ := hb.mem_statements.1 hm
    rw [hd] at hb hs hsize
    rw [← List.append_assoc] at hs
    rw [hb.slot_of_function hfun (by omega)] at hjump
    have hslot := hs.slot_of_function hfun (by rw [List.append_assoc, totalSize_append]; exact hsize)
    rw [totalSize_append, Nat.add_assoc, Nat.add_assoc, nextBlock_add] at hslot
    rw [hoff]
    exact ⟨_, hjump, hslot⟩

end Script

end NpcScript
