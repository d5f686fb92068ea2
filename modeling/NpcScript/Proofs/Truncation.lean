import NpcScript.Proofs.Bytecode
import NpcScript.Proofs.Placement

/-! # Less room for the same source

A limit on words decides how many blocks of a script are kept, and not which
blocks there are: reading goes on after the buffer is full. So the script under
a tighter limit is the first words of the whole one. Only slots can differ,
since a jump past the cut goes to the cut, and operands behind it are not
counted. -/
namespace NpcScript

/-- One script is the first `n` words of another, with jumps and operand counts
that do not reach past them. -/
structure Script.IsCutOf (n : Nat) (t s : Script) : Prop where
  size : t.size = min n s.size
  jumps : ∀ f ∈ s.statements, f.isFunction = true → f.addr + 1 < t.size →
    (t.get? (f.addr + 1)).map Word.toNat = (s.get? (f.addr + 1)).map fun w => min w.toNat t.size
  counts : ∀ v ∈ s.statements, v.isFunction = false → v.addr + 1 < t.size →
    (t.get? (v.addr + 1)).map Word.toNat =
      (s.get? (v.addr + 1)).map fun w => min w.toNat (t.size - (v.addr + 2))
  others : ∀ a < t.size, (∀ f ∈ s.statements, a ≠ f.addr + 1) → t.get? a = s.get? a

namespace Compiler

variable {σ : Type}

/-- The same compiler with room for so many words. -/
def withRoom (c : Compiler σ) (n : Nat) : Compiler σ :=
  { c with limits := { c.limits with maxWords := n } }

/-- What is read does not depend on the room. -/
theorem readLines_withRoom (c : Compiler σ) (n : Nat) (number : LineNumber) (s : σ) (ss : List Segment) :
    (c.withRoom n).readLines number s ss = c.readLines number s ss := by
  induction ss generalizing number s with
  | nil => rfl
  | cons segment ss ih =>
    have hbody : (c.withRoom n).readBody (number + 1) s segment.body =
        c.readBody (number + 1) s segment.body := rfl
    rw [readLines, readLines, hbody, ih]

theorem lineReadings_withRoom (c : Compiler σ) (n : Nat) (state : σ) (source : List Char) :
    (c.withRoom n).lineReadings state source = c.lineReadings state source :=
  c.readLines_withRoom n 0 state (segments (c.kept source))

theorem blocks_withRoom (c : Compiler σ) (n : Nat) (state : σ) (source : List Char) :
    (c.withRoom n).blocks state source = c.blocks state source := by
  rw [blocks, lineReadings_withRoom]
  rfl

end Compiler

/-- Slots of the same block in two scripts, one of which stops earlier. -/
theorem Block.slotValue_cut (b : Block) (stop : Nat) {cut addr : Nat} {later : List Block}
    (hstop : addr + totalSize (b :: later) ≤ stop) (hcut : cut ≤ stop) :
    b.slotValue cut addr later =
      min (b.slotValue stop addr later) (if b.head.flag then cut else cut - (addr + 2)) := by
  rw [totalSize_cons] at hstop
  unfold slotValue
  split
  · omega
  · omega

namespace Compiler

variable {σ : Type} {c : Compiler σ} {state : σ} {name : String} {source : List Char}

theorem size_withRoom (hfit : totalSize (c.blocks state source) ≤ c.limits.maxWords) (name : String)
    (n : Nat) :
    ((c.withRoom n).compile state name source).script.size =
      min n (c.compile state name source).script.size := by
  rw [size_compile_eq, size_compile_eq, blocks_withRoom, Nat.min_eq_right hfit]
  rfl

section

variable (hlim : c.limits.maxWords < 0x100000000)
  (hfit : totalSize (c.blocks state source) ≤ c.limits.maxWords) {n : Nat}
include hlim hfit

theorem statements_of_fits :
    (c.compile state name source).script.statements =
      place (c.compile state name source).script.size 0 (c.blocks state source) := by
  have hsize := c.size_compile_eq state name source
  refine statements_compile_of_fits hfit (fun b hb => ?_) (by rw [addressSpace]; omega)
  have := length_operands_le_totalSize hb
  omega

/-- The slot of a statement, before and after the cut. -/
theorem slot_withRoom (hn : n ≤ c.limits.maxWords) {f : Statement}
    (hf : f ∈ (c.compile state name source).script.statements)
    (ha : f.addr + 1 < ((c.withRoom n).compile state name source).script.size) :
    (((c.withRoom n).compile state name source).script.get? (f.addr + 1)).map Word.toNat =
      ((c.compile state name source).script.get? (f.addr + 1)).map fun w => min w.toNat
        (if f.isFunction then ((c.withRoom n).compile state name source).script.size
          else ((c.withRoom n).compile state name source).script.size - (f.addr + 2)) := by
  have hsize := c.size_compile_eq state name source
  have hsize' := size_withRoom hfit name n
  rw [Nat.min_eq_right hfit] at hsize
  rw [statements_of_fits hlim hfit] at hf
  rw [get_compile (by omega) ha, get_compile (by omega) (by omega), blocks_withRoom]
  generalize ((c.withRoom n).compile state name source).script.size = cut at ha hsize' ⊢
  generalize (c.compile state name source).script.size = stop at hsize hf hsize' ⊢
  obtain ⟨pre, b, post, hb, rfl⟩ := mem_place.1 hf
  rw [hb] at hfit hsize ⊢
  rw [totalSize_append] at hfit hsize
  have hslot : b.slotValue stop (0 + totalSize pre) post ≤ stop := by
    unfold Block.slotValue
    split <;> omega
  have hcut : b.slotValue cut (0 + totalSize pre) post = _ :=
    b.slotValue_cut stop (by omega) (by omega)
  simp only [Nat.zero_add] at hcut hslot ⊢
  rw [getElem?_slot_place, getElem?_slot_place, Option.map_some, Option.map_some, Nat.zero_add, hcut,
    Word.toNat_ofNat (by omega), Word.toNat_ofNat (by omega)]
  rfl

theorem isCutOf_withRoom (hn : n ≤ c.limits.maxWords) :
    ((c.withRoom n).compile state name source).script.IsCutOf n
      (c.compile state name source).script := by
  have hsize := c.size_compile_eq state name source
  have hsize' := size_withRoom hfit name n
  refine ⟨hsize', fun f hf hfun ha => ?_, fun v hv hvar ha => ?_, fun a ha hne => ?_⟩
  · rw [slot_withRoom hlim hfit hn hf ha, hfun]
    rfl
  · rw [slot_withRoom hlim hfit hn hv ha, hvar]
    rfl
  · have hother (pre : List Block) (b : Block) (post : List Block)
        (hb : c.blocks state source = pre ++ b :: post) : a ≠ totalSize pre + 1 := by
      have hm := hne ⟨0 + totalSize pre, b.head, some (.ofNat (b.slotValue _ _ post)), b.operands⟩ (by
        rw [statements_of_fits hlim hfit]
        exact mem_place.2 ⟨pre, b, post, hb, rfl⟩)
      rwa [Nat.zero_add] at hm
    rw [get_compile (by omega) ha, get_compile (by omega) (by omega), blocks_withRoom,
      getElem?_place _ _ fun pre b post hb he => absurd he (hother pre b post hb),
      getElem?_place _ _ fun pre b post hb he => absurd he (hother pre b post hb)]

end

/-- **A tighter limit only truncates.** Let a source fit in some room. With less
room its script is the first words of the whole one; the refusal is reported
once, and only if a word was refused; and the host ends in the same state. -/
theorem compile_withRoom (c : Compiler σ) (hlim : c.limits.maxWords < 0x100000000) (state : σ)
    (name : String) (source : List Char)
    (hfit : (c.compile state name source).log.contains .programTooLarge = false) (n : Nat)
    (hn : n ≤ c.limits.maxWords) :
    let whole := c.compile state name source
    let cut := (c.withRoom n).compile state name source
    cut.script.IsCutOf n whole.script ∧
      (cut.log.toList.countP fun d => d.code = .programTooLarge) =
        (if n < whole.script.size then 1 else 0) ∧
      cut.state = whole.state := by
  intro whole cut
  have hfit : totalSize (c.blocks state source) ≤ c.limits.maxWords := by
    rw [c.contains_programTooLarge_compile state name source, decide_eq_false_iff_not] at hfit
    omega
  have hsize : whole.script.size = totalSize (c.blocks state source) := by
    rw [c.size_compile_eq state name source, Nat.min_eq_right hfit]
  refine ⟨isCutOf_withRoom hlim hfit hn, ?_, ?_⟩
  · have hrefused := (c.withRoom n).refusals_compile state name source
    rw [blocks_withRoom, ← hsize] at hrefused
    exact hrefused
  · rw [(c.withRoom n).state_compile state name source, lineReadings_withRoom,
      ← c.state_compile state name source]

/-- The cut goes through the operands of an assignment under a question, whose
jump then leads to the cut. -/
theorem compile_withRoom_tiny :
    let source := "IfIdle\n  x = x + 1\nEnd".toList
    let whole := (tiny 8).compile () "tiny" source
    let cut := ((tiny 8).withRoom 5).compile () "tiny" source
    (tiny 8).limits.maxWords < 0x100000000 ∧ whole.log.contains .programTooLarge = false ∧
      whole.script.words = #[.head true 0 1, .ofNat 6, .head false 1 2, .ofNat 2,
        .operand true 0 2, .operand false 3 1, .head true 0 9, .ofNat 8] ∧
      cut.script.words = #[.head true 0 1, .ofNat 5, .head false 1 2, .ofNat 1, .operand true 0 2] ∧
      cut.script.IsCutOf 5 whole.script ∧
      (cut.log.toList.countP fun d => d.code = .programTooLarge) = 1 ∧ cut.state = whole.state := by
  intro source whole cut
  have hlim : (tiny 8).limits.maxWords < 0x100000000 := by decide
  have hfit : whole.log.contains .programTooLarge = false := by decide +kernel
  have hsize : 5 < whole.script.size := by decide +kernel
  obtain ⟨hcut, hcount, hstate⟩ := compile_withRoom (tiny 8) hlim () "tiny" source hfit 5 (by decide)
  rw [if_pos hsize] at hcount
  exact ⟨hlim, hfit, by decide +kernel, by decide +kernel, hcut, hcount, hstate⟩

end Compiler

end NpcScript
