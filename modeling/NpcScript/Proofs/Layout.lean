import Mathlib.Algebra.GroupWithZero.Nat
import Mathlib.Data.List.Forall2
import NpcScript.Proofs.Walk

/-! # Blocks and their layout

The code of a line is a block: a head and operands. A script is its blocks laid
out one after the other as far as there is room. The block that meets the end
of the room is cut there, and its slot counts the operands that it still has,
so that a cut script is a walk like any other. -/
namespace NpcScript

structure Block where
  head : Word
  operands : List Word := []
  deriving DecidableEq, Repr

namespace Block

def size (b : Block) : Nat := 2 + b.operands.length

/-- A function takes no operands. -/
def Sound (b : Block) : Prop := b.head.flag = true → b.operands = []

end Block

def totalSize (bs : List Block) : Nat := (bs.map Block.size).sum

@[simp]
theorem totalSize_nil : totalSize [] = 0 := rfl

@[simp]
theorem totalSize_cons (b : Block) (bs : List Block) :
    totalSize (b :: bs) = b.size + totalSize bs := by simp [totalSize]

@[simp]
theorem totalSize_append (bs cs : List Block) :
    totalSize (bs ++ cs) = totalSize bs + totalSize cs := by simp [totalSize]

theorem length_operands_le_totalSize {bs : List Block} {b : Block} (hb : b ∈ bs) :
    b.operands.length ≤ totalSize bs := by
  induction bs with
  | nil => cases hb
  | cons a bs ih =>
    rw [totalSize_cons, Block.size]
    rcases List.mem_cons.1 hb with rfl | hb
    · omega
    · have := ih hb
      omega

/-- Lay blocks out from an address on, in a room of so many words. -/
def layOut : Nat → Nat → List Block → List Statement
  | _, _, [] => []
  | 0, _, _ :: _ => []
  | 1, addr, b :: _ => [⟨addr, b.head, none, []⟩]
  | room + 2, addr, b :: bs =>
    ⟨addr, b.head, some (.ofNat (min b.operands.length room)), b.operands.take room⟩ ::
      layOut (room - b.operands.length) (addr + b.size) bs

@[simp]
theorem layOut_zero (addr : Nat) (bs : List Block) : layOut 0 addr bs = [] := by
  cases bs <;> rfl

/-- What is laid out first leaves the rest of the room, which may be none. -/
theorem layOut_append (room addr : Nat) (bs cs : List Block) :
    layOut room addr (bs ++ cs) =
      layOut room addr bs ++ layOut (room - totalSize bs) (addr + totalSize bs) cs := by
  fun_induction layOut room addr bs with
  | case1 room addr => simp
  | case2 addr b bs => simp
  | case3 addr b bs =>
    have hz : 1 - totalSize (b :: bs) = 0 := by simp [Block.size]; omega
    rw [hz, layOut_zero, List.append_nil]
    rfl
  | case4 room addr b bs ih =>
    have hr : room.succ.succ - totalSize (b :: bs) = room - b.operands.length - totalSize bs := by
      simp [Block.size]
      omega
    have ha : addr + totalSize (b :: bs) = addr + b.size + totalSize bs := by simp; omega
    rw [hr, ha, List.cons_append, layOut, ih]
    rfl

theorem length_spell_layOut (room addr : Nat) (bs : List Block) :
    (spell (layOut room addr bs)).length = min room (totalSize bs) := by
  fun_induction layOut room addr bs with
  | case1 => simp
  | case2 => simp
  | case3 addr b bs =>
    simp [Statement.words, Block.size]
    omega
  | case4 room addr b bs ih =>
    rw [spell_cons, List.length_append, ih]
    simp [Statement.words, Block.size]
    omega

/-- In a layout every statement has the words that it announces, cut or not, as
long as a slot can count the operands that find room. -/
theorem whole_of_mem_layOut_of_count {room addr : Nat} {bs : List Block}
    (hr : ∀ b ∈ bs, min b.operands.length room < 0x100000000)
    (hb : ∀ b ∈ bs, b.Sound) {s : Statement} (hs : s ∈ layOut room addr bs)
    (hslot : s.slot.isSome = true) : s.Whole := by
  fun_induction layOut room addr bs with
  | case1 => cases hs
  | case2 => cases hs
  | case3 addr b bs =>
    rw [List.mem_singleton.1 hs] at hslot
    cases hslot
  | case4 room addr b bs ih =>
    obtain ⟨hrb, hr⟩ := List.forall_mem_cons.1 hr
    rcases List.mem_cons.1 hs with he | hs
    · have hf : s.isFunction = b.head.flag := by rw [he]; rfl
      have hn : s.slot = some (.ofNat (min b.operands.length room)) := by rw [he]
      have ho : s.operands = b.operands.take room := by rw [he]
      refine ⟨hslot, ?_⟩
      cases hb' : b.head.flag with
      | true =>
        rw [Statement.announced_of_function (hf.trans hb'), ho, hb b List.mem_cons_self hb',
          List.take_nil, List.length_nil]
      | false =>
        rw [Statement.announced_of_variable (hf.trans hb') hn, Word.toNat_ofNat (by omega), ho,
          List.length_take, Nat.min_comm]
    · refine ih (fun c hc => ?_) (fun c hc => hb c (List.mem_cons_of_mem b hc)) hs
      have := hr c hc
      omega

theorem whole_of_mem_layOut {room addr : Nat} {bs : List Block} (hr : room < 0x100000000)
    (hb : ∀ b ∈ bs, b.Sound) {s : Statement} (hs : s ∈ layOut room addr bs)
    (hslot : s.slot.isSome = true) : s.Whole :=
  whole_of_mem_layOut_of_count (fun _ _ => by omega) hb hs hslot

/-- Only the last statement of a layout can lack its slot. -/
theorem isSome_slot_of_layOut_append {room addr : Nat} {bs : List Block}
    {pre post : List Statement} {s : Statement} (h : layOut room addr bs = pre ++ s :: post)
    (hp : post ≠ []) : s.slot.isSome = true := by
  fun_induction layOut room addr bs generalizing pre with
  | case1 => simp at h
  | case2 => simp at h
  | case3 addr b bs =>
    cases pre with
    | nil =>
      rw [List.nil_append, List.cons.injEq] at h
      exact absurd h.2.symm hp
    | cons t pre => simp at h
  | case4 room addr b bs ih =>
    cases pre with
    | nil =>
      rw [List.nil_append, List.cons.injEq] at h
      rw [← h.1]
      rfl
    | cons t pre =>
      rw [List.cons_append, List.cons.injEq] at h
      exact ih h.2

theorem isWalk_layOut_of_count {room addr : Nat} {bs : List Block}
    (hr : ∀ b ∈ bs, min b.operands.length room < 0x100000000)
    (hb : ∀ b ∈ bs, b.Sound) : IsWalk addr (layOut room addr bs) := by
  have whole (s : Statement) (hs : s ∈ layOut room addr bs) := whole_of_mem_layOut_of_count hr hb hs
  clear hr hb
  fun_induction layOut room addr bs with
  | case1 => trivial
  | case2 => trivial
  | case3 => exact ⟨rfl, .inl ⟨rfl, rfl⟩, fun h => absurd rfl h, trivial⟩
  | case4 room addr b bs ih =>
    have hw := whole _ List.mem_cons_self rfl
    refine ⟨rfl, hw.cut, fun _ => hw, ?_⟩
    by_cases hc : b.operands.length < room
    · -- the block is not cut, and the next one starts where it ends
      have hl : (b.operands.take room).length = b.operands.length := by
        rw [List.length_take]
        omega
      rw [Statement.words_length, Option.toList_some, List.length_singleton, hl]
      exact ih (fun s hs => whole s (List.mem_cons_of_mem _ hs))
    · have hz : room - b.operands.length = 0 := by omega
      rw [hz, layOut_zero]
      trivial

theorem isWalk_layOut {room addr : Nat} {bs : List Block} (hr : room < 0x100000000)
    (hb : ∀ b ∈ bs, b.Sound) : IsWalk addr (layOut room addr bs) :=
  isWalk_layOut_of_count (fun _ _ => by omega) hb

/-- A statement that holds all of a block. -/
def Statement.IsBlock (b : Block) (s : Statement) : Prop :=
  s.head = b.head ∧ s.slot = some (.ofNat b.operands.length) ∧ s.operands = b.operands

/-- With room for all of them, no block is cut. -/
theorem layOut_of_le {room addr : Nat} {bs : List Block} (h : totalSize bs ≤ room) :
    List.Forall₂ Statement.IsBlock bs (layOut room addr bs) := by
  fun_induction layOut room addr bs with
  | case1 => exact .nil
  | case2 addr b bs => simp [Block.size] at h
  | case3 addr b bs =>
    simp [Block.size] at h
    omega
  | case4 room addr b bs ih =>
    rw [totalSize_cons, Block.size] at h
    refine .cons ⟨rfl, ?_, ?_⟩ (ih (by omega))
    · rw [Nat.min_eq_left (by omega)]
    · exact List.take_of_length_le (by omega)

/-- A block offered to a bounded buffer behind others, with the operands that
find room counted in its slot. -/
theorem take_block {limit offered : Nat} {code : List Word} (hc : code.length = min limit offered)
    (b : Block) :
    (code ++ b.head :: .ofNat (min b.operands.length (limit - (offered + 2))) :: b.operands).take limit =
      code ++ spell (layOut (limit - offered) offered [b]) := by
  rcases Nat.lt_or_ge offered limit with ho | ho
  · have hl : code.length = offered := by omega
    rcases Nat.lt_or_ge (offered + 1) limit with h1 | h1
    · -- head and slot find room
      obtain ⟨room, rfl⟩ : ∃ room, limit = offered + (room + 2) := ⟨limit - offered - 2, by omega⟩
      have hr : offered + (room + 2) - (offered + 2) = room := by omega
      rw [hr, Nat.add_sub_cancel_left, ← hl, List.take_length_add_append]
      simp [layOut, Statement.words]
    · -- the head takes the last place
      obtain rfl : limit = offered + 1 := by omega
      rw [Nat.add_sub_cancel_left, ← hl, List.take_length_add_append]
      simp [layOut, Statement.words]
  · have hl : code.length = limit := by omega
    have hz : limit - offered = 0 := by omega
    rw [hz, layOut_zero, spell_nil, List.append_nil, ← hl, List.take_left]

/-- The slot may be set after the operands; without room for it nothing is set. -/
theorem set_take_block {limit offered : Nat} {code : List Word}
    (hc : code.length = min limit offered) (head slot w : Word) (operands : List Word) :
    ((code ++ head :: slot :: operands).take limit).set (min limit (offered + 1)) w =
      (code ++ head :: w :: operands).take limit := by
  rcases Nat.lt_or_ge offered limit with ho | ho
  · have hs : min limit (offered + 1) = code.length + 1 := by omega
    rw [← List.take_set, hs, List.set_append_right _ _ (by omega), Nat.add_sub_cancel_left]
    rfl
  · have hl : code.length = limit := by omega
    rw [← hl, List.take_left, List.take_left, List.set_eq_of_length_le (by omega)]

end NpcScript
