import NpcScript.Proofs.Compiling

/-! # Blocks in place

The linker scans statements, but where a function goes on is decided by the
depths and the sizes of the blocks behind it. `nextBlock` is the scan over
blocks, and `place` writes blocks down with the slots that it gives. The words
of a compiled script are those of its blocks in place, cut where the script
stops, so every word is known from its address, whatever was cut off. -/
namespace NpcScript

/-- The address of the first block not deeper than a depth, for blocks from an
address on, and the address behind them if all are deeper. -/
def nextBlock (indent : Nat) : Nat → List Block → Nat
  | addr, [] => addr
  | addr, b :: bs => if b.head.indent ≤ indent then addr else nextBlock indent (addr + b.size) bs

theorem le_nextBlock (indent addr : Nat) (bs : List Block) : addr ≤ nextBlock indent addr bs := by
  fun_induction nextBlock indent addr bs <;> omega

theorem nextBlock_le (indent addr : Nat) (bs : List Block) :
    nextBlock indent addr bs ≤ addr + totalSize bs := by
  fun_induction nextBlock indent addr bs with
  | case1 addr => simp
  | case2 addr b bs hd => omega
  | case3 addr b bs hd ih =>
    rw [totalSize_cons]
    omega

/-- The scan over a layout is the scan over its blocks, and stops where the
layout does. -/
theorem nextAtMost_layOut (indent room addr : Nat) (bs : List Block) :
    nextAtMost indent (addr + min room (totalSize bs)) (layOut room addr bs) =
      min (nextBlock indent addr bs) (addr + min room (totalSize bs)) := by
  fun_induction layOut room addr bs with
  | case1 room addr => simp [nextAtMost_nil, nextBlock]
  | case2 addr b bs =>
    have := le_nextBlock indent addr (b :: bs)
    rw [nextAtMost_nil]
    omega
  | case3 addr b bs =>
    have hs : min 1 (totalSize (b :: bs)) = 1 := by simp [Block.size]; omega
    have hi : (Statement.mk addr b.head none []).indent = b.head.indent := rfl
    rw [hs, nextBlock]
    split
    · rename_i hd
      rw [nextAtMost_cons_of_le (by rw [hi]; exact hd)]
      show addr = min addr (addr + 1)
      omega
    · rename_i hd
      have := le_nextBlock indent (addr + b.size) bs
      rw [nextAtMost_cons_of_lt (by rw [hi]; omega), nextAtMost_nil]
      simp only [Block.size] at this ⊢
      omega
  | case4 room addr b bs ih =>
    rw [nextBlock]
    split
    · rename_i hd
      rw [nextAtMost_cons_of_le (show b.head.indent ≤ indent from hd)]
      show addr = min addr _
      omega
    · rename_i hd
      have hlt : indent < b.head.indent := by omega
      have hle := le_nextBlock indent (addr + b.size) bs
      rw [nextAtMost_cons_of_lt (show indent < b.head.indent from hlt)]
      simp only [totalSize_cons, Block.size, Nat.succ_eq_add_one] at ih hle ⊢
      by_cases hc : b.operands.length ≤ room
      · have hstop : addr + min (room + 1 + 1) (2 + b.operands.length + totalSize bs) =
            addr + (2 + b.operands.length) + min (room - b.operands.length) (totalSize bs) := by omega
        rw [hstop]
        exact ih
      · -- the cut goes through the operands, and nothing lies behind it
        have hz : room - b.operands.length = 0 := by omega
        rw [hz, layOut_zero, nextAtMost_nil]
        omega

/-- What the slot of a block holds in a script that stops at an address: where a
function goes on, or how many operands an assignment has. -/
def Block.slotValue (stop addr : Nat) (b : Block) (later : List Block) : Nat :=
  if b.head.flag then min (nextBlock b.head.indent (addr + b.size) later) stop
  else min b.operands.length (stop - (addr + 2))

/-- Blocks as the statements of a script that stops at an address, with none of
their own words cut off. -/
def place (stop : Nat) : Nat → List Block → List Statement
  | _, [] => []
  | addr, b :: bs =>
    ⟨addr, b.head, some (.ofNat (b.slotValue stop addr bs)), b.operands⟩ :: place stop (addr + b.size) bs

/-- The first statement of a layout, once its slot is filled. -/
theorem fill_layOut (room addr : Nat) {b : Block} (bs : List Block) (hb : b.Sound) :
    Statement.fill ⟨addr, b.head, some (.ofNat (min b.operands.length room)), b.operands.take room⟩
      (nextAtMost b.head.indent (addr + min (room + 2) (totalSize (b :: bs)))
        (layOut (room - b.operands.length) (addr + b.size) bs)) =
      ⟨addr, b.head, some (.ofNat (b.slotValue (addr + min (room + 2) (totalSize (b :: bs))) addr bs)),
        b.operands.take room⟩ := by
  unfold Statement.fill Block.slotValue Statement.isFunction
  cases hf : b.head.flag with
  | true =>
    -- a function has no operands, so the layout goes on right behind its slot
    have ho := hb hf
    have hsize : b.size = 2 := by rw [Block.size, ho]; rfl
    have hstop : addr + min (room + 2) (totalSize (b :: bs)) =
        addr + b.size + min room (totalSize bs) := by rw [totalSize_cons, hsize]; omega
    have hscan := nextAtMost_layOut b.head.indent room (addr + b.size) bs
    rw [ho, List.length_nil, Nat.sub_zero, hstop, hscan]
    rfl
  | false =>
    have hcount : min b.operands.length (addr + min (room + 2) (totalSize (b :: bs)) - (addr + 2)) =
        min b.operands.length room := by
      rw [totalSize_cons, Block.size]
      omega
    rw [hcount]
    rfl

/-- The words of a resolved layout are those of its blocks in place, as far as
there is room. -/
theorem spell_resolve_layOut (room addr : Nat) {bs : List Block} (hb : ∀ b ∈ bs, b.Sound) :
    spell (resolve (addr + min room (totalSize bs)) (layOut room addr bs)) =
      (spell (place (addr + min room (totalSize bs)) addr bs)).take room := by
  fun_induction layOut room addr bs with
  | case1 room addr => simp [resolve, place]
  | case2 addr b bs => simp [resolve]
  | case3 addr b bs => simp [resolve, place, Statement.words, Statement.fill]
  | case4 room addr b bs ih =>
    obtain ⟨hb, hbs⟩ := List.forall_mem_cons.1 hb
    have hfirst := fill_layOut room addr bs hb
    have hrest : spell (resolve (addr + min (room + 2) (totalSize (b :: bs)))
        (layOut (room - b.operands.length) (addr + b.size) bs)) =
          (spell (place (addr + min (room + 2) (totalSize (b :: bs))) (addr + b.size) bs)).take
            (room - b.operands.length) := by
      by_cases hc : b.operands.length ≤ room
      · have hstop : addr + min (room + 2) (totalSize (b :: bs)) =
            addr + b.size + min (room - b.operands.length) (totalSize bs) := by
          rw [totalSize_cons, Block.size]
          omega
        rw [hstop]
        exact ih hbs
      · have hz : room - b.operands.length = 0 := by omega
        rw [hz, layOut_zero, List.take_zero]
        rfl
    rw [resolve, spell_cons, hrest]
    show (Statement.fill _ (nextAtMost b.head.indent _ _)).words ++ _ = _
    rw [hfirst, place, spell_cons]
    simp [Statement.words, List.take_append]

/-- With room for all of them, a resolved layout is its blocks in place. -/
theorem resolve_layOut {room : Nat} (addr : Nat) {bs : List Block} (hb : ∀ b ∈ bs, b.Sound)
    (h : totalSize bs ≤ room) :
    resolve (addr + totalSize bs) (layOut room addr bs) = place (addr + totalSize bs) addr bs := by
  fun_induction layOut room addr bs with
  | case1 room addr => rfl
  | case2 addr b bs => simp [Block.size] at h
  | case3 addr b bs =>
    simp [Block.size] at h
    omega
  | case4 room addr b bs ih =>
    obtain ⟨hb, hbs⟩ := List.forall_mem_cons.1 hb
    have hfirst := fill_layOut room addr bs hb
    have hstop : addr + totalSize (b :: bs) = addr + b.size + totalSize bs := by
      rw [totalSize_cons, Nat.add_assoc]
    rw [Nat.min_eq_right h] at hfirst
    rw [totalSize_cons, Block.size] at h
    rw [List.take_of_length_le (by omega)] at hfirst
    rw [resolve, place, List.take_of_length_le (by omega)]
    congr 1
    rw [hstop]
    exact ih hbs (by omega)

/-! ## Words by their address -/

theorem mem_place {stop addr : Nat} {bs : List Block} {s : Statement} :
    s ∈ place stop addr bs ↔ ∃ pre b post, bs = pre ++ b :: post ∧
      s = ⟨addr + totalSize pre, b.head,
        some (.ofNat (b.slotValue stop (addr + totalSize pre) post)), b.operands⟩ := by
  induction bs generalizing addr with
  | nil => simp [place]
  | cons b bs ih =>
    rw [place, List.mem_cons, ih]
    constructor
    · rintro (rfl | ⟨pre, c, post, rfl, rfl⟩)
      · exact ⟨[], b, bs, rfl, rfl⟩
      · exact ⟨b :: pre, c, post, rfl, by rw [totalSize_cons, Nat.add_assoc]⟩
    · rintro ⟨pre, c, post, he, rfl⟩
      cases pre with
      | nil =>
        cases he
        exact .inl rfl
      | cons a pre =>
        cases he
        exact .inr ⟨pre, c, post, rfl, by rw [totalSize_cons, Nat.add_assoc]⟩

/-- The words of blocks before anything is known of jumps: every slot counts the
operands, of which a function has none. -/
def blockWords (bs : List Block) : List Word :=
  bs.flatMap fun b => b.head :: .ofNat b.operands.length :: b.operands

theorem blockWords_append (bs cs : List Block) :
    blockWords (bs ++ cs) = blockWords bs ++ blockWords cs := List.flatMap_append

theorem blockWords_cons (b : Block) (bs : List Block) :
    blockWords (b :: bs) = b.head :: .ofNat b.operands.length :: (b.operands ++ blockWords bs) := rfl

theorem length_blockWords (bs : List Block) : (blockWords bs).length = totalSize bs := by
  induction bs with
  | nil => rfl
  | cons b bs ih =>
    rw [blockWords_cons, List.length_cons, List.length_cons, List.length_append, ih, totalSize_cons,
      Block.size]
    omega

theorem spell_place_cons (stop addr : Nat) (b : Block) (bs : List Block) :
    spell (place stop addr (b :: bs)) =
      b.head :: .ofNat (b.slotValue stop addr bs) :: (b.operands ++ spell (place stop (addr + b.size) bs)) :=
  rfl

/-- Blocks in front move the others and do not change them. -/
theorem drop_spell_place (stop addr : Nat) (pre bs : List Block) :
    (spell (place stop addr (pre ++ bs))).drop (totalSize pre) =
      spell (place stop (addr + totalSize pre) bs) := by
  induction pre generalizing addr with
  | nil => rfl
  | cons a pre ih =>
    have hsplit : totalSize (a :: pre) = (a.operands.length + totalSize pre) + 1 + 1 := by
      rw [totalSize_cons, Block.size]
      omega
    rw [List.cons_append, spell_place_cons, hsplit, List.drop_succ_cons, List.drop_succ_cons,
      List.drop_length_add_append, ih, ← hsplit, totalSize_cons, Nat.add_assoc]

/-- The slot of each block lies behind its head. -/
theorem getElem?_slot_place (stop addr : Nat) (pre : List Block) (b : Block) (post : List Block) :
    (spell (place stop addr (pre ++ b :: post)))[totalSize pre + 1]? =
      some (.ofNat (b.slotValue stop (addr + totalSize pre) post)) := by
  rw [← List.getElem?_drop, drop_spell_place, spell_place_cons]
  rfl

section

variable (addr : Nat) (pre : List Block) {b : Block} (post : List Block) {i : Nat}
  (hi : i < b.operands.length)
include hi

/-- The operands lie behind the slot. -/
theorem getElem?_operand_place (stop : Nat) :
    (spell (place stop addr (pre ++ b :: post)))[totalSize pre + (i + 2)]? = b.operands[i]? := by
  rw [← List.getElem?_drop, drop_spell_place, spell_place_cons, List.getElem?_cons_succ,
    List.getElem?_cons_succ, List.getElem?_append_left hi]

/-- They do so in a layout that has room for them. -/
theorem getElem?_operand_layOut {room : Nat} (hr : totalSize pre + (i + 2) < room) :
    (spell (layOut room addr (pre ++ b :: post)))[totalSize pre + (i + 2)]? = b.operands[i]? := by
  have hlen : (spell (layOut room addr pre)).length = totalSize pre := by
    rw [length_spell_layOut]
    omega
  obtain ⟨left, hleft⟩ : ∃ left, room - totalSize pre = left + 2 := ⟨room - totalSize pre - 2, by omega⟩
  rw [layOut_append, spell_append, List.getElem?_append_right (by omega), hlen, Nat.add_sub_cancel_left,
    hleft, layOut, spell_cons]
  show (b.operands.take left ++ _)[i]? = _
  rw [List.getElem?_append_left (by rw [List.length_take]; omega), List.getElem?_take_of_lt (by omega)]

end

/-- A word is one of a block, unless it is a slot that holds something else than
the number of operands. -/
theorem getElem?_place (stop addr : Nat) {bs : List Block} {a : Nat}
    (h : ∀ pre b post, bs = pre ++ b :: post → a = totalSize pre + 1 →
      b.slotValue stop (addr + totalSize pre) post = b.operands.length) :
    (spell (place stop addr bs))[a]? = (blockWords bs)[a]? := by
  induction bs generalizing addr a with
  | nil => rfl
  | cons b bs ih =>
    rw [spell_place_cons, blockWords_cons]
    match a with
    | 0 => rfl
    | 1 =>
      have hslot := h [] b bs rfl rfl
      rw [totalSize_nil, Nat.add_zero] at hslot
      rw [hslot]
      rfl
    | a + 2 =>
      simp only [List.getElem?_cons_succ]
      by_cases ha : a < b.operands.length
      · rw [List.getElem?_append_left ha, List.getElem?_append_left ha]
      · rw [List.getElem?_append_right (by omega), List.getElem?_append_right (by omega)]
        refine ih (addr + b.size) fun pre d post he hslot => ?_
        have hd := h (b :: pre) d post (by rw [he]; rfl) (by rw [totalSize_cons, Block.size]; omega)
        rwa [totalSize_cons, ← Nat.add_assoc] at hd

/-! ## The words of a compiled script -/

/-- Jumps are written over words that are there. -/
theorem Script.size_link_eq (s : Script) : s.link.1.size = s.size := by
  have key (js : List Jump) (ws : List Word) : (js.foldl Jump.write ws).length = ws.length := by
    induction js generalizing ws with
    | nil => rfl
    | cons j js ih => rw [List.foldl_cons, ih, Jump.write, List.length_set]
  rw [size, ← Array.length_toList, link, ← Array.foldl_toList, words_foldl_patch, key,
    Array.length_toList]
  rfl

namespace Compiler

variable {σ : Type} {c : Compiler σ} {state : σ} {name : String} {source : List Char}

theorem size_compile_eq (c : Compiler σ) (state : σ) (name : String) (source : List Char) :
    (c.compile state name source).script.size =
      min c.limits.maxWords (totalSize (c.blocks state source)) := by
  rw [script_compile, Script.size_link_eq, size_unlinked]

/-- The walk over a compiled script, as long as every slot can count its
operands and the script lies in the address space. -/
theorem statements_compile_of_count
    (hc : ∀ b ∈ c.blocks state source, min b.operands.length c.limits.maxWords < 0x100000000)
    (hs : (c.compile state name source).script.size ≤ addressSpace) :
    (c.compile state name source).script.statements =
      resolve (c.compile state name source).script.size
        (layOut c.limits.maxWords 0 (c.blocks state source)) := by
  rw [script_compile, Script.size_link_eq] at hs ⊢
  obtain ⟨hh, hlim, _, _⟩ := c.draft_spec state name source
  have hcode := hh.code
  rw [hlim] at hcode
  have hwalk : (c.unlinked state name source).statements =
      layOut c.limits.maxWords 0 (c.blocks state source) := by
    show statementsFrom 0 (c.draft state name source).code.toList = _
    rw [hcode]
    exact statementsFrom_spell (isWalk_layOut_of_count hc fun b hb => c.sound_of_mem_blocks hb)
  rw [Script.statements_link hs, hwalk]

/-- If nothing is cut off, the statements of a script are its blocks in place. -/
theorem statements_compile_of_fits (hfit : totalSize (c.blocks state source) ≤ c.limits.maxWords)
    (hc : ∀ b ∈ c.blocks state source, b.operands.length < 0x100000000)
    (hs : (c.compile state name source).script.size ≤ addressSpace) :
    (c.compile state name source).script.statements =
      place (c.compile state name source).script.size 0 (c.blocks state source) := by
  have hsize := c.size_compile_eq state name source
  rw [Nat.min_eq_right hfit] at hsize
  have hplace := resolve_layOut 0 (fun b hb => c.sound_of_mem_blocks hb) hfit
  rw [Nat.zero_add, ← hsize] at hplace
  rw [statements_compile_of_count (fun b hb => ?_) hs, hplace]
  have := hc b hb
  omega

/-- A slot of 32 bits counts the operands of every block of a script with
addresses of 32 bits. -/
theorem count_lt_of_size (h : (c.compile state name source).script.size < 0x100000000) {b : Block}
    (hb : b ∈ c.blocks state source) : min b.operands.length c.limits.maxWords < 0x100000000 := by
  have hle := length_operands_le_totalSize hb
  rw [size_compile_eq] at h
  omega

theorem words_compile (h : (c.compile state name source).script.size < 0x100000000) :
    (c.compile state name source).script.words.toList =
      (spell (place (c.compile state name source).script.size 0 (c.blocks state source))).take
        c.limits.maxWords := by
  have hsize := c.size_compile_eq state name source
  have hs : (c.compile state name source).script.size ≤ addressSpace :=
    Nat.le_of_lt (Nat.lt_trans h (by decide))
  have hspell := spell_resolve_layOut c.limits.maxWords 0
    (fun b (hb : b ∈ c.blocks state source) => c.sound_of_mem_blocks hb)
  rw [Nat.zero_add, ← hsize] at hspell
  rw [← Script.spell_statements, statements_compile_of_count (fun b hb => count_lt_of_size h hb) hs,
    hspell]

/-- Every word of a compiled script is one of its blocks in place. -/
theorem get_compile (h : (c.compile state name source).script.size < 0x100000000) {a : Nat}
    (ha : a < (c.compile state name source).script.size) :
    (c.compile state name source).script.get? a =
      (spell (place (c.compile state name source).script.size 0 (c.blocks state source)))[a]? := by
  have hsize := c.size_compile_eq state name source
  rw [Script.get?, ← Array.getElem?_toList, words_compile h, List.getElem?_take_of_lt (by omega)]

end Compiler

end NpcScript
