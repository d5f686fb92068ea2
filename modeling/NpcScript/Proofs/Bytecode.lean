import NpcScript.Proofs.Compiling

/-! # Compiled scripts are well-formed

Whatever a source is and wherever the buffer cuts its code, the statements of
the compiled script tile its words, and its jumps lead to statements and nest.
The first holds since the count of a cut assignment is that of the operands it
still has, the second since all jumps are forward scans over one walk. -/
namespace NpcScript

/-- Statements that fill the words from one address up to another without a
gap, each as long as it announces. -/
def Tiles : Nat → List Statement → Nat → Prop
  | addr, [], stop => addr = stop
  | addr, s :: rest, stop => s.addr = addr ∧ Tiles (addr + s.extent) rest stop

theorem Statement.Cut.words_length {s : Statement} (h : s.Cut) (hw : s.slot.isSome = true → s.Whole) :
    s.words.length = s.extent := by
  cases hs : s.slot with
  | some n => exact (hw (by rw [hs]; rfl)).words_length
  | none =>
    rcases h with ⟨_, ho⟩ | ⟨hn, _⟩
    · rw [Statement.words_length, ho, extent, hs]
      rfl
    · rw [hs] at hn
      cases hn

/-- A walk whose last statement is not short of operands tiles its words. -/
theorem IsWalk.tiles {addr : Nat} {ss : List Statement} (h : IsWalk addr ss)
    (hw : ∀ s ∈ ss, s.slot.isSome = true → s.Whole) : Tiles addr ss (addr + (spell ss).length) := by
  induction ss generalizing addr with
  | nil => rfl
  | cons s ss ih =>
    obtain ⟨ha, hc, _, hr⟩ := h
    have hl := hc.words_length (hw s List.mem_cons_self)
    rw [spell_cons, List.length_append, ← Nat.add_assoc]
    refine ⟨ha, ?_⟩
    rw [← hl]
    exact ih hr fun t ht => hw t (List.mem_cons_of_mem s ht)

/-! ## What jumps leave as it is -/

theorem whole_of_mem_resolve {stop : Nat} {ss : List Statement}
    (h : ∀ s ∈ ss, s.slot.isSome = true → s.Whole) {t : Statement} (ht : t ∈ resolve stop ss)
    (hs : t.slot.isSome = true) : t.Whole := by
  obtain ⟨pre, post, hp⟩ := List.append_of_mem ht
  obtain ⟨before, s, after, rfl, rfl, _⟩ := resolve_eq_append hp
  rw [Statement.isSome_slot_fill] at hs
  exact (h s (by simp) hs).fill _

/-- A statement before the last one comes from one before the last one. -/
theorem isSome_slot_of_mem_dropLast {stop : Nat} {ss : List Statement}
    (h : ∀ before s after, ss = before ++ s :: after → after ≠ [] → s.slot.isSome = true)
    {t : Statement} (ht : t ∈ (resolve stop ss).dropLast) : t.slot.isSome = true := by
  rcases List.eq_nil_or_concat (resolve stop ss) with h0 | ⟨init, last, hc⟩
  · rw [h0] at ht
    cases ht
  · rw [List.concat_eq_append] at hc
    rw [hc, List.dropLast_concat] at ht
    obtain ⟨pre, post, rfl⟩ := List.append_of_mem ht
    rw [List.append_assoc] at hc
    obtain ⟨before, s, after, hs, rfl, hpost⟩ := resolve_eq_append hc
    rw [Statement.isSome_slot_fill]
    refine h before s after hs fun h0 => ?_
    rw [h0] at hpost
    simp [resolve] at hpost

/-- A jump of a resolved walk is a forward scan, as the words hold it. -/
theorem jump_of_mem_resolve {ss : List Statement} (h : IsWalk 0 ss) (hl : (spell ss).length < 0x100000000)
    {t : Statement} {j : Nat} (ht : t ∈ resolve (spell ss).length ss) (hj : t.jump? = some j) :
    ∃ before s after, ss = before ++ s :: after ∧ s.addr = t.addr ∧ s.slot.isSome = true ∧
      j = nextAtMost s.indent (0 + (spell (before ++ s :: after)).length) after := by
  obtain ⟨pre, post, hp⟩ := List.append_of_mem ht
  obtain ⟨before, s, after, rfl, rfl, _⟩ := resolve_eq_append hp
  rw [Statement.jump_fill] at hj
  split at hj
  · rename_i hs
    have hslot := (Bool.and_eq_true_iff.1 hs).2
    have hle := (h.nextAtMost_mem hslot s.indent).2
    rw [Nat.zero_add] at hle
    refine ⟨before, s, after, rfl, (Statement.addr_fill ..).symm, hslot, ?_⟩
    rw [Option.some.injEq, Word.toNat_ofNat (by omega)] at hj
    rw [← hj, Nat.zero_add]
  · cases hj

/-- Bytecode as the walk over it needs it. -/
structure Script.WellFormed (s : Script) : Prop where
  /-- The statements tile the words. -/
  tiles : Tiles 0 s.statements s.size
  /-- Only the last statement can lack its slot. -/
  slots : ∀ t ∈ s.statements.dropLast, t.slot.isSome = true
  counts : ∀ t ∈ s.statements, t.isFunction = false → ∀ n, t.slot = some n → t.operands.length = n.toNat
  /-- A jump leads behind its function, to a statement or to the end. -/
  jumps : ∀ t ∈ s.statements, ∀ j, t.jump? = some j →
    t.addr + 2 ≤ j ∧ j ≤ s.size ∧ (j = s.size ∨ ∃ u ∈ s.statements, u.addr = j)
  nested : ∀ t ∈ s.statements, ∀ u ∈ s.statements, ∀ j k, t.jump? = some j → u.jump? = some k →
    t.addr < u.addr → u.addr < j → k ≤ j

/-- What makes a resolved walk well-formed bytecode. -/
theorem Script.wellFormed_of_resolve {s : Script} {ss : List Statement} (h : IsWalk 0 ss)
    (hs : s.statements = resolve (spell ss).length ss) (hl : (spell ss).length < 0x100000000)
    (hwhole : ∀ t ∈ ss, t.slot.isSome = true → t.Whole)
    (hslots : ∀ before t after, ss = before ++ t :: after → after ≠ [] → t.slot.isSome = true) :
    s.WellFormed := by
  have hsize : s.size = (spell ss).length := by
    rw [← spell_statements_length, hs, spell_resolve_length]
  have whole (t : Statement) (ht : t ∈ s.statements) (hn : t.slot.isSome = true) : t.Whole := by
    rw [hs] at ht
    exact whole_of_mem_resolve hwhole ht hn
  refine ⟨?_, ?_, ?_, ?_, ?_⟩
  · have ht := s.isWalk_statements.tiles whole
    rwa [spell_statements_length, Nat.zero_add] at ht
  · rw [hs]
    exact fun t ht => isSome_slot_of_mem_dropLast hslots ht
  · intro t ht hf n hn
    obtain ⟨_, ho⟩ := whole t ht (by rw [hn]; rfl)
    rw [ho, Statement.announced_of_variable hf hn]
  · intro t ht j hj
    rw [hs] at ht ⊢
    obtain ⟨before, r, after, rfl, ha, hslot, rfl⟩ := jump_of_mem_resolve h hl ht hj
    obtain ⟨hge, hle⟩ := h.nextAtMost_mem hslot r.indent
    rw [Nat.zero_add] at hge hle ⊢
    rw [hsize, ← ha]
    refine ⟨hge, hle, ?_⟩
    rcases nextAtMost_cases r.indent (spell (before ++ r :: after)).length after with he | ⟨u, hu, _, he⟩
    · exact .inl he
    · refine .inr ?_
      have hm : u.addr ∈ (resolve (spell (before ++ r :: after)).length (before ++ r :: after)).map
          Statement.addr := by
        rw [map_addr_resolve]
        exact List.mem_map_of_mem (by simp [hu])
      rw [he]
      exact List.mem_map.1 hm
  · intro t ht u hu j k hj hk hlt hin
    rw [hs] at ht hu
    obtain ⟨before, r, after, rfl, ha, _, rfl⟩ := jump_of_mem_resolve h hl ht hj
    obtain ⟨before', r', after', he, ha', _, rfl⟩ := jump_of_mem_resolve h hl hu hk
    rw [← ha, ← ha'] at hlt
    rw [← ha'] at hin
    rw [← he]
    exact h.nextAtMost_nested he hlt hin

namespace Compiler

variable {σ : Type}

/-- If nothing is cut off, the end is the last statement and goes on behind itself. -/
theorem exists_end_of_fits {c : Compiler σ} (h : c.limits.maxWords < 0x100000000) (state : σ)
    (name : String) (source : List Char)
    (hfit : totalSize (c.blocks state source) ≤ c.limits.maxWords) {e : Symbol}
    (he : c.symbols.end? = some e) :
    ∃ before addr, (c.compile state name source).script.statements = before ++
      [Statement.fill ⟨addr, .head true 0 e.value, some (.ofNat 0), []⟩
        (c.compile state name source).script.size] := by
  have hblocks : c.blocks state source =
      (c.lineReadings state source).flatMap LineReading.blocks ++ [{ head := .head true 0 e.value }] := by
    rw [blocks, he]
    rfl
  have hss := statements_compile state name source h
  rw [hblocks, totalSize_append] at hfit
  rw [hblocks, layOut_append] at hss
  generalize (c.lineReadings state source).flatMap LineReading.blocks = bs at hfit hss
  -- the block of the end finds its room behind all others
  obtain ⟨room, hroom⟩ : ∃ room, c.limits.maxWords - totalSize bs = room + 2 :=
    ⟨c.limits.maxWords - totalSize bs - 2, by simp [Block.size] at hfit; omega⟩
  have hlast : layOut (room + 2) (0 + totalSize bs) [{ head := .head true 0 e.value }] =
      [⟨0 + totalSize bs, .head true 0 e.value, some (.ofNat 0), []⟩] := by simp [layOut]
  rw [hroom, hlast] at hss
  obtain ⟨before, hb⟩ := resolve_concat (c.compile state name source).script.size
    (layOut c.limits.maxWords 0 bs) ⟨0 + totalSize bs, .head true 0 e.value, some (.ofNat 0), []⟩
  exact ⟨before, _, hss.trans hb⟩

/-- **Every compiled script is well-formed**, with errors or without, and if
nothing was cut off it ends with the function `End` at the left margin. -/
theorem compile_wellFormed (c : Compiler σ) (h : c.limits.maxWords < 0x100000000) (state : σ)
    (name : String) (source : List Char) :
    let out := c.compile state name source
    out.script.size ≤ c.limits.maxWords ∧ out.script.WellFormed ∧
      (out.log.contains .programTooLarge = false → ∀ e, c.symbols.end? = some e →
        ∃ before last, out.script.statements = before ++ [last] ∧ last.isFunction = true ∧
          last.indent = 0 ∧ (last.head.opcode : Int) = e.value.toInt % 0x8000000 ∧
          last.jump? = some out.script.size) := by
  intro out
  have hsize : out.script.size = min c.limits.maxWords (totalSize (c.blocks state source)) :=
    size_compile state name source h
  have hss : out.script.statements =
      resolve out.script.size (layOut c.limits.maxWords 0 (c.blocks state source)) :=
    statements_compile state name source h
  have hsound (b : Block) (hb : b ∈ c.blocks state source) : b.Sound := c.sound_of_mem_blocks hb
  have hspell := length_spell_layOut c.limits.maxWords 0 (c.blocks state source)
  rw [← hsize] at hspell
  refine ⟨by omega, ?_, ?_⟩
  · refine Script.wellFormed_of_resolve (isWalk_layOut h hsound) (by rw [hspell]; exact hss) (by omega)
      (fun t ht => whole_of_mem_layOut h hsound ht) ?_
    exact fun before t after he => isSome_slot_of_layOut_append he
  · intro hfit e he
    have hfit : totalSize (c.blocks state source) ≤ c.limits.maxWords := by
      rw [c.contains_programTooLarge_compile state name source, decide_eq_false_iff_not] at hfit
      omega
    obtain ⟨before, addr, hend⟩ := exists_end_of_fits h state name source hfit he
    refine ⟨before, _, hend, ?_, ?_, ?_, ?_⟩
    · rw [Statement.isFunction_fill]
      exact Word.flag_head ..
    · rw [Statement.indent_fill]
      exact Word.indent_head ..
    · rw [Statement.head_fill, Word.opcode_head, Word.field]
      omega
    · have hlt : out.script.size < 0x100000000 := by omega
      have hj : Statement.jumps ⟨addr, .head true 0 e.value, some (.ofNat 0), []⟩ = true :=
        Bool.and_eq_true_iff.2 ⟨Word.flag_head .., rfl⟩
      rw [Statement.jump_fill, if_pos hj, Word.toNat_ofNat hlt]

/-- An assignment under a question, with just enough room. -/
theorem compile_wellFormed_tiny :
    let out := (tiny 8).compile () "tiny" "IfIdle\n  x = x + 1\nEnd".toList
    (tiny 8).limits.maxWords < 0x100000000 ∧ out.log.contains .programTooLarge = false ∧
      out.script.size ≤ 8 ∧ out.script.WellFormed ∧
      ∃ before last, out.script.statements = before ++ [last] ∧ last.isFunction = true ∧
        last.indent = 0 ∧ (last.head.opcode : Int) = (9 : Int32).toInt % 0x8000000 ∧
        last.jump? = some out.script.size := by
  intro out
  have hlim : (tiny 8).limits.maxWords < 0x100000000 := by decide
  have hfit : out.log.contains .programTooLarge = false := by decide +kernel
  have hend : (tiny 8).symbols.end? = some ⟨"End", .function, 9⟩ := by decide
  obtain ⟨hsize, hwf, hlast⟩ :=
    compile_wellFormed (tiny 8) hlim () "tiny" "IfIdle\n  x = x + 1\nEnd".toList
  exact ⟨hlim, hfit, hsize, hwf, hlast hfit _ hend⟩

end Compiler

end NpcScript
