import NpcScript.Proofs.Listings
import NpcScript.Proofs.Placement
import NpcScript.Proofs.ReadBack
import NpcScript.Proofs.Relayout
import NpcScript.Proofs.ShownBlocks

/-! # Disassembling and assembling again

The listing of a script, without addresses and jumps, is a source of that script:
its lines show the blocks, and a shown block is read back. This holds of every
source, also of one with errors, since the blocks are made of symbols of the
table whatever was wrong around them. -/
namespace NpcScript

variable {σ : Type}

namespace Reader

variable {r : Reader σ} (hlen : 63 ≤ r.maxWord) (hl : r.symbols.Legible)
include hlen hl

/-- A label is read as a symbol with the kind and the value that it shows. -/
theorem reads_labelOf {kind : Kind} {value : Nat} (h : r.symbols.Shows kind value)
    (hk : kind ≠ .constant) :
    ∃ e i, e ∈ r.symbols.entries ∧ e.kind = kind ∧ e.value = Int32.ofNat value ∧
      r.Reads (r.symbols.labelOf kind value).toList ⟨some e.kind, e.value, some i, e.name, 0⟩ := by
  obtain ⟨hf, e, he, hek, hev⟩ := h
  cases hname : r.symbols.nameOf? kind (Int32.ofNat value) with
  | none => exact absurd (Symbol.key_eq_iff.2 ⟨hek, hev⟩) (SymbolTable.nameOf?_eq_none.1 hname e he)
  | some name =>
    obtain ⟨d, hmem, hkey, rfl⟩ := SymbolTable.mem_of_nameOf? hname
    obtain ⟨hdk, hdv⟩ := Symbol.key_eq_iff.1 hkey
    have hlabel : r.symbols.labelOf kind value = d.name := by
      rw [SymbolTable.labelOf, hname]
      rfl
    obtain ⟨i, hreads⟩ := reads_name hlen hl hmem (by rwa [hdk]) (by rwa [hdk, hdv])
    exact ⟨d, i, hmem, hdk, hdv, by rwa [hlabel]⟩

/-- A shown operand and its operator are read back. -/
theorem reads_term {w : Word} (h : w.Shown r.symbols) :
    ∃ o t : Token, r.Reads (r.symbols.labelOf .operator w.operator).toList o ∧
      r.Reads (w.renderOperand r.symbols).toList t ∧ o.isOperator = true ∧ t.isOperand = true ∧
      o.value = Int32.ofNat w.operator ∧ .operand t.isVariable o.value t.value = w := by
  obtain ⟨e, i, _, hek, hev, hop⟩ := reads_labelOf hlen hl h.operator nofun
  have hsign : Token.isOperator ⟨some e.kind, e.value, some i, e.name, 0⟩ = true := by
    have hne : e.value ≠ Token.assignValue := by
      intro heq
      have hfits := h.operator.1
      rw [← hev, heq] at hfits
      cases hfits
    simp [Token.isOperator, hek, hne]
  have hdecoded := w.operand_decoded
  cases hflag : w.flag with
  | true =>
    obtain ⟨d, j, _, hdk, hdv, hrand⟩ := reads_labelOf hlen hl (h.register hflag) nofun
    refine ⟨_, ⟨some d.kind, d.value, some j, d.name, 0⟩, hop, ?_, hsign, ?_, hev, ?_⟩
    · rwa [Word.renderOperand, hflag, if_pos rfl]
    · simp [Token.isOperand, Token.isVariable, hdk]
    · rw [hflag] at hdecoded
      simpa [Token.isVariable, hdk, hev, hdv] using hdecoded
  | false =>
    have hpay : w.payload < 0x800000 := Nat.mod_lt _ (by decide)
    have hrand := reads_toDigits hlen (show w.payload ≤ Token.maxValue by rw [Token.maxValue]; omega)
    refine ⟨_, .constant (String.ofList (Nat.toDigits 10 w.payload)) (Int32.ofNat w.payload) 0, hop, ?_,
      hsign, rfl, hev, ?_⟩
    · rw [Word.renderOperand, hflag, if_neg Bool.false_ne_true, Nat.toString_eq_ofList_toDigits,
        String.toList_ofList]
      exact hrand
    · rw [hflag] at hdecoded
      rw [hev]
      exact hdecoded

theorem reads_terms {ws : List Word} (h : ∀ w ∈ ws, w.Shown r.symbols) :
    ∃ ps, Paired ps ∧ List.Forall₂ r.Reads (ws.flatMap (termWords r.symbols)) (pairTokens ps) ∧
      ps.map (fun p => Word.operand p.2.isVariable p.1.value p.2.value) = ws := by
  induction ws with
  | nil => exact ⟨[], paired_nil, .nil, rfl⟩
  | cons w ws ih =>
    obtain ⟨hw, hws⟩ := List.forall_mem_cons.1 h
    obtain ⟨ps, hp, hreads, hmap⟩ := ih hws
    obtain ⟨o, t, ho, ht, hop, hrand, _, hword⟩ := reads_term hlen hl hw
    refine ⟨(o, t) :: ps, paired_cons.2 ⟨⟨hop, hrand⟩, hp⟩, ?_, ?_⟩
    · exact .cons ho (.cons ht hreads)
    · rw [List.map_cons, hmap, hword]

/-- Shown operands are read back as the right side of an assignment. -/
theorem reads_operandWords {ws : List Word} (h : ∀ w ∈ ws, w.Shown r.symbols) :
    ∃ ts, List.Forall₂ r.Reads (operandWords r.symbols ws) ts ∧ RightSide.words {} ts = ws := by
  cases ws with
  | nil => exact ⟨[], .nil, rfl⟩
  | cons w ws =>
    obtain ⟨hw, hws⟩ := List.forall_mem_cons.1 h
    obtain ⟨ps, hp, hreads, hmap⟩ := reads_terms hlen hl hws
    obtain ⟨o, t, ho, ht, hop, hrand, hvalue, hword⟩ := reads_term hlen hl hw
    rw [operandWords]
    by_cases hzero : w.operator = 0
    · -- no operator is shown, and none is as good as the neutral one
      refine ⟨t :: pairTokens ps, ?_, ?_⟩
      · rw [if_pos hzero]
        exact .cons ht hreads
      · rw [hvalue, hzero] at hword
        rw [RightSide.words, RightSide.next_of_isOperand hrand, RightSide.words_pairTokens hp, hmap,
          RightSide.operand?, hrand]
        exact congrArg (· :: ws) hword
    · refine ⟨pairTokens ((o, t) :: ps), ?_, ?_⟩
      · rw [if_neg hzero]
        exact .cons ho (.cons ht hreads)
      · rw [RightSide.words_pairTokens (paired_cons.2 ⟨⟨hop, hrand⟩, hp⟩), List.map_cons, hmap, hword]

/-- The words of a shown block are read back: its head as a name, and what is
behind it as its operands. -/
theorem reads_block {b : Block} (h : b.Shown r.symbols) :
    ∃ t ts, r.Reads (b.headWord r.symbols) t ∧ List.Forall₂ r.Reads (b.tailWords r.symbols) ts ∧
      t.Named r.symbols ∧ t.kind = some (if b.head.flag then .function else .var) ∧
      t.value = Int32.ofNat b.head.opcode ∧ (b.head.flag = false → assignWords ts = b.operands) := by
  have hk : (if b.head.flag then Kind.function else .var) ≠ .constant := by split <;> decide
  obtain ⟨e, i, he, hek, hev, hhead⟩ := reads_labelOf hlen hl h.head hk
  obtain ⟨ts, hts, hwords⟩ : ∃ ts, List.Forall₂ r.Reads (b.tailWords r.symbols) ts ∧
      (b.head.flag = false → assignWords ts = b.operands) := by
    unfold Block.tailWords
    cases b.head.flag with
    | true => exact ⟨[], .nil, nofun⟩
    | false =>
      obtain ⟨ts, hts, hwords⟩ := reads_operandWords hlen hl h.operands
      exact ⟨.assign "=" 0 :: ts, .cons (reads_assign hlen) hts, fun _ => hwords⟩
  refine ⟨_, ts, hhead, hts, ?_, congrArg some hek, hev, hwords⟩
  intro k hk _ _
  cases hk
  refine ⟨e, he, rfl, rfl, rfl, ?_⟩
  show e.kind.fits e.value = true
  rw [hek, hev]
  exact h.head.1

end Reader

/-! ## Lines that show blocks -/

theorem map_sourceLine_place (symbols : SymbolTable) (stop addr : Nat) (bs : List Block) :
    (place stop addr bs).map (Statement.sourceLine symbols) = bs.map (Block.line symbols) := by
  induction bs generalizing addr with
  | nil => rfl
  | cons b bs ih => rw [place, List.map_cons, List.map_cons, ih, sourceLine_eq_line]

theorem length_le_length_intercalate {α : Type} (sep : List α) {line : List α} {lines : List (List α)}
    (h : line ∈ lines) : line.length ≤ (List.intercalate sep lines).length := by
  obtain ⟨i, hi⟩ := List.mem_iff_getElem?.1 h
  have hm : line ∈ lines.intersperse sep :=
    List.mem_of_getElem? (List.getElem?_intersperse_two_mul.trans hi)
  exact (List.sublist_flatten_of_mem hm).length_le

namespace Compiler

variable {c : Compiler σ} (hlen : 63 ≤ c.limits.maxWord) (hl : c.symbols.Legible)
include hlen hl

/-- A line that shows a block is read as that block, or as the end of the script
if the block is the end. -/
theorem readText_line {b : Block} (hb : b.Shown c.symbols) {e : Symbol} (he : c.symbols.end? = some e)
    (s : σ) :
    let l := c.readText s (b.line c.symbols)
    Reading.after s l.readings = s ∧ (l.endsScript = true ↔ b = .ending e) ∧
      l.blocks = if l.endsScript then [] else [b] := by
  intro l
  obtain ⟨t, ts, ht, hts, hnamed, hkind, hvalue, hwords⟩ := Reader.reads_block (r := c.reader) hlen hl hb
  obtain ⟨hlevel, hafter, x, xs, hx, rfl, hxs⟩ : l.level = b.head.indent ∧
      Reading.after s l.readings = s ∧ ∃ x xs, l.readings = x :: xs ∧ x.token = t ∧
        xs.map Reading.token = if t.isVariable then ts else [] :=
    c.readText_writtenLine ht hts b.head.indent s
  have hhead : Word.head b.head.flag l.indent x.token.value = b.head := by
    have hlt : b.head.indent < 16 := Nat.mod_lt _ (by decide)
    have hindent : l.indent = b.head.indent := by
      rw [LineReading.indent, hlevel, Word.maxIndent]
      omega
    rw [hindent, hvalue]
    exact b.head.head_decoded
  refine ⟨hafter, ?_⟩
  cases hflag : b.head.flag with
  | true =>
    rw [hflag, if_pos rfl] at hkind
    rw [hflag] at hhead
    have hcall : Block.call x.token l.indent = b := by
      rw [Block.call, hhead, ← hb.sound hflag]
    have hends := LineReading.endsScript_iff hl hx hkind hnamed he
    rw [hcall] at hends
    rw [LineReading.blocks_of_function hx hkind, hcall]
    exact ⟨hends, rfl⟩
  | false =>
    rw [hflag, if_neg Bool.false_ne_true] at hkind
    rw [hflag] at hhead
    have hends : l.endsScript = false := LineReading.endsScript_of_ne hx (by rw [hkind]; decide)
    have hvar : x.token.isVariable = true := decide_eq_true hkind
    rw [if_pos hvar] at hxs
    have hassign : Block.assignment x.token l.indent (xs.map Reading.token) = b := by
      rw [hxs, Block.assignment, hhead, hwords hflag]
    rw [LineReading.blocks_of_var hx hkind, hends, hassign]
    refine ⟨iff_of_false Bool.false_ne_true fun hend => ?_, rfl⟩
    rw [hend, Block.ending, Word.flag_head] at hflag
    cases hflag

/-- Lines that show blocks are read as those blocks, up to the end. -/
theorem codeOf_lines {e : Symbol} (he : c.symbols.end? = some e) {bs : List Block}
    (hb : ∀ b ∈ bs, b.Shown c.symbols ∧ b ≠ .ending e) (hend : (Block.ending e).Shown c.symbols) (s : σ) :
    c.codeOf s ((bs ++ [Block.ending e]).map (Block.line c.symbols)) = (bs, s) := by
  induction bs with
  | nil =>
    obtain ⟨hafter, hends, hblocks⟩ := readText_line hlen hl hend he s
    rw [List.nil_append, List.map_singleton, codeOf, hblocks, hends.2 rfl, hafter]
    rfl
  | cons b bs ih =>
    obtain ⟨⟨hshown, hne⟩, hbs⟩ := List.forall_mem_cons.1 hb
    obtain ⟨hafter, hends, hblocks⟩ := readText_line hlen hl hshown he s
    have hends := Bool.eq_false_iff.2 (hends.not.2 hne)
    rw [List.cons_append, List.map_cons, codeOf, hblocks, hends, hafter, ih hbs]
    rfl

/-- The lines of shown blocks are loaded as they are. -/
theorem texts_shownSource {bs : List Block} (hb : ∀ b ∈ bs, b.Shown c.symbols)
    (hline : (shownSource c.symbols bs).length ≤ c.limits.maxLine) :
    c.texts (shownSource c.symbols bs) = bs.map (Block.line c.symbols) := by
  have hplain {b : Block} (h : b ∈ bs) :
      PlainWord (b.headWord c.symbols) ∧ ∀ w ∈ b.tailWords c.symbols, PlainWord w := by
    obtain ⟨_, _, ht, hts, _⟩ := Reader.reads_block (r := c.reader) hlen hl (hb b h)
    exact ⟨ht.plain, Reader.plain_of_reads hts⟩
  have hbreak : ∀ line ∈ bs.map (Block.line c.symbols), ∀ x ∈ line, isBreak x = false := by
    intro line hm x hx
    obtain ⟨b, hb, rfl⟩ := List.mem_map.1 hm
    obtain ⟨hf, hr⟩ := hplain hb
    exact (settled_writtenLine hf hr _).not_isBreak hx
  have htext : ∀ line ∈ bs.map (Block.line c.symbols), c.textOf line = line := by
    intro line hm
    have hlength := length_le_length_intercalate ['\n'] hm
    obtain ⟨b, hb, rfl⟩ := List.mem_map.1 hm
    obtain ⟨hf, hr⟩ := hplain hb
    exact text_writtenLine hf hr _ (Nat.le_trans hlength hline)
  have hne : ∀ line ∈ bs.map (Block.line c.symbols), (!line.isEmpty) = true := by
    intro line hm
    obtain ⟨b, hb, rfl⟩ := List.mem_map.1 hm
    have hf := (hplain hb).1.ne_nil
    simp [Block.line, writtenLine, hf]
  rw [shownSource, c.texts_of_relaid (.intercalate _) hbreak, List.map_congr_left htext, List.map_id',
    List.filter_eq_self.2 hne]

end Compiler

/-! ## Listings of compiled scripts -/

/-- At most the operands of a right side are stored. -/
theorem RightSide.length_words_le (m : RightSide) (ts : List Token) :
    (m.words ts).length ≤ ts.countP Token.isOperand := by
  induction ts generalizing m with
  | nil => exact Nat.le_refl 0
  | cons t ts ih =>
    have hrest := ih (m.next t)
    rw [words, List.length_append, operand?, List.countP_cons]
    cases t.isOperand <;> cases m.expecting <;> simp <;> omega

theorem LineReading.length_operands_le {l : LineReading σ} {b : Block} (hb : b ∈ l.blocks) :
    b.operands.length ≤ l.tokens.tail.countP Token.isOperand := by
  unfold blocks at hb
  split at hb
  · cases hb
  · rename_i t ts ht
    rw [ht, List.tail_cons]
    split at hb
    · split at hb
      · cases hb
      · rw [List.mem_singleton.1 hb]
        exact Nat.zero_le _
    · rw [List.mem_singleton.1 hb]
      refine Nat.le_trans (RightSide.length_words_le {} (rightTokens ts)) ?_
      exact (sublist_rightTokens ts).countP_le
    · cases hb

namespace Compiler

variable {c : Compiler σ} {state : σ} {source : List Char}

theorem length_operands_lt (c : Compiler σ)
    (h : ∀ l ∈ c.lineReadings state source, l.tokens.tail.countP Token.isOperand < 0x100000000) :
    ∀ b ∈ c.blocks state source, b.operands.length < 0x100000000 := by
  intro b hb
  rcases List.mem_append.1 hb with hb | hb
  · obtain ⟨l, hl, hb⟩ := List.mem_flatMap.1 hb
    exact Nat.lt_of_le_of_lt (LineReading.length_operands_le hb) (h l hl)
  · obtain ⟨e, _, rfl⟩ := List.mem_map.1 hb
    exact Nat.zero_lt_of_lt (Nat.lt_succ_self _)

/-- A listing, as a source, has a line for every block. -/
theorem listedSource_compile (haddr : c.limits.maxWords ≤ addressSpace)
    (hcount : ∀ b ∈ c.blocks state source, b.operands.length < 0x100000000)
    (hfit : totalSize (c.blocks state source) ≤ c.limits.maxWords) (name : String) :
    (c.compile state name source).script.listedSource c.symbols =
      shownSource c.symbols (c.blocks state source) := by
  have hsize := c.size_compile_eq state name source
  rw [Script.listedSource, statements_compile_of_fits hfit hcount (by omega), map_sourceLine_place,
    shownSource]

/-- The lines of a source's blocks are a source of the same blocks, for every
compiler with the same symbols and the room to read them. -/
theorem blocks_shownSource {τ : Type} {c' : Compiler τ} (hsymbols : c'.symbols = c.symbols)
    (hl : c.symbols.Legible) (hlen : 63 ≤ c'.limits.maxWord)
    (hline : (shownSource c.symbols (c.blocks state source)).length ≤ c'.limits.maxLine)
    (hsource : Text.byteLength (shownSource c.symbols (c.blocks state source)) ≤ c'.limits.maxSource)
    (state' : τ) :
    c'.blocks state' (shownSource c.symbols (c.blocks state source)) = c.blocks state source := by
  obtain ⟨e, he, _⟩ := hl.ends
  obtain ⟨bs, hblocks, hbs, hend⟩ := c.exists_shown_blocks hl he state source
  rw [hblocks] at hline hsource ⊢
  rw [← hsymbols] at hl he hbs hend hline hsource ⊢
  have hshown : ∀ b ∈ bs ++ [.ending e], b.Shown c'.symbols := by
    intro b hb
    rcases List.mem_append.1 hb with hb | hb
    · exact (hbs b hb).1
    · rw [List.mem_singleton.1 hb]
      exact hend
  rw [blocks_eq_codeOf hsource, texts_shownSource hlen hl hshown hline, codeOf_lines hlen hl he hbs hend, he]
  rfl

/-- **A disassembled script is assembled to itself.** Compile any source with the
built-in vocabulary. If the script is not too large, its listing without the
addresses and the jumps, compiled with room for it, gives the same words. A slot
counts in 32 bits, so no line may have more operands than that; a script is no
longer than the address space. -/
theorem compile_listedSource {τ : Type} (c : Compiler σ) (c' : Compiler τ) (hc : c.symbols = .builtin)
    (hc' : c'.symbols = .builtin) (state : σ) (state' : τ) (name name' : String) (source : List Char)
    (haddr : c.limits.maxWords ≤ addressSpace)
    (hcount : ∀ l ∈ c.lineReadings state source, l.tokens.tail.countP Token.isOperand < 0x100000000)
    (hfit : (c.compile state name source).log.contains .programTooLarge = false)
    (hword : 63 ≤ c'.limits.maxWord)
    (hline : ((c.compile state name source).script.listedSource .builtin).length ≤ c'.limits.maxLine)
    (hsource : Text.byteLength ((c.compile state name source).script.listedSource .builtin) ≤
      c'.limits.maxSource)
    (hroom : (c.compile state name source).script.size ≤ c'.limits.maxWords) :
    (c'.compile state' name' ((c.compile state name source).script.listedSource .builtin)).script.words =
      (c.compile state name source).script.words := by
  have hsize := c.size_compile_eq state name source
  have hoperands := c.length_operands_lt hcount
  rw [contains_programTooLarge_compile, decide_eq_false_iff_not, Nat.not_lt] at hfit
  rw [← hc, listedSource_compile haddr hoperands hfit] at hline hsource ⊢
  have hblocks := blocks_shownSource (hc'.trans hc.symm) (hc ▸ Builtin.legible) hword hline hsource state'
  have hsize' := c'.size_compile_eq state' name' (shownSource c.symbols (c.blocks state source))
  rw [hblocks] at hsize'
  have hsame : (c'.compile state' name' (shownSource c.symbols (c.blocks state source))).script.size =
      (c.compile state name source).script.size := by omega
  rw [← Array.toList_inj, ← Script.spell_statements, ← Script.spell_statements,
    statements_compile_of_fits hfit hoperands (by omega),
    statements_compile_of_fits (by rw [hblocks]; omega) (by rwa [hblocks]) (by omega), hblocks, hsame]

/-- A comment, another name for `tmpdist`, an operator without an operand before
it and an assignment of nothing. -/
theorem compile_listedSource_faulty :
    let c : Compiler Unit := { host := ⟨fun _ s => (none, s), fun _ s => (0, s)⟩ }
    let source := "IfSpawned // once\n  tmpdistance = * 5\n  tmpy =".toList
    let out := c.compile () "first" source
    let text := "IfSpawned\n  tmpdist = * 5\n  tmpy =\nEnd".toList
    out.log.contains .programTooLarge = false ∧ out.script.listedSource .builtin = text ∧
      (c.compile () "second" text).script.words = out.script.words := by
  intro c source out text
  obtain ⟨hfit, htext, hcount⟩ : out.log.contains .programTooLarge = false ∧
      out.script.listedSource .builtin = text ∧
      ∀ l ∈ c.lineReadings () source, l.tokens.tail.countP Token.isOperand < 0x100000000 := by
    decide +kernel
  have hlength : text.length ≤ 1024 ∧ Text.byteLength text ≤ 65536 := by decide
  have hsize : out.script.size ≤ 4096 := by
    rw [size_compile_eq]
    exact Nat.min_le_left ..
  have hwords := compile_listedSource c c rfl rfl () () "first" "second" source (by decide) hcount hfit
    (by decide) (htext ▸ hlength.1) (htext ▸ hlength.2) hsize
  exact ⟨hfit, htext, htext ▸ hwords⟩

end Compiler

end NpcScript
