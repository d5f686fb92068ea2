import NpcScript.Proofs.Acceptance
import NpcScript.Proofs.Bytecode

/-! # The meaning of accepted sources

If no error is reported, the statements of the script are those of the source:
one for each line with text before the end, in their order, and one for the end.
`LineReading.Encodes` says what the statement of a line decodes to. -/
namespace NpcScript

variable {σ : Type}

/-- A number that fits a kind is kept by every field that is large enough. -/
theorem Word.field_of_fits {k : Kind} {value : Int32} (h : k.fits value = true) {size : Nat}
    (hs : k.maxValue < size) : (field size value : Int) = value.toInt := by
  obtain ⟨h0, h1⟩ := Bool.and_eq_true_iff.1 h
  have h0 := of_decide_eq_true h0
  have h1 := of_decide_eq_true h1
  have hm : value.toInt % (size : Int) = value.toInt := Int.emod_eq_of_lt h0 (by omega)
  rw [field, hm]
  omega

/-- An operand word decodes to an operand and the operator before it. -/
def Word.IsTerm (term : Int32 × Token) (w : Word) : Prop :=
  w.flag = term.2.isVariable ∧ (w.operator : Int) = term.1.toInt ∧
    (w.payload : Int) = term.2.value.toInt % 0x800000

/-- A statement decodes to the line: a function of the same depth and value
without operands, or an assignment of the same depth, target and terms. -/
structure LineReading.Encodes (l : LineReading σ) (s : Statement) : Prop where
  indented : IndentedBy (2 * s.indent) l.line.text
  form : (∃ f, l.tokens.head? = some f ∧ f.isFunction = true ∧ s.isFunction = true ∧
      (s.head.opcode : Int) = f.value.toInt ∧ s.operands = []) ∨
    ∃ a : Assignment, l.tokens = a.tokens ∧ s.isFunction = false ∧
      (s.head.opcode : Int) = a.target.value.toInt ∧
      s.slot.map Word.toNat = some a.terms.length ∧ List.Forall₂ Word.IsTerm a.terms s.operands

/-- A line with text that does not end the script. -/
def LineReading.isStatement (l : LineReading σ) : Bool := !l.line.isEmpty && !l.endsScript

/-- A statement has the head and the operands of a block, and counts them if it
is an assignment. -/
def Statement.Carries (b : Block) (s : Statement) : Prop :=
  s.head = b.head ∧ s.operands = b.operands ∧
    (b.head.flag = false → s.slot = some (.ofNat b.operands.length))

/-- Jumps change the slots of functions only. -/
theorem forall₂_carries_resolve {bs : List Block} {ss : List Statement}
    (h : List.Forall₂ Statement.IsBlock bs ss) (stop : Nat) :
    List.Forall₂ Statement.Carries bs (resolve stop ss) := by
  induction h with
  | nil => exact .nil
  | @cons b s bs ss hb _ ih =>
    obtain ⟨hh, hs, ho⟩ := hb
    refine .cons ⟨?_, ?_, fun hf => ?_⟩ ih
    · rw [Statement.head_fill, hh]
    · rw [Statement.operands_fill, ho]
    · have hn : s.isFunction = false := by rw [Statement.isFunction, hh, hf]
      rw [Statement.fill, hn, if_neg Bool.false_ne_true, hs]

namespace LineReading

variable {l : LineReading σ}

theorem Genuine.fits_of_mem (g : l.Genuine) {t : Token} (ht : t ∈ l.tokens) {k : Kind}
    (hk : t.kind = some k) (hc : k ≠ .constant) (ha : t.isAssign = false) : k.fits t.value = true := by
  obtain ⟨x, hx, rfl⟩ := List.mem_map.1 ht
  exact g.fits x hx k hk hc ha

theorem WellWritten.indentedBy (w : l.WellWritten) :
    IndentedBy (2 * min l.indent Word.maxIndent) l.line.text := by
  obtain ⟨depth, hdepth, hindented⟩ := w.indented
  rw [← SourceLine.leadingSpaces_eq_iff] at hindented ⊢
  rw [indent, level, spaces, Word.maxIndent]
  omega

/-- The line has no space before the function `End`. -/
def IsEnd (l : LineReading σ) : Prop :=
  IndentedBy 0 l.line.text ∧
    ∃ f, l.tokens.head? = some f ∧ f.isFunction = true ∧ f.word = SymbolTable.endName

theorem WellWritten.endsScript_iff (w : l.WellWritten) : l.endsScript = true ↔ l.IsEnd := by
  obtain ⟨depth, _, hindented⟩ := w.indented
  have hzero : IndentedBy 0 l.line.text ↔ ¬ 2 ≤ 2 * depth := by
    rw [← SourceLine.leadingSpaces_eq_iff] at hindented ⊢
    omega
  rw [endsScript, hindented.isPrefixOf, IsEnd, hzero]
  simp [Option.any_eq_true]

theorem Genuine.endsScript_iff (g : l.Genuine) {maxLine : Nat} (h : l.Accepted maxLine) :
    l.endsScript = true ↔ l.IsEnd := by
  cases hl : l.line.isEmpty with
  | false => exact (h.2 hl).endsScript_iff
  | true =>
    have hr := g.readings_eq_nil hl
    rw [l.endsScript_of_nil hr, IsEnd, tokens, hr]
    simp

/-- The operands of an assignment decode to its terms. -/
theorem Genuine.forall₂_isTerm (g : l.Genuine) {a : Assignment} (ha : l.tokens = a.tokens) :
    List.Forall₂ Word.IsTerm a.terms
      (a.terms.map fun x => .operand x.2.isVariable x.1 x.2.value) := by
  rw [List.forall₂_map_right_iff, List.forall₂_same]
  intro x hx
  refine ⟨Word.flag_operand .., ?_, ?_⟩
  · rw [Word.operator_operand]
    rcases List.mem_cons.1 hx with rfl | hx
    · rfl
    · obtain ⟨p, hp, rfl⟩ := List.mem_map.1 hx
      obtain ⟨hk, hna⟩ := Token.kind_of_isOperator (a.paired_rest p hp).1
      have hmem : p.1 ∈ l.tokens := by
        rw [ha, Assignment.tokens]
        refine List.mem_cons_of_mem _ (List.mem_cons_of_mem _ (List.mem_cons_of_mem _ ?_))
        exact List.mem_flatMap.2 ⟨p, hp, List.mem_cons_self⟩
      exact Word.field_of_fits (g.fits_of_mem hmem hk (by decide) hna) (by decide)
  · rw [Word.payload_operand, Word.field]
    omega

/-- The one block of a line with text, and what carries it. -/
theorem Genuine.exists_block (g : l.Genuine) (w : l.WellWritten) (hl : l.line.isEmpty = false)
    (he : l.endsScript = false) :
    ∃ b, l.blocks = [b] ∧ ∀ s : Statement, s.Carries b → b.operands.length < 0x100000000 →
      l.Encodes s := by
  obtain ⟨x, xs, hx⟩ := List.exists_cons_of_ne_nil (g.readings_ne_nil hl)
  have ht : l.tokens = x.token :: xs.map Reading.token := by
    rw [tokens, hx]
    rfl
  have hm : x.token ∈ l.tokens := by
    rw [ht]
    exact List.mem_cons_self
  by_cases hf : x.token.kind = some .function
  · refine ⟨_, (l.blocks_of_function hx hf).trans (if_neg (by rw [he]; exact Bool.false_ne_true)), ?_⟩
    rintro s ⟨hh, ho, _⟩ _
    have hfit := g.fits_of_mem hm hf (by decide) (Token.isAssign_eq_false hf (by decide))
    refine ⟨?_, .inl ⟨x.token, by rw [ht]; rfl, decide_eq_true hf, ?_, ?_, ho⟩⟩
    · rw [Statement.indent, hh, Block.call, Word.indent_head]
      exact w.indentedBy
    · rw [Statement.isFunction, hh, Block.call, Word.flag_head]
    · rw [hh, Block.call, Word.opcode_head]
      exact Word.field_of_fits hfit (by decide)
  · by_cases hv : x.token.kind = some .var
    · obtain ⟨a, ha⟩ := (hasForm_of_var hx hv).1 w.form
      rw [← ht] at ha
      have hts : xs.map Reading.token = a.tokens.tail := by rw [← ha, ht, List.tail_cons]
      have htarget : x.token = a.target := by
        rw [ha] at ht
        exact (List.cons.inj ht).1.symm
      have hfit := g.fits_of_mem hm hv (by decide) (Token.isAssign_eq_false hv (by decide))
      refine ⟨_, l.blocks_of_var hx hv, ?_⟩
      rintro s ⟨hh, ho, hs⟩ hlt
      rw [Block.assignment, hts, assignWords_tokens] at hh ho hs hlt
      rw [List.length_map] at hs hlt
      refine ⟨?_, .inr ⟨a, ha, ?_, ?_, ?_, ?_⟩⟩
      · rw [Statement.indent, hh, Word.indent_head]
        exact w.indentedBy
      · rw [Statement.isFunction, hh, Word.flag_head]
      · rw [hh, Word.opcode_head, ← htarget]
        exact Word.field_of_fits hfit (by decide)
      · rw [hs (Word.flag_head ..), Option.map_some, Word.toNat_ofNat hlt]
      · rw [ho]
        exact g.forall₂_isTerm ha
    · exact absurd w.form (not_hasForm_of_other hx hf hv)

end LineReading

/-- The statements of accepted lines, one for each line with text that does not
end the script. -/
theorem forall₂_encodes {maxLine : Nat} {ls : List (LineReading σ)} (hg : ∀ l ∈ ls, l.Genuine)
    (ha : ∀ l ∈ ls, l.Accepted maxLine) {ss : List Statement}
    (h : List.Forall₂ Statement.Carries (ls.flatMap LineReading.blocks) ss)
    (hlt : ∀ b ∈ ls.flatMap LineReading.blocks, b.operands.length < 0x100000000) :
    List.Forall₂ LineReading.Encodes (ls.filter LineReading.isStatement) ss := by
  induction ls generalizing ss with
  | nil =>
    cases h
    exact .nil
  | cons l ls ih =>
    obtain ⟨hgl, hg⟩ := List.forall_mem_cons.1 hg
    obtain ⟨hal, ha⟩ := List.forall_mem_cons.1 ha
    rw [List.flatMap_cons] at h hlt
    cases hp : l.isStatement with
    | false =>
      -- no text, or the end: the line has no block, and no statement is used up
      have hb : l.blocks = [] := by
        cases hr : l.readings with
        | nil => exact l.blocks_of_nil hr
        | cons x xs =>
          have he : l.endsScript = true := by
            cases hl : l.line.isEmpty with
            | true =>
              rw [hgl.readings_eq_nil hl] at hr
              cases hr
            | false => simpa [LineReading.isStatement, hl] using hp
          have hf : x.token.kind = some .function := by
            rw [l.endsScript_of_cons hr, Bool.and_eq_true, Bool.and_eq_true] at he
            exact Token.kind_of_isFunction he.2.1
          rw [l.blocks_of_function hr hf, if_pos he]
      rw [hb, List.nil_append] at h hlt
      rw [List.filter_cons_of_neg (by simp [hp])]
      exact ih hg ha h hlt
    | true =>
      obtain ⟨hl, he⟩ := Bool.and_eq_true_iff.1 hp
      rw [Bool.not_eq_true'] at hl he
      obtain ⟨b, hb, henc⟩ := hgl.exists_block (hal.2 hl) hl he
      rw [hb, List.singleton_append] at h hlt
      obtain ⟨hltb, hlt⟩ := List.forall_mem_cons.1 hlt
      rw [List.filter_cons_of_pos hp]
      cases h with
      | cons hs h => exact .cons (henc _ hs hltb) (ih hg ha h hlt)

namespace Compiler

/-- **Accepted sources are translated line by line.** Without an error, the walk
over the script gives the lines with text up to the end, one statement each and
in their order, and a last statement for the end. It is the first line with `End`
at the left margin that ends the script. -/
theorem compile_translates (c : Compiler σ) (h : c.limits.maxWords < 0x100000000) (state : σ)
    (name : String) (source : List Char)
    (ok : (c.compile state name source).log.hadError = false) :
    (∀ l ∈ c.readSource state source, l.endsScript = true ↔ l.IsEnd) ∧
    ∃ e body last, c.symbols.end? = some e ∧
      (c.compile state name source).script.statements = body ++ [last] ∧
      List.Forall₂ LineReading.Encodes
        ((c.readSource state source).filter LineReading.isStatement) body ∧
      last.isFunction = true ∧ last.indent = 0 ∧
      (last.head.opcode : Int) = e.value.toInt % 0x8000000 ∧ last.operands = [] := by
  obtain ⟨hsource, hlines, hend, hroom⟩ := (c.hadError_compile_iff state name source).1 ok
  obtain ⟨e, he⟩ := Option.isSome_iff_exists.1 hend
  have hls : c.lineReadings state source = c.readSource state source := by
    rw [lineReadings, kept, if_pos hsource]
  have hblocks : c.blocks state source =
      (c.readSource state source).flatMap LineReading.blocks ++ [{ head := .head true 0 e.value }] := by
    rw [blocks, hls, he]
    rfl
  have hlaid : List.Forall₂ Statement.IsBlock (c.blocks state source)
      (layOut c.limits.maxWords 0 (c.blocks state source)) := layOut_of_le hroom
  have hcarry := forall₂_carries_resolve hlaid (c.compile state name source).script.size
  rw [← statements_compile state name source h, hblocks] at hcarry
  rw [hls] at hlines
  refine ⟨fun l hl => (c.genuine_of_mem hl).endsScript_iff (hlines l hl), ?_⟩
  rw [hblocks] at hroom
  generalize (c.compile state name source).script.statements = ss at hcarry
  -- the statements of the lines, and the one that is left
  have hbody := List.forall₂_take ((c.readSource state source).flatMap LineReading.blocks).length hcarry
  have htail := List.forall₂_drop ((c.readSource state source).flatMap LineReading.blocks).length hcarry
  rw [List.take_left] at hbody
  rw [List.drop_left] at htail
  generalize ((c.readSource state source).flatMap LineReading.blocks).length = n at hbody htail
  have hss := List.take_append_drop n ss
  generalize ss.drop n = tail at htail hss
  cases htail with
  | @cons _ last _ _ hlast hnil =>
    cases hnil
    obtain ⟨hhead, hops, _⟩ := hlast
    refine ⟨e, ss.take n, last, he, hss.symm, ?_, ?_, ?_, ?_, hops⟩
    · refine forall₂_encodes (fun l hl => c.genuine_of_mem hl) hlines hbody fun b hb => ?_
      have hle := length_operands_le_totalSize hb
      rw [totalSize_append] at hroom
      omega
    · rw [Statement.isFunction, hhead, Word.flag_head]
    · rw [Statement.indent, hhead, Word.indent_head]
      rfl
    · rw [hhead, Word.opcode_head, Word.field]
      omega

/-- A question, an assignment under it, a comment and the end. -/
theorem compile_translates_tiny :
    let source := "IfIdle\n  x = x + 1 // one more\n\nEnd".toList
    let lines := (tiny 8).readSource () source
    let statements := ((tiny 8).compile () "tiny" source).script.statements
    (tiny 8).limits.maxWords < 0x100000000 ∧
      ((tiny 8).compile () "tiny" source).log.hadError = false ∧
      lines.map (fun l => l.line.text) = ["IfIdle".toList, "  x = x + 1".toList, [], "End".toList] ∧
      lines.map LineReading.isStatement = [true, true, false, false] ∧
      statements.map (fun s => (s.isFunction, s.indent, s.head.opcode)) =
        [(true, 0, 1), (false, 1, 2), (true, 0, 9)] ∧
      statements.map (fun s => s.operands.map fun w => (w.flag, w.operator, w.payload)) =
        [[], [(true, 0, 2), (false, 3, 1)], []] ∧
      statements.map (fun s => s.slot.map Word.toNat) = [some 6, some 2, some 8] ∧
      (∀ l ∈ lines, l.endsScript = true ↔ l.IsEnd) ∧
      ∃ e body last, (tiny 8).symbols.end? = some e ∧ statements = body ++ [last] ∧
        List.Forall₂ LineReading.Encodes (lines.filter LineReading.isStatement) body ∧
        last.isFunction = true ∧ last.indent = 0 ∧
        (last.head.opcode : Int) = e.value.toInt % 0x8000000 ∧ last.operands = [] := by
  intro source lines statements
  have hlim : (tiny 8).limits.maxWords < 0x100000000 := by decide
  have ok : ((tiny 8).compile () "tiny" source).log.hadError = false := by decide +kernel
  have htexts : lines.map (fun l => l.line.text) =
      ["IfIdle".toList, "  x = x + 1".toList, [], "End".toList] := by decide +kernel
  have hlines : lines.map LineReading.isStatement = [true, true, false, false] := by decide +kernel
  have hheads : statements.map (fun s => (s.isFunction, s.indent, s.head.opcode)) =
      [(true, 0, 1), (false, 1, 2), (true, 0, 9)] := by decide +kernel
  have hoperands : statements.map (fun s => s.operands.map fun w => (w.flag, w.operator, w.payload)) =
      [[], [(true, 0, 2), (false, 3, 1)], []] := by decide +kernel
  have hslots : statements.map (fun s => s.slot.map Word.toNat) = [some 6, some 2, some 8] := by
    decide +kernel
  exact ⟨hlim, ok, htexts, hlines, hheads, hoperands, hslots,
    compile_translates (tiny 8) hlim () "tiny" source ok⟩

end Compiler

end NpcScript
