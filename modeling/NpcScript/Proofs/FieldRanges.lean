import NpcScript.Proofs.BracketCodes
import NpcScript.Proofs.Terms
import NpcScript.Proofs.Translation

/-! # What the fields of words keep

A payload has 23 bits and an opcode 27, and a value that does not fit is cut
without a word. The reader refuses numerals and symbols that do not fit, but it
takes the slot of an asset and the index of a message as the host gives them,
and the end of a script is encoded without being read. So an accepted script
keeps every value but those, and each of those exactly if it fits. -/
namespace NpcScript

variable {σ : Type}

/-- A field keeps just the values that fit the kind it is made for. -/
theorem Word.field_eq_iff {k : Kind} {size : Nat} (hs : k.maxValue + 1 = size) (value : Int32) :
    (field size value : Int) = value.toInt ↔ k.fits value = true := by
  constructor
  · intro h
    have hlt : (field size value : Int) < size := by
      have hpos : 0 < size := by cases k <;> simp [Kind.maxValue] at hs <;> omega
      exact_mod_cast field_lt size hpos value
    rw [Kind.fits, Bool.and_eq_true, decide_eq_true_iff, decide_eq_true_iff]
    omega
  · intro h
    exact field_of_fits h (by omega)

/-- The token was written as a string: a message or the name of an asset. -/
def Token.isQuoted (t : Token) : Bool := t.word.toList.head? = some '"'

namespace Reader

/-- The number that a word stands for as an operand. -/
inductive Denotes (r : Reader σ) (word : List Char) : Int → Prop
  | numeral {n} : WordForm.ofWord word = .numeral n → Denotes r word n
  | code {bytes} : WordForm.ofWord word = .code bytes → Denotes r word (packCode bytes)
  | asset {name s} {slot : Int32} : WordForm.ofWord word = .asset name →
      (r.host.asset (String.ofList name) s).1 = some slot → Denotes r word slot.toInt
  | message {text s} : WordForm.ofWord word = .message text →
      Denotes r word (r.host.message (String.ofList text) s).1.toInt
  | symbol {e : Symbol} : WordForm.ofWord word = .name →
      r.symbols.get? (String.ofList word) = some e → Denotes r word e.value.toInt

variable (r : Reader σ) (line : LineNumber) (s : σ)

/-- A small number as a value. -/
theorem fits_ofNat {n : Nat} (h : n ≤ Token.maxValue) :
    (Int32.ofNat n).toInt = n ∧ Kind.constant.fits (Int32.ofNat n) = true := by
  have hn : n ≤ 0x7FFFFF := h
  have hi : (Int32.ofNat n).toInt = n := Int32.toInt_ofNat_of_lt (by omega)
  refine ⟨hi, ?_⟩
  rw [Kind.fits, hi, Kind.maxValue, Bool.and_eq_true, decide_eq_true_iff, decide_eq_true_iff]
  omega

theorem denotes_lookUp {chars : List Char} (hw : WordForm.ofWord chars = .name)
    (ho : (r.lookUp (String.ofList chars) line).1.isOperand = true) :
    r.Denotes chars (r.lookUp (String.ofList chars) line).1.value.toInt ∧
      Kind.constant.fits (r.lookUp (String.ofList chars) line).1.value = true := by
  unfold lookUp at ho ⊢
  split at ho
  · cases ho
  · rename_i i hi
    split at ho
    · cases ho
    · rename_i e he
      split at ho
      · rename_i hf
        rw [if_pos hf]
        refine ⟨.symbol hw (by simp [SymbolTable.get?, hi, he]), ?_⟩
        -- only constants and variables are operands, and both have a payload
        cases hk : e.kind with
        | var | constant => rwa [hk] at hf
        | function | operator => simp [Token.isOperand, Token.isConstant, Token.isVariable, hk] at ho
      · cases ho

/-- An operand that is read without an error has the value that its word stands
for. Unless it is a string, a payload can hold it. -/
theorem denotes_classify {chars : List Char} (hi : (r.classify line s chars).issues = [])
    (ho : (r.classify line s chars).token.isOperand = true) :
    r.Denotes chars (r.classify line s chars).token.value.toInt ∧
      (chars.head? ≠ some '"' → Kind.constant.fits (r.classify line s chars).token.value = true) := by
  unfold classify at hi ho ⊢
  cases hw : WordForm.ofWord chars with
  | numeral n =>
    simp only [hw, ite_eq_right_iff, List.cons_ne_nil, imp_false, Nat.not_lt] at hi ⊢
    obtain ⟨hv, hf⟩ := fits_ofNat hi
    rw [Nat.min_eq_left hi]
    refine ⟨?_, fun _ => hf⟩
    simp only [Token.constant, hv]
    exact .numeral hw
  | code bytes =>
    have hlt : packCode bytes ≤ Token.maxValue := by
      rcases WordForm.of_ofWord_eq hw with ⟨_, he⟩ | ⟨a, b, c, d, he⟩ | he | he | ⟨rest, _, he⟩
      · cases he
      · cases he
        have := packCode_lt a b c d
        have hm : Token.maxValue = 0x7FFFFF := rfl
        omega
      · cases he
      · cases he
      · unfold WordForm.ofQuoted at he
        split at he <;> cases he
    obtain ⟨hv, hf⟩ := fits_ofNat hlt
    refine ⟨?_, fun _ => hf⟩
    simp only [Token.constant, hv]
    exact .code hw
  | assign =>
    simp only [hw] at ho
    cases ho
  | asset name =>
    simp only [hw] at hi ho ⊢
    refine ⟨?_, fun hq => absurd (WordForm.head_of_quoted (.inl ⟨_, hw⟩)) hq⟩
    split at hi
    · rename_i slot s' hs
      exact .asset (s := s) hw (congrArg Prod.fst hs)
    · cases hi
  | message text =>
    refine ⟨?_, fun hq => absurd (WordForm.head_of_quoted (.inr ⟨_, hw⟩)) hq⟩
    exact .message hw
  | name =>
    simp only [hw] at ho ⊢
    obtain ⟨hd, hf⟩ := r.denotes_lookUp line hw ho
    exact ⟨hd, fun _ => hf⟩

theorem denotes_read {l : Lexeme} (hi : (r.read line s l).issues = [])
    (ho : (r.read line s l).token.isOperand = true) :
    r.Denotes (r.read line s l).token.word.toList (r.read line s l).token.value.toInt ∧
      ((r.read line s l).token.isQuoted = false →
        Kind.constant.fits (r.read line s l).token.value = true) := by
  have hissues : (r.classify line s (l.text.take r.maxWord)).issues = [] := by
    simp only [read, List.map_eq_nil_iff, List.append_eq_nil_iff] at hi
    exact hi.2.2
  have hword := (r.meaning_read line s l).word_eq
  rw [Token.isQuoted, hword, String.toList_ofList, decide_eq_false_iff_not]
  exact r.denotes_classify line s hissues ho

/-- The payload of a word is what a term stands for, cut to the size of the
field. It is all of it exactly if the term is no string, or its value fits. -/
def Keeps (r : Reader σ) (term : Int32 × Token) (w : Word) : Prop :=
  r.Denotes term.2.word.toList term.2.value.toInt ∧
    (w.payload : Int) = term.2.value.toInt % 0x800000 ∧
    ((w.payload : Int) = term.2.value.toInt ↔
      (term.2.isQuoted = true → Kind.constant.fits term.2.value = true))

end Reader

/-- The head of a statement has the kind and the value that the table has under
a name, and the value is one that fits. -/
def Statement.Calls (t : SymbolTable) (word : String) (s : Statement) : Prop :=
  ∃ e, t.get? word = some e ∧ e.kind = (if s.isFunction then .function else .var) ∧
    (s.head.opcode : Int) = e.value.toInt ∧ e.kind.fits e.value = true

/-- A head made from the value of the end has that value exactly if it fits. -/
theorem Statement.calls_end_iff {t : SymbolTable} {e : Symbol} (he : t.end? = some e)
    {s : Statement} {indent : Nat} (hs : s.head = .head true indent e.value) :
    s.Calls t SymbolTable.endName ↔ Kind.function.fits e.value = true := by
  obtain ⟨hget, hkind⟩ := SymbolTable.get_of_end he
  constructor
  · rintro ⟨e', he', _, _, hfit⟩
    rw [hget] at he'
    cases he'
    rwa [hkind] at hfit
  · intro hfit
    refine ⟨e, hget, ?_, ?_, ?_⟩
    · rw [hkind, Statement.isFunction, hs, Word.flag_head, if_pos rfl]
    · rw [hs, Word.opcode_head]
      exact (Word.field_eq_iff (k := .function) rfl e.value).2 hfit
    · rwa [hkind]

/-- Statements have the operands of the blocks that they carry. -/
theorem flatMap_operands_of_carries {bs : List Block} {ss : List Statement}
    (h : List.Forall₂ Statement.Carries bs ss) :
    ss.flatMap Statement.operands = bs.flatMap Block.operands := by
  induction h with
  | nil => rfl
  | cons hb _ ih => rw [List.flatMap_cons, List.flatMap_cons, hb.2.1, ih]

/-- What carries a last block is the last statement. -/
theorem exists_of_carries_concat {bs : List Block} {b : Block} {ss : List Statement}
    (h : List.Forall₂ Statement.Carries (bs ++ [b]) ss) :
    ∃ body last, ss = body ++ [last] ∧ List.Forall₂ Statement.Carries bs body ∧ last.Carries b := by
  induction bs generalizing ss with
  | nil =>
    cases h with
    | cons hb hnil =>
      cases hnil
      exact ⟨[], _, rfl, .nil, hb⟩
  | cons a bs ih =>
    cases h with
    | cons ha h =>
      obtain ⟨body, last, rfl, hbody, hlast⟩ := ih h
      exact ⟨_ :: body, last, rfl, .cons ha hbody, hlast⟩

namespace Compiler

variable (c : Compiler σ) {state : σ} {name : String} {source : List Char}

/-- The symbol behind a token that is read. -/
theorem get_of_mem_tokens {l : LineReading σ} (hl : l ∈ c.readSource state source) {t : Token}
    (ht : t ∈ l.tokens) {k : Kind} (hk : t.kind = some k) (hc : k ≠ .constant)
    (ha : t.isAssign = false) :
    ∃ e, c.symbols.get? t.word = some e ∧ e.kind = k ∧ e.value = t.value ∧ k.fits t.value = true := by
  obtain ⟨n, s, word, rfl, _⟩ := c.exists_of_mem_tokens hl ht
  exact (c.reader.meaning_read n s word).get_of_symbol hk hc ha

/-- The statement that a line is encoded as calls the first word of the line. -/
theorem calls_of_encodes {l : LineReading σ} (hl : l ∈ c.readSource state source) {s : Statement}
    (h : l.Encodes s) : ∃ t, l.tokens.head? = some t ∧ s.Calls c.symbols t.word := by
  rcases h.form with ⟨f, hf, hfun, hs, hop, _⟩ | ⟨a, ha, hs, hop, _⟩
  · have hk := Token.kind_of_isFunction hfun
    obtain ⟨e, he, hek, hv, hfit⟩ := c.get_of_mem_tokens hl (List.mem_of_mem_head? hf) hk (by decide)
      (Token.isAssign_eq_false hk (by decide))
    refine ⟨f, hf, e, he, ?_, ?_, ?_⟩
    · rw [hek, hs, if_pos rfl]
    · rw [hop, hv]
    · rw [hek, hv, hfit]
  · have hk := Token.kind_of_isVariable a.isVariable_target
    have hhead : l.tokens.head? = some a.target := by
      rw [ha]
      rfl
    obtain ⟨e, he, hek, hv, hfit⟩ := c.get_of_mem_tokens hl (List.mem_of_mem_head? hhead) hk
      (by decide) (Token.isAssign_eq_false hk (by decide))
    refine ⟨a.target, hhead, e, he, ?_, ?_, ?_⟩
    · rw [hek, hs, if_neg Bool.false_ne_true]
    · rw [hop, hv]
    · rw [hek, hv, hfit]

/-- A line that ends the script names the end, so its value was checked. -/
theorem fits_of_endsScript {l : LineReading σ} (hl : l ∈ c.readSource state source)
    (h : l.endsScript = true) {e : Symbol} (he : c.symbols.end? = some e) :
    Kind.function.fits e.value = true := by
  obtain ⟨_, hany⟩ := Bool.and_eq_true_iff.1 h
  obtain ⟨t, ht, hfun⟩ := (Option.any_eq_true _ _).1 hany
  obtain ⟨hfun, hword⟩ := Bool.and_eq_true_iff.1 hfun
  have hk := Token.kind_of_isFunction hfun
  obtain ⟨e', he', _, hv, hfit⟩ := c.get_of_mem_tokens hl (List.mem_of_mem_head? ht) hk (by decide)
    (Token.isAssign_eq_false hk (by decide))
  rw [beq_iff_eq.1 hword, (SymbolTable.get_of_end he).1] at he'
  cases he'
  rw [hv, hfit]

section

variable (ok : (c.compile state name source).log.hadError = false)
  (hsize : (c.compile state name source).script.size < 0x100000000)
include ok hsize

/-- The statements of an accepted source carry its blocks. -/
theorem forall₂_carries_compile :
    List.Forall₂ Statement.Carries (c.blocks state source)
      (c.compile state name source).script.statements := by
  obtain ⟨_, _, _, hroom⟩ := (c.hadError_compile_iff state name source).1 ok
  rw [statements_compile_of_count (fun b hb => count_lt_of_size hsize hb)
    (Nat.le_of_lt (Nat.lt_trans hsize (by decide)))]
  exact forall₂_carries_resolve (layOut_of_le hroom) _

/-- **Operands of accepted sources.** Every operand keeps the number that its
word stands for, but for strings whose number is too large for a payload or
negative. -/
theorem compile_keeps_operands :
    List.Forall₂ c.reader.Keeps (c.terms state source)
      ((c.compile state name source).script.statements.flatMap Statement.operands) := by
  obtain ⟨hsource, hlines, _, _⟩ := (c.hadError_compile_iff state name source).1 ok
  rw [flatMap_operands_of_carries (c.forall₂_carries_compile ok hsize), flatMap_operands_blocks,
    List.forall₂_map_right_iff, List.forall₂_same]
  rintro ⟨operator, t⟩ hx
  obtain ⟨l, hl, ht, ho⟩ := c.exists_of_mem_terms state source hx
  have hread : l ∈ c.readSource state source := by
    rwa [lineReadings, kept, if_pos hsource] at hl
  obtain ⟨n, s, word, rfl, hmem⟩ := c.exists_of_mem_tokens hread ht
  have hissues : (c.reader.read n s word).issues = [] := by
    cases he : l.line.isEmpty with
    | true =>
      rw [(c.genuine_of_mem hread).readings_eq_nil he] at hmem
      cases hmem
    | false => exact ((hlines l hl).2 he).readable _ hmem
  obtain ⟨hd, hfit⟩ := c.reader.denotes_read n s hissues ho
  refine ⟨hd, ?_, ?_⟩
  · rw [Word.ofTerm, Word.payload_operand, Word.field]
    omega
  · rw [Word.ofTerm, Word.payload_operand, Word.field_eq_iff (k := .constant) rfl]
    constructor
    · exact fun h _ => h
    · intro h
      cases hq : (c.reader.read n s word).token.isQuoted with
      | true => exact h hq
      | false => exact hfit hq

end

/-- A compiler for two variables, one operator and the end, with one asset in a
slot. -/
def oneAsset (slot : Int32) : Compiler MessageTable where
  symbols := .ofList [⟨"x", .var, 2⟩, ⟨"y", .var, 3⟩, ⟨"+", .operator, 1⟩, ⟨"End", .function, 9⟩]
  host := .ofTables ⟨[("big", slot)]⟩

/-- A numeral, a code, a variable, a message and an asset beyond the last slot
that a payload can hold. -/
theorem compile_keeps_operands_oneAsset :
    let source := "x = 12 + [CHRS] + y + \"Hi\" + \"#big\"\nEnd".toList
    let out := (oneAsset 0x800001).compile {} "test" source
    out.log.hadError = false ∧ out.script.size < 0x100000000 ∧
      ((oneAsset 0x800001).terms {} source).length = 5 ∧
      List.Forall₂ (oneAsset 0x800001).reader.Keeps ((oneAsset 0x800001).terms {} source)
        (out.script.statements.flatMap Statement.operands) := by
  intro source out
  have ok : out.log.hadError = false := by decide +kernel
  have hsize : out.script.size < 0x100000000 := by decide +kernel
  have five : ((oneAsset 0x800001).terms {} source).length = 5 := by decide +kernel
  exact ⟨ok, hsize, five, compile_keeps_operands (oneAsset 0x800001) ok hsize⟩

/-- The slot behind the last that fits is encoded as the first one, and nothing
is reported. -/
theorem payload_of_large_slot :
    let source := "x = \"#big\"\nEnd".toList
    let out := (oneAsset 0x800000).compile {} "test" source
    out.log.toList = [] ∧
      ((oneAsset 0x800000).terms {} source).map (fun x => x.2.value.toInt) = [0x800000] ∧
      (out.script.statements.flatMap Statement.operands).map Word.payload = [0] := by
  decide +kernel

section

variable (ok : (c.compile state name source).log.hadError = false)
  (hsize : (c.compile state name source).script.size < 0x100000000)
include ok hsize

/-- **Heads of accepted sources.** Every line with text gives a head with the
exact value of the symbol that it starts with. The head that ends the script has
the value of the end exactly if that value fits, as it does if a line names it. -/
theorem compile_keeps_opcodes :
    ∃ e body last, c.symbols.end? = some e ∧
      (c.compile state name source).script.statements = body ++ [last] ∧
      List.Forall₂ (fun l s => ∃ t, l.tokens.head? = some t ∧ s.Calls c.symbols t.word)
        ((c.readSource state source).filter LineReading.isStatement) body ∧
      (last.head.opcode : Int) = e.value.toInt % 0x8000000 ∧
      ((last.head.opcode : Int) = e.value.toInt ↔ Kind.function.fits e.value = true) ∧
      (last.Calls c.symbols SymbolTable.endName ↔ Kind.function.fits e.value = true) ∧
      ((c.readSource state source).any LineReading.endsScript = true →
        Kind.function.fits e.value = true) := by
  obtain ⟨hsource, hlines, hend, hroom⟩ := (c.hadError_compile_iff state name source).1 ok
  obtain ⟨e, he⟩ := Option.isSome_iff_exists.1 hend
  have hls : c.lineReadings state source = c.readSource state source := by
    rw [lineReadings, kept, if_pos hsource]
  have hcarry := c.forall₂_carries_compile ok hsize
  have hcount (b : Block) (hb : b ∈ c.blocks state source) : b.operands.length < 0x100000000 := by
    have hle := length_operands_le_totalSize hb
    have hsz := c.size_compile_eq state name source
    omega
  rw [hls] at hlines
  rw [blocks, hls, he] at hcarry hcount
  obtain ⟨body, last, hss, hbody, hhead, _, _⟩ := exists_of_carries_concat hcarry
  have hencodes := forall₂_encodes (fun l hl => c.genuine_of_mem hl) hlines hbody
    fun b hb => hcount b (List.mem_append_left _ hb)
  have hop : last.head.opcode = Word.field 0x8000000 e.value := by rw [hhead, Word.opcode_head]
  refine ⟨e, body, last, he, hss, ?_, ?_, ?_, Statement.calls_end_iff he hhead, ?_⟩
  · have hmem : ∀ l ∈ (c.readSource state source).filter LineReading.isStatement,
        l ∈ c.readSource state source := fun l hl => List.mem_of_mem_filter hl
    refine ((List.forall₂_and_left _ _).2 ⟨hmem, hencodes⟩).imp ?_
    rintro l s ⟨hl, henc⟩
    exact c.calls_of_encodes hl henc
  · rw [hop, Word.field]
    omega
  · rw [hop, Word.field_eq_iff (k := .function) rfl]
  · intro hany
    obtain ⟨l, hl, hends⟩ := List.any_eq_true.1 hany
    exact c.fits_of_endsScript hl hends he

end

/-- A compiler for two functions and a variable, with any value for the end. -/
def endingAt (value : Int32) : Compiler Unit where
  symbols := .ofList [⟨"Wake", .function, 7⟩, ⟨"x", .var, 2⟩, ⟨"End", .function, value⟩]
  host := ⟨fun _ s => (none, s), fun _ s => (0, s)⟩

/-- The largest value of an end, with a line that names it. -/
theorem compile_keeps_opcodes_endingAt :
    let source := "Wake\n  x = 1\nEnd".toList
    let c := endingAt 0x07FFFFFF
    let out := c.compile () "test" source
    out.log.hadError = false ∧ out.script.size < 0x100000000 ∧
      (c.readSource () source).any LineReading.endsScript = true ∧
      ∃ e body last, c.symbols.end? = some e ∧ out.script.statements = body ++ [last] ∧
        List.Forall₂ (fun l s => ∃ t, l.tokens.head? = some t ∧ s.Calls c.symbols t.word)
          ((c.readSource () source).filter LineReading.isStatement) body ∧
        last.Calls c.symbols SymbolTable.endName := by
  intro source c out
  have ok : out.log.hadError = false := by decide +kernel
  have hsize : out.script.size < 0x100000000 := by decide +kernel
  have named : (c.readSource () source).any LineReading.endsScript = true := by decide +kernel
  obtain ⟨e, body, last, he, hss, hbody, _, _, hcalls, hfit⟩ := compile_keeps_opcodes c ok hsize
  exact ⟨ok, hsize, named, e, body, last, he, hss, hbody, hcalls.2 (hfit named)⟩

/-- Without a line for the end, a value too large for it is cut: the script ends
with a call of another function, and no error is reported. -/
theorem opcode_of_large_end :
    let out := (endingAt 0x08000007).compile () "test" "Wake\n  x = 1".toList
    out.log.hadError = false ∧
      (endingAt 0x08000007).symbols.end?.map (fun e => e.value.toInt) = some 0x08000007 ∧
      out.script.statements.map (fun s => s.head.opcode) = [7, 2, 7] := by
  decide +kernel

end Compiler

end NpcScript
