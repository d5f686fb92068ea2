import NpcScript.Proofs.Translation
import NpcScript.Proofs.Vocabulary

/-! # Blocks that can be shown

A listing shows the fields of a word by names of the table. For a word that the
compiler writes there always is a name: a field holds the value of a symbol that
fits it, whatever was wrong with the line. From its fields a word is known. -/
namespace NpcScript

variable {σ : Type}

/-! ## Words from their fields -/

namespace Word

theorem field_ofNat {size v : Nat} (hv : v < size) (hs : size ≤ 0x80000000) :
    field size (Int32.ofNat v) = v := by
  have hint : (Int32.ofNat v).toInt = v := Int32.toInt_ofNat_of_lt (by omega)
  rw [field, hint, ← Int.natCast_emod, Int.toNat_natCast, Nat.mod_eq_of_lt hv]

theorem ext_toNat {v w : Word} (h : v.toNat = w.toNat) : v = w :=
  congrArg Word.mk (UInt32.toNat_inj.1 h)

/-- A head is known from its fields. -/
theorem head_decoded (w : Word) : head w.flag w.indent (Int32.ofNat w.opcode) = w := by
  have hlt := w.toNat_lt
  have hop : w.opcode < 0x8000000 := Nat.mod_lt _ (by decide)
  apply ext_toNat
  rw [toNat_head, field_ofNat hop (by decide), flag, indent, opcode, maxIndent]
  by_cases h : 0x80000000 ≤ w.toNat
  · rw [decide_eq_true h, Bool.toNat_true]
    omega
  · rw [decide_eq_false h, Bool.toNat_false]
    omega

/-- An operand is known from its fields. -/
theorem operand_decoded (w : Word) :
    operand w.flag (Int32.ofNat w.operator) (Int32.ofNat w.payload) = w := by
  have hlt := w.toNat_lt
  have hop : w.operator < 0x100 := Nat.mod_lt _ (by decide)
  have hpay : w.payload < 0x800000 := Nat.mod_lt _ (by decide)
  apply ext_toNat
  rw [toNat_operand, field_ofNat hop (by decide), field_ofNat hpay (by decide), flag, operator, payload]
  by_cases h : 0x80000000 ≤ w.toNat
  · rw [decide_eq_true h, Bool.toNat_true]
    omega
  · rw [decide_eq_false h, Bool.toNat_false]
    omega

end Word

/-! ## Names for fields -/

/-- The table has a name for a value, and the value can be encoded. -/
def SymbolTable.Shows (t : SymbolTable) (kind : Kind) (value : Nat) : Prop :=
  kind.fits (Int32.ofNat value) = true ∧ ∃ e ∈ t.entries, e.kind = kind ∧ e.value = Int32.ofNat value

/-- A value that fits its field is found in it again. -/
theorem Word.ofNat_field {k : Kind} {value : Int32} (h : k.fits value = true) {size : Nat}
    (hs : k.maxValue < size) : Int32.ofNat (field size value) = value := by
  have hfield := field_of_fits h hs
  have hlt := value.toInt_lt
  apply Int32.toInt_inj.1
  rw [Int32.toInt_ofNat_of_lt (by omega), hfield]

theorem SymbolTable.shows_field {t : SymbolTable} {e : Symbol} (he : e ∈ t.entries)
    (hf : e.kind.fits e.value = true) {size : Nat} (hs : e.kind.maxValue < size) :
    t.Shows e.kind (Word.field size e.value) := by
  have hvalue := Word.ofNat_field hf hs
  exact ⟨by rwa [hvalue], e, he, rfl, hvalue.symm⟩

structure Word.Shown (t : SymbolTable) (w : Word) : Prop where
  operator : t.Shows .operator w.operator
  register : w.flag = true → t.Shows .var w.payload

/-- All that a block has a name for is in the table. -/
structure Block.Shown (t : SymbolTable) (b : Block) : Prop where
  head : t.Shows (if b.head.flag then .function else .var) b.head.opcode
  operands : ∀ w ∈ b.operands, w.Shown t
  sound : b.Sound

/-- The block of a script's end. -/
def Block.ending (e : Symbol) : Block := { head := .head true 0 e.value }

/-- A token that is a name has its kind, its value and its word from a symbol. -/
def Token.Named (t : SymbolTable) (x : Token) : Prop :=
  ∀ k, x.kind = some k → k ≠ .constant → x.isAssign = false →
    ∃ e ∈ t.entries, e.kind = k ∧ e.value = x.value ∧ e.name = x.word ∧ k.fits x.value = true

theorem Reader.Meaning.named {r : Reader σ} {word : String} {line : LineNumber} {t : Token}
    {issues : List Diagnostic} (h : Meaning r word line t issues) : t.Named r.symbols := by
  intro k hk hc ha
  cases h with
  | unknown _ => cases hk
  | constant _ => cases hk; exact absurd rfl hc
  | assign => simp [Token.isAssign, Token.assign] at ha
  | symbol hi he hf =>
    cases hk
    obtain ⟨e, he', hname⟩ := SymbolTable.entry_of_indexOf hi
    rw [he] at he'
    cases he'
    exact ⟨_, List.mem_of_getElem? he, rfl, rfl, hname, hf⟩

theorem Token.Named.shows {t : SymbolTable} {x : Token} (h : x.Named t) {k : Kind} (hk : x.kind = some k)
    (hc : k ≠ .constant) (ha : x.isAssign = false) {size : Nat} (hs : k.maxValue < size) :
    t.Shows k (Word.field size x.value) := by
  obtain ⟨e, he, rfl, hv, _, hf⟩ := h k hk hc ha
  rw [← hv] at hf ⊢
  exact SymbolTable.shows_field he hf hs

/-- Of the functions, only the one that ends a script has its value. -/
theorem SymbolTable.Legible.name_eq_endName_iff {t : SymbolTable} (hl : t.Legible) {e d : Symbol}
    (he : t.end? = some e) (hd : d ∈ t.entries) (hk : d.kind = .function) :
    d.name = endName ↔ d.value = e.value := by
  constructor
  · intro hname
    have hget := mem_entries_iff.1 hd
    rw [end?, ← hname, hget, Option.filter_some, decide_eq_true hk, if_pos rfl] at he
    cases he
    rfl
  · intro hv
    obtain ⟨e', he', _, hunique⟩ := hl.ends
    rw [he] at he'
    cases he'
    rw [hunique d hd hk hv]
    exact name_of_end he

theorem SymbolTable.Legible.fits_end {t : SymbolTable} (hl : t.Legible) {e : Symbol}
    (he : t.end? = some e) : e.kind = .function ∧ e.kind.fits e.value = true ∧ e ∈ t.entries := by
  obtain ⟨_, _, hentry, hk⟩ := end_iff.1 he
  obtain ⟨e', he', hf, _⟩ := hl.ends
  rw [he] at he'
  cases he'
  exact ⟨hk, hf, List.mem_of_getElem? hentry⟩

/-! ## The blocks of a source -/

theorem RightSide.shown_of_mem_words {t : SymbolTable} {ts : List Token} (h : ∀ x ∈ ts, x.Named t) {m : RightSide}
    (hm : t.Shows .operator (Word.field 0x100 m.operator)) {w : Word} (hw : w ∈ m.words ts) :
    w.Shown t := by
  induction ts generalizing m with
  | nil => cases hw
  | cons x ts ih =>
    obtain ⟨hx, hts⟩ := List.forall_mem_cons.1 h
    rw [words, List.mem_append] at hw
    rcases hw with hw | hw
    · unfold operand? at hw
      split at hw
      · rw [Option.toList_some, List.mem_singleton] at hw
        subst hw
        refine ⟨by rwa [Word.operator_operand], fun hflag => ?_⟩
        rw [Word.flag_operand] at hflag
        rw [Word.payload_operand]
        have hk := Token.kind_of_isVariable hflag
        exact hx.shows hk (by decide) (Token.isAssign_eq_false hk (by decide)) (by decide)
      · cases hw
    · refine ih hts ?_ hw
      by_cases ho : x.isOperator = true
      · obtain ⟨hk, ha⟩ := Token.kind_of_isOperator ho
        rw [next_of_isOperator ho]
        exact hx.shows hk (by decide) ha (by decide)
      · -- nothing but an operator changes the operator
        have hsame : (m.next x).operator = m.operator := by
          rw [next]
          split
          · rfl
          · split <;> rfl
        rwa [hsame]

section

variable {t : SymbolTable} (hl : t.Legible)
include hl

theorem SymbolTable.Legible.shows_neutral : t.Shows .operator (Word.field 0x100 Word.neutral) := by
  obtain ⟨name, hname⟩ := Option.isSome_iff_exists.1 hl.neutral
  obtain ⟨e, he, hkey, _⟩ := mem_of_nameOf? hname
  exact ⟨by decide, e, he, Symbol.key_eq_iff.1 hkey⟩

/-- A line that starts with a function ends the script exactly if its call would
be the end. -/
theorem LineReading.endsScript_iff {l : LineReading σ} {x : Reading σ} {xs : List (Reading σ)}
    (hx : l.readings = x :: xs) (hk : x.token.kind = some .function) (hn : x.token.Named t)
    {e : Symbol} (he : t.end? = some e) :
    l.endsScript = true ↔ Block.call x.token l.indent = .ending e := by
  obtain ⟨d, hd, hdk, hdv, hname, hf⟩ := hn .function hk (by decide) (Token.isAssign_eq_false hk (by decide))
  obtain ⟨hek, hef, _⟩ := hl.fits_end he
  have hfunction : x.token.isFunction = true := decide_eq_true hk
  rw [endsScript_of_cons hx, hfunction, Bool.true_and, Bool.and_eq_true, beq_iff_eq, beq_iff_eq,
    ← hname, hl.name_eq_endName_iff he hd hdk, hdv, Block.call, Block.ending]
  constructor
  · rintro ⟨hi, hv⟩
    rw [hi, hv]
  · intro hcall
    have hindent := congrArg (fun b => b.head.indent) hcall
    have hopcode := congrArg (fun b => Int32.ofNat b.head.opcode) hcall
    simp only [Word.indent_head, Word.opcode_head, Word.maxIndent] at hindent hopcode
    rw [hek] at hef
    rw [Word.ofNat_field hf (by decide), Word.ofNat_field hef (by decide)] at hopcode
    exact ⟨by omega, hopcode⟩

/-- The code of a line can be shown, and is not the end. -/
theorem LineReading.shown_of_mem_blocks {l : LineReading σ} (h : ∀ x ∈ l.tokens, x.Named t) {b : Block}
    (hb : b ∈ l.blocks) {e : Symbol} (he : t.end? = some e) :
    b.Shown t ∧ b ≠ .ending e := by
  have hsound := sound_of_mem_blocks hb
  cases hr : l.readings with
  | nil =>
    rw [blocks_of_nil hr] at hb
    cases hb
  | cons x xs =>
    rw [tokens, hr, List.map_cons, List.forall_mem_cons] at h
    obtain ⟨hx, hxs⟩ := h
    by_cases hfun : x.token.kind = some .function
    · rw [blocks_of_function hr hfun] at hb
      split at hb
      · cases hb
      · rename_i hends
        rw [List.mem_singleton] at hb
        subst hb
        refine ⟨⟨?_, List.forall_mem_nil _, hsound⟩, (endsScript_iff hl hr hfun hx he).not.1 hends⟩
        rw [Block.call, Word.flag_head, Word.opcode_head, if_pos rfl]
        exact hx.shows hfun (by decide) (Token.isAssign_eq_false hfun (by decide)) (by decide)
    · by_cases hvar : x.token.kind = some .var
      · rw [blocks_of_var hr hvar, List.mem_singleton] at hb
        subst hb
        refine ⟨⟨?_, ?_, hsound⟩, fun hend => ?_⟩
        · rw [Block.assignment, Word.flag_head, Word.opcode_head, if_neg Bool.false_ne_true]
          exact hx.shows hvar (by decide) (Token.isAssign_eq_false hvar (by decide)) (by decide)
        · intro w hw
          have hright : ∀ y ∈ rightTokens (xs.map Reading.token), y.Named t :=
            fun y hy => hxs y ((sublist_rightTokens _).mem hy)
          exact RightSide.shown_of_mem_words (m := {}) hright hl.shows_neutral hw
        · have hflag := congrArg (fun b => b.head.flag) hend
          simp [Block.assignment, Block.ending] at hflag
      · rw [blocks_of_other hr hfun hvar] at hb
        cases hb

end

/-- **Every block of a source can be shown**: those of its lines, none of which
is the end, and the end. -/
theorem Compiler.exists_shown_blocks (c : Compiler σ) (hl : c.symbols.Legible) {e : Symbol}
    (he : c.symbols.end? = some e) (state : σ) (source : List Char) :
    ∃ bs, c.blocks state source = bs ++ [.ending e] ∧
      (∀ b ∈ bs, b.Shown c.symbols ∧ b ≠ .ending e) ∧ (Block.ending e).Shown c.symbols := by
  refine ⟨(c.lineReadings state source).flatMap LineReading.blocks, ?_, ?_, ?_⟩
  · rw [blocks, he]
    rfl
  · intro b hb
    obtain ⟨l, hm, hb⟩ := List.mem_flatMap.1 hb
    refine LineReading.shown_of_mem_blocks hl ?_ hb he
    intro t ht
    obtain ⟨n, s, body, rfl⟩ := c.exists_of_mem_readLines hm
    obtain ⟨x, hx, rfl⟩ := List.mem_map.1 ht
    obtain ⟨s', l, rfl⟩ := c.reader.exists_of_mem_readLine n hx
    exact (c.reader.meaning_read n s' l).named
  · obtain ⟨hk, hf, hmem⟩ := hl.fits_end he
    refine ⟨?_, List.forall_mem_nil _, fun _ => rfl⟩
    rw [Block.ending, Word.flag_head, Word.opcode_head, if_pos rfl, ← hk]
    exact SymbolTable.shows_field hmem hf (by rw [hk]; decide)

end NpcScript
