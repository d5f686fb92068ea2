import Mathlib.Data.List.Induction
import Mathlib.Data.Nat.Digits.Defs
import NpcScript.Proofs.Concatenation
import NpcScript.Proofs.FieldRanges
import NpcScript.Proofs.LoadedText

/-! # Numbers in decimal

Digits denote a number of any size, but a payload has 23 bits. The reader takes
a number that fits as it is, and for any other one the largest that fits, with
an error. So where a line has no error, the operand that is stored is the number
that is written, with nothing above the payload. -/
namespace NpcScript

variable {σ : Type}

/-- The number that digits denote; the last of them counts ones. -/
def decimal (word : List Char) : Nat :=
  Nat.ofDigits 10 (word.reverse.map fun c => c.toNat - '0'.toNat)

theorem decimal_concat (word : List Char) (c : Char) :
    decimal (word ++ [c]) = decimal word * 10 + (c.toNat - '0'.toNat) := by
  rw [decimal, List.reverse_concat, List.map_cons, Nat.ofDigits_cons, Nat.add_comm, Nat.mul_comm]
  rfl

/-- Nothing is cut off a word that is not too long. -/
theorem Reader.read_of_length_le (r : Reader σ) (line : LineNumber) (s : σ) {word : List Char}
    (hlen : word.length ≤ r.maxWord) :
    r.read line s ⟨word, false⟩ = { r.classify line s word with
      issues := (r.classify line s word).issues.map (·.inLine line) } := by
  rw [read, List.take_of_length_le hlen, if_neg (by simp), if_neg (by simpa using hlen)]
  rfl

section

variable {word : List Char} (hne : word ≠ []) (hdigits : ∀ x ∈ word, x.isDigit = true)
include hne hdigits

/-- Digits are read from the first on, and each one moves those before it up. -/
theorem WordForm.ofWord_of_digits : ofWord word = .numeral (decimal word) := by
  have hvalue (cs : List Char) : cs.foldl (fun n c => n * 10 + (c.toNat - '0'.toNat)) 0 = decimal cs := by
    induction cs using List.reverseRecOn with
    | nil => rfl
    | append_singleton cs c ih => rw [List.foldl_concat, ih, decimal_concat]
  have hall : (!word.isEmpty && word.all Char.isDigit) = true := by
    rw [Bool.and_eq_true, Bool.not_eq_true', List.isEmpty_eq_false_iff, List.all_eq_true]
    exact ⟨hne, hdigits⟩
  unfold ofWord
  rw [if_pos hall, hvalue]

namespace Reader

variable (r : Reader σ) (line : LineNumber) (s : σ)

/-- The largest number that fits stands for all beyond it, and these are
reported. -/
theorem classify_of_digits :
    ∃ value : Int32, value.toInt = (min (decimal word) 8388607 : Nat) ∧
      r.classify line s word = ⟨.constant (String.ofList word) value line,
        if 8388607 < decimal word then [.constantOverflow (String.ofList word)] else [], s⟩ := by
  refine ⟨Int32.ofNat (min (decimal word) Token.maxValue), (fits_ofNat (Nat.min_le_right ..)).1, ?_⟩
  rw [classify, WordForm.ofWord_of_digits hne hdigits]
  rfl

/-- A word of digits that is read without an error has the value that it
denotes. -/
theorem value_of_digits {l : Lexeme} (hi : (r.read line s l).issues = [])
    (hw : (r.read line s l).token.word = String.ofList word) :
    (r.read line s l).token.isVariable = false ∧ (r.read line s l).token.value.toInt = decimal word ∧
      decimal word ≤ 8388607 := by
  have hword : l.text.take r.maxWord = word := by
    rw [(r.meaning_read line s l).word_eq] at hw
    exact String.ofList_injective hw
  obtain ⟨value, hvalue, hc⟩ := r.classify_of_digits hne hdigits line s
  have htoken : (r.read line s l).token = (r.classify line s word).token := by rw [read, hword]
  have hissues : (r.classify line s word).issues = [] := by
    rw [read, hword, List.map_eq_nil_iff, List.append_eq_nil_iff, List.append_eq_nil_iff] at hi
    exact hi.2.2
  have hle : decimal word ≤ 8388607 := by
    rw [hc] at hissues
    by_contra hlt
    rw [if_pos (by omega)] at hissues
    cases hissues
  rw [htoken, hc]
  refine ⟨rfl, ?_, hle⟩
  rw [Nat.min_eq_left hle] at hvalue
  exact hvalue

end Reader

end

/-- A payload alone, under no operator. -/
theorem Word.toNat_operand_neutral {value : Int32} {n : Nat} (h : value.toInt = n) (hn : n ≤ 8388607) :
    (operand false neutral value).toNat = n := by
  have hneutral : field 0x100 neutral = 0 := by decide
  have hpayload : field 0x800000 value = n := by
    rw [field, h]
    omega
  rw [toNat_operand, hneutral, hpayload]
  simp

/-- No error was found in a line. -/
def Compiled.CleanLine (out : Compiled σ) (n : LineNumber) : Prop :=
  ∀ i ∈ out.log.toList, i.line = n → i.level ≠ .error

namespace Compiler

variable (c : Compiler σ) {state : σ} {name : String} {source : List Char}

/-- The address of the code of a line, counted from zero. -/
def lineAddr (state : σ) (source : List Char) (k : Nat) : Nat :=
  totalSize (((c.lineReadings state source).take k).flatMap LineReading.blocks)

section

variable {k : Nat} {l : LineReading σ} (hl : (c.lineReadings state source)[k]? = some l)
include hl

theorem lineReadings_eq_at :
    c.lineReadings state source =
      (c.lineReadings state source).take k ++ l :: (c.lineReadings state source).drop (k + 1) := by
  obtain ⟨hk, hget⟩ := List.getElem?_eq_some_iff.1 hl
  rw [← hget, ← List.drop_eq_getElem_cons hk, List.take_append_drop]

/-- The problems of a line stand in the log. -/
theorem mem_log_of_mem_issues (name : String) {i : Diagnostic}
    (hi : i ∈ l.issues c.limits.maxLine (c.limits.maxWords - c.lineAddr state source k)) :
    (i.inLine l.number).inScript name ∈ (c.compile state name source).log.toList := by
  have hnotes : (i.inLine l.number).inScript name ∈ c.notes state name source := by
    refine List.mem_append_right _ (List.mem_append_left _ ?_)
    rw [c.lineReadings_eq_at hl, LineReading.reports_append, LineReading.reports]
    exact List.mem_append_right _ (List.mem_append_left _ (List.mem_map_of_mem hi))
  rw [← (c.draft_spec state name source).2.2.1] at hnotes
  exact List.mem_of_mem_filter hnotes

/-- A line without an error is accepted. -/
theorem accepted_of_cleanLine (hclean : (c.compile state name source).CleanLine l.number) :
    l.Accepted c.limits.maxLine := by
  rw [← c.quiet_issues_of_mem (List.mem_of_getElem? hl) (c.limits.maxWords - c.lineAddr state source k)]
  intro i hi
  exact hclean ((i.inLine l.number).inScript name) (c.mem_log_of_mem_issues hl name hi) rfl

variable {a : Assignment} (ha : l.tokens = a.tokens)
include ha

/-- The operands of an assignment are those of the block at the address of its
line. -/
theorem blocks_of_assignment :
    ∃ pre b post, c.blocks state source = pre ++ b :: post ∧
      totalSize pre = c.lineAddr state source k ∧ b.operands = a.terms.map Word.ofTerm := by
  have hkind := Token.kind_of_isVariable a.isVariable_target
  have hblocks : l.blocks = [.assignment a.target l.indent a.tokens.tail] := by
    simp only [LineReading.blocks, ha, Assignment.tokens, hkind, List.tail_cons]
  refine ⟨((c.lineReadings state source).take k).flatMap LineReading.blocks,
    .assignment a.target l.indent a.tokens.tail,
    ((c.lineReadings state source).drop (k + 1)).flatMap LineReading.blocks ++
      c.symbols.end?.toList.map fun e => { head := .head true 0 e.value }, ?_, rfl, assignWords_tokens a⟩
  conv_lhs => rw [blocks, c.lineReadings_eq_at hl]
  rw [List.flatMap_append, List.flatMap_cons, hblocks, List.append_assoc]
  rfl

/-- The first operand of an assignment without an error, if it is written in
digits, is stored as the number that they denote. -/
theorem firstTerm_of_digits {word : List Char} (hne : word ≠ [])
    (hdigits : ∀ x ∈ word, x.isDigit = true) (hw : a.first.word = String.ofList word)
    (hclean : (c.compile state name source).CleanLine l.number) :
    (Word.ofTerm (Word.neutral, a.first)).toNat = decimal word := by
  have hread : l ∈ c.readSource state (c.kept source) := List.mem_of_getElem? hl
  have hfirst : a.first ∈ l.tokens := by
    rw [ha]
    exact List.mem_cons_of_mem _ (List.mem_cons_of_mem _ List.mem_cons_self)
  obtain ⟨n, s, x, hx, hmem⟩ := c.exists_of_mem_tokens hread hfirst
  have htext : l.line.isEmpty = false := by
    by_contra hempty
    rw [(c.genuine_of_mem hread).readings_eq_nil (Bool.eq_true_of_not_eq_false hempty)] at hmem
    cases hmem
  have hissues := ((c.accepted_of_cleanLine hl hclean).2 htext).readable _ hmem
  rw [hx] at hw ⊢
  obtain ⟨hvar, hvalue, hle⟩ := c.reader.value_of_digits hne hdigits n s hissues hw
  rw [Word.ofTerm, hvar]
  exact Word.toNat_operand_neutral hvalue hle

end

/-- **Numbers are exact or reported.** Digits are read as the number that they
denote, or as the largest that fits and with one error. So in an assignment
without an error the word for a first operand in digits is that number, once it
finds room. Jumps are written elsewhere as long as addresses have 32 bits. -/
theorem compile_numeral {word : List Char} (hne : word ≠ [])
    (hdigits : ∀ x ∈ word, x.isDigit = true) (hlen : word.length ≤ c.limits.maxWord) :
    (∀ line s, ∃ value : Int32, value.toInt = (min (decimal word) 8388607 : Nat) ∧
      c.reader.classify line s word = ⟨.constant (String.ofList word) value line,
        if 8388607 < decimal word then [.constantOverflow (String.ofList word)] else [], s⟩ ∧
      c.reader.read line s ⟨word, false⟩ = ⟨.constant (String.ofList word) value line,
        if 8388607 < decimal word then
          [(Diagnostic.constantOverflow (String.ofList word)).inLine line]
        else [], s⟩) ∧
    ∀ state name source k l (a : Assignment), (c.lineReadings state source)[k]? = some l →
      l.tokens = a.tokens → a.first.word = String.ofList word →
      (c.compile state name source).CleanLine l.number →
      c.lineAddr state source k + 2 < c.limits.maxWords →
      ((c.unlinked state name source).get? (c.lineAddr state source k + 2)).map Word.toNat =
          some (decimal word) ∧
        ((c.compile state name source).script.size < 0x100000000 →
          ((c.compile state name source).script.get? (c.lineAddr state source k + 2)).map Word.toNat =
            some (decimal word)) := by
  constructor
  · intro line s
    obtain ⟨value, hvalue, hc⟩ := c.reader.classify_of_digits hne hdigits line s
    refine ⟨value, hvalue, hc, ?_⟩
    rw [c.reader.read_of_length_le line s hlen, hc]
    split <;> rfl
  · intro state name source k l a hl ha hw hclean hroom
    obtain ⟨pre, b, post, hblocks, haddr, hoperands⟩ := c.blocks_of_assignment hl ha
    have hterm := c.firstTerm_of_digits hl ha hne hdigits hw hclean
    have hfirst : b.operands[0]? = some (Word.ofTerm (Word.neutral, a.first)) := by
      rw [hoperands]
      rfl
    have hpos : 0 < b.operands.length := (List.getElem?_eq_some_iff.1 hfirst).1
    rw [← haddr] at hroom ⊢
    constructor
    · have hword := getElem?_operand_layOut 0 pre post hpos hroom
      rw [← hblocks, ← words_unlinked state name source, Array.getElem?_toList, hfirst] at hword
      rw [Script.get?, hword, Option.map_some, hterm]
    · intro hsize
      have hword := getElem?_operand_place 0 pre post hpos (c.compile state name source).script.size
      rw [← hblocks, ← List.getElem?_take_of_lt hroom, ← words_compile hsize, Array.getElem?_toList,
        hfirst] at hword
      rw [Script.get?, hword, Option.map_some, hterm]

/-- A number with zeros in front, in a source with an error elsewhere, and one
that no machine word can hold. -/
theorem compile_numeral_tiny :
    let source := "y\nx = 0042 + x\nEnd".toList
    let out := (tiny 8).compile () "tiny" source
    (∀ x ∈ "0042".toList, x.isDigit = true) ∧ "0042".toList.length ≤ (tiny 8).limits.maxWord ∧
      out.log.hadError = true ∧ out.script.size < 0x100000000 ∧
      (∃ l, ((tiny 8).lineReadings () source)[1]? = some l ∧ out.CleanLine l.number ∧
        (tiny 8).lineAddr () source 1 = 0 ∧ (out.script.get? 2).map Word.toNat = some 42) ∧
      ∃ value : Int32, value.toInt = 8388607 ∧
        (tiny 8).reader.classify 5 () "99999999999999999999".toList =
          ⟨.constant "99999999999999999999" value 5, [.constantOverflow "99999999999999999999"], ()⟩ := by
  intro source out
  have hdigits : ∀ x ∈ "0042".toList, x.isDigit = true := List.all_eq_true.1 rfl
  have hlen : "0042".toList.length ≤ (tiny 8).limits.maxWord := by decide
  have herror : out.log.hadError = true := by decide +kernel
  have hsize : out.script.size < 0x100000000 := by decide +kernel
  have haddr : (tiny 8).lineAddr () source 1 = 0 := by decide +kernel
  let a : Assignment :=
    { target := ⟨some .var, 2, some 1, "x", 2⟩
      sign := .assign "=" 2
      first := .constant "0042" 42 2
      rest := [(⟨some .operator, 3, some 2, "+", 2⟩, ⟨some .var, 2, some 1, "x", 2⟩)]
      isVariable_target := by decide
      isAssign_sign := by decide
      isOperand_first := by decide
      paired_rest := by unfold Paired; decide }
  have hline : ((tiny 8).lineReadings () source)[1]?.map (fun l => (l.number, l.tokens)) =
      some (2, a.tokens) := by decide +kernel
  obtain ⟨l, hl, hat⟩ := Option.map_eq_some_iff.1 hline
  obtain ⟨hnumber, htokens⟩ := Prod.mk.inj hat
  have hclean : out.CleanLine l.number := by
    rw [hnumber]
    unfold Compiled.CleanLine
    decide +kernel
  have hvalue : decimal "0042".toList = 42 := by decide
  have hword := ((compile_numeral (tiny 8) (by decide) hdigits hlen).2 () "tiny" source 1 l a hl htokens
    rfl hclean (by rw [haddr]; decide)).2 hsize
  rw [haddr, hvalue] at hword
  have hlong : ∀ x ∈ "99999999999999999999".toList, x.isDigit = true := List.all_eq_true.1 rfl
  obtain ⟨value, hmax, hread, _⟩ := (compile_numeral (tiny 8) (by decide) hlong (by decide)).1 5 ()
  exact ⟨hdigits, hlen, herror, hsize, ⟨l, hl, hclean, haddr, hword⟩, value, hmax, hread⟩

end Compiler

end NpcScript
