import NpcScript.Token.Reader

/-! # What a word can mean

`Origin` says once all that classifying a word can give, with the reason: a
constant or `=` from its shape, a symbol of the table with a value that fits its
kind, or an unknown token, which is always reported. What else is known of tokens
follows from it. -/
namespace NpcScript
open NpcScript.Text

namespace SymbolTable

variable {t : SymbolTable} {name : String} {i : Nat}

/-- An index that was looked up leads to the symbol of that name, as the places of
names are in step with the entries. -/
theorem entry_of_indexOf (h : t.indexOf? name = some i) : ∃ s, t.entry? i = some s ∧ s.name = name := by
  rw [indexOf?_eq_findIdx?] at h
  obtain ⟨hi, hp, _⟩ := List.findIdx?_eq_some_iff_getElem.1 h
  exact ⟨t.entries[i], List.getElem?_eq_getElem hi, of_decide_eq_true hp⟩

theorem end_iff {s : Symbol} :
    t.end? = some s ↔ ∃ i, t.indexOf? endName = some i ∧ t.entry? i = some s ∧ s.kind = .function := by
  unfold end? get?
  cases hi : t.indexOf? endName with
  | none => simp
  | some i =>
    obtain ⟨e, he, _⟩ := entry_of_indexOf hi
    simp only [Option.bind_eq_bind, Option.bind_some, he, Option.filter_some, Option.some.injEq,
      exists_eq_left']
    constructor
    · intro h
      split at h
      · rename_i hk
        cases h
        exact ⟨rfl, of_decide_eq_true hk⟩
      · cases h
    · rintro ⟨rfl, hk⟩
      rw [if_pos (decide_eq_true hk)]

theorem name_of_end {s : Symbol} (h : t.end? = some s) : s.name = endName := by
  obtain ⟨i, hi, hs, _⟩ := end_iff.1 h
  obtain ⟨e, he, hn⟩ := entry_of_indexOf hi
  rw [hs] at he
  cases he
  exact hn

theorem get_of_end {s : Symbol} (h : t.end? = some s) : t.get? endName = some s ∧ s.kind = .function := by
  obtain ⟨hs, hk⟩ := Option.filter_eq_some_iff.1 h
  exact ⟨hs, of_decide_eq_true hk⟩

end SymbolTable

/-- A word that is known by its shape and not looked up: a numeral, four bytes in
brackets, `=`, or a string. -/
inductive SelfEvident (word : List Char) : Prop
  | numeral (some : word ≠ []) (digits : ∀ c ∈ word, c.isDigit = true)
  | code {a b c d : UInt8} (bytes : encode word = [0x5B, a, b, c, d, 0x5D])
  | assign (sign : word = ['='])
  | string (quote : word.head? = some '"')

namespace WordForm

theorem bracketed?_eq_some_iff {word : List Char} {bytes : List UInt8} :
    bracketed? word = some bytes ↔
      ∃ a b c d, bytes = [a, b, c, d] ∧ encode word = [0x5B, a, b, c, d, 0x5D] := by
  constructor
  · intro h
    unfold bracketed? at h
    split at h
    · rename_i l a b c d r he
      split at h
      · rename_i hlr
        obtain ⟨rfl, rfl⟩ : l = 0x5B ∧ r = 0x5D := by simpa using hlr
        exact ⟨a, b, c, d, (Option.some.inj h).symm, he⟩
      · cases h
    · cases h
  · rintro ⟨a, b, c, d, rfl, he⟩
    rw [bracketed?, he]
    rfl

/-- The forms of words. A code has four bytes, and a string starts with a quote. -/
theorem of_ofWord_eq {word : List Char} {form : WordForm} (h : ofWord word = form) :
    (∃ n, form = .numeral n) ∨ (∃ a b c d, form = .code [a, b, c, d]) ∨ form = .assign ∨
      form = .name ∨ ∃ rest, word = '"' :: rest ∧ form = ofQuoted (unquote rest) := by
  unfold ofWord at h
  split at h
  · exact .inl ⟨_, h.symm⟩
  · split at h
    · rename_i bytes hb
      obtain ⟨a, b, c, d, rfl, _⟩ := bracketed?_eq_some_iff.1 hb
      exact .inr (.inl ⟨a, b, c, d, h.symm⟩)
    · split at h
      · exact .inr (.inr (.inl h.symm))
      · exact .inr (.inr (.inr (.inr ⟨_, rfl, h.symm⟩)))
      · exact .inr (.inr (.inr (.inl h.symm)))

theorem head_of_quoted {word : List Char}
    (h : (∃ name, ofWord word = .asset name) ∨ ∃ text, ofWord word = .message text) :
    word.head? = some '"' := by
  rcases of_ofWord_eq (rfl : ofWord word = _) with ⟨n, he⟩ | ⟨a, b, c, d, he⟩ | he | he | ⟨rest, rfl, _⟩
  · simp [he] at h
  · simp [he] at h
  · simp [he] at h
  · simp [he] at h
  · rfl

/-- The characters of a message are among those of its word. -/
theorem mem_of_message {word text : List Char} (h : ofWord word = .message text) {x : Char}
    (hx : x ∈ text) : x ∈ word := by
  rcases of_ofWord_eq h with ⟨_, he⟩ | ⟨_, _, _, _, he⟩ | he | he | ⟨rest, rfl, he⟩
  · cases he
  · cases he
  · cases he
  · cases he
  · have htext : text = unquote rest := by
      unfold ofQuoted at he
      split at he
      · cases he
      · exact WordForm.message.inj he
    rw [htext, unquote] at hx
    split at hx
    · exact List.mem_cons_of_mem _ ((List.dropLast_sublist rest).mem hx)
    · exact List.mem_cons_of_mem _ hx

section

variable {word : List Char}

theorem ofQuoted_ne_name (text : List Char) : ofQuoted text ≠ .name := by
  unfold ofQuoted
  split <;> exact WordForm.noConfusion

/-- Names are the words that nothing else is. -/
theorem ofWord_eq_name_iff : ofWord word = .name ↔ ¬ SelfEvident word := by
  unfold ofWord
  split
  · rename_i hdigits
    simp only [Bool.and_eq_true, Bool.not_eq_true', List.isEmpty_eq_false_iff, List.all_eq_true] at hdigits
    exact iff_of_false WordForm.noConfusion (not_not_intro (.numeral hdigits.1 hdigits.2))
  · rename_i hdigits
    cases hb : bracketed? word with
    | some bytes =>
      obtain ⟨_, _, _, _, _, he⟩ := bracketed?_eq_some_iff.1 hb
      exact iff_of_false WordForm.noConfusion (not_not_intro (.code he))
    | none =>
      dsimp only
      split
      · exact iff_of_false WordForm.noConfusion (not_not_intro (.assign rfl))
      · exact iff_of_false (ofQuoted_ne_name _) (not_not_intro (.string rfl))
      · rename_i hassign hquote
        refine iff_of_true rfl fun h => ?_
        cases h with
        | numeral hne hall =>
          refine hdigits ?_
          simpa [List.isEmpty_eq_false_iff, hne] using hall
        | code he =>
          rw [bracketed?_eq_some_iff.2 ⟨_, _, _, _, rfl, he⟩] at hb
          cases hb
        | assign hs => exact hassign hs
        | string hq =>
          obtain ⟨rest, rfl⟩ := List.head?_eq_some_iff.1 hq
          exact hquote rest rfl

theorem ofWord_eq_assign_iff : ofWord word = .assign ↔ word = ['='] := by
  constructor
  · intro h
    unfold ofWord at h
    split at h
    · cases h
    · split at h
      · cases h
      · split at h
        · rfl
        · unfold ofQuoted at h
          split at h <;> cases h
        · cases h
  · rintro rfl
    rfl

end

end WordForm

/-- How a word comes to its token, and what is reported of it. -/
inductive Origin (t : SymbolTable) (word : List Char) (line : LineNumber) : Token → List Diagnostic → Prop
  | shape {value : Int32} {issues : List Diagnostic} (evident : SelfEvident word) (other : word ≠ ['='])
    (known : ∀ d ∈ issues, d.code = .constantOverflow ∨ d.code = .assetNotFound) :
    Origin t word line (.constant (String.ofList word) value line) issues
  | assign (sign : word = ['=']) : Origin t word line (.assign (String.ofList word) line) []
  | table {i : Nat} {e : Symbol} (name : ¬ SelfEvident word) (index : t.indexOf? (String.ofList word) = some i)
    (entry : t.entry? i = some e) (fits : e.kind.fits e.value = true) :
    Origin t word line ⟨some e.kind, e.value, some i, String.ofList word, line⟩ []
  | nowhere {d : Diagnostic} (name : ¬ SelfEvident word)
    (unresolved : d.code = .unknownOpcode ∨ d.code = .symbolOutOfRange) :
    Origin t word line (.unknown (String.ofList word) line) [d]

theorem Origin.code_of_mem {t : SymbolTable} {word : List Char} {line : LineNumber} {token : Token}
    {issues : List Diagnostic} (h : Origin t word line token issues) {d : Diagnostic} (hd : d ∈ issues) :
    d.code = .constantOverflow ∨ d.code = .assetNotFound ∨ d.code = .unknownOpcode ∨
      d.code = .symbolOutOfRange := by
  cases h with
  | shape _ _ known => exact (known d hd).imp_right .inl
  | assign _ | table _ _ _ _ => cases hd
  | nowhere _ unresolved =>
    rw [List.mem_singleton.1 hd]
    exact .inr (.inr unresolved)

namespace Reader

variable {σ : Type} (r : Reader σ) (line : LineNumber) (s : σ)

/-- The token of a word, with all that its kind tells. -/
inductive Meaning (r : Reader σ) (word : String) (line : LineNumber) : Token → List Diagnostic → Prop
  | unknown {issues} : issues ≠ [] → Meaning r word line (.unknown word line) issues
  | constant {issues} (value : Int32) : Meaning r word line (.constant word value line) issues
  | assign {issues} : Meaning r word line (.assign word line) issues
  | symbol {issues i} {e : Symbol} : r.symbols.indexOf? word = some i → r.symbols.entry? i = some e →
      e.kind.fits e.value = true →
      Meaning r word line ⟨some e.kind, e.value, some i, word, line⟩ issues

theorem Meaning.of_origin {r : Reader σ} {word : List Char} {line : LineNumber} {t : Token}
    {issues : List Diagnostic} (h : Origin r.symbols word line t issues) :
    Meaning r (String.ofList word) line t issues := by
  cases h with
  | shape _ _ _ => exact .constant _
  | assign _ => exact .assign
  | table _ index entry fits => exact .symbol index entry fits
  | nowhere _ _ => exact .unknown (List.cons_ne_nil _ _)

theorem origin_lookUp {word : List Char} (h : ¬ SelfEvident word) :
    Origin r.symbols word line (r.lookUp (String.ofList word) line).1 (r.lookUp (String.ofList word) line).2 := by
  unfold lookUp
  split
  · exact .nowhere h (.inl rfl)
  · rename_i i hi
    -- an index that was found has an entry, so the word does not get lost in silence
    obtain ⟨e, he, _⟩ := SymbolTable.entry_of_indexOf hi
    rw [he]
    dsimp only
    split
    · rename_i hf
      exact .table h hi he hf
    · exact .nowhere h (.inr rfl)

/-- What one word can come to. -/
theorem origin_classify (word : List Char) :
    Origin r.symbols word line (r.classify line s word).token (r.classify line s word).issues := by
  have hshape (hn : WordForm.ofWord word ≠ .name) (ha : WordForm.ofWord word ≠ .assign) :
      SelfEvident word ∧ word ≠ ['='] :=
    ⟨Classical.not_not.1 fun h => hn (WordForm.ofWord_eq_name_iff.2 h),
      fun h => ha (WordForm.ofWord_eq_assign_iff.2 h)⟩
  unfold classify
  cases hw : WordForm.ofWord word with
  | numeral n =>
    obtain ⟨he, ho⟩ := hshape (by simp [hw]) (by simp [hw])
    refine .shape he ho fun d hd => ?_
    rw [List.mem_ite_nil_right, List.mem_singleton] at hd
    rw [hd.2]
    exact .inl rfl
  | code bytes =>
    obtain ⟨he, ho⟩ := hshape (by simp [hw]) (by simp [hw])
    exact .shape he ho (List.forall_mem_nil _)
  | assign => exact .assign (WordForm.ofWord_eq_assign_iff.1 hw)
  | asset name =>
    obtain ⟨he, ho⟩ := hshape (by simp [hw]) (by simp [hw])
    dsimp only
    split
    · exact .shape he ho (List.forall_mem_nil _)
    · exact .shape he ho (List.forall_mem_singleton.2 (.inr rfl))
  | message text =>
    obtain ⟨he, ho⟩ := hshape (by simp [hw]) (by simp [hw])
    exact .shape he ho (List.forall_mem_nil _)
  | name => exact r.origin_lookUp line (WordForm.ofWord_eq_name_iff.1 hw)

theorem meaning_read (l : Lexeme) :
    Meaning r (String.ofList (l.text.take r.maxWord)) line (r.read line s l).token
      (r.read line s l).issues := by
  have h := Meaning.of_origin (r.origin_classify line s (l.text.take r.maxWord))
  simp only [read]
  generalize (r.classify line s (l.text.take r.maxWord)).token = t at h ⊢
  generalize (r.classify line s (l.text.take r.maxWord)).issues = issues at h ⊢
  cases h with
  | unknown hn => exact .unknown (by simp [hn])
  | constant v => exact .constant v
  | assign => exact .assign
  | symbol hi he hf => exact .symbol hi he hf

theorem of_mem_issues_classify {chars : List Char} {d : Diagnostic}
    (h : d ∈ (r.classify line s chars).issues) :
    d.level = .error ∧ d.code ≠ .programTooLarge ∧ d.code ≠ .unterminatedString := by
  rcases (r.origin_classify line s chars).code_of_mem h with hc | hc | hc | hc <;>
    simp [Diagnostic.level, hc, Code.level]

/-- A problem in reading is an error of the line that is read, and never that
the script is too large. -/
theorem of_mem_issues_read {l : Lexeme} {d : Diagnostic} (h : d ∈ (r.read line s l).issues) :
    d.line = line ∧ d.level = .error ∧ d.code ≠ .programTooLarge := by
  simp only [read, List.mem_map, List.mem_append, List.mem_ite_nil_right, List.mem_singleton] at h
  obtain ⟨e, he, rfl⟩ := h
  refine ⟨rfl, ?_⟩
  rcases he with ⟨_, rfl⟩ | ⟨_, rfl⟩ | he
  · exact ⟨rfl, nofun⟩
  · exact ⟨rfl, nofun⟩
  · obtain ⟨hlevel, hcode, _⟩ := r.of_mem_issues_classify line s he
    exact ⟨hlevel, hcode⟩

/-- A string is reported as unclosed exactly if it is. -/
theorem unterminated_mem_issues_read {l : Lexeme} :
    (∃ d ∈ (r.read line s l).issues, d.code = .unterminatedString) ↔ l.unclosed = true := by
  simp only [read, List.mem_map, List.mem_append, List.mem_ite_nil_right, List.mem_singleton]
  constructor
  · rintro ⟨_, ⟨e, he, rfl⟩, hcode⟩
    rcases he with ⟨hu, _⟩ | ⟨_, rfl⟩ | he
    · exact hu
    · cases hcode
    · exact absurd hcode (r.of_mem_issues_classify line s he).2.2
  · intro hu
    exact ⟨_, ⟨_, .inl ⟨hu, rfl⟩, rfl⟩, rfl⟩

namespace Meaning

variable {r line} {word : String} {t : Token} {issues : List Diagnostic}

theorem word_eq (h : Meaning r word line t issues) : t.word = word := by
  cases h <;> rfl

/-- An unknown token never passes in silence. -/
theorem issues_ne_nil (h : Meaning r word line t issues) (hk : t.kind = none) : issues ≠ [] := by
  cases h with
  | unknown hn => exact hn
  | constant _ | assign | symbol _ _ _ => cases hk

/-- What is neither a constant nor `=` has its value from the table. -/
theorem of_symbol (h : Meaning r word line t issues) {k : Kind} (hk : t.kind = some k)
    (hc : k ≠ .constant) (ha : t.isAssign = false) :
    ∃ i e, r.symbols.indexOf? t.word = some i ∧ r.symbols.entry? i = some e ∧ e.kind = k ∧
      t.symbol = some i ∧ k.fits t.value = true := by
  cases h with
  | unknown _ => cases hk
  | constant _ => cases hk; exact absurd rfl hc
  | assign => simp [Token.isAssign, Token.assign] at ha
  | symbol hi he hf => cases hk; exact ⟨_, _, hi, he, rfl, rfl, hf⟩

/-- The value of such a token is that of the symbol with its name. -/
theorem get_of_symbol (h : Meaning r word line t issues) {k : Kind} (hk : t.kind = some k)
    (hc : k ≠ .constant) (ha : t.isAssign = false) :
    ∃ e, r.symbols.get? t.word = some e ∧ e.kind = k ∧ e.value = t.value ∧ k.fits t.value = true := by
  cases h with
  | unknown _ => cases hk
  | constant _ => cases hk; exact absurd rfl hc
  | assign => simp [Token.isAssign, Token.assign] at ha
  | @symbol _ _ e hi he hf =>
    cases hk
    exact ⟨e, by simp [SymbolTable.get?, hi, he], rfl, rfl, hf⟩

end Meaning

end Reader

namespace Token

variable {t : Token}

theorem kind_of_isFunction (h : t.isFunction = true) : t.kind = some .function := of_decide_eq_true h

theorem kind_of_isVariable (h : t.isVariable = true) : t.kind = some .var := of_decide_eq_true h

theorem isAssign_eq_false {k : Kind} (h : t.kind = some k) (hk : k ≠ .operator) :
    t.isAssign = false := by
  simp [isAssign, h, hk]

theorem kind_of_isOperator (h : t.isOperator = true) : t.kind = some .operator ∧ t.isAssign = false := by
  obtain ⟨hk, hv⟩ := Bool.and_eq_true_iff.1 h
  refine ⟨of_decide_eq_true hk, ?_⟩
  have hne : t.value ≠ assignValue := by simpa using hv
  simp [isAssign, hne]

end Token

end NpcScript
