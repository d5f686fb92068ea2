import NpcScript.Proofs.Meaning

/-! # Where tokens come from

A token has its kind from the shape of its word or from the symbol table, and it
says which. If it has none, this is reported once, and so is a word that was cut.
The value of `=` is not that of any operator, as a value from the table has to fit
its kind. -/
namespace NpcScript
open NpcScript.Text

/-- A report that a word has no usable symbol. -/
def Diagnostic.isUnresolved (d : Diagnostic) : Bool :=
  d.code = .unknownOpcode || d.code = .symbolOutOfRange

/-- A report that a word was cut. -/
def Diagnostic.isWordTooLong (d : Diagnostic) : Bool := d.code = .wordTooLong

theorem Kind.fits_iff {k : Kind} {value : Int32} :
    k.fits value = true ↔ 0 ≤ value.toInt ∧ value.toInt ≤ k.maxValue := by
  simp [fits]

theorem ofList_eq_assign_iff {word : List Char} : String.ofList word = "=" ↔ word = ['='] := by
  constructor
  · intro h
    rw [← String.toList_ofList (l := word), h]
    rfl
  · rintro rfl
    rfl

namespace Origin

variable {t : SymbolTable} {word : List Char} {line : LineNumber} {token : Token} {issues : List Diagnostic}
  (h : Origin t word line token issues)
include h

theorem word_eq : token.word = String.ofList word := by
  cases h <;> rfl

/-- A word without a meaning is reported once, and no other word is. -/
theorem countP_isUnresolved :
    issues.countP Diagnostic.isUnresolved = if token.kind.isNone then 1 else 0 := by
  cases h with
  | shape _ _ known =>
    refine List.countP_eq_zero.2 fun d hd => ?_
    rcases known d hd with hc | hc <;> simp [Diagnostic.isUnresolved, hc]
  | assign _ => rfl
  | table _ _ _ _ => rfl
  | nowhere _ unresolved =>
    rcases unresolved with hc | hc <;> simp [Token.unknown, Diagnostic.isUnresolved, hc]

theorem countP_isWordTooLong : issues.countP Diagnostic.isWordTooLong = 0 := by
  refine List.countP_eq_zero.2 fun d hd => ?_
  rcases h.code_of_mem hd with hc | hc | hc | hc <;> simp [Diagnostic.isWordTooLong, hc]

theorem of_kind_none (hk : token.kind = none) : token.value = 0 ∧ token.symbol = none := by
  cases h with
  | nowhere _ _ => exact ⟨rfl, rfl⟩
  | shape _ _ _ | assign _ | table _ _ _ _ => cases hk

theorem symbol_iff (i : Nat) :
    token.symbol = some i ↔ token.kind ≠ none ∧ ¬ SelfEvident word ∧ t.indexOf? (String.ofList word) = some i := by
  cases h with
  | shape evident _ _ => simp [Token.constant, evident]
  | assign sign => simp [Token.assign, SelfEvident.assign sign]
  | table name index _ _ => simp [name, index]
  | nowhere _ _ => simp [Token.unknown]

theorem entry_of_symbol {i : Nat} (hs : token.symbol = some i) :
    ∃ e, t.entry? i = some e ∧ e.name = token.word ∧ token.kind = some e.kind ∧ token.value = e.value ∧
      e.kind.fits e.value = true := by
  cases h with
  | shape _ _ _ | assign _ | nowhere _ _ => cases hs
  | @table j e _ index entry fits =>
    cases hs
    obtain ⟨e', he', hname⟩ := SymbolTable.entry_of_indexOf index
    rw [entry] at he'
    cases he'
    exact ⟨e, entry, hname, rfl, rfl, fits⟩

/-- The value of `=` is not one that a symbol can have. -/
theorem isAssign_iff : token.isAssign = true ↔ word = ['='] := by
  cases h with
  | shape _ other _ => exact iff_of_false Bool.false_ne_true other
  | assign sign => exact iff_of_true rfl sign
  | @table _ e name _ _ fits =>
    refine iff_of_false ?_ fun hw => name (.assign hw)
    intro hassign
    have hvalue : e.value = Token.assignValue := of_decide_eq_true (Bool.and_eq_true_iff.1 hassign).2
    have hpos := (Kind.fits_iff.1 fits).1
    rw [hvalue] at hpos
    exact absurd hpos (by decide)
  | nowhere name _ => exact iff_of_false Bool.false_ne_true fun hw => name (.assign hw)

theorem value_of_operator (hk : token.kind = some .operator) (hw : word ≠ ['=']) :
    0 ≤ token.value.toInt ∧ token.value.toInt ≤ 255 := by
  cases h with
  | shape _ _ _ | nowhere _ _ => cases hk
  | assign sign => exact absurd sign hw
  | table _ _ _ fits =>
    rw [Option.some.inj hk] at fits
    exact Kind.fits_iff.1 fits

end Origin

/-- What a token says of itself is so, and if it says nothing this is reported. -/
structure Token.Sound (table : SymbolTable) (t : Token) (issues : List Diagnostic) : Prop where
  unknown_iff : t.kind = none ↔ issues.countP Diagnostic.isUnresolved = 1
  reported_once : issues.countP Diagnostic.isUnresolved ≤ 1
  unknown : t.kind = none → t.value = 0 ∧ t.symbol = none
  /-- A token has a symbol exactly if its kind is from the table. -/
  symbol_iff : ∀ i, t.symbol = some i ↔
    t.kind ≠ none ∧ ¬ SelfEvident t.word.toList ∧ table.indexOf? t.word = some i
  symbol : ∀ i, t.symbol = some i → ∃ e, table.entry? i = some e ∧ e.name = t.word ∧
    t.kind = some e.kind ∧ t.value = e.value ∧ e.kind.fits e.value = true
  assign_iff : t.isAssign = true ↔ t.word = "="
  operator : t.kind = some .operator → t.word ≠ "=" → 0 ≤ t.value.toInt ∧ t.value.toInt ≤ 255

/-- Other reports of a word do not matter. -/
theorem Origin.sound {t : SymbolTable} {word : List Char} {line : LineNumber} {token : Token}
    {issues reported : List Diagnostic} (h : Origin t word line token issues)
    (hcount : reported.countP Diagnostic.isUnresolved = issues.countP Diagnostic.isUnresolved) :
    token.Sound t reported := by
  rw [h.countP_isUnresolved] at hcount
  have hsign : token.word = "=" ↔ word = ['='] := by rw [h.word_eq, ofList_eq_assign_iff]
  refine
    { unknown_iff := ?_
      reported_once := ?_
      unknown := h.of_kind_none
      symbol_iff := fun i => ?_
      symbol := fun i => h.entry_of_symbol
      assign_iff := h.isAssign_iff.trans hsign.symm
      operator := fun hk hw => h.value_of_operator hk fun he => hw (hsign.2 he) }
  · rw [hcount]
    cases token.kind <;> simp
  · rw [hcount]
    split <;> omega
  · rw [h.word_eq, String.toList_ofList]
    exact h.symbol_iff i

/-! ## Scanned words -/

/-- The word that is scanned from a byte position on up to another: behind blanks,
and with a character that is none. -/
def IsScanned (text : List Char) (cursor next : Nat) (word : List Char) : Prop :=
  ∃ pre gap rest, text = pre ++ (gap ++ (word ++ rest)) ∧ byteLength pre = cursor ∧
    (∀ c ∈ gap, isBlank c = true) ∧ (∃ c, word.head? = some c ∧ isBlank c = false) ∧
    next = byteLength (pre ++ (gap ++ word))

namespace Lexeme

theorem head?_split (c : Char) (cs : List Char) : (split (c :: cs)).1.text.head? = some c := by
  rw [split]
  split
  · split <;> rfl
  · rfl

/-- The first word of a text is split off behind the blanks at its start. -/
theorem first?_eq_some_iff {cs : List Char} {p : Lexeme × List Char} :
    first? cs = some p ↔ ∃ gap c rest, cs = gap ++ c :: rest ∧ (∀ x ∈ gap, isBlank x = true) ∧
      isBlank c = false ∧ split (c :: rest) = p := by
  constructor
  · intro h
    have hcs : cs.takeWhile isBlank ++ trimStart cs = cs := List.takeWhile_append_dropWhile
    have hhead := List.head?_dropWhile_not isBlank cs
    unfold first? at h
    split at h
    · cases h
    · rename_i c rest hc
      rw [← trimStart, hc] at hhead
      refine ⟨cs.takeWhile isBlank, c, rest, ?_, List.all_eq_true.1 List.all_takeWhile, ?_,
        Option.some.inj h⟩
      · rw [← hc, hcs]
      · simpa using hhead
  · rintro ⟨gap, c, rest, rfl, hgap, hc, rfl⟩
    have htrim : trimStart (gap ++ c :: rest) = c :: rest := by
      rw [trimStart, List.dropWhile_append_of_pos hgap, List.dropWhile_cons_of_neg (by simp [hc])]
    rw [first?, htrim]

/-- The first word of a text stands behind blanks, and starts with a character
that is none. -/
theorem first?_text {cs rest : List Char} {l : Lexeme} (h : first? cs = some (l, rest)) :
    ∃ gap, cs = gap ++ (l.text ++ rest) ∧ (∀ c ∈ gap, isBlank c = true) ∧
      ∃ c, l.text.head? = some c ∧ isBlank c = false := by
  obtain ⟨gap, c, cs, rfl, hgap, hc, hsplit⟩ := first?_eq_some_iff.1 h
  have htext := split_text (c :: cs)
  have hhead := head?_split c cs
  rw [hsplit] at htext hhead
  exact ⟨gap, by rw [htext], hgap, c, hhead, hc⟩

end Lexeme

namespace Reader

variable {σ : Type} (r : Reader σ) (line : LineNumber) (s : σ)

/-- Reports of a word by what they say: apart from an open string, only that it is
too long comes to those of its meaning. -/
theorem countP_issues_read (l : Lexeme) {p : Diagnostic → Bool} (hline : ∀ d : Diagnostic, p (d.inLine line) = p d)
    (hopen : ∀ text, p (.unterminated text) = false) :
    (r.read line s l).issues.countP p =
      (if r.maxWord < l.text.length then [Diagnostic.wordTooLong (String.ofList l.text)] else []).countP p +
        (r.classify line s (l.text.take r.maxWord)).issues.countP p := by
  have hp : p ∘ (fun d : Diagnostic => d.inLine line) = p := funext hline
  have hnone : (if l.unclosed then [Diagnostic.unterminated (String.ofList l.text)] else []).countP p = 0 := by
    cases l.unclosed <;> simp [hopen]
  show (List.map (fun d : Diagnostic => d.inLine line) _).countP p = _
  rw [List.countP_map, hp, List.countP_append, hnone, Nat.zero_add, List.countP_append]

theorem countP_isUnresolved_read (l : Lexeme) :
    (r.read line s l).issues.countP Diagnostic.isUnresolved =
      (r.classify line s (l.text.take r.maxWord)).issues.countP Diagnostic.isUnresolved := by
  rw [countP_issues_read r line s l (fun _ => rfl) fun _ => rfl]
  split <;> simp [Diagnostic.isUnresolved, Diagnostic.wordTooLong]

/-- A cut is reported once. -/
theorem countP_isWordTooLong_read (l : Lexeme) :
    (r.read line s l).issues.countP Diagnostic.isWordTooLong = if r.maxWord < l.text.length then 1 else 0 := by
  rw [countP_issues_read r line s l (fun _ => rfl) fun _ => rfl,
    (r.origin_classify line s _).countP_isWordTooLong, Nat.add_zero]
  split <;> rfl

theorem exists_of_next {text : List Char} {cursor next : Nat} {x : Reading σ}
    (h : r.next? text cursor line s = some (x, next)) :
    ∃ l : Lexeme, IsScanned text cursor next l.text ∧ x = r.read line s l := by
  simp only [next?, Option.bind_eq_bind, Option.bind_eq_some_iff, Option.pure_def, Option.some.injEq,
    Prod.mk.injEq] at h
  obtain ⟨cs, hdrop, ⟨l, after⟩, hfirst, rfl, rfl⟩ := h
  obtain ⟨pre, rfl, rfl⟩ := dropBytes?_eq_some_iff.1 hdrop
  obtain ⟨gap, rfl, hgap, hhead⟩ := Lexeme.first?_text hfirst
  refine ⟨l, ⟨pre, gap, after, rfl, rfl, hgap, hhead, ?_⟩, rfl⟩
  simp only [byteLength_append]
  omega

/-- **Tokens are sound and failures are reported.** A token has no kind exactly if
one report says that its word has no usable symbol. It names an entry of the table
exactly if its kind is from there, and then the entry has its name, kind and value,
and the value fits. Only `=` is the sign of an assignment, and the other operators
have values of one byte. The word is the scanned word as far as it counts, and it
is reported once if that is not all of it. -/
theorem next_sound {text : List Char} {cursor next : Nat} {x : Reading σ}
    (h : r.next? text cursor line s = some (x, next)) :
    x.token.Sound r.symbols x.issues ∧
    ∃ scanned, IsScanned text cursor next scanned ∧
      x.token.word.toList = scanned.take r.maxWord ∧
      x.token.word.toList.length ≤ r.maxWord ∧
      (x.token.word.toList.length < scanned.length ↔
        x.issues.countP Diagnostic.isWordTooLong = 1) := by
  obtain ⟨l, hscanned, rfl⟩ := r.exists_of_next line s h
  have horigin := r.origin_classify line s (l.text.take r.maxWord)
  have hword : (r.read line s l).token.word.toList = l.text.take r.maxWord := by
    rw [← String.toList_ofList (l := l.text.take r.maxWord), ← horigin.word_eq]
    rfl
  refine ⟨horigin.sound (r.countP_isUnresolved_read line s l), l.text, hscanned, hword, ?_, ?_⟩
  · rw [hword, List.length_take]
    exact Nat.min_le_left _ _
  · rw [hword, countP_isWordTooLong_read, List.length_take]
    split <;> omega

/-- Two characters of a word count, and these are an operator of the table. -/
def cutReader : Reader MessageTable :=
  ⟨.ofList [⟨"ab", .var, 7⟩, ⟨"ab", .operator, 255⟩], Host.ofTables ⟨[]⟩, 2⟩

theorem next_sound_cut :
    cutReader.next? " abc".toList 0 1 ⟨#[]⟩ =
        some (⟨⟨some .operator, 255, some 0, "ab", 1⟩, [⟨.wordTooLong, "abc", 1, ""⟩], ⟨#[]⟩⟩, 4) ∧
      Token.Sound cutReader.symbols ⟨some .operator, 255, some 0, "ab", 1⟩ [⟨.wordTooLong, "abc", 1, ""⟩] ∧
      ∃ scanned, IsScanned " abc".toList 0 4 scanned ∧ "ab".toList.length < scanned.length := by
  have hnext : cutReader.next? " abc".toList 0 1 ⟨#[]⟩ =
      some (⟨⟨some .operator, 255, some 0, "ab", 1⟩, [⟨.wordTooLong, "abc", 1, ""⟩], ⟨#[]⟩⟩, 4) := rfl
  obtain ⟨hsound, scanned, hscanned, _, _, hcut⟩ := next_sound cutReader 1 ⟨#[]⟩ hnext
  exact ⟨hnext, hsound, scanned, hscanned, hcut.2 rfl⟩

end Reader

end NpcScript
