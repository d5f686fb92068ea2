import NpcScript.Proofs.BracketCodes
import NpcScript.Proofs.LoadedText
import NpcScript.Proofs.PlainText
import NpcScript.Proofs.Vocabulary

/-! # Names and numbers read back

A plain word is read as what it shows: the name of a symbol as that symbol, a
numeral as its number, `=` as itself. None of them asks the host for anything,
so a line of such words is read the same in every state. -/
namespace NpcScript
open NpcScript.Text

/-! ## Plain words -/

theorem toNat_of_isAlpha {x : Char} (h : x.isAlpha = true) :
    (65 ≤ x.toNat ∧ x.toNat ≤ 90) ∨ (97 ≤ x.toNat ∧ x.toNat ≤ 122) := by
  rcases Bool.or_eq_true_iff.1 h with h | h
  · have hrange : 'A'.val ≤ x.val ∧ x.val ≤ 'Z'.val := of_decide_eq_true h
    exact .inl hrange
  · obtain ⟨hlow, hhigh⟩ := Bool.and_eq_true_iff.1 h
    have hlow : 'a'.val ≤ x.val := of_decide_eq_true hlow
    have hhigh : x.val ≤ 'z'.val := of_decide_eq_true hhigh
    exact .inr ⟨hlow, hhigh⟩

theorem toNat_of_isDigit {x : Char} (h : x.isDigit = true) : 48 ≤ x.toNat ∧ x.toNat ≤ 57 := by
  simp only [Char.isDigit, Bool.and_eq_true, decide_eq_true_eq, UInt32.le_iff_toNat_le, ge_iff_le] at h
  exact h

theorem isWordChar_of_isAlphanum {x : Char} (h : x.isAlphanum = true) : isWordChar x = true := by
  have hrange := (Bool.or_eq_true_iff.1 h).imp toNat_of_isAlpha toNat_of_isDigit
  have hop : isOperator x = false := by
    rw [← Bool.not_eq_true]
    intro ho
    have hx := of_isOperator (p := fun y => !y.isAlphanum) (by decide) ho
    rw [h] at hx
    cases hx
  have hquote : x ≠ '"' := by
    rintro rfl
    cases h
  have hblank : isBlank x = false := by
    simp only [isBlank, blankRanges, List.any_cons, List.any_nil, Bool.or_false, Bool.or_eq_false_iff,
      Bool.and_eq_false_iff, decide_eq_false_iff_not]
    omega
  have hcontrol : isControl x = false := by
    simp only [isControl, Bool.or_eq_false_iff, Bool.and_eq_false_iff, decide_eq_false_iff_not]
    omega
  simp [isWordChar, hop, hquote, hblank, hcontrol]

theorem plainWord_of_isAlphanum {w : List Char} (hne : w ≠ []) (h : ∀ x ∈ w, x.isAlphanum = true) :
    PlainWord w := ⟨hne, .inl fun x hx => isWordChar_of_isAlphanum (h x hx)⟩

theorem Kind.plainWord_of_writes {k : Kind} {w : List Char} (h : k.writes w = true) : PlainWord w := by
  have hident : isIdentifier w = true → PlainWord w := by
    intro hi
    simp only [isIdentifier, Bool.and_eq_true, List.all_eq_true] at hi
    refine plainWord_of_isAlphanum ?_ hi.1.2
    rintro rfl
    cases hi.1.1
  cases k with
  | function | var | constant => exact hident h
  | operator =>
    obtain ⟨hlen, hall⟩ := Bool.and_eq_true_iff.1 h
    obtain ⟨x, rfl⟩ := List.length_eq_one_iff.1 (beq_iff_eq.1 hlen)
    simp only [List.all_cons, List.all_nil, Bool.and_true, Bool.and_eq_true] at hall
    exact ⟨List.cons_ne_nil x [], .inr ⟨x, rfl, hall.1⟩⟩

theorem Kind.length_le_of_writes {k : Kind} {w : List Char} (h : k.writes w = true) : w.length ≤ 63 := by
  cases k with
  | function | var | constant => exact of_decide_eq_true (Bool.and_eq_true_iff.1 h).2
  | operator =>
    have hone := beq_iff_eq.1 (Bool.and_eq_true_iff.1 h).1
    omega

namespace WordForm

/-- A bracket code starts with a bracket. -/
theorem bracketed?_eq_none {x : Char} (hx : x.toNat ≠ 0x5B) (xs : List Char) :
    bracketed? (x :: xs) = none := by
  cases h : bracketed? (x :: xs) with
  | none => rfl
  | some bytes =>
    obtain ⟨inner, he, _⟩ := bracketed?_iff_inner.1 h
    rw [(List.cons.inj he).1] at hx
    exact absurd rfl hx

theorem ofWord_of_isIdentifier {w : List Char} (h : isIdentifier w = true) : ofWord w = .name := by
  simp only [isIdentifier, Bool.and_eq_true, List.all_eq_true] at h
  cases w with
  | nil => cases h.1.1
  | cons x xs =>
    have hx : x.isAlpha = true := h.1.1
    have hrange := toNat_of_isAlpha hx
    have hdigit : x.isDigit = false := by
      cases hd : x.isDigit with
      | false => rfl
      | true =>
        have := toNat_of_isDigit hd
        omega
    have hbracket := bracketed?_eq_none (x := x) (by omega) xs
    have hsign : x ≠ '=' := by
      rintro rfl
      cases hx
    have hquote : x ≠ '"' := by
      rintro rfl
      cases hx
    simp [ofWord, hdigit, hbracket, hsign, hquote]

theorem ofWord_of_isSign {w : List Char} (h : isSign w = true) : ofWord w = .name := by
  obtain ⟨hlen, hx⟩ := Bool.and_eq_true_iff.1 h
  obtain ⟨x, rfl⟩ := List.length_eq_one_iff.1 (beq_iff_eq.1 hlen)
  simp only [List.all_cons, List.all_nil, Bool.and_true, Bool.and_eq_true, bne_iff_ne] at hx
  have hname := of_isOperator (p := fun y => y == '=' || decide (ofWord [y] = .name)) (by decide) hx.1
  rw [beq_eq_false_iff_ne.2 hx.2, Bool.false_or] at hname
  exact of_decide_eq_true hname

theorem ofWord_of_writes {k : Kind} {w : List Char} (h : k.writes w = true) : ofWord w = .name := by
  cases k with
  | function | var | constant => exact ofWord_of_isIdentifier h
  | operator => exact ofWord_of_isSign h

theorem ofWord_toDigits (n : Nat) : ofWord (Nat.toDigits 10 n) = .numeral n := by
  have hall : (Nat.toDigits 10 n).all Char.isDigit = true :=
    List.all_eq_true.2 fun x hx => Nat.isDigit_of_mem_toDigits (by decide) (by decide) hx
  have hne : (Nat.toDigits 10 n).isEmpty = false := by
    rw [List.isEmpty_eq_false_iff]
    exact Nat.toDigits_ne_nil
  have hvalue : (Nat.toDigits 10 n).foldl (fun n c => n * 10 + (c.toNat - '0'.toNat)) 0 = n := by
    have hread := Nat.ofDigitChars_ten_toDigits (n := n)
    rw [Nat.ofDigitChars_eq_foldl] at hread
    simpa only [Nat.mul_comm] using hread
  unfold ofWord
  rw [hne, hall, Bool.not_false, Bool.and_true, if_pos rfl, hvalue]

end WordForm

/-! ## Tokens -/

variable {σ : Type}

/-- A word is plain and stands for a token, whatever state the host is in, which
it leaves as it is. -/
structure Reader.Reads (r : Reader σ) (w : List Char) (t : Token) : Prop where
  plain : PlainWord w
  token : ∀ s, (r.read 0 s ⟨w, false⟩).token = t
  state : ∀ s, (r.read 0 s ⟨w, false⟩).state = s

namespace Reader

variable {r : Reader σ}

theorem reads_of_classify {w : List Char} {t : Token} (hp : PlainWord w) (hlen : w.length ≤ r.maxWord)
    (h : ∀ s, (r.classify 0 s w).token = t ∧ (r.classify 0 s w).state = s) : r.Reads w t := by
  have htake : w.take r.maxWord = w := List.take_of_length_le hlen
  refine ⟨hp, fun s => ?_, fun s => ?_⟩
  · show (r.classify 0 s (w.take r.maxWord)).token = t
    rw [htake]
    exact (h s).1
  · show (r.classify 0 s (w.take r.maxWord)).state = s
    rw [htake]
    exact (h s).2

variable (hlen : 63 ≤ r.maxWord)
include hlen

theorem reads_assign : r.Reads ['='] (.assign "=" 0) := by
  refine reads_of_classify ⟨nofun, .inr ⟨'=', rfl, by decide⟩⟩ ?_ fun s => ⟨rfl, rfl⟩
  show 1 ≤ r.maxWord
  omega

theorem reads_toDigits {n : Nat} (h : n ≤ Token.maxValue) :
    r.Reads (Nat.toDigits 10 n) (.constant (String.ofList (Nat.toDigits 10 n)) (Int32.ofNat n) 0) := by
  have hdigits : ∀ x ∈ Nat.toDigits 10 n, x.isAlphanum = true := by
    intro x hx
    rw [Char.isAlphanum, Nat.isDigit_of_mem_toDigits (by decide) (by decide) hx, Bool.or_true]
  have hshort : (Nat.toDigits 10 n).length ≤ 7 := by
    rw [Nat.length_toDigits_le_iff (by decide) (by decide)]
    exact Nat.lt_of_le_of_lt h (by decide)
  refine reads_of_classify (plainWord_of_isAlphanum Nat.toDigits_ne_nil hdigits) (by omega) fun s => ?_
  unfold classify
  rw [WordForm.ofWord_toDigits]
  dsimp only
  rw [Nat.min_eq_left h]
  exact ⟨rfl, rfl⟩

/-- The name of a symbol is read as that symbol. -/
theorem reads_name (hl : r.symbols.Legible) {e : Symbol} (he : e ∈ r.symbols.entries)
    (hk : e.kind ≠ .constant) (hf : e.kind.fits e.value = true) :
    ∃ i, r.Reads e.name.toList ⟨some e.kind, e.value, some i, e.name, 0⟩ := by
  have hwrites := hl.writes_name e he hk
  have hget := SymbolTable.mem_entries_iff.1 he
  obtain ⟨i, hi, hentry⟩ := Option.bind_eq_some_iff.1 hget
  have hshort := Kind.length_le_of_writes hwrites
  refine ⟨i, reads_of_classify (Kind.plainWord_of_writes hwrites) (by omega) fun s => ?_⟩
  unfold classify
  rw [WordForm.ofWord_of_writes hwrites]
  dsimp only
  rw [String.ofList_toList, lookUp, hi]
  dsimp only
  rw [hentry]
  dsimp only
  rw [if_pos hf]
  exact ⟨rfl, rfl⟩

omit hlen

theorem plain_of_reads {ws : List (List Char)} {ts : List Token} (h : List.Forall₂ r.Reads ws ts) :
    ∀ w ∈ ws, PlainWord w := by
  induction h with
  | nil => nofun
  | cons hw _ ih => exact List.forall_mem_cons.2 ⟨hw.plain, ih⟩

theorem readings_of_reads {ws : List (List Char)} {ts : List Token} (h : List.Forall₂ r.Reads ws ts)
    (s : σ) : (r.readings 0 s (ws.map (⟨·, false⟩))).map Reading.token = ts ∧
      Reading.after s (r.readings 0 s (ws.map (⟨·, false⟩))) = s := by
  induction h with
  | nil => exact ⟨rfl, rfl⟩
  | @cons w t ws ts hw _ ih =>
    have hs := hw.state s
    rw [List.map_cons, readings, hs, List.map_cons, hw.token s, ih.1, Reading.after, hs, ih.2]
    exact ⟨rfl, rfl⟩

end Reader

/-- A line of words is read word by word. Behind anything but a variable nothing
is read. -/
theorem Compiler.readText_writtenLine (c : Compiler σ) {first : List Char} {rest : List (List Char)}
    {t : Token} {ts : List Token} (hf : c.reader.Reads first t)
    (hr : List.Forall₂ c.reader.Reads rest ts) (depth : Nat) (s : σ) :
    let l := c.readText s (writtenLine (2 * depth) first rest)
    l.level = depth ∧ Reading.after s l.readings = s ∧
      ∃ x xs, l.readings = x :: xs ∧ x.token = t ∧
        xs.map Reading.token = if t.isVariable then ts else [] := by
  intro l
  have hplain := Reader.plain_of_reads hr
  have hspaced : spaceOperators (writtenLine (2 * depth) first rest) = writtenLine (2 * depth) first rest :=
    (settled_writtenLine hf.plain hplain (2 * depth)).spaceOperators_eq
  have hfirst : Lexeme.first? (writtenLine (2 * depth) first rest) = some (⟨first, false⟩, spacedWords rest) :=
    first?_append hf.plain (gap_spacedWords rest) (2 * depth)
  have hreadings : l.readings = c.reader.read 0 s ⟨first, false⟩ ::
      if t.isVariable then c.reader.readings 0 s (rest.map (⟨·, false⟩)) else [] := by
    show c.reader.readLine 0 s (spaceOperators (writtenLine (2 * depth) first rest)) = _
    rw [hspaced, c.reader.readLine_of_some 0 s hfirst, hf.token s, hf.state s, lexemes_spacedWords hplain]
  obtain ⟨htokens, hafter⟩ := Reader.readings_of_reads hr s
  refine ⟨?_, ?_, _, _, hreadings, hf.token s, ?_⟩
  · show SourceLine.leadingSpaces { text := writtenLine (2 * depth) first rest } / 2 = depth
    rw [leadingSpaces_writtenLine hf.plain]
    omega
  · rw [hreadings, Reading.after, hf.state s]
    split
    · exact hafter
    · rfl
  · split
    · exact htokens
    · rfl

end NpcScript
