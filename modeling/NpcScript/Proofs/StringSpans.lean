import Mathlib.Data.List.Basic
import NpcScript.Line.Cell
import NpcScript.Line.Spacing
import NpcScript.Proofs.QuotedWords

/-! # Strings of a line

The strings of a line lie between its quotes that count: the first opens one, the
next closes it, and so on. A string that is left open runs to the end of the
line. What is outside of all strings is code, and this is the code of the cells. -/
namespace NpcScript
open NpcScript.Text

/-- A string is open behind a text that follows `before`. -/
def openBehind : Option Char → Bool → List Char → Bool
  | _, inString, [] => inString
  | before, inString, c :: cs => openBehind (some c) (inString != isDelimiter before c) cs

theorem openBehind_append (before : Option Char) (inString : Bool) (xs ys : List Char) :
    openBehind before inString (xs ++ ys) =
      openBehind (xs.getLast?.or before) (openBehind before inString xs) ys := by
  induction xs generalizing before inString with
  | nil => rfl
  | cons x xs ih =>
    rw [List.cons_append, openBehind, openBehind, ih, List.getLast?_cons]
    cases xs.getLast? <;> rfl

/-- Part of a text: where it starts, and where it has ended. -/
structure Span where
  start : Nat
  stop : Nat
  deriving DecidableEq, Repr

namespace Span

def contains (s : Span) (i : Nat) : Bool := decide (s.start ≤ i) && decide (i < s.stop)

def text (s : Span) (line : List Char) : List Char := (line.take s.stop).drop s.start

end Span

/-- The strings of a text that follows `before` and starts at position `i`; one
may already be open. -/
def spansFrom (before : Option Char) (opened : Option Nat) (i : Nat) : List Char → List Span
  | [] => (opened.map fun start => ⟨start, i⟩).toList
  | c :: cs =>
    if isDelimiter before c then
      match opened with
      | none => spansFrom (some c) (some i) (i + 1) cs
      | some start => ⟨start, i + 1⟩ :: spansFrom (some c) none (i + 1) cs
    else spansFrom (some c) opened (i + 1) cs

def stringSpans (line : List Char) : List Span := spansFrom none none 0 line

/-- A position lies in a string, quotes included. -/
def inStringAt (cs : List Char) (i : Nat) : Bool := (stringSpans cs).any fun s => s.contains i

/-- An operator outside strings. -/
def operatorAt (cs : List Char) (i : Nat) : Bool :=
  cs[i]?.any isOperator && !(stringSpans cs).any fun s => s.contains i

section

variable {before : Option Char} {opened : Option Nat} {i start : Nat} {c : Char} {cs : List Char}

theorem spansFrom_open (h : isDelimiter before c = true) :
    spansFrom before none i (c :: cs) = spansFrom (some c) (some i) (i + 1) cs := by
  rw [spansFrom, if_pos h]

theorem spansFrom_close (h : isDelimiter before c = true) :
    spansFrom before (some start) i (c :: cs) =
      ⟨start, i + 1⟩ :: spansFrom (some c) none (i + 1) cs := by
  rw [spansFrom, if_pos h]

theorem spansFrom_pass (h : isDelimiter before c = false) :
    spansFrom before opened i (c :: cs) = spansFrom (some c) opened (i + 1) cs := by
  cases opened <;> rw [spansFrom, h, if_neg Bool.false_ne_true]

/-- An open string is the first, and goes at least as far as the text is read. -/
theorem exists_spansFrom_some (before : Option Char) (start i : Nat) (cs : List Char) :
    ∃ stop rest, spansFrom before (some start) i cs = ⟨start, stop⟩ :: rest ∧ i ≤ stop := by
  induction cs generalizing before i with
  | nil => exact ⟨i, [], rfl, Nat.le_refl i⟩
  | cons c cs ih =>
    cases hd : isDelimiter before c with
    | true => exact ⟨i + 1, _, spansFrom_close hd, Nat.le_succ i⟩
    | false =>
      obtain ⟨stop, rest, he, hle⟩ := ih (some c) (i + 1)
      exact ⟨stop, rest, by rw [spansFrom_pass hd, he], by omega⟩

/-- Where strings can lie. -/
theorem bounds_of_mem_spansFrom (ho : ∀ start ∈ opened, start < i) {s : Span}
    (h : s ∈ spansFrom before opened i cs) :
    opened.getD i ≤ s.start ∧ s.start < s.stop ∧ s.stop ≤ i + cs.length := by
  induction cs generalizing before opened i with
  | nil =>
    obtain ⟨start, rfl, rfl⟩ : ∃ start, opened = some start ∧ (⟨start, i⟩ : Span) = s := by
      simpa [spansFrom] using h
    exact ⟨Nat.le_refl _, ho start rfl, Nat.le_refl _⟩
  | cons c cs ih =>
    rw [List.length_cons]
    cases hd : isDelimiter before c with
    | true =>
      cases opened with
      | none =>
        rw [spansFrom_open hd] at h
        have := ih (by simp) h
        simp only [Option.getD_some, Option.getD_none] at this ⊢
        omega
      | some start =>
        rw [spansFrom_close hd] at h
        have hstart := ho start rfl
        rcases List.mem_cons.1 h with rfl | h
        · simp only [Option.getD_some]
          omega
        · have := ih (by simp) h
          simp only [Option.getD_some, Option.getD_none] at this ⊢
          omega
    | false =>
      rw [spansFrom_pass hd] at h
      have := ih (fun start hs => Nat.lt_succ_of_lt (ho start hs)) h
      cases opened with
      | none =>
        simp only [Option.getD_none] at this ⊢
        omega
      | some start =>
        simp only [Option.getD_some] at this ⊢
        omega

theorem getLast?_cons_or (c : Char) (cs : List Char) (before : Option Char) :
    (c :: cs).getLast?.or before = cs.getLast?.or (some c) := by
  rw [List.getLast?_cons]
  cases cs.getLast? <;> rfl

theorem add_length_cons (i : Nat) (c : Char) (cs : List Char) :
    i + (c :: cs).length = i + 1 + cs.length := by
  rw [List.length_cons]
  omega

/-- Behind a text that leaves no string open, strings are found anew. -/
theorem spansFrom_append (xs ys : List Char) (h : openBehind before opened.isSome xs = false) :
    spansFrom before opened i (xs ++ ys) =
      spansFrom before opened i xs ++ spansFrom (xs.getLast?.or before) none (i + xs.length) ys := by
  induction xs generalizing before opened i with
  | nil =>
    have hn : opened = none := by simpa [openBehind] using h
    subst hn
    rfl
  | cons c xs ih =>
    rw [openBehind] at h
    rw [List.cons_append, getLast?_cons_or, add_length_cons]
    cases hd : isDelimiter before c with
    | true =>
      rw [hd] at h
      cases opened with
      | none => rw [spansFrom_open hd, spansFrom_open hd, ih h]
      | some start => rw [spansFrom_close hd, spansFrom_close hd, ih h, List.cons_append]
    | false =>
      rw [hd, Bool.bne_false] at h
      rw [spansFrom_pass hd, spansFrom_pass hd, ih h]

/-- A position is in a string exactly if a string is open before it or it has a
quote of one. -/
theorem any_contains_spansFrom (ho : ∀ start ∈ opened, start < i) (pre : List Char) (c : Char)
    (post : List Char) :
    ((spansFrom before opened i (pre ++ c :: post)).any fun s => s.contains (i + pre.length)) =
      (openBehind before opened.isSome pre || isDelimiter (pre.getLast?.or before) c) := by
  induction pre generalizing before opened i with
  | nil =>
    rw [List.nil_append, List.length_nil, Nat.add_zero, openBehind, List.getLast?_nil, Option.none_or]
    cases hd : isDelimiter before c with
    | true =>
      cases opened with
      | none =>
        obtain ⟨stop, rest, he, hle⟩ := exists_spansFrom_some (some c) i (i + 1) post
        have hlt : i < stop := hle
        simp [spansFrom_open hd, he, Span.contains, hlt]
      | some start => simp [spansFrom_close hd, Span.contains, Nat.le_of_lt (ho start rfl)]
    | false =>
      rw [spansFrom_pass hd]
      cases opened with
      | none =>
        have hlater : ∀ s ∈ spansFrom (some c) none (i + 1) post, ¬ s.contains i = true := by
          intro s hs
          have hb : i + 1 ≤ s.start := (bounds_of_mem_spansFrom (by simp) hs).1
          simp only [Span.contains, Bool.and_eq_true, decide_eq_true_iff]
          omega
        rw [List.any_eq_false.2 hlater]
        rfl
      | some start =>
        obtain ⟨stop, rest, he, hle⟩ := exists_spansFrom_some (some c) start (i + 1) post
        have hlt : i < stop := hle
        simp [he, Span.contains, hlt, Nat.le_of_lt (ho start rfl)]
  | cons d pre ih =>
    rw [List.cons_append, getLast?_cons_or, add_length_cons, openBehind]
    cases hd : isDelimiter before d with
    | true =>
      cases opened with
      | none =>
        rw [spansFrom_open hd, ih (by simp)]
        rfl
      | some start =>
        have hpast : Span.contains ⟨start, i + 1⟩ (i + 1 + pre.length) = false := by
          have hle : ¬ i + 1 + pre.length < i + 1 := by omega
          rw [Span.contains, decide_eq_false hle, Bool.and_false]
        rw [spansFrom_close hd, List.any_cons, hpast, Bool.false_or, ih (by simp)]
        rfl
    | false =>
      rw [spansFrom_pass hd, ih fun start hs => Nat.lt_succ_of_lt (ho start hs), Bool.bne_false]

end

/-- Whether a position is in a string is known from the text up to it. -/
theorem inStringAt_append (pre : List Char) (c : Char) (post : List Char) :
    inStringAt (pre ++ c :: post) pre.length =
      (openBehind none false pre || isDelimiter pre.getLast? c) := by
  have hany : ((spansFrom none none 0 (pre ++ c :: post)).any fun s => s.contains (0 + pre.length)) =
      (openBehind none false pre || isDelimiter (pre.getLast?.or none) c) :=
    any_contains_spansFrom (by simp) pre c post
  rwa [Nat.zero_add, Option.or_none] at hany

/-- A text around one of its characters. -/
theorem eq_take_append {cs : List Char} {i : Nat} {c : Char} (h : cs[i]? = some c) :
    cs = cs.take i ++ c :: cs.drop (i + 1) ∧ (cs.take i).length = i := by
  obtain ⟨hi, rfl⟩ := List.getElem?_eq_some_iff.1 h
  refine ⟨?_, List.length_take_of_le (Nat.le_of_lt hi)⟩
  rw [← List.drop_eq_getElem_cons, List.take_append_drop]

/-- Whether an operator is code is known from the text before it. -/
theorem operatorAt_append (pre : List Char) (c : Char) (post : List Char) :
    operatorAt (pre ++ c :: post) pre.length = (isOperator c && !openBehind none false pre) := by
  have hchar : (pre ++ c :: post)[pre.length]? = some c := by simp
  rw [operatorAt, hchar, ← inStringAt, inStringAt_append, Option.any_some]
  cases ho : isOperator c with
  | false => rfl
  | true =>
    rw [isDelimiter_eq_false (isBlank_of_isOperator ho).2.2]
    simp

theorem exists_of_operatorAt {cs : List Char} {i : Nat} (h : operatorAt cs i = true) :
    ∃ pre c post, cs = pre ++ c :: post ∧ pre.length = i ∧ isOperator c = true ∧
      openBehind none false pre = false := by
  obtain ⟨c, hc, _⟩ := (Option.any_eq_true _ _).1 (Bool.and_eq_true_iff.1 h).1
  obtain ⟨hcs, hlen⟩ := eq_take_append hc
  have hop := operatorAt_append (cs.take i) c (cs.drop (i + 1))
  rw [← hcs, hlen, h, eq_comm, Bool.and_eq_true, Bool.not_eq_true'] at hop
  exact ⟨_, _, _, hcs, hlen, hop⟩

/-! ## Texts of strings -/

/-- What a character does to the text of an open string: the texts that are
complete with it, and the text that is open behind it. -/
def stringStep (delimits : Bool) (current : Option (List Char)) (c : Char) :
    List (List Char) × Option (List Char) :=
  match delimits, current with
  | true, none => ([], some [c])
  | true, some text => ([text ++ [c]], none)
  | false, _ => ([], current.map (· ++ [c]))

theorem isSome_stringStep (delimits : Bool) (current : Option (List Char)) (c : Char) :
    (stringStep delimits current c).2.isSome = (current.isSome != delimits) := by
  cases delimits <;> cases current <;> rfl

/-- The texts of the strings of a text that follows `before`; of a string that is
already open, the text so far is given. -/
def stringsFrom (before : Option Char) (current : Option (List Char)) : List Char → List (List Char)
  | [] => current.toList
  | c :: cs =>
    (stringStep (isDelimiter before c) current c).1 ++
      stringsFrom (some c) (stringStep (isDelimiter before c) current c).2 cs

theorem stringsFrom_cons (before : Option Char) (current : Option (List Char)) (c : Char)
    (cs : List Char) :
    stringsFrom before current (c :: cs) = (stringStep (isDelimiter before c) current c).1 ++
      stringsFrom (some c) (stringStep (isDelimiter before c) current c).2 cs := rfl

theorem map_text_spansFrom (before : Option Char) {opened : Option Nat} (pre cs : List Char)
    (ho : ∀ start ∈ opened, start ≤ pre.length) :
    (spansFrom before opened pre.length cs).map (·.text (pre ++ cs)) =
      stringsFrom before (opened.map fun start => pre.drop start) cs := by
  induction cs generalizing before opened pre with
  | nil =>
    cases opened with
    | none => rfl
    | some start => simp [spansFrom, stringsFrom, Span.text]
  | cons c cs ih =>
    have hpre : pre ++ c :: cs = (pre ++ [c]) ++ cs := by simp
    have hlen : pre.length + 1 = (pre ++ [c]).length := by simp
    cases hd : isDelimiter before c with
    | true =>
      cases opened with
      | none =>
        rw [spansFrom_open hd, hpre, hlen, ih (some c) (pre ++ [c]) (by simp)]
        simp [stringsFrom, stringStep, hd]
      | some start =>
        have htext : Span.text ⟨start, (pre ++ [c]).length⟩ (pre ++ [c] ++ cs) = pre.drop start ++ [c] := by
          rw [Span.text, List.take_left, List.drop_append_of_le_length (ho start rfl)]
        rw [spansFrom_close hd, hpre, hlen, List.map_cons, ih (some c) (pre ++ [c]) (by simp), htext]
        simp [stringsFrom, stringStep, hd]
    | false =>
      rw [spansFrom_pass hd, hpre, hlen, ih (some c) (pre ++ [c])]
      · cases opened with
        | none => simp [stringsFrom, stringStep, hd]
        | some start =>
          simp [stringsFrom, stringStep, hd, List.drop_append_of_le_length (ho start rfl)]
      · intro start hs
        rw [List.length_append]
        exact Nat.le_add_right_of_le (ho start hs)

theorem map_text_stringSpans (line : List Char) :
    (stringSpans line).map (·.text line) = stringsFrom none none line :=
  map_text_spansFrom none [] line (by simp)

end NpcScript
