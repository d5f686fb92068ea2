import NpcScript.Proofs.TokenOrigins
import NpcScript.Proofs.WordPlaces

/-! # Scanning a line

A line is read by a loop that takes one word after the other from a byte
position on. `Lexeme.Scans` says what a word is without saying how it is found,
and `Covers` says that a line is such words with blanks between them. The words
of a line are the only ones that cover it, whatever its characters are and
wherever its strings end, and the loop gives one token for each and stops. -/
namespace NpcScript
open NpcScript.Text

/-! ## Where a string is closed -/

/-- Every quote in a text that follows `before` has a backslash before it. -/
def EscapedAfter (before : Option Char) (cs : List Char) : Prop :=
  ∀ a b, cs = a ++ '"' :: b → a.getLast?.or before = some '\\'

theorem escapedAfter_nil (before : Option Char) : EscapedAfter before [] := by
  intro a b h
  cases a <;> cases h

theorem escapedAfter_cons {before : Option Char} {c : Char} {cs : List Char} :
    EscapedAfter before (c :: cs) ↔ isDelimiter before c = false ∧ EscapedAfter (some c) cs := by
  constructor
  · intro h
    constructor
    · by_cases hc : c = '"'
      · have hbefore : before = some '\\' := h [] cs (by rw [hc]; rfl)
        rw [isDelimiter, hbefore, bne_self_eq_false, Bool.and_false]
      · exact isDelimiter_eq_false hc before
    · intro a b hcs
      have hlast := h (c :: a) b (by rw [hcs]; rfl)
      rwa [getLast?_cons_or] at hlast
  · rintro ⟨hd, hcs⟩ a b h
    cases a with
    | nil =>
      cases h
      simpa [isDelimiter] using hd
    | cons x a =>
      cases h
      rw [getLast?_cons_or]
      exact hcs a b rfl

section

variable {before : Option Char} {n k : Nat} {cs : List Char}

theorem closingFrom_eq_none_iff : closingFrom n before cs = none ↔ EscapedAfter before cs := by
  induction cs generalizing n before with
  | nil => exact iff_of_true rfl (escapedAfter_nil before)
  | cons c cs ih =>
    rw [closingFrom, escapedAfter_cons, ← ih (n := n + 1)]
    cases isDelimiter before c <;> simp

/-- A string is closed by its first quote that is not escaped. -/
theorem closingFrom_eq_some_iff :
    closingFrom n before cs = some k ↔ ∃ inner rest, cs = inner ++ '"' :: rest ∧
      k = n + (inner.length + 1) ∧ EscapedAfter before inner ∧ inner.getLast?.or before ≠ some '\\' := by
  constructor
  · intro h
    induction cs generalizing n before with
    | nil => cases h
    | cons c cs ih =>
      rw [closingFrom] at h
      split at h
      · rename_i hd
        cases h
        refine ⟨[], cs, by rw [eq_quote_of_isDelimiter hd]; rfl, rfl, escapedAfter_nil before, ?_⟩
        simpa [isDelimiter, eq_quote_of_isDelimiter hd] using hd
      · rename_i hd
        rw [Bool.not_eq_true] at hd
        obtain ⟨inner, rest, rfl, rfl, hinner, hlast⟩ := ih h
        refine ⟨c :: inner, rest, rfl, ?_, escapedAfter_cons.2 ⟨hd, hinner⟩, ?_⟩
        · rw [List.length_cons]
          omega
        · rwa [getLast?_cons_or]
  · rintro ⟨inner, rest, rfl, rfl, hinner, hlast⟩
    induction inner generalizing n before with
    | nil =>
      have hd : isDelimiter before '"' = true := by simpa [isDelimiter] using hlast
      rw [List.nil_append, closingFrom, if_pos hd]
      rfl
    | cons c inner ih =>
      obtain ⟨hd, hinner⟩ := escapedAfter_cons.1 hinner
      rw [getLast?_cons_or] at hlast
      rw [List.cons_append, closingFrom, hd, if_neg Bool.false_ne_true, ih hinner hlast, List.length_cons,
        Nat.add_right_comm n 1, Nat.add_assoc n, Nat.add_assoc]

end

/-! ## Words in front of the rest of a line -/

namespace Lexeme

/-- A word as it stands in front of the rest of a line. What starts with a quote
is a string, and goes on to the first quote that is not escaped, or to the end
of the line. Anything else is a run of characters up to the first blank. -/
inductive Scans : Lexeme → List Char → Prop
  | closed {inner rest : List Char} : EscapedAfter none inner → inner.getLast? ≠ some '\\' →
      Scans ⟨'"' :: (inner ++ ['"']), false⟩ rest
  | unclosed {inner : List Char} : EscapedAfter none inner → Scans ⟨'"' :: inner, true⟩ []
  | run {c : Char} {word rest : List Char} : c ≠ '"' → (∀ x ∈ c :: word, isBlank x = false) →
      rest.head?.all isBlank = true → Scans ⟨c :: word, false⟩ rest

theorem scans_split {c : Char} (hc : isBlank c = false) (cs : List Char) :
    (split (c :: cs)).1.Scans (split (c :: cs)).2 := by
  rw [split]
  split
  · rename_i hquote
    subst hquote
    split
    · rename_i n hn
      obtain ⟨inner, rest, rfl, rfl, hinner, hlast⟩ := closingFrom_eq_some_iff.1 hn
      rw [Option.or_none] at hlast
      have hword : (inner ++ '"' :: rest).take (0 + (inner.length + 1)) = inner ++ ['"'] := by
        rw [Nat.zero_add, List.take_length_add_append]
        rfl
      rw [hword]
      exact .closed hinner hlast
    · rename_i hn
      exact .unclosed (closingFrom_eq_none_iff.1 hn)
  · rename_i hquote
    refine .run hquote ?_ ?_
    · refine List.forall_mem_cons.2 ⟨hc, fun x hx => ?_⟩
      simpa using List.mem_takeWhile_imp hx
    · exact all_head?_dropWhile cs

theorem split_of_scans {l : Lexeme} {rest : List Char} (h : l.Scans rest) :
    split (l.text ++ rest) = (l, rest) := by
  cases h with
  | @closed inner rest hinner hlast =>
    have hn : closingFrom 0 none (inner ++ '"' :: rest) = some (0 + (inner.length + 1)) :=
      closingFrom_eq_some_iff.2 ⟨inner, rest, rfl, rfl, hinner, by rwa [Option.or_none]⟩
    have htext : '"' :: (inner ++ ['"']) ++ rest = '"' :: (inner ++ '"' :: rest) := by simp
    rw [htext, split, if_pos rfl, hn]
    dsimp only
    rw [Nat.zero_add, List.take_length_add_append, List.drop_length_add_append]
    rfl
  | @unclosed inner hinner =>
    have hn : closingFrom 0 none inner = none := closingFrom_eq_none_iff.2 hinner
    rw [List.append_nil, split, if_pos rfl, hn]
  | @run c word rest hquote hword hrest =>
    obtain ⟨_, hword⟩ := List.forall_mem_cons.1 hword
    have hgap : rest.head?.all (fun d => !(fun d => !isBlank d) d) = true := by simpa using hrest
    obtain ⟨htake, hdrop⟩ := span_append (.inr hgap)
    have hrun : word.takeWhile (fun d => !isBlank d) = word := by
      rw [List.takeWhile_eq_self_iff]
      simpa using hword
    have hend : word.dropWhile (fun d => !isBlank d) = [] := by
      rw [List.dropWhile_eq_nil_iff]
      simpa using hword
    rw [List.cons_append, split, if_neg hquote, htake, hdrop, hrun, hend, List.nil_append]

theorem Scans.exists_head {l : Lexeme} {rest : List Char} (h : l.Scans rest) :
    ∃ c cs, l.text = c :: cs ∧ isBlank c = false := by
  cases h with
  | closed _ _ | unclosed _ => exact ⟨'"', _, rfl, by decide⟩
  | run _ hword _ => exact ⟨_, _, rfl, hword _ List.mem_cons_self⟩

/-- The first word of a text is the one that is scanned behind blanks. -/
theorem first?_iff_scans {cs rest : List Char} {l : Lexeme} :
    first? cs = some (l, rest) ↔
      ∃ gap, cs = gap ++ (l.text ++ rest) ∧ (∀ x ∈ gap, isBlank x = true) ∧ l.Scans rest := by
  rw [first?_eq_some_iff]
  constructor
  · rintro ⟨gap, c, cs, rfl, hgap, hc, hsplit⟩
    have htext := split_text (c :: cs)
    have hscans := scans_split hc cs
    rw [hsplit] at htext hscans
    exact ⟨gap, by rw [htext], hgap, hscans⟩
  · rintro ⟨gap, rfl, hgap, hscans⟩
    have hsplit := split_of_scans hscans
    obtain ⟨c, cs, htext, hc⟩ := hscans.exists_head
    rw [htext] at hsplit ⊢
    exact ⟨gap, c, cs ++ rest, rfl, hgap, hc, hsplit⟩

end Lexeme

/-- A line is words with blanks around them. There may be none between a closed
string and the word behind it. -/
inductive Covers : List Char → List Lexeme → Prop
  | nil {gap : List Char} : (∀ x ∈ gap, isBlank x = true) → Covers gap []
  | cons {gap rest : List Char} {l : Lexeme} {ls : List Lexeme} : (∀ x ∈ gap, isBlank x = true) →
      l.Scans rest → Covers rest ls → Covers (gap ++ (l.text ++ rest)) (l :: ls)

theorem Lexeme.first?_eq_none_iff_blank {cs : List Char} :
    first? cs = none ↔ ∀ x ∈ cs, isBlank x = true := by
  rw [first?_eq_none_iff, trimStart, List.dropWhile_eq_nil_iff]

theorem covers_lexemes (text : List Char) : Covers text (lexemes text) := by
  -- what is left behind a word is shorter than the text
  induction hn : text.length using Nat.strongRecOn generalizing text with
  | ind n ih =>
    cases hf : Lexeme.first? text with
    | none =>
      rw [lexemes_of_none hf]
      exact .nil (Lexeme.first?_eq_none_iff_blank.1 hf)
    | some p =>
      obtain ⟨l, rest⟩ := p
      have hlt := Lexeme.first?_length hf
      rw [lexemes_cons hf]
      obtain ⟨gap, rfl, hgap, hscans⟩ := Lexeme.first?_iff_scans.1 hf
      exact .cons hgap hscans (ih rest.length (by omega) rest rfl)

/-- A line is covered by its words in no other way. -/
theorem covers_iff {text : List Char} {ls : List Lexeme} : Covers text ls ↔ ls = lexemes text := by
  constructor
  · intro h
    induction h with
    | nil hgap => exact (lexemes_of_none (Lexeme.first?_eq_none_iff_blank.2 hgap)).symm
    | @cons gap rest l ls hgap hscans _ ih =>
      rw [lexemes_cons (Lexeme.first?_iff_scans.2 ⟨gap, rfl, hgap, hscans⟩), ih]
  · rintro rfl
    exact covers_lexemes text

/-! ## The loop -/

namespace Reader

variable {σ : Type} (r : Reader σ) (line : LineNumber)

/-- What a loop reads of a text from a byte position on, until nothing is left to
read. -/
inductive Loop (text : List Char) : Nat → σ → List (Reading σ) → Prop
  | stop {cursor : Nat} {s : σ} : r.next? text cursor line s = none → Loop text cursor s []
  | step {cursor next : Nat} {s : σ} {x : Reading σ} {xs : List (Reading σ)} :
      r.next? text cursor line s = some (x, next) → Loop text next x.state xs →
      Loop text cursor s (x :: xs)

section

variable (pre rest : List Char) (s : σ)

theorem next?_append : r.next? (pre ++ rest) (byteLength pre) line s =
    (Lexeme.first? rest).map fun p =>
      (r.read line s p.1, byteLength pre + (byteLength rest - byteLength p.2)) := by
  simp only [next?, dropBytes?_append, Option.bind_eq_bind, Option.bind_some, Option.pure_def,
    Option.map_eq_bind]
  rfl

theorem next?_eq_none_iff :
    r.next? (pre ++ rest) (byteLength pre) line s = none ↔ ∀ x ∈ rest, isBlank x = true := by
  rw [next?_append, Option.map_eq_none_iff, Lexeme.first?_eq_none_iff_blank]

/-- One step reads the word behind the blanks, and goes on right behind it. -/
theorem next?_eq_some_iff {x : Reading σ} {next : Nat} :
    r.next? (pre ++ rest) (byteLength pre) line s = some (x, next) ↔
      ∃ gap l tail, rest = gap ++ (l.text ++ tail) ∧ (∀ c ∈ gap, isBlank c = true) ∧ l.Scans tail ∧
        x = r.read line s l ∧ next = byteLength (pre ++ (gap ++ l.text)) := by
  rw [next?_append, Option.map_eq_some_iff]
  constructor
  · rintro ⟨⟨l, tail⟩, hf, he⟩
    obtain ⟨gap, rfl, hgap, hscans⟩ := Lexeme.first?_iff_scans.1 hf
    obtain ⟨rfl, rfl⟩ := Prod.mk.inj he
    refine ⟨gap, l, tail, rfl, hgap, hscans, rfl, ?_⟩
    simp only [byteLength_append]
    omega
  · rintro ⟨gap, l, tail, rfl, hgap, hscans, rfl, rfl⟩
    refine ⟨(l, tail), Lexeme.first?_iff_scans.2 ⟨gap, rfl, hgap, hscans⟩, Prod.ext rfl ?_⟩
    simp only [byteLength_append]
    omega

end

variable {r line} {text : List Char}

theorem Loop.unique {cursor : Nat} {s : σ} {xs ys : List (Reading σ)}
    (h : r.Loop line text cursor s xs) (h' : r.Loop line text cursor s ys) : xs = ys := by
  induction h generalizing ys with
  | stop hn =>
    cases h' with
    | stop _ => rfl
    | step hs _ =>
      rw [hn] at hs
      cases hs
  | step hs _ ih =>
    cases h' with
    | stop hn =>
      rw [hn] at hs
      cases hs
    | step hs' h' =>
      rw [hs] at hs'
      cases hs'
      rw [ih h']

/-- The loop reads the words that cover the rest of a line, and then stops. -/
theorem Loop.of_covers {rest : List Char} {ls : List Lexeme} (h : Covers rest ls) (pre : List Char) (s : σ) :
    r.Loop line (pre ++ rest) (byteLength pre) s (r.readings line s ls) := by
  induction h generalizing pre s with
  | nil hgap => exact .stop ((r.next?_eq_none_iff line pre _ s).2 hgap)
  | @cons gap rest l ls hgap hscans _ ih =>
    have hstep := (r.next?_eq_some_iff line pre (gap ++ (l.text ++ rest)) s).2
      ⟨gap, l, rest, rfl, hgap, hscans, rfl, rfl⟩
    have htail := ih (pre ++ (gap ++ l.text)) (r.read line s l).state
    simp only [List.append_assoc] at hstep htail
    exact .step hstep htail

variable (r line)

/-- **Scanning goes on and covers the line.** From a boundary of two characters
there is nothing to read exactly if only blanks are left. Otherwise a word is
read behind blanks, and the next position is the boundary behind it. So the loop
over a line ends, its only outcome is what is read of the line, and it has one
token for each of the words that cover the line, however few of their characters
count. -/
theorem readAll_covers :
    (∀ pre rest s,
      (r.next? (pre ++ rest) (byteLength pre) line s = none ↔ ∀ c ∈ rest, isBlank c = true) ∧
      ∀ x next, r.next? (pre ++ rest) (byteLength pre) line s = some (x, next) →
        byteLength pre < next ∧ next ≤ byteLength (pre ++ rest) ∧
        ∃ gap l tail, rest = gap ++ (l.text ++ tail) ∧ (∀ c ∈ gap, isBlank c = true) ∧ l.Scans tail ∧
          x = r.read line s l ∧ next = byteLength (pre ++ (gap ++ l.text))) ∧
    ∀ text s, ∃ xs ls, (∀ ys, r.Loop line text 0 s ys ↔ ys = xs) ∧
      r.readAll line s text = (xs.map (·.token), xs.flatMap (·.issues), Reading.after s xs) ∧
      (∀ ms, Covers text ms ↔ ms = ls) ∧
      xs.map (·.token.word.toList) = ls.map fun l => l.text.take r.maxWord := by
  constructor
  · intro pre rest s
    refine ⟨r.next?_eq_none_iff line pre rest s, ?_⟩
    intro x next hnext
    obtain ⟨gap, l, tail, rfl, hgap, hscans, hx, rfl⟩ := (r.next?_eq_some_iff line pre rest s).1 hnext
    obtain ⟨c, cs, htext, _⟩ := hscans.exists_head
    have hpos : 0 < byteLength l.text := byteLength_pos (by rw [htext]; exact List.cons_ne_nil c cs)
    refine ⟨?_, ?_, gap, l, tail, rfl, hgap, hscans, hx, rfl⟩
    · simp only [byteLength_append]
      omega
    · simp only [byteLength_append]
      omega
  · intro text s
    have hloop : r.Loop line text 0 s (r.readings line s (lexemes text)) :=
      .of_covers (covers_lexemes text) [] s
    refine ⟨r.readings line s (lexemes text), lexemes text, fun ys => ?_, r.readAll_eq line s text,
      fun ms => covers_iff, r.map_take_readings line s (lexemes text)⟩
    constructor
    · intro h
      exact h.unique hloop
    · rintro rfl
      exact hloop

end Reader

end NpcScript
