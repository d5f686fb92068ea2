import NpcScript.Proofs.LineTiling
import NpcScript.Proofs.OperatorSpacing
import NpcScript.Token.Reader

/-! # Breaks between words

A loaded line has no blank in its strings, so its words can be told from one
another by blanks and quotes alone. `FirstWord` says what the reader of words
finds at the start of such a text. From this follows that a text may be cut at any gap
outside strings: its words are the words of the two parts. So a space beside an
operator, where there is a gap anyway, changes no word. -/
namespace NpcScript
open NpcScript.Text

theorem openBehind_of_isBlank {gap : List Char} (h : ∀ x ∈ gap, isBlank x = true) (before : Option Char)
    (inString : Bool) : openBehind before inString gap = inString := by
  induction gap generalizing before with
  | nil => rfl
  | cons x gap ih =>
    obtain ⟨hx, hgap⟩ := List.forall_mem_cons.1 h
    rw [openBehind, isDelimiter_eq_false (ne_quote_of_isBlank hx).1, Bool.bne_false, ih hgap]

namespace Tight

variable {before : Option Char} {inString : Bool} {cs xs ys : List Char}

theorem append_iff : Tight before inString (xs ++ ys) ↔
    Tight before inString xs ∧ Tight (xs.getLast?.or before) (openBehind before inString xs) ys := by
  induction xs generalizing before inString with
  | nil => simp [Tight, openBehind]
  | cons x xs ih => rw [List.cons_append, Tight, ih, Tight, getLast?_cons_or, openBehind, and_assoc]

theorem congr {before' : Option Char} (h : ∀ c ∈ cs.head?, isDelimiter before' c = isDelimiter before c) :
    Tight before' inString cs ↔ Tight before inString cs := by
  cases cs with
  | nil => exact Iff.rfl
  | cons c cs => rw [Tight, Tight, h c rfl]

/-- Spaces are put into the code only. -/
theorem spread (h : Tight before inString cs) : Tight before inString (spread before inString cs) := by
  induction cs generalizing before inString with
  | nil => trivial
  | cons c cs ih =>
    obtain ⟨hc, hcs⟩ := h
    rcases spread_cons before inString c cs with ⟨hl, hs, he⟩ | ⟨_, he⟩
    · rw [hs] at hcs
      rw [he]
      refine ⟨hc, ?_⟩
      rw [hs]
      exact (ih ((congr (of_lacksSpace hl).2).2 hcs)).space _
    · rw [he]
      exact ⟨hc, ih hcs⟩

end Tight

/-! ## Open strings -/

/-- A string that is open before a text takes in all of it. -/
structure RunsOn (before : Option Char) (cs : List Char) : Prop where
  solid : Tight before true cs → ∀ x ∈ cs, isBlank x = false
  span (start i : Nat) : spansFrom before (some start) i cs = [⟨start, i + cs.length⟩]

namespace RunsOn

variable {before : Option Char} {c : Char} {cs : List Char}

theorem nil : RunsOn before [] := ⟨fun _ _ hx => absurd hx List.not_mem_nil, fun _ _ => rfl⟩

theorem quote (h : isDelimiter before c = true) : RunsOn before [c] := by
  refine ⟨fun ht => ?_, fun start i => ?_⟩
  · rw [List.forall_mem_singleton]
    exact ht.1 rfl
  · rw [spansFrom_close h]
    rfl

theorem cons (h : isDelimiter before c = false) (hr : RunsOn (some c) cs) : RunsOn before (c :: cs) := by
  refine ⟨fun ht => ?_, fun start i => ?_⟩
  · obtain ⟨hc, hcs⟩ := ht
    rw [h] at hcs
    exact List.forall_mem_cons.2 ⟨hc rfl, hr.solid hcs⟩
  · rw [spansFrom_pass h, hr.span, add_length_cons]

end RunsOn

section

variable {before : Option Char} {n k : Nat} {cs : List Char}

theorem closingFrom_eq_some (h : closingFrom n before cs = some k) :
    ∃ string rest, cs = string ++ rest ∧ k = n + string.length ∧ string.getLast? = some '"' ∧
      openBehind before true string = false ∧ RunsOn before string := by
  induction cs generalizing n before with
  | nil => cases h
  | cons c cs ih =>
    rw [closingFrom] at h
    split at h
    · rename_i hd
      cases h
      refine ⟨[c], cs, rfl, rfl, ?_, ?_, .quote hd⟩
      · rw [List.getLast?_singleton, eq_quote_of_isDelimiter hd]
      · rw [openBehind, hd]
        rfl
    · rename_i hd
      rw [Bool.not_eq_true] at hd
      obtain ⟨string, rest, rfl, rfl, hlast, hopen, hrun⟩ := ih h
      refine ⟨c :: string, rest, rfl, ?_, ?_, ?_, .cons hd hrun⟩
      · rw [add_length_cons]
      · rw [List.getLast?_cons, hlast]
        rfl
      · rw [openBehind, hd]
        exact hopen

theorem closingFrom_eq_none (h : closingFrom n before cs = none) :
    openBehind before true cs = true ∧ RunsOn before cs := by
  induction cs generalizing n before with
  | nil => exact ⟨rfl, .nil⟩
  | cons c cs ih =>
    rw [closingFrom] at h
    split at h
    · cases h
    · rename_i hd
      rw [Bool.not_eq_true] at hd
      obtain ⟨hopen, hrun⟩ := ih h
      refine ⟨?_, .cons hd hrun⟩
      rw [openBehind, hd]
      exact hopen

theorem closingFrom_append (h : closingFrom n before cs = some k) (ys : List Char) :
    closingFrom n before (cs ++ ys) = some k := by
  induction cs generalizing n before with
  | nil => cases h
  | cons c cs ih =>
    rw [closingFrom] at h
    rw [List.cons_append, closingFrom]
    split at h
    · rename_i hd
      rw [if_pos hd, h]
    · rename_i hd
      rw [if_neg hd, ih h]

/-- To the reader of words nothing stands before a string, and to a line its
quote does. -/
theorem closingFrom_none_before (n : Nat) (cs : List Char) :
    closingFrom n none cs = closingFrom n (some '"') cs := by
  cases cs with
  | nil => rfl
  | cons c cs =>
    have hsame : isDelimiter none c = isDelimiter (some '"') c := isDelimiter_congr (by decide) c
    rw [closingFrom, closingFrom, hsame]

end

/-! ## The first word -/

/-- What is left of a text behind a run of characters starts with a blank. -/
theorem all_head?_dropWhile (cs : List Char) :
    (cs.dropWhile fun d => !isBlank d).head?.all isBlank = true := by
  have hhead := List.head?_dropWhile_not (fun d => !isBlank d) cs
  cases hrest : (cs.dropWhile fun d => !isBlank d).head? with
  | none => rfl
  | some d =>
    rw [hrest] at hhead
    simpa using hhead

/-- A text of which words can be read: it starts in the code, and a quote at its
start is not escaped. -/
structure ReadyAfter (before : Option Char) (cs : List Char) : Prop where
  tight : Tight before false cs
  quote : cs.head? = some '"' → before ≠ some '\\'

/-- A word that follows `before`. If it starts with a quote it is one string, and
no other word is an unclosed string. -/
structure IsWord (before : Option Char) (l : Lexeme) : Prop where
  ne_nil : l.text ≠ []
  solid : ∀ x ∈ l.text, isBlank x = false
  quoted : l.text.head? = some '"' → l.unclosed = openBehind before false l.text ∧
    ∀ i, spansFrom before none i l.text = [⟨i, i + l.text.length⟩]
  plain : l.text.head? ≠ some '"' → l.unclosed = false

/-- A word behind which words can be read from `rest`. -/
structure FirstWord (before : Option Char) (l : Lexeme) (rest : List Char) : Prop
    extends IsWord before l where
  ready : ReadyAfter (l.text.getLast?.or before) rest
  closed : rest ≠ [] → openBehind before false l.text = false

theorem IsWord.unclosed_eq_false {before : Option Char} {l : Lexeme} (h : IsWord before l)
    (hs : openBehind before false l.text = false) : l.unclosed = false := by
  by_cases hq : l.text.head? = some '"'
  · rw [(h.quoted hq).1, hs]
  · exact h.plain hq

/-- A text that ends in a blank does not end with a word. -/
theorem IsWord.rest_of_blank_end {before : Option Char} {l : Lexeme} (h : IsWord before l)
    {gap rest : List Char} (hlast : (gap ++ (l.text ++ rest)).getLast?.all isBlank = true) :
    rest ≠ [] ∧ rest.getLast?.all isBlank = true := by
  have hne : rest ≠ [] := by
    rintro rfl
    have hx := List.getLast?_eq_some_getLast h.ne_nil
    have hsolid := h.solid _ (List.mem_of_getLast? hx)
    rw [List.append_nil, List.getLast?_append, hx, Option.some_or, Option.all_some, hsolid] at hlast
    cases hlast
  rw [← List.append_assoc, List.getLast?_append_of_ne_nil _ hne] at hlast
  exact ⟨hne, hlast⟩

namespace FirstWord

variable {before : Option Char} {rest : List Char}

/-- A string, closed or not. -/
theorem ofString {string : List Char} (hb : before ≠ some '\\') (hs : Tight (some '"') true string)
    (hrun : RunsOn (some '"') string) (hready : ReadyAfter (string.getLast?.or (some '"')) rest)
    (hrest : rest ≠ [] → openBehind (some '"') true string = false) :
    FirstWord before ⟨'"' :: string, openBehind (some '"') true string⟩ rest := by
  have hd : isDelimiter before '"' = true := by simp [isDelimiter, hb]
  have hopen : openBehind before false ('"' :: string) = openBehind (some '"') true string := by
    rw [openBehind, hd]
    rfl
  refine ⟨⟨List.cons_ne_nil _ _, List.forall_mem_cons.2 ⟨rfl, hrun.solid hs⟩, ?_, ?_⟩, ?_, ?_⟩
  · intro _
    refine ⟨hopen.symm, fun i => ?_⟩
    rw [spansFrom_open hd, hrun.span, add_length_cons]
  · exact fun h => absurd rfl h
  · rw [getLast?_cons_or]
    exact hready
  · rw [hopen]
    exact hrest

/-- A word that is no string. A blank ends it, and no string is open there. -/
theorem ofPlain {c : Char} {word : List Char} (hc : c ≠ '"') (hw : ∀ x ∈ c :: word, isBlank x = false)
    (ht : Tight before false (c :: word ++ rest)) (hrest : rest.head?.all isBlank = true) :
    FirstWord before ⟨c :: word, false⟩ rest := by
  have hword : IsWord before ⟨c :: word, false⟩ :=
    ⟨List.cons_ne_nil _ _, hw, fun h => absurd (Option.some.inj h) hc, fun _ => rfl⟩
  have htight := (Tight.append_iff.1 ht).2
  cases rest with
  | nil => exact ⟨hword, ⟨trivial, by simp⟩, fun h => absurd rfl h⟩
  | cons d rest =>
    rw [List.head?_cons, Option.all_some] at hrest
    have hclosed : openBehind before false (c :: word) = false := by
      rw [← Bool.not_eq_true]
      intro hopen
      rw [htight.1 hopen] at hrest
      cases hrest
    rw [hclosed] at htight
    refine ⟨hword, ⟨htight, ?_⟩, fun _ => hclosed⟩
    exact fun h => absurd (Option.some.inj h) (ne_quote_of_isBlank hrest).1

end FirstWord

namespace ReadyAfter

variable {before : Option Char} {c : Char} {cs : List Char}

theorem split (h : ReadyAfter before (c :: cs)) (hc : isBlank c = false) :
    FirstWord before (Lexeme.split (c :: cs)).1 (Lexeme.split (c :: cs)).2 := by
  rw [Lexeme.split]
  split
  · rename_i hquote
    subst hquote
    have hb := h.quote rfl
    have htight := h.tight.2
    have hd : isDelimiter before '"' = true := by simp [isDelimiter, hb]
    rw [hd, Bool.false_bne] at htight
    rw [closingFrom_none_before]
    split
    · rename_i hn
      obtain ⟨string, rest, rfl, rfl, hlast, hopen, hrun⟩ := closingFrom_eq_some hn
      obtain ⟨hs, hrest⟩ := Tight.append_iff.1 htight
      rw [hopen] at hrest
      have hready : ReadyAfter (string.getLast?.or (some '"')) rest := by
        refine ⟨hrest, fun _ => ?_⟩
        rw [hlast]
        decide
      have hword := FirstWord.ofString hb hs hrun hready fun _ => hopen
      rw [hopen] at hword
      rw [Nat.zero_add, List.take_left, List.drop_left]
      exact hword
    · rename_i hn
      obtain ⟨hopen, hrun⟩ := closingFrom_eq_none hn
      have hready : ReadyAfter (cs.getLast?.or (some '"')) [] := ⟨trivial, by simp⟩
      have hword := FirstWord.ofString hb htight hrun hready fun h => absurd rfl h
      rw [hopen] at hword
      exact hword
  · rename_i hquote
    refine FirstWord.ofPlain hquote ?_ ?_ ?_
    · refine List.forall_mem_cons.2 ⟨hc, fun x hx => ?_⟩
      have := List.mem_takeWhile_imp hx
      simpa using this
    · rw [List.cons_append, List.takeWhile_append_dropWhile]
      exact h.tight
    · exact all_head?_dropWhile cs

/-- Blanks at the start do not matter. -/
theorem trim (h : ReadyAfter before cs) :
    ∃ gap, cs = gap ++ trimStart cs ∧ (∀ x ∈ gap, isBlank x = true) ∧
      ReadyAfter (gap.getLast?.or before) (trimStart cs) := by
  have hcs : cs = cs.takeWhile isBlank ++ trimStart cs := List.takeWhile_append_dropWhile.symm
  have hgap : ∀ x ∈ cs.takeWhile isBlank, isBlank x = true := fun x hx => List.mem_takeWhile_imp hx
  refine ⟨cs.takeWhile isBlank, hcs, hgap, ?_, ?_⟩
  · have ht := h.tight
    rw [hcs] at ht
    have hrest := (Tight.append_iff.1 ht).2
    rwa [openBehind_of_isBlank hgap] at hrest
  · intro hq
    cases hlast : (cs.takeWhile isBlank).getLast? with
    | none =>
      rw [List.getLast?_eq_none_iff] at hlast
      rw [hlast, List.nil_append] at hcs
      rw [← hcs] at hq
      exact h.quote hq
    | some x =>
      have hx := hgap x (List.mem_of_getLast? hlast)
      exact fun he => (ne_quote_of_isBlank hx).2 (Option.some.inj he)

/-- What the first word is, and what stands before and behind it. -/
theorem first {l : Lexeme} {rest : List Char} (h : ReadyAfter before cs)
    (hf : Lexeme.first? cs = some (l, rest)) :
    ∃ gap, cs = gap ++ (l.text ++ rest) ∧ (∀ x ∈ gap, isBlank x = true) ∧
      FirstWord (gap.getLast?.or before) l rest := by
  obtain ⟨gap, hcs, hgap, hready⟩ := h.trim
  unfold Lexeme.first? at hf
  split at hf
  · cases hf
  · rename_i c cs' hc
    have hblank : isBlank c = false := by
      have hhead := List.head?_dropWhile_not isBlank cs
      rw [← trimStart, hc] at hhead
      exact hhead
    rw [hc] at hcs hready
    have htext := Lexeme.split_text (c :: cs')
    have hword := hready.split hblank
    rw [Option.some.inj hf] at htext hword
    exact ⟨gap, by rw [hcs, htext], hgap, hword⟩

end ReadyAfter

/-! ## Cutting a text in two -/

/-- Only blanks are left. -/
theorem Lexeme.first?_eq_none_iff {cs : List Char} : Lexeme.first? cs = none ↔ trimStart cs = [] := by
  unfold Lexeme.first?
  split
  · rename_i h
    exact iff_of_true rfl h
  · rename_i h
    rw [h]
    exact iff_of_false (by simp) (by simp)

/-- Words depend on the text behind the blanks at its start. -/
theorem lexemes_congr {xs ys : List Char} (h : trimStart xs = trimStart ys) : lexemes xs = lexemes ys := by
  have hf : Lexeme.first? xs = Lexeme.first? ys := by
    rw [Lexeme.first?, Lexeme.first?, h]
  cases hx : Lexeme.first? xs with
  | none =>
    rw [hx] at hf
    rw [lexemes_of_none hx, lexemes_of_none hf.symm]
  | some p =>
    rw [hx] at hf
    exact (lexemes_cons hx).trans (lexemes_cons hf.symm).symm

theorem lexemes_space (cs : List Char) : lexemes (' ' :: cs) = lexemes cs :=
  lexemes_congr rfl

/-- A run of characters ends where it did if what is added does not go on with it. -/
theorem span_append {p : Char → Bool} {cs ys : List Char}
    (h : cs.dropWhile p ≠ [] ∨ ys.head?.all (fun d => !p d) = true) :
    (cs ++ ys).takeWhile p = cs.takeWhile p ∧ (cs ++ ys).dropWhile p = cs.dropWhile p ++ ys := by
  induction cs with
  | nil =>
    have hy : ys.head?.all (fun d => !p d) = true := h.resolve_left fun hne => hne rfl
    cases ys with
    | nil => exact ⟨rfl, rfl⟩
    | cons y ys =>
      have hp : p y = false := by simpa using hy
      simp [hp]
  | cons c cs ih =>
    cases hc : p c with
    | false => simp [hc]
    | true =>
      rw [List.dropWhile_cons_of_pos hc] at h
      obtain ⟨htake, hdrop⟩ := ih h
      simp [hc, htake, hdrop]

namespace Lexeme

variable {xs rest : List Char} {l : Lexeme}

/-- A word stays as it is if what is added can neither be part of it nor close it. -/
theorem split_append {c : Char} {cs : List Char} (hs : split (c :: cs) = (l, rest)) (ys : List Char)
    (hu : l.unclosed = false) (hgap : rest ≠ [] ∨ ys.head?.all isBlank = true) :
    split (c :: (cs ++ ys)) = (l, rest ++ ys) := by
  rw [split] at hs
  rw [split]
  split at hs
  · rename_i hquote
    rw [if_pos hquote]
    split at hs
    · rename_i n hn
      obtain ⟨string, tail, rfl, rfl, _⟩ := closingFrom_eq_some hn
      cases hs
      rw [closingFrom_append hn]
      simp
    · cases hs
      cases hu
  · rename_i hquote
    cases hs
    have hend : (cs.dropWhile fun d => !isBlank d) ≠ [] ∨ ys.head?.all (fun d => !!isBlank d) = true := by
      simpa using hgap
    obtain ⟨htake, hdrop⟩ := span_append hend
    rw [if_neg hquote, htake, hdrop]

theorem first?_append (hf : first? xs = some (l, rest)) (ys : List Char) (hu : l.unclosed = false)
    (hgap : rest ≠ [] ∨ ys.head?.all isBlank = true) :
    first? (xs ++ ys) = some (l, rest ++ ys) := by
  unfold first? at hf
  split at hf
  · cases hf
  · rename_i c cs hc
    have htrim : trimStart (xs ++ ys) = c :: (cs ++ ys) := by
      rw [trimStart, (span_append (.inl (by rw [← trimStart, hc]; simp))).2, ← trimStart, hc, List.cons_append]
    unfold first?
    rw [htrim]
    exact congrArg some (split_append (Option.some.inj hf) ys hu hgap)

end Lexeme

/-- **Words of two parts.** A text that is cut at a gap outside strings has the
words of both parts. -/
theorem lexemes_append {before : Option Char} {xs : List Char} (h : ReadyAfter before xs)
    (hcode : openBehind before false xs = false) {ys : List Char}
    (hgap : xs.getLast?.all isBlank = true ∨ ys.head?.all isBlank = true) :
    lexemes (xs ++ ys) = lexemes xs ++ lexemes ys := by
  induction hn : xs.length using Nat.strongRecOn generalizing xs before with
  | ind n ih =>
    cases hf : Lexeme.first? xs with
    | none =>
      have hblank := Lexeme.first?_eq_none_iff.1 hf
      have htrim : trimStart (xs ++ ys) = trimStart ys := by
        rw [trimStart, List.dropWhile_append, ← trimStart, hblank]
        rfl
      rw [lexemes_of_none hf, List.nil_append, lexemes_congr htrim]
    | some p =>
      obtain ⟨l, rest⟩ := p
      obtain ⟨gap, hxs, hblank, hword⟩ := h.first hf
      have hlen := Lexeme.first?_length hf
      -- behind the word the same holds of the rest
      have hopen : openBehind before false xs =
          openBehind (l.text.getLast?.or (gap.getLast?.or before))
            (openBehind (gap.getLast?.or before) false l.text) rest := by
        rw [hxs, openBehind_append, openBehind_of_isBlank hblank, openBehind_append]
      have hclosed : openBehind (gap.getLast?.or before) false l.text = false := by
        by_cases hr : rest = []
        · subst hr
          rw [hcode] at hopen
          exact hopen.symm
        · exact hword.closed hr
      rw [hclosed, hcode] at hopen
      -- a blank before the seam stands behind this word
      have hbehind : xs.getLast?.all isBlank = true → rest ≠ [] ∧ rest.getLast?.all isBlank = true := by
        intro hx
        rw [hxs] at hx
        exact hword.rest_of_blank_end hx
      have hseam : rest ≠ [] ∨ ys.head?.all isBlank = true := hgap.imp_left fun hx => (hbehind hx).1
      have hgap' : rest.getLast?.all isBlank = true ∨ ys.head?.all isBlank = true :=
        hgap.imp_left fun hx => (hbehind hx).2
      have happ := Lexeme.first?_append hf ys (hword.unclosed_eq_false hclosed) hseam
      rw [lexemes_cons happ, lexemes_cons hf, List.cons_append]
      rw [ih rest.length (by omega) hword.ready hopen.symm hgap' rfl]

/-! ## Spaces beside operators -/

section

variable (before : Option Char) (inString : Bool)

theorem getLast?_spread (cs : List Char) : (spread before inString cs).getLast? = cs.getLast? := by
  induction cs generalizing before inString with
  | nil => rfl
  | cons c cs ih =>
    rcases spread_cons before inString c cs with ⟨hl, _, he⟩ | ⟨_, he⟩
    · rw [he, List.getLast?_cons, List.getLast?_cons, ih, List.getLast?_cons]
      cases cs with
      | nil => simp [lacksSpace] at hl
      | cons d cs => simp [List.getLast?_cons]
    · rw [he, List.getLast?_cons, ih, List.getLast?_cons]

theorem openBehind_congr {before before' : Option Char} {cs : List Char}
    (h : ∀ c ∈ cs.head?, isDelimiter before' c = isDelimiter before c) :
    openBehind before' inString cs = openBehind before inString cs := by
  cases cs with
  | nil => rfl
  | cons c cs => rw [openBehind, openBehind, h c rfl]

theorem openBehind_spread (cs : List Char) :
    openBehind before inString (spread before inString cs) = openBehind before inString cs := by
  induction cs generalizing before inString with
  | nil => rfl
  | cons c cs ih =>
    rcases spread_cons before inString c cs with ⟨hl, hs, he⟩ | ⟨_, he⟩
    · rw [he, openBehind, openBehind, openBehind, hs, isDelimiter_eq_false (by decide), Bool.bne_false, ih]
      exact openBehind_congr false (of_lacksSpace hl).2
    · rw [he, openBehind, openBehind, ih]

/-- The gap between two parts is one of the gaps of the whole. -/
theorem spread_append (xs ys : List Char) :
    spread before inString (xs ++ ys) =
      spread before inString xs ++
        ((xs.getLast?.elim [] fun c => gapSpace (openBehind before inString xs) c ys.head?) ++
          spread (xs.getLast?.or before) (openBehind before inString xs) ys) := by
  induction xs generalizing before inString with
  | nil => rfl
  | cons c xs ih =>
    cases xs with
    | nil => simp [spread, openBehind, gapSpace, lacksSpace]
    | cons d xs =>
      have hspread (zs : List Char) : spread before inString (c :: d :: zs) =
          c :: (gapSpace (inString != isDelimiter before c) c (some d) ++
            spread (some c) (inString != isDelimiter before c) (d :: zs)) := rfl
      have hopen : openBehind before inString (c :: d :: xs) =
          openBehind (some c) (inString != isDelimiter before c) (d :: xs) := rfl
      have hrest := ih (some c) (inString != isDelimiter before c)
      rw [List.cons_append] at hrest
      rw [List.cons_append, List.cons_append, hspread, hrest, hspread, hopen, getLast?_cons_or c,
        List.getLast?_cons_cons, List.cons_append, List.append_assoc]

end

/-- At a seam beside an operator outside strings, the character before the seam
does not escape a quote behind it. -/
theorem isDelimiter_seam {a b : List Char}
    (hop : a.getLast?.any isOperator = true ∨ b.head?.any isOperator = true) :
    ∀ d ∈ b.head?, isDelimiter (some ' ') d = isDelimiter a.getLast? d := by
  intro d hd
  rcases hop with hop | hop
  · refine isDelimiter_congr (iff_of_false (by decide) ?_) d
    intro hc
    rw [hc] at hop
    cases hop
  · rw [Option.mem_def.1 hd, Option.any_some] at hop
    have hquote := (isBlank_of_isOperator hop).2.2
    rw [isDelimiter_eq_false hquote, isDelimiter_eq_false hquote]

/-- Such a seam gets a space, or it has a blank at one side, or there is only one side. -/
theorem seam_cases {last next : Option Char}
    (hop : last.any isOperator = true ∨ next.any isOperator = true) :
    (last.elim [] fun c => gapSpace false c next) = [' '] ∨
      (last.elim [] fun c => gapSpace false c next) = [] ∧
        (last.all isBlank = true ∨ next.all isBlank = true) := by
  cases last with
  | none => exact .inr ⟨rfl, .inl rfl⟩
  | some c =>
    cases next with
    | none => exact .inr ⟨by simp [gapSpace, lacksSpace], .inr rfl⟩
    | some d =>
      have hor : (isOperator c || isOperator d) = true := by simpa using hop
      cases hc : isBlank c with
      | true => exact .inr ⟨by simp [gapSpace, lacksSpace, hc], .inl hc⟩
      | false =>
        cases hd : isBlank d with
        | true => exact .inr ⟨by simp [gapSpace, lacksSpace, hd], .inr hd⟩
        | false => exact .inl (gapSpace_of_lacks (by simp [lacksSpace, hc, hd, hor]))

/-- A space between two parts is read like no space there. -/
theorem lexemes_space_optional {a b : List Char} (ht : Tight none false (a ++ b))
    (hs : openBehind none false a = false)
    (hop : a.getLast?.any isOperator = true ∨ b.head?.any isOperator = true) :
    lexemes (spaceOperators (a ++ ' ' :: b)) = lexemes (spaceOperators (a ++ b)) := by
  have hready : ReadyAfter none (spread none false a) :=
    ⟨(Tight.append_iff.1 ht).1.spread, fun _ => by decide⟩
  have hcode : openBehind none false (spread none false a) = false := by
    rw [openBehind_spread, hs]
  -- the second part is spaced alike behind the space and behind the first part
  have hb : spread a.getLast? false (' ' :: b) = ' ' :: spread a.getLast? false b := by
    rw [spread, gapSpace_of_not (lacksSpace_space _), isDelimiter_eq_false (by decide), Bool.bne_false,
      spread_congr (isDelimiter_seam hop)]
    rfl
  have hnone : (a.getLast?.elim [] fun c => gapSpace false c (' ' :: b).head?) = [] := by
    cases a.getLast? with
    | none => rfl
    | some c => exact gapSpace_of_not lacksSpace_of_space
  have hspaced : spaceOperators (a ++ ' ' :: b) = spread none false a ++ ' ' :: spread a.getLast? false b := by
    rw [spaceOperators_eq_spread, spread_append, hs, Option.or_none, hb, hnone, List.nil_append]
  rw [hspaced, spaceOperators_eq_spread, spread_append, hs, Option.or_none]
  rcases seam_cases hop with hspace | ⟨hspace, hblank⟩
  · rw [hspace, List.singleton_append]
  · rw [hspace, List.nil_append, lexemes_append hready hcode (.inr rfl), lexemes_space]
    rw [lexemes_append hready hcode]
    rwa [getLast?_spread, head?_spread]

/-- What the operator beside a seam tells about the two parts. -/
theorem of_operatorAt_seam {a b : List Char}
    (h : a ≠ [] ∧ operatorAt (a ++ b) (a.length - 1) = true ∨ operatorAt (a ++ b) a.length = true) :
    openBehind none false a = false ∧
      (a.getLast?.any isOperator = true ∨ b.head?.any isOperator = true) := by
  rcases h with ⟨hne, hop⟩ | hop
  · obtain ⟨pre, c, rfl⟩ := (List.eq_nil_or_concat a).resolve_left hne
    have hlen : (pre.concat c).length - 1 = pre.length := by simp
    rw [hlen, List.concat_eq_append, List.append_assoc, List.singleton_append, operatorAt_append,
      Bool.and_eq_true, Bool.not_eq_true'] at hop
    obtain ⟨hc, hs⟩ := hop
    rw [List.concat_eq_append, openBehind_concat, hs, isDelimiter_eq_false (isBlank_of_isOperator hc).2.2]
    refine ⟨rfl, .inl ?_⟩
    rw [List.getLast?_concat]
    exact hc
  · cases b with
    | nil => simp [operatorAt] at hop
    | cons d b =>
      rw [operatorAt_append, Bool.and_eq_true, Bool.not_eq_true'] at hop
      exact ⟨hop.2, .inr hop.1⟩

namespace SourceLine

theorem exists_body_of_load {source : List Char} {cursor maxLen next : Nat} {line : SourceLine}
    (h : load? source cursor maxLen = some (line, next)) : ∃ body, line = ofBody maxLen body := by
  obtain ⟨s, _, hline⟩ := exists_segment_of_load maxLen h
  exact ⟨s.body, hline⟩

theorem readyAfter_spaceOperators (maxLen : Nat) (body : List Char) :
    ReadyAfter none (spaceOperators (ofBody maxLen body).text) := by
  rw [spaceOperators_eq_spread]
  exact ⟨(tight_text maxLen body).spread, fun _ => by decide⟩

/-- No word of a line holds a blank or a control character, string or not. -/
theorem of_mem_lexemes {maxLen : Nat} {body : List Char} {l : Lexeme}
    (hl : l ∈ lexemes (spaceOperators (ofBody maxLen body).text)) {x : Char} (hx : x ∈ l.text) :
    isBlank x = false ∧ isControl x = false := by
  have step (cs : List Char) (word : Lexeme) (rest : List Char) (hcs : ∃ before, ReadyAfter before cs)
      (hf : Lexeme.first? cs = some (word, rest)) :
      (∀ y ∈ word.text, isBlank y = false) ∧ ∃ before, ReadyAfter before rest := by
    obtain ⟨before, hready⟩ := hcs
    obtain ⟨gap, _, _, hword⟩ := hready.first hf
    exact ⟨hword.solid, _, hword.ready⟩
  refine ⟨forall_mem_lexemes step ⟨none, readyAfter_spaceOperators maxLen body⟩ l hl x hx, ?_⟩
  rcases mem_of_mem_spaceOperators ((isInfix_of_mem_lexemes hl).subset hx) with rfl | hx
  · rfl
  · exact isControl_of_mem_text hx

end SourceLine

namespace Reader

variable {σ : Type} (r : Reader σ) (number : LineNumber) (s : σ)

/-- **Spaces around operators are optional.** Of a line that was loaded, one that
has a space more beside an operator outside strings is read alike: as the same
tokens, with the same problems, and the host ends in the same state. -/
theorem readAll_space_optional {source : List Char} {cursor maxLen next : Nat} {line : SourceLine}
    {a b : List Char} (hload : SourceLine.load? source cursor maxLen = some (line, next))
    (htext : line.text = a ++ b)
    (hop : a ≠ [] ∧ operatorAt line.text (a.length - 1) = true ∨ operatorAt line.text a.length = true) :
    r.readAll number s (spaceOperators (a ++ ' ' :: b)) = r.readAll number s (spaceOperators (a ++ b)) := by
  obtain ⟨body, rfl⟩ := SourceLine.exists_body_of_load hload
  have ht := SourceLine.tight_text maxLen body
  rw [htext] at ht hop
  obtain ⟨hs, hside⟩ := of_operatorAt_seam hop
  rw [readAll, readAll, lexemes_space_optional ht hs hside]

/-- The operator behind a string that has one itself. -/
theorem readAll_space_optional_string :
    SourceLine.load? "x=\"a+b\"+1\n".toList 0 80 = some (⟨"x=\"a+b\"+1".toList, 0, false⟩, 10) ∧
    operatorAt "x=\"a+b\"+1".toList 7 = true ∧
    (Reader.mk (.ofList []) (Host.ofTables ⟨[]⟩) 32).readAll 1 ⟨#[]⟩ (spaceOperators "x=\"a+b\" +1".toList) =
      (Reader.mk (.ofList []) (Host.ofTables ⟨[]⟩) 32).readAll 1 ⟨#[]⟩ (spaceOperators "x=\"a+b\"+1".toList) := by
  have hload : SourceLine.load? "x=\"a+b\"+1\n".toList 0 80 =
      some (⟨"x=\"a+b\"+1".toList, 0, false⟩, 10) := by decide
  have hop : operatorAt "x=\"a+b\"+1".toList 7 = true := by decide
  exact ⟨hload, hop,
    readAll_space_optional _ 1 _ (a := "x=\"a+b\"".toList) (b := "+1".toList) hload (by decide) (.inr hop)⟩

end Reader

end NpcScript
