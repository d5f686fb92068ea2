import NpcScript.Proofs.Meaning
import NpcScript.Proofs.RightSide
import NpcScript.Proofs.WordBreaks

/-! # Places of words

Words are read from a spaced line, but they can be found in the line as it was
before. `Cut` goes through that line and names the place of every word. What is
known of words follows from it by one induction each: together they are all that
is not blank, none ends or starts inside a string, a quote starts a word only
where it starts a string, and every operator of the code is alone. -/
namespace NpcScript
open NpcScript.Text

/-! ## Back from the spaced line -/

section

variable {before : Option Char} {inString : Bool} {cs gap word rest : List Char}

/-- Blanks at the start were there before. -/
theorem of_spread_blank (h : spread before inString cs = gap ++ rest) (hg : ∀ x ∈ gap, isBlank x = true) :
    ∃ tail, cs = gap ++ tail ∧ rest = spread (gap.getLast?.or before) inString tail := by
  induction gap generalizing before cs with
  | nil => exact ⟨cs, rfl, h.symm⟩
  | cons x gap ih =>
    obtain ⟨hx, hgap⟩ := List.forall_mem_cons.1 hg
    cases cs with
    | nil => cases h
    | cons c cs =>
      rw [spread, List.cons_append, List.cons.injEq] at h
      obtain ⟨rfl, h⟩ := h
      have hl : lacksSpace (inString != isDelimiter before c) c cs.head? = false := by simp [lacksSpace, hx]
      rw [gapSpace_of_not hl, isDelimiter_eq_false (ne_quote_of_isBlank hx).1, Bool.bne_false,
        List.nil_append] at h
      obtain ⟨tail, rfl, htail⟩ := ih h hgap
      rw [getLast?_cons_or]
      exact ⟨tail, rfl, htail⟩

/-- A word at the start was there before, and no gap in it lacks a space. What
follows it is what followed it before, or a space that is new. -/
theorem of_spread_solid (h : spread before inString cs = word ++ rest) (hw : ∀ x ∈ word, isBlank x = false) :
    ∃ tail, cs = word ++ tail ∧ Parted before inString word ∧
      (rest = spread (word.getLast?.or before) (openBehind before inString word) tail ∨
        rest = ' ' :: spread (word.getLast?.or before) (openBehind before inString word) tail ∧
          ∀ d ∈ tail.head?, isDelimiter (some ' ') d = isDelimiter (word.getLast?.or before) d) := by
  induction word generalizing before inString cs with
  | nil => exact ⟨cs, rfl, trivial, .inl h.symm⟩
  | cons x word ih =>
    have hword := (List.forall_mem_cons.1 hw).2
    cases cs with
    | nil => cases h
    | cons c cs =>
      rw [spread, List.cons_append, List.cons.injEq] at h
      obtain ⟨rfl, h⟩ := h
      rw [getLast?_cons_or, openBehind]
      cases hl : lacksSpace (inString != isDelimiter before c) c cs.head? with
      | true =>
        rw [gapSpace_of_lacks hl, List.singleton_append] at h
        cases word with
        | nil =>
          refine ⟨cs, rfl, ⟨by simp [lacksSpace], trivial⟩, .inr ⟨h.symm, ?_⟩⟩
          exact (of_lacksSpace hl).2
        | cons y word =>
          -- the space that is new would be in the word
          rw [List.cons_append, List.cons.injEq] at h
          have hy := (List.forall_mem_cons.1 hword).1
          rw [← h.1] at hy
          cases hy
      | false =>
        rw [gapSpace_of_not hl, List.nil_append] at h
        obtain ⟨tail, rfl, hparted, htail⟩ := ih h hword
        refine ⟨tail, rfl, ⟨?_, hparted⟩, htail⟩
        cases word with
        | nil => simp [lacksSpace]
        | cons y word => exact hl

/-! ## Words of a line -/

theorem of_append_eq_append_cons {xs ys pre post : List Char} {c : Char} (h : xs ++ ys = pre ++ c :: post) :
    (∃ post', xs = pre ++ c :: post') ∨ ∃ pre', pre = xs ++ pre' ∧ ys = pre' ++ c :: post := by
  rcases List.append_eq_append_iff.1 h with ⟨pre', hpre, hys⟩ | ⟨bs, rfl, hbs⟩
  · exact .inr ⟨pre', hpre, hys⟩
  · cases bs with
    | nil => exact .inr ⟨[], by simp, hbs.symm⟩
    | cons b bs =>
      rw [List.cons_append, List.cons.injEq] at hbs
      rw [hbs.1]
      exact .inl ⟨bs, rfl⟩

theorem spansFrom_of_isBlank {i : Nat} (hg : ∀ x ∈ gap, isBlank x = true) :
    spansFrom before none i gap = [] := by
  induction gap generalizing before i with
  | nil => rfl
  | cons x gap ih =>
    obtain ⟨hx, hgap⟩ := List.forall_mem_cons.1 hg
    rw [spansFrom_pass (isDelimiter_eq_false (ne_quote_of_isBlank hx).1 before), ih hgap]

/-- The strings of a text are those of its first word and those behind it. -/
theorem spansFrom_word {i : Nat} (hg : ∀ x ∈ gap, isBlank x = true)
    (hw : rest ≠ [] → openBehind (gap.getLast?.or before) false word = false) :
    spansFrom before none i (gap ++ (word ++ rest)) =
      spansFrom (gap.getLast?.or before) none (i + gap.length) word ++
        spansFrom (word.getLast?.or (gap.getLast?.or before)) none (i + gap.length + word.length) rest := by
  rw [spansFrom_append gap _ (openBehind_of_isBlank hg before false), spansFrom_of_isBlank hg, List.nil_append]
  by_cases hr : rest = []
  · rw [hr, List.append_nil, spansFrom, Option.map_none, Option.toList_none, List.append_nil]
  · rw [spansFrom_append word rest (hw hr)]

theorem exists_getLast?_spansFrom (h : openBehind before false cs = true) (i : Nat) :
    ∃ q, (spansFrom before none i cs).getLast? = some q := by
  suffices hne : spansFrom before none i cs ≠ [] from ⟨_, List.getLast?_eq_some_getLast hne⟩
  induction cs generalizing before i with
  | nil => cases h
  | cons c cs ih =>
    rw [openBehind] at h
    cases hd : isDelimiter before c with
    | true =>
      obtain ⟨stop, rest, he, _⟩ := exists_spansFrom_some (some c) i (i + 1) cs
      rw [spansFrom_open hd, he]
      exact List.cons_ne_nil _ _
    | false =>
      rw [hd] at h
      rw [spansFrom_pass hd]
      exact ih h (i + 1)

/-- A word in which the line ends is an unclosed string if the string starts with it. -/
theorem IsWord.unclosed_iff {l : Lexeme} (h : IsWord before l) (ho : openBehind before false l.text = true)
    (i : Nat) :
    l.unclosed = true ↔ ∃ q, (spansFrom before none i l.text).getLast? = some q ∧ i = q.start := by
  by_cases hq : l.text.head? = some '"'
  · obtain ⟨hu, hspan⟩ := h.quoted hq
    rw [hu, ho, hspan]
    simp
  · rw [h.plain hq]
    refine iff_of_false Bool.false_ne_true ?_
    rintro ⟨q, hlast, rfl⟩
    have hmem := List.mem_of_getLast? hlast
    obtain ⟨c, cs, hc⟩ := List.exists_cons_of_ne_nil h.ne_nil
    rw [hc] at hq hmem
    have hd : isDelimiter before c = false := isDelimiter_eq_false (fun he => hq (by rw [he]; rfl)) before
    rw [spansFrom_pass hd] at hmem
    have hstart : q.start + 1 ≤ q.start := (bounds_of_mem_spansFrom (by simp) hmem).1
    omega

/-- An operator of the code in a word without blanks is that word. -/
theorem Parted.operator_alone {pre post : List Char} {c : Char}
    (h : Parted before inString (pre ++ c :: post)) (hb : ∀ x ∈ pre ++ c :: post, isBlank x = false)
    (hc : isOperator c = true) (hs : openBehind before inString pre = false) : pre = [] ∧ post = [] := by
  induction pre generalizing before inString with
  | nil =>
    rw [openBehind] at hs
    have hl := h.1
    rw [isDelimiter_eq_false (isBlank_of_isOperator hc).2.2, hs] at hl
    cases post with
    | nil => exact ⟨rfl, rfl⟩
    | cons d post =>
      have hd : isBlank d = false := hb d (by simp)
      simp [lacksSpace, (isBlank_of_isOperator hc).1, hd, hc] at hl
  | cons x pre ih =>
    rw [openBehind] at hs
    obtain ⟨rfl, rfl⟩ := ih h.2 (List.forall_mem_cons.1 hb).2 hs
    -- between the character before the operator and the operator a space is lacking
    have hl := h.1
    rw [openBehind] at hs
    have hx : isBlank x = false := hb x (by simp)
    simp [lacksSpace, hs, hx, (isBlank_of_isOperator hc).1, hc] at hl

end

/-! ## Cutting a line into words -/

theorem Span.text_append {s : Span} {xs ys zs : List Char} (hstart : s.start = xs.length)
    (hstop : s.stop = xs.length + ys.length) : s.text (xs ++ (ys ++ zs)) = ys := by
  rw [Span.text, hstart, hstop, ← List.append_assoc, ← List.length_append, List.take_left, List.drop_left]

/-- The words of a text that follows `before` and starts at position `i`, each
with its place. -/
inductive Cut : Option Char → Nat → List Char → List (Span × Lexeme) → Prop
  | nil {before : Option Char} {i : Nat} {gap : List Char} (blank : ∀ x ∈ gap, isBlank x = true) :
    Cut before i gap []
  | cons {before : Option Char} {i : Nat} {gap : List Char} {l : Lexeme} {rest : List Char}
    {ws : List (Span × Lexeme)} (blank : ∀ x ∈ gap, isBlank x = true)
    (word : IsWord (gap.getLast?.or before) l)
    (parted : Parted (gap.getLast?.or before) false l.text)
    (closed : rest ≠ [] → openBehind (gap.getLast?.or before) false l.text = false)
    (tail : Cut (l.text.getLast?.or (gap.getLast?.or before)) (i + gap.length + l.text.length) rest ws) :
    Cut before i (gap ++ (l.text ++ rest))
      ((⟨i + gap.length, i + gap.length + l.text.length⟩, l) :: ws)

/-- The first word of a spaced text is a word of the text. -/
theorem ReadyAfter.first_spread {before : Option Char} {cs rest : List Char} {l : Lexeme}
    (h : ReadyAfter before cs) (hf : Lexeme.first? (spread before false cs) = some (l, rest)) :
    ∃ gap tail, cs = gap ++ (l.text ++ tail) ∧ (∀ x ∈ gap, isBlank x = true) ∧
      IsWord (gap.getLast?.or before) l ∧ Parted (gap.getLast?.or before) false l.text ∧
      (tail ≠ [] → openBehind (gap.getLast?.or before) false l.text = false) ∧
      ReadyAfter (l.text.getLast?.or (gap.getLast?.or before)) tail ∧
      lexemes rest = lexemes (spread (l.text.getLast?.or (gap.getLast?.or before)) false tail) := by
  have hspread : ReadyAfter before (spread before false cs) := by
    refine ⟨h.tight.spread, ?_⟩
    rw [head?_spread]
    exact h.quote
  obtain ⟨gap, hcs, hblank, hword⟩ := hspread.first hf
  obtain ⟨tail, rfl, htail⟩ := of_spread_blank hcs hblank
  obtain ⟨tail, rfl, hparted, hrest⟩ := of_spread_solid htail.symm hword.solid
  have htight := h.tight
  rw [Tight.append_iff, openBehind_of_isBlank hblank, Tight.append_iff] at htight
  obtain ⟨_, _, htight⟩ := htight
  have hclosed : tail ≠ [] → openBehind (gap.getLast?.or before) false l.text = false := by
    intro hne
    refine hword.closed ?_
    rcases hrest with rfl | ⟨rfl, _⟩
    · rwa [ne_eq, ← List.head?_eq_none_iff, head?_spread, List.head?_eq_none_iff]
    · exact List.cons_ne_nil _ _
  -- at the end of the line it does not matter if a string is open
  have hcode : Tight (l.text.getLast?.or (gap.getLast?.or before)) false tail ∧
      spread (l.text.getLast?.or (gap.getLast?.or before))
        (openBehind (gap.getLast?.or before) false l.text) tail =
          spread (l.text.getLast?.or (gap.getLast?.or before)) false tail := by
    by_cases hne : tail = []
    · subst hne
      exact ⟨trivial, rfl⟩
    · rw [hclosed hne] at htight ⊢
      exact ⟨htight, rfl⟩
  rw [hcode.2] at hrest
  refine ⟨gap, tail, rfl, hblank, hword.toIsWord, hparted, hclosed, ⟨hcode.1, fun hq => ?_⟩, ?_⟩
  · rcases hrest with rfl | ⟨_, hd⟩
    · refine hword.ready.quote ?_
      rw [head?_spread]
      exact hq
    · intro he
      have hquote := hd '"' hq
      rw [he] at hquote
      exact absurd hquote (by decide)
  · rcases hrest with rfl | ⟨rfl, _⟩
    · rfl
    · exact lexemes_space _

/-- The words of a spaced text have their places in the text. -/
theorem ReadyAfter.exists_cut {before : Option Char} {cs : List Char} (h : ReadyAfter before cs) (i : Nat) :
    ∃ ws, Cut before i cs ws ∧ ws.map Prod.snd = lexemes (spread before false cs) := by
  induction hn : cs.length using Nat.strongRecOn generalizing before cs i with
  | ind n ih =>
    cases hf : Lexeme.first? (spread before false cs) with
    | none =>
      have hblank := List.dropWhile_eq_nil_iff.1 (Lexeme.first?_eq_none_iff.1 hf)
      obtain ⟨tail, hcs, htail⟩ := of_spread_blank (List.append_nil _).symm hblank
      have hnil : tail = [] := by
        rw [← List.head?_eq_none_iff, ← head?_spread, ← htail]
        rfl
      rw [hnil, List.append_nil] at hcs
      rw [← hcs] at hblank
      exact ⟨[], .nil hblank, (lexemes_of_none hf).symm⟩
    | some p =>
      obtain ⟨l, rest⟩ := p
      obtain ⟨gap, tail, rfl, hblank, hword, hparted, hclosed, hready, hlex⟩ := h.first_spread hf
      have hlen : 0 < l.text.length := List.length_pos_iff.2 hword.ne_nil
      rw [List.length_append, List.length_append] at hn
      obtain ⟨ws, hcut, hws⟩ := ih tail.length (by omega) hready (i + gap.length + l.text.length) rfl
      refine ⟨_, .cons hblank hword hparted hclosed hcut, ?_⟩
      rw [lexemes_cons hf, List.map_cons, hws, hlex]

namespace Cut

variable {before : Option Char} {i : Nat} {cs : List Char} {ws : List (Span × Lexeme)}

/-- Nothing but blanks is lost. -/
theorem flatten_text (h : Cut before i cs ws) :
    (ws.map (·.2.text)).flatten = cs.filter fun c => !isBlank c := by
  induction h with
  | nil blank =>
    symm
    simpa using blank
  | @cons _ _ gap l _ _ blank word _ _ _ ih =>
    have hgap : (gap.filter fun c => !isBlank c) = [] := by simpa using blank
    have hword : (l.text.filter fun c => !isBlank c) = l.text := by
      rw [List.filter_eq_self]
      simpa using word.solid
    rw [List.map_cons, List.flatten_cons, ih, List.filter_append, List.filter_append, hgap, hword]
    rfl

/-- Where words can lie. -/
theorem bounds (h : Cut before i cs ws) {w : Span × Lexeme} (hw : w ∈ ws) :
    i ≤ w.1.start ∧ w.1.start < w.1.stop ∧ w.1.stop ≤ i + cs.length := by
  induction h with
  | nil => cases hw
  | cons _ word _ _ _ ih =>
    have hlen := List.length_pos_iff.2 word.ne_nil
    rw [List.length_append, List.length_append]
    rcases List.mem_cons.1 hw with rfl | hw
    · dsimp only
      omega
    · have := ih hw
      omega

theorem pairwise (h : Cut before i cs ws) : (ws.map Prod.fst).Pairwise fun p q => p.stop ≤ q.start := by
  induction h with
  | nil => exact List.Pairwise.nil
  | cons _ _ _ _ tail ih =>
    rw [List.map_cons, List.pairwise_cons]
    refine ⟨fun q hq => ?_, ih⟩
    obtain ⟨w, hw, rfl⟩ := List.mem_map.1 hq
    exact (tail.bounds hw).1

/-- A word is the text at its place. -/
theorem text_eq (h : Cut before i cs ws) (pre : List Char) (hpre : pre.length = i) {w : Span × Lexeme}
    (hw : w ∈ ws) : w.1.text (pre ++ cs) = w.2.text := by
  induction h generalizing pre with
  | nil => cases hw
  | @cons _ i gap l rest _ _ _ _ _ _ ih =>
    have hgap : (pre ++ gap).length = i + gap.length := by rw [List.length_append, hpre]
    rcases List.mem_cons.1 hw with rfl | hw
    · rw [← List.append_assoc]
      exact Span.text_append hgap.symm (by rw [hgap])
    · rw [← List.append_assoc, ← List.append_assoc]
      exact ih _ (by rw [List.length_append, hgap]) hw

/-! ### Strings -/

/-- A string lies in a word or apart from it. -/
theorem whole (h : Cut before i cs ws) {w : Span × Lexeme} (hw : w ∈ ws) {q : Span}
    (hq : q ∈ spansFrom before none i cs) :
    q.stop ≤ w.1.start ∨ w.1.start ≤ q.start ∧ q.stop ≤ w.1.stop ∨ w.1.stop ≤ q.start := by
  induction h with
  | nil => cases hw
  | cons blank _ _ closed tail ih =>
    rw [spansFrom_word blank closed, List.mem_append] at hq
    rcases hq with hq | hq
    · obtain ⟨hstart, _, hstop⟩ := bounds_of_mem_spansFrom (by simp) hq
      rw [Option.getD_none] at hstart
      rcases List.mem_cons.1 hw with rfl | hw
      · exact .inr (.inl ⟨hstart, hstop⟩)
      · exact .inl (hstop.trans (tail.bounds hw).1)
    · rcases List.mem_cons.1 hw with rfl | hw
      · exact .inr (.inr (bounds_of_mem_spansFrom (by simp) hq).1)
      · exact ih hw hq

/-- A word that starts with a quote is a string. -/
theorem mem_spansFrom (h : Cut before i cs ws) {w : Span × Lexeme} (hw : w ∈ ws)
    (hq : w.2.text.head? = some '"') : w.1 ∈ spansFrom before none i cs := by
  induction h with
  | nil => cases hw
  | cons blank word _ closed _ ih =>
    rw [spansFrom_word blank closed, List.mem_append]
    rcases List.mem_cons.1 hw with rfl | hw
    · refine .inl ?_
      rw [(word.quoted hq).2]
      exact List.mem_singleton_self _
    · exact .inr (ih hw)

/-! ### Operators -/

theorem exists_operator (h : Cut before i cs ws) {pre post : List Char} {c : Char}
    (hcs : cs = pre ++ c :: post) (hc : isOperator c = true) (hs : openBehind before false pre = false) :
    ∃ l, (⟨i + pre.length, i + pre.length + 1⟩, l) ∈ ws := by
  have hblank := (isBlank_of_isOperator hc).1
  induction h generalizing pre with
  | nil blank =>
    rw [blank c (by simp [hcs])] at hblank
    cases hblank
  | @cons before i gap l rest ws blank word parted closed tail ih =>
    rcases of_append_eq_append_cons hcs with ⟨_, rfl⟩ | ⟨pre, rfl, hword⟩
    · rw [blank c (by simp)] at hblank
      cases hblank
    · rw [openBehind_append, openBehind_of_isBlank blank] at hs
      rcases of_append_eq_append_cons hword with ⟨post, htext⟩ | ⟨pre, rfl, hrest⟩
      · rw [htext] at parted
        have hsolid := word.solid
        rw [htext] at hsolid
        obtain ⟨rfl, rfl⟩ := parted.operator_alone hsolid hc hs
        rw [htext, List.append_nil]
        exact ⟨l, List.mem_cons_self⟩
      · rw [openBehind_append, closed (by simp [hrest])] at hs
        obtain ⟨l', hl⟩ := ih hrest hs
        refine ⟨l', List.mem_cons_of_mem _ ?_⟩
        rw [List.length_append, List.length_append, ← Nat.add_assoc, ← Nat.add_assoc]
        exact hl

/-! ### Unclosed strings -/

theorem eq_nil (h : Cut before i [] ws) : ws = [] := by
  rw [List.eq_nil_iff_forall_not_mem]
  intro w hw
  have := h.bounds hw
  rw [List.length_nil] at this
  omega

/-- The unclosed string of a line, if it has one, is a word exactly if a word
starts where the last string does. -/
theorem exists_unclosed_iff (h : Cut before i cs ws) :
    (∃ w ∈ ws, w.2.unclosed = true) ↔
      openBehind before false cs = true ∧
        ∃ q, (spansFrom before none i cs).getLast? = some q ∧ ∃ w ∈ ws, w.1.start = q.start := by
  induction h with
  | nil blank => simp [openBehind_of_isBlank blank]
  | @cons before i gap l rest ws blank word parted closed tail ih =>
    rw [spansFrom_word blank closed, openBehind_append, openBehind_of_isBlank blank, openBehind_append]
    cases hopen : openBehind (gap.getLast?.or before) false l.text with
    | true =>
      -- the line ends with this word
      have hrest : rest = [] := by
        by_contra hne
        rw [closed hne] at hopen
        cases hopen
      subst hrest
      rw [tail.eq_nil, spansFrom, Option.map_none, Option.toList_none, List.append_nil]
      simpa [openBehind] using word.unclosed_iff hopen (i + gap.length)
    | false =>
      have hlater (place : Span) : (∃ w ∈ (place, l) :: ws, w.2.unclosed = true) ↔
          ∃ w ∈ ws, w.2.unclosed = true := by
        simp [word.unclosed_eq_false hopen]
      rw [hlater, ih]
      refine and_congr_right fun hend => ?_
      -- the last string is behind this word
      obtain ⟨q, hq⟩ := exists_getLast?_spansFrom hend (i + gap.length + l.text.length)
      have hstart : i + gap.length + l.text.length ≤ q.start :=
        (bounds_of_mem_spansFrom (by simp) (List.mem_of_getLast? hq)).1
      have hlen := List.length_pos_iff.2 word.ne_nil
      have hne : i + gap.length ≠ q.start := by omega
      rw [List.getLast?_append, hq, Option.some_or]
      simp [hne]

end Cut

/-- Places of words in a line. They are apart and in their order, no string is
cut by one, a quote starts one only if it is a whole string, and every operator
outside strings has one for itself. -/
structure WellPlaced (line : List Char) (places : List Span) : Prop where
  inLine : ∀ p ∈ places, p.start < p.stop ∧ p.stop ≤ line.length
  apart : places.Pairwise fun p q => p.stop ≤ q.start
  whole : ∀ p ∈ places, ∀ q ∈ stringSpans line,
    ¬ (q.start < p.start ∧ p.start < q.stop) ∧ ¬ (q.start < p.stop ∧ p.stop < q.stop)
  quoted : ∀ p ∈ places, (p.text line).head? = some '"' → p ∈ stringSpans line
  operator : ∀ i, operatorAt line i = true → ⟨i, i + 1⟩ ∈ places

theorem Cut.wellPlaced {line : List Char} {ws : List (Span × Lexeme)} (h : Cut none 0 line ws) :
    WellPlaced line (ws.map Prod.fst) where
  inLine := by
    rw [List.forall_mem_map]
    intro w hw
    have := h.bounds hw
    omega
  apart := h.pairwise
  whole := by
    rw [List.forall_mem_map]
    intro w hw q hq
    have := h.whole hw hq
    have := h.bounds hw
    omega
  quoted := by
    rw [List.forall_mem_map]
    intro w hw hquote
    have htext : w.1.text line = w.2.text := h.text_eq [] rfl hw
    rw [htext] at hquote
    exact h.mem_spansFrom hw hquote
  operator := by
    intro i hop
    obtain ⟨pre, c, post, hline, rfl, hc, hs⟩ := exists_of_operatorAt hop
    obtain ⟨l, hl⟩ := h.exists_operator hline hc hs
    rw [Nat.zero_add] at hl
    exact List.mem_map_of_mem hl

/-! ## Reading the words -/

namespace Reader

variable {σ : Type} (r : Reader σ) (number : LineNumber)

/-- One word more, behind what was read so far. -/
def push (acc : Array Token × Array Diagnostic × σ) (l : Lexeme) : Array Token × Array Diagnostic × σ :=
  (acc.1.push (r.read number acc.2.2 l).token, acc.2.1 ++ (r.read number acc.2.2 l).issues.toArray,
    (r.read number acc.2.2 l).state)

theorem foldl_push (acc : Array Token × Array Diagnostic × σ) (ls : List Lexeme) :
    ls.foldl (r.push number) acc =
      (acc.1 ++ ((r.readings number acc.2.2 ls).map (·.token)).toArray,
        acc.2.1 ++ ((r.readings number acc.2.2 ls).flatMap (·.issues)).toArray,
        Reading.after acc.2.2 (r.readings number acc.2.2 ls)) := by
  induction ls generalizing acc with
  | nil => simp [readings, Reading.after]
  | cons l ls ih =>
    rw [List.foldl_cons, ih]
    simp [push, readings, Reading.after]

theorem readAll_eq (s : σ) (text : List Char) :
    r.readAll number s text =
      ((r.readings number s (lexemes text)).map (·.token),
        (r.readings number s (lexemes text)).flatMap (·.issues),
        Reading.after s (r.readings number s (lexemes text))) := by
  have hfold : r.readAll number s text =
      (((lexemes text).foldl (r.push number) (#[], #[], s)).1.toList,
        ((lexemes text).foldl (r.push number) (#[], #[], s)).2.1.toList,
        ((lexemes text).foldl (r.push number) (#[], #[], s)).2.2) := rfl
  rw [hfold, foldl_push]
  simp

/-- The words that come out are those that went in, as far as they count. -/
theorem map_take_readings (s : σ) (ls : List Lexeme) :
    (r.readings number s ls).map (·.token.word.toList) = ls.map fun l => l.text.take r.maxWord := by
  induction ls generalizing s with
  | nil => rfl
  | cons l ls ih =>
    rw [readings, List.map_cons, List.map_cons, ih, (r.meaning_read number s l).word_eq,
      String.toList_ofList]

theorem map_word_readings (s : σ) {ls : List Lexeme} (h : ∀ l ∈ ls, l.text.length ≤ r.maxWord) :
    (r.readings number s ls).map (·.token.word.toList) = ls.map Lexeme.text := by
  rw [map_take_readings]
  exact List.map_congr_left fun l hl => List.take_of_length_le (h l hl)

theorem unterminated_mem_readings (s : σ) (ls : List Lexeme) :
    (∃ d ∈ (r.readings number s ls).flatMap (·.issues), d.code = .unterminatedString) ↔
      ∃ l ∈ ls, l.unclosed = true := by
  induction ls generalizing s with
  | nil => simp [readings]
  | cons l ls ih =>
    have hl := r.unterminated_mem_issues_read number s (l := l)
    simp only [readings, List.flatMap_cons, List.mem_append, or_and_right, exists_or, ih, hl]
    simp

/-- **Nothing is lost and no string is cut.** Of a line that was loaded, the words
that are read are all its characters but the spaces, and they have places in the
line that leave its strings whole and its operators alone. A string is reported
as unterminated exactly if the line ends in it and a word starts with its quote. -/
theorem readAll_wellPlaced (s : σ) {source : List Char} {cursor maxLen next : Nat} {line : SourceLine}
    (hload : SourceLine.load? source cursor maxLen = some (line, next))
    (hword : (spaceOperators line.text).length ≤ r.maxWord) :
    ((r.readAll number s (spaceOperators line.text)).1.map (·.word.toList)).flatten =
        line.text.filter (· != ' ') ∧
      ∃ places, WellPlaced line.text places ∧
        (r.readAll number s (spaceOperators line.text)).1.map (·.word.toList) =
          places.map (·.text line.text) ∧
        ((∃ d ∈ (r.readAll number s (spaceOperators line.text)).2.1, d.code = .unterminatedString) ↔
          openBehind none false line.text = true ∧
            ∃ q, (stringSpans line.text).getLast? = some q ∧ ∃ p ∈ places, p.start = q.start) := by
  obtain ⟨body, rfl⟩ := SourceLine.exists_body_of_load hload
  generalize htext : (SourceLine.ofBody maxLen body).text = text at hword ⊢
  have hready : ReadyAfter none text := ⟨htext ▸ SourceLine.tight_text maxLen body, fun _ => by decide⟩
  obtain ⟨ws, hcut, hws⟩ := hready.exists_cut 0
  rw [← spaceOperators_eq_spread] at hws
  have hfit : ∀ l ∈ ws.map Prod.snd, l.text.length ≤ r.maxWord := by
    intro l hl
    rw [hws] at hl
    exact (isInfix_of_mem_lexemes hl).length_le.trans hword
  have hwords : (r.readAll number s (spaceOperators text)).1.map (·.word.toList) = ws.map (·.2.text) := by
    have h := r.map_word_readings number s hfit
    rw [List.map_map] at h
    rw [readAll_eq, ← hws, List.map_map]
    exact h
  refine ⟨?_, ws.map Prod.fst, hcut.wellPlaced, ?_, ?_⟩
  · rw [hwords, hcut.flatten_text]
    refine List.filter_congr fun x hx => ?_
    rw [← htext] at hx
    rw [Bool.eq_iff_iff]
    simp [← SourceLine.isBlank_iff_of_mem_text hx]
  · rw [hwords, List.map_map]
    exact List.map_congr_left fun w hw => (hcut.text_eq [] rfl hw).symm
  · rw [readAll_eq, unterminated_mem_readings, ← hws]
    simp only [List.mem_map, exists_exists_and_eq_and]
    exact hcut.exists_unclosed_iff

/-- A string inside a word, with an operator in it, and a string that is not closed. -/
theorem readAll_wellPlaced_strings :
    SourceLine.load? "x=a\"b+c\"d \"e f\n".toList 0 80 =
        some (⟨"x=a\"b+c\"d \"e_f".toList, 0, false⟩, 15) ∧
      (spaceOperators "x=a\"b+c\"d \"e_f".toList).length ≤ 32 ∧
      (((Reader.mk (.ofList []) (Host.ofTables ⟨[]⟩) 32).readAll 1 ⟨#[]⟩
          (spaceOperators "x=a\"b+c\"d \"e_f".toList)).1.map (·.word.toList)).flatten =
        "x=a\"b+c\"d\"e_f".toList ∧
      ∃ places, WellPlaced "x=a\"b+c\"d \"e_f".toList places ∧
        ((Reader.mk (.ofList []) (Host.ofTables ⟨[]⟩) 32).readAll 1 ⟨#[]⟩
          (spaceOperators "x=a\"b+c\"d \"e_f".toList)).1.map (·.word.toList) =
        places.map (·.text "x=a\"b+c\"d \"e_f".toList) := by
  have hload : SourceLine.load? "x=a\"b+c\"d \"e f\n".toList 0 80 =
      some (⟨"x=a\"b+c\"d \"e_f".toList, 0, false⟩, 15) := by decide
  have hword : (spaceOperators "x=a\"b+c\"d \"e_f".toList).length ≤ 32 := by decide
  obtain ⟨hflat, places, hplaced, hwords, _⟩ :=
    readAll_wellPlaced (Reader.mk (.ofList []) (Host.ofTables ⟨[]⟩) 32) 1 ⟨#[]⟩ hload hword
  exact ⟨hload, hword, hflat.trans (by decide), places, hplaced, hwords⟩

end Reader

end NpcScript
