import NpcScript.Proofs.StringSpans

/-! # Spacing

An operator asks for a space before it and for one behind it, and of two
operators in a row only one puts a space between them. Looked at from the gaps
between characters the rule is simpler: a space is lacking between two
characters if neither is blank and one is an operator, outside strings. `spread`
goes through a line and puts a space into every such gap. -/
namespace NpcScript
open NpcScript.Text

/-- A space is lacking between a character and the one after it. -/
def lacksSpace (inString : Bool) (c : Char) (after : Option Char) : Bool :=
  !inString && (!isBlank c && after.any fun d => !isBlank d && (isOperator c || isOperator d))

/-- The spaces that a gap gets. -/
def gapSpace (inString : Bool) (c : Char) (after : Option Char) : List Char :=
  if lacksSpace inString c after then [' '] else []

/-- A text that follows `before`, with a space in each gap that lacks one. -/
def spread : Option Char → Bool → List Char → List Char
  | _, _, [] => []
  | before, inString, c :: cs =>
    c :: (gapSpace (inString != isDelimiter before c) c cs.head? ++
      spread (some c) (inString != isDelimiter before c) cs)

/-- What a spaced cell asks for before its character. -/
def leadSpace (before : Option Char) (inString : Bool) : List Char → List Char
  | [] => []
  | c :: cs =>
    let x : Cell := ⟨before, c, cs.head?, inString⟩
    if x.isOperator && x.spaceBefore then [' '] else []

theorem isOperator_cell (before : Option Char) (c : Char) (after : Option Char) (inString : Bool) :
    Cell.isOperator ⟨before, c, after, inString⟩ = (!inString && isOperator c) := by
  rw [Cell.isOperator, Cell.isCode, Cell.delimits]
  cases ho : isOperator c with
  | false => simp
  | true => simp [isDelimiter_eq_false (isBlank_of_isOperator ho).2.2]

/-- The space behind an operator and the one before the next are one gap. -/
theorem spaced_append_leadSpace (before : Option Char) (inString : Bool) (c : Char) (cs : List Char) :
    Cell.spaced ⟨before, c, cs.head?, inString⟩ ++
        leadSpace (some c) (inString != isDelimiter before c) cs =
      leadSpace before inString (c :: cs) ++
        c :: gapSpace (inString != isDelimiter before c) c cs.head? := by
  cases hx : Cell.isOperator ⟨before, c, cs.head?, inString⟩ with
  | true =>
    rw [isOperator_cell, Bool.and_eq_true, Bool.not_eq_true'] at hx
    obtain ⟨rfl, hc⟩ := hx
    obtain ⟨hblank, _, hquote⟩ := isBlank_of_isOperator hc
    -- the next operator finds this one before it and asks for nothing
    have hlead : leadSpace (some c) false cs = [] := by
      cases cs with
      | nil => rfl
      | cons d ds => simp [leadSpace, Cell.spaceBefore, hc]
    rw [isDelimiter_eq_false hquote, Bool.bne_false, hlead]
    cases hafter : cs.head? with
    | none => simp [Cell.spaced, leadSpace, isOperator_cell, hc, hafter, Cell.spaceAfter, gapSpace, lacksSpace]
    | some d =>
      simp [Cell.spaced, leadSpace, isOperator_cell, hc, hafter, hblank, Cell.spaceAfter, gapSpace,
        lacksSpace]
  | false =>
    have hgap : leadSpace (some c) (inString != isDelimiter before c) cs =
        gapSpace (inString != isDelimiter before c) c cs.head? := by
      rw [isOperator_cell] at hx
      cases cs with
      | nil => simp [leadSpace, gapSpace, lacksSpace]
      | cons d ds =>
        have hd : isOperator d = true → isBlank d = false := fun h => (isBlank_of_isOperator h).1
        cases hc : isOperator c with
        | true =>
          -- an operator that is no code is in a string, and so is the gap behind it
          have hs : inString = true := by simpa [hc] using hx
          simp [leadSpace, isOperator_cell, gapSpace, lacksSpace, hs,
            isDelimiter_eq_false (isBlank_of_isOperator hc).2.2]
        | false =>
          cases hop : isOperator d with
          | true => simp [leadSpace, isOperator_cell, Cell.spaceBefore, gapSpace, lacksSpace, hc, hop, hd hop]
          | false => simp [leadSpace, isOperator_cell, gapSpace, lacksSpace, hc, hop]
    rw [hgap, Cell.spaced, leadSpace, hx]
    rfl

theorem flatMap_spaced_eq (before : Option Char) (inString : Bool) (cs : List Char) :
    (cellsFrom [] before inString cs).flatMap Cell.spaced =
      leadSpace before inString cs ++ spread before inString cs := by
  induction cs generalizing before inString with
  | nil => rfl
  | cons c cs ih =>
    rw [cellsFrom_cons, List.flatMap_cons, ih, ← List.append_assoc, spaced_append_leadSpace, spread,
      List.append_assoc, List.cons_append]

theorem spaceOperators_eq_spread (line : List Char) : spaceOperators line = spread none false line := by
  have hlead : leadSpace none false line = [] := by
    cases line with
    | nil => rfl
    | cons c cs => simp [leadSpace, Cell.spaceBefore]
  rw [spaceOperators, cells, flatMap_spaced_eq, hlead, List.nil_append]

/-! ## Gaps -/

section

variable {before before' : Option Char} {inString : Bool} {c : Char} {cs : List Char}

theorem gapSpace_of_lacks {after : Option Char} (h : lacksSpace inString c after = true) :
    gapSpace inString c after = [' '] := if_pos h

theorem gapSpace_of_not {after : Option Char} (h : lacksSpace inString c after = false) :
    gapSpace inString c after = [] := by
  rw [gapSpace, h, if_neg Bool.false_ne_true]

/-- A gap that lacks a space is in the code, and a space in it escapes no quote
and frees none. -/
theorem of_lacksSpace {after : Option Char} (h : lacksSpace inString c after = true) :
    inString = false ∧ ∀ d ∈ after, isDelimiter (some ' ') d = isDelimiter (some c) d := by
  simp only [lacksSpace, Bool.and_eq_true, Bool.not_eq_true'] at h
  obtain ⟨hs, _, hafter⟩ := h
  refine ⟨hs, ?_⟩
  intro d hd
  rw [Option.mem_def] at hd
  rw [hd, Option.any_some, Bool.and_eq_true, Bool.or_eq_true] at hafter
  rcases hafter.2 with hc | hop
  · refine isDelimiter_congr (iff_of_false (by decide) ?_) d
    intro he
    rw [Option.some.inj he] at hc
    cases hc
  · have hquote := (isBlank_of_isOperator hop).2.2
    rw [isDelimiter_eq_false hquote, isDelimiter_eq_false hquote]

theorem lacksSpace_space (after : Option Char) : lacksSpace inString ' ' after = false := by
  simp [lacksSpace, show isBlank ' ' = true from rfl]

theorem lacksSpace_of_space : lacksSpace inString c (some ' ') = false := by
  simp [lacksSpace, show isBlank ' ' = true from rfl]

theorem head?_spread : (spread before inString cs).head? = cs.head? := by
  cases cs <;> rfl

/-- The character before a text counts only for a quote at its start. -/
theorem spread_congr (h : ∀ c ∈ cs.head?, isDelimiter before' c = isDelimiter before c) :
    spread before' inString cs = spread before inString cs := by
  cases cs with
  | nil => rfl
  | cons c cs => rw [spread, spread, h c rfl]

/-- The two ways to go on behind a character: with a space in the code, or as the
line goes on. -/
theorem spread_cons (before : Option Char) (inString : Bool) (c : Char) (cs : List Char) :
    (lacksSpace (inString != isDelimiter before c) c cs.head? = true ∧
      (inString != isDelimiter before c) = false ∧
      spread before inString (c :: cs) = c :: ' ' :: spread (some ' ') false cs) ∨
    (lacksSpace (inString != isDelimiter before c) c cs.head? = false ∧
      spread before inString (c :: cs) = c :: spread (some c) (inString != isDelimiter before c) cs) := by
  cases hl : lacksSpace (inString != isDelimiter before c) c cs.head? with
  | true =>
    obtain ⟨hs, hd⟩ := of_lacksSpace hl
    rw [spread, gapSpace_of_lacks hl, hs, spread_congr hd]
    exact .inl ⟨rfl, rfl, rfl⟩
  | false =>
    rw [spread, gapSpace_of_not hl]
    exact .inr ⟨rfl, rfl⟩

/-! ## A second time -/

/-- No gap of a text that follows `before` lacks a space. -/
def Parted : Option Char → Bool → List Char → Prop
  | _, _, [] => True
  | before, inString, c :: cs =>
    lacksSpace (inString != isDelimiter before c) c cs.head? = false ∧
      Parted (some c) (inString != isDelimiter before c) cs

theorem spread_of_parted (h : Parted before inString cs) : spread before inString cs = cs := by
  induction cs generalizing before inString with
  | nil => rfl
  | cons c cs ih => rw [spread, gapSpace_of_not h.1, ih h.2, List.nil_append]

theorem parted_spread (before : Option Char) (inString : Bool) (cs : List Char) :
    Parted before inString (spread before inString cs) := by
  induction cs generalizing before inString with
  | nil => trivial
  | cons c cs ih =>
    rcases spread_cons before inString c cs with ⟨_, hs, he⟩ | ⟨hl, he⟩
    · rw [he]
      refine ⟨lacksSpace_of_space, lacksSpace_space _, ?_⟩
      rw [hs, isDelimiter_eq_false (by decide)]
      exact ih (some ' ') false
    · rw [he]
      refine ⟨?_, ih _ _⟩
      rw [head?_spread]
      exact hl

/-! ## Strings -/

theorem stringsFrom_congr {current : Option (List Char)}
    (h : ∀ c ∈ cs.head?, isDelimiter before' c = isDelimiter before c) :
    stringsFrom before' current cs = stringsFrom before current cs := by
  cases cs with
  | nil => rfl
  | cons c cs => rw [stringsFrom_cons, stringsFrom_cons, h c rfl]

theorem stringsFrom_space (before : Option Char) (cs : List Char) :
    stringsFrom before none (' ' :: cs) = stringsFrom (some ' ') none cs := by
  rw [stringsFrom_cons, isDelimiter_eq_false (by decide)]
  rfl

/-- Spacing leaves every string as it is, and adds none. -/
theorem stringsFrom_spread (before : Option Char) {current : Option (List Char)} (cs : List Char)
    (h : current.isSome = inString) :
    stringsFrom before current (spread before inString cs) = stringsFrom before current cs := by
  induction cs generalizing before current inString with
  | nil => rfl
  | cons c cs ih =>
    have hnext : (stringStep (isDelimiter before c) current c).2.isSome =
        (inString != isDelimiter before c) := by
      rw [isSome_stringStep, h]
    rcases spread_cons before inString c cs with ⟨hl, hs, he⟩ | ⟨_, he⟩
    · have hnone : (stringStep (isDelimiter before c) current c).2 = none := by
        rw [← Option.not_isSome_iff_eq_none, hnext, hs]
        exact Bool.false_ne_true
      have hrest : stringsFrom (some c) none (' ' :: spread (some ' ') false cs) =
          stringsFrom (some c) none cs := by
        have hcode : (none : Option (List Char)).isSome = false := rfl
        rw [stringsFrom_space, ih (some ' ') hcode, stringsFrom_congr (of_lacksSpace hl).2]
      rw [he, stringsFrom_cons before current c, stringsFrom_cons before current c, hnone, hrest]
    · rw [he, stringsFrom_cons, stringsFrom_cons, ih (some c) hnext]

end

/-! ## Where spaces are put -/

/-- A space is due behind a position: an operator outside strings is there or
next, and neither character is blank. -/
def spaceDue (cs : List Char) (i : Nat) : Bool :=
  match cs[i]?, cs[i + 1]? with
  | some c, some d => !isBlank c && !isBlank d && (operatorAt cs i || operatorAt cs (i + 1))
  | _, _ => false

theorem openBehind_concat (pre : List Char) (c : Char) :
    openBehind none false (pre ++ [c]) = (openBehind none false pre != isDelimiter pre.getLast? c) := by
  rw [openBehind_append, Option.or_none]
  rfl

theorem spaceDue_append (pre : List Char) (c : Char) (cs : List Char) :
    spaceDue (pre ++ c :: cs) pre.length = lacksSpace (openBehind none false (pre ++ [c])) c cs.head? := by
  have hchar : (pre ++ c :: cs)[pre.length]? = some c := by simp
  have hnext : (pre ++ c :: cs)[pre.length + 1]? = cs.head? := by
    rw [List.getElem?_append_right (Nat.le_succ _), Nat.succ_sub (Nat.le_refl _), Nat.sub_self,
      List.getElem?_cons_succ, List.head?_eq_getElem?]
  rw [spaceDue, hchar, hnext, operatorAt_append]
  cases cs with
  | nil => simp [lacksSpace]
  | cons d ds =>
    have hop : operatorAt (pre ++ c :: d :: ds) (pre.length + 1) =
        (isOperator d && !openBehind none false (pre ++ [c])) := by
      have h := operatorAt_append (pre ++ [c]) d ds
      simpa using h
    rw [hop]
    cases hc : isOperator c with
    | true =>
      rw [openBehind_concat, isDelimiter_eq_false (isBlank_of_isOperator hc).2.2, Bool.bne_false]
      cases openBehind none false pre <;> simp [lacksSpace, hc]
    | false => cases openBehind none false (pre ++ [c]) <;> simp [lacksSpace, hc, Bool.and_assoc]

theorem spread_eq_flatMap (pre cs : List Char) :
    spread pre.getLast? (openBehind none false pre) cs =
      (cs.zipIdx pre.length).flatMap fun p => if spaceDue (pre ++ cs) p.2 then [p.1, ' '] else [p.1] := by
  induction cs generalizing pre with
  | nil => rfl
  | cons c cs ih =>
    have h := ih (pre ++ [c])
    rw [List.getLast?_concat, List.append_assoc, List.singleton_append, List.length_append,
      List.length_singleton] at h
    rw [spread, ← openBehind_concat, h, List.zipIdx_cons, List.flatMap_cons, spaceDue_append, gapSpace]
    cases lacksSpace (openBehind none false (pre ++ [c])) c cs.head? <;> rfl

/-- **Spacing is conservative.** Spacing a line again changes nothing. A spaced
line is the line with one space behind a character exactly if that character or
the next is an operator outside strings and neither of them is blank, so that no
two spaces come together by it. It has the strings of the line, in their order. -/
theorem spaceOperators_conservative (line : List Char) :
    spaceOperators (spaceOperators line) = spaceOperators line ∧
    (spaceOperators line =
      line.zipIdx.flatMap fun p => if spaceDue line p.2 then [p.1, ' '] else [p.1]) ∧
    (stringSpans (spaceOperators line)).map (·.text (spaceOperators line)) =
      (stringSpans line).map (·.text line) := by
  refine ⟨?_, ?_, ?_⟩
  · rw [spaceOperators_eq_spread (spaceOperators line), spaceOperators_eq_spread line]
    exact spread_of_parted (parted_spread none false line)
  · rw [spaceOperators_eq_spread]
    exact spread_eq_flatMap [] line
  · rw [map_text_stringSpans, map_text_stringSpans, spaceOperators_eq_spread]
    exact stringsFrom_spread none line rfl

end NpcScript
