import Mathlib.Data.List.DropRight
import NpcScript.Proofs.LineTiling
import NpcScript.Proofs.StringSpans

/-! # Loaded lines are in normal form

What is code, what is in a string and where the comment starts is said here by
position, from the strings of a line. A loaded line has none of what loading takes
away or replaces, and loading has no use for such a line: it is given back as it
is. -/
namespace NpcScript
open NpcScript.Text

/-- Two slashes outside strings start a comment. -/
def commentAt (cs : List Char) (i : Nat) : Bool :=
  cs[i]? = some '/' && cs[i + 1]? = some '/' && !inStringAt cs i

/-- A tab outside strings. -/
def tabAt (cs : List Char) (i : Nat) : Bool := cs[i]? = some '\t' && !inStringAt cs i

/-- The position of a line's comment, or the line's length if it has none. -/
def commentStart (cs : List Char) : Nat := (List.range cs.length).findIdx (commentAt cs)

/-! ## Cells by position -/

section

variable {cs : List Char} {i : Nat}

theorem inStringAt_of_isPrefix {ds : List Char} (h : ds <+: cs) (hi : i < ds.length) :
    inStringAt cs i = inStringAt ds i := by
  obtain ⟨rest, rfl⟩ := h
  obtain ⟨hds, hlen⟩ := eq_take_append (List.getElem?_eq_getElem hi)
  have hpart := inStringAt_append (ds.take i) ds[i] (ds.drop (i + 1))
  have hwhole := inStringAt_append (ds.take i) ds[i] (ds.drop (i + 1) ++ rest)
  rw [← List.cons_append, ← List.append_assoc] at hwhole
  rw [← hds, hlen] at hpart hwhole
  rw [hpart, hwhole]

theorem getElem?_cellsFrom (before : Option Char) (inString : Bool) (pre : List Char) (c : Char)
    (post : List Char) :
    (cellsFrom [] before inString (pre ++ c :: post))[pre.length]? =
      some ⟨pre.getLast?.or before, c, post.head?, openBehind before inString pre⟩ := by
  induction pre generalizing before inString with
  | nil => rw [List.nil_append, cellsFrom_cons]; rfl
  | cons d pre ih =>
    rw [List.cons_append, cellsFrom_cons, List.length_cons, List.getElem?_cons_succ, ih,
      getLast?_cons_or, openBehind]

/-- A cell knows its character, the next one, and whether it is in a string. -/
theorem of_getElem?_cells {x : Cell} (h : (cells cs)[i]? = some x) :
    cs[i]? = some x.char ∧ cs[i + 1]? = x.after ∧ inStringAt cs i = !x.isCode := by
  have hchar : cs[i]? = some x.char := by
    have hmap := List.getElem?_map (f := Cell.char) (l := cells cs) (i := i)
    rw [map_char_cells, h] at hmap
    exact hmap
  obtain ⟨hcs, hlen⟩ := eq_take_append hchar
  have hcell := getElem?_cellsFrom none false (cs.take i) x.char (cs.drop (i + 1))
  have hin := inStringAt_append (cs.take i) x.char (cs.drop (i + 1))
  rw [← hcs, hlen] at hin hcell
  rw [cells, hcell, Option.or_none, Option.some.injEq] at h
  refine ⟨hchar, ?_, ?_⟩
  · rw [← h, List.head?_drop]
  · rw [hin, ← h, Cell.isCode, Cell.delimits]
    simp

theorem length_cells (cs : List Char) : (cells cs).length = cs.length := by
  rw [← List.length_map (f := Cell.char), map_char_cells]

/-- What a cell says of itself, said by position. -/
theorem map_cells {f : Cell → Bool} {g : Nat → Bool} (h : ∀ i x, (cells cs)[i]? = some x → f x = g i) :
    (cells cs).map f = (List.range cs.length).map g := by
  refine List.ext_getElem? fun i => ?_
  rw [List.getElem?_map, List.getElem?_map]
  cases hx : (cells cs)[i]? with
  | none =>
    rw [List.getElem?_eq_none_iff, length_cells] at hx
    rw [List.getElem?_eq_none (by rwa [List.length_range])]
    rfl
  | some x =>
    have hi := (List.getElem?_eq_some_iff.1 hx).1
    rw [length_cells] at hi
    rw [List.getElem?_range hi, Option.map_some, Option.map_some, h i x hx]

theorem startsComment_eq {x : Cell} (h : (cells cs)[i]? = some x) : x.startsComment = commentAt cs i := by
  obtain ⟨hchar, hafter, hin⟩ := of_getElem?_cells h
  rw [Cell.startsComment, commentAt, hchar, hafter, hin, Bool.not_not, Bool.and_assoc, Bool.and_comm]
  simp

theorem isTab_eq {x : Cell} (h : (cells cs)[i]? = some x) : x.isTab = tabAt cs i := by
  obtain ⟨hchar, _, hin⟩ := of_getElem?_cells h
  rw [Cell.isTab, tabAt, hchar, hin, Bool.not_not, Bool.and_comm]
  simp

end

/-! ## Comments -/

theorem commentStart_le (cs : List Char) : commentStart cs ≤ cs.length := by
  have h : (List.range cs.length).findIdx (commentAt cs) ≤ (List.range cs.length).length :=
    List.findIdx_le_length
  rwa [List.length_range] at h

theorem commentAt_eq_false {cs : List Char} {i : Nat} (h : i < commentStart cs) : commentAt cs i = false := by
  have hnot := List.not_of_lt_findIdx h
  rw [List.getElem_range] at hnot
  simpa using hnot

namespace SourceLine

/-- The cells of a line before its comment, by position. -/
theorem codeCells_eq (body : List Char) : codeCells body = (cells body).take (commentStart body) := by
  have hmap : (cells body).map Cell.startsComment = (List.range body.length).map (commentAt body) :=
    map_cells fun _ _ => startsComment_eq
  have hfind : (cells body).findIdx Cell.startsComment = commentStart body := by
    have hfind := congrArg (List.findIdx id) hmap
    rwa [List.findIdx_map, List.findIdx_map] at hfind
  rw [codeCells, List.takeWhile_eq_take_findIdx_not]
  simp only [Bool.not_not]
  rw [hfind]

theorem length_codeCells (body : List Char) : (codeCells body).length = commentStart body := by
  rw [codeCells_eq, List.length_take, length_cells, Nat.min_eq_left (commentStart_le body)]

theorem tabs_ofBody (maxLen : Nat) (body : List Char) :
    (ofBody maxLen body).tabs = (List.range (commentStart body)).countP (tabAt body) := by
  have hmap : (cells body).map Cell.isTab = (List.range body.length).map (tabAt body) :=
    map_cells fun _ _ => isTab_eq
  have hcount : (codeCells body).countP Cell.isTab =
      (((cells body).map Cell.isTab).take (commentStart body)).countP id := by
    rw [codeCells_eq, ← List.map_take, List.countP_map]
    rfl
  show (codeCells body).countP Cell.isTab = _
  rw [hcount, hmap, ← List.map_take, List.countP_map, List.take_range, Nat.min_eq_left (commentStart_le body)]
  rfl

theorem truncated_ofBody (maxLen : Nat) (body : List Char) :
    (ofBody maxLen body).truncated = true ↔ maxLen < commentStart body := by
  show decide (maxLen < (codeCells body).length) = true ↔ _
  rw [length_codeCells, decide_eq_true_iff]

end SourceLine

/-! ## Strings stay where they are -/

theorem spansFrom_map_loaded {before before' : Option Char} (hb : before = some '\\' ↔ before' = some '\\')
    (inString : Bool) (opened : Option Nat) (i : Nat) (cs : List Char) :
    spansFrom before' opened i ((cellsFrom [] before inString cs).map Cell.loaded) =
      spansFrom before opened i cs := by
  induction cs generalizing before before' inString opened i with
  | nil => rfl
  | cons c cs ih =>
    have hd' : isDelimiter before' (Cell.loaded ⟨before, c, cs.head?, inString⟩) = isDelimiter before c :=
      Cell.isDelimiter_loaded _ hb
    rw [cellsFrom_cons, List.map_cons]
    cases hd : isDelimiter before c with
    | true =>
      rw [hd] at hd'
      cases opened with
      | none => rw [spansFrom_open hd', spansFrom_open hd, ih (Cell.escapes_loaded _)]
      | some start => rw [spansFrom_close hd', spansFrom_close hd, ih (Cell.escapes_loaded _)]
    | false =>
      rw [hd] at hd'
      rw [spansFrom_pass hd', spansFrom_pass hd, ih (Cell.escapes_loaded _)]

theorem inStringAt_map_loaded (cs : List Char) (i : Nat) :
    inStringAt ((cells cs).map Cell.loaded) i = inStringAt cs i := by
  rw [inStringAt, stringSpans, cells, spansFrom_map_loaded Iff.rfl]
  rfl

/-! ## The normal form -/

/-- A text as loading leaves it. -/
structure IsNormal (text : List Char) : Prop where
  no_control : ∀ x ∈ text, isControl x = false
  only_space : ∀ x ∈ text, isBlank x = true → x = ' '
  no_space_last : text.getLast? ≠ some ' '
  no_space_in_string : ∀ i, inStringAt text i = true → text[i]? ≠ some ' '
  no_comment : ∀ i, commentAt text i = false

namespace SourceLine

section

variable {maxLen : Nat} {body : List Char} {i : Nat}

theorem length_text_le : (ofBody maxLen body).text.length ≤ min maxLen (commentStart body) := by
  have hprefix : (ofBody maxLen body).text <+: ((codeCells body).take maxLen).map Cell.loaded :=
    List.rdropWhile_prefix isBlank _
  have hle := hprefix.length_le
  rwa [List.length_map, List.length_take, length_codeCells] at hle

/-- A character of the text with the cell that it was loaded from. -/
theorem exists_cell {c : Char} (h : (ofBody maxLen body).text[i]? = some c) :
    ∃ x, (cells body)[i]? = some x ∧ x.loaded = c := by
  obtain ⟨rest, hrest⟩ := text_isPrefix maxLen body
  have hi := (List.getElem?_eq_some_iff.1 h).1
  rw [← List.getElem?_append_left hi, hrest, List.getElem?_map, Option.map_eq_some_iff] at h
  exact h

theorem inStringAt_text (h : i < (ofBody maxLen body).text.length) :
    inStringAt (ofBody maxLen body).text i = inStringAt body i := by
  rw [← inStringAt_of_isPrefix (text_isPrefix maxLen body) h, inStringAt_map_loaded]

/-- A slash of the text was one before. -/
theorem slash_of_text (h : (ofBody maxLen body).text[i]? = some '/') : body[i]? = some '/' := by
  obtain ⟨x, hx, hload⟩ := exists_cell h
  rw [(of_getElem?_cells hx).1, (x.loaded_eq_iff rfl rfl (by decide) (by decide)).1 hload]

end

/-- Every loaded text is in normal form. -/
theorem isNormal_text (maxLen : Nat) (body : List Char) : IsNormal (ofBody maxLen body).text where
  no_control _ hx := isControl_of_mem_text hx
  only_space _ hx := (isBlank_iff_of_mem_text hx).1
  no_space_last := by
    intro hlast
    have hne : (ofBody maxLen body).text ≠ [] := by
      intro hnil
      rw [hnil] at hlast
      cases hlast
    have hblank := List.rdropWhile_last_not isBlank _ hne
    rw [List.getLast?_eq_some_getLast hne, Option.some.injEq] at hlast
    exact hblank (hlast ▸ rfl)
  no_space_in_string i hin hspace := by
    obtain ⟨x, hx, hload⟩ := exists_cell hspace
    rw [inStringAt_text (List.getElem?_eq_some_iff.1 hspace).1, (of_getElem?_cells hx).2.2, Cell.isCode] at hin
    cases hs : x.inString with
    | true =>
      have hblank := Cell.isBlank_loaded hs
      rw [hload] at hblank
      cases hblank
    | false =>
      have hd : x.delimits = true := by simpa [hs] using hin
      have hquote : x.loaded = x.char := if_pos hd
      rw [hload, eq_quote_of_isDelimiter hd] at hquote
      cases hquote
  no_comment i := by
    cases hc : commentAt (ofBody maxLen body).text i with
    | false => rfl
    | true =>
      simp only [commentAt, Bool.and_eq_true, decide_eq_true_iff, Bool.not_eq_true'] at hc
      obtain ⟨⟨hfirst, hsecond⟩, hin⟩ := hc
      have hi := (List.getElem?_eq_some_iff.1 hfirst).1
      -- the line has its comment at the same place, and the text ends before it
      have hcomment : commentAt body i = true := by
        rw [inStringAt_text hi] at hin
        simp [commentAt, slash_of_text hfirst, slash_of_text hsecond, hin]
      have hlt : i < commentStart body := Nat.lt_of_lt_of_le hi (length_text_le.trans (Nat.min_le_right _ _))
      rw [commentAt_eq_false hlt] at hcomment
      cases hcomment

end SourceLine

namespace IsNormal

variable {text : List Char} (h : IsNormal text)
include h

theorem not_isBreak {x : Char} (hx : x ∈ text) : isBreak x = false := by
  have hcontrol := h.no_control x hx
  cases hb : isBreak x with
  | false => rfl
  | true =>
    have hx : x = '\n' ∨ x = '\r' := by simpa [isBreak] using hb
    rcases hx with rfl | rfl <;> cases hcontrol

theorem commentStart_eq : commentStart text = text.length := by
  have hnone : (List.range text.length).findIdx (commentAt text) = (List.range text.length).length :=
    List.findIdx_eq_length.2 fun i _ => h.no_comment i
  rwa [List.length_range] at hnone

/-- A tab is a control character. -/
theorem ne_tab {x : Char} (hx : x ∈ text) : x ≠ '\t' := by
  rintro rfl
  cases h.no_control _ hx

/-- Nothing is replaced, and nothing is counted. -/
theorem of_mem_cells {x : Cell} (hx : x ∈ cells text) : x.loaded = x.char ∧ x.isTab = false := by
  obtain ⟨i, hi⟩ := List.mem_iff_getElem?.1 hx
  obtain ⟨hchar, _, hin⟩ := of_getElem?_cells hi
  have hmem : x.char ∈ text := List.mem_of_getElem? hchar
  have htab := h.ne_tab hmem
  refine ⟨?_, by simp [Cell.isTab, htab]⟩
  cases hblank : isBlank x.char with
  | false => simp [Cell.loaded, h.no_control _ hmem, hblank, htab]
  | true =>
    -- a blank is a space, and a space is not part of a string
    have hspace := h.only_space _ hmem hblank
    have hcode : x.isCode = true := by
      cases hc : x.isCode with
      | true => rfl
      | false =>
        rw [hc] at hin
        exact absurd (hspace ▸ hchar) (h.no_space_in_string i hin)
    simp only [Cell.isCode, Bool.and_eq_true, Bool.not_eq_true'] at hcode
    simp [Cell.loaded, hcode.1, hspace]

theorem trimEnd_eq : trimEnd text = text := by
  refine List.rdropWhile_eq_self_iff.2 fun hne hblank => ?_
  have hlast := h.only_space _ (List.getLast_mem hne) hblank
  exact h.no_space_last (by rw [List.getLast?_eq_some_getLast hne, hlast])

theorem ofBody_eq {maxLen : Nat} (hlen : text.length ≤ maxLen) :
    SourceLine.ofBody maxLen text = { text, tabs := 0, truncated := false } := by
  have hcode : SourceLine.codeCells text = cells text := by
    rw [SourceLine.codeCells_eq, h.commentStart_eq, ← length_cells, List.take_length]
  have hload : (cells text).map Cell.loaded = text := by
    have hchar := map_char_cells text
    rwa [← List.map_congr_left fun x hx => (h.of_mem_cells hx).1] at hchar
  have htabs : (cells text).countP Cell.isTab = 0 :=
    List.countP_eq_zero.2 fun x hx => by simp [(h.of_mem_cells hx).2]
  rw [SourceLine.ofBody, hcode, List.map_take, hload, htabs, List.take_of_length_le hlen, h.trimEnd_eq,
    length_cells, decide_eq_false (Nat.not_lt.2 hlen)]

end IsNormal

namespace SourceLine

/-- **Loading brings a line into normal form.** The text of a line that is not
empty is short enough and in normal form, and loading it again gives the same text
and nothing to report. Of the physical line the loader reports whether it has too
many characters before its comment, and how many of them are tabs outside strings. -/
theorem load_normal {source : List Char} {cursor maxLen next : Nat} {line : SourceLine}
    (h : load? source cursor maxLen = some (line, next)) :
    (line.text ≠ [] →
      line.text.length ≤ maxLen ∧ IsNormal line.text ∧
        load? line.text 0 maxLen =
          some ({ text := line.text, tabs := 0, truncated := false }, byteLength line.text)) ∧
    ∃ s : Segment, s.IsAt source cursor ∧
      (line.truncated = true ↔ maxLen < commentStart s.body) ∧
      line.tabs = (List.range (commentStart s.body)).countP (tabAt s.body) := by
  obtain ⟨s, hs, rfl⟩ := exists_segment_of_load maxLen h
  refine ⟨?_, s, hs, truncated_ofBody maxLen s.body, tabs_ofBody maxLen s.body⟩
  intro hne
  have hnormal := isNormal_text maxLen s.body
  have hlen : (ofBody maxLen s.body).text.length ≤ maxLen :=
    length_text_le.trans (Nat.min_le_left _ _)
  refine ⟨hlen, hnormal, ?_⟩
  rw [load_of_unbroken maxLen hne fun x hx => hnormal.not_isBreak hx, hnormal.ofBody_eq hlen]

/-- A line that is cut in a string which has two slashes, from the middle of a
source. -/
theorem load_normal_cut_string :
    load? "é\nx\t= \"a b//\t\" + // c\nend".toList 3 10 = some (⟨"x = \"a_b//".toList, 1, true⟩, 23) ∧
      "x = \"a_b//".toList ≠ [] ∧ IsNormal "x = \"a_b//".toList ∧
      load? "x = \"a_b//".toList 0 10 = some (⟨"x = \"a_b//".toList, 0, false⟩, 10) ∧
      ∃ s : Segment, s.IsAt "é\nx\t= \"a b//\t\" + // c\nend".toList 3 ∧ 10 < commentStart s.body := by
  have hload : load? "é\nx\t= \"a b//\t\" + // c\nend".toList 3 10 =
      some (⟨"x = \"a_b//".toList, 1, true⟩, 23) := by decide
  have hne : "x = \"a_b//".toList ≠ [] := by decide
  obtain ⟨htext, s, hs, htruncated, _⟩ := load_normal hload
  obtain ⟨_, hnormal, hagain⟩ := htext hne
  exact ⟨hload, hne, hnormal, hagain, s, hs, htruncated.1 rfl⟩

end SourceLine

end NpcScript
