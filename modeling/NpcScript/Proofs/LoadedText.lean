import NpcScript.Proofs.LineNumbers
import NpcScript.Proofs.PhysicalLines

/-! # Code from loaded text

The code of a source depends on the loaded texts of its lines that are not
empty, in their order, and on nothing else: not on line numbers, and not on what
loading takes away. `codeOf` is compiling from texts, and the blocks of a source
and the host's state after it are its two results. -/
namespace NpcScript

variable {σ : Type}

namespace Compiler

variable (c : Compiler σ)

/-- Read a loaded text, as if it were alone. -/
def readText (s : σ) (text : List Char) : LineReading σ :=
  { number := 0
    width := text.length
    line := { text }
    readings := c.reader.readLine 0 s (spaceOperators text)
    rest := ((Lexeme.first? (spaceOperators text)).map Prod.snd).getD [] }

/-- The blocks of loaded texts up to the one that ends the script, and the
host's state after them. -/
def codeOf : σ → List (List Char) → List Block × σ
  | s, [] => ([], s)
  | s, text :: texts =>
    let l := c.readText s text
    let s := Reading.after s l.readings
    if l.endsScript then (l.blocks, s)
    else ((l.blocks ++ (codeOf s texts).1), (codeOf s texts).2)

def textOf (body : List Char) : List Char := (SourceLine.ofBody c.limits.maxLine body).text

/-- Of a physical line, only the loaded text counts. -/
theorem readBody_eq_readText (n : LineNumber) (s : σ) (body : List Char) :
    (c.readBody n s body).blocks = (c.readText s (c.textOf body)).blocks ∧
      (c.readBody n s body).endsScript = (c.readText s (c.textOf body)).endsScript ∧
      Reading.after s (c.readBody n s body).readings =
        Reading.after s (c.readText s (c.textOf body)).readings := by
  rw [c.readBody_atLine 0 n, LineReading.blocks_atLine, LineReading.endsScript_atLine]
  refine ⟨rfl, rfl, ?_⟩
  exact Reading.after_map_atLine n s _

theorem readText_nil (s : σ) : (c.readText s []).readings = [] := by
  have hf : Lexeme.first? (spaceOperators []) = none := rfl
  exact Reader.readLine_of_none _ _ _ hf

/-- An empty text has no code. -/
theorem codeOf_cons_nil (s : σ) (texts : List (List Char)) : c.codeOf s ([] :: texts) = c.codeOf s texts := by
  have hr := c.readText_nil s
  rw [codeOf, LineReading.endsScript_of_nil hr, LineReading.blocks_of_nil hr, hr]
  rfl

theorem codeOf_filter (s : σ) (texts : List (List Char)) :
    c.codeOf s (texts.filter fun text => !text.isEmpty) = c.codeOf s texts := by
  induction texts generalizing s with
  | nil => rfl
  | cons text texts ih =>
    cases text with
    | nil =>
      rw [codeOf_cons_nil, ← ih]
      rfl
    | cons x xs =>
      rw [List.filter_cons_of_pos rfl, codeOf, codeOf, ih]

/-- Reading physical lines is compiling their loaded texts. -/
theorem codeOf_map_textOf (n : LineNumber) (s : σ) (ss : List Segment) :
    c.codeOf s (ss.map fun segment => c.textOf segment.body) =
      ((c.readLines n s ss).flatMap LineReading.blocks, LineReading.after s (c.readLines n s ss)) := by
  induction ss generalizing n s with
  | nil => rfl
  | cons segment ss ih =>
    obtain ⟨hb, he, ha⟩ := c.readBody_eq_readText (n + 1) s segment.body
    rw [List.map_cons, codeOf, readLines, ← hb, ← he, ← ha, ih (n + 1)]
    cases (c.readBody (n + 1) s segment.body).endsScript with
    | true => simp [LineReading.after]
    | false => rfl

/-- The loaded texts of a source that are not empty. -/
def texts (source : List Char) : List (List Char) :=
  ((bodies source).map c.textOf).filter fun text => !text.isEmpty

theorem codeOf_texts (s : σ) (source : List Char) :
    c.codeOf s (c.texts source) = ((c.readSource s source).flatMap LineReading.blocks,
      LineReading.after s (c.readSource s source)) := by
  rw [texts, codeOf_filter, readSource, ← codeOf_map_textOf, bodies]
  -- a line without characters loads as an empty text
  induction segments source generalizing s with
  | nil => rfl
  | cons segment ss ih =>
    rw [List.map_cons, List.map_cons, List.filter_cons]
    cases hbody : segment.body with
    | nil =>
      have ht : c.textOf [] = [] := by simp [textOf, SourceLine.ofBody, SourceLine.codeCells, cells,
        cellsFrom, Text.trimEnd]
      rw [ht, codeOf_cons_nil]
      exact ih s
    | cons x xs =>
      rw [List.isEmpty_cons, Bool.not_false, if_pos rfl, List.map_cons, codeOf, codeOf, ih]

variable {c}

/-- The blocks of a source that is not too long, from its texts. -/
theorem blocks_eq_codeOf {source : List Char} (h : Text.byteLength source ≤ c.limits.maxSource) (state : σ) :
    c.blocks state source = (c.codeOf state (c.texts source)).1 ++
      c.symbols.end?.toList.map fun e => { head := .head true 0 e.value } := by
  have hkept : c.kept source = source := if_pos h
  rw [codeOf_texts, blocks, lineReadings, hkept]

theorem state_compile_eq_codeOf {source : List Char}
    (h : Text.byteLength source ≤ c.limits.maxSource) (state : σ) (name : String) :
    (c.compile state name source).state = (c.codeOf state (c.texts source)).2 := by
  have hkept : c.kept source = source := if_pos h
  rw [codeOf_texts, c.state_compile, lineReadings, hkept]

/-- The words before linking are those of the blocks, as far as there is room. -/
theorem words_unlinked (state : σ) (name : String) (source : List Char) :
    (c.unlinked state name source).words.toList =
      spell (layOut c.limits.maxWords 0 (c.blocks state source)) := by
  obtain ⟨hh, hlim, _, _⟩ := c.draft_spec state name source
  have hcode := hh.code
  rw [hlim] at hcode
  exact hcode

/-- A script is known from its blocks. -/
theorem script_compile_congr {state : σ} {source source' : List Char}
    (h : c.blocks state source = c.blocks state source') (name : String) :
    (c.compile state name source).script = (c.compile state name source').script := by
  have hwords : (c.unlinked state name source).words = (c.unlinked state name source').words := by
    rw [← Array.toList_inj, words_unlinked, words_unlinked, h]
  have hscript : c.unlinked state name source = c.unlinked state name source' :=
    congrArg (Script.mk name) hwords
  rw [script_compile, script_compile, hscript]

end Compiler

end NpcScript
