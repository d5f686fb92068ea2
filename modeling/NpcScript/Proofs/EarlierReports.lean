import NpcScript.Proofs.Acceptance

/-! # What was reported before

A compiler never looks back at its log. A draft with more reports at the start
of its log goes the same way, with these reports still at the start: every step
commutes with `behind`. So a source that is too large is compiled as the part of
it that is kept, after one report. -/
namespace NpcScript

variable {σ : Type}

/-- A log behind earlier reports. -/
def Log.behind (ds : List Diagnostic) (l : Log) : Log :=
  { l with entries := ds.toArray ++ l.entries }

namespace Log

variable (ds : List Diagnostic) (l : Log)

@[simp]
theorem toList_behind : (l.behind ds).toList = ds ++ l.toList := by
  simp [behind, toList]

theorem push_behind (d : Diagnostic) : (l.behind ds).push d = (l.push d).behind ds := by
  simp [behind, push]

theorem append_behind (is : List Diagnostic) : (l.behind ds).append is = (l.append is).behind ds := by
  induction is generalizing l with
  | nil => rfl
  | cons i is ih =>
    show ((l.behind ds).push i).append is = _
    rw [push_behind]
    exact ih (l.push i)

end Log

/-- A draft behind earlier reports. -/
def Draft.behind (ds : List Diagnostic) (d : Draft σ) : Draft σ := { d with log := d.log.behind ds }

def Operands.behind (ds : List Diagnostic) (e : Operands σ) : Operands σ :=
  { e with draft := e.draft.behind ds }

namespace Draft

variable (ds : List Diagnostic) (d : Draft σ)

theorem report_behind (issue : Diagnostic) : (d.behind ds).report issue = (d.report issue).behind ds := by
  show { d with log := (d.log.behind ds).push (issue.inLine d.line) } = _
  rw [Log.push_behind]
  rfl

theorem reportIf_behind (condition : Bool) (issue : Diagnostic) :
    (d.behind ds).reportIf condition issue = (d.reportIf condition issue).behind ds := by
  cases condition with
  | true => exact d.report_behind ds issue
  | false => rfl

theorem emit_behind (w : Word) : (d.behind ds).emit w = (d.emit w).behind ds := by
  unfold emit
  by_cases hc : d.closed = true
  · have hb : (d.behind ds).closed = true := hc
    rw [if_pos hc, if_pos hb]
  · have hb : ¬ (d.behind ds).closed = true := hc
    rw [if_neg hc, if_neg hb]
    by_cases room : d.code.isFull = false
    · have hroom : (d.behind ds).code.isFull = false := room
      rw [dif_pos room, dif_pos hroom]
      rfl
    · have hroom : ¬ (d.behind ds).code.isFull = false := room
      rw [dif_neg room, dif_neg hroom, report_behind]
      rfl

theorem read_behind (r : Reader σ) (l : Lexeme) :
    (d.behind ds).read r l = ((d.read r l).1, (d.read r l).2.behind ds) := by
  show (_, { d with log := (d.log.behind ds).append _, host := _ }) = _
  rw [Log.append_behind]
  rfl

end Draft

namespace Operands

variable (ds : List Diagnostic) (e : Operands σ) (r : Reader σ)

theorem take_behind (t : Token) : (e.behind ds).take t = (e.take t).behind ds := by
  unfold take
  split
  · show (if e.expecting then _ else _) = _
    split
    · show Operands.mk ((e.draft.behind ds).emit _) _ _ = _
      rw [Draft.emit_behind]
      rfl
    · show Operands.mk ((e.draft.behind ds).report _) _ _ = _
      rw [Draft.report_behind]
      rfl
  · split
    · show Operands.mk ((e.draft.behind ds).reportIf _ _) _ _ = _
      rw [Draft.reportIf_behind]
      rfl
    · split
      · show Operands.mk ((e.draft.behind ds).report _) _ _ = _
        rw [Draft.report_behind]
        rfl
      · show Operands.mk ((e.draft.behind ds).reportIf _ _) _ _ = _
        rw [Draft.reportIf_behind]
        rfl

theorem read_behind (l : Lexeme) : (e.behind ds).read r l = (e.read r l).behind ds := by
  show Operands.take { e with draft := ((e.draft.behind ds).read r l).2 } _ = _
  rw [Draft.read_behind]
  exact take_behind ds { e with draft := (e.draft.read r l).2 } _

theorem foldl_read_behind (ls : List Lexeme) :
    ls.foldl (Operands.read r) (e.behind ds) = (ls.foldl (Operands.read r) e).behind ds := by
  induction ls generalizing e with
  | nil => rfl
  | cons l ls ih =>
    rw [List.foldl_cons, read_behind, ih]
    rfl

end Operands

namespace Draft

variable (ds : List Diagnostic) (d : Draft σ) (r : Reader σ) (target : Token)

theorem readAssign_behind (words : List Lexeme) :
    (d.behind ds).readAssign r target words =
      ((d.readAssign r target words).1.behind ds, (d.readAssign r target words).2) := by
  cases words with
  | nil =>
    show (Operands.mk ((d.behind ds).report _) _ _, _) = _
    rw [report_behind]
    rfl
  | cons l rest =>
    simp only [readAssign, read_behind]
    split
    · rfl
    · rw [report_behind]
      have htake := Operands.take_behind ds
        { draft := (d.read r l).2.report (.notAssigned (d.read r l).1.word target.word) } (d.read r l).1
      exact congrArg (·, false, rest) htake

theorem operands_behind (slot : Nat) (words : List Lexeme) :
    operands slot (d.behind ds) r target words = (operands slot d r target words).behind ds := by
  simp only [operands, readAssign_behind, Operands.foldl_read_behind]
  generalize (d.readAssign r target words).2.2.foldl (Operands.read r)
    (d.readAssign r target words).1 = e
  have hdraft : (e.behind ds).draft = e.draft.behind ds := rfl
  rw [hdraft, reportIf_behind]
  rfl

theorem assignment_behind (indent : Nat) (words : List Lexeme) :
    (d.behind ds).assignment r target indent words = (d.assignment r target indent words).behind ds := by
  simp only [assignment, emit_behind]
  exact operands_behind ds _ r target _ words

theorem function_behind (indent : Nat) (rest : List Char) :
    (d.behind ds).function target indent rest = (d.function target indent rest).behind ds := by
  simp only [function, emit_behind, reportIf_behind]

theorem indentation_behind (spaces : Nat) :
    (d.behind ds).indentation spaces =
      ((d.indentation spaces).1, (d.indentation spaces).2.behind ds) := by
  simp only [indentation, reportIf_behind]
  split
  · rw [report_behind]
  · rfl

end Draft

namespace Compiler

variable (c : Compiler σ) (ds : List Diagnostic) (d : Draft σ)

theorem statement_behind (indent : Nat) (text : List Char) :
    c.statement (d.behind ds) indent text =
      ((c.statement d indent text).1.behind ds, (c.statement d indent text).2) := by
  unfold statement
  split
  · rfl
  · rw [Draft.read_behind]
    dsimp only
    split
    · split
      · rfl
      · rw [Draft.function_behind]
    · rw [Draft.assignment_behind]
    · rw [Draft.report_behind]
    · rfl

theorem line_behind (body : List Char) :
    c.line (d.behind ds) body = ((c.line d body).1.behind ds, (c.line d body).2) := by
  have hnext : { d.behind ds with line := (d.behind ds).line + 1 } =
      Draft.behind ds { d with line := d.line + 1 } := rfl
  simp only [line, hnext, Draft.reportIf_behind, Draft.indentation_behind, statement_behind]
  split <;> rfl

theorem lines_behind (ss : List Segment) :
    c.lines (d.behind ds) ss = ((c.lines d ss).1.behind ds, (c.lines d ss).2) := by
  induction ss generalizing d with
  | nil => rfl
  | cons s ss ih =>
    rw [lines, lines, line_behind]
    generalize c.line d s.body = out
    obtain ⟨e, ended⟩ := out
    cases ended with
    | true => rfl
    | false => exact ih e

theorem terminate_behind : c.terminate (d.behind ds) = (c.terminate d).behind ds := by
  unfold terminate
  split
  · rw [Draft.emit_behind, Draft.emit_behind]
  · rw [Draft.report_behind]

end Compiler

/-! ## Problems of lines -/

/-- Problems that are found after the size of the source was looked at. -/
def OfLines (is : List Diagnostic) : Prop := ∀ i ∈ is, i.code ≠ .sourceTooLarge

@[simp]
theorem ofLines_nil : OfLines [] := fun _ h => absurd h List.not_mem_nil

@[simp]
theorem ofLines_cons {i : Diagnostic} {is : List Diagnostic} :
    OfLines (i :: is) ↔ i.code ≠ .sourceTooLarge ∧ OfLines is := List.forall_mem_cons

@[simp]
theorem ofLines_append {is js : List Diagnostic} : OfLines (is ++ js) ↔ OfLines is ∧ OfLines js :=
  List.forall_mem_append

theorem ofLines_ite {p : Prop} [Decidable p] {is js : List Diagnostic} (h : OfLines is) (h' : OfLines js) :
    OfLines (if p then is else js) := by
  split
  · exact h
  · exact h'

/-- Where a problem is does not change what it is. -/
theorem ofLines_map_stamp {is : List Diagnostic} (n : LineNumber) (script : String) :
    OfLines (is.map fun i => (i.inLine n).inScript script) ↔ OfLines is := by
  simp only [OfLines, List.forall_mem_map]
  rfl

theorem Log.contains_sourceTooLarge_iff (l : Log) :
    l.contains .sourceTooLarge = false ↔ OfLines l.notes := by
  rw [contains, ← Array.any_toList, List.any_eq_false]
  constructor
  · intro h d hd
    simpa using h d (List.mem_of_mem_filter hd)
  · intro h d hd
    by_cases hc : d.code = .programTooLarge
    · simp [hc]
    · simpa using h d (List.mem_filter.2 ⟨hd, by simpa using hc⟩)

theorem Reader.ofLines_read (r : Reader σ) (n : LineNumber) (s : σ) (l : Lexeme) :
    OfLines (r.read n s l).issues := by
  have hclassify : OfLines (r.classify n s (l.text.take r.maxWord)).issues := by
    unfold classify
    cases WordForm.ofWord (l.text.take r.maxWord) with
    | numeral k => exact ofLines_ite (by simp [Diagnostic.constantOverflow]) ofLines_nil
    | code bytes => exact ofLines_nil
    | assign => exact ofLines_nil
    | asset name =>
      dsimp only
      split
      · exact ofLines_nil
      · simp [Diagnostic.assetNotFound]
    | message text => exact ofLines_nil
    | name =>
      unfold lookUp
      dsimp only
      split
      · simp [Diagnostic.unknownOpcode]
      · split
        · exact ofLines_nil
        · split
          · exact ofLines_nil
          · simp [Diagnostic.symbolOutOfRange]
  have hall : OfLines ((if l.unclosed then [Diagnostic.unterminated (String.ofList l.text)] else []) ++
      ((if r.maxWord < l.text.length then [Diagnostic.wordTooLong (String.ofList l.text)] else []) ++
        (r.classify n s (l.text.take r.maxWord)).issues)) := by
    rw [ofLines_append, ofLines_append]
    exact ⟨ofLines_ite (by simp [Diagnostic.unterminated]) ofLines_nil,
      ofLines_ite (by simp [Diagnostic.wordTooLong]) ofLines_nil, hclassify⟩
  intro i hi
  obtain ⟨j, hj, rfl⟩ := List.mem_map.1 hi
  exact hall j hj

theorem RightSide.ofLines_complaint (m : RightSide) (t : Token) : OfLines (m.complaint? t).toList := by
  unfold complaint?
  split
  · split <;> simp [Diagnostic.noOperatorBefore]
  · split
    · split <;> simp [Diagnostic.noOperandBefore]
    · split
      · simp [Diagnostic.secondAssign]
      · split <;> simp [Diagnostic.notAValue]

section

variable {xs : List (Reading σ)} (h : ∀ x ∈ xs, OfLines x.issues)
include h

theorem RightSide.ofLines_issues (m : RightSide) : OfLines (m.issues xs) := by
  induction xs generalizing m with
  | nil => exact ofLines_nil
  | cons x xs ih =>
    obtain ⟨hx, hxs⟩ := List.forall_mem_cons.1 h
    rw [issues, ofLines_append, ofLines_append]
    exact ⟨⟨hx, m.ofLines_complaint x.token⟩, ih hxs _⟩

theorem ofLines_assignIssues (target : Token) : OfLines (assignIssues target xs) := by
  cases xs with
  | nil => simp [assignIssues, Diagnostic.nothingAssigned]
  | cons x xs =>
    obtain ⟨hx, hxs⟩ := List.forall_mem_cons.1 h
    rw [assignIssues]
    split
    · exact ofLines_append.2 ⟨hx, RightSide.ofLines_issues hxs _⟩
    · rw [ofLines_append, ofLines_cons, ofLines_append]
      exact ⟨hx, by simp [Diagnostic.notAssigned], RightSide.ofLines_complaint _ _,
        RightSide.ofLines_issues hxs _⟩

end

theorem LineReading.ofLines_issues {l : LineReading σ} (h : ∀ x ∈ l.readings, OfLines x.issues)
    (maxLine room : Nat) : OfLines (l.issues maxLine room) := by
  have hstatement : OfLines (l.statementIssues room) := by
    unfold statementIssues
    split
    · exact ofLines_nil
    · rename_i x xs hr
      rw [hr] at h
      obtain ⟨hx, hxs⟩ := List.forall_mem_cons.1 h
      refine ofLines_append.2 ⟨hx, ?_⟩
      split
      · exact ofLines_ite ofLines_nil (by simp [Diagnostic.trailingText])
      · exact ofLines_append.2 ⟨ofLines_assignIssues hxs _,
          ofLines_ite (by simp [Diagnostic.noOperandAtEnd]) ofLines_nil⟩
      · simp [Diagnostic.invalidStatement]
      · exact ofLines_nil
  have hindent : OfLines l.indentIssues :=
    ofLines_append.2 ⟨ofLines_ite (by simp [Diagnostic.oddIndentation]) ofLines_nil,
      ofLines_ite (by simp [Diagnostic.tooDeep]) ofLines_nil⟩
  rw [issues, ofLines_append, ofLines_append]
  exact ⟨ofLines_ite (by simp [Diagnostic.tabs]) ofLines_nil,
    ofLines_ite (by simp [Diagnostic.lineTooLong]) ofLines_nil,
    ofLines_ite ofLines_nil (ofLines_append.2 ⟨hindent, hstatement⟩)⟩

theorem LineReading.ofLines_reports {ls : List (LineReading σ)}
    (h : ∀ l ∈ ls, ∀ x ∈ l.readings, OfLines x.issues) (script : String) (maxLine room : Nat) :
    OfLines (reports script maxLine room ls) := by
  induction ls generalizing room with
  | nil => exact ofLines_nil
  | cons l ls ih =>
    obtain ⟨hl, hls⟩ := List.forall_mem_cons.1 h
    rw [reports, ofLines_append, ofLines_map_stamp]
    exact ⟨ofLines_issues hl maxLine room, ih hls _⟩

/-! ## Sources that are too large -/

namespace Compiler

variable (c : Compiler σ) (state : σ) (name : String) (source : List Char)

theorem ofLines_of_mem_lineReadings :
    ∀ l ∈ c.lineReadings state source, ∀ x ∈ l.readings, OfLines x.issues := by
  intro l hl x hx
  obtain ⟨n, s, body, rfl⟩ := c.exists_of_mem_readLines hl
  obtain ⟨s', word, rfl⟩ := c.reader.exists_of_mem_readLine n hx
  exact c.reader.ofLines_read n s' word

/-- That a source is too large is reported exactly if it is. -/
theorem contains_sourceTooLarge_compile :
    (c.compile state name source).log.contains .sourceTooLarge =
      decide (c.limits.maxSource < Text.byteLength source) := by
  have hreports := LineReading.ofLines_reports (c.ofLines_of_mem_lineReadings state source) name
    c.limits.maxLine c.limits.maxWords
  have hending : OfLines (c.endingIssues (c.lineReadings state source)) :=
    ofLines_append.2 ⟨ofLines_ite ofLines_nil (by simp [Diagnostic.missingEnd]),
      ofLines_ite ofLines_nil (by simp [Diagnostic.noEndSymbol])⟩
  have hissues : OfLines (c.sourceIssues source) ↔ ¬ c.limits.maxSource < Text.byteLength source := by
    unfold sourceIssues
    split
    · simp [Nat.not_lt.2 ‹_›]
    · simp [Nat.lt_of_not_le ‹_›, Diagnostic.sourceTooLarge]
  rw [← Bool.not_inj_iff, Bool.eq_iff_iff, Bool.not_eq_true', Log.contains_sourceTooLarge_iff,
    Bool.not_eq_true', decide_eq_false_iff_not, ← hissues]
  show OfLines (c.draft state name source).log.notes ↔ _
  rw [(c.draft_spec state name source).2.2.1, notes, ofLines_append, ofLines_append,
    ofLines_map_stamp, ofLines_map_stamp]
  exact and_iff_left ⟨hreports, hending⟩

/-- Compile a text that is not too large. -/
def finished (text : List Char) : Draft σ :=
  let out := c.lines (c.blank state name) (segments text)
  c.terminate (out.1.reportIf (!out.2) .missingEnd)

/-- A source is compiled as the part of it that is kept, behind a report if that
is not all of it. -/
theorem draft_eq_finished :
    c.draft state name source = (c.finished state name (c.kept source)).behind
      ((c.sourceIssues source).map fun i => (i.inLine 0).inScript name) := by
  have hbounded : c.bounded (c.blank state name) source =
      (c.kept source, (c.blank state name).behind
        ((c.sourceIssues source).map fun i => (i.inLine 0).inScript name)) := by
    unfold bounded kept sourceIssues
    dsimp only
    split <;> rfl
  unfold draft
  rw [hbounded]
  dsimp only
  rw [lines_behind, Draft.reportIf_behind, terminate_behind]
  rfl

variable {c source} {source' : List Char} (h : c.kept source = c.kept source')
include h

/-- Sources of which the same part is kept give the same script, leave the host
in the same state, and have the same log behind what is said of their size. -/
theorem compile_congr_kept :
    (c.compile state name source).script = (c.compile state name source').script ∧
      (c.compile state name source).state = (c.compile state name source').state ∧
      ∃ rest,
        (c.compile state name source).log.toList =
          (c.sourceIssues source).map (fun i => (i.inLine 0).inScript name) ++ rest ∧
        (c.compile state name source').log.toList =
          (c.sourceIssues source').map (fun i => (i.inLine 0).inScript name) ++ rest := by
  have hd := c.draft_eq_finished state name source
  have hd' := c.draft_eq_finished state name source'
  rw [← h] at hd'
  unfold compile
  dsimp only
  rw [hd, hd']
  exact ⟨rfl, rfl, _, Log.toList_behind .., Log.toList_behind ..⟩

end Compiler

end NpcScript
