import NpcScript.Proofs.MessageTables

/-! # Two runs of one source

A source compiled twice, against different states of the host, is read the same
way but for the values of plain strings, if the host decides nothing else by its
state. No decision of the compiler depends on such a value: `Draft.Twin` relates
the drafts of the two runs, which have the same log and the same size at every
step. -/
namespace NpcScript

variable {σ : Type}

/-- Tokens that differ at most in the value of a plain string. -/
def Token.Alike (t u : Token) : Prop :=
  t = u ∨ t.kind = some .constant ∧ t.literal?.isSome = true ∧ u = { t with value := u.value }

namespace Token.Alike

variable {t u : Token} (h : t.Alike u)
include h

theorem kind : t.kind = u.kind := by
  rcases h with rfl | ⟨_, _, hu⟩
  · rfl
  · rw [hu]

theorem word : t.word = u.word := by
  rcases h with rfl | ⟨_, _, hu⟩
  · rfl
  · rw [hu]

theorem symbol : t.symbol = u.symbol := by
  rcases h with rfl | ⟨_, _, hu⟩
  · rfl
  · rw [hu]

theorem literal? : t.literal? = u.literal? := by rw [Token.literal?, Token.literal?, h.word]

/-- All but plain strings are the same. -/
theorem eq_of_not_literal (hl : t.literal? = none) : t = u := by
  rcases h with rfl | ⟨_, hs, _⟩
  · rfl
  · rw [hl] at hs
    cases hs

theorem isVariable : t.isVariable = u.isVariable := by rw [Token.isVariable, Token.isVariable, h.kind]

theorem isFunction : t.isFunction = u.isFunction := by rw [Token.isFunction, Token.isFunction, h.kind]

theorem isUnknown : t.isUnknown = u.isUnknown := by rw [Token.isUnknown, Token.isUnknown, h.kind]

theorem isOperand : t.isOperand = u.isOperand := by
  simp only [Token.isOperand, Token.isConstant, Token.isVariable, h.kind]

theorem isAssign : t.isAssign = u.isAssign := by
  have hk := h.kind
  rcases h with rfl | ⟨hc, _, _⟩
  · rfl
  · simp [Token.isAssign, ← hk, hc]

theorem isOperator : t.isOperator = u.isOperator := by
  have hk := h.kind
  rcases h with rfl | ⟨hc, _, _⟩
  · rfl
  · simp [Token.isOperator, ← hk, hc]

/-- An operator is never a string. -/
theorem value_of_isOperator (ho : t.isOperator = true) : t.value = u.value := by
  rcases h with rfl | ⟨hc, _, _⟩
  · rfl
  · simp [Token.isOperator, hc] at ho

end Token.Alike

namespace Reader

/-- The state of the host shows in the values of plain strings only. -/
def Steady (r : Reader σ) : Prop :=
  ∀ n s s' l, (r.read n s l).issues = (r.read n s' l).issues ∧
    (r.read n s l).token.Alike (r.read n s' l).token

theorem steady_of_resolver {resolve : String → Option Int32} {r : Reader MessageTable}
    (hr : r.host = .ofResolver resolve) : r.Steady := by
  intro n s s' l
  unfold read classify
  cases hw : WordForm.ofWord (l.text.take r.maxWord) with
  | message text =>
    refine ⟨rfl, .inr ⟨rfl, ?_, rfl⟩⟩
    simp [Token.literal?, Token.constant, String.toList_ofList, hw]
  | asset name =>
    simp only [hr, Host.ofResolver]
    cases resolve (String.ofList name) <;> exact ⟨rfl, .inl rfl⟩
  | numeral _ | code _ | assign | name => exact ⟨rfl, .inl rfl⟩

end Reader

/-! ## Drafts -/

/-- Drafts that no problem and no size tells apart. -/
structure Draft.Twin (d e : Draft σ) : Prop where
  log : d.log = e.log
  line : d.line = e.line
  closed : d.closed = e.closed
  message : d.code.message = e.code.message
  limit : d.code.limit = e.code.limit
  size : d.code.size = e.code.size

structure Operands.Twin (a b : Operands σ) : Prop where
  draft : a.draft.Twin b.draft
  expecting : a.expecting = b.expecting

namespace Draft.Twin

variable {d e : Draft σ} (h : d.Twin e)
include h

theorem report (issue : Diagnostic) : (d.report issue).Twin (e.report issue) where
  log := by rw [Draft.report, Draft.report, h.log, h.line]
  line := h.line
  closed := h.closed
  message := h.message
  limit := h.limit
  size := h.size

theorem reportIf (condition : Bool) (issue : Diagnostic) :
    (d.reportIf condition issue).Twin (e.reportIf condition issue) := by
  cases condition with
  | true => exact h.report issue
  | false => exact h

/-- Any two words: only that there is a word counts. -/
theorem emit (v w : Word) : (d.emit v).Twin (e.emit w) := by
  have hfull : d.code.isFull = e.code.isFull := by rw [Buffer.isFull, Buffer.isFull, h.limit, h.size]
  have hover : d.code.overflow = e.code.overflow := by
    rw [Buffer.overflow, Buffer.overflow, h.message, h.limit]
  unfold Draft.emit
  rw [h.closed]
  split
  · exact h
  · by_cases hf : e.code.isFull = false
    · rw [dif_pos (hfull.trans hf), dif_pos hf]
      refine ⟨h.log, h.line, rfl, h.message, h.limit, ?_⟩
      have hs : d.code.items.size = e.code.items.size := h.size
      simp [Buffer.size, Buffer.push, hs]
    · rw [dif_neg (by rw [hfull]; exact hf), dif_neg hf, hover]
      have hr := h.report e.code.overflow
      exact ⟨hr.log, hr.line, rfl, hr.message, hr.limit, hr.size⟩

variable {r : Reader σ} (hr : r.Steady)
include hr

theorem read (l : Lexeme) :
    (d.read r l).1.Alike (e.read r l).1 ∧ (d.read r l).2.Twin (e.read r l).2 := by
  obtain ⟨hi, ht⟩ := hr d.line d.host e.host l
  unfold Draft.read
  rw [← h.line]
  refine ⟨ht, ?_, rfl, h.closed, h.message, h.limit, h.size⟩
  dsimp only
  rw [h.log, hi]

end Draft.Twin

namespace Operands.Twin

variable {a b : Operands σ}

theorem take (h : a.Twin b) {t u : Token} (ht : t.Alike u) : (a.take t).Twin (b.take u) := by
  obtain ⟨hd, hx⟩ := h
  unfold Operands.take
  rw [← ht.isOperand, ← ht.isOperator, ← ht.isAssign, ← ht.isUnknown, ← ht.word, ← hx]
  split
  · split
    · exact ⟨hd.emit _ _, rfl⟩
    · exact ⟨hd.report _, rfl⟩
  · split
    · exact ⟨hd.reportIf _ _, rfl⟩
    · split
      · exact ⟨hd.report _, rfl⟩
      · exact ⟨hd.reportIf _ _, rfl⟩

variable {r : Reader σ} (hr : r.Steady)
include hr

theorem read (h : a.Twin b) (l : Lexeme) : (Operands.read r a l).Twin (Operands.read r b l) := by
  obtain ⟨ht, hd⟩ := h.draft.read hr l
  exact take (a := { a with draft := (a.draft.read r l).2 })
    (b := { b with draft := (b.draft.read r l).2 }) ⟨hd, h.expecting⟩ ht

theorem foldl_read (h : a.Twin b) (ls : List Lexeme) :
    (ls.foldl (Operands.read r) a).Twin (ls.foldl (Operands.read r) b) := by
  induction ls generalizing a b with
  | nil => exact h
  | cons l ls ih => exact ih (h.read hr l)

end Operands.Twin

namespace Draft.Twin

variable {d e : Draft σ} {r : Reader σ} {t u : Token}

theorem readAssign (h : d.Twin e) (hr : r.Steady) (ht : t.Alike u) (ls : List Lexeme) :
    (d.readAssign r t ls).1.Twin (e.readAssign r u ls).1 ∧
      (d.readAssign r t ls).2 = (e.readAssign r u ls).2 := by
  cases ls with
  | nil =>
    unfold Draft.readAssign
    rw [← ht.word]
    exact ⟨⟨h.report _, rfl⟩, rfl⟩
  | cons l ls =>
    obtain ⟨hx, hd⟩ := h.read hr l
    unfold Draft.readAssign
    dsimp only
    rw [← hx.isAssign, ← ht.word, ← hx.word]
    split
    · exact ⟨⟨hd, rfl⟩, rfl⟩
    · have hfirst : Operands.Twin
          { draft := (d.read r l).2.report (.notAssigned (d.read r l).1.word t.word) }
          { draft := (e.read r l).2.report (.notAssigned (d.read r l).1.word t.word) } :=
        ⟨hd.report _, rfl⟩
      exact ⟨hfirst.take hx, rfl⟩

theorem operands (h : d.Twin e) (hr : r.Steady) (ht : t.Alike u) (slot : Nat) (ls : List Lexeme) :
    (Draft.operands slot d r t ls).Twin (Draft.operands slot e r u ls) := by
  obtain ⟨ha, hrest⟩ := h.readAssign hr ht ls
  unfold Draft.operands
  generalize d.readAssign r t ls = a at ha hrest
  generalize e.readAssign r u ls = b at ha hrest
  obtain ⟨a, assigned, rest⟩ := a
  obtain ⟨b, _, _⟩ := b
  cases hrest
  obtain ⟨hd, hx⟩ := ha.foldl_read hr rest
  dsimp only
  rw [hd.size, hx]
  have hend := hd.reportIf ((rest.foldl (Operands.read r) b).expecting &&
    (assigned || decide (0 < (rest.foldl (Operands.read r) b).draft.code.size - (slot + 1))))
    .noOperandAtEnd
  refine ⟨hend.log, hend.line, hend.closed, hend.message, hend.limit, ?_⟩
  have hs := hend.size
  simp only [Buffer.size, Buffer.set, Array.size_setIfInBounds] at hs ⊢
  exact hs

theorem assignment (h : d.Twin e) (hr : r.Steady) (ht : t.Alike u) (indent : Nat) (ls : List Lexeme) :
    (d.assignment r t indent ls).Twin (e.assignment r u indent ls) := by
  have hhead := h.emit (.head false indent t.value) (.head false indent u.value)
  unfold Draft.assignment
  dsimp only
  rw [hhead.size]
  exact (hhead.emit _ _).operands hr ht _ ls

theorem function (h : d.Twin e) (ht : t.Alike u) (indent : Nat) (rest : List Char) :
    (d.function t indent rest).Twin (e.function u indent rest) := by
  unfold Draft.function
  dsimp only
  rw [← ht.word]
  exact ((h.emit _ _).emit _ _).reportIf _ _

theorem indentation (h : d.Twin e) (spaces : Nat) :
    (d.indentation spaces).1 = (e.indentation spaces).1 ∧
      (d.indentation spaces).2.Twin (e.indentation spaces).2 := by
  have hodd := h.reportIf (spaces % 2 != 0) (.oddIndentation spaces)
  unfold Draft.indentation
  dsimp only
  split
  · exact ⟨rfl, hodd.report _⟩
  · exact ⟨rfl, hodd⟩

end Draft.Twin

/-! ## Compiling -/

namespace Compiler

open Draft (Twin)

variable {c : Compiler σ} (hr : c.reader.Steady) {d e : Draft σ} (h : d.Twin e)

theorem endsScript_alike {t u : Token} (ht : t.Alike u) (indent : Nat) :
    c.endsScript t indent = c.endsScript u indent := by
  rw [endsScript, endsScript, ht.symbol]

section

include hr h

theorem twin_statement (indent : Nat) (text : List Char) :
    (c.statement d indent text).1.Twin (c.statement e indent text).1 ∧
      (c.statement d indent text).2 = (c.statement e indent text).2 := by
  unfold statement
  cases Lexeme.first? text with
  | none => exact ⟨h, rfl⟩
  | some p =>
    obtain ⟨ht, hd⟩ := h.read hr p.1
    dsimp only
    rw [← ht.kind]
    generalize (d.read c.reader p.1) = x at ht hd
    generalize (e.read c.reader p.1) = y at ht hd
    cases x.1.kind with
    | none => exact ⟨hd, rfl⟩
    | some k =>
      cases k with
      | function =>
        dsimp only
        rw [← endsScript_alike ht]
        split
        · exact ⟨hd, rfl⟩
        · exact ⟨hd.function ht indent p.2, rfl⟩
      | var => exact ⟨hd.assignment hr ht indent _, rfl⟩
      | constant | operator =>
        dsimp only
        rw [← ht.word]
        exact ⟨hd.report _, rfl⟩

theorem twin_line (body : List Char) :
    (c.line d body).1.Twin (c.line e body).1 ∧ (c.line d body).2 = (c.line e body).2 := by
  have hnext : Twin { d with line := d.line + 1 } { e with line := e.line + 1 } :=
    ⟨h.log, by dsimp only; rw [h.line], h.closed, h.message, h.limit, h.size⟩
  have hloaded := (hnext.reportIf (decide (0 < (SourceLine.ofBody c.limits.maxLine body).tabs))
    (.tabs (SourceLine.ofBody c.limits.maxLine body).tabs)).reportIf
      (SourceLine.ofBody c.limits.maxLine body).truncated (.lineTooLong c.limits.maxLine)
  unfold line
  dsimp only
  split
  · exact ⟨hloaded, rfl⟩
  · obtain ⟨hi, hd⟩ := hloaded.indentation (SourceLine.ofBody c.limits.maxLine body).leadingSpaces
    rw [hi]
    exact twin_statement hr hd _ _

theorem twin_lines (segments : List Segment) :
    (c.lines d segments).1.Twin (c.lines e segments).1 ∧
      (c.lines d segments).2 = (c.lines e segments).2 := by
  induction segments generalizing d e with
  | nil => exact ⟨h, rfl⟩
  | cons segment segments ih =>
    obtain ⟨hd, hended⟩ := twin_line hr h segment.body
    unfold lines
    generalize c.line d segment.body = x at hd hended
    generalize c.line e segment.body = y at hd hended
    obtain ⟨x, ended⟩ := x
    obtain ⟨y, _⟩ := y
    cases hended
    cases ended with
    | true => exact ⟨hd, rfl⟩
    | false => exact ih hd

end

include h in
theorem twin_bounded (source : List Char) :
    (c.bounded d source).1 = (c.bounded e source).1 ∧
      (c.bounded d source).2.Twin (c.bounded e source).2 := by
  unfold bounded
  dsimp only
  split
  · exact ⟨rfl, h⟩
  · exact ⟨rfl, h.report _⟩

include h in
theorem twin_terminate : (c.terminate d).Twin (c.terminate e) := by
  unfold terminate
  cases c.symbols.end? with
  | none => exact h.report _
  | some s => exact (h.emit _ _).emit _ _

include hr in
/-- Both runs report the same problems, in the same order. -/
theorem log_compile_congr (s s' : σ) (name : String) (source : List Char) :
    (c.compile s name source).log = (c.compile s' name source).log := by
  have hblank : Twin (c.blank s name) (c.blank s' name) := ⟨rfl, rfl, rfl, rfl, rfl, rfl⟩
  obtain ⟨hsource, hd⟩ := twin_bounded (c := c) hblank source
  have hdraft : Twin (c.draft s name source) (c.draft s' name source) := by
    unfold draft
    dsimp only
    rw [hsource]
    obtain ⟨hlines, hended⟩ := twin_lines hr hd (segments (c.bounded (c.blank s' name) source).1)
    rw [hended]
    exact twin_terminate (hlines.reportIf _ _)
  exact hdraft.log

end Compiler

end NpcScript
