import NpcScript.Compiler
import NpcScript.Proofs.Layout
import NpcScript.Proofs.Meaning

/-! # The steps of drafting

All that a draft goes through is words offered to its buffer and problems noted
in its log. `Draft.Step` relates a draft to a later one by these two lists, and
steps compose by appending them. A full buffer shows in the size, the `closed`
mark and one refusal in the log, and in nothing else: `Offered` ties these three
to the number of words offered, and `notes` is the log without the refusal. -/
namespace NpcScript

namespace Log

/-- The problems of a log, refusals of the buffer left out. -/
def notes (l : Log) : List Diagnostic := l.toList.filter fun d => d.code != .programTooLarge

def refusals (l : Log) : Nat := l.toList.countP fun d => d.code == .programTooLarge

theorem notes_append (l : Log) {ds : List Diagnostic} (h : ∀ d ∈ ds, d.code ≠ .programTooLarge) :
    (l.append ds).notes = l.notes ++ ds.map (·.inScript l.script) := by
  have hf : (ds.map (·.inScript l.script)).filter (fun d => d.code != .programTooLarge) =
      ds.map (·.inScript l.script) := by
    rw [List.filter_eq_self]
    intro d hd
    obtain ⟨e, he, rfl⟩ := List.mem_map.1 hd
    simpa [Diagnostic.inScript] using h e he
  rw [notes, toList_append, List.filter_append, hf]
  rfl

theorem refusals_append (l : Log) {ds : List Diagnostic} (h : ∀ d ∈ ds, d.code ≠ .programTooLarge) :
    (l.append ds).refusals = l.refusals := by
  have hz : (ds.map (·.inScript l.script)).countP (fun d => d.code == .programTooLarge) = 0 := by
    rw [List.countP_eq_zero]
    intro d hd
    obtain ⟨e, he, rfl⟩ := List.mem_map.1 hd
    simpa [Diagnostic.inScript] using h e he
  rw [refusals, toList_append, List.countP_append, hz]
  rfl

/-- A refusal is an error. -/
theorem hadError_eq (l : Log) :
    l.hadError = (l.notes.any (fun d => d.level = .error) || decide (0 < l.refusals)) := by
  rw [hadError, ← Array.any_toList, notes, refusals]
  change l.toList.any _ = _
  induction l.toList with
  | nil => rfl
  | cons d ds ih =>
    by_cases hc : d.code = .programTooLarge
    · simp [hc, Diagnostic.level, Code.level]
    · rw [List.any_cons, ih, List.filter_cons_of_pos (by simpa using hc), List.any_cons,
        List.countP_cons_of_neg (by simpa using hc), Bool.or_assoc]

theorem contains_programTooLarge (l : Log) :
    l.contains .programTooLarge = decide (0 < l.refusals) := by
  rw [contains, ← Array.any_toList, Bool.eq_iff_iff, List.any_eq_true, decide_eq_true_iff, refusals,
    List.countP_pos_iff]
  simp only [decide_eq_true_eq, beq_iff_eq]
  rfl

end Log

namespace Draft

variable {σ : Type} {d e f : Draft σ}

/-- A problem as it stands in the log of a draft. -/
def stamp (d : Draft σ) (issue : Diagnostic) : Diagnostic := (issue.inLine d.line).inScript d.log.script

/-- So many words were offered to a draft, and as many as fit were taken. -/
structure Offered (d : Draft σ) (n : Nat) : Prop where
  size : d.code.size = min d.code.limit n
  closed : d.closed = decide (d.code.limit < n)
  refusals : d.log.refusals = d.closed.toNat

/-- One draft comes from another on the same line by noting problems. -/
structure Notes (d e : Draft σ) (issues : List Diagnostic) : Prop where
  limit : e.code.limit = d.code.limit
  script : e.log.script = d.log.script
  line : e.line = d.line
  notes : e.log.notes = d.log.notes ++ issues.map d.stamp

/-- The same, with words offered on the way. -/
structure Step (d e : Draft σ) (ws : List Word) (issues : List Diagnostic) : Prop
    extends Notes d e issues where
  offered {n : Nat} : d.Offered n → e.Offered (n + ws.length)
  code {n : Nat} : d.Offered n → e.code.toList = (d.code.toList ++ ws).take d.code.limit

namespace Offered

theorem length_eq {n : Nat} (h : d.Offered n) : d.code.toList.length = min d.code.limit n := by
  rw [← h.size, Buffer.toList, Array.length_toList]
  rfl

end Offered

/-- What is behind the cut is not missed by a second cut there. -/
theorem take_append_take {α : Type} (n : Nat) (l m : List α) :
    (l.take n ++ m).take n = (l ++ m).take n := by
  rcases Nat.le_total l.length n with h | h
  · rw [List.take_of_length_le h]
  · rw [List.take_append_of_le_length (by rw [List.length_take]; omega), List.take_take,
      Nat.min_self, List.take_append_of_le_length h]

theorem Notes.trans {is is' : List Diagnostic} (h : Notes d e is) (h' : Notes e f is') :
    Notes d f (is ++ is') where
  limit := h'.limit.trans h.limit
  script := h'.script.trans h.script
  line := h'.line.trans h.line
  notes := by
    have hs : e.stamp = d.stamp := by
      funext i
      rw [stamp, stamp, h.line, h.script]
    rw [h'.notes, h.notes, hs, List.map_append, List.append_assoc]

namespace Step

theorem refl (d : Draft σ) : Step d d [] [] where
  limit := rfl
  script := rfl
  line := rfl
  notes := by simp
  offered h := h
  code h := by
    rw [List.append_nil, List.take_of_length_le]
    rw [h.length_eq]
    exact Nat.min_le_left ..

theorem trans {ws ws' : List Word} {is is' : List Diagnostic} (h : Step d e ws is)
    (h' : Step e f ws' is') : Step d f (ws ++ ws') (is ++ is') where
  toNotes := h.toNotes.trans h'.toNotes
  offered ho := by
    rw [List.length_append, ← Nat.add_assoc]
    exact h'.offered (h.offered ho)
  code ho := by
    rw [h'.code (h.offered ho), h.code ho, h.limit, ← List.append_assoc, take_append_take]

theorem report {issue : Diagnostic} (h : issue.code ≠ .programTooLarge) :
    Step d (d.report issue) [] [issue] := by
  have hp : d.log.push (issue.inLine d.line) = d.log.append [issue.inLine d.line] := rfl
  have hc : ∀ i ∈ [issue.inLine d.line], i.code ≠ .programTooLarge := by
    intro i hi
    rw [List.mem_singleton.1 hi]
    exact h
  refine ⟨⟨rfl, rfl, rfl, ?_⟩, fun ho => ⟨ho.size, ho.closed, ?_⟩, fun ho => (refl d).code ho⟩
  · rw [Draft.report, hp, Log.notes_append _ hc]
    rfl
  · rw [Draft.report, hp, Log.refusals_append _ hc]
    exact ho.refusals

theorem reportIf {issue : Diagnostic} (h : issue.code ≠ .programTooLarge) (b : Bool) :
    Step d (d.reportIf b issue) [] (if b then [issue] else []) := by
  cases b with
  | false => exact refl d
  | true => exact report h

theorem read (r : Reader σ) (l : Lexeme) :
    Step d (d.read r l).2 [] (r.read d.line d.host l).issues := by
  have hi {i : Diagnostic} (h : i ∈ (r.read d.line d.host l).issues) := r.of_mem_issues_read d.line d.host h
  have hc : ∀ i ∈ (r.read d.line d.host l).issues, i.code ≠ .programTooLarge := fun i h => (hi h).2.2
  refine ⟨⟨rfl, Log.script_append .., rfl, ?_⟩, fun ho => ⟨ho.size, ho.closed, ?_⟩,
    fun ho => (refl d).code ho⟩
  · rw [Draft.read, Log.notes_append _ hc]
    refine congrArg _ (List.map_congr_left fun i h => ?_)
    rw [stamp, Diagnostic.inLine, ← (hi h).1]
  · rw [Draft.read, Log.refusals_append _ hc]
    exact ho.refusals

end Step

theorem Offered.lt_of_closed {n : Nat} (ho : d.Offered n) (h : d.closed = true) :
    d.code.limit < n := by
  rw [ho.closed] at h
  exact of_decide_eq_true h

theorem Offered.le_of_open {n : Nat} (ho : d.Offered n) (h : d.closed = false) :
    n ≤ d.code.limit := by
  rw [ho.closed, decide_eq_false_iff_not] at h
  omega

/-! The three things that can happen to a word that is offered. -/

theorem step_closed (h : d.closed = true) (w : Word) : Step d d [w] [] := by
  refine ⟨⟨rfl, rfl, rfl, by simp⟩, fun {n} ho => ⟨?_, ?_, ho.refusals⟩, fun {n} ho => ?_⟩
  · have hn := ho.lt_of_closed h
    rw [ho.size, List.length_singleton]
    omega
  · have hn := ho.lt_of_closed h
    rw [h, eq_comm, decide_eq_true_iff]
    exact Nat.lt_add_right 1 hn
  · have hn := ho.lt_of_closed h
    have hl := ho.length_eq
    rw [List.take_append_of_le_length (by omega), List.take_of_length_le (by omega)]

theorem step_push (h : d.closed = false) (w : Word) (room : d.code.isFull = false) :
    Step d { d with code := d.code.push w room } [w] [] := by
  have hr : ¬ d.code.limit ≤ d.code.size := of_decide_eq_false room
  refine ⟨⟨rfl, rfl, rfl, by simp⟩, fun {n} ho => ⟨?_, ?_, ho.refusals⟩, fun {n} ho => ?_⟩
  · have hn := ho.le_of_open h
    have hs := ho.size
    have hp : (d.code.push w room).size = d.code.size + 1 := Array.size_push w
    rw [hp, Buffer.limit_push, List.length_singleton]
    omega
  · have hn := ho.le_of_open h
    have hs := ho.size
    rw [h, Buffer.limit_push, eq_comm, decide_eq_false_iff_not, List.length_singleton]
    omega
  · have hl := ho.length_eq
    have hs := ho.size
    rw [Buffer.toList_push, List.take_of_length_le]
    rw [List.length_append, List.length_singleton]
    omega

theorem step_refuse (h : d.closed = false) (w : Word) (full : d.code.isFull = true) :
    Step d { d.report d.code.overflow with closed := true } [w] [] := by
  have hr : d.code.limit ≤ d.code.size := of_decide_eq_true full
  refine ⟨⟨rfl, rfl, rfl, ?_⟩, fun {n} ho => ⟨?_, ?_, ?_⟩, fun {n} ho => ?_⟩
  · simp [Log.notes, Draft.report, Diagnostic.inScript, Diagnostic.inLine, Buffer.overflow,
      Diagnostic.bufferFull]
  · have hs := ho.size
    rw [List.length_singleton]
    change d.code.size = min d.code.limit (n + 1)
    omega
  · have hs := ho.size
    rw [eq_comm, decide_eq_true_iff, List.length_singleton]
    change d.code.limit < n + 1
    omega
  · have hz : d.log.refusals = 0 := by rw [ho.refusals, h]; rfl
    rw [Log.refusals] at hz
    simp [Log.refusals, Draft.report, Diagnostic.inScript, Diagnostic.inLine, Buffer.overflow,
      Diagnostic.bufferFull, hz]
  · have hl := ho.length_eq
    have hs := ho.size
    rw [List.take_append_of_le_length (by omega), List.take_of_length_le (by omega)]
    rfl

/-- Offering a word is one step, whether it is taken or refused. -/
theorem step_emit (d : Draft σ) (w : Word) : Step d (d.emit w) [w] [] := by
  unfold emit
  split
  · rename_i h
    exact step_closed h w
  · rename_i h
    have h : d.closed = false := by simpa using h
    split
    · exact step_push h w _
    · rename_i hf
      exact step_refuse h w (by simpa using hf)

@[simp]
theorem host_reportIf (d : Draft σ) (b : Bool) (issue : Diagnostic) :
    (d.reportIf b issue).host = d.host := by
  cases b <;> rfl

@[simp]
theorem host_emit (d : Draft σ) (w : Word) : (d.emit w).host = d.host := by
  unfold emit
  split
  · rfl
  · split <;> rfl

end Draft

end NpcScript
