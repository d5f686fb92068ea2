import Mathlib.Data.List.DropRight
import Mathlib.Data.List.Perm.Subperm
import NpcScript.Proofs.Jumps

/-! # The linker step by step

A linker need not be used for one whole script: it can pass any statements,
finish anywhere, go on, and be cleared. Whatever steps it takes, a function
with a slot either waits or has its jump, and has it once. The forward scan
over later steps says which: it ends at a statement not deeper, or at an end,
and a function for which it has not ended yet waits. -/
namespace NpcScript

namespace Linker

/-- What can be done with a linker. -/
inductive Step where
  | clear
  | visit (s : Statement)
  | finish (stop : Nat)
  deriving DecidableEq, Repr

namespace Step

def statement? : Step → Option Statement
  | visit s => some s
  | _ => none

/-- Where a step sends a function that waits at a depth, if it closes it. -/
def target? (indent : Nat) : Step → Option Nat
  | clear => none
  | visit s => if s.indent ≤ indent then some s.addr else none
  | finish stop => some stop

end Step

def step (l : Linker) : Step → Linker
  | .clear => l.clear
  | .visit s => l.visit s
  | .finish stop => l.finish stop

/-- The linker after steps from the beginning. -/
def run (steps : List Step) : Linker := steps.foldl step {}

/-- The steps after the last one that clears. -/
def sinceClear (steps : List Step) : List Step := steps.rtakeWhile (· ≠ .clear)

/-- The statements of steps, in their order. -/
def passed (steps : List Step) : List Statement := steps.filterMap Step.statement?

/-- The forward scan over later steps: the address of the first statement not
deeper than a depth, or the end if one comes before. -/
def target? (indent : Nat) (later : List Step) : Option Nat := later.findSome? (Step.target? indent)

/-- What has become of a function's jump: a target, or nothing yet. -/
structure Outcome where
  slot : Nat
  target : Option Nat
  deriving DecidableEq, Repr

namespace Outcome

def jump? (o : Outcome) : Option Jump := o.target.map (Jump.mk o.slot)

end Outcome

/-- Each function with a slot, in the order of the steps, with the target that the
scan over the steps after it gives. -/
def outcomes : List Step → List Outcome
  | [] => []
  | .clear :: later => outcomes later
  | .visit s :: later =>
    if s.jumps then ⟨s.addr + 1, target? s.indent later⟩ :: outcomes later else outcomes later
  | .finish _ :: later => outcomes later

/-- Every function with a slot has an outcome, under its own slot. -/
theorem map_slot_outcomes (steps : List Step) :
    (outcomes steps).map Outcome.slot =
      ((passed steps).filter Statement.jumps).map fun s => s.addr + 1 := by
  induction steps with
  | nil => rfl
  | cons e later ih =>
    cases e with
    | clear => exact ih
    | finish stop => exact ih
    | visit s =>
      have hp : passed (.visit s :: later) = s :: passed later := rfl
      rw [outcomes, hp, List.filter_cons]
      split
      · rw [List.map_cons, List.map_cons, ih]
      · exact ih

/-! ## Waiting functions -/

theorem Nested.step {l : Linker} (h : l.Nested) (e : Step) : (l.step e).Nested := by
  cases e with
  | clear => exact List.Pairwise.nil
  | visit s => exact h.visit s
  | finish stop => exact List.Pairwise.nil

/-- Functions wait only at depths that a head can hold. -/
def Shallow (l : Linker) : Prop := ∀ w ∈ l.waiting, w.indent ≤ Word.maxIndent

theorem Shallow.visit {l : Linker} (h : l.Shallow) (s : Statement) : (l.visit s).Shallow := by
  have hleft : ∀ w ∈ l.waiting.dropWhile fun w => decide (s.indent ≤ w.indent),
      w.indent ≤ Word.maxIndent :=
    fun w hw => h w ((List.dropWhile_sublist _).subset hw)
  unfold Linker.visit Shallow
  dsimp only
  split
  · have hs : s.indent ≤ Word.maxIndent := Nat.le_of_lt_succ (Nat.mod_lt _ (by decide))
    exact List.forall_mem_cons.2 ⟨hs, hleft⟩
  · exact hleft

theorem Shallow.step {l : Linker} (h : l.Shallow) (e : Step) : (l.step e).Shallow := by
  cases e with
  | clear => exact List.forall_mem_nil _
  | visit s => exact h.visit s
  | finish stop => exact List.forall_mem_nil _

theorem nested_run (steps : List Step) : (run steps).Nested :=
  List.foldlRecOn steps step List.Pairwise.nil fun _ h e _ => h.step e

theorem shallow_run (steps : List Step) : (run steps).Shallow :=
  List.foldlRecOn steps step (List.forall_mem_nil _) fun _ h e _ => h.step e

/-- From the outermost function on, the depths of those that wait ascend. -/
theorem Nested.ascend {l : Linker} (h : l.Nested) :
    (l.waiting.reverse.map Waiting.indent).Pairwise (· < ·) :=
  List.pairwise_map.2 (List.pairwise_reverse.2 h)

/-- No two functions wait at one depth, so there are no more than depths. -/
theorem Nested.length_waiting_le {l : Linker} (h : l.Nested) (hs : l.Shallow) :
    l.waiting.length ≤ Word.maxIndent + 1 := by
  have hnodup : (l.waiting.reverse.map Waiting.indent).Nodup := h.ascend.imp Nat.ne_of_lt
  have hsub : l.waiting.reverse.map Waiting.indent ⊆ List.range (Word.maxIndent + 1) := by
    intro n hn
    obtain ⟨w, hw, rfl⟩ := List.mem_map.1 hn
    exact List.mem_range.2 (Nat.lt_succ_of_le (hs w (List.mem_reverse.1 hw)))
  have hle := (hnodup.subperm hsub).length_le
  rwa [List.length_map, List.length_reverse, List.length_range] at hle

/-! ## Outcomes -/

theorem target?_visit_of_le {indent : Nat} {s : Statement} (h : s.indent ≤ indent)
    (later : List Step) : target? indent (.visit s :: later) = some s.addr := by
  rw [target?, List.findSome?_cons, Step.target?, if_pos h]

theorem target?_visit_of_lt {indent : Nat} {s : Statement} (h : indent < s.indent)
    (later : List Step) : target? indent (.visit s :: later) = target? indent later := by
  rw [target?, List.findSome?_cons, Step.target?, if_neg (by omega), target?]

theorem target?_finish (indent stop : Nat) (later : List Step) :
    target? indent (.finish stop :: later) = some stop := rfl

/-- The outcomes that are known or still to come: those of the jumps found, those
of the waiting functions by forward scans, those of the steps ahead. -/
def prospects (l : Linker) (ahead : List Step) : List Outcome :=
  (l.found.toList.map fun j => ⟨j.slot, some j.target⟩) ++
    ((l.waiting.map fun w => ⟨w.slot, target? w.indent ahead⟩) ++ outcomes ahead)

/-- Passing a statement closes exactly the functions whose scan ends at it. -/
theorem Nested.prospects_visit {l : Linker} (h : l.Nested) {s : Statement}
    (hs : s.addr + 1 < addressSpace) (ahead : List Step) :
    List.Perm ((l.visit s).prospects ahead) (l.prospects (.visit s :: ahead)) := by
  unfold prospects
  rw [toList_found_visit, List.map_append, List.map_map, List.append_assoc, outcomes,
    ← Statement.slotAddr_of_lt hs]
  refine (List.Perm.refl _).append (h.map_waiting_visit s (fun w hw => ?_) (fun w hw => ?_) _)
  · rw [target?_visit_of_le hw]
    rfl
  · rw [target?_visit_of_lt hw]

/-- At an end every scan ends, and every function is closed. -/
theorem prospects_finish (l : Linker) (stop : Nat) (ahead : List Step) :
    (l.finish stop).prospects ahead = l.prospects (.finish stop :: ahead) := by
  simp [prospects, finish, outcomes, target?_finish, Function.comp_def]

theorem Nested.prospects_step {l : Linker} (h : l.Nested) {e : Step} (hc : e ≠ .clear)
    (hs : ∀ s ∈ e.statement?, s.addr + 1 < addressSpace) (ahead : List Step) :
    List.Perm ((l.step e).prospects ahead) (l.prospects (e :: ahead)) := by
  cases e with
  | clear => exact absurd rfl hc
  | visit s => exact h.prospects_visit (hs s rfl) ahead
  | finish stop => exact List.Perm.of_eq (l.prospects_finish stop ahead)

/-- Steps that do not clear make the prospects from before them come true. -/
theorem Nested.prospects_foldl {l : Linker} (h : l.Nested) {steps : List Step}
    (hc : ∀ e ∈ steps, e ≠ .clear) (hs : ∀ s ∈ passed steps, s.addr + 1 < addressSpace) :
    List.Perm ((steps.foldl Linker.step l).prospects []) (l.prospects steps) := by
  -- each step keeps the prospects as long as the functions lie one inside the other
  induction steps generalizing l with
  | nil => exact List.Perm.refl _
  | cons e steps ih =>
    obtain ⟨he, hrest⟩ := List.forall_mem_cons.1 hc
    have hfirst : ∀ s ∈ e.statement?, s.addr + 1 < addressSpace :=
      fun s hm => hs s (List.mem_filterMap.2 ⟨e, List.mem_cons_self, hm⟩)
    have hlater : ∀ s ∈ passed steps, s.addr + 1 < addressSpace := by
      intro s hm
      obtain ⟨d, hd, hm⟩ := List.mem_filterMap.1 hm
      exact hs s (List.mem_filterMap.2 ⟨d, List.mem_cons_of_mem e hd, hm⟩)
    exact (ih (h.step e) hrest hlater).trans (h.prospects_step he hfirst steps)

/-- Nothing from before the last clearing is left. -/
theorem run_sinceClear (steps : List Step) : run (sinceClear steps) = run steps := by
  -- from the end: the last step is the clearing, or one more after it
  induction steps using List.reverseRecOn with
  | nil => rfl
  | append_singleton steps e ih =>
    have hrun (before : List Step) : run (before ++ [e]) = (run before).step e := List.foldl_concat ..
    rw [sinceClear, List.rtakeWhile_concat, hrun]
    split
    · rw [hrun, ← ih]
      rfl
    · rename_i he
      have he : e = .clear := by simpa using he
      rw [he]
      rfl

/-- The jumps found and the functions that wait are the outcomes of the forward
scans over the steps since the last clearing. -/
theorem perm_outcomes {steps : List Step} (h : ∀ s ∈ passed steps, s.addr + 1 < addressSpace) :
    List.Perm ((run steps).prospects []) (outcomes (sinceClear steps)) := by
  have hc : ∀ e ∈ sinceClear steps, e ≠ .clear :=
    fun e he => by simpa using List.mem_rtakeWhile_imp he
  have hs : ∀ s ∈ passed (sinceClear steps), s.addr + 1 < addressSpace :=
    fun s hm => h s ((List.rtakeWhile_suffix _ _).sublist.filterMap _ |>.subset hm)
  have hnested : Nested {} := List.Pairwise.nil
  rw [← run_sinceClear]
  exact hnested.prospects_foldl hc hs

theorem prospects_nil (l : Linker) :
    l.prospects [] = (l.found.toList.map fun j => ⟨j.slot, some j.target⟩) ++
      l.waiting.map fun w => ⟨w.slot, none⟩ := by
  rw [prospects, outcomes, List.append_nil]
  rfl

theorem map_slot_prospects (l : Linker) :
    (l.prospects []).map Outcome.slot = l.found.toList.map Jump.slot ++ l.waiting.map Waiting.slot := by
  rw [prospects_nil, List.map_append, List.map_map, List.map_map]
  rfl

theorem filterMap_jump_prospects (l : Linker) :
    (l.prospects []).filterMap Outcome.jump? = l.found.toList := by
  rw [prospects_nil, List.filterMap_append, List.filterMap_map, List.filterMap_map]
  have hfound : (Outcome.jump? ∘ fun j : Jump => ⟨j.slot, some j.target⟩) = some := rfl
  have hwaiting : (Outcome.jump? ∘ fun w : Waiting => ⟨w.slot, none⟩) = fun _ => none := rfl
  rw [hfound, hwaiting, List.filterMap_some, List.filterMap_none, List.append_nil]

/-! ## Any run -/

/-- What a linker holds is what steps from the beginning call for. -/
structure Tracks (l : Linker) (steps : List Step) : Prop where
  /-- From the outermost on, each waiting function is deeper than the one before. -/
  ascending : (l.waiting.reverse.map Waiting.indent).Pairwise (· < ·)
  few : l.waiting.length ≤ 16
  /-- No function with a slot is lost, and none is kept twice. -/
  slots : List.Perm (l.waiting.map Waiting.slot ++ l.found.toList.map Jump.slot)
    (((passed (sinceClear steps)).filter fun s => s.isFunction && s.slot.isSome).map fun s => s.addr + 1)
  /-- The jumps found are those whose scan over the later steps has ended. -/
  targets : List.Perm l.found.toList ((outcomes (sinceClear steps)).filterMap Outcome.jump?)
  /-- Right after an end, none waits. -/
  finished : ∀ before stop, steps = before ++ [.finish stop] → l.waiting = []

/-- **A linker keeps track of all its steps.** Whatever is passed, finished and
cleared, the waiting functions lie one inside the other, and each function since
the last clearing either waits or has the jump that a forward scan gives it. -/
theorem run_tracks (steps : List Step) (h : ∀ s ∈ passed steps, s.addr + 1 < addressSpace) :
    (run steps).Tracks steps := by
  have hperm := perm_outcomes h
  refine ⟨(nested_run steps).ascend, (nested_run steps).length_waiting_le (shallow_run steps), ?_, ?_, ?_⟩
  · have hslots := hperm.map Outcome.slot
    rw [map_slot_prospects, map_slot_outcomes] at hslots
    exact List.perm_append_comm.trans hslots
  · have hjumps := hperm.filterMap Outcome.jump?
    rwa [filterMap_jump_prospects] at hjumps
  · intro before stop he
    rw [he, run, List.foldl_concat]
    rfl

/-- Functions before a clearing, without a slot and after an end, and a variable
that closes a block. -/
def interleaved : List Step :=
  [.visit ⟨100, .head true 0 1, some (.ofNat 0), []⟩, .clear,
    .visit ⟨0, .head true 0 1, some (.ofNat 0), []⟩, .visit ⟨2, .head true 1 7, some (.ofNat 0), []⟩,
    .visit ⟨4, .head true 2 7, none, []⟩, .visit ⟨5, .head false 1 2, some (.ofNat 0), []⟩, .finish 9,
    .visit ⟨20, .head true 3 1, some (.ofNat 0), []⟩, .visit ⟨22, .head true 3 7, some (.ofNat 0), []⟩]

/-- The last function waits; the others go on at the end, at the variable and at
the one that waits. -/
theorem run_tracks_interleaved :
    (∀ s ∈ passed interleaved, s.addr + 1 < addressSpace) ∧
    List.Perm ((run interleaved).waiting.map Waiting.slot ++
      (run interleaved).found.toList.map Jump.slot) [1, 3, 21, 23] ∧
    List.Perm (run interleaved).found.toList [⟨1, 9⟩, ⟨3, 5⟩, ⟨21, 22⟩] ∧
    (run interleaved).waiting.length ≤ 16 ∧
    (run (interleaved.take 7)).waiting = [] := by
  have hs : ∀ s ∈ passed interleaved, s.addr + 1 < addressSpace := by decide
  have hs' : ∀ s ∈ passed (interleaved.take 7), s.addr + 1 < addressSpace := by decide
  have h := run_tracks interleaved hs
  have slots : ((passed (sinceClear interleaved)).filter fun s =>
      s.isFunction && s.slot.isSome).map (fun s => s.addr + 1) = [1, 3, 21, 23] := by decide
  have targets : (outcomes (sinceClear interleaved)).filterMap Outcome.jump? =
      [⟨1, 9⟩, ⟨3, 5⟩, ⟨21, 22⟩] := by decide
  refine ⟨hs, slots ▸ h.slots, targets ▸ h.targets, h.few, ?_⟩
  exact (run_tracks (interleaved.take 7) hs').finished (interleaved.take 6) 9 rfl

end Linker

end NpcScript
