import NpcScript.Script

/-! # Jumps

A function says yes or no. On no, the script goes on at the next statement that
is not deeper than the function. The linker finds these targets in one walk: it
keeps the functions that still wait for one, innermost first, and a statement
is the target of every waiting function at its own depth or deeper. -/
namespace NpcScript

/-- A function whose target is not found yet. -/
structure Waiting where
  indent : Nat
  slot : Nat
  deriving DecidableEq, Repr

/-- The number to write at a slot. -/
structure Jump where
  slot : Nat
  target : Nat
  deriving DecidableEq, Repr

structure Linker where
  /-- Innermost first. -/
  waiting : List Waiting := []
  /-- In the order in which they were found. -/
  found : Array Jump := #[]
  deriving DecidableEq, Repr

namespace Linker

/-- Forget the functions and the jumps, to begin another script. -/
def clear (_ : Linker) : Linker := {}

/-- The waiting functions that a statement at a depth is the target of. -/
def closedBy (l : Linker) (indent : Nat) : List Waiting :=
  l.waiting.takeWhile fun w => decide (indent ≤ w.indent)

/-- Pass a statement: it closes functions, and waits itself if it is one. -/
def visit (l : Linker) (s : Statement) : Linker :=
  let left := l.waiting.dropWhile fun w => decide (s.indent ≤ w.indent)
  { waiting := if s.isFunction && s.slot.isSome then ⟨s.indent, s.slotAddr⟩ :: left else left
    found := l.found ++ ((l.closedBy s.indent).map fun w => ⟨w.slot, s.addr⟩).toArray }

/-- At the end of a script, all that still wait go there. -/
def finish (l : Linker) (stop : Nat) : Linker :=
  { waiting := []
    found := l.found ++ (l.waiting.map fun w => (⟨w.slot, stop⟩ : Jump)).toArray }

/-- The jumps of a script. -/
def jumps (s : Script) : Array Jump := ((s.statements.foldl visit {}).finish s.size).found

end Linker

namespace Script

/-- Write every jump into its slot; with it comes the number of slots that the
script has. -/
def link (s : Script) : Script × Nat :=
  let jumps := Linker.jumps s
  let size := s.size
  (jumps.foldl (fun s j => s.patch j.slot j.target) s, jumps.countP fun j => decide (j.slot < size))

end Script

end NpcScript
