import NpcScript.Proofs.Drafting

/-! # The right side of an assignment

What is read, what is stored and what is complained about on the right side of
an assignment depends on the tokens alone, not on the draft. `RightSide` is the
reading automaton without the draft, and the specification of `assignment` says
that the draft gets the block and the complaints of that automaton. -/
namespace NpcScript

variable {σ : Type}

namespace Reader

/-- The words of a line read one after the other. -/
def readings (r : Reader σ) (line : LineNumber) : σ → List Lexeme → List (Reading σ)
  | _, [] => []
  | s, l :: ls => r.read line s l :: r.readings line (r.read line s l).state ls

end Reader

/-- The host's state after some readings. -/
def Reading.after (s : σ) : List (Reading σ) → σ
  | [] => s
  | x :: xs => after x.state xs

structure RightSide where
  operator : Int32 := Word.neutral
  expecting : Bool := true
  deriving DecidableEq, Repr

namespace RightSide

def next (m : RightSide) (t : Token) : RightSide :=
  if t.isOperand then { m with expecting := false }
  else if t.isOperator then { operator := t.value, expecting := true }
  else if t.isAssign then m
  else { m with expecting := false }

def operand? (m : RightSide) (t : Token) : Option Word :=
  if t.isOperand && m.expecting then some (.operand t.isVariable m.operator t.value) else none

def complaint? (m : RightSide) (t : Token) : Option Diagnostic :=
  if t.isOperand then (if m.expecting then none else some (.noOperatorBefore t.word))
  else if t.isOperator then (if m.expecting then some (.noOperandBefore t.word) else none)
  else if t.isAssign then some .secondAssign
  else if t.isUnknown then none
  else some (.notAValue t.word)

def after (m : RightSide) (ts : List Token) : RightSide := ts.foldl next m

/-- The operands that tokens give. -/
def words (m : RightSide) : List Token → List Word
  | [] => []
  | t :: ts => (m.operand? t).toList ++ (m.next t).words ts

/-- The problems of readings and of their order. -/
def issues (m : RightSide) : List (Reading σ) → List Diagnostic
  | [] => []
  | x :: xs => x.issues ++ (m.complaint? x.token).toList ++ (m.next x.token).issues xs

theorem code_of_mem_complaint {m : RightSide} {t : Token} {d : Diagnostic}
    (h : m.complaint? t = some d) : d.code ≠ .programTooLarge ∧ d.level = .error := by
  unfold complaint? at h
  split at h
  · split at h <;> cases h
    exact ⟨nofun, rfl⟩
  · split at h
    · split at h <;> cases h
      exact ⟨nofun, rfl⟩
    · split at h
      · cases h
        exact ⟨nofun, rfl⟩
      · split at h <;> cases h
        exact ⟨nofun, rfl⟩

end RightSide

namespace Operands

open Draft (Step)

def side (e : Operands σ) : RightSide := ⟨e.operator, e.expecting⟩

/-- Taking a token, seen from the draft and from the automaton. -/
theorem step_take (e : Operands σ) (t : Token) :
    Step e.draft (e.take t).draft (e.side.operand? t).toList (e.side.complaint? t).toList ∧
      (e.take t).side = e.side.next t ∧ (e.take t).draft.host = e.draft.host := by
  unfold take RightSide.operand? RightSide.complaint? RightSide.next
  split
  · rename_i ho
    split
    · rename_i hx
      have hx : e.side.expecting = true := hx
      simp only [ho, hx, Bool.and_true, if_true, Option.toList_some, Option.toList_none]
      exact ⟨Draft.step_emit _ _, rfl, Draft.host_emit _ _⟩
    · rename_i hx
      have hx : e.side.expecting = false := by simpa [side] using hx
      simp only [ho, hx, Bool.and_false, Bool.false_eq_true, if_false, Option.toList_some,
        Option.toList_none]
      refine ⟨Step.report nofun, ?_, rfl⟩
      rw [← hx]
      rfl
  · rename_i ho
    have ho : t.isOperand = false := by simpa using ho
    simp only [ho, Bool.false_and, Bool.false_eq_true, if_false, Option.toList_none]
    split
    · have hc : (Diagnostic.noOperandBefore t.word).code ≠ .programTooLarge := nofun
      have hs := Step.reportIf (d := e.draft) hc e.expecting
      refine ⟨?_, rfl, Draft.host_reportIf ..⟩
      convert hs using 1
      cases h : e.expecting <;> simp [side, h]
    · split
      · exact ⟨Step.report nofun, rfl, rfl⟩
      · have hc : (Diagnostic.notAValue t.word).code ≠ .programTooLarge := nofun
        have hs := Step.reportIf (d := e.draft) hc (!t.isUnknown)
        refine ⟨?_, rfl, Draft.host_reportIf ..⟩
        convert hs using 1
        cases t.isUnknown <;> rfl

theorem step_read (r : Reader σ) (e : Operands σ) (l : Lexeme) :
    let x := r.read e.draft.line e.draft.host l
    Step e.draft (e.read r l).draft (e.side.operand? x.token).toList
        (x.issues ++ (e.side.complaint? x.token).toList) ∧
      (e.read r l).side = e.side.next x.token ∧ (e.read r l).draft.host = x.state := by
  intro x
  obtain ⟨hs, hm, hh⟩ := step_take { e with draft := (e.draft.read r l).2 } x.token
  exact ⟨(Step.read r l).trans hs, hm, hh⟩

/-- Reading words to the end of the line. -/
theorem step_foldl_read (r : Reader σ) (e : Operands σ) (ls : List Lexeme) :
    let xs := r.readings e.draft.line e.draft.host ls
    Step e.draft (ls.foldl (read r) e).draft (e.side.words (xs.map Reading.token))
        (e.side.issues xs) ∧
      (ls.foldl (read r) e).side = e.side.after (xs.map Reading.token) ∧
      (ls.foldl (read r) e).draft.host = Reading.after e.draft.host xs := by
  induction ls generalizing e with
  | nil => exact ⟨Step.refl _, rfl, rfl⟩
  | cons l ls ih =>
    intro xs
    obtain ⟨hs, hm, hh⟩ := step_read r e l
    obtain ⟨hs', hm', hh'⟩ := ih (e.read r l)
    rw [hs.line, hh, hm] at hs' hm'
    rw [hs.line, hh] at hh'
    exact ⟨hs.trans hs', hm', hh'⟩

end Operands

/-- The tokens of the right side, among those after a target. -/
def rightTokens : List Token → List Token
  | [] => []
  | t :: ts => if t.isAssign then ts else t :: ts

theorem sublist_rightTokens (ts : List Token) : (rightTokens ts).Sublist ts := by
  cases ts with
  | nil => exact .slnil
  | cons t ts =>
    rw [rightTokens]
    split
    · exact List.sublist_cons_self t ts
    · exact .refl _

def startsWithAssign (ts : List Token) : Bool := ts.head?.any Token.isAssign

/-- The problems of the words after a target, up to the end of the line. -/
def assignIssues (target : Token) : List (Reading σ) → List Diagnostic
  | [] => [.nothingAssigned target.word]
  | x :: xs =>
    if x.token.isAssign then x.issues ++ RightSide.issues {} xs
    else x.issues ++ .notAssigned x.token.word target.word ::
      ((RightSide.complaint? {} x.token).toList ++ (RightSide.next {} x.token).issues xs)

/-- The operands that the words after a target give. -/
def assignWords (ts : List Token) : List Word := RightSide.words {} (rightTokens ts)

/-- A missing last operand is reported only if the line looks like an assignment
at all: it has its `=`, or an operand was stored. -/
def endIssues (ts : List Token) (stored : Nat) : List Diagnostic :=
  if (RightSide.after {} (rightTokens ts)).expecting && (startsWithAssign ts || decide (0 < stored)) then
    [.noOperandAtEnd]
  else []

namespace Block

def call (target : Token) (indent : Nat) : Block := { head := .head true indent target.value }

def assignment (target : Token) (indent : Nat) (ts : List Token) : Block :=
  { head := .head false indent target.value, operands := assignWords ts }

end Block

namespace Draft

/-- Words without an effect on the code but the operands of the right side. -/
theorem step_right (d : Draft σ) (r : Reader σ) (target : Token) (ls : List Lexeme) :
    let xs := r.readings d.line d.host ls
    let ts := xs.map Reading.token
    let a := d.readAssign r target ls
    let e := a.2.2.foldl (Operands.read r) a.1
    Step d e.draft (assignWords ts) (assignIssues target xs) ∧
      e.side = RightSide.after {} (rightTokens ts) ∧ e.draft.host = Reading.after d.host xs ∧
      a.2.1 = startsWithAssign ts := by
  cases ls with
  | nil => exact ⟨Step.report nofun, rfl, rfl, rfl⟩
  | cons l ls =>
    have hread : Step d (d.read r l).2 [] (r.read d.line d.host l).issues := Step.read r l
    simp only [readAssign, Reader.readings, List.map_cons, assignWords, assignIssues, rightTokens,
      startsWithAssign, List.head?_cons, Option.any_some, Reading.after]
    have hx : (d.read r l).1 = (r.read d.line d.host l).token := rfl
    rw [hx]
    by_cases ht : (r.read d.line d.host l).token.isAssign = true
    · simp only [ht, if_true]
      obtain ⟨hs, hm, hh⟩ := Operands.step_foldl_read r { draft := (d.read r l).2 } ls
      exact ⟨hread.trans hs, hm, hh, trivial⟩
    · -- the token that is not `=` is taken as the first of the right side
      simp only [ht, Bool.false_eq_true, if_false]
      generalize (r.read d.line d.host l).token = t
      have hc : (Diagnostic.notAssigned t.word target.word).code ≠ .programTooLarge := nofun
      have hrep := hread.trans (Step.report hc)
      have hhost : ((d.read r l).2.report (.notAssigned t.word target.word)).host =
          (r.read d.line d.host l).state := rfl
      generalize (d.read r l).2.report (.notAssigned t.word target.word) = d' at hrep hhost
      obtain ⟨htake, hmt, hht⟩ := Operands.step_take { draft := d' } t
      have hline : (Operands.take { draft := d' } t).draft.line = d.line := htake.line.trans hrep.line
      have hhost : (Operands.take { draft := d' } t).draft.host = (r.read d.line d.host l).state :=
        hht.trans hhost
      obtain ⟨hs, hm, hh⟩ := Operands.step_foldl_read r (Operands.take { draft := d' } t) ls
      rw [hline, hhost, hmt] at hs hm
      rw [hline, hhost] at hh
      refine ⟨?_, hm, hh, trivial⟩
      have hall := hrep.trans (htake.trans hs)
      rw [List.append_assoc (r.read d.line d.host l).issues] at hall
      exact hall

/-- The blocks that a draft holds, as far as they found room. -/
structure Holds (d : Draft σ) (bs : List Block) : Prop where
  code : d.code.toList = spell (layOut d.code.limit 0 bs)
  offered : d.Offered (totalSize bs)

variable {d e : Draft σ} {bs : List Block}

theorem Holds.length_eq (h : d.Holds bs) :
    d.code.toList.length = min d.code.limit (totalSize bs) := h.offered.length_eq

/-- Problems do not touch the code. -/
theorem Holds.step (h : d.Holds bs) {issues : List Diagnostic} (hs : Step d e [] issues) :
    e.Holds bs := by
  refine ⟨?_, hs.offered h.offered⟩
  have hl := h.length_eq
  rw [hs.code h.offered, hs.limit, List.append_nil, List.take_of_length_le (by omega), h.code]

/-- Head, slot and operands offered, and the operands counted in the slot, make
a block. -/
theorem Holds.block (h : d.Holds bs) {b : Block} {w : Word} {issues : List Diagnostic}
    (hs : Step d e (b.head :: w :: b.operands) issues) {code : Buffer Word}
    (hl : code.limit = e.code.limit)
    (hc : code.toList = (d.code.toList ++ b.head ::
      .ofNat (min b.operands.length (d.code.limit - (totalSize bs + 2))) :: b.operands).take d.code.limit) :
    Holds { e with code } (bs ++ [b]) := by
  have hlim : code.limit = d.code.limit := hl.trans hs.limit
  refine ⟨?_, ?_⟩
  · rw [hc, take_block h.length_eq, layOut_append, spell_append, hlim, Nat.zero_add, h.code]
  · have ho := hs.offered h.offered
    have hn : totalSize bs + (b.head :: w :: b.operands).length = totalSize (bs ++ [b]) := by
      simp [Block.size]
      omega
    rw [hn] at ho
    refine ⟨?_, ?_, ho.refusals⟩
    · have hsize : code.size = e.code.size := by
        have hle := congrArg List.length (hs.code h.offered)
        have hlc := congrArg List.length hc
        rw [List.length_take, List.length_append] at hle hlc
        exact hlc.trans hle.symm
      rw [hsize, hl]
      exact ho.size
    · rw [hl]
      exact ho.closed

theorem assignment_spec (h : d.Holds bs) (r : Reader σ) (target : Token) (indent : Nat)
    (ls : List Lexeme) :
    let xs := r.readings d.line d.host ls
    let ts := xs.map Reading.token
    let e := d.assignment r target indent ls
    e.Holds (bs ++ [.assignment target indent ts]) ∧
      Notes d e (assignIssues target xs ++
        endIssues ts (min (assignWords ts).length (d.code.limit - (totalSize bs + 2)))) ∧
      e.host = Reading.after d.host xs := by
  intro xs ts
  have h1 := step_emit d (.head false indent target.value)
  have h2 := h1.trans (step_emit _ (.ofNat 0))
  have hslot := (h1.offered h.offered).size
  have hhost : ((d.emit (.head false indent target.value)).emit (.ofNat 0)).host = d.host := by
    rw [host_emit, host_emit]
  unfold assignment
  dsimp only
  generalize (d.emit (.head false indent target.value)).emit (.ofNat 0) = d2 at h2 hhost
  generalize (d.emit (.head false indent target.value)).code.size = slot at hslot
  rw [h1.limit, List.length_singleton] at hslot
  have hr := step_right d2 r target ls
  rw [h2.line, hhost] at hr
  unfold operands
  generalize d2.readAssign r target ls = a at hr
  obtain ⟨e, assigned, rest⟩ := a
  dsimp only at hr ⊢
  generalize rest.foldl (Operands.read r) e = e at hr
  obtain ⟨hs, hside, hh, rfl⟩ := hr
  -- all words of the block are offered; the count is what the buffer took of the operands
  have hall := h2.trans hs
  have hcount : e.draft.code.size - (slot + 1) =
      min (assignWords ts).length (d.code.limit - (totalSize bs + 2)) := by
    have hsize := (hall.offered h.offered).size
    rw [hall.limit] at hsize
    simp only [List.length_append, List.length_singleton] at hsize
    change _ = min d.code.limit (totalSize bs + (1 + 1 + (assignWords ts).length)) at hsize
    omega
  have hx : e.expecting = (RightSide.after {} (rightTokens ts)).expecting :=
    congrArg RightSide.expecting hside
  rw [hcount, hx]
  have hc : Diagnostic.noOperandAtEnd.code ≠ .programTooLarge := nofun
  have hend := hall.trans (Step.reportIf hc ((RightSide.after {} (rightTokens ts)).expecting &&
    (startsWithAssign ts || decide (0 < min (assignWords ts).length
      (d.code.limit - (totalSize bs + 2))))))
  rw [List.append_nil] at hend
  refine ⟨h.block (b := .assignment target indent ts) hend rfl ?_, ?_, ?_⟩
  · rw [Buffer.toList_set, hslot, hend.code h.offered]
    exact set_take_block h.length_eq ..
  · exact ⟨hend.limit, hend.script, hend.line, hend.notes⟩
  · rw [← hh]
    exact host_reportIf ..

/-- A head and an empty slot make a block without operands. -/
theorem Holds.call (h : d.Holds bs) (head : Word) :
    ((d.emit head).emit (.ofNat 0)).Holds (bs ++ [{ head := head }]) ∧
      Notes d ((d.emit head).emit (.ofNat 0)) [] ∧
      ((d.emit head).emit (.ofNat 0)).host = d.host := by
  have hs := (step_emit d head).trans (step_emit _ (.ofNat 0))
  have hhost : ((d.emit head).emit (.ofNat 0)).host = d.host := by rw [host_emit, host_emit]
  generalize (d.emit head).emit (.ofNat 0) = e at hs hhost ⊢
  refine ⟨h.block (b := { head := head }) hs rfl ?_, hs.toNotes, hhost⟩
  rw [hs.code h.offered]
  simp

theorem function_spec (h : d.Holds bs) (target : Token) (indent : Nat) (rest : List Char) :
    let e := d.function target indent rest
    e.Holds (bs ++ [.call target indent]) ∧
      Notes d e (if (Text.trim rest).isEmpty then []
        else [.trailingText target.word (String.ofList (Text.trim rest))]) ∧
      e.host = d.host := by
  intro e
  obtain ⟨hb, hn, hhost⟩ := h.call (.head true indent target.value)
  have hc : (Diagnostic.trailingText target.word (String.ofList (Text.trim rest))).code ≠
      .programTooLarge := nofun
  have hrep := Step.reportIf (d := (d.emit (.head true indent target.value)).emit (.ofNat 0)) hc
    (!(Text.trim rest).isEmpty)
  refine ⟨hb.step hrep, ?_, (host_reportIf ..).trans hhost⟩
  have hall := hn.trans hrep.toNotes
  cases ht : (Text.trim rest).isEmpty <;> simpa [ht, e, function] using hall

end Draft

end NpcScript
