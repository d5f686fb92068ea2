import NpcScript.Compiler.Draft

/-! # Assignments

An assignment is a variable, `=`, and operands with operators between them. Its
words are a head, the number of operands, and the operands, each under the
operator before it. A wrong token is reported and passed over, so that one line
can show all of its problems. -/
namespace NpcScript

/-- The right side of an assignment while it is read. -/
structure Operands (σ : Type) where
  draft : Draft σ
  /-- The operator for the next operand. -/
  operator : Int32 := Word.neutral
  /-- An operand has to come next. -/
  expecting : Bool := true

namespace Operands

variable {σ : Type}

/-- Take the next token of the right side. -/
def take (e : Operands σ) (t : Token) : Operands σ :=
  if t.isOperand then
    if e.expecting then
      { e with
        draft := e.draft.emit (.operand t.isVariable e.operator t.value)
        expecting := false }
    else { e with draft := e.draft.report (.noOperatorBefore t.word) }
  else if t.isOperator then
    { draft := e.draft.reportIf e.expecting (.noOperandBefore t.word)
      operator := t.value
      expecting := true }
  else if t.isAssign then { e with draft := e.draft.report .secondAssign }
  else
    { e with
      draft := e.draft.reportIf (!t.isUnknown) (.notAValue t.word)
      expecting := false }

/-- Read the next word of the right side and take its token. -/
def read (r : Reader σ) (e : Operands σ) (l : Lexeme) : Operands σ :=
  let (t, draft) := e.draft.read r l
  { e with draft }.take t

end Operands

namespace Draft

variable {σ : Type}

/-- Read what should be the `=` after a target, and say whether it is. If it is
not, it may still be the first operand. -/
def readAssign (d : Draft σ) (r : Reader σ) (target : Token) :
    List Lexeme → Operands σ × Bool × List Lexeme
  | [] => ({ draft := d.report (.nothingAssigned target.word) }, false, [])
  | l :: rest =>
    let (t, d) := d.read r l
    if t.isAssign then ({ draft := d }, true, rest)
    else (Operands.take { draft := d.report (.notAssigned t.word target.word) } t, false, rest)

/-- Read the right side of an assignment, and put the number of its operands
into the slot before them. Only operands that found room are counted. If there
was no room for the slot, its address is past the end, and setting it changes
nothing. -/
def operands (slot : Nat) (d : Draft σ) (r : Reader σ) (target : Token) (words : List Lexeme) :
    Draft σ :=
  let (e, assigned, rest) := d.readAssign r target words
  let e := rest.foldl (Operands.read r) e
  let count := e.draft.code.size - (slot + 1)
  let d := e.draft.reportIf (e.expecting && (assigned || decide (0 < count))) .noOperandAtEnd
  { d with code := d.code.set slot (.ofNat count) }

/-- Add an assignment to a target from the words after it. -/
def assignment (d : Draft σ) (r : Reader σ) (target : Token) (indent : Nat)
    (words : List Lexeme) : Draft σ :=
  let d := d.emit (.head false indent target.value)
  operands d.code.size (d.emit (.ofNat 0)) r target words

end Draft

end NpcScript
