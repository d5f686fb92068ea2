import NpcScript.Buffer
import NpcScript.Token.Reader
import NpcScript.Word

/-! # Drafts

A draft is a script under construction: the words so far, the problems found so
far, the current line, and the state of the host. Once the buffer has refused a
word it takes no other, so that a script that is too large is cut and not full
of holes, and the refusal is reported once. -/
namespace NpcScript

structure Draft (σ : Type) where
  code : Buffer Word
  log : Log
  /-- The number of the current line; 0 before the first. -/
  line : LineNumber := 0
  /-- A word was refused. -/
  closed : Bool := false
  host : σ

namespace Draft

variable {σ : Type}

/-- Report a problem of the current line. -/
def report (d : Draft σ) (issue : Diagnostic) : Draft σ :=
  { d with log := d.log.push (issue.inLine d.line) }

def reportIf (d : Draft σ) (condition : Bool) (issue : Diagnostic) : Draft σ :=
  if condition then d.report issue else d

/-- Add a word, or report that there is no room for it. -/
def emit (d : Draft σ) (w : Word) : Draft σ :=
  if d.closed then d
  else if room : d.code.isFull = false then { d with code := d.code.push w room }
  else { d.report d.code.overflow with closed := true }

/-- Read a word of the current line. -/
def read (d : Draft σ) (r : Reader σ) (l : Lexeme) : Token × Draft σ :=
  let reading := r.read d.line d.host l
  (reading.token, { d with log := d.log.append reading.issues, host := reading.state })

end Draft

end NpcScript
