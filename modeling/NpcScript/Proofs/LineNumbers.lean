import NpcScript.Proofs.Compiling

/-! # Line numbers

A line is read with its number, and the number shows in tokens and problems.
Nothing else depends on it: `atLine` gives a reading another number, and reading
at one line is reading at any other and then changing the number. -/
namespace NpcScript

variable {σ : Type}

namespace Token

/-- The same token in another line. -/
def atLine (t : Token) (n : LineNumber) : Token := { t with line := n }

end Token

namespace Reading

/-- The same reading in another line. -/
def atLine (n : LineNumber) (x : Reading σ) : Reading σ :=
  { token := x.token.atLine n, issues := x.issues.map (·.inLine n), state := x.state }

theorem after_map_atLine (n : LineNumber) (s : σ) (xs : List (Reading σ)) :
    after s (xs.map (atLine n)) = after s xs := by
  induction xs generalizing s with
  | nil => rfl
  | cons x xs ih => exact ih x.state

/-- The last number that a problem is given counts. -/
theorem map_issues_atLine (x : Reading σ) (n k : LineNumber) :
    (x.atLine n).issues.map (·.inLine k) = x.issues.map (·.inLine k) := by
  show (x.issues.map (·.inLine n)).map (·.inLine k) = _
  rw [List.map_map]
  rfl

end Reading

namespace Reader

variable (r : Reader σ) (m n : LineNumber)

theorem lookUp_atLine (word : String) :
    r.lookUp word n = ((r.lookUp word m).1.atLine n, (r.lookUp word m).2) := by
  unfold lookUp
  split
  · rfl
  · split
    · rfl
    · split <;> rfl

theorem classify_atLine (s : σ) (chars : List Char) :
    r.classify n s chars =
      { r.classify m s chars with token := (r.classify m s chars).token.atLine n } := by
  unfold classify
  cases WordForm.ofWord chars with
  | numeral _ | code _ | assign | message _ => rfl
  | asset name =>
    dsimp only
    split <;> rfl
  | name =>
    dsimp only
    rw [r.lookUp_atLine m n]

/-- The number of a line only shows as such. -/
theorem read_atLine (s : σ) (l : Lexeme) : r.read n s l = (r.read m s l).atLine n := by
  unfold read
  rw [r.classify_atLine m n]
  simp [Reading.atLine, Diagnostic.inLine, Function.comp_def]

theorem readings_atLine (s : σ) (ls : List Lexeme) :
    r.readings n s ls = (r.readings m s ls).map (Reading.atLine n) := by
  induction ls generalizing s with
  | nil => rfl
  | cons l ls ih =>
    rw [readings, readings, List.map_cons, r.read_atLine m n, ih]
    rfl

theorem readLine_atLine (s : σ) (text : List Char) :
    r.readLine n s text = (r.readLine m s text).map (Reading.atLine n) := by
  unfold readLine
  rw [r.readings_atLine m n]
  cases r.readings m s (lexemes text) with
  | nil => rfl
  | cons x xs =>
    show (if x.token.isVariable then _ else _) =
      List.map (Reading.atLine n) (if x.token.isVariable then _ else _)
    split <;> rfl

end Reader

/-! ## Assignments -/

namespace RightSide

variable (n : LineNumber)

theorem words_atLine (m : RightSide) (ts : List Token) :
    m.words (ts.map (·.atLine n)) = m.words ts := by
  induction ts generalizing m with
  | nil => rfl
  | cons t ts ih =>
    show (m.operand? t).toList ++ (m.next t).words (ts.map (·.atLine n)) = _
    rw [ih, words]

theorem after_atLine (m : RightSide) (ts : List Token) :
    m.after (ts.map (·.atLine n)) = m.after ts := by
  induction ts generalizing m with
  | nil => rfl
  | cons t ts ih => exact ih (m.next t)

/-- Problems of a right side differ only in where they are. -/
theorem issues_atLine (k : LineNumber) (m : RightSide) (xs : List (Reading σ)) :
    (m.issues (xs.map (Reading.atLine n))).map (·.inLine k) = (m.issues xs).map (·.inLine k) := by
  induction xs generalizing m with
  | nil => rfl
  | cons x xs ih =>
    have hx : (x.atLine n).issues.map (·.inLine k) = x.issues.map (·.inLine k) :=
      x.map_issues_atLine n k
    have hrest := ih (m.next x.token)
    rw [List.map_cons, issues, issues, List.map_append, List.map_append, List.map_append,
      List.map_append]
    show (x.atLine n).issues.map _ ++ _ ++ ((m.next x.token).issues _).map _ = _
    rw [hx, hrest]
    rfl

end RightSide

theorem rightTokens_atLine (n : LineNumber) (ts : List Token) :
    rightTokens (ts.map (·.atLine n)) = (rightTokens ts).map (·.atLine n) := by
  cases ts with
  | nil => rfl
  | cons t ts =>
    show (if t.isAssign then _ else _) = _
    rw [rightTokens]
    split <;> rfl

theorem assignWords_atLine (n : LineNumber) (ts : List Token) :
    assignWords (ts.map (·.atLine n)) = assignWords ts := by
  rw [assignWords, rightTokens_atLine, RightSide.words_atLine]
  rfl

theorem endIssues_atLine (n : LineNumber) (ts : List Token) (stored : Nat) :
    endIssues (ts.map (·.atLine n)) stored = endIssues ts stored := by
  have hs : startsWithAssign (ts.map (·.atLine n)) = startsWithAssign ts := by
    cases ts <;> rfl
  rw [endIssues, rightTokens_atLine, RightSide.after_atLine, hs]
  rfl

theorem assignIssues_atLine (n k : LineNumber) (target : Token) (xs : List (Reading σ)) :
    (assignIssues (target.atLine n) (xs.map (Reading.atLine n))).map (·.inLine k) =
      (assignIssues target xs).map (·.inLine k) := by
  cases xs with
  | nil => rfl
  | cons x xs =>
    have hx : (x.atLine n).issues.map (·.inLine k) = x.issues.map (·.inLine k) :=
      x.map_issues_atLine n k
    rw [List.map_cons, assignIssues, assignIssues]
    show List.map _ (if x.token.isAssign then (x.atLine n).issues ++ _
      else (x.atLine n).issues ++ _ :: (_ ++ _)) = _
    split
    · rw [List.map_append, List.map_append, hx, RightSide.issues_atLine]
    · rw [List.map_append, List.map_append, hx, List.map_cons, List.map_cons, List.map_append,
        List.map_append]
      show _ ++ _ :: (_ ++ ((RightSide.next {} x.token).issues (xs.map (Reading.atLine n))).map _) = _
      rw [RightSide.issues_atLine]
      rfl

/-! ## Lines -/

namespace LineReading

/-- The same line under another number. -/
def atLine (n : LineNumber) (l : LineReading σ) : LineReading σ :=
  { l with number := n, readings := l.readings.map (Reading.atLine n) }

variable (n : LineNumber) (l : LineReading σ)

theorem tokens_atLine : (l.atLine n).tokens = l.tokens.map (·.atLine n) := by
  show (l.readings.map (Reading.atLine n)).map Reading.token = _
  rw [tokens, List.map_map, List.map_map]
  rfl

@[simp]
theorem endsScript_atLine : (l.atLine n).endsScript = l.endsScript := by
  rw [endsScript, tokens_atLine, endsScript]
  cases l.tokens <;> rfl

theorem readings_atLine {x : Reading σ} {xs : List (Reading σ)} (h : l.readings = x :: xs) :
    (l.atLine n).readings = x.atLine n :: xs.map (Reading.atLine n) := by
  rw [atLine, h]
  rfl

theorem map_token_atLine (xs : List (Reading σ)) :
    (xs.map (Reading.atLine n)).map Reading.token = (xs.map Reading.token).map (·.atLine n) := by
  rw [List.map_map, List.map_map]
  rfl

@[simp]
theorem blocks_atLine : (l.atLine n).blocks = l.blocks := by
  cases h : l.readings with
  | nil =>
    have h' : (l.atLine n).readings = [] := by rw [atLine, h]; rfl
    rw [blocks_of_nil h, blocks_of_nil h']
  | cons x xs =>
    have h' := readings_atLine n l h
    by_cases hf : x.token.kind = some .function
    · rw [blocks_of_function h hf, blocks_of_function h' hf, endsScript_atLine]
      rfl
    · by_cases hv : x.token.kind = some .var
      · rw [blocks_of_var h hv, blocks_of_var h' hv, map_token_atLine, Block.assignment,
          assignWords_atLine]
        rfl
      · rw [blocks_of_other h hf hv, blocks_of_other h' hf hv]

/-- Problems of a line differ only in where they are. -/
theorem statementIssues_atLine (k : LineNumber) (room : Nat) :
    ((l.atLine n).statementIssues room).map (·.inLine k) =
      (l.statementIssues room).map (·.inLine k) := by
  cases h : l.readings with
  | nil =>
    have h' : (l.atLine n).readings = [] := by rw [atLine, h]; rfl
    rw [statementIssues_of_nil h, statementIssues_of_nil h']
  | cons x xs =>
    have h' := readings_atLine n l h
    have hx : (x.atLine n).issues.map (·.inLine k) = x.issues.map (·.inLine k) :=
      x.map_issues_atLine n k
    by_cases hf : x.token.kind = some .function
    · rw [statementIssues_of_function h hf, statementIssues_of_function h' hf, endsScript_atLine,
        List.map_append, List.map_append]
      exact congrArg (· ++ _) hx
    · by_cases hv : x.token.kind = some .var
      · rw [statementIssues_of_var h hv, statementIssues_of_var h' hv, map_token_atLine, assignWords_atLine,
          endIssues_atLine, List.map_append, List.map_append, List.map_append, List.map_append]
        exact congrArg₂ (· ++ ·) hx (congrArg (· ++ _) (assignIssues_atLine n k x.token xs))
      · rw [statementIssues_of_other h hf hv, statementIssues_of_other h' hf hv, List.map_append,
          List.map_append]
        exact congrArg (· ++ _) hx

theorem issues_atLine (k : LineNumber) (maxLine room : Nat) :
    ((l.atLine n).issues maxLine room).map (·.inLine k) = (l.issues maxLine room).map (·.inLine k) := by
  have h := statementIssues_atLine n l k room
  have hline : (l.atLine n).line = l.line := rfl
  have hindent : (l.atLine n).indentIssues = l.indentIssues := rfl
  rw [issues, hline, hindent, issues]
  cases l.line.isEmpty with
  | true => rfl
  | false => simp only [Bool.false_eq_true, if_false, List.map_append, h]

/-- The same line so many lines further on. -/
def shift (k : LineNumber) (l : LineReading σ) : LineReading σ := l.atLine (l.number + k)

theorem after_map_shift (k : LineNumber) (s : σ) (ls : List (LineReading σ)) :
    after s (ls.map (shift k)) = after s ls := by
  induction ls generalizing s with
  | nil => rfl
  | cons l ls ih =>
    show after (Reading.after s (l.readings.map (Reading.atLine _))) (ls.map (shift k)) = _
    rw [Reading.after_map_atLine, ih, after]

theorem lastNumber_map_shift (k m : LineNumber) (ls : List (LineReading σ)) :
    lastNumber (m + k) (ls.map (shift k)) = lastNumber m ls + k := by
  induction ls generalizing m with
  | nil => rfl
  | cons l ls ih => exact ih l.number

theorem flatMap_blocks_shift (k : LineNumber) (ls : List (LineReading σ)) :
    (ls.map (shift k)).flatMap blocks = ls.flatMap blocks := by
  rw [List.flatMap_map]
  exact List.flatMap_congr fun l _ => blocks_atLine _ l

theorem any_endsScript_shift (k : LineNumber) (ls : List (LineReading σ)) :
    (ls.map (shift k)).any endsScript = ls.any endsScript := by
  rw [List.any_map]
  exact congrArg (ls.any ·) (funext fun l => endsScript_atLine _ l)

/-- Reports move with their lines. -/
theorem reports_shift (script : String) (maxLine : Nat) (k : LineNumber) (room : Nat)
    (ls : List (LineReading σ)) :
    reports script maxLine room (ls.map (shift k)) =
      (reports script maxLine room ls).map fun d => d.inLine (d.line + k) := by
  induction ls generalizing room with
  | nil => rfl
  | cons l ls ih =>
    have hl := issues_atLine (l.number + k) l (l.number + k) maxLine room
    have hl := congrArg (List.map (·.inScript script)) hl
    rw [List.map_map, List.map_map] at hl
    rw [List.map_cons, reports, reports, List.map_append, ih, shift, blocks_atLine, List.map_map]
    exact congrArg (· ++ _) hl

end LineReading

namespace Compiler

variable (c : Compiler σ)

theorem readBody_atLine (m n : LineNumber) (s : σ) (body : List Char) :
    c.readBody n s body = (c.readBody m s body).atLine n := by
  show LineReading.mk n _ _ (c.reader.readLine n s _) _ = _
  rw [c.reader.readLine_atLine m n]
  rfl

/-- Lines read further on are the same lines under higher numbers. -/
theorem readLines_shift (k n : LineNumber) (s : σ) (ss : List Segment) :
    c.readLines (n + k) s ss = (c.readLines n s ss).map (LineReading.shift k) := by
  induction ss generalizing n s with
  | nil => rfl
  | cons segment ss ih =>
    have hn : n + k + 1 = n + 1 + k := by rw [UInt32.add_assoc, UInt32.add_comm k, UInt32.add_assoc]
    have hl : c.readBody (n + 1 + k) s segment.body =
        (c.readBody (n + 1) s segment.body).shift k := c.readBody_atLine (n + 1) _ s segment.body
    have hafter : Reading.after s ((c.readBody (n + 1) s segment.body).shift k).readings =
        Reading.after s (c.readBody (n + 1) s segment.body).readings :=
      Reading.after_map_atLine _ s _
    rw [readLines, readLines, hn, hl, hafter, ih, LineReading.shift, LineReading.endsScript_atLine]
    split <;> rfl

end Compiler

end NpcScript
