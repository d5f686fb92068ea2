import NpcScript.Proofs.RightSide

/-! # The grammar of assignments

An assignment is a variable, `=`, an operand, and any number of operators, each
with an operand after it. The compiler does not parse: it goes on after each
problem, and an assignment is what gives it no cause for complaint. The two are
the same, once every token is known. -/
namespace NpcScript

variable {σ : Type}

/-- Operators with the operands after them, in the order of the line. -/
def pairTokens (ps : List (Token × Token)) : List Token := ps.flatMap fun p => [p.1, p.2]

theorem pairTokens_cons (p : Token × Token) (ps : List (Token × Token)) :
    pairTokens (p :: ps) = p.1 :: p.2 :: pairTokens ps := rfl

/-- Every pair is an operator and an operand. -/
def Paired (ps : List (Token × Token)) : Prop := ∀ p ∈ ps, p.1.isOperator = true ∧ p.2.isOperand = true

theorem paired_nil : Paired [] := List.forall_mem_nil _

theorem paired_cons {p : Token × Token} {ps : List (Token × Token)} :
    Paired (p :: ps) ↔ (p.1.isOperator = true ∧ p.2.isOperand = true) ∧ Paired ps :=
  List.forall_mem_cons

structure Assignment where
  target : Token
  sign : Token
  first : Token
  rest : List (Token × Token)
  isVariable_target : target.isVariable = true
  isAssign_sign : sign.isAssign = true
  isOperand_first : first.isOperand = true
  paired_rest : Paired rest

namespace Assignment

def tokens (a : Assignment) : List Token := a.target :: a.sign :: a.first :: pairTokens a.rest

/-- The operands, each with the value of the operator before it. -/
def terms (a : Assignment) : List (Int32 × Token) :=
  (Word.neutral, a.first) :: a.rest.map fun p => (p.1.value, p.2)

end Assignment

namespace Token

variable {t : Token}

theorem isOperator_eq_false (h : t.isOperand = true) : t.isOperator = false := by
  unfold isOperand isConstant isVariable at h
  unfold isOperator
  cases hk : t.kind with
  | none => rfl
  | some k => cases k <;> simp_all

theorem isOperand_eq_false (h : t.isOperator = true) : t.isOperand = false := by
  obtain ⟨hk, _⟩ := kind_of_isOperator h
  simp [isOperand, isConstant, isVariable, hk]

end Token

namespace RightSide

/-- The automaton has no complaint, and no operand is missing at the end. -/
def accepts (m : RightSide) : List Token → Bool
  | [] => !m.expecting
  | t :: ts => (m.complaint? t).isNone && (m.next t).accepts ts

/-- The automaton wants operands and operators in turn. -/
theorem isNone_complaint {t : Token} (h : t.isUnknown = false) (m : RightSide) :
    (m.complaint? t).isNone = if m.expecting then t.isOperand else t.isOperator := by
  unfold complaint?
  cases ho : t.isOperand with
  | true => cases m.expecting <;> simp [Token.isOperator_eq_false ho]
  | false =>
    cases hp : t.isOperator with
    | true => cases m.expecting <;> simp
    | false => cases m.expecting <;> cases t.isAssign <;> simp [h]

theorem next_of_isOperand {t : Token} (h : t.isOperand = true) (m : RightSide) :
    m.next t = { m with expecting := false } := if_pos h

theorem next_of_isOperator {t : Token} (h : t.isOperator = true) (m : RightSide) :
    m.next t = { operator := t.value, expecting := true } := by
  rw [next, Token.isOperand_eq_false h, h]
  rfl

/-- What is accepted are pairs, behind an operand if one has to come first. -/
theorem accepts_iff {ts : List Token} (hk : ∀ t ∈ ts, t.isUnknown = false) (m : RightSide) :
    (m.expecting = true → (m.accepts ts = true ↔
      ∃ first ps, first.isOperand = true ∧ Paired ps ∧ ts = first :: pairTokens ps)) ∧
    (m.expecting = false → (m.accepts ts = true ↔ ∃ ps, Paired ps ∧ ts = pairTokens ps)) := by
  -- each state hands over to the other, so both are proved in one induction
  induction ts generalizing m with
  | nil =>
    refine ⟨fun hm => ?_, fun hm => ?_⟩
    · simp [accepts, hm]
    · simp only [accepts, hm, Bool.not_false, true_iff]
      exact ⟨[], paired_nil, rfl⟩
  | cons t ts ih =>
    obtain ⟨ht, hts⟩ := List.forall_mem_cons.1 hk
    refine ⟨fun hm => ?_, fun hm => ?_⟩
    · rw [accepts, isNone_complaint ht, hm, if_pos rfl, Bool.and_eq_true]
      constructor
      · rintro ⟨ho, ha⟩
        rw [next_of_isOperand ho] at ha
        obtain ⟨ps, hp, rfl⟩ := ((ih hts _).2 rfl).1 ha
        exact ⟨t, ps, ho, hp, rfl⟩
      · rintro ⟨first, ps, ho, hp, he⟩
        cases he
        rw [next_of_isOperand ho]
        exact ⟨ho, ((ih hts _).2 rfl).2 ⟨ps, hp, rfl⟩⟩
    · rw [accepts, isNone_complaint ht, hm, if_neg Bool.false_ne_true, Bool.and_eq_true]
      constructor
      · rintro ⟨ho, ha⟩
        rw [next_of_isOperator ho] at ha
        obtain ⟨first, ps, hf, hp, rfl⟩ := ((ih hts _).1 rfl).1 ha
        exact ⟨(t, first) :: ps, paired_cons.2 ⟨⟨ho, hf⟩, hp⟩, rfl⟩
      · rintro ⟨ps, hp, he⟩
        cases ps with
        | nil => cases he
        | cons p ps =>
          obtain ⟨⟨ho, hf⟩, hp⟩ := paired_cons.1 hp
          rw [pairTokens_cons, List.cons.injEq] at he
          obtain ⟨rfl, rfl⟩ := he
          rw [next_of_isOperator ho]
          exact ⟨ho, ((ih hts _).1 rfl).2 ⟨p.2, ps, hf, hp, rfl⟩⟩

/-- An accepted right side is one that gives no problem of its own. -/
theorem accepts_eq_true_iff {xs : List (Reading σ)} (hi : ∀ x ∈ xs, x.issues = []) (m : RightSide) :
    m.accepts (xs.map Reading.token) = true ↔
      m.issues xs = [] ∧ (m.after (xs.map Reading.token)).expecting = false := by
  induction xs generalizing m with
  | nil => simp [accepts, issues, after]
  | cons x xs ih =>
    obtain ⟨hx, hxs⟩ := List.forall_mem_cons.1 hi
    have ha : m.after ((x :: xs).map Reading.token) = (m.next x.token).after (xs.map Reading.token) := rfl
    rw [List.map_cons, accepts, Bool.and_eq_true, ih hxs, issues, hx, ← List.map_cons, ha]
    simp [and_assoc]

theorem mem_issues {xs : List (Reading σ)} {x : Reading σ} (hx : x ∈ xs) {i : Diagnostic}
    (hi : i ∈ x.issues) (m : RightSide) : i ∈ m.issues xs := by
  induction xs generalizing m with
  | nil => cases hx
  | cons y xs ih =>
    rw [issues]
    rcases List.mem_cons.1 hx with rfl | hx
    · simp [hi]
    · exact List.mem_append_right _ (ih hx _)

/-- The operands of pairs, each under its operator. -/
theorem words_pairTokens {ps : List (Token × Token)} (h : Paired ps) (m : RightSide) :
    m.words (pairTokens ps) = ps.map fun p => .operand p.2.isVariable p.1.value p.2.value := by
  induction ps generalizing m with
  | nil => rfl
  | cons p ps ih =>
    obtain ⟨⟨ho, hf⟩, hp⟩ := paired_cons.1 h
    rw [pairTokens_cons, words, words, next_of_isOperator ho, next_of_isOperand hf, ih hp, operand?,
      Token.isOperand_eq_false ho, operand?, hf]
    rfl

end RightSide

theorem assignWords_tokens (a : Assignment) :
    assignWords a.tokens.tail =
      a.terms.map fun x => .operand x.2.isVariable x.1 x.2.value := by
  have hr : rightTokens a.tokens.tail = a.first :: pairTokens a.rest := if_pos a.isAssign_sign
  rw [assignWords, hr, RightSide.words, RightSide.next_of_isOperand a.isOperand_first,
    RightSide.words_pairTokens a.paired_rest, RightSide.operand?, a.isOperand_first]
  simp [Assignment.terms]

/-- The words after a target are without a problem exactly if they make it an
assignment. -/
theorem assign_quiet_iff {target : Token} (ht : target.isVariable = true) {xs : List (Reading σ)}
    (hi : ∀ x ∈ xs, x.issues = []) (hk : ∀ x ∈ xs, x.token.isUnknown = false) (stored : Nat) :
    assignIssues target xs ++ endIssues (xs.map Reading.token) stored = [] ↔
      ∃ a : Assignment, target :: xs.map Reading.token = a.tokens := by
  cases xs with
  | nil =>
    simp only [assignIssues, List.cons_append, List.map_nil, reduceCtorEq, false_iff]
    rintro ⟨a, ha⟩
    cases ha
  | cons x xs =>
    obtain ⟨hx, hxs⟩ := List.forall_mem_cons.1 hi
    obtain ⟨_, hks⟩ := List.forall_mem_cons.1 hk
    rw [assignIssues, List.append_eq_nil_iff, List.map_cons]
    by_cases hs : x.token.isAssign = true
    · have hr : rightTokens (x.token :: xs.map Reading.token) = xs.map Reading.token := if_pos hs
      have hend : endIssues (x.token :: xs.map Reading.token) stored = [] ↔
          (RightSide.after {} (xs.map Reading.token)).expecting = false := by
        rw [endIssues, hr, startsWithAssign, List.head?_cons, Option.any_some, hs, Bool.true_or,
          Bool.and_true]
        cases (RightSide.after {} (xs.map Reading.token)).expecting <;> simp
      have hkt : ∀ t ∈ xs.map Reading.token, t.isUnknown = false := by
        intro t ht
        obtain ⟨y, hy, rfl⟩ := List.mem_map.1 ht
        exact hks y hy
      rw [if_pos hs, hx, List.nil_append, hend, ← RightSide.accepts_eq_true_iff hxs,
        (RightSide.accepts_iff hkt {}).1 rfl]
      constructor
      · rintro ⟨first, ps, hf, hp, he⟩
        exact ⟨⟨target, x.token, first, ps, ht, hs, hf, hp⟩, by rw [he]; rfl⟩
      · rintro ⟨a, ha⟩
        obtain ⟨_, he⟩ := List.cons.inj ha
        obtain ⟨_, he⟩ := List.cons.inj he
        exact ⟨a.first, a.rest, a.isOperand_first, a.paired_rest, he⟩
    · rw [if_neg hs]
      constructor
      · rintro ⟨hn, _⟩
        simp at hn
      · rintro ⟨a, ha⟩
        obtain ⟨_, he⟩ := List.cons.inj ha
        obtain ⟨hsign, _⟩ := List.cons.inj he
        rw [hsign] at hs
        exact absurd a.isAssign_sign hs

end NpcScript
