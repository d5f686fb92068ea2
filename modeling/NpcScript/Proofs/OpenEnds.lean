import NpcScript.Proofs.Acceptance
import NpcScript.Proofs.Truncation

/-! # Problems that depend on the room

Reading goes on after the buffer is full, so a tighter limit on words should
change nothing in the log but the refusal. It does so with one exception. If the
`=` of an assignment is missing, a right side that stops behind an operator is
reported only if an operand was stored, and whether one was stored depends on
the room. `endsOpen` names these lines. All other problems are the same under
every limit. -/
namespace NpcScript

variable {σ : Type}

section

variable {α β : Type} {xs xs' ys ys' : List α}

/-- What two lists drop is nothing if nothing is dropped from both together. -/
theorem append_eq_append_of_sublist (hx : xs.Sublist xs') (hy : ys.Sublist ys') :
    xs ++ ys = xs' ++ ys' ↔ xs = xs' ∧ ys = ys' := by
  constructor
  · intro h
    have hlen := congrArg List.length h
    rw [List.length_append, List.length_append] at hlen
    have hxl := hx.length_le
    have hyl := hy.length_le
    exact ⟨hx.eq_of_length (by omega), hy.eq_of_length (by omega)⟩
  · rintro ⟨rfl, rfl⟩
    rfl

theorem map_eq_map_of_sublist (h : xs.Sublist xs') (f : α → β) : xs.map f = xs'.map f ↔ xs = xs' := by
  constructor
  · intro he
    have hlen := congrArg List.length he
    rw [List.length_map, List.length_map] at hlen
    exact h.eq_of_length hlen
  · rintro rfl
    rfl

end

namespace LineReading

/-- An assignment with operands that lacks its `=` and stops behind an operator. -/
def endsOpen (l : LineReading σ) : Bool :=
  match l.tokens with
  | [] => false
  | t :: ts =>
    t.isVariable && !startsWithAssign ts && (RightSide.after {} (rightTokens ts)).expecting &&
      !(assignWords ts).isEmpty

/-- The problem at the end of such a line, as a log has it. -/
def endReport (script : String) (l : LineReading σ) : Diagnostic :=
  (Diagnostic.noOperandAtEnd.inLine l.number).inScript script

variable {l : LineReading σ} {x : Reading σ} {xs : List (Reading σ)}

theorem endsOpen_of_cons (h : l.readings = x :: xs) :
    l.endsOpen = (x.token.isVariable && !startsWithAssign (xs.map Reading.token) &&
      (RightSide.after {} (rightTokens (xs.map Reading.token))).expecting &&
      !(assignWords (xs.map Reading.token)).isEmpty) := by
  rw [endsOpen, tokens, h, List.map_cons]

theorem endsOpen_of_not_var (h : l.readings = x :: xs) (hv : x.token.kind ≠ some .var) :
    l.endsOpen = false := by
  have hvar : x.token.isVariable = false := decide_eq_false hv
  rw [endsOpen_of_cons h, hvar]
  rfl

/-- The end of a line is looked at once more if it is open and an operand has
found room. -/
theorem endIssues_room (ts : List Token) (room : Nat) :
    endIssues ts (min (assignWords ts).length (room - 2)) =
      endIssues ts 0 ++ if (!startsWithAssign ts && (RightSide.after {} (rightTokens ts)).expecting &&
        !(assignWords ts).isEmpty) && decide (2 < room) then [.noOperandAtEnd] else [] := by
  have hstored : 0 < min (assignWords ts).length (room - 2) ↔
      (assignWords ts).isEmpty = false ∧ 2 < room := by
    rw [← List.length_pos_iff_ne_nil.trans List.isEmpty_eq_false_iff.symm]
    omega
  unfold endIssues
  cases (RightSide.after {} (rightTokens ts)).expecting with
  | false => simp
  | true =>
    cases startsWithAssign ts with
    | true => simp
    | false => simp [hstored]

theorem statementIssues_room (l : LineReading σ) (room : Nat) :
    l.statementIssues room = l.statementIssues 0 ++
      if l.endsOpen && decide (2 < room) then [.noOperandAtEnd] else [] := by
  cases hr : l.readings with
  | nil =>
    have hopen : l.endsOpen = false := by rw [endsOpen, tokens, hr]; rfl
    simp [statementIssues_of_nil hr, hopen]
  | cons x xs =>
    by_cases hf : x.token.kind = some .function
    · have hopen := endsOpen_of_not_var hr (by rw [hf]; decide)
      simp [statementIssues_of_function hr hf, hopen]
    · by_cases hv : x.token.kind = some .var
      · have hvar : x.token.isVariable = true := decide_eq_true hv
        rw [statementIssues_of_var hr hv, statementIssues_of_var hr hv, endIssues_room,
          endsOpen_of_cons hr, hvar, Bool.true_and, Nat.zero_sub, Nat.min_zero]
        simp only [List.append_assoc]
      · have hopen := endsOpen_of_not_var hr hv
        simp [statementIssues_of_other hr hf hv, hopen]

/-- What the room does to the problems of a line. -/
theorem Genuine.issues_room (h : l.Genuine) (maxLine room : Nat) :
    l.issues maxLine room = l.issues maxLine 0 ++
      if l.endsOpen && decide (2 < room) then [.noOperandAtEnd] else [] := by
  unfold issues
  cases he : l.line.isEmpty with
  | true =>
    have hopen : l.endsOpen = false := by rw [endsOpen, tokens, h.readings_eq_nil he]; rfl
    simp [hopen]
  | false =>
    rw [statementIssues_room l room]
    simp only [Bool.false_eq_true, if_false, List.append_assoc]

theorem Genuine.issues_sublist (h : l.Genuine) (maxLine : Nat) {room room' : Nat} (hle : room ≤ room') :
    (l.issues maxLine room).Sublist (l.issues maxLine room') := by
  rw [h.issues_room maxLine room, h.issues_room maxLine room']
  refine List.Sublist.append_left ?_ _
  by_cases hr : 2 < room
  · have hr' : 2 < room' := by omega
    simp [hr, hr']
  · simp [hr]

theorem Genuine.issues_eq_iff (h : l.Genuine) (maxLine : Nat) {room room' : Nat} (hle : room ≤ room') :
    l.issues maxLine room = l.issues maxLine room' ↔ (l.endsOpen = true → 2 < room' → 2 < room) := by
  rw [h.issues_room maxLine room, h.issues_room maxLine room', List.append_cancel_left_eq]
  cases l.endsOpen with
  | false => simp
  | true =>
    by_cases hr : 2 < room
    · have hr' : 2 < room' := by omega
      simp [hr, hr']
    · by_cases hr' : 2 < room' <;> simp [hr, hr']

/-! ## Lines one after the other -/

variable {ls : List (LineReading σ)} (hls : ∀ l ∈ ls, l.Genuine) (script : String) (maxLine : Nat)
  {room room' : Nat}
include hls

/-- Less room, no more problems. -/
theorem reports_sublist (hle : room ≤ room') :
    (reports script maxLine room ls).Sublist (reports script maxLine room' ls) := by
  induction ls generalizing room room' with
  | nil => exact List.Sublist.refl _
  | cons l ls ih =>
    obtain ⟨hl, hls⟩ := List.forall_mem_cons.1 hls
    exact ((hl.issues_sublist maxLine hle).map _).append (ih hls (Nat.sub_le_sub_right hle _))

/-- The room shows at the lines that end open: some operand of theirs is stored
in one room and none in the other. -/
theorem reports_eq_iff (hle : room ≤ room') :
    reports script maxLine room ls = reports script maxLine room' ls ↔
      ∀ pre l post, ls = pre ++ l :: post → l.endsOpen = true →
        totalSize (pre.flatMap blocks) + 2 < room' → totalSize (pre.flatMap blocks) + 2 < room := by
  induction ls generalizing room room' with
  | nil => simp [reports]
  | cons l ls ih =>
    obtain ⟨hl, hls⟩ := List.forall_mem_cons.1 hls
    have hrest : room - totalSize l.blocks ≤ room' - totalSize l.blocks := Nat.sub_le_sub_right hle _
    have hhead := hl.issues_sublist maxLine hle
    rw [reports, reports, append_eq_append_of_sublist (hhead.map _)
      (reports_sublist hls script maxLine hrest), map_eq_map_of_sublist hhead,
      hl.issues_eq_iff maxLine hle, ih hls hrest]
    constructor
    · rintro ⟨hfirst, hlater⟩ pre m post he hopen hm
      cases pre with
      | nil =>
        obtain ⟨rfl, rfl⟩ := List.cons.inj he
        rw [List.flatMap_nil, totalSize_nil] at hm ⊢
        have := hfirst hopen (by omega)
        omega
      | cons k pre =>
        obtain ⟨rfl, hpost⟩ := List.cons.inj he
        rw [List.flatMap_cons, totalSize_append] at hm ⊢
        have := hlater pre m post hpost hopen (by omega)
        omega
    · intro h
      refine ⟨fun hopen hm => ?_, fun pre m post he hopen hm => ?_⟩
      · have := h [] l ls rfl hopen (by rw [List.flatMap_nil, totalSize_nil]; omega)
        rw [List.flatMap_nil, totalSize_nil] at this
        omega
      · have := h (l :: pre) m post (by rw [he]; rfl) hopen (by
          rw [List.flatMap_cons, totalSize_append]
          omega)
        rw [List.flatMap_cons, totalSize_append] at this
        omega

/-- With the ends of open lines left out, the room does not matter. -/
theorem filter_reports {p : Diagnostic → Bool}
    (hp : ∀ l ∈ ls, l.endsOpen = true → p (l.endReport script) = false) (room room' : Nat) :
    (reports script maxLine room ls).filter p = (reports script maxLine room' ls).filter p := by
  induction ls generalizing room room' with
  | nil => rfl
  | cons l ls ih =>
    obtain ⟨hl, hls⟩ := List.forall_mem_cons.1 hls
    obtain ⟨hpl, hpls⟩ := List.forall_mem_cons.1 hp
    -- both rooms are compared with none at all
    have hline (room : Nat) :
        ((l.issues maxLine room).map fun i => (i.inLine l.number).inScript script).filter p =
          ((l.issues maxLine 0).map fun i => (i.inLine l.number).inScript script).filter p := by
      rw [hl.issues_room maxLine room, List.map_append, List.filter_append]
      split
      · rename_i hopen
        have hout := hpl (Bool.and_eq_true_iff.1 hopen).1
        rw [endReport] at hout
        simp [hout]
      · simp
    rw [reports, reports, List.filter_append, List.filter_append, hline room, hline room',
      ih hls hpls]

end LineReading

namespace Compiler

variable (c : Compiler σ) (state : σ) (name : String) (source : List Char)

theorem genuine_of_mem_lineReadings : ∀ l ∈ c.lineReadings state source, l.Genuine :=
  fun _ hl => c.genuine_of_mem hl

/-- The log of a script without refusals: only the lines see the room. -/
theorem notes_withRoom (room : Nat) :
    ((c.withRoom room).compile state name source).log.notes =
      (c.sourceIssues source).map (fun i => (i.inLine 0).inScript name) ++
        (LineReading.reports name c.limits.maxLine room (c.lineReadings state source) ++
          (c.endingIssues (c.lineReadings state source)).map fun i =>
            (i.inLine (LineReading.lastNumber 0 (c.lineReadings state source))).inScript name) := by
  have hnotes := ((c.withRoom room).draft_spec state name source).2.2.1
  rw [notes, lineReadings_withRoom] at hnotes
  exact hnotes

theorem notes_eq_iff_of_le {m n : Nat} (hle : m ≤ n) :
    ((c.withRoom m).compile state name source).log.notes =
        ((c.withRoom n).compile state name source).log.notes ↔
      ∀ pre l post, c.lineReadings state source = pre ++ l :: post → l.endsOpen = true →
        (totalSize (pre.flatMap LineReading.blocks) + 2 < m ↔
          totalSize (pre.flatMap LineReading.blocks) + 2 < n) := by
  have hls := c.genuine_of_mem_lineReadings state source
  rw [notes_withRoom, notes_withRoom, List.append_cancel_left_eq, List.append_cancel_right_eq,
    LineReading.reports_eq_iff hls name c.limits.maxLine hle]
  refine forall_congr' fun pre => forall_congr' fun l => forall_congr' fun post =>
    forall_congr' fun _ => forall_congr' fun _ => ?_
  constructor
  · intro h
    exact ⟨fun hm => by omega, h⟩
  · exact fun h => h.2

/-- **What the room changes in a log.** Refusals apart, two limits on words give
the same log exactly if every line that ends open has its first operand stored
under both of them or under neither. Without the reports at the ends of such
lines the logs are always the same, and the tighter limit never has a report
that the wider one lacks. -/
theorem compile_notes_withRoom (m n : Nat) :
    let reports room := ((c.withRoom room).compile state name source).log.notes
    let lines := c.lineReadings state source
    let others d := !lines.any fun l => l.endsOpen && d == l.endReport name
    (reports m = reports n ↔
      ∀ pre l post, lines = pre ++ l :: post → l.endsOpen = true →
        (totalSize (pre.flatMap LineReading.blocks) + 2 < m ↔
          totalSize (pre.flatMap LineReading.blocks) + 2 < n)) ∧
      (reports m).filter others = (reports n).filter others ∧
      (m ≤ n → (reports m).Sublist (reports n)) := by
  intro reports lines others
  have hls := c.genuine_of_mem_lineReadings state source
  refine ⟨?_, ?_, fun hle => ?_⟩
  · rcases Nat.le_total m n with hle | hle
    · exact c.notes_eq_iff_of_le state name source hle
    · have hsymm := c.notes_eq_iff_of_le state name source hle
      exact ⟨fun h pre l post he hopen => (hsymm.1 h.symm pre l post he hopen).symm,
        fun h => (hsymm.2 fun pre l post he hopen => (h pre l post he hopen).symm).symm⟩
  · have hout : ∀ l ∈ lines, l.endsOpen = true → others (l.endReport name) = false := by
      intro l hl hopen
      have hany : lines.any (fun k => k.endsOpen && l.endReport name == k.endReport name) = true :=
        List.any_eq_true.2 ⟨l, hl, by simp [hopen]⟩
      simp only [others, hany, Bool.not_true]
    show (Log.notes _).filter others = (Log.notes _).filter others
    rw [notes_withRoom, notes_withRoom]
    simp only [List.filter_append, LineReading.filter_reports hls name c.limits.maxLine hout m n]
  · show (Log.notes _).Sublist (Log.notes _)
    rw [notes_withRoom, notes_withRoom]
    exact ((LineReading.reports_sublist hls name c.limits.maxLine hle).append_right _).append_left _

/-- An operand, an operator and no `=`: with room for the operand the line lacks
its last operand, and with room for head and slot only it does not. -/
theorem notes_of_open_end :
    let source := "x 1 +\nEnd".toList
    let reports room := ((tiny room).compile () "tiny" source).log.notes.map fun d => (d.line, d.code, d.detail)
    reports 3 = [(1, .expectedAssign, "FOUND 1 AFTER x"), (1, .missingOperand, "AT END OF LINE")] ∧
      reports 2 = [(1, .expectedAssign, "FOUND 1 AFTER x")] := by
  decide +kernel

end Compiler

end NpcScript
