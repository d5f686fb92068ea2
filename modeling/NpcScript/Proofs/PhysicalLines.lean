import NpcScript.Line.Segment

/-! # Physical lines, taken apart and put together

A line break is as long as it can be, so two texts keep their lines side by side
only if no break lies across the seam. How breaks are paired decides nothing
else: it moves no character from one line to another, and only empty lines come
and go with it. -/
namespace NpcScript

namespace Ending

theorem split_lf {cs : List Char} (h : cs.head? ≠ some '\r') : split ('\n' :: cs) = (lf, cs) := by
  cases cs with
  | nil => rfl
  | cons y ys =>
    unfold split
    split <;> simp_all

theorem split_cr {cs : List Char} (h : cs.head? ≠ some '\n') : split ('\r' :: cs) = (cr, cs) := by
  cases cs with
  | nil => rfl
  | cons y ys =>
    unfold split
    split <;> simp_all

/-- An ending takes one break or two. -/
theorem split_cons_of_isBreak {x : Char} (hx : isBreak x = true) (cs : List Char) :
    (split (x :: cs)).2 = cs ∨ ∃ y, isBreak y = true ∧ cs = y :: (split (x :: cs)).2 := by
  have hx : x = '\n' ∨ x = '\r' := by simpa [isBreak] using hx
  rcases hx with rfl | rfl
  · by_cases hc : cs.head? = some '\r'
    · obtain ⟨rest, rfl⟩ := List.head?_eq_some_iff.1 hc
      exact .inr ⟨'\r', rfl, rfl⟩
    · rw [split_lf hc]
      exact .inl rfl
  · by_cases hc : cs.head? = some '\n'
    · obtain ⟨rest, rfl⟩ := List.head?_eq_some_iff.1 hc
      exact .inr ⟨'\n', rfl, rfl⟩
    · rw [split_cr hc]
      exact .inl rfl

end Ending

/-- The text starts with a line break, or is empty. -/
def AtBreak (cs : List Char) : Prop := ∀ x ∈ cs.head?, isBreak x = true

theorem atBreak_cons {x : Char} (hx : isBreak x = true) (cs : List Char) : AtBreak (x :: cs) := by
  intro y hy
  cases hy
  exact hx

theorem atBreak_dropWhile (cs : List Char) : AtBreak (cs.dropWhile fun c => !isBreak c) := by
  intro x hx
  have hnot := List.head?_dropWhile_not (fun c => !isBreak c) cs
  rw [Option.mem_def.1 hx] at hnot
  simpa using hnot

/-- A text is cut at its first break. -/
theorem Segment.exists_body (cs : List Char) :
    ∃ body tail, cs = body ++ tail ∧ (∀ x ∈ body, isBreak x = false) ∧ AtBreak tail := by
  refine ⟨_, _, List.takeWhile_append_dropWhile.symm, ?_, atBreak_dropWhile cs⟩
  intro x hx
  simpa using List.all_eq_true.1 List.all_takeWhile x hx

/-- A line is what stands before the first break. -/
theorem Segment.first?_body_append {body rest : List Char} (hb : ∀ x ∈ body, isBreak x = false)
    (hr : AtBreak rest) (hne : body ++ rest ≠ []) :
    first? (body ++ rest) = some (⟨body, (Ending.split rest).1⟩, (Ending.split rest).2) := by
  have hall : ∀ x ∈ body, (!isBreak x) = true := fun x hx => by rw [hb x hx]; rfl
  have hstop : rest.takeWhile (fun c => !isBreak c) = [] ∧ rest.dropWhile (fun c => !isBreak c) = rest := by
    cases rest with
    | nil => exact ⟨rfl, rfl⟩
    | cons x xs =>
      have hx : isBreak x = true := hr x rfl
      simp [hx]
  have htake : (body ++ rest).takeWhile (fun c => !isBreak c) = body := by
    rw [List.takeWhile_append_of_pos hall, hstop.1, List.append_nil]
  have hdrop : (body ++ rest).dropWhile (fun c => !isBreak c) = rest := by
    rw [List.dropWhile_append_of_pos hall, hstop.2]
  unfold first?
  split
  · rename_i hnil
    exact absurd hnil hne
  · rw [htake, hdrop]

/-- Induction over the lines of a text, first to last. -/
theorem segments_induction {motive : List Char → Prop} (nil : motive [])
    (cons : ∀ (s : Segment) (rest : List Char), Segment.first? (s.text ++ rest) = some (s, rest) →
      motive rest → motive (s.text ++ rest))
    (cs : List Char) : motive cs := by
  induction hn : cs.length using Nat.strongRecOn generalizing cs with
  | ind n ih =>
    cases hf : Segment.first? cs with
    | none =>
      cases cs with
      | nil => exact nil
      | cons c cs => cases hf
    | some p =>
      obtain ⟨s, rest⟩ := p
      have hlen := Segment.first?_length hf
      obtain rfl := Segment.first?_text hf
      exact cons s rest hf (ih rest.length (hn ▸ hlen) rest rfl)

/-! ## Seams -/

/-- A text can follow another one without a line or a line break across the
seam. -/
def Seam (a b : List Char) : Prop :=
  a = [] ∨ (a.getLast? = some '\n' ∧ b.head? ≠ some '\r') ∨ (a.getLast? = some '\r' ∧ b.head? ≠ some '\n')

namespace Seam

variable {a b : List Char}

theorem of_append {pre : List Char} (h : Seam (pre ++ a) b) : Seam a b := by
  cases ha : a with
  | nil => exact .inl rfl
  | cons x xs =>
    have hlast : (pre ++ a).getLast? = a.getLast? := by
      rw [ha, List.getLast?_append, List.getLast?_cons, Option.some_or]
    rw [Seam, hlast, ha] at h
    refine h.imp_left fun hnil => ?_
    cases (List.append_eq_nil_iff.1 hnil).2

theorem exists_break (h : Seam a b) (ha : a ≠ []) : ∃ x ∈ a, isBreak x = true := by
  rcases h with rfl | ⟨hl, _⟩ | ⟨hl, _⟩
  · exact absurd rfl ha
  · exact ⟨'\n', List.mem_of_getLast? hl, rfl⟩
  · exact ⟨'\r', List.mem_of_getLast? hl, rfl⟩

/-- An ending before a seam is one of the first text. -/
theorem split_append (h : Seam a b) (ha : a ≠ []) (hbreak : AtBreak a) :
    Ending.split (a ++ b) = ((Ending.split a).1, (Ending.split a).2 ++ b) := by
  cases a with
  | nil => exact absurd rfl ha
  | cons x xs =>
    have hx : x = '\n' ∨ x = '\r' := by simpa [isBreak] using hbreak x rfl
    rw [List.cons_append]
    rcases hx with rfl | rfl
    · by_cases hpair : xs.head? = some '\r'
      · obtain ⟨rest, rfl⟩ := List.head?_eq_some_iff.1 hpair
        rfl
      · have hb : (xs ++ b).head? ≠ some '\r' := by
          cases xs with
          | cons y ys => exact hpair
          | nil => simpa [Seam] using h
        rw [Ending.split_lf hpair, Ending.split_lf hb]
    · by_cases hpair : xs.head? = some '\n'
      · obtain ⟨rest, rfl⟩ := List.head?_eq_some_iff.1 hpair
        rfl
      · have hb : (xs ++ b).head? ≠ some '\n' := by
          cases xs with
          | cons y ys => exact hpair
          | nil => simpa [Seam] using h
        rw [Ending.split_cr hpair, Ending.split_cr hb]

theorem first?_append {rest : List Char} {s : Segment} (h : Seam a b)
    (hf : Segment.first? a = some (s, rest)) : Segment.first? (a ++ b) = some (s, rest ++ b) := by
  have hne : a ≠ [] := by
    rintro rfl
    cases hf
  obtain ⟨body, tail, rfl, hbody, hbreak⟩ := Segment.exists_body a
  have htail : tail ≠ [] := by
    rintro rfl
    obtain ⟨x, hx, hxb⟩ := h.exists_break hne
    rw [List.append_nil] at hx
    rw [hbody x hx] at hxb
    cases hxb
  have htailb : AtBreak (tail ++ b) := by
    cases tail with
    | nil => exact absurd rfl htail
    | cons x xs => exact hbreak
  rw [Segment.first?_body_append hbody hbreak hne] at hf
  rw [List.append_assoc, Segment.first?_body_append hbody htailb (by simp [htail]),
    h.of_append.split_append htail hbreak]
  cases hf
  rfl

end Seam

/-- Across a seam the lines of two texts stay apart. -/
theorem segments_append {a b : List Char} (h : Seam a b) :
    segments (a ++ b) = segments a ++ segments b := by
  induction a using segments_induction with
  | nil => rw [segments_nil, List.nil_append, List.nil_append]
  | cons s rest hf ih =>
    rw [segments_cons (h.first?_append hf), segments_cons hf, ih h.of_append, List.cons_append]

/-! ## Lines with characters -/

/-- The physical lines that hold any character, without their endings. -/
def bodies (cs : List Char) : List (List Char) :=
  ((segments cs).map Segment.body).filter fun body => !body.isEmpty

theorem bodies_nil : bodies [] = [] := by rw [bodies, segments_nil]; rfl

theorem bodies_cons {cs rest : List Char} {s : Segment} (h : Segment.first? cs = some (s, rest)) :
    bodies cs = if s.body.isEmpty then bodies rest else s.body :: bodies rest := by
  rw [bodies, segments_cons h, List.map_cons, List.filter_cons]
  cases s.body.isEmpty <;> rfl

/-- A break more makes no line with characters. -/
theorem bodies_cons_of_isBreak {x : Char} (hx : isBreak x = true) (cs : List Char) :
    bodies (x :: cs) = bodies cs := by
  have hfirst {x : Char} (hx : isBreak x = true) (cs : List Char) :
      bodies (x :: cs) = bodies (Ending.split (x :: cs)).2 := by
    have hf : Segment.first? ([] ++ x :: cs) = some (⟨[], _⟩, _) :=
      Segment.first?_body_append nofun (atBreak_cons hx cs) nofun
    exact bodies_cons hf
  -- a second break may be taken for the same ending, or make an empty line of its own
  induction cs generalizing x with
  | nil =>
    rw [hfirst hx]
    rcases Ending.split_cons_of_isBreak hx [] with he | ⟨y, _, he⟩
    · rw [he]
    · cases he
  | cons y ys ih =>
    rw [hfirst hx]
    rcases Ending.split_cons_of_isBreak hx (y :: ys) with he | ⟨z, hz, he⟩
    · rw [he]
    · obtain ⟨rfl, hys⟩ := List.cons.inj he
      rw [ih hz, ← hys]

theorem bodies_split {rest : List Char} (h : AtBreak rest) :
    bodies (Ending.split rest).2 = bodies rest := by
  cases rest with
  | nil => rfl
  | cons x cs =>
    have hx : isBreak x = true := h x rfl
    rw [bodies_cons_of_isBreak hx]
    rcases Ending.split_cons_of_isBreak hx cs with he | ⟨y, hy, he⟩
    · rw [he]
    · exact (he ▸ bodies_cons_of_isBreak hy _).symm

theorem bodies_body_append {body rest : List Char} (hb : ∀ x ∈ body, isBreak x = false)
    (hr : AtBreak rest) :
    bodies (body ++ rest) = if body.isEmpty then bodies rest else body :: bodies rest := by
  by_cases hne : body ++ rest = []
  · obtain ⟨rfl, rfl⟩ := List.append_eq_nil_iff.1 hne
    rfl
  · rw [bodies_cons (Segment.first?_body_append hb hr hne), bodies_split hr]

end NpcScript
