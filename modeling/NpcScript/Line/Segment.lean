/-! # Physical lines

A line of a source ends with a carriage return, a line feed, or one of each in
either order; the last line may have no ending. -/
namespace NpcScript

inductive Ending
  | absent
  | lf
  | cr
  | crlf
  | lfcr
  deriving DecidableEq, Repr

def Ending.text : Ending → List Char
  | absent => []
  | lf => ['\n']
  | cr => ['\r']
  | crlf => ['\r', '\n']
  | lfcr => ['\n', '\r']

def isBreak (c : Char) : Bool := c = '\n' || c = '\r'

/-- The longest ending at the start of a text, and what follows it. -/
def Ending.split : List Char → Ending × List Char
  | '\r' :: '\n' :: rest => (crlf, rest)
  | '\n' :: '\r' :: rest => (lfcr, rest)
  | '\r' :: rest => (cr, rest)
  | '\n' :: rest => (lf, rest)
  | rest => (absent, rest)

theorem Ending.split_text (cs : List Char) : (split cs).1.text ++ (split cs).2 = cs := by
  unfold split
  split <;> rfl

/-- A physical line: its characters and its ending. -/
structure Segment where
  body : List Char
  ending : Ending
  deriving DecidableEq, Repr

namespace Segment

def text (s : Segment) : List Char := s.body ++ s.ending.text

/-- The first physical line of a text and the text after it. -/
def first? (cs : List Char) : Option (Segment × List Char) :=
  match cs with
  | [] => none
  | _ :: _ =>
    let (ending, rest) := Ending.split (cs.dropWhile fun c => !isBreak c)
    some (⟨cs.takeWhile fun c => !isBreak c, ending⟩, rest)

theorem first?_text {cs rest : List Char} {s : Segment} (h : first? cs = some (s, rest)) :
    s.text ++ rest = cs := by
  unfold first? at h
  split at h
  · cases h
  · simp only [Option.some.injEq, Prod.mk.injEq] at h
    obtain ⟨rfl, rfl⟩ := h
    simp only [text, List.append_assoc, Ending.split_text, List.takeWhile_append_dropWhile]

theorem first?_length {cs rest : List Char} {s : Segment} (h : first? cs = some (s, rest)) :
    rest.length < cs.length := by
  have ht := first?_text h
  cases hs : s.text with
  | cons c cs' =>
    rw [← ht, hs, List.length_append, List.length_cons]
    omega
  | nil =>
    exfalso
    rw [hs, List.nil_append] at ht
    subst ht
    unfold first? at h
    split at h
    · cases h
    · rename_i c cs
      simp only [Option.some.injEq, Prod.mk.injEq] at h
      obtain ⟨rfl, hr⟩ := h
      simp only [text, List.append_eq_nil_iff] at hs
      obtain ⟨hb, he⟩ := hs
      by_cases hc : isBreak c = true
      · simp only [List.dropWhile_cons, hc, Bool.not_true, Bool.false_eq_true, if_false] at he
        have := Ending.split_text (c :: cs)
        simp only [isBreak, Bool.or_eq_true, decide_eq_true_eq] at hc
        unfold Ending.split at he
        split at he <;> simp_all [Ending.text]
      · simp [hc] at hb

end Segment

/-- The physical lines of a text, after those already found (last first). -/
def segmentsFrom (found : List Segment) (cs : List Char) : List Segment :=
  match h : Segment.first? cs with
  | none => found.reverse
  | some (s, rest) =>
    have := Segment.first?_length h
    segmentsFrom (s :: found) rest
termination_by cs.length

def segments (cs : List Char) : List Segment := segmentsFrom [] cs

theorem segmentsFrom_eq (found : List Segment) (cs : List Char) :
    segmentsFrom found cs = found.reverse ++ segments cs := by
  unfold segments
  induction h : cs.length using Nat.strongRecOn generalizing found cs with
  | ind n ih =>
    rw [segmentsFrom, segmentsFrom]
    split
    · simp
    · rename_i s rest hf
      have hl := Segment.first?_length hf
      rw [ih rest.length (by omega) (s :: found) rest rfl, ih rest.length (by omega) [s] rest rfl]
      simp

theorem segments_nil : segments [] = [] := by
  unfold segments segmentsFrom
  rfl

theorem segments_cons {cs rest : List Char} {s : Segment} (h : Segment.first? cs = some (s, rest)) :
    segments cs = s :: segments rest := by
  rw [segments, segmentsFrom]
  split
  · rename_i hn; rw [hn] at h; cases h
  · rename_i s' rest' hf
    rw [hf] at h
    cases h
    rw [segmentsFrom_eq]
    rfl

end NpcScript
