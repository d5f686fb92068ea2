import Mathlib.Data.List.Forall2
import NpcScript.Line.Source
import NpcScript.Proofs.PhysicalLines

/-! # Lines tile the source

Loading line after line goes through a source once, without a gap and without an
overlap: every character belongs to one physical line, as part of its body or of
its ending. What a line is loaded as is decided by its body alone. -/
namespace NpcScript
open NpcScript.Text

namespace Text

/-- The position lies between two characters of a text or at one of its ends. -/
def IsBoundary (cs : List Char) (n : Nat) : Prop := ∃ pre post, cs = pre ++ post ∧ byteLength pre = n

end Text

/-! ## One line -/

/-- The break that makes an ending longer if it follows. -/
def Ending.partner : Ending → Option Char
  | lf => some '\r'
  | cr => some '\n'
  | _ => none

/-- A text at a break starts with an ending that the rest does not make longer. -/
theorem Ending.split_spec {cs : List Char} (h : AtBreak cs) :
    ((split cs).1 = .absent → cs = []) ∧ ∀ x ∈ (split cs).1.partner, (split cs).2.head? ≠ some x := by
  cases cs with
  | nil => exact ⟨fun _ => rfl, fun x hx => absurd hx (by simp [split, partner])⟩
  | cons c cs =>
    have hc : c = '\n' ∨ c = '\r' := by simpa [isBreak] using h c rfl
    rcases hc with rfl | rfl
    · by_cases hpair : cs.head? = some '\r'
      · obtain ⟨rest, rfl⟩ := List.head?_eq_some_iff.1 hpair
        simp [split, partner]
      · rw [split_lf hpair]
        simpa [partner] using hpair
    · by_cases hpair : cs.head? = some '\n'
      · obtain ⟨rest, rfl⟩ := List.head?_eq_some_iff.1 hpair
        simp [split, partner]
      · rw [split_cr hpair]
        simpa [partner] using hpair

namespace Segment

/-- A physical line with the rest of the text behind it. Its body has no break,
only the end of the text can take the place of an ending, and the ending is as
long as it can be. -/
structure Leads (s : Segment) (rest : List Char) : Prop where
  unbroken : ∀ x ∈ s.body, isBreak x = false
  ended : s.ending = .absent → rest = [] ∧ s.body ≠ []
  whole : ∀ x ∈ s.ending.partner, rest.head? ≠ some x

theorem leads_of_first {cs rest : List Char} {s : Segment} (h : first? cs = some (s, rest)) :
    s.Leads rest := by
  obtain ⟨body, tail, rfl, hbody, htail⟩ := exists_body cs
  have hne : body ++ tail ≠ [] := by
    intro hnil
    rw [hnil] at h
    cases h
  rw [first?_body_append hbody htail hne, Option.some.injEq, Prod.mk.injEq] at h
  obtain ⟨rfl, rfl⟩ := h
  obtain ⟨habsent, hwhole⟩ := Ending.split_spec htail
  refine ⟨hbody, ?_, hwhole⟩
  intro he
  obtain rfl := habsent he
  rw [List.append_nil] at hne
  exact ⟨rfl, hne⟩

/-- The physical line at a byte position of a source. -/
def IsAt (s : Segment) (source : List Char) (cursor : Nat) : Prop :=
  ∃ pre rest, source = pre ++ (s.text ++ rest) ∧ byteLength pre = cursor ∧ s.Leads rest

theorem Leads.text_ne_nil {s : Segment} {rest : List Char} (h : s.Leads rest) : s.text ≠ [] := by
  intro hnil
  obtain ⟨hbody, hending⟩ := List.append_eq_nil_iff.1 hnil
  refine (h.ended ?_).2 hbody
  cases he : s.ending with
  | absent => rfl
  | lf | cr | crlf | lfcr =>
    rw [he] at hending
    cases hending

end Segment

/-- Physical lines that make up a text, each leading to the ones after it. -/
inductive Segment.Tiles : List Segment → List Char → Prop
  | nil : Tiles [] []
  | cons {s : Segment} {ss : List Segment} {rest : List Char} (first : s.Leads rest)
    (others : Tiles ss rest) : Tiles (s :: ss) (s.text ++ rest)

theorem tiles_segments (cs : List Char) : Segment.Tiles (segments cs) cs := by
  induction cs using segments_induction with
  | nil =>
    rw [segments_nil]
    exact .nil
  | cons s rest hf ih =>
    rw [segments_cons hf]
    exact .cons (Segment.leads_of_first hf) ih

/-! ## The positions of lines -/

/-- The positions where lines start, and the one behind the last line. -/
def cursors (cursor : Nat) (ss : List Segment) : List Nat :=
  ss.scanl (fun n s => n + byteLength s.text) cursor

theorem cursors_cons (cursor : Nat) (s : Segment) (ss : List Segment) :
    cursors cursor (s :: ss) = cursor :: cursors (cursor + byteLength s.text) ss := List.scanl_cons

theorem le_of_mem_cursors {ss : List Segment} {cursor n : Nat} (h : n ∈ cursors cursor ss) : cursor ≤ n := by
  induction ss generalizing cursor with
  | nil => exact Nat.le_of_eq (List.mem_singleton.1 h).symm
  | cons s ss ih =>
    rw [cursors_cons] at h
    rcases List.mem_cons.1 h with rfl | h
    · exact Nat.le_refl n
    · exact Nat.le_of_add_right_le (ih h)

namespace Segment.Tiles

variable {ss : List Segment} {cs : List Char}

theorem pairwise_cursors (h : Tiles ss cs) (cursor : Nat) : (cursors cursor ss).Pairwise (· < ·) := by
  induction h generalizing cursor with
  | nil => exact List.pairwise_singleton _ _
  | @cons s ss rest first _ ih =>
    rw [cursors_cons, List.pairwise_cons]
    refine ⟨fun n hn => ?_, ih _⟩
    have hle := le_of_mem_cursors hn
    have hpos := byteLength_pos first.text_ne_nil
    omega

theorem isBoundary_of_mem_cursors (h : Tiles ss cs) (pre : List Char) {n : Nat}
    (hn : n ∈ cursors (byteLength pre) ss) : IsBoundary (pre ++ cs) n := by
  induction h generalizing pre with
  | nil =>
    rw [List.mem_singleton.1 hn]
    exact ⟨pre, [], rfl, rfl⟩
  | @cons s ss rest _ _ ih =>
    rw [cursors_cons] at hn
    rcases List.mem_cons.1 hn with rfl | hn
    · exact ⟨pre, s.text ++ rest, rfl, rfl⟩
    · rw [← List.append_assoc]
      exact ih (pre ++ s.text) (by rwa [byteLength_append])

theorem getLast?_cursors (h : Tiles ss cs) (cursor : Nat) :
    (cursors cursor ss).getLast? = some (cursor + byteLength cs) := by
  rw [cursors, List.getLast?_scanl]
  induction h generalizing cursor with
  | nil => rfl
  | cons _ _ ih => rw [List.foldl_cons, ih, byteLength_append, Nat.add_assoc]

end Segment.Tiles

/-! ## Loading line after line -/

namespace SourceLine

variable (maxLen : Nat)

/-- Loading line after line from a position on, until there is none. -/
inductive Loads (source : List Char) : Nat → List (SourceLine × Nat) → Prop
  | done {cursor : Nat} (stop : load? source cursor maxLen = none) : Loads source cursor []
  | step {cursor next : Nat} {line : SourceLine} {rest : List (SourceLine × Nat)}
    (loaded : load? source cursor maxLen = some (line, next)) (others : Loads source next rest) :
    Loads source cursor ((line, next) :: rest)

/-- Loading is a function, and so is repeating it. -/
theorem Loads.unique {source : List Char} {cursor : Nat} {xs ys : List (SourceLine × Nat)}
    (h : Loads maxLen source cursor xs) (h' : Loads maxLen source cursor ys) : xs = ys := by
  induction h generalizing ys with
  | done stop =>
    cases h' with
    | done _ => rfl
    | step loaded _ => rw [stop] at loaded; cases loaded
  | step loaded _ ih =>
    cases h' with
    | done stop => rw [stop] at loaded; cases loaded
    | step loaded' others =>
      rw [loaded] at loaded'
      cases loaded'
      rw [ih others]

/-- The lines of a source and the positions behind them, from its physical lines. -/
def loadFrom (cursor : Nat) : List Segment → List (SourceLine × Nat)
  | [] => []
  | s :: ss =>
    (ofBody maxLen s.body, cursor + byteLength s.text) :: loadFrom (cursor + byteLength s.text) ss

/-- One physical line more, for the loop over all of them. -/
def loadStep (acc : List (SourceLine × Nat) × Nat) (s : Segment) : List (SourceLine × Nat) × Nat :=
  ((ofBody maxLen s.body, acc.2 + byteLength s.text) :: acc.1, acc.2 + byteLength s.text)

theorem foldl_loadStep (acc : List (SourceLine × Nat) × Nat) (ss : List Segment) :
    (ss.foldl (loadStep maxLen) acc).1.reverse = acc.1.reverse ++ loadFrom maxLen acc.2 ss := by
  induction ss generalizing acc with
  | nil => simp [loadFrom]
  | cons s ss ih =>
    rw [List.foldl_cons, ih]
    simp [loadStep, loadFrom]

theorem loadAll_eq (source : List Char) : loadAll source maxLen = loadFrom maxLen 0 (segments source) := by
  have hfold : loadAll source maxLen = ((segments source).foldl (loadStep maxLen) ([], 0)).1.reverse := rfl
  rw [hfold, foldl_loadStep]
  rfl

theorem load_append (pre cs : List Char) :
    load? (pre ++ cs) (byteLength pre) maxLen =
      (Segment.first? cs).map fun p => (ofBody maxLen p.1.body, byteLength pre + byteLength p.1.text) := by
  rw [load?, dropBytes?_append, Option.bind_eq_bind, Option.bind_some]
  cases Segment.first? cs <;> rfl

/-- A line is loaded from the physical line at the position. -/
theorem exists_segment_of_load {source : List Char} {cursor next : Nat} {line : SourceLine}
    (h : load? source cursor maxLen = some (line, next)) :
    ∃ s : Segment, s.IsAt source cursor ∧ line = ofBody maxLen s.body := by
  cases hdrop : dropBytes? cursor source with
  | none =>
    rw [load?, hdrop] at h
    cases h
  | some cs =>
    obtain ⟨pre, rfl, rfl⟩ := dropBytes?_eq_some_iff.1 hdrop
    rw [load_append, Option.map_eq_some_iff] at h
    obtain ⟨⟨s, rest⟩, hf, hline⟩ := h
    cases hline
    exact ⟨s, ⟨pre, rest, by rw [Segment.first?_text hf], rfl, Segment.leads_of_first hf⟩, rfl⟩

/-- Behind any text, the lines of the rest are loaded one after the other. -/
theorem loads_loadFrom (pre cs : List Char) :
    Loads maxLen (pre ++ cs) (byteLength pre) (loadFrom maxLen (byteLength pre) (segments cs)) := by
  induction cs using segments_induction generalizing pre with
  | nil =>
    rw [segments_nil]
    exact .done (load_append maxLen pre [])
  | cons s rest hf ih =>
    have hloaded := load_append maxLen pre (s.text ++ rest)
    rw [hf] at hloaded
    have hrest := ih (pre ++ s.text)
    rw [List.append_assoc, byteLength_append] at hrest
    rw [segments_cons hf]
    exact .step hloaded hrest

/-- A text without a break is loaded whole. -/
theorem load_of_unbroken {body : List Char} (hne : body ≠ []) (hb : ∀ x ∈ body, isBreak x = false) :
    load? body 0 maxLen = some (ofBody maxLen body, byteLength body) := by
  have hend : AtBreak [] := by
    intro x hx
    cases hx
  have hf : Segment.first? (body ++ []) = some (⟨body, .absent⟩, []) :=
    Segment.first?_body_append hb hend (by simpa using hne)
  rw [List.append_nil] at hf
  simp [load?, dropBytes?, hf, Segment.text, Ending.text]

/-- What a physical line is loaded as: what its body alone is loaded as, or
nothing if it has none. -/
def IsLineOf (s : Segment) (line : SourceLine) : Prop :=
  (s.body ≠ [] → load? s.body 0 maxLen = some (line, byteLength s.body)) ∧ (s.body = [] → line = {})

theorem isLineOf_ofBody {s : Segment} (hb : ∀ x ∈ s.body, isBreak x = false) :
    IsLineOf maxLen s (ofBody maxLen s.body) := by
  refine ⟨fun hne => load_of_unbroken maxLen hne hb, fun hnil => ?_⟩
  rw [hnil]
  simp [ofBody, codeCells, cells, cellsFrom, trimEnd]

theorem cursors_eq (cursor : Nat) (ss : List Segment) :
    cursor :: (loadFrom maxLen cursor ss).map Prod.snd = cursors cursor ss := by
  induction ss generalizing cursor with
  | nil => rfl
  | cons s ss ih => rw [loadFrom, List.map_cons, ih, cursors_cons]

theorem forall₂_isLineOf {ss : List Segment} {cs : List Char} (h : Segment.Tiles ss cs) (cursor : Nat) :
    List.Forall₂ (IsLineOf maxLen) ss ((loadFrom maxLen cursor ss).map Prod.fst) := by
  induction h generalizing cursor with
  | nil => exact .nil
  | cons first _ ih => exact .cons (isLineOf_ofBody maxLen first.unbroken) (ih _)

/-- The positions that loading a whole source comes to. -/
def visited (source : List Char) : List Nat := 0 :: (loadAll source maxLen).map Prod.snd

/-- **Lines tile the source.** Loading line after line from the start stops, and
gives the lines of `loadAll`. It goes from position 0 to the end of the source, each
time to a later position and always between two characters. What it goes through
at a time are physical lines that together are the source; each has an ending that
is as long as it can be, or is the last and has only a body. Every line is what
its body alone is loaded as. -/
theorem loadAll_tiles (source : List Char) :
    (∀ loaded, Loads maxLen source 0 loaded ↔ loaded = loadAll source maxLen) ∧
    (visited maxLen source).Pairwise (· < ·) ∧
    (∀ n ∈ visited maxLen source, IsBoundary source n) ∧
    (visited maxLen source).getLast? = some (byteLength source) ∧
    ∃ ss, Segment.Tiles ss source ∧ visited maxLen source = cursors 0 ss ∧
      List.Forall₂ (IsLineOf maxLen) ss ((loadAll source maxLen).map Prod.fst) := by
  have htiles := tiles_segments source
  have hloads : Loads maxLen source 0 (loadAll source maxLen) := by
    rw [loadAll_eq]
    exact loads_loadFrom maxLen [] source
  have hvisited : visited maxLen source = cursors 0 (segments source) := by
    rw [visited, loadAll_eq, cursors_eq]
  refine ⟨?_, ?_, ?_, ?_, segments source, htiles, hvisited, ?_⟩
  · intro loaded
    refine ⟨fun h => h.unique maxLen hloads, ?_⟩
    rintro rfl
    exact hloads
  · rw [hvisited]
    exact htiles.pairwise_cursors 0
  · intro n hn
    rw [hvisited] at hn
    exact htiles.isBoundary_of_mem_cursors [] hn
  · rw [hvisited, htiles.getLast?_cursors, Nat.zero_add]
  · rw [loadAll_eq]
    exact forall₂_isLineOf maxLen htiles 0

end SourceLine

end NpcScript
