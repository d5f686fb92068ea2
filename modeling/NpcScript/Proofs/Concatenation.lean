import NpcScript.Proofs.Bytecode
import NpcScript.Proofs.Joining
import NpcScript.Proofs.LineNumbers
import NpcScript.Proofs.PhysicalLines

/-! # One source behind another

Lines are read one by one, so a source behind another one is read as it would be
alone, in the state that the first one left and under higher line numbers. The
blocks are those of the first source, without its end, and those of the second,
so the scripts are joined. -/
namespace NpcScript

variable {σ : Type}

namespace LineReading

theorem after_append (s : σ) (ls ms : List (LineReading σ)) :
    after s (ls ++ ms) = after (after s ls) ms := by
  induction ls generalizing s with
  | nil => rfl
  | cons l ls ih => exact ih (Reading.after s l.readings)

theorem lastNumber_append (n : LineNumber) (ls ms : List (LineReading σ)) :
    lastNumber n (ls ++ ms) = lastNumber (lastNumber n ls) ms := by
  induction ls generalizing n with
  | nil => rfl
  | cons l ls ih => exact ih l.number

theorem reports_append (script : String) (maxLine room : Nat) (ls ms : List (LineReading σ)) :
    reports script maxLine room (ls ++ ms) =
      reports script maxLine room ls ++
        reports script maxLine (room - totalSize (ls.flatMap blocks)) ms := by
  induction ls generalizing room with
  | nil => rfl
  | cons l ls ih =>
    rw [List.cons_append, reports, reports, ih, List.flatMap_cons, totalSize_append, Nat.sub_sub,
      List.append_assoc]

/-- The room matters only to a line that does not fit in it. -/
theorem issues_of_fits {l : LineReading σ} {room room' : Nat} (h : totalSize l.blocks ≤ room)
    (h' : totalSize l.blocks ≤ room') (maxLine : Nat) :
    l.issues maxLine room = l.issues maxLine room' := by
  have hstatement : l.statementIssues room = l.statementIssues room' := by
    cases hr : l.readings with
    | nil => rw [statementIssues_of_nil hr, statementIssues_of_nil hr]
    | cons x xs =>
      by_cases hf : x.token.kind = some .function
      · rw [statementIssues_of_function hr hf, statementIssues_of_function hr hf]
      · by_cases hv : x.token.kind = some .var
        · rw [blocks_of_var hr hv, totalSize_cons, totalSize_nil, Block.size, Block.assignment] at h h'
          dsimp only at h h'
          rw [statementIssues_of_var hr hv, statementIssues_of_var hr hv, Nat.min_eq_left (by omega),
            Nat.min_eq_left (by omega)]
        · rw [statementIssues_of_other hr hf hv, statementIssues_of_other hr hf hv]
  rw [issues, issues, hstatement]

theorem reports_of_fits (script : String) (maxLine : Nat) {room room' : Nat}
    {ls : List (LineReading σ)} (h : totalSize (ls.flatMap blocks) ≤ room)
    (h' : totalSize (ls.flatMap blocks) ≤ room') :
    reports script maxLine room ls = reports script maxLine room' ls := by
  induction ls generalizing room room' with
  | nil => rfl
  | cons l ls ih =>
    rw [List.flatMap_cons, totalSize_append] at h h'
    have hl := issues_of_fits (Nat.le_of_add_right_le h) (Nat.le_of_add_right_le h') maxLine
    rw [reports, reports, hl, ih (Nat.le_sub_of_add_le' h) (Nat.le_sub_of_add_le' h')]

end LineReading

/-! ## Reading across the seam -/

namespace Compiler

variable (c : Compiler σ)

theorem add_ofNat_succ (n : LineNumber) (k : Nat) : n + .ofNat (k + 1) = n + 1 + .ofNat k := by
  rw [UInt32.ofNat_add, UInt32.add_comm (.ofNat k), UInt32.add_assoc]
  rfl

section

variable {n : LineNumber} {s : σ} {segment : Segment} {ss : List Segment}

theorem readLines_cons (h : ∀ l ∈ c.readLines n s (segment :: ss), l.endsScript = false) :
    c.readLines n s (segment :: ss) = c.readBody (n + 1) s segment.body ::
      c.readLines (n + 1) (Reading.after s (c.readBody (n + 1) s segment.body).readings) ss := by
  have hl : (c.readBody (n + 1) s segment.body).endsScript = false := by
    apply h
    rw [readLines]
    split <;> exact List.mem_cons_self
  rw [readLines, hl, if_neg Bool.false_ne_true]

theorem lastNumber_readLines (h : ∀ l ∈ c.readLines n s ss, l.endsScript = false) :
    LineReading.lastNumber n (c.readLines n s ss) = n + .ofNat ss.length := by
  induction ss generalizing n s with
  | nil => exact (UInt32.add_zero n).symm
  | cons segment ss ih =>
    have hcons := c.readLines_cons h
    rw [hcons] at h ⊢
    rw [List.length_cons, add_ofNat_succ]
    exact ih (List.forall_mem_cons.1 h).2

/-- Lines behind others are read in the state and under the numbers that those
leave, unless they end the script. -/
theorem readLines_append (ts : List Segment) (h : ∀ l ∈ c.readLines n s ss, l.endsScript = false) :
    c.readLines n s (ss ++ ts) = c.readLines n s ss ++
      c.readLines (n + .ofNat ss.length) (LineReading.after s (c.readLines n s ss)) ts := by
  induction ss generalizing n s with
  | nil =>
    show c.readLines n s ts = c.readLines (n + 0) s ts
    rw [UInt32.add_zero]
  | cons segment ss ih =>
    have hcons := c.readLines_cons h
    rw [hcons] at h ⊢
    obtain ⟨hl, hls⟩ := List.forall_mem_cons.1 h
    rw [List.cons_append, readLines, hl, if_neg Bool.false_ne_true, ih hls, List.length_cons,
      add_ofNat_succ]
    rfl

end

section

variable {c} {state : σ} {a b : List Char} (hseam : Seam a b)
  (hends : ∀ l ∈ c.readSource state a, l.endsScript = false)
  (hlen : Text.byteLength (a ++ b) ≤ c.limits.maxSource)

include hlen in
theorem kept_of_append : c.kept (a ++ b) = a ++ b ∧ c.kept a = a ∧ c.kept b = b := by
  rw [Text.byteLength_append] at hlen
  exact ⟨if_pos (by rwa [Text.byteLength_append]), if_pos (by omega), if_pos (by omega)⟩

include hseam hends hlen

/-- The second source is read as it is alone, that many lines further on. -/
theorem lineReadings_append :
    c.lineReadings state (a ++ b) = c.lineReadings state a ++
      (c.lineReadings (LineReading.after state (c.lineReadings state a)) b).map
        (LineReading.shift (.ofNat (segments a).length)) := by
  obtain ⟨hab, ha, hb⟩ := kept_of_append hlen
  rw [lineReadings, lineReadings, lineReadings, hab, ha, hb, readSource, readSource, readSource,
    segments_append hseam, c.readLines_append _ hends, c.readLines_shift _ 0]

/-- The blocks of the first source, without its end, and those of the second. -/
theorem blocks_append :
    c.blocks state (a ++ b) = (c.lineReadings state a).flatMap LineReading.blocks ++
      c.blocks (LineReading.after state (c.lineReadings state a)) b := by
  rw [blocks, lineReadings_append hseam hends hlen, List.flatMap_append,
    LineReading.flatMap_blocks_shift, List.append_assoc]
  rfl

end

end Compiler

/-! ## Compiling both -/

/-- A log without refusals is all notes. -/
theorem Log.toList_eq_notes {l : Log} (h : l.refusals = 0) : l.toList = l.notes := by
  refine (List.filter_eq_self.2 fun d hd => ?_).symm
  simpa using List.countP_eq_zero.1 h d hd

namespace Compiler

variable {c : Compiler σ} {state : σ} {name : String} {source a b : List Char}

section

variable (hfit : totalSize (c.blocks state source) ≤ c.limits.maxWords)
include hfit

theorem isPlaced_compile (hsize : (c.compile state name source).script.size < 0x100000000) :
    (c.compile state name source).script.IsPlaced (c.blocks state source) := by
  have htotal := c.size_compile_eq state name source
  rw [Nat.min_eq_right hfit] at htotal
  constructor
  · rw [words_compile hsize, htotal, List.take_of_length_le (by rwa [length_spell_place])]
  · rw [← htotal]
    refine statements_compile_of_fits hfit (fun d hd => ?_) (by rw [addressSpace]; omega)
    have := length_operands_le_totalSize hd
    omega

theorem toList_log_compile (name : String) :
    (c.compile state name source).log.toList = c.notes state name source := by
  have hrefused := c.refusals_compile state name source
  rw [if_neg (Nat.not_lt.2 hfit)] at hrefused
  rw [Log.toList_eq_notes hrefused]
  exact (c.draft_spec state name source).2.2.1

end

theorem blocks_of_end {e : Symbol} (h : c.symbols.end? = some e) (state : σ) (source : List Char) :
    c.blocks state source =
      (c.lineReadings state source).flatMap LineReading.blocks ++ [{ head := .head true 0 e.value }] := by
  rw [blocks, h]
  rfl

theorem sourceIssues_of_le (h : Text.byteLength source ≤ c.limits.maxSource) :
    c.sourceIssues source = [] := if_pos h

section

variable (hseam : Seam a b) {e : Symbol} (hend : c.symbols.end? = some e)
  (hends : ∀ l ∈ c.readSource state a, l.endsScript = false)
  (hlen : Text.byteLength (a ++ b) ≤ c.limits.maxSource)
  (hfit : totalSize (c.blocks state (a ++ b)) ≤ c.limits.maxWords)

include hends hlen in
theorem any_endsScript_first : (c.lineReadings state a).any LineReading.endsScript = false := by
  rw [List.any_eq_false]
  intro l hl
  rw [lineReadings, (kept_of_append hlen).2.1] at hl
  rw [hends l hl]
  exact Bool.false_ne_true

include hend hends hlen in
/-- Alone, the first source lacks its end. -/
theorem notes_first (name : String) :
    c.notes state name a =
      LineReading.reports name c.limits.maxLine c.limits.maxWords (c.lineReadings state a) ++
        [(Diagnostic.missingEnd.inLine (.ofNat (segments a).length)).inScript name] := by
  have hlast : LineReading.lastNumber 0 (c.lineReadings state a) = .ofNat (segments a).length := by
    rw [lineReadings, (kept_of_append hlen).2.1, readSource, c.lastNumber_readLines hends]
    exact UInt32.zero_add _
  have ha : Text.byteLength a ≤ c.limits.maxSource := by
    rw [Text.byteLength_append] at hlen
    omega
  rw [notes, sourceIssues_of_le ha, endingIssues, any_endsScript_first hends hlen, hend, hlast]
  rfl

include hseam hends hlen hfit in
theorem notes_append (name : String) :
    c.notes state name (a ++ b) =
      LineReading.reports name c.limits.maxLine c.limits.maxWords (c.lineReadings state a) ++
        (c.notes (LineReading.after state (c.lineReadings state a)) name b).map fun d =>
          d.inLine (d.line + .ofNat (segments a).length) := by
  have hlast : LineReading.lastNumber 0 (c.lineReadings state a) = 0 + .ofNat (segments a).length := by
    rw [lineReadings, (kept_of_append hlen).2.1, readSource, c.lastNumber_readLines hends]
  have hb : Text.byteLength b ≤ c.limits.maxSource := by
    rw [Text.byteLength_append] at hlen
    omega
  rw [blocks_append hseam hends hlen, totalSize_append, blocks, totalSize_append] at hfit
  rw [notes, notes, sourceIssues_of_le hlen, sourceIssues_of_le hb, lineReadings_append hseam hends hlen]
  have hfirst := any_endsScript_first hends hlen
  generalize c.lineReadings state a = ls at hlast hfirst hfit ⊢
  generalize c.lineReadings (LineReading.after state ls) b = ms at hfit ⊢
  have hany (k : LineNumber) : (ls ++ ms.map (LineReading.shift k)).any LineReading.endsScript =
      ms.any LineReading.endsScript := by
    rw [List.any_append, hfirst, Bool.false_or, LineReading.any_endsScript_shift]
  have hending (k : LineNumber) : c.endingIssues (ls ++ ms.map (LineReading.shift k)) =
      c.endingIssues ms := by
    rw [endingIssues, hany]
    rfl
  have hroom : LineReading.reports name c.limits.maxLine
      (c.limits.maxWords - totalSize (ls.flatMap LineReading.blocks)) ms =
        LineReading.reports name c.limits.maxLine c.limits.maxWords ms :=
    LineReading.reports_of_fits _ _ (by omega) (by omega)
  rw [LineReading.reports_append, LineReading.reports_shift, hroom, hending,
    LineReading.lastNumber_append, hlast, LineReading.lastNumber_map_shift]
  simp only [List.map_nil, List.nil_append, List.map_append, List.map_map, List.append_assoc]
  rfl

end

/-- **Sources compile one behind the other.** Let a first source have no end and
the seam lie between two lines. Then compiling both at once reports what the
first one reports, but for its missing end, and what the second one does after
it, that many lines further on; leaves the host as the second one does; and
gives the two scripts joined. -/
theorem compile_append (c : Compiler σ) (state : σ) (name : String) {a b : List Char}
    (hseam : Seam a b) (hend : c.symbols.end?.isSome = true)
    (hends : ∀ l ∈ c.readSource state a, l.endsScript = false)
    (hlen : Text.byteLength (a ++ b) ≤ c.limits.maxSource)
    (hfit : (c.compile state name (a ++ b)).log.contains .programTooLarge = false)
    (hsize : (c.compile state name (a ++ b)).script.size < 0x100000000) :
    let first := c.compile state name a
    let second := c.compile first.state name b
    let both := c.compile state name (a ++ b)
    let lines := UInt32.ofNat (segments a).length
    (∃ reports, first.log.toList = reports ++ [(Diagnostic.missingEnd.inLine lines).inScript name] ∧
      both.log.toList = reports ++ second.log.toList.map fun d => d.inLine (d.line + lines)) ∧
      both.script.IsJoin first.script second.script ∧ both.state = second.state := by
  intro first second both lines
  obtain ⟨e, he⟩ := Option.isSome_iff_exists.1 hend
  rw [c.contains_programTooLarge_compile, decide_eq_false_iff_not, Nat.not_lt] at hfit
  have hstate : first.state = LineReading.after state (c.lineReadings state a) :=
    c.state_compile state name a
  have hblocks := blocks_append hseam hends hlen
  rw [← hstate] at hblocks
  have htotal := hsize
  rw [c.size_compile_eq, Nat.min_eq_right hfit] at htotal
  have hle1 : totalSize (c.blocks state a) ≤ totalSize (c.blocks state (a ++ b)) := by
    rw [hblocks, blocks_of_end he, blocks_of_end he]
    simp only [totalSize_append]
    omega
  have hle2 : totalSize (c.blocks first.state b) ≤ totalSize (c.blocks state (a ++ b)) := by
    rw [hblocks, totalSize_append]
    omega
  have hfit1 := Nat.le_trans hle1 hfit
  have hfit2 := Nat.le_trans hle2 hfit
  refine ⟨⟨LineReading.reports name c.limits.maxLine c.limits.maxWords (c.lineReadings state a), ?_, ?_⟩,
    ?_, ?_⟩
  · rw [toList_log_compile hfit1]
    exact notes_first he hends hlen name
  · rw [toList_log_compile hfit, notes_append hseam hends hlen hfit, toList_log_compile hfit2, hstate]
  · have hsize1 : first.script.size < 0x100000000 := by
      rw [c.size_compile_eq]
      omega
    have hsize2 : second.script.size < 0x100000000 := by
      rw [c.size_compile_eq]
      omega
    have h1 := isPlaced_compile hfit1 hsize1
    have h2 := isPlaced_compile hfit2 hsize2
    have h := isPlaced_compile hfit hsize
    rw [hblocks, blocks_of_end he] at h
    rw [blocks_of_end he] at h1 h2
    exact Script.isJoin_of_isPlaced (Word.indent_head ..) rfl h1 h2 h hsize
  · rw [c.state_compile, c.state_compile, lineReadings_append hseam hends hlen, LineReading.after_append,
      LineReading.after_map_shift, hstate]

/-- Two questions, one under the other, lead to the end of the first source. In
the second one the inner question stops at the assignment, and the outer one
goes past it. -/
theorem compile_append_tiny :
    let a := "IfIdle\n  IfIdle\n".toList
    let b := "  x = y\nIfIdle\nEnd".toList
    let first := (tiny 16).compile () "tiny" a
    let second := (tiny 16).compile first.state "tiny" b
    let both := (tiny 16).compile () "tiny" (a ++ b)
    (Seam a b ∧ (tiny 16).symbols.end?.isSome = true ∧
      (∀ l ∈ (tiny 16).readSource () a, l.endsScript = false) ∧
      Text.byteLength (a ++ b) ≤ (tiny 16).limits.maxSource ∧
      both.log.contains .programTooLarge = false ∧ both.script.size < 0x100000000) ∧
    first.script.words = #[.head true 0 1, .ofNat 4, .head true 1 1, .ofNat 4, .head true 0 9, .ofNat 6] ∧
    second.script.words = #[.head false 1 2, .ofNat 0, .head true 0 1, .ofNat 4, .head true 0 9, .ofNat 6] ∧
    both.script.words = #[.head true 0 1, .ofNat 6, .head true 1 1, .ofNat 4, .head false 1 2, .ofNat 0,
      .head true 0 1, .ofNat 8, .head true 0 9, .ofNat 10] ∧
    (∃ reports, first.log.toList =
        reports ++ [(Diagnostic.missingEnd.inLine 2).inScript "tiny"] ∧
      both.log.toList = reports ++ second.log.toList.map fun d => d.inLine (d.line + 2)) ∧
    both.script.IsJoin first.script second.script ∧ both.state = second.state := by
  intro a b first second both
  have hseam : Seam a b := .inr (.inl ⟨by decide, by decide⟩)
  have hend : (tiny 16).symbols.end?.isSome = true := by decide
  have hends : ∀ l ∈ (tiny 16).readSource () a, l.endsScript = false := by
    decide +kernel
  have hlen : Text.byteLength (a ++ b) ≤ (tiny 16).limits.maxSource := by decide +kernel
  have hfit : both.log.contains .programTooLarge = false := by decide +kernel
  have hsize : both.script.size < 0x100000000 := by decide +kernel
  have hlines : UInt32.ofNat (segments a).length = 2 := by decide +kernel
  obtain ⟨⟨reports, hfirst, hboth⟩, hjoin, hstate⟩ :=
    compile_append (tiny 16) () "tiny" hseam hend hends hlen hfit hsize
  rw [hlines] at hfirst hboth
  exact ⟨⟨hseam, hend, hends, hlen, hfit, hsize⟩, by decide +kernel, by decide +kernel,
    by decide +kernel, ⟨reports, hfirst, hboth⟩, hjoin, hstate⟩

end Compiler

end NpcScript
