import NpcScript.Proofs.Linking
import NpcScript.Proofs.SourceReading

/-! # The draft of a source

Compiling a line adds the blocks and the problems of that line to the draft,
and compiling a source does so for the lines that are read of it, and then ends
the script. `Draft.Passes` relates a draft to the one some lines later. -/
namespace NpcScript

variable {σ : Type}

namespace LineReading

/-- The problems of lines as a log has them. A block takes its size from the
room of the lines after it. -/
def reports (script : String) (maxLine : Nat) : Nat → List (LineReading σ) → List Diagnostic
  | _, [] => []
  | room, l :: ls =>
    (l.issues maxLine room).map (fun i => (i.inLine l.number).inScript script) ++
      reports script maxLine (room - totalSize l.blocks) ls

end LineReading

namespace Draft

/-- One draft, which holds some blocks, comes to another by compiling lines. -/
structure Passes (maxLine : Nat) (bs : List Block) (d : Draft σ) (ls : List (LineReading σ))
    (e : Draft σ) : Prop where
  holds : e.Holds (bs ++ ls.flatMap LineReading.blocks)
  limit : e.code.limit = d.code.limit
  script : e.log.script = d.log.script
  line : e.line = LineReading.lastNumber d.line ls
  notes : e.log.notes = d.log.notes ++
    LineReading.reports d.log.script maxLine (d.code.limit - totalSize bs) ls
  host : e.host = LineReading.after d.host ls

variable {maxLine : Nat} {bs : List Block} {d e f : Draft σ}

theorem Passes.refl (h : d.Holds bs) : Passes maxLine bs d [] d where
  holds := by simpa using h
  limit := rfl
  script := rfl
  line := rfl
  notes := by simp [LineReading.reports]
  host := rfl

/-- A line is passed by noting its problems under its number. -/
theorem Passes.single {l : LineReading σ} (hh : e.Holds (bs ++ l.blocks))
    (hn : Notes { d with line := l.number } e (l.issues maxLine (d.code.limit - totalSize bs)))
    (hs : e.host = Reading.after d.host l.readings) : Passes maxLine bs d [l] e where
  holds := by simpa using hh
  limit := hn.limit
  script := hn.script
  line := hn.line
  notes := by
    rw [hn.notes, LineReading.reports, LineReading.reports, List.append_nil]
    rfl
  host := hs

theorem Passes.cons {l : LineReading σ} {ls : List (LineReading σ)} (h : Passes maxLine bs d [l] e)
    (h' : Passes maxLine (bs ++ l.blocks) e ls f) : Passes maxLine bs d (l :: ls) f where
  holds := by simpa using h'.holds
  limit := h'.limit.trans h.limit
  script := h'.script.trans h.script
  line := by
    rw [h'.line, h.line]
    rfl
  notes := by
    rw [h'.notes, h.notes, h.script, h.limit, totalSize_append, ← Nat.sub_sub]
    simp [LineReading.reports]
  host := by
    rw [h'.host, h.host]
    rfl

theorem indentation_spec (d : Draft σ) (l : LineReading σ) :
    (d.indentation l.spaces).1 = l.indent ∧ Step d (d.indentation l.spaces).2 [] l.indentIssues ∧
      (d.indentation l.spaces).2.host = d.host := by
  have hodd : (Diagnostic.oddIndentation l.spaces).code ≠ .programTooLarge := nofun
  have hstep := Step.reportIf (d := d) hodd (l.spaces % 2 != 0)
  have hlevel : l.spaces / 2 = l.level := rfl
  unfold indentation LineReading.indentIssues LineReading.indent
  dsimp only
  rw [hlevel]
  by_cases hd : Word.maxIndent < l.level
  · rw [if_pos hd, if_pos hd, Nat.min_eq_right (Nat.le_of_lt hd)]
    have hdeep : (Diagnostic.tooDeep l.level Word.maxIndent).code ≠ .programTooLarge := nofun
    exact ⟨rfl, hstep.trans (Step.report hdeep), host_reportIf ..⟩
  · rw [if_neg hd, if_neg hd, Nat.min_eq_left (Nat.le_of_not_lt hd), List.append_nil]
    exact ⟨rfl, hstep, host_reportIf ..⟩

end Draft

namespace Compiler

open Draft (Step Notes Passes)

variable (c : Compiler σ) {d : Draft σ} {bs : List Block}

/-- A line without text is not read. -/
theorem readings_of_isEmpty (n : LineNumber) (s : σ) {body : List Char}
    (h : (c.readBody n s body).line.isEmpty = true) : (c.readBody n s body).readings = [] := by
  have ht : (SourceLine.ofBody c.limits.maxLine body).text = [] := List.isEmpty_iff.1 h
  have hf : Lexeme.first? (spaceOperators []) = none := rfl
  simp only [readBody, ht]
  exact Reader.readLine_of_none _ _ _ hf

theorem line_spec (h : d.Holds bs) (body : List Char) :
    (c.line d body).2 = (c.readBody (d.line + 1) d.host body).endsScript ∧
      Passes c.limits.maxLine bs d [c.readBody (d.line + 1) d.host body] (c.line d body).1 := by
  generalize hl : c.readBody (d.line + 1) d.host body = l
  have hline : l.line = SourceLine.ofBody c.limits.maxLine body := by rw [← hl]; rfl
  have hnum : l.number = d.line + 1 := by rw [← hl]; rfl
  have hx : l.readings = c.reader.readLine (d.line + 1) d.host (spaceOperators l.line.text) := by
    rw [← hl]; rfl
  have hr : l.rest = ((Lexeme.first? (spaceOperators l.line.text)).map Prod.snd).getD [] := by
    rw [← hl]; rfl
  have htabs : (Diagnostic.tabs l.line.tabs).code ≠ .programTooLarge := nofun
  have hlong : (Diagnostic.lineTooLong c.limits.maxLine).code ≠ .programTooLarge := nofun
  have h0 : Draft.Holds { d with line := d.line + 1 } bs :=
    ⟨h.code, h.offered.size, h.offered.closed, h.offered.refusals⟩
  have hstep := (Step.reportIf (d := { d with line := d.line + 1 }) htabs
    (decide (0 < l.line.tabs))).trans (Step.reportIf hlong l.line.truncated)
  have hhost : ((Draft.reportIf { d with line := d.line + 1 } (decide (0 < l.line.tabs))
      (.tabs l.line.tabs)).reportIf l.line.truncated (.lineTooLong c.limits.maxLine)).host = d.host := by
    rw [Draft.host_reportIf, Draft.host_reportIf]
  unfold line
  rw [← hline]
  dsimp only
  generalize (Draft.reportIf { d with line := d.line + 1 } (decide (0 < l.line.tabs))
    (.tabs l.line.tabs)).reportIf l.line.truncated (.lineTooLong c.limits.maxLine) = d1 at hstep hhost
  have h1 := h0.step hstep
  by_cases he : l.line.isEmpty = true
  · have hnil : l.readings = [] := by
      rw [← hl]
      exact c.readings_of_isEmpty _ _ (by rw [hl]; exact he)
    rw [if_pos he]
    refine ⟨(l.endsScript_of_nil hnil).symm, .single ?_ ?_ ?_⟩
    · rw [l.blocks_of_nil hnil, List.append_nil]
      exact h1
    · rw [hnum, LineReading.issues, if_pos he, List.append_nil]
      simpa only [decide_eq_true_eq] using hstep.toNotes
    · rw [hnil]
      exact hhost
  · rw [if_neg he]
    obtain ⟨hind, hins, hinh⟩ := d1.indentation_spec l
    change (c.statement (d1.indentation l.spaces).2 (d1.indentation l.spaces).1 _).2 = _ ∧
      Passes _ _ _ _ (c.statement (d1.indentation l.spaces).2 (d1.indentation l.spaces).1 _).1
    rw [hind]
    generalize (d1.indentation l.spaces).2 = d2 at hins hinh
    have hall := hstep.trans hins
    have hx2 : l.readings = c.reader.readLine d2.line d2.host (spaceOperators l.line.text) := by
      rw [hx, hall.line, hinh, hhost]
    have ht := statement_spec (h1.step hins) l _ hx2 hr
    have hnotes := hall.toNotes.trans ht.notes
    rw [hall.limit, List.append_assoc, List.append_assoc] at hnotes
    refine ⟨ht.ended, .single ht.holds ?_ (by rw [ht.host, hinh, hhost])⟩
    rw [hnum, LineReading.issues, if_neg he]
    simpa only [decide_eq_true_eq] using hnotes

/-- Compiling the lines of a source is reading them, up to the one that ends the
script. -/
theorem lines_spec (h : d.Holds bs) (ss : List Segment) :
    (c.lines d ss).2 = (c.readLines d.line d.host ss).any LineReading.endsScript ∧
      Passes c.limits.maxLine bs d (c.readLines d.line d.host ss) (c.lines d ss).1 := by
  induction ss generalizing d bs with
  | nil => exact ⟨rfl, Passes.refl h⟩
  | cons s ss ih =>
    obtain ⟨hend, hpass⟩ := c.line_spec h s.body
    have hline := hpass.line
    have hhost := hpass.host
    have hnum : (c.readBody (d.line + 1) d.host s.body).number = d.line + 1 := rfl
    rw [readLines, lines]
    generalize c.readBody (d.line + 1) d.host s.body = l at hend hpass hline hhost hnum
    generalize c.line d s.body = out at hend hpass hline hhost
    obtain ⟨e, ended⟩ := out
    dsimp only at hend hpass hline hhost
    subst hend
    cases he : l.endsScript with
    | true =>
      rw [if_pos rfl, List.any_cons, he]
      exact ⟨rfl, hpass⟩
    | false =>
      have hh := hpass.holds
      rw [List.flatMap_singleton] at hh
      obtain ⟨hend', hpass'⟩ := ih hh
      change e.line = l.number at hline
      change e.host = Reading.after d.host l.readings at hhost
      rw [hline, hhost, hnum] at hend' hpass'
      rw [if_neg Bool.false_ne_true, List.any_cons, he, Bool.false_or]
      exact ⟨hend', hpass.cons hpass'⟩

/-- The part of a source that is compiled. -/
def kept (source : List Char) : List Char :=
  if Text.byteLength source ≤ c.limits.maxSource then source
  else Text.takeBytes c.limits.maxSource source

def lineReadings (state : σ) (source : List Char) : List (LineReading σ) :=
  c.readSource state (c.kept source)

/-- The blocks of a script: those of its lines, and the end if the table has one. -/
def blocks (state : σ) (source : List Char) : List Block :=
  (c.lineReadings state source).flatMap LineReading.blocks ++
    c.symbols.end?.toList.map fun e => { head := .head true 0 e.value }

def sourceIssues (source : List Char) : List Diagnostic :=
  if Text.byteLength source ≤ c.limits.maxSource then []
  else [.sourceTooLarge (Text.byteLength source) c.limits.maxSource]

def endingIssues (ls : List (LineReading σ)) : List Diagnostic :=
  (if ls.any LineReading.endsScript then [] else [.missingEnd]) ++
    if c.symbols.end?.isSome then [] else [.noEndSymbol]

/-- The log of a script without refusals, in its order. -/
def notes (state : σ) (name : String) (source : List Char) : List Diagnostic :=
  let ls := c.lineReadings state source
  (c.sourceIssues source).map (fun i => (i.inLine 0).inScript name) ++
    (LineReading.reports name c.limits.maxLine c.limits.maxWords ls ++
      (c.endingIssues ls).map fun i => (i.inLine (LineReading.lastNumber 0 ls)).inScript name)

theorem holds_blank (state : σ) (name : String) : (c.blank state name).Holds [] where
  code := rfl
  offered := ⟨(Nat.min_zero _).symm, rfl, rfl⟩

theorem bounded_spec (d : Draft σ) (source : List Char) :
    (c.bounded d source).1 = c.kept source ∧
      Step d (c.bounded d source).2 [] (c.sourceIssues source) ∧
      (c.bounded d source).2.host = d.host := by
  unfold bounded kept sourceIssues
  dsimp only
  by_cases h : Text.byteLength source ≤ c.limits.maxSource
  · rw [if_pos h, if_pos h, if_pos h]
    exact ⟨rfl, Step.refl d, rfl⟩
  · rw [if_neg h, if_neg h, if_neg h]
    exact ⟨rfl, Step.report nofun, rfl⟩

theorem terminate_spec (h : d.Holds bs) :
    (c.terminate d).Holds (bs ++ c.symbols.end?.toList.map fun e => { head := .head true 0 e.value }) ∧
      Notes d (c.terminate d) (if c.symbols.end?.isSome then [] else [.noEndSymbol]) ∧
      (c.terminate d).host = d.host := by
  unfold terminate
  cases c.symbols.end? with
  | some e => exact h.call (.head true 0 e.value)
  | none =>
    have hc : Diagnostic.noEndSymbol.code ≠ .programTooLarge := nofun
    have hs := Step.report (d := d) hc
    rw [Option.toList_none, List.map_nil, List.append_nil]
    exact ⟨h.step hs, hs.toNotes, rfl⟩

/-- What a draft holds when it is finished. -/
theorem draft_spec (state : σ) (name : String) (source : List Char) :
    (c.draft state name source).Holds (c.blocks state source) ∧
      (c.draft state name source).code.limit = c.limits.maxWords ∧
      (c.draft state name source).log.notes = c.notes state name source ∧
      (c.draft state name source).host = LineReading.after state (c.lineReadings state source) := by
  have hblank := c.holds_blank state name
  obtain ⟨hk, hb, hbh⟩ := c.bounded_spec (c.blank state name) source
  unfold draft
  generalize c.bounded (c.blank state name) source = b at hk hb hbh
  obtain ⟨text, d0⟩ := b
  dsimp only at hk hb hbh ⊢
  subst hk
  obtain ⟨hend, hpass⟩ := c.lines_spec (hblank.step hb) (segments (c.kept source))
  have hls : c.readLines d0.line d0.host (segments (c.kept source)) = c.lineReadings state source := by
    rw [hb.line, hbh]
    rfl
  rw [hls] at hend hpass
  generalize c.lines d0 (segments (c.kept source)) = out at hend hpass
  obtain ⟨d1, ended⟩ := out
  dsimp only at hend hpass ⊢
  have hc : Diagnostic.missingEnd.code ≠ .programTooLarge := nofun
  have hm := Step.reportIf (d := d1) hc (!ended)
  have hmh : (d1.reportIf (!ended) .missingEnd).host = d1.host := Draft.host_reportIf ..
  generalize d1.reportIf (!ended) .missingEnd = d2 at hm hmh
  obtain ⟨hh, hn, hth⟩ := c.terminate_spec (hpass.holds.step hm)
  have htail := hm.toNotes.trans hn
  have hscript : d1.log.script = name := hpass.script.trans hb.script
  have hline : d1.line = LineReading.lastNumber 0 (c.lineReadings state source) := by
    rw [hpass.line, hb.line]
    rfl
  refine ⟨hh, ?_, ?_, ?_⟩
  · exact htail.limit.trans (hpass.limit.trans hb.limit)
  · have hstamp : d1.stamp = fun i =>
        (i.inLine (LineReading.lastNumber 0 (c.lineReadings state source))).inScript name := by
      funext i
      rw [Draft.stamp, hscript, hline]
    have hissues : ((if (!ended) = true then [Diagnostic.missingEnd] else []) ++
        if c.symbols.end?.isSome then [] else [.noEndSymbol]) =
          c.endingIssues (c.lineReadings state source) := by
      rw [endingIssues, ← hend]
      cases ended <;> rfl
    rw [htail.notes, hissues, hstamp, hpass.notes, hb.notes, hb.script, hb.limit, List.append_assoc,
      List.append_assoc]
    rfl
  · rw [hth, hmh, hpass.host, hbh]
    rfl

/-! ## The compiled script -/

theorem sound_of_mem_blocks {state : σ} {source : List Char} {b : Block}
    (hb : b ∈ c.blocks state source) : b.Sound := by
  rcases List.mem_append.1 hb with hb | hb
  · obtain ⟨l, _, hb⟩ := List.mem_flatMap.1 hb
    exact LineReading.sound_of_mem_blocks hb
  · obtain ⟨e, _, rfl⟩ := List.mem_map.1 hb
    exact fun _ => rfl

variable (state : σ) (name : String) (source : List Char)

/-- A script is too large exactly if its blocks are. -/
theorem contains_programTooLarge_compile :
    (c.compile state name source).log.contains .programTooLarge =
      decide (c.limits.maxWords < totalSize (c.blocks state source)) := by
  obtain ⟨hh, hlim, _, _⟩ := c.draft_spec state name source
  have hc := hh.offered.closed
  rw [hlim] at hc
  change (c.draft state name source).log.contains .programTooLarge = _
  rw [Log.contains_programTooLarge, hh.offered.refusals, hc]
  cases decide (c.limits.maxWords < totalSize (c.blocks state source)) <;> rfl

/-- A script refuses a word once if it is too small for its blocks. -/
theorem refusals_compile :
    (c.compile state name source).log.refusals =
      if c.limits.maxWords < totalSize (c.blocks state source) then 1 else 0 := by
  obtain ⟨hh, hlim, _, _⟩ := c.draft_spec state name source
  show (c.draft state name source).log.refusals = _
  rw [hh.offered.refusals, hh.offered.closed, hlim]
  split
  · rename_i h
    rw [decide_eq_true h]
    rfl
  · rename_i h
    rw [decide_eq_false h]
    rfl

theorem state_compile :
    (c.compile state name source).state = LineReading.after state (c.lineReadings state source) :=
  (c.draft_spec state name source).2.2.2

/-- The script of a draft before it is linked. -/
def unlinked : Script := { name, words := (c.draft state name source).code.items }

theorem script_compile :
    (c.compile state name source).script = (c.unlinked state name source).link.1 := rfl

theorem size_unlinked :
    (c.unlinked state name source).size =
      min c.limits.maxWords (totalSize (c.blocks state source)) := by
  obtain ⟨hh, hlim, _, _⟩ := c.draft_spec state name source
  have hsize := hh.offered.size
  rwa [hlim] at hsize

variable {c} (h : c.limits.maxWords < 0x100000000)
include h

theorem size_unlinked_le : (c.unlinked state name source).size ≤ addressSpace := by
  rw [size_unlinked, addressSpace]
  omega

theorem statements_unlinked :
    (c.unlinked state name source).statements =
      layOut c.limits.maxWords 0 (c.blocks state source) := by
  obtain ⟨hh, hlim, _, _⟩ := c.draft_spec state name source
  have hcode := hh.code
  rw [hlim] at hcode
  change statementsFrom 0 (c.draft state name source).code.toList = _
  rw [hcode]
  exact statementsFrom_spell (isWalk_layOut h fun b hb => c.sound_of_mem_blocks hb)

theorem size_compile :
    (c.compile state name source).script.size =
      min c.limits.maxWords (totalSize (c.blocks state source)) := by
  rw [script_compile, Script.size_link (size_unlinked_le state name source h), size_unlinked]

/-- The walk over a compiled script: its blocks, as far as there is room, with
their jumps. -/
theorem statements_compile :
    (c.compile state name source).script.statements =
      resolve (c.compile state name source).script.size
        (layOut c.limits.maxWords 0 (c.blocks state source)) := by
  have hle := size_unlinked_le state name source h
  rw [script_compile, Script.statements_link hle, Script.size_link hle,
    statements_unlinked state name source h]

end Compiler

/-- A compiler for one question, one variable, one operator and the end. -/
def Compiler.tiny (maxWords : Nat) : Compiler Unit where
  symbols := .ofList [⟨"IfIdle", .function, 1⟩, ⟨"x", .var, 2⟩, ⟨"+", .operator, 3⟩, ⟨"End", .function, 9⟩]
  host := ⟨fun _ s => (none, s), fun _ s => (0, s)⟩
  limits := { maxWords }

end NpcScript
