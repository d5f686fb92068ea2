import NpcScript.Proofs.Bytecode
import NpcScript.Proofs.LoadedText

/-! # Layout and comments

Other line breaks, empty lines and comments change line numbers and warnings, and
no code: every line that has a text keeps it. `Relaid` lists what can be done to
the lines of a source in this way. -/
namespace NpcScript
open NpcScript.Text

namespace SourceLine

/-- A string is open behind some cells, the first of which is in a string or not
as given. -/
def openAfter (inString : Bool) (code : List Cell) : Bool :=
  code.getLast?.elim inString fun x => x.inString != x.delimits

/-- A string is open at the end of a line. Behind the start of a comment none is. -/
def endsInString (body : List Char) : Bool := openAfter false (codeCells body)

/-- Blanks, and behind them a comment or nothing. -/
def isTrailer (tail : List Char) : Bool :=
  (trimStart tail).isEmpty || (trimStart tail).take 2 == ['/', '/']

/-- Blanks and a comment behind the line are not part of its code. -/
def takesTrailer (body : List Char) : Bool := !endsInString body && body.getLast? != some '/'

/-- The cells before the comment, for a text behind another. -/
def codeFrom (before : Option Char) (inString : Bool) (cs : List Char) : List Cell :=
  (cellsFrom [] before inString cs).takeWhile fun x => !x.startsComment

theorem codeFrom_cons (before : Option Char) (inString : Bool) (c : Char) (cs : List Char) :
    codeFrom before inString (c :: cs) =
      if Cell.startsComment ⟨before, c, cs.head?, inString⟩ then []
      else ⟨before, c, cs.head?, inString⟩ ::
        codeFrom (some c) (inString != isDelimiter before c) cs := by
  rw [codeFrom, cellsFrom_cons, List.takeWhile_cons]
  cases Cell.startsComment ⟨before, c, cs.head?, inString⟩ <;> rfl

theorem openAfter_cons (inString : Bool) (x : Cell) (code : List Cell) :
    openAfter inString (x :: code) = openAfter (x.inString != x.delimits) code := by
  rw [openAfter, openAfter, List.getLast?_cons]
  cases code.getLast? <;> rfl

end SourceLine

namespace SourceLine

theorem isTrailer_cons_of_isBlank {x : Char} (h : isBlank x = true) (xs : List Char) :
    isTrailer (x :: xs) = isTrailer xs := by
  have ht : trimStart (x :: xs) = trimStart xs := by rw [trimStart, List.dropWhile_cons, if_pos h, trimStart]
  rw [isTrailer, ht, isTrailer]

theorem isTrailer_cons_of_not_isBlank {x : Char} (h : isBlank x = false) {xs : List Char}
    (ht : isTrailer (x :: xs) = true) : x = '/' ∧ xs.head? = some '/' := by
  have hs : trimStart (x :: xs) = x :: xs := by
    rw [trimStart, List.dropWhile_cons, h, if_neg Bool.false_ne_true]
  rw [isTrailer, hs, List.isEmpty_cons, Bool.false_or, beq_iff_eq] at ht
  cases xs with
  | nil => cases ht
  | cons y ys =>
    cases ht
    exact ⟨rfl, rfl⟩

/-- Outside strings a trailer is loaded as spaces. -/
theorem map_loaded_trailer (before : Option Char) {tail : List Char} (h : isTrailer tail = true) :
    ∃ k, (codeFrom before false tail).map Cell.loaded = List.replicate k ' ' := by
  induction tail generalizing before with
  | nil => exact ⟨0, rfl⟩
  | cons x xs ih =>
    rw [codeFrom_cons]
    cases hx : isBlank x with
    | true =>
      rw [isTrailer_cons_of_isBlank hx] at h
      have hquote : x ≠ '"' := by
        rintro rfl
        cases hx
      have hslash : x ≠ '/' := by
        rintro rfl
        cases hx
      have hd : isDelimiter before x = false := by simp [isDelimiter, hquote]
      have hcode : Cell.startsComment ⟨before, x, xs.head?, false⟩ = false := by
        simp [Cell.startsComment, hslash]
      have hload : Cell.loaded ⟨before, x, xs.head?, false⟩ = ' ' := by
        simp [Cell.loaded, Cell.delimits, hd, hx]
      obtain ⟨k, hk⟩ := ih (some x) h
      refine ⟨k + 1, ?_⟩
      rw [hcode, if_neg Bool.false_ne_true, hd, List.map_cons, hload]
      exact congrArg (' ' :: ·) hk
    | false =>
      obtain ⟨rfl, hxs⟩ := isTrailer_cons_of_not_isBlank hx h
      have hcomment : Cell.startsComment ⟨before, '/', xs.head?, false⟩ = true := by
        rw [hxs]
        rfl
      rw [hcomment]
      exact ⟨0, rfl⟩

/-- A trailer adds spaces to what is loaded of a line that takes one. -/
theorem map_loaded_append {tail : List Char} (ht : isTrailer tail = true) (before : Option Char)
    {inString : Bool} {body : List Char}
    (hopen : openAfter inString (codeFrom before inString body) = false)
    (hlast : body.getLast? ≠ some '/') :
    ∃ k, (codeFrom before inString (body ++ tail)).map Cell.loaded =
      (codeFrom before inString body).map Cell.loaded ++ List.replicate k ' ' := by
  induction body generalizing before inString with
  | nil =>
    have hin : inString = false := hopen
    subst hin
    exact map_loaded_trailer before ht
  | cons c cs ih =>
    -- the last character sees the trailer, but as it is no slash no comment starts there
    have hcomment : Cell.startsComment ⟨before, c, (cs ++ tail).head?, inString⟩ =
        Cell.startsComment ⟨before, c, cs.head?, inString⟩ := by
      cases cs with
      | nil =>
        have hc : c ≠ '/' := fun he => hlast (by rw [he]; rfl)
        simp [Cell.startsComment, hc]
      | cons d ds => rfl
    rw [codeFrom_cons] at hopen
    rw [List.cons_append, codeFrom_cons, codeFrom_cons, hcomment]
    cases hstart : Cell.startsComment ⟨before, c, cs.head?, inString⟩ with
    | true => exact ⟨0, rfl⟩
    | false =>
      rw [hstart, if_neg Bool.false_ne_true, openAfter_cons] at hopen
      have hrest : cs.getLast? ≠ some '/' := by
        cases cs with
        | nil => nofun
        | cons d ds => exact hlast
      obtain ⟨k, hk⟩ := ih (some c) hopen hrest
      refine ⟨k, ?_⟩
      rw [if_neg Bool.false_ne_true, if_neg Bool.false_ne_true, List.map_cons, List.map_cons]
      exact congrArg (List.cons _) hk

theorem trimEnd_append_replicate (cs : List Char) (k : Nat) :
    trimEnd (cs ++ List.replicate k ' ') = trimEnd cs := by
  have hspace : isBlank ' ' = true := by decide
  rw [trimEnd, List.reverse_append, List.reverse_replicate, List.dropWhile_append_of_pos, trimEnd]
  intro x hx
  rw [(List.mem_replicate.1 hx).2]
  exact hspace

/-- A trailer is not in the text of a line. -/
theorem text_append_trailer (maxLen : Nat) {body tail : List Char} (hb : takesTrailer body = true)
    (ht : isTrailer tail = true) : (ofBody maxLen (body ++ tail)).text = (ofBody maxLen body).text := by
  rw [takesTrailer, Bool.and_eq_true, Bool.not_eq_true', bne_iff_ne] at hb
  obtain ⟨k, hk⟩ := map_loaded_append ht none hb.1 hb.2
  have hk : (codeCells (body ++ tail)).map Cell.loaded =
      (codeCells body).map Cell.loaded ++ List.replicate k ' ' := hk
  simp only [ofBody, List.map_take, hk, List.take_append, List.take_replicate]
  exact trimEnd_append_replicate ..

/-- A trailer alone is a line without text. -/
theorem text_trailer (maxLen : Nat) {tail : List Char} (ht : isTrailer tail = true) :
    (ofBody maxLen tail).text = [] := by
  have hnil : (ofBody maxLen []).text = [] := by
    simp [ofBody, codeCells, cells, cellsFrom, trimEnd]
  have htakes : takesTrailer [] = true := rfl
  rw [← hnil, ← text_append_trailer maxLen htakes ht, List.nil_append]

end SourceLine

/-- A source made from some lines: any ending for each line, any number of lines
with nothing but blanks and a comment in between, and blanks and a comment behind
a line that takes them. Only the last line can lack an ending. -/
inductive Relaid : List (List Char) → List Char → Prop
  | nil : Relaid [] []
  | filler {lines : List (List Char)} {source tail : List Char} {ending : Ending}
    (trailer : SourceLine.isTrailer tail = true) (unbroken : ∀ x ∈ tail, isBreak x = false)
    (ended : ending = .absent → source = []) (rest : Relaid lines source) :
    Relaid lines (tail ++ (ending.text ++ source))
  | line {lines : List (List Char)} {source body tail : List Char} {ending : Ending}
    (trailer : SourceLine.isTrailer tail = true) (unbroken : ∀ x ∈ tail, isBreak x = false)
    (taken : tail ≠ [] → SourceLine.takesTrailer body = true)
    (ended : ending = .absent → source = []) (rest : Relaid lines source) :
    Relaid (body :: lines) (body ++ tail ++ (ending.text ++ source))

namespace Relaid

/-- Lines joined by line feeds are laid out in the plainest way. -/
theorem intercalate (lines : List (List Char)) : Relaid lines (List.intercalate ['\n'] lines) := by
  induction lines with
  | nil => exact nil
  | cons body lines ih =>
    cases lines with
    | nil =>
      have h : Relaid [body] (body ++ [] ++ (Ending.absent.text ++ [])) :=
        .line rfl (List.forall_mem_nil _) (absurd rfl) (fun _ => rfl) nil
      simpa [Ending.text] using h
    | cons next lines =>
      have h : Relaid (body :: next :: lines) (body ++ [] ++ (Ending.lf.text ++ _)) :=
        .line rfl (List.forall_mem_nil _) (absurd rfl) (fun h => by cases h) ih
      simpa [Ending.text] using h

end Relaid

theorem unbroken_of_all {cs : List Char} (h : cs.all (fun x => !isBreak x) = true) :
    ∀ x ∈ cs, isBreak x = false := by
  intro x hx
  simpa only [Bool.not_eq_true'] using List.all_eq_true.1 h x hx

theorem Ending.atBreak_append {ending : Ending} {source : List Char}
    (h : ending = .absent → source = []) :
    AtBreak (ending.text ++ source) ∧ bodies (ending.text ++ source) = bodies source := by
  have hlf : isBreak '\n' = true := rfl
  have hcr : isBreak '\r' = true := rfl
  cases ending with
  | absent => rw [h rfl]; exact ⟨nofun, rfl⟩
  | lf => exact ⟨atBreak_cons hlf _, bodies_cons_of_isBreak hlf _⟩
  | cr => exact ⟨atBreak_cons hcr _, bodies_cons_of_isBreak hcr _⟩
  | crlf =>
    exact ⟨atBreak_cons hcr _, (bodies_cons_of_isBreak hcr _).trans (bodies_cons_of_isBreak hlf _)⟩
  | lfcr =>
    exact ⟨atBreak_cons hlf _, (bodies_cons_of_isBreak hlf _).trans (bodies_cons_of_isBreak hcr _)⟩

/-- The same host, keeping a list of the messages that it is given. -/
def Host.recording {σ : Type} (h : Host σ) : Host (σ × List String) where
  asset name s := ((h.asset name s.1).1, (h.asset name s.1).2, s.2)
  message text s := ((h.message text s.1).1, (h.message text s.1).2, s.2 ++ [text])

namespace Compiler

variable {σ : Type} (c : Compiler σ)

theorem texts_body_append {body source : List Char} {ending : Ending}
    (hb : ∀ x ∈ body, isBreak x = false) (h : ending = .absent → source = []) :
    c.texts (body ++ (ending.text ++ source)) =
      [c.textOf body].filter (fun text => !text.isEmpty) ++ c.texts source := by
  obtain ⟨hbreak, hbodies⟩ := Ending.atBreak_append h
  rw [texts, bodies_body_append hb hbreak, hbodies, texts]
  cases body with
  | nil =>
    have hnil : c.textOf [] = [] := SourceLine.text_trailer c.limits.maxLine rfl
    rw [hnil]
    rfl
  | cons x xs =>
    rw [List.isEmpty_cons, if_neg Bool.false_ne_true, List.map_cons, ← List.filter_append,
      List.singleton_append]

/-- The messages of a source in the order in which the host is given them. -/
def messages (state : σ) (source : List Char) : List String :=
  (Compiler.compile { c with host := c.host.recording } (state, []) "" source).state.2

/-- However lines are laid out, their texts are loaded. -/
theorem texts_of_relaid {lines : List (List Char)} {source : List Char} (h : Relaid lines source)
    (hlines : ∀ line ∈ lines, ∀ x ∈ line, isBreak x = false) :
    c.texts source = (lines.map c.textOf).filter fun text => !text.isEmpty := by
  induction h with
  | nil => simp [texts, bodies_nil]
  | filler trailer unbroken ended rest ih =>
    have ht := SourceLine.text_trailer c.limits.maxLine trailer
    rw [c.texts_body_append unbroken ended, textOf, ht]
    exact ih hlines
  | @line lines source body tail ending trailer unbroken taken ended rest ih =>
    obtain ⟨hbody, hrest⟩ := List.forall_mem_cons.1 hlines
    have hunbroken : ∀ x ∈ body ++ tail, isBreak x = false := by
      intro x hx
      rcases List.mem_append.1 hx with hx | hx
      · exact hbody x hx
      · exact unbroken x hx
    have htext : c.textOf (body ++ tail) = c.textOf body := by
      by_cases hnil : tail = []
      · rw [hnil, List.append_nil]
      · exact SourceLine.text_append_trailer c.limits.maxLine (taken hnil) trailer
    rw [c.texts_body_append hunbroken ended, htext, ih hrest, ← List.filter_append]
    rfl

/-- Sources with the same texts give the same script and leave the host in the
same state. -/
theorem compile_congr_texts {c : Compiler σ} {source source' : List Char}
    (h : byteLength source ≤ c.limits.maxSource) (h' : byteLength source' ≤ c.limits.maxSource)
    (htexts : c.texts source = c.texts source') (state : σ) (name : String) :
    (c.compile state name source).script = (c.compile state name source').script ∧
      (c.compile state name source).state = (c.compile state name source').state := by
  constructor
  · apply script_compile_congr
    rw [blocks_eq_codeOf h, blocks_eq_codeOf h', htexts]
  · rw [state_compile_eq_codeOf h, state_compile_eq_codeOf h', htexts]

/-- **Layout and comments do not change the code.** However lines are laid out,
the script is that of the lines joined by line feeds, and the host is given the
same messages in the same order and comes to the same state. -/
theorem compile_relaid (c : Compiler σ) (state : σ) (name : String) {lines : List (List Char)}
    {source : List Char} (hlines : ∀ line ∈ lines, ∀ x ∈ line, isBreak x = false)
    (h : Relaid lines source) (hplain : byteLength (List.intercalate ['\n'] lines) ≤ c.limits.maxSource)
    (hsource : byteLength source ≤ c.limits.maxSource) :
    let plain := List.intercalate ['\n'] lines
    (c.compile state name source).script = (c.compile state name plain).script ∧
      c.messages state source = c.messages state plain ∧
      (c.compile state name source).state = (c.compile state name plain).state := by
  intro plain
  have htexts {τ : Type} (c : Compiler τ) : c.texts source = c.texts plain := by
    rw [c.texts_of_relaid h hlines, c.texts_of_relaid (.intercalate lines) hlines]
  obtain ⟨hscript, hstate⟩ := compile_congr_texts hsource hplain (htexts c) state name
  have hrecorded := compile_congr_texts (c := { c with host := c.host.recording }) hsource hplain
    (htexts _) (state, []) ""
  exact ⟨hscript, congrArg Prod.snd hrecorded.2, hstate⟩

/-- A carriage return ends a line and a line feed the empty line behind it, which
are then taken for one ending; comments with quotes stand behind a message and on
a line of their own. -/
theorem compile_relaid_tiny :
    let lines := ["IfIdle", "  x = \"a // b\"", "End"].map String.toList
    let plain := "IfIdle\n  x = \"a // b\"\nEnd".toList
    let source := "IfIdle\r\n  x = \"a // b\" // \"c\n\r// \"d\rEnd  \n".toList
    (∀ line ∈ lines, ∀ x ∈ line, isBreak x = false) ∧ Relaid lines source ∧
      List.intercalate ['\n'] lines = plain ∧
      byteLength plain ≤ (tiny 16).limits.maxSource ∧ byteLength source ≤ (tiny 16).limits.maxSource ∧
      ((tiny 16).compile () "tiny" source).script = ((tiny 16).compile () "tiny" plain).script ∧
      (tiny 16).messages () source = ["a_//_b"] ∧ (tiny 16).messages () plain = ["a_//_b"] := by
  intro lines plain source
  have hall : lines.all (fun line => line.all fun x => !isBreak x) = true := by decide +kernel
  have hlines : ∀ line ∈ lines, ∀ x ∈ line, isBreak x = false :=
    fun line hline => unbroken_of_all (List.all_eq_true.1 hall line hline)
  have hend : Relaid _ ("End".toList ++ "  ".toList ++ (Ending.lf.text ++ [])) :=
    .line (by decide) (unbroken_of_all (by decide)) (fun _ => by decide +kernel) nofun .nil
  have hcomment : Relaid _ ("// \"d".toList ++ (Ending.cr.text ++ _)) :=
    .filler (by decide) (unbroken_of_all (by decide)) nofun hend
  have hmessage : Relaid _ ("  x = \"a // b\"".toList ++ " // \"c".toList ++ (Ending.lfcr.text ++ _)) :=
    .line (by decide) (unbroken_of_all (by decide)) (fun _ => by decide +kernel) nofun hcomment
  have hempty : Relaid _ ([] ++ (Ending.lf.text ++ _)) := .filler rfl nofun nofun hmessage
  have hfirst : Relaid lines ("IfIdle".toList ++ [] ++ (Ending.cr.text ++ _)) :=
    .line rfl nofun (absurd rfl) nofun hempty
  have hrelaid : Relaid lines source := hfirst
  have hplain : byteLength plain ≤ (tiny 16).limits.maxSource := by decide +kernel
  have hsource : byteLength source ≤ (tiny 16).limits.maxSource := by decide +kernel
  obtain ⟨hscript, hmessages, _⟩ := compile_relaid (tiny 16) () "tiny" hlines hrelaid hplain hsource
  have hgiven : (tiny 16).messages () plain = ["a_//_b"] := by decide +kernel
  exact ⟨hlines, hrelaid, rfl, hplain, hsource, hscript, hmessages.trans hgiven, hgiven⟩

end Compiler

end NpcScript
