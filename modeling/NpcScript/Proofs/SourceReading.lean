import NpcScript.Proofs.RightSide

/-! # What is read of a source

The host sees every message and every asset in the order of the words, so what
a line means depends on the lines before it. Nothing else does: `readLines`
reads a source line by line with the host's state alone, up to the line that
ends the script. From each line follow its blocks and its problems, and the
draft of the compiler is just those, one line after the other. -/
namespace NpcScript

variable {σ : Type}

namespace Reader

/-- What is read of a spaced line: all of its words if the first is a variable,
the first alone otherwise. -/
def readLine (r : Reader σ) (line : LineNumber) (s : σ) (text : List Char) : List (Reading σ) :=
  match r.readings line s (lexemes text) with
  | [] => []
  | x :: xs => if x.token.isVariable then x :: xs else [x]

end Reader

/-- A physical line as it is read. -/
structure LineReading (σ : Type) where
  number : LineNumber
  /-- The number of characters before the comment. -/
  width : Nat
  line : SourceLine
  readings : List (Reading σ)
  /-- The text after the first word. -/
  rest : List Char

namespace LineReading

def tokens (l : LineReading σ) : List Token := l.readings.map Reading.token

def spaces (l : LineReading σ) : Nat := l.line.leadingSpaces

/-- The level of indentation, as deep as it is written. -/
def level (l : LineReading σ) : Nat := l.spaces / 2

/-- The line ends the script: it starts with the function `End`, and not with the
two spaces of a level. -/
def endsScript (l : LineReading σ) : Bool :=
  !([' ', ' '].isPrefixOf l.line.text) &&
    l.tokens.head?.any fun t => t.isFunction && t.word == SymbolTable.endName

def indent (l : LineReading σ) : Nat := min l.level Word.maxIndent

/-- The code of a line: at most one block. -/
def blocks (l : LineReading σ) : List Block :=
  match l.tokens with
  | [] => []
  | t :: ts =>
    match t.kind with
    | some .function => if l.endsScript then [] else [.call t l.indent]
    | some .var => [.assignment t l.indent ts]
    | _ => []

/-- The problems of the statement on a line, with a room of so many words. -/
def statementIssues (room : Nat) (l : LineReading σ) : List Diagnostic :=
  match l.readings with
  | [] => []
  | x :: xs =>
    x.issues ++
      match x.token.kind with
      | some .function =>
        if l.endsScript || (Text.trim l.rest).isEmpty then []
        else [.trailingText x.token.word (String.ofList (Text.trim l.rest))]
      | some .var =>
        let ts := xs.map Reading.token
        assignIssues x.token xs ++ endIssues ts (min (assignWords ts).length (room - 2))
      | some _ => [.invalidStatement x.token.word]
      | none => []

def indentIssues (l : LineReading σ) : List Diagnostic :=
  (if l.spaces % 2 != 0 then [.oddIndentation l.spaces] else []) ++
    (if Word.maxIndent < l.level then [.tooDeep l.level Word.maxIndent] else [])

/-- All problems of a line, in their order. -/
def issues (maxLine room : Nat) (l : LineReading σ) : List Diagnostic :=
  (if 0 < l.line.tabs then [.tabs l.line.tabs] else []) ++
    ((if l.line.truncated then [.lineTooLong maxLine] else []) ++
      if l.line.isEmpty then [] else l.indentIssues ++ l.statementIssues room)

section

variable {l : LineReading σ} {x : Reading σ} {xs : List (Reading σ)}

theorem blocks_of_nil (h : l.readings = []) : l.blocks = [] := by
  rw [blocks, tokens, h]
  rfl

theorem statementIssues_of_nil (h : l.readings = []) (room : Nat) : l.statementIssues room = [] := by
  rw [statementIssues, h]

theorem endsScript_of_nil (h : l.readings = []) : l.endsScript = false := by
  rw [endsScript, tokens, h]
  exact Bool.and_false _

theorem isPrefixOf_text (l : LineReading σ) : [' ', ' '].isPrefixOf l.line.text = !(l.indent == 0) := by
  rw [(SourceLine.leadingSpaces_eq_iff.1 rfl).isPrefixOf, Bool.eq_iff_iff, decide_eq_true_eq,
    Bool.not_eq_true', beq_eq_false_iff_ne, indent, level, spaces, Word.maxIndent]
  omega

theorem endsScript_of_cons (h : l.readings = x :: xs) :
    l.endsScript = (l.indent == 0 && (x.token.isFunction && x.token.word == SymbolTable.endName)) := by
  rw [endsScript, isPrefixOf_text, Bool.not_not, tokens, h]
  rfl

theorem endsScript_of_ne (h : l.readings = x :: xs) (hk : x.token.kind ≠ some .function) :
    l.endsScript = false := by
  have hf : x.token.isFunction = false := decide_eq_false hk
  rw [endsScript_of_cons h, hf, Bool.false_and, Bool.and_false]

theorem blocks_of_function (h : l.readings = x :: xs) (hk : x.token.kind = some .function) :
    l.blocks = if l.endsScript then [] else [.call x.token l.indent] := by
  simp only [blocks, tokens, h, List.map_cons, hk]

theorem statementIssues_of_function (h : l.readings = x :: xs)
    (hk : x.token.kind = some .function) (room : Nat) :
    l.statementIssues room = x.issues ++ if l.endsScript || (Text.trim l.rest).isEmpty then []
      else [.trailingText x.token.word (String.ofList (Text.trim l.rest))] := by
  simp only [statementIssues, h, hk]

theorem blocks_of_var (h : l.readings = x :: xs) (hk : x.token.kind = some .var) :
    l.blocks = [.assignment x.token l.indent (xs.map Reading.token)] := by
  simp only [blocks, tokens, h, List.map_cons, hk]

theorem statementIssues_of_var (h : l.readings = x :: xs) (hk : x.token.kind = some .var)
    (room : Nat) :
    l.statementIssues room = x.issues ++ (assignIssues x.token xs ++
      endIssues (xs.map Reading.token)
        (min (assignWords (xs.map Reading.token)).length (room - 2))) := by
  simp only [statementIssues, h, hk]

theorem blocks_of_other (h : l.readings = x :: xs) (hf : x.token.kind ≠ some .function)
    (hv : x.token.kind ≠ some .var) : l.blocks = [] := by
  simp only [blocks, tokens, h, List.map_cons]

theorem statementIssues_of_other (h : l.readings = x :: xs) (hf : x.token.kind ≠ some .function)
    (hv : x.token.kind ≠ some .var) (room : Nat) :
    l.statementIssues room = x.issues ++
      if x.token.isUnknown then [] else [.invalidStatement x.token.word] := by
  rw [statementIssues, h]
  cases hk : x.token.kind with
  | none => simp [Token.isUnknown, hk]
  | some k =>
    cases k with
    | function => exact absurd hk hf
    | var => exact absurd hk hv
    | constant | operator => simp [Token.isUnknown, hk]

theorem sound_of_mem_blocks {b : Block} (hb : b ∈ l.blocks) : b.Sound := by
  unfold blocks at hb
  split at hb
  · cases hb
  · split at hb
    · split at hb
      · cases hb
      · rw [List.mem_singleton.1 hb]
        exact fun _ => rfl
    · rw [List.mem_singleton.1 hb]
      intro hf
      rw [Block.assignment, Word.flag_head] at hf
      cases hf
    · cases hb

end

/-- The host's state after some lines. -/
def after (s : σ) : List (LineReading σ) → σ
  | [] => s
  | l :: ls => after (Reading.after s l.readings) ls

/-- The number of the last line, or the one before the first. -/
def lastNumber (n : LineNumber) : List (LineReading σ) → LineNumber
  | [] => n
  | l :: ls => lastNumber l.number ls

end LineReading

namespace Compiler

variable (c : Compiler σ)

/-- Read the characters of a physical line. -/
def readBody (n : LineNumber) (s : σ) (body : List Char) : LineReading σ :=
  let line := SourceLine.ofBody c.limits.maxLine body
  let text := spaceOperators line.text
  { number := n
    width := (SourceLine.codeCells body).length
    line
    readings := c.reader.readLine n s text
    rest := ((Lexeme.first? text).map Prod.snd).getD [] }

/-- Read physical lines up to the one that ends the script. -/
def readLines : LineNumber → σ → List Segment → List (LineReading σ)
  | _, _, [] => []
  | n, s, segment :: segments =>
    let l := c.readBody (n + 1) s segment.body
    if l.endsScript then [l] else l :: readLines (n + 1) (Reading.after s l.readings) segments

/-- The lines of a source that are read. -/
def readSource (s : σ) (source : List Char) : List (LineReading σ) :=
  c.readLines 0 s (segments source)

end Compiler

namespace Reader

variable (r : Reader σ) (line : LineNumber) (s : σ)

theorem readLine_of_none {text : List Char} (h : Lexeme.first? text = none) :
    r.readLine line s text = [] := by
  rw [readLine, lexemes_of_none h]
  rfl

theorem readLine_of_some {text rest : List Char} {l : Lexeme} (h : Lexeme.first? text = some (l, rest)) :
    r.readLine line s text = r.read line s l ::
      if (r.read line s l).token.isVariable then
        r.readings line (r.read line s l).state (lexemes rest) else [] := by
  rw [readLine, lexemes_cons h, readings]
  dsimp only
  split <;> rfl

end Reader

namespace Draft

/-- What comes of the statement on a line: its block, its problems, the host's
state, and whether it ends the script. -/
structure Takes (bs : List Block) (d : Draft σ) (l : LineReading σ) (out : Draft σ × Bool) : Prop where
  ended : out.2 = l.endsScript
  holds : out.1.Holds (bs ++ l.blocks)
  notes : Notes d out.1 (l.statementIssues (d.code.limit - totalSize bs))
  host : out.1.host = Reading.after d.host l.readings

section

-- `d'` is the draft after the first word
variable {bs : List Block} {d d' : Draft σ} {l : LineReading σ} {x : Reading σ}
  (h : d.Holds bs) (hread : Step d d' [] x.issues) (hhost : d'.host = x.state)
include h hread hhost

theorem takes_function (hx : l.readings = [x]) (hk : x.token.kind = some .function) :
    Takes bs d l
      (if l.endsScript then (d', true) else (d'.function x.token l.indent l.rest, false)) := by
  have hold := h.step hread
  cases he : l.endsScript with
  | true =>
    rw [if_pos rfl]
    refine ⟨he.symm, ?_, ?_, by rw [hx]; exact hhost⟩
    · rw [l.blocks_of_function hx hk, he, if_pos rfl, List.append_nil]
      exact hold
    · rw [l.statementIssues_of_function hx hk, he, Bool.true_or, if_pos rfl, List.append_nil]
      exact hread.toNotes
  | false =>
    obtain ⟨hb, hn, hh⟩ := function_spec hold x.token l.indent l.rest
    refine ⟨he.symm, ?_, ?_, by rw [hx]; exact hh.trans hhost⟩
    · rw [l.blocks_of_function hx hk, he]
      exact hb
    · rw [l.statementIssues_of_function hx hk, he, Bool.false_or]
      exact hread.toNotes.trans hn

theorem takes_assignment (r : Reader σ) (words : List Lexeme)
    (hx : l.readings = x :: r.readings d.line x.state words) (hk : x.token.kind = some .var) :
    Takes bs d l (d'.assignment r x.token l.indent words, false) := by
  have hspec := assignment_spec (h.step hread) r x.token l.indent words
  rw [hread.line, hhost, hread.limit] at hspec
  obtain ⟨hb, hn, hh⟩ := hspec
  refine ⟨(l.endsScript_of_ne hx (by rw [hk]; nofun)).symm, ?_, ?_, by rw [hx]; exact hh⟩
  · rw [l.blocks_of_var hx hk]
    exact hb
  · rw [l.statementIssues_of_var hx hk, Nat.sub_sub]
    exact hread.toNotes.trans hn

/-- A word that starts no statement adds no code. If it is unknown, that has been
reported. -/
theorem takes_other (hx : l.readings = [x]) (hf : x.token.kind ≠ some .function)
    (hv : x.token.kind ≠ some .var) :
    Takes bs d l (d'.reportIf (!x.token.isUnknown) (.invalidStatement x.token.word), false) := by
  have hc : (Diagnostic.invalidStatement x.token.word).code ≠ .programTooLarge := nofun
  have hrep := Step.reportIf (d := d') hc (!x.token.isUnknown)
  have hissues : (if (!x.token.isUnknown) = true then [Diagnostic.invalidStatement x.token.word]
      else []) = if x.token.isUnknown then [] else [.invalidStatement x.token.word] := by
    cases x.token.isUnknown <;> rfl
  refine ⟨(l.endsScript_of_ne hx hf).symm, ?_, ?_, ?_⟩
  · rw [l.blocks_of_other hx hf hv, List.append_nil]
    exact (h.step hread).step hrep
  · rw [l.statementIssues_of_other hx hf hv, ← hissues]
    exact hread.toNotes.trans hrep.toNotes
  · rw [hx]
    exact (host_reportIf ..).trans hhost

end

end Draft

namespace Compiler

variable {c : Compiler σ}

/-- For tokens that were read, the index in the table tells no more than the
word. -/
theorem endsScript_eq {word : String} {n : LineNumber} {t : Token} {issues : List Diagnostic}
    (h : Reader.Meaning c.reader word n t issues) (hf : t.isFunction = true) (indent : Nat) :
    c.endsScript t indent = (indent == 0 && t.word == SymbolTable.endName) := by
  have hk := Token.kind_of_isFunction hf
  obtain ⟨i, e, hi, he, hek, hs, _⟩ := h.of_symbol hk nofun (Token.isAssign_eq_false hk nofun)
  -- the first entry of a name is the only one that is found, so index and name agree
  have key : t.symbol = (c.symbols.end?.bind fun s => c.symbols.indexOf? s.name) ↔
      t.word = SymbolTable.endName := by
    rw [hs]
    constructor
    · intro heq
      obtain ⟨e', he', hi'⟩ := Option.bind_eq_some_iff.1 heq.symm
      rw [SymbolTable.name_of_end he'] at hi'
      obtain ⟨a, ha, hna⟩ := SymbolTable.entry_of_indexOf hi
      obtain ⟨b, hb, hnb⟩ := SymbolTable.entry_of_indexOf hi'
      have ha : c.symbols.entry? i = some a := ha
      rw [ha] at hb
      cases hb
      exact hna.symm.trans hnb
    · intro hw
      rw [hw] at hi
      have hend := SymbolTable.end_iff.2 ⟨i, hi, he, hek⟩
      have hend : c.symbols.end? = some e := hend
      rw [hend, Option.bind_some, SymbolTable.name_of_end hend]
      exact hi.symm
  rw [Bool.eq_iff_iff]
  simp only [Compiler.endsScript, Bool.and_eq_true, decide_eq_true_eq, beq_iff_eq, key]
  simp [hs]

open Draft (Step Takes)

variable {d : Draft σ} {bs : List Block}

theorem statement_spec (h : d.Holds bs) (l : LineReading σ) (text : List Char)
    (hx : l.readings = c.reader.readLine d.line d.host text)
    (hr : l.rest = ((Lexeme.first? text).map Prod.snd).getD []) :
    Takes bs d l (c.statement d l.indent text) := by
  unfold statement
  cases hf : Lexeme.first? text with
  | none =>
    rw [Reader.readLine_of_none _ _ _ hf] at hx
    refine ⟨(l.endsScript_of_nil hx).symm, ?_, ?_, by rw [hx]; rfl⟩
    · rw [l.blocks_of_nil hx, List.append_nil]
      exact h
    · rw [l.statementIssues_of_nil hx]
      exact (Step.refl d).toNotes
  | some p =>
    obtain ⟨lx, rest⟩ := p
    rw [Reader.readLine_of_some _ _ _ hf] at hx
    have hr : l.rest = rest := by rw [hr, hf]; rfl
    have hread : Step d (d.read c.reader lx).2 [] (c.reader.read d.line d.host lx).issues :=
      Step.read c.reader lx
    have hhost : (d.read c.reader lx).2.host = (c.reader.read d.line d.host lx).state := rfl
    have htoken : (d.read c.reader lx).1 = (c.reader.read d.line d.host lx).token := rfl
    have hm := c.reader.meaning_read d.line d.host lx
    dsimp only
    rw [htoken]
    -- from here on the first word and the draft after it are known by these facts alone
    generalize c.reader.read d.line d.host lx = x at hx hread hm hhost
    generalize (d.read c.reader lx).2 = d' at hread hhost
    have alone (hv : x.token.kind ≠ some .var) : l.readings = [x] := by
      rw [hx, Token.isVariable, decide_eq_false hv]
      rfl
    cases hk : x.token.kind with
    | none =>
      have htakes := Draft.takes_other h hread hhost (alone (by rw [hk]; nofun)) (by rw [hk]; nofun)
        (by rw [hk]; nofun)
      rwa [Token.isUnknown, hk] at htakes
    | some k =>
      cases k with
      | function =>
        have hx := alone (by rw [hk]; nofun)
        have hkf : x.token.isFunction = true := decide_eq_true hk
        have hends : c.endsScript x.token l.indent = l.endsScript := by
          rw [endsScript_eq hm hkf, l.endsScript_of_cons hx, hkf, Bool.true_and]
        rw [hends, ← hr]
        exact Draft.takes_function h hread hhost hx hk
      | var =>
        rw [Token.isVariable, decide_eq_true hk, if_pos rfl] at hx
        exact Draft.takes_assignment h hread hhost c.reader (lexemes rest) hx hk
      | constant | operator =>
        have htakes := Draft.takes_other h hread hhost (alone (by rw [hk]; nofun)) (by rw [hk]; nofun)
          (by rw [hk]; nofun)
        rwa [Token.isUnknown, hk] at htakes

end Compiler

end NpcScript
