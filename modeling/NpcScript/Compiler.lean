import NpcScript.Compiler.Assignment
import NpcScript.Compiler.Limits
import NpcScript.Line.Source
import NpcScript.Line.Spacing
import NpcScript.Script.Linker
import NpcScript.Symbol.Builtin

/-! # The compiler

A source is compiled line by line. Each line is a function or an assignment,
indented by two spaces for each level; the function `End` at the left margin
ends the script. Whatever is wrong, the result is a script: lines with errors
give as much code as can be made of them, and the script is always ended. -/
namespace NpcScript
open NpcScript.Text

namespace Draft

variable {σ : Type}

/-- Add a function call. It takes no arguments, so the rest of its line is
passed over. -/
def function (d : Draft σ) (target : Token) (indent : Nat) (rest : List Char) : Draft σ :=
  let d := (d.emit (.head true indent target.value)).emit (.ofNat 0)
  let rest := trim rest
  d.reportIf (!rest.isEmpty) (.trailingText target.word (String.ofList rest))

/-- The level of a number of leading spaces. -/
def indentation (d : Draft σ) (spaces : Nat) : Nat × Draft σ :=
  let d := d.reportIf (spaces % 2 != 0) (.oddIndentation spaces)
  let level := spaces / 2
  if Word.maxIndent < level then (Word.maxIndent, d.report (.tooDeep level Word.maxIndent))
  else (level, d)

end Draft

structure Compiler (σ : Type) where
  symbols : SymbolTable := .builtin
  host : Host σ
  limits : Limits := {}

/-- A script with its problems, and the host's state after it. -/
structure Compiled (σ : Type) where
  script : Script
  log : Log
  state : σ

namespace Compiler

variable {σ : Type} (c : Compiler σ)

def reader : Reader σ := ⟨c.symbols, c.host, c.limits.maxWord⟩

/-- The function that ends a script does so at the left margin only. -/
def endsScript (t : Token) (indent : Nat) : Bool :=
  indent = 0 && t.symbol.isSome && t.symbol = c.symbols.end?.bind fun s => c.symbols.indexOf? s.name

/-- Compile a spaced line, and say whether it ends the script. -/
def statement (d : Draft σ) (indent : Nat) (text : List Char) : Draft σ × Bool :=
  match Lexeme.first? text with
  | none => (d, false)
  | some (l, rest) =>
    let (t, d) := d.read c.reader l
    match t.kind with
    | some .function =>
      if c.endsScript t indent then (d, true) else (d.function t indent rest, false)
    | some .var => (d.assignment c.reader t indent (lexemes rest), false)
    | some _ => (d.report (.invalidStatement t.word), false)
    | none => (d, false)

/-- Compile a physical line, and say whether it ends the script. -/
def line (d : Draft σ) (body : List Char) : Draft σ × Bool :=
  let line := SourceLine.ofBody c.limits.maxLine body
  let d := { d with line := d.line + 1 }
  let d := d.reportIf (decide (0 < line.tabs)) (.tabs line.tabs)
  let d := d.reportIf line.truncated (.lineTooLong c.limits.maxLine)
  if line.isEmpty then (d, false)
  else
    let (indent, d) := d.indentation line.leadingSpaces
    c.statement d indent (spaceOperators line.text)

/-- Compile lines up to the one that ends the script, and say whether there is
one. -/
def lines (d : Draft σ) : List Segment → Draft σ × Bool
  | [] => (d, false)
  | s :: rest =>
    match c.line d s.body with
    | (d, true) => (d, true)
    | (d, false) => lines d rest

/-- The part of a source that is compiled. -/
def bounded (d : Draft σ) (source : List Char) : List Char × Draft σ :=
  let bytes := byteLength source
  if bytes ≤ c.limits.maxSource then (source, d)
  else
    (takeBytes c.limits.maxSource source, d.report (.sourceTooLarge bytes c.limits.maxSource))

/-- End the script. -/
def terminate (d : Draft σ) : Draft σ :=
  match c.symbols.end? with
  | some s => (d.emit (.head true 0 s.value)).emit (.ofNat 0)
  | none => d.report .noEndSymbol

/-- The draft that compiling starts from. -/
def blank (state : σ) (name : String) : Draft σ :=
  { code := { message := "INSTRUCTION BUFFER FULL", limit := c.limits.maxWords }
    log := { script := name }
    host := state }

/-- The finished draft of a source, before its jumps are known. -/
def draft (state : σ) (name : String) (source : List Char) : Draft σ :=
  let (source, d) := c.bounded (c.blank state name) source
  let (d, ended) := c.lines d (segments source)
  c.terminate (d.reportIf (!ended) .missingEnd)

def compile (state : σ) (name : String) (source : List Char) : Compiled σ :=
  let d := c.draft state name source
  { script := (Script.link { name, words := d.code.items }).1
    log := d.log
    state := d.host }

end Compiler

/-- Compile with the built-in symbols, the usual limits and no assets. -/
def compile (name : String) (source : List Char) : Compiled MessageTable :=
  Compiler.compile { host := .ofTables {} } {} name source

end NpcScript
