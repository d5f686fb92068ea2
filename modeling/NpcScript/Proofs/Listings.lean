import NpcScript.Proofs.Layout
import NpcScript.Proofs.PlainText
import NpcScript.Script.Listing

/-! # Listings as sources

A line of a listing is a line of a source between an address and, for a function,
a jump. `sourceLine` takes these away, and what is left are words with one space
between them. -/
namespace NpcScript

/-- A listed line without its address, and without the jump of a function. -/
def Statement.sourceLine (symbols : SymbolTable) (s : Statement) : List Char :=
  let line := ((s.render symbols).toList.dropWhile (· != ' ')).drop 1
  match s.jump? with
  | some _ => ((line.reverse.dropWhile Char.isDigit).drop " -> ".length).reverse
  | none => line

/-- A listing as a source. -/
def Script.listedSource (s : Script) (symbols : SymbolTable) : List Char :=
  List.intercalate ['\n'] (s.statements.map (Statement.sourceLine symbols))

/-- The words that show an operand behind its operator. -/
def termWords (symbols : SymbolTable) (w : Word) : List (List Char) :=
  [(symbols.labelOf .operator w.operator).toList, (w.renderOperand symbols).toList]

/-- The words that show operands. A neutral operator in front is left out. -/
def operandWords (symbols : SymbolTable) : List Word → List (List Char)
  | [] => []
  | w :: ws =>
    (if w.operator = 0 then [(w.renderOperand symbols).toList] else termWords symbols w) ++
      ws.flatMap (termWords symbols)

namespace Block

/-- The first word of a block's line. -/
def headWord (symbols : SymbolTable) (b : Block) : List Char :=
  (symbols.labelOf (if b.head.flag then .function else .var) b.head.opcode).toList

/-- The words behind it. -/
def tailWords (symbols : SymbolTable) (b : Block) : List (List Char) :=
  if b.head.flag then [] else ['='] :: operandWords symbols b.operands

/-- The line that shows a block. -/
def line (symbols : SymbolTable) (b : Block) : List Char :=
  writtenLine (2 * b.head.indent) (b.headWord symbols) (b.tailWords symbols)

end Block

/-- The lines that show blocks, as a source. -/
def shownSource (symbols : SymbolTable) (bs : List Block) : List Char :=
  List.intercalate ['\n'] (bs.map (Block.line symbols))

theorem isDigit_of_mem_paddedAddress {n : Nat} {x : Char} (h : x ∈ (paddedAddress n).toList) :
    x.isDigit = true := by
  rw [paddedAddress, String.toList_ofList, List.mem_append] at h
  rcases h with h | h
  · rw [(List.mem_replicate.1 h).2]
    decide
  · exact Nat.isDigit_of_mem_toDigits (by decide) (by decide) h

theorem toList_renderOperands (symbols : SymbolTable) (operands : List Word) :
    (Statement.renderOperands symbols operands).toList = spacedWords (operandWords symbols operands) := by
  have hspace : " ".toList = [' '] := by decide
  have hlater (ws : List Word) (k : Nat) :
      (ws.zipIdx (k + 1)).flatMap (fun p => (
        (if 0 < p.2 || p.1.operator != 0 then " " ++ symbols.labelOf .operator p.1.operator else "") ++
          " " ++ p.1.renderOperand symbols).toList) =
        spacedWords (ws.flatMap (termWords symbols)) := by
    induction ws generalizing k with
    | nil => rfl
    | cons w ws ih =>
      rw [List.zipIdx_cons, List.flatMap_cons, ih]
      simp [hspace, spacedWords, termWords]
  rw [Statement.renderOperands, String.toList_join, List.flatMap_map]
  cases operands with
  | nil => rfl
  | cons w ws =>
    rw [List.zipIdx_cons, List.flatMap_cons, hlater, operandWords]
    by_cases hw : w.operator = 0
    · simp [hw, hspace, spacedWords]
    · simp [hw, hspace, spacedWords, termWords]

theorem toList_join_replicate (n : Nat) :
    (String.join (List.replicate n "  ")).toList = List.replicate (2 * n) ' ' := by
  rw [String.toList_join]
  induction n with
  | zero => rfl
  | succ n ih =>
    rw [List.replicate_succ, List.flatMap_cons, ih]
    rfl

theorem drop_address (n : Nat) (cs : List Char) :
    (((paddedAddress n).toList ++ ' ' :: cs).dropWhile (· != ' ')).drop 1 = cs := by
  have hdigits : ∀ x ∈ (paddedAddress n).toList, (x != ' ') = true := by
    intro x hx
    have hd := isDigit_of_mem_paddedAddress hx
    rw [bne_iff_ne]
    rintro rfl
    cases hd
  rw [List.dropWhile_append_of_pos hdigits]
  rfl

theorem drop_jump (n : Nat) (cs : List Char) :
    (((cs ++ (" -> " ++ paddedAddress n).toList).reverse.dropWhile Char.isDigit).drop
      " -> ".length).reverse = cs := by
  have hdigits : ∀ x ∈ (paddedAddress n).toList.reverse, x.isDigit = true := by
    intro x hx
    exact isDigit_of_mem_paddedAddress (List.mem_reverse.1 hx)
  have harrow : " -> ".toList.reverse = [' ', '>', '-', ' '] := by decide
  have hlength : " -> ".length = 4 := by decide
  rw [String.toList_append, List.reverse_append, List.reverse_append, List.append_assoc,
    List.dropWhile_append_of_pos hdigits, harrow, hlength]
  exact List.reverse_reverse cs

theorem drop_render (symbols : SymbolTable) (s : Statement) (cs : String)
    (h : s.render symbols =
      paddedAddress s.addr ++ " " ++ String.join (List.replicate s.indent "  ") ++ cs) :
    ((s.render symbols).toList.dropWhile (· != ' ')).drop 1 =
      List.replicate (2 * s.indent) ' ' ++ cs.toList := by
  have hspace : " ".toList = [' '] := by decide
  rw [h, String.toList_append, String.toList_append, String.toList_append, toList_join_replicate,
    hspace, List.append_assoc, List.append_assoc, List.singleton_append, drop_address]

/-- A statement that shows a block is listed as the line of that block. -/
theorem sourceLine_eq_line (symbols : SymbolTable) (addr : Nat) (slot : Word) (b : Block) :
    Statement.sourceLine symbols ⟨addr, b.head, some slot, b.operands⟩ = b.line symbols := by
  unfold Statement.sourceLine Block.line Block.headWord Block.tailWords writtenLine
  cases hf : b.head.flag with
  | true =>
    have hjump : Statement.jump? ⟨addr, b.head, some slot, b.operands⟩ = some slot.toNat := if_pos hf
    have hrender : Statement.render symbols ⟨addr, b.head, some slot, b.operands⟩ =
        paddedAddress addr ++ " " ++ String.join (List.replicate b.head.indent "  ") ++
          (symbols.labelOf .function b.head.opcode ++ (" -> " ++ paddedAddress slot.toNat)) := by
      rw [Statement.render, hjump]
      exact congrArg (_ ++ ·) (if_pos hf)
    rw [drop_render _ _ _ hrender, hjump]
    dsimp only
    rw [String.toList_append, ← List.append_assoc, drop_jump]
    simp [Statement.indent, spacedWords]
  | false =>
    have hjump : Statement.jump? ⟨addr, b.head, some slot, b.operands⟩ = none :=
      if_neg (by rw [Statement.isFunction, hf]; exact Bool.false_ne_true)
    have hrender : Statement.render symbols ⟨addr, b.head, some slot, b.operands⟩ =
        paddedAddress addr ++ " " ++ String.join (List.replicate b.head.indent "  ") ++
          (symbols.labelOf .var b.head.opcode ++ " =" ++
            Statement.renderOperands symbols b.operands) := by
      rw [Statement.render]
      refine congrArg (_ ++ ·) (if_neg ?_)
      rw [Statement.isFunction, hf]
      exact Bool.false_ne_true
    have hequals : " =".toList = [' ', '='] := by decide
    rw [drop_render _ _ _ hrender, hjump]
    dsimp only
    rw [String.toList_append, String.toList_append, hequals, toList_renderOperands]
    simp [Statement.indent, spacedWords_cons]

end NpcScript
