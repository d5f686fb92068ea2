/-! # Instruction words

A compiled script is a sequence of 32-bit words. A word is read in one of three
ways, and only its place tells which:

* the head of a statement: a flag, four bits of indentation, 27 bits of opcode;
* an operand: a flag, eight bits of operator, 23 bits of payload;
* a plain number: an operand count or a jump target.

Fields are taken by division and remainder, so that facts about them are facts
of arithmetic. -/
namespace NpcScript

structure Word where
  bits : UInt32 := 0
  deriving DecidableEq, Repr

namespace Word

/-- The deepest indentation that a head can hold. -/
def maxIndent : Nat := 15

/-- The operator of a first operand, which has no value before it. -/
def neutral : Int32 := 0

/-- What a field with `size` values keeps of a signed number: its remainder, so
that a value from zero up to but not `size` is kept as it is. -/
def field (size : Nat) (value : Int32) : Nat := (value.toInt % (size : Int)).toNat

theorem field_lt (size : Nat) (h : 0 < size) (value : Int32) : field size value < size := by
  have hs : (0 : Int) < size := by omega
  have h0 := Int.emod_nonneg value.toInt (Int.ne_of_gt hs)
  have h1 := Int.emod_lt_of_pos value.toInt hs
  unfold field
  omega

def ofNat (n : Nat) : Word := ⟨UInt32.ofNat n⟩

def toNat (w : Word) : Nat := w.bits.toNat

/-- The head of a statement: a function call or an assignment to a variable. -/
def head (function : Bool) (indent : Nat) (opcode : Int32) : Word :=
  ofNat (function.toNat * 0x80000000 + min indent maxIndent * 0x8000000 + field 0x8000000 opcode)

/-- An operand: a variable or a constant, under an operator. -/
def operand (isVariable : Bool) (operator payload : Int32) : Word :=
  ofNat (isVariable.toNat * 0x80000000 + field 0x100 operator * 0x800000 + field 0x800000 payload)

/-- A head's mark of a function, an operand's mark of a variable. -/
def flag (w : Word) : Bool := decide (0x80000000 ≤ w.toNat)

def indent (w : Word) : Nat := w.toNat / 0x8000000 % 0x10

def opcode (w : Word) : Nat := w.toNat % 0x8000000

def operator (w : Word) : Nat := w.toNat / 0x800000 % 0x100

def payload (w : Word) : Nat := w.toNat % 0x800000

theorem toNat_lt (w : Word) : w.toNat < 0x100000000 := w.bits.toNat_lt

/-- The four bytes of a word, lowest first. -/
def bytes (w : Word) : List UInt8 :=
  [UInt8.ofNat w.toNat, UInt8.ofNat (w.toNat / 0x100), UInt8.ofNat (w.toNat / 0x10000),
   UInt8.ofNat (w.toNat / 0x1000000)]

/-- Digits of a number in base sixteen, filled up with zeros to a width. -/
def hex (width n : Nat) : String :=
  let digits := (Nat.toDigits 16 n).map Char.toUpper
  String.ofList (List.replicate (width - digits.length) '0' ++ digits)

/-- The bits of the word marked as an instruction, for logs. -/
def inspect (w : Word) : String := "Instruction(0x" ++ hex 8 w.toNat ++ ")"

theorem toNat_ofNat {n : Nat} (h : n < 0x100000000) : (ofNat n).toNat = n := by
  simp only [toNat, ofNat, UInt32.toNat_ofNat']
  exact Nat.mod_eq_of_lt h

theorem toNat_head (function : Bool) (indent : Nat) (opcode : Int32) :
    (head function indent opcode).toNat =
      function.toNat * 0x80000000 + min indent maxIndent * 0x8000000 + field 0x8000000 opcode := by
  apply toNat_ofNat
  have hf := field_lt 0x8000000 (by decide) opcode
  have hi : min indent maxIndent ≤ 15 := Nat.min_le_right ..
  have hb := function.toNat_le
  omega

theorem toNat_operand (isVariable : Bool) (operator payload : Int32) :
    (operand isVariable operator payload).toNat =
      isVariable.toNat * 0x80000000 + field 0x100 operator * 0x800000 + field 0x800000 payload := by
  apply toNat_ofNat
  have hp := field_lt 0x800000 (by decide) payload
  have ho := field_lt 0x100 (by decide) operator
  have hb := isVariable.toNat_le
  omega

@[simp]
theorem flag_head (function : Bool) (indent : Nat) (opcode : Int32) :
    (head function indent opcode).flag = function := by
  have hf := field_lt 0x8000000 (by decide) opcode
  have hi : min indent maxIndent ≤ 15 := Nat.min_le_right ..
  simp only [flag, toNat_head]
  cases function <;> simp <;> omega

@[simp]
theorem indent_head (function : Bool) (indent : Nat) (opcode : Int32) :
    (head function indent opcode).indent = min indent maxIndent := by
  have hf := field_lt 0x8000000 (by decide) opcode
  have hi : min indent maxIndent ≤ 15 := Nat.min_le_right ..
  simp only [Word.indent, toNat_head]
  cases function <;> simp <;> omega

@[simp]
theorem opcode_head (function : Bool) (indent : Nat) (opcode : Int32) :
    (head function indent opcode).opcode = field 0x8000000 opcode := by
  have hf := field_lt 0x8000000 (by decide) opcode
  simp only [Word.opcode, toNat_head]
  omega

@[simp]
theorem flag_operand (isVariable : Bool) (operator payload : Int32) :
    (operand isVariable operator payload).flag = isVariable := by
  have hp := field_lt 0x800000 (by decide) payload
  have ho := field_lt 0x100 (by decide) operator
  simp only [flag, toNat_operand]
  cases isVariable <;> simp <;> omega

@[simp]
theorem operator_operand (isVariable : Bool) (operator payload : Int32) :
    (operand isVariable operator payload).operator = field 0x100 operator := by
  have hp := field_lt 0x800000 (by decide) payload
  have ho := field_lt 0x100 (by decide) operator
  simp only [Word.operator, toNat_operand]
  cases isVariable <;> simp <;> omega

@[simp]
theorem payload_operand (isVariable : Bool) (operator payload : Int32) :
    (operand isVariable operator payload).payload = field 0x800000 payload := by
  have hp := field_lt 0x800000 (by decide) payload
  simp only [Word.payload, toNat_operand]
  omega

end Word

end NpcScript
