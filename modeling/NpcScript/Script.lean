import NpcScript.Word

/-! # Scripts

A script is a name and its words. The words form statements: a head, a slot,
and operands. A function's slot holds the address to go on at when the function
says no; a variable's slot holds the number of its operands. -/
namespace NpcScript

structure Statement where
  addr : Nat
  head : Word
  /-- Missing only if the words end right after the head. -/
  slot : Option Word
  operands : List Word
  deriving DecidableEq, Repr

/-- Addresses are numbers of 64 bits. -/
def addressSpace : Nat := 0x10000000000000000

namespace Statement

/-- The address of the slot: the one after the head's, and zero after the last
address of all. -/
def slotAddr (s : Statement) : Nat := (s.addr + 1) % addressSpace

theorem slotAddr_of_lt {s : Statement} (h : s.addr + 1 < addressSpace) :
    s.slotAddr = s.addr + 1 := Nat.mod_eq_of_lt h

def isFunction (s : Statement) : Bool := s.head.flag

def indent (s : Statement) : Nat := s.head.indent

/-- Where a function goes on when it says no. -/
def jump? (s : Statement) : Option Nat :=
  if s.isFunction then s.slot.map Word.toNat else none

end Statement

/-- Cut words at an address into statements. An operand count that is too large
takes the words that there are. -/
def statementsFrom (addr : Nat) : List Word → List Statement
  | [] => []
  | [head] => [⟨addr, head, none, []⟩]
  | head :: slot :: rest =>
    let count := if head.flag then 0 else slot.toNat
    ⟨addr, head, some slot, rest.take count⟩ :: statementsFrom (addr + 2 + count) (rest.drop count)
termination_by words => words.length
decreasing_by simp; omega

structure Script where
  name : String
  words : Array Word := #[]
  deriving DecidableEq, Repr

namespace Script

def size (s : Script) : Nat := s.words.size

def isEmpty (s : Script) : Bool := s.words.isEmpty

def get? (s : Script) (addr : Nat) : Option Word := s.words[addr]?

def statements (s : Script) : List Statement := statementsFrom 0 s.words.toList

/-- The content of a word file: each word as four bytes, lowest first. -/
def bytes (s : Script) : List UInt8 := s.words.toList.flatMap Word.bytes

/-- Put a number at an address that the script has. -/
def patch (s : Script) (addr value : Nat) : Script :=
  { s with words := s.words.setIfInBounds addr (.ofNat value) }

end Script

end NpcScript
