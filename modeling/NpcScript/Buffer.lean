import NpcScript.Diagnostic

/-! # Bounded buffers

A buffer takes items at its end until it is full, and refuses the next one. -/
namespace NpcScript

structure Buffer (α : Type) where
  /-- What is said when an item is refused. -/
  message : String
  limit : Nat
  items : Array α := #[]
  size_le : items.size ≤ limit := by simp

namespace Buffer

variable {α : Type}

def size (b : Buffer α) : Nat := b.items.size

def isEmpty (b : Buffer α) : Bool := b.items.isEmpty

def isFull (b : Buffer α) : Bool := decide (b.limit ≤ b.size)

def get? (b : Buffer α) (i : Nat) : Option α := b.items[i]?

def overflow (b : Buffer α) : Diagnostic := .bufferFull b.message b.limit

/-- Add an item to a buffer with room; its address is the old size. -/
def push (b : Buffer α) (a : α) (room : b.isFull = false) : Buffer α :=
  { b with
    items := b.items.push a
    size_le := by
      have h : ¬ b.limit ≤ b.items.size := of_decide_eq_false room
      rw [Array.size_push]
      omega }

/-- Replace an item; nothing happens past the end. -/
def set (b : Buffer α) (i : Nat) (a : α) : Buffer α :=
  { b with
    items := b.items.setIfInBounds i a
    size_le := by simpa using b.size_le }

def toList (b : Buffer α) : List α := b.items.toList

def inspect [ToString α] (b : Buffer α) : String :=
  "[" ++ ", ".intercalate (b.toList.map toString) ++ "]"

@[simp]
theorem toList_push (b : Buffer α) (a : α) (room : b.isFull = false) :
    (b.push a room).toList = b.toList ++ [a] := by simp [push, toList]

@[simp]
theorem limit_push (b : Buffer α) (a : α) (room : b.isFull = false) :
    (b.push a room).limit = b.limit := rfl

@[simp]
theorem toList_set (b : Buffer α) (i : Nat) (a : α) : (b.set i a).toList = b.toList.set i a := by
  simp [set, toList]

@[simp]
theorem limit_set (b : Buffer α) (i : Nat) (a : α) : (b.set i a).limit = b.limit := rfl

end Buffer

end NpcScript
