/-! # The game that a script is compiled for

A quoted word of a script is a message or the name of an asset. What number it
stands for is decided by the game: it looks assets up and collects messages.
`Host` is this service with any state of its own; `MessageTable` and
`AssetTable` are the usual one. -/
namespace NpcScript

/-- A service over a state: an asset's slot, if there is such an asset, and a
message's index. -/
structure Host (σ : Type) where
  asset : String → σ → Option Int32 × σ
  message : String → σ → Int32 × σ

/-- Distinct messages in the order of their first registration. -/
structure MessageTable where
  messages : Array String := #[]
  deriving DecidableEq, Repr

namespace MessageTable

def size (t : MessageTable) : Nat := t.messages.size

def isEmpty (t : MessageTable) : Bool := t.messages.isEmpty

/-- The message with an index; none for a negative one. -/
def get? (t : MessageTable) (index : Int32) : Option String :=
  if index.toInt < 0 then none else t.messages[index.toInt.toNat]?

/-- A known text keeps its index, a new one takes the next. -/
def register (t : MessageTable) (text : String) : Int32 × MessageTable :=
  match t.messages.findIdx? (· = text) with
  | some i => (Int32.ofNat i, t)
  | none => (Int32.ofNat t.messages.size, ⟨t.messages.push text⟩)

end MessageTable

/-- Slots by name; the last insertion of a name counts. -/
structure AssetTable where
  slots : List (String × Int32) := []
  deriving DecidableEq, Repr

namespace AssetTable

def resolve (t : AssetTable) (name : String) : Option Int32 := t.slots.lookup name

def insert (t : AssetTable) (name : String) (slot : Int32) : AssetTable :=
  ⟨(name, slot) :: t.slots⟩

@[simp]
theorem resolve_insert (t : AssetTable) (name other : String) (slot : Int32) :
    (t.insert name slot).resolve other = if other = name then some slot else t.resolve other := by
  by_cases h : other = name
  · simp [resolve, insert, h]
  · have hb : (other == name) = false := by simpa using h
    simp [resolve, insert, List.lookup_cons, h, hb]

end AssetTable

namespace Host

/-- The usual host: fixed assets, and a message table as its state. -/
def ofTables (assets : AssetTable) : Host MessageTable where
  asset name messages := (assets.resolve name, messages)
  message text messages := messages.register text

end Host

end NpcScript
