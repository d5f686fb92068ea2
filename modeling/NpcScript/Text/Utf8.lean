/-! # Text measured and cut in UTF-8 bytes

Positions in a source are byte offsets, because that is what a file has. A
position is usable only on a character boundary. Reading a file goes the other
way: `decode` gives the text up to the first fault, and says where and how wide
the fault is. -/
namespace NpcScript.Text

def byteLength (cs : List Char) : Nat := cs.foldr (fun c n => c.utf8Size + n) 0

@[simp]
theorem byteLength_nil : byteLength [] = 0 := rfl

@[simp]
theorem byteLength_cons (c : Char) (cs : List Char) :
    byteLength (c :: cs) = c.utf8Size + byteLength cs := rfl

@[simp]
theorem byteLength_append (xs ys : List Char) :
    byteLength (xs ++ ys) = byteLength xs + byteLength ys := by
  induction xs with
  | nil => simp
  | cons c xs ih => simp [ih, Nat.add_assoc]

theorem byteLength_pos {cs : List Char} (h : cs ≠ []) : 0 < byteLength cs := by
  cases cs with
  | nil => exact absurd rfl h
  | cons c cs => exact Nat.add_pos_left c.utf8Size_pos _

/-- The text after its first `n` bytes; none past the end and inside a character. -/
def dropBytes? : Nat → List Char → Option (List Char)
  | 0, cs => some cs
  | _ + 1, [] => none
  | n + 1, c :: cs => if c.utf8Size ≤ n + 1 then dropBytes? (n + 1 - c.utf8Size) cs else none

theorem dropBytes?_append (xs ys : List Char) : dropBytes? (byteLength xs) (xs ++ ys) = some ys := by
  induction xs with
  | nil => simp [dropBytes?]
  | cons c xs ih =>
    obtain ⟨k, hk⟩ := Nat.exists_eq_succ_of_ne_zero (Nat.pos_iff_ne_zero.1 c.utf8Size_pos)
    have hs : byteLength (c :: xs) = (k + byteLength xs) + 1 := by simp [hk]; omega
    rw [hs, List.cons_append, dropBytes?, if_pos (by omega)]
    have : k + byteLength xs + 1 - c.utf8Size = byteLength xs := by omega
    rw [this, ih]

/-- A byte position is usable if it lies between two characters or at an end. -/
theorem dropBytes?_eq_some_iff {n : Nat} {cs rest : List Char} :
    dropBytes? n cs = some rest ↔ ∃ pre, cs = pre ++ rest ∧ byteLength pre = n := by
  constructor
  · intro h
    induction cs generalizing n with
    | nil =>
      cases n with
      | zero =>
        cases h
        exact ⟨[], rfl, rfl⟩
      | succ n => cases h
    | cons c cs ih =>
      cases n with
      | zero =>
        cases h
        exact ⟨[], rfl, rfl⟩
      | succ n =>
        rw [dropBytes?] at h
        split at h
        · obtain ⟨pre, rfl, hpre⟩ := ih h
          refine ⟨c :: pre, rfl, ?_⟩
          rw [byteLength_cons]
          omega
        · cases h
  · rintro ⟨pre, rfl, rfl⟩
    exact dropBytes?_append pre rest

/-- Characters of `cs` that fit in `n` bytes, after those already kept (last first). -/
def takeBytesFrom (kept : List Char) : Nat → List Char → List Char
  | _, [] => kept.reverse
  | n, c :: cs => if c.utf8Size ≤ n then takeBytesFrom (c :: kept) (n - c.utf8Size) cs else kept.reverse

/-- The longest prefix of at most `n` bytes. -/
def takeBytes (n : Nat) (cs : List Char) : List Char := takeBytesFrom [] n cs

def encode (cs : List Char) : List UInt8 := cs.flatMap String.utf8EncodeChar

/-- Where the bytes stop being UTF-8. A width is the number of bytes that form
the bad sequence; there is none when the bytes end inside a sequence. -/
structure Utf8Fault where
  index : Nat
  width : Option Nat
  deriving DecidableEq, Repr

def Utf8Fault.message (f : Utf8Fault) : String :=
  match f.width with
  | some width => "invalid utf-8 sequence of " ++ toString width ++ " bytes from index " ++ toString f.index
  | none => "incomplete utf-8 byte sequence from index " ++ toString f.index

/-- The text before the first fault, and the fault. -/
structure Decoded where
  text : List Char
  fault : Option Utf8Fault
  deriving DecidableEq, Repr

/-- A sequence that still lacks bytes. The next byte has to lie between `low`
and `high`: the bounds of the second byte keep out overlong forms, surrogates
and values above the last code point. -/
structure OpenSequence where
  start : Nat
  seen : Nat
  missing : Nat
  value : Nat
  low : Nat
  high : Nat

/-- The sequence that a byte from 0x80 up opens at a position. -/
def OpenSequence.ofLead? (start b : Nat) : Option OpenSequence :=
  if 0xC2 ≤ b ∧ b ≤ 0xDF then some ⟨start, 1, 1, b - 0xC0, 0x80, 0xBF⟩
  else if b = 0xE0 then some ⟨start, 1, 2, 0, 0xA0, 0xBF⟩
  else if b = 0xED then some ⟨start, 1, 2, 0xD, 0x80, 0x9F⟩
  else if 0xE1 ≤ b ∧ b ≤ 0xEF then some ⟨start, 1, 2, b - 0xE0, 0x80, 0xBF⟩
  else if b = 0xF0 then some ⟨start, 1, 3, 0, 0x90, 0xBF⟩
  else if 0xF1 ≤ b ∧ b ≤ 0xF3 then some ⟨start, 1, 3, b - 0xF0, 0x80, 0xBF⟩
  else if b = 0xF4 then some ⟨start, 1, 3, 4, 0x80, 0x8F⟩
  else none

/-- Decode the bytes from position `index` on, with the text so far (last
character first) and the sequence that is open there. -/
def decodeFrom (index : Nat) (text : List Char) : Option OpenSequence → List UInt8 → Decoded
  | none, [] => ⟨text.reverse, none⟩
  | some s, [] => ⟨text.reverse, some ⟨s.start, none⟩⟩
  | none, b :: rest =>
    if b.toNat < 0x80 then decodeFrom (index + 1) (Char.ofNat b.toNat :: text) none rest
    else match OpenSequence.ofLead? index b.toNat with
      | some s => decodeFrom (index + 1) text (some s) rest
      | none => ⟨text.reverse, some ⟨index, some 1⟩⟩
  | some s, b :: rest =>
    if s.low ≤ b.toNat ∧ b.toNat ≤ s.high then
      let value := s.value * 64 + (b.toNat - 0x80)
      if s.missing ≤ 1 then decodeFrom (index + 1) (Char.ofNat value :: text) none rest
      else decodeFrom (index + 1) text
        (some ⟨s.start, s.seen + 1, s.missing - 1, value, 0x80, 0xBF⟩) rest
    else ⟨text.reverse, some ⟨s.start, some s.seen⟩⟩

def decode (bytes : List UInt8) : Decoded := decodeFrom 0 [] none bytes

end NpcScript.Text
