import NpcScript.Text.Split
import NpcScript.Text.Utf8

/-! # Text in files

The content of a text file can be read again: the bytes of a text decode to the
text, and lines that hold no line feed are found again between line feeds. -/
namespace NpcScript
open NpcScript.Text

namespace Text

variable {index : Nat} {text : List Char} {b : UInt8} {rest : List UInt8} {s : OpenSequence}

/-! ## Bytes -/

theorem encode_cons (c : Char) (cs : List Char) :
    encode (c :: cs) = String.utf8EncodeChar c ++ encode cs := List.flatMap_cons

theorem length_encode (cs : List Char) : (encode cs).length = byteLength cs := by
  induction cs with
  | nil => rfl
  | cons c cs ih => rw [encode_cons, List.length_append, String.length_utf8EncodeChar, ih, byteLength_cons]

theorem decodeFrom_lead (hb : 0x80 ≤ b.toNat) (hs : OpenSequence.ofLead? index b.toNat = some s) :
    decodeFrom index text none (b :: rest) = decodeFrom (index + 1) text (some s) rest := by
  rw [decodeFrom, if_neg (by omega), hs]

theorem decodeFrom_more (hlow : s.low ≤ b.toNat) (hhigh : b.toNat ≤ s.high) (hm : 1 < s.missing) :
    decodeFrom index text (some s) (b :: rest) =
      decodeFrom (index + 1) text
        (some ⟨s.start, s.seen + 1, s.missing - 1, s.value * 64 + (b.toNat - 0x80), 0x80, 0xBF⟩) rest := by
  rw [decodeFrom, if_pos ⟨hlow, hhigh⟩]
  exact if_neg (by omega)

theorem decodeFrom_last (hlow : s.low ≤ b.toNat) (hhigh : b.toNat ≤ s.high) (hm : s.missing ≤ 1) :
    decodeFrom index text (some s) (b :: rest) =
      decodeFrom (index + 1) (Char.ofNat (s.value * 64 + (b.toNat - 0x80)) :: text) none rest := by
  rw [decodeFrom, if_pos ⟨hlow, hhigh⟩]
  exact if_pos hm

theorem toNat_continuation (n : Nat) : (UInt8.ofNat (n % 64 + 0x80)).toNat = n % 64 + 0x80 :=
  UInt8.toNat_ofNat_of_lt' (show n % 64 + 0x80 < 256 by omega)

section

variable {v : Nat} (index : Nat) (text : List Char) (rest : List UInt8)

theorem decodeFrom_two (hlow : 0x80 ≤ v) (hhigh : v ≤ 0x7FF) :
    decodeFrom index text none (UInt8.ofNat (v / 64 % 32 + 0xC0) :: UInt8.ofNat (v % 64 + 0x80) :: rest) =
      decodeFrom (index + 2) (Char.ofNat v :: text) none rest := by
  have h0 : (UInt8.ofNat (v / 64 % 32 + 0xC0)).toNat = v / 64 + 0xC0 := by
    rw [UInt8.toNat_ofNat_of_lt' (show v / 64 % 32 + 0xC0 < 256 by omega)]
    omega
  have h1 := toNat_continuation v
  have hs : OpenSequence.ofLead? index (v / 64 + 0xC0) = some ⟨index, 1, 1, v / 64, 0x80, 0xBF⟩ := by
    rw [OpenSequence.ofLead?, if_pos (by omega), Nat.add_sub_cancel]
  have hv : v / 64 * 64 + (v % 64 + 0x80 - 0x80) = v := by omega
  rw [decodeFrom_lead (by omega) (by rw [h0]; exact hs),
    decodeFrom_last (by rw [h1]; simp) (by rw [h1]; simp; omega) (by simp), h1, hv]

/-- The lead of three bytes, with the bounds that it sets to the second. -/
theorem ofLead?_three {a : Nat} (ha : a < 16) :
    OpenSequence.ofLead? index (a + 0xE0) = some ⟨index, 1, 2, a,
      if a = 0 then 0xA0 else 0x80, if a = 0xD then 0x9F else 0xBF⟩ := by
  rw [OpenSequence.ofLead?, if_neg (by omega)]
  by_cases h0 : a = 0
  · simp [h0]
  · by_cases hd : a = 0xD
    · simp [hd]
    · rw [if_neg (by omega), if_neg (by omega), if_pos (by omega), if_neg h0, if_neg hd,
        Nat.add_sub_cancel]

theorem decodeFrom_three (hlow : 0x800 ≤ v) (hhigh : v ≤ 0xFFFF) (hv : v < 0xD800 ∨ 0xDFFF < v) :
    decodeFrom index text none (UInt8.ofNat (v / 4096 % 16 + 0xE0) ::
        UInt8.ofNat (v / 64 % 64 + 0x80) :: UInt8.ofNat (v % 64 + 0x80) :: rest) =
      decodeFrom (index + 3) (Char.ofNat v :: text) none rest := by
  have h0 : (UInt8.ofNat (v / 4096 % 16 + 0xE0)).toNat = v / 4096 + 0xE0 := by
    rw [UInt8.toNat_ofNat_of_lt' (show v / 4096 % 16 + 0xE0 < 256 by omega)]
    omega
  have h1 := toNat_continuation (v / 64)
  have h2 := toNat_continuation v
  have hs := ofLead?_three index (a := v / 4096) (by omega)
  have hv : (v / 4096 * 64 + (v / 64 % 64 + 0x80 - 0x80)) * 64 + (v % 64 + 0x80 - 0x80) = v := by omega
  rw [decodeFrom_lead (by omega) (by rw [h0]; exact hs),
    decodeFrom_more (by rw [h1]; dsimp only; split <;> omega) (by rw [h1]; dsimp only; split <;> omega)
      (by simp),
    decodeFrom_last (by rw [h2]; simp) (by rw [h2]; simp; omega) (by simp), h1, h2, hv]

/-- The lead of four bytes, with the bounds that it sets to the second. -/
theorem ofLead?_four {a : Nat} (ha : a ≤ 4) :
    OpenSequence.ofLead? index (a + 0xF0) = some ⟨index, 1, 3, a,
      if a = 0 then 0x90 else 0x80, if a = 4 then 0x8F else 0xBF⟩ := by
  rw [OpenSequence.ofLead?, if_neg (by omega), if_neg (by omega), if_neg (by omega), if_neg (by omega)]
  by_cases h0 : a = 0
  · simp [h0]
  · by_cases h4 : a = 4
    · simp [h4]
    · rw [if_neg (by omega), if_pos (by omega), if_neg h0, if_neg h4, Nat.add_sub_cancel]

theorem decodeFrom_four (hlow : 0x10000 ≤ v) (hhigh : v < 0x110000) :
    decodeFrom index text none (UInt8.ofNat (v / 262144 % 8 + 0xF0) ::
        UInt8.ofNat (v / 4096 % 64 + 0x80) :: UInt8.ofNat (v / 64 % 64 + 0x80) ::
        UInt8.ofNat (v % 64 + 0x80) :: rest) =
      decodeFrom (index + 4) (Char.ofNat v :: text) none rest := by
  have h0 : (UInt8.ofNat (v / 262144 % 8 + 0xF0)).toNat = v / 262144 + 0xF0 := by
    rw [UInt8.toNat_ofNat_of_lt' (show v / 262144 % 8 + 0xF0 < 256 by omega)]
    omega
  have h1 := toNat_continuation (v / 4096)
  have h2 := toNat_continuation (v / 64)
  have h3 := toNat_continuation v
  have hs := ofLead?_four index (a := v / 262144) (by omega)
  have hv : ((v / 262144 * 64 + (v / 4096 % 64 + 0x80 - 0x80)) * 64 + (v / 64 % 64 + 0x80 - 0x80)) * 64 +
      (v % 64 + 0x80 - 0x80) = v := by omega
  rw [decodeFrom_lead (by omega) (by rw [h0]; exact hs),
    decodeFrom_more (by rw [h1]; dsimp only; split <;> omega) (by rw [h1]; dsimp only; split <;> omega)
      (by simp),
    decodeFrom_more (by rw [h2]; simp) (by rw [h2]; simp; omega) (by simp),
    decodeFrom_last (by rw [h3]; simp) (by rw [h3]; simp; omega) (by simp), h1, h2, h3, hv]

/-- The bytes of a character decode to it, whatever follows. -/
theorem decodeFrom_char (c : Char) :
    ∃ next, decodeFrom index text none (String.utf8EncodeChar c ++ rest) =
      decodeFrom next (c :: text) none rest := by
  have hchar : Char.ofNat c.val.toNat = c := Char.ofNat_toNat c
  have hvalid : c.val.toNat < 0xD800 ∨ 0xDFFF < c.val.toNat ∧ c.val.toNat < 0x110000 := c.valid
  unfold String.utf8EncodeChar
  generalize c.val.toNat = v at hchar hvalid
  subst hchar
  dsimp only
  split
  · have hb : (UInt8.ofNat v).toNat = v := UInt8.toNat_ofNat_of_lt' (show v < 256 by omega)
    exact ⟨index + 1, by rw [List.singleton_append, decodeFrom, if_pos (by omega), hb]⟩
  · split
    · exact ⟨_, decodeFrom_two index text rest (by omega) (by omega)⟩
    · split
      · exact ⟨_, decodeFrom_three index text rest (by omega) (by omega) (by omega)⟩
      · exact ⟨_, decodeFrom_four index text rest (by omega) (by omega)⟩

end

/-- Every text is found again in its bytes. -/
theorem decode_encode (cs : List Char) : decode (encode cs) = ⟨cs, none⟩ := by
  suffices h : ∀ index text, decodeFrom index text none (encode cs) = ⟨text.reverse ++ cs, none⟩ from
    h 0 []
  induction cs with
  | nil =>
    intro index text
    rw [List.append_nil]
    rfl
  | cons c cs ih =>
    intro index text
    obtain ⟨next, hnext⟩ := decodeFrom_char index text (encode cs) c
    rw [encode_cons, hnext, ih, List.reverse_cons, List.append_assoc, List.singleton_append]

/-! ## Lines -/

theorem splitFrom_append {sep : Char} {xs : List Char} (h : sep ∉ xs) (pieces : List (List Char))
    (piece rest : List Char) :
    splitFrom sep pieces piece (xs ++ sep :: rest) =
      splitFrom sep ((piece.reverse ++ xs) :: pieces) [] rest := by
  induction xs generalizing piece with
  | nil => rw [List.nil_append, splitFrom, if_pos rfl, List.append_nil]
  | cons x xs ih =>
    rw [List.cons_append, splitFrom, if_neg (List.ne_of_not_mem_cons h).symm,
      ih (List.not_mem_of_not_mem_cons h), List.reverse_cons, List.append_assoc, List.singleton_append]

/-- Lines that each end with a separator are found again, and nothing is behind
the last separator. -/
theorem splitAtChar_flatMap {sep : Char} {lines : List (List Char)} (h : ∀ line ∈ lines, sep ∉ line) :
    splitAtChar sep (lines.flatMap (· ++ [sep])) = lines ++ [[]] := by
  suffices key : ∀ pieces, splitFrom sep pieces [] (lines.flatMap (· ++ [sep])) =
      pieces.reverse ++ (lines ++ [[]]) from key []
  induction lines with
  | nil => intro pieces; simp [splitFrom]
  | cons line lines ih =>
    obtain ⟨hline, hlines⟩ := List.forall_mem_cons.1 h
    intro pieces
    rw [List.flatMap_cons, List.append_assoc, List.singleton_append, splitFrom_append hline,
      ih hlines, List.reverse_cons, List.append_assoc]
    rfl

end Text

end NpcScript
