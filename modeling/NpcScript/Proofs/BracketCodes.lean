import Mathlib.Data.List.Basic
import NpcScript.Proofs.Meaning
import NpcScript.Proofs.TextFiles

/-! # Bracket codes

A code is what stands in square brackets if it has four bytes. Brackets are bytes
of their own, so they are the first and the last character of the word, but four
bytes need not be four characters: a code with other letters than those of ASCII
has fewer, and four such letters are no code. For letters of ASCII the two counts
agree, and the value is the packed number of the letters. -/
namespace NpcScript
open NpcScript.Text

namespace Text

/-! ## Bytes that are characters -/

theorem le_toNat_ofNat {n : Nat} (h : 0x80 ≤ n) (h' : n < 0x100) : 0x80 ≤ (UInt8.ofNat n).toNat := by
  rw [UInt8.toNat_ofNat_of_lt' h']
  exact h

/-- A character is one byte below 0x80, or all of its bytes are from there on. -/
theorem utf8EncodeChar_cases (c : Char) :
    (c.toNat < 0x80 ∧ String.utf8EncodeChar c = [UInt8.ofNat c.toNat]) ∨
      0x80 ≤ c.toNat ∧ ∀ b ∈ String.utf8EncodeChar c, 0x80 ≤ b.toNat := by
  unfold String.utf8EncodeChar
  have hv : c.val.toNat = c.toNat := rfl
  rw [hv]
  dsimp only
  split
  · exact .inl ⟨by omega, rfl⟩
  · refine .inr ⟨by omega, fun b hb => ?_⟩
    split at hb
    · simp only [List.mem_cons, List.not_mem_nil, or_false] at hb
      rcases hb with rfl | rfl <;> exact le_toNat_ofNat (by omega) (by omega)
    · split at hb
      · simp only [List.mem_cons, List.not_mem_nil, or_false] at hb
        rcases hb with rfl | rfl | rfl <;> exact le_toNat_ofNat (by omega) (by omega)
      · simp only [List.mem_cons, List.not_mem_nil, or_false] at hb
        rcases hb with rfl | rfl | rfl | rfl <;> exact le_toNat_ofNat (by omega) (by omega)

/-- A byte below 0x80 is a whole character. -/
theorem eq_of_mem_utf8EncodeChar {c : Char} {b : UInt8} (hb : b.toNat < 0x80)
    (h : b ∈ String.utf8EncodeChar c) : c = Char.ofNat b.toNat ∧ String.utf8EncodeChar c = [b] := by
  rcases utf8EncodeChar_cases c with ⟨hlow, hone⟩ | ⟨_, hall⟩
  · rw [hone, List.mem_singleton] at h
    have hbyte : b.toNat = c.toNat := by
      rw [h]
      exact UInt8.toNat_ofNat_of_lt' (show c.toNat < 256 by omega)
    exact ⟨by rw [hbyte, Char.ofNat_toNat], by rw [hone, h]⟩
  · have := hall b h
    omega

theorem encode_append (xs ys : List Char) : encode (xs ++ ys) = encode xs ++ encode ys :=
  List.flatMap_append

section

variable {cs : List Char} {b : UInt8} {rest : List UInt8} (hb : b.toNat < 0x80)
include hb

theorem exists_of_encode_cons (h : encode cs = b :: rest) :
    ∃ tail, cs = Char.ofNat b.toNat :: tail ∧ encode tail = rest := by
  cases cs with
  | nil => cases h
  | cons c cs =>
    rw [encode_cons] at h
    have hmem : b ∈ String.utf8EncodeChar c := by
      obtain ⟨b', bs, hc⟩ := List.exists_cons_of_ne_nil (String.utf8EncodeChar_ne_nil (c := c))
      rw [hc, List.cons_append] at h
      rw [hc, (List.cons.inj h).1]
      exact List.mem_cons_self
    obtain ⟨rfl, hone⟩ := eq_of_mem_utf8EncodeChar hb hmem
    rw [hone, List.singleton_append] at h
    exact ⟨cs, rfl, (List.cons.inj h).2⟩

theorem exists_of_encode_concat (h : encode cs = rest ++ [b]) :
    ∃ init, cs = init ++ [Char.ofNat b.toNat] ∧ encode init = rest := by
  rcases List.eq_nil_or_concat cs with rfl | ⟨init, c, rfl⟩
  · exact absurd h (by simp [encode])
  · have hnil : encode [] = [] := rfl
    rw [List.concat_eq_append, encode_append, encode_cons, hnil, List.append_nil] at h
    have hmem : b ∈ String.utf8EncodeChar c := by
      have hlast := congrArg List.getLast? h
      rw [List.getLast?_append, List.getLast?_eq_some_getLast String.utf8EncodeChar_ne_nil, Option.some_or,
        List.getLast?_concat, Option.some.injEq] at hlast
      rw [← hlast]
      exact List.getLast_mem _
    obtain ⟨rfl, hone⟩ := eq_of_mem_utf8EncodeChar hb hmem
    rw [hone] at h
    exact ⟨init, List.concat_eq_append, List.append_cancel_right h⟩

end

/-- Text has as many bytes as characters exactly if all of it is ASCII. -/
theorem byteLength_eq_length_iff (cs : List Char) :
    byteLength cs = cs.length ↔ ∀ c ∈ cs, c.toNat < 0x80 := by
  have hle (cs : List Char) : cs.length ≤ byteLength cs := by
    induction cs with
    | nil => exact Nat.le_refl 0
    | cons c cs ih =>
      have := c.utf8Size_pos
      rw [byteLength_cons, List.length_cons]
      omega
  induction cs with
  | nil => simp
  | cons c cs ih =>
    have hone : c.utf8Size = 1 ↔ c.toNat < 0x80 := by
      rw [Char.utf8Size_eq_one_iff, UInt32.le_iff_toNat_le]
      exact Nat.lt_succ_iff.symm
    have hpos := c.utf8Size_pos
    have hrest := hle cs
    rw [List.forall_mem_cons, byteLength_cons, List.length_cons]
    refine Iff.trans ?_ (and_congr hone ih)
    omega

/-- Each ASCII character is its own byte. -/
theorem encode_of_ascii {cs : List Char} (h : ∀ c ∈ cs, c.toNat < 0x80) :
    encode cs = cs.map fun c => UInt8.ofNat c.toNat := by
  induction cs with
  | nil => rfl
  | cons c cs ih =>
    obtain ⟨hc, hcs⟩ := List.forall_mem_cons.1 h
    rcases utf8EncodeChar_cases c with ⟨_, hone⟩ | ⟨hge, _⟩
    · rw [encode_cons, hone, ih hcs, List.singleton_append, List.map_cons]
    · omega

end Text

/-! ## Packed letters -/

/-- Five bits of the distance from the letter A, which may be below zero. -/
def letterBits (n : UInt32) : Nat := ((n - 65) &&& 31).toNat

/-- Four letters in twenty bits, the first on top. -/
def packLetters (a b c d : UInt32) : Nat :=
  letterBits a <<< 15 ||| letterBits b <<< 10 ||| letterBits c <<< 5 ||| letterBits d

theorem letterBits_eq (n : UInt32) : letterBits n = (n.toNat + 31) % 32 := by
  have hmask : ((n - 65) &&& 31).toNat = (n - 65).toNat % 32 := by
    rw [UInt32.toNat_and]
    exact Nat.and_two_pow_sub_one_eq_mod _ 5
  have hlt := n.toNat_lt
  rw [letterBits, hmask, UInt32.toNat_sub]
  have h65 : (65 : UInt32).toNat = 65 := rfl
  rw [h65]
  omega

/-- One letter more, under those that are packed. -/
theorem shiftLeft_or_letter (n x k : Nat) (hx : x < 32) :
    n <<< (k + 5) ||| x <<< k = (n * 32 + x) <<< k := by
  have hor : n <<< 5 ||| x = n * 32 + x := by
    rw [← Nat.shiftLeft_add_eq_or_of_lt hx, Nat.shiftLeft_eq]
  rw [Nat.add_comm k 5, Nat.shiftLeft_add, ← Nat.shiftLeft_or_distrib, hor]

/-- Bytes are packed as letters are. -/
theorem packCode_eq (a b c d : UInt8) :
    packCode [a, b, c, d] = packLetters a.toUInt32 b.toUInt32 c.toUInt32 d.toUInt32 := by
  have hbits (x : UInt8) : letterBits x.toUInt32 = (x.toNat + 31) % 32 := by
    rw [letterBits_eq, UInt8.toNat_toUInt32]
  have hlt (x : UInt8) : (x.toNat + 31) % 32 < 32 := Nat.mod_lt _ (by decide)
  have hlast := shiftLeft_or_letter (((a.toNat + 31) % 32 * 32 + (b.toNat + 31) % 32) * 32 + (c.toNat + 31) % 32)
    ((d.toNat + 31) % 32) 0 (hlt d)
  rw [Nat.shiftLeft_zero, Nat.shiftLeft_zero, Nat.zero_add] at hlast
  rw [packLetters, hbits, hbits, hbits, hbits, shiftLeft_or_letter _ _ 10 (hlt b),
    shiftLeft_or_letter _ _ 5 (hlt c), hlast]
  simp [packCode]

/-- Four times five bits are packed. -/
theorem packCode_lt (a b c d : UInt8) : packCode [a, b, c, d] < 0x100000 := by
  simp only [packCode, List.foldl_cons, List.foldl_nil]
  omega

/-! ## Words in brackets -/

theorem exists_four {α : Type} {xs : List α} (h : xs.length = 4) : ∃ a b c d, xs = [a, b, c, d] := by
  obtain ⟨a, rest, rfl⟩ := List.exists_cons_of_length_eq_add_one h
  obtain ⟨b, c, d, rfl⟩ := List.length_eq_three.1 (Nat.succ.inj h)
  exact ⟨a, b, c, d, rfl⟩

namespace WordForm

variable {word : List Char} {bytes : List UInt8}

/-- The brackets of a code are its first and its last character. -/
theorem bracketed?_iff_inner :
    bracketed? word = some bytes ↔
      ∃ inner, word = '[' :: (inner ++ [']']) ∧ encode inner = bytes ∧ byteLength inner = 4 := by
  constructor
  · intro h
    obtain ⟨a, b, c, d, rfl, he⟩ := bracketed?_eq_some_iff.1 h
    obtain ⟨tail, rfl, htail⟩ := exists_of_encode_cons (by decide) he
    have hlast : encode tail = [a, b, c, d] ++ [0x5D] := htail
    obtain ⟨inner, rfl, hinner⟩ := exists_of_encode_concat (by decide) hlast
    exact ⟨inner, rfl, hinner, by rw [← length_encode, hinner]; rfl⟩
  · rintro ⟨inner, rfl, rfl, hlen⟩
    rw [← length_encode] at hlen
    obtain ⟨a, b, c, d, hinner⟩ := exists_four hlen
    refine bracketed?_eq_some_iff.2 ⟨a, b, c, d, hinner, ?_⟩
    rw [encode_cons, encode_append, hinner]
    rfl

theorem ofWord_eq_code_iff : ofWord word = .code bytes ↔ bracketed? word = some bytes := by
  constructor
  · intro h
    unfold ofWord at h
    split at h
    · cases h
    · cases hb : bracketed? word with
      | some bytes' =>
        rw [hb] at h
        rw [code.inj h]
      | none =>
        rw [hb] at h
        dsimp only at h
        split at h
        · cases h
        · unfold ofQuoted at h
          split at h <;> cases h
        · cases h
  · intro h
    obtain ⟨inner, rfl, _, _⟩ := bracketed?_iff_inner.1 h
    unfold ofWord
    have hdigits : (!('[' :: (inner ++ [']'])).isEmpty && ('[' :: (inner ++ [']'])).all Char.isDigit) = false :=
      rfl
    rw [hdigits, if_neg Bool.false_ne_true, h]

/-- A word is read as a code. -/
def IsCode (word : List Char) : Prop := ∃ bytes, ofWord word = .code bytes

theorem isCode_iff : IsCode word ↔ ∃ inner, word = '[' :: (inner ++ [']']) ∧ byteLength inner = 4 := by
  simp only [IsCode, ofWord_eq_code_iff, bracketed?_iff_inner]
  constructor
  · rintro ⟨_, inner, hword, _, hlen⟩
    exact ⟨inner, hword, hlen⟩
  · rintro ⟨inner, hword, hlen⟩
    exact ⟨_, inner, hword, rfl, hlen⟩

/-- Characters may be counted in place of bytes exactly if a word with four of
either in its brackets is all ASCII. -/
theorem isCode_iff_four_iff :
    (IsCode word ↔ ∃ inner, word = '[' :: (inner ++ [']']) ∧ inner.length = 4) ↔
      ∀ inner, word = '[' :: (inner ++ [']']) → byteLength inner = 4 ∨ inner.length = 4 →
        ∀ c ∈ inner, c.toNat < 0x80 := by
  rw [isCode_iff]
  by_cases hword : ∃ inner, word = '[' :: (inner ++ [']'])
  · obtain ⟨inner, rfl⟩ := hword
    simp only [List.cons.injEq, List.append_cancel_right_eq, true_and, exists_eq_left', forall_eq',
      ← byteLength_eq_length_iff]
    omega
  · have hnone (p : List Char → Prop) : ¬ ∃ inner, word = '[' :: (inner ++ [']']) ∧ p inner := by
      rintro ⟨inner, he, _⟩
      exact hword ⟨inner, he⟩
    exact iff_of_true (iff_of_false (hnone _) (hnone _)) fun inner he => absurd ⟨inner, he⟩ hword

theorem exists_four_iff :
    (∃ a b c d, word = ['[', a, b, c, d, ']']) ↔
      ∃ inner, word = '[' :: (inner ++ [']']) ∧ inner.length = 4 := by
  constructor
  · rintro ⟨a, b, c, d, rfl⟩
    exact ⟨[a, b, c, d], rfl, rfl⟩
  · rintro ⟨inner, rfl, hlen⟩
    obtain ⟨a, b, c, d, rfl⟩ := exists_four hlen
    exact ⟨a, b, c, d, rfl⟩

end WordForm

/-- Four letters that take a byte each are packed by their own numbers. -/
theorem packCode_encode_of_letters {a b c d : Char} (h : byteLength [a, b, c, d] = 4) :
    packCode (encode [a, b, c, d]) = packLetters a.val b.val c.val d.val := by
  have hascii := (byteLength_eq_length_iff [a, b, c, d]).1 h
  have hbits {x : Char} (hx : x ∈ [a, b, c, d]) :
      letterBits (UInt8.ofNat x.toNat).toUInt32 = letterBits x.val := by
    have hbyte : (UInt8.ofNat x.toNat).toNat = x.toNat :=
      UInt8.toNat_ofNat_of_lt' (Nat.lt_trans (hascii x hx) (by decide))
    rw [letterBits_eq, letterBits_eq, UInt8.toNat_toUInt32, hbyte]
    rfl
  rw [encode_of_ascii hascii]
  simp only [List.map_cons, List.map_nil, packCode_eq, packLetters]
  rw [hbits (by simp), hbits (by simp), hbits (by simp), hbits (by simp)]

namespace Reader

variable {σ : Type} (r : Reader σ) (line : LineNumber) (s : σ)

/-- **A code has four bytes in its brackets.** Such a word is a constant of twenty
bits, and nothing is reported. The value packs the bytes, which are the letters if
these are four. That four letters make a code is so exactly if a word with four
letters or four bytes in its brackets has no letter of more bytes. -/
theorem classify_code (word : List Char) :
    (WordForm.IsCode word ↔ ∃ inner, word = '[' :: (inner ++ [']']) ∧ byteLength inner = 4) ∧
    (∀ inner, word = '[' :: (inner ++ [']']) → byteLength inner = 4 →
      ∃ value, r.classify line s word = ⟨.constant (String.ofList word) value line, [], s⟩ ∧
        0 ≤ value.toInt ∧ value.toInt < 0x100000 ∧
        (∃ a b c d, encode inner = [a, b, c, d] ∧
          value.toInt = packLetters a.toUInt32 b.toUInt32 c.toUInt32 d.toUInt32) ∧
        ∀ a b c d, inner = [a, b, c, d] → value.toInt = packLetters a.val b.val c.val d.val) ∧
    ((WordForm.IsCode word ↔ ∃ a b c d, word = ['[', a, b, c, d, ']']) ↔
      ∀ inner, word = '[' :: (inner ++ [']']) → byteLength inner = 4 ∨ inner.length = 4 →
        ∀ c ∈ inner, c.toNat < 0x80) := by
  refine ⟨WordForm.isCode_iff, fun inner hword hlen => ?_, ?_⟩
  · have hform : WordForm.ofWord word = .code (encode inner) :=
      WordForm.ofWord_eq_code_iff.2 (WordForm.bracketed?_iff_inner.2 ⟨inner, hword, rfl, hlen⟩)
    obtain ⟨a, b, c, d, hbytes⟩ := exists_four ((length_encode inner).trans hlen)
    have hlt : packCode (encode inner) < 0x100000 := by
      rw [hbytes]
      exact packCode_lt a b c d
    have hvalue : (Int32.ofNat (packCode (encode inner))).toInt = packCode (encode inner) :=
      Int32.toInt_ofNat_of_lt (by omega)
    refine ⟨Int32.ofNat (packCode (encode inner)), ?_, ?_, ?_, ⟨a, b, c, d, hbytes, ?_⟩, ?_⟩
    · rw [classify, hform]
    · omega
    · omega
    · rw [hvalue, hbytes, packCode_eq]
    · rintro a b c d rfl
      rw [hvalue, packCode_encode_of_letters hlen]
  · rw [WordForm.exists_four_iff, WordForm.isCode_iff_four_iff]

/-- Two letters of two bytes are taken as a code, and four letters of which one
has two bytes are not. -/
theorem code_of_two_letters :
    let r : Reader MessageTable := ⟨.ofList [], Host.ofTables ⟨[]⟩, 63⟩
    r.classify 1 {} "[éé]".toList = ⟨.constant "[éé]" 73800 1, [], {}⟩ ∧
      (¬ ∃ a b c d, "[éé]".toList = ['[', a, b, c, d, ']']) ∧
      r.classify 1 {} ['[', 'É', 'd', 'e', 'n', ']'] =
        ⟨.unknown "[Éden]" 1, [.unknownOpcode "[Éden]"], {}⟩ := by
  refine ⟨rfl, ?_, rfl⟩
  rintro ⟨a, b, c, d, h⟩
  exact absurd (congrArg List.length h) (show (4 : Nat) ≠ 6 by decide)

end Reader

end NpcScript
