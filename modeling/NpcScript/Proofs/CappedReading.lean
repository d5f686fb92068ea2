import NpcScript.Command.Run
import NpcScript.Proofs.Bytecode
import NpcScript.Proofs.EarlierReports
import NpcScript.Proofs.TextFiles

/-! # Reading no more than needed

A file is read only so far that its source is seen to be too large, and this may
cut a character. The bytes of a text that are cut anywhere decode to the
characters that they hold whole, and what is behind them is an incomplete
sequence, never a wrong one. Four bytes more than a source may have are enough
for one byte too many to be left, so the compiler cuts the source where it would
have cut the whole. -/
namespace NpcScript
open NpcScript.Text

namespace Text

/-! ## Characters that fit in a number of bytes -/

theorem takeBytesFrom_eq (kept : List Char) (n : Nat) (cs : List Char) :
    takeBytesFrom kept n cs = kept.reverse ++ takeBytes n cs := by
  unfold takeBytes
  induction cs generalizing kept n with
  | nil => simp [takeBytesFrom]
  | cons c cs ih =>
    rw [takeBytesFrom, takeBytesFrom]
    split
    · rw [ih (c :: kept), ih [c]]
      simp
    · simp

theorem takeBytes_cons (n : Nat) (c : Char) (cs : List Char) :
    takeBytes n (c :: cs) = if c.utf8Size ≤ n then c :: takeBytes (n - c.utf8Size) cs else [] := by
  rw [takeBytes, takeBytesFrom]
  split
  · rw [takeBytesFrom_eq]
    rfl
  · rfl

/-- A text is cut at the last boundary between characters that is not behind so
many bytes. -/
structure IsCutAt (n : Nat) (cs cut : List Char) : Prop where
  isPrefix : cut <+: cs
  fits : byteLength cut ≤ n
  longest : ∀ p, p <+: cs → byteLength p ≤ n → p <+: cut

theorem isCutAt_takeBytes (n : Nat) (cs : List Char) : IsCutAt n cs (takeBytes n cs) := by
  induction cs generalizing n with
  | nil => exact ⟨List.prefix_rfl, Nat.zero_le n, fun p hp _ => hp⟩
  | cons c cs ih =>
    rw [takeBytes_cons]
    split
    · rename_i hc
      obtain ⟨hinitial, hfits, hlongest⟩ := ih (n - c.utf8Size)
      refine ⟨(List.prefix_cons_inj c).2 hinitial, ?_, fun p hp hn => ?_⟩
      · rw [byteLength_cons]
        omega
      · cases p with
        | nil => exact List.nil_prefix
        | cons d p =>
          obtain ⟨rfl, htail⟩ := List.cons_prefix_cons.1 hp
          rw [byteLength_cons] at hn
          exact (List.prefix_cons_inj d).2 (hlongest p htail (by omega))
    · rename_i hc
      refine ⟨List.nil_prefix, Nat.zero_le n, fun p hp hn => ?_⟩
      cases p with
      | nil => exact List.nil_prefix
      | cons d p =>
        obtain ⟨rfl, -⟩ := List.cons_prefix_cons.1 hp
        rw [byteLength_cons] at hn
        omega

namespace IsCutAt

variable {m n : Nat} {cs cut cut' : List Char}

theorem unique (h : IsCutAt n cs cut) (h' : IsCutAt n cs cut') : cut = cut' :=
  (h'.longest cut h.isPrefix h.fits).eq_of_length_le (h.longest cut' h'.isPrefix h'.fits).length_le

/-- A text that fits is not cut. -/
theorem eq_of_le (h : IsCutAt n cs cut) (hn : byteLength cs ≤ n) : cut = cs :=
  h.unique ⟨List.prefix_rfl, hn, fun _ hp _ => hp⟩

/-- A second, tighter cut is the only one that shows. -/
theorem trans (h : IsCutAt n cs cut) (h' : IsCutAt m cut cut') (hm : m ≤ n) : IsCutAt m cs cut' where
  isPrefix := h'.isPrefix.trans h.isPrefix
  fits := h'.fits
  longest p hp hb := h'.longest p (h.longest p hp (Nat.le_trans hb hm)) hb

end IsCutAt

/-- The character at the cut has at most four bytes. -/
theorem lt_byteLength_takeBytes {n : Nat} {cs : List Char} (h : n < byteLength cs) :
    n < byteLength (takeBytes n cs) + 4 := by
  induction cs generalizing n with
  | nil => exact absurd h (Nat.not_lt_zero n)
  | cons c cs ih =>
    have hsize := c.utf8Size_le_four
    rw [byteLength_cons] at h
    rw [takeBytes_cons]
    split
    · have := ih (n := n - c.utf8Size) (by omega)
      rw [byteLength_cons]
      omega
    · rw [byteLength_nil]
      omega

/-! ## Bytes of characters that are cut -/

/-- A sequence that is not closed gives no character. -/
theorem text_decodeFrom_open {bytes : List UInt8} {s : OpenSequence} (h : bytes.length < s.missing)
    (index : Nat) (text : List Char) :
    (decodeFrom index text (some s) bytes).text = text.reverse := by
  induction bytes generalizing s index with
  | nil => rfl
  | cons b bytes ih =>
    rw [List.length_cons] at h
    rw [decodeFrom]
    split
    · dsimp only
      rw [if_neg (by omega)]
      exact ih (by dsimp only; omega) _
    · rfl

/-- The first byte of a character tells how many there are. -/
theorem exists_ofLead (index : Nat) {c : Char} {b : UInt8} {bytes : List UInt8}
    (h : String.utf8EncodeChar c = b :: bytes) (hne : bytes ≠ []) :
    ∃ s, 0x80 ≤ b.toNat ∧ OpenSequence.ofLead? index b.toNat = some s ∧ s.missing = bytes.length := by
  have hvalid : c.val.toNat < 0xD800 ∨ 0xDFFF < c.val.toNat ∧ c.val.toNat < 0x110000 := c.valid
  unfold String.utf8EncodeChar at h
  generalize c.val.toNat = v at h hvalid
  dsimp only at h
  split at h
  · cases h
    exact absurd rfl hne
  · split at h
    · cases h
      have hb : (UInt8.ofNat (v / 64 % 32 + 0xC0)).toNat = v / 64 + 0xC0 := by
        rw [UInt8.toNat_ofNat_of_lt' (show v / 64 % 32 + 0xC0 < 256 by omega)]
        omega
      rw [hb, OpenSequence.ofLead?, if_pos (by omega)]
      exact ⟨_, by omega, rfl, rfl⟩
    · split at h
      · cases h
        have hb : (UInt8.ofNat (v / 4096 % 16 + 0xE0)).toNat = v / 4096 + 0xE0 := by
          rw [UInt8.toNat_ofNat_of_lt' (show v / 4096 % 16 + 0xE0 < 256 by omega)]
          omega
        rw [hb, ofLead?_three index (by omega)]
        exact ⟨_, by omega, rfl, rfl⟩
      · cases h
        have hb : (UInt8.ofNat (v / 262144 % 8 + 0xF0)).toNat = v / 262144 + 0xF0 := by
          rw [UInt8.toNat_ofNat_of_lt' (show v / 262144 % 8 + 0xF0 < 256 by omega)]
          omega
        rw [hb, ofLead?_four index (by omega)]
        exact ⟨_, by omega, rfl, rfl⟩

/-- Some but not all bytes of a character give no character. -/
theorem text_decodeFrom_part {c : Char} {n : Nat} (h : n < c.utf8Size) (index : Nat) (text : List Char) :
    (decodeFrom index text none ((String.utf8EncodeChar c).take n)).text = text.reverse := by
  have hlen := String.length_utf8EncodeChar c
  cases n with
  | zero => rfl
  | succ n =>
    cases he : String.utf8EncodeChar c with
    | nil =>
      rw [he, List.length_nil] at hlen
      omega
    | cons b bytes =>
      rw [he, List.length_cons] at hlen
      have hne : bytes ≠ [] := by
        intro hnil
        rw [hnil, List.length_nil] at hlen
        omega
      obtain ⟨s, hb, hs, hm⟩ := exists_ofLead index he hne
      rw [List.take_succ_cons, decodeFrom_lead hb hs]
      exact text_decodeFrom_open (by rw [List.length_take]; omega) _ _

/-- The bytes of a text decode, as far as they go, to its characters. -/
theorem text_decodeFrom_take (cs : List Char) (n index : Nat) (text : List Char) :
    (decodeFrom index text none ((encode cs).take n)).text = text.reverse ++ takeBytes n cs := by
  induction cs generalizing n index text with
  | nil =>
    rw [encode, List.flatMap_nil, List.take_nil]
    exact (List.append_nil _).symm
  | cons c cs ih =>
    have hlen := String.length_utf8EncodeChar c
    rw [encode_cons, takeBytes_cons, List.take_append]
    split
    · rename_i hc
      rw [List.take_of_length_le (by omega), hlen]
      obtain ⟨next, hnext⟩ := decodeFrom_char index text ((encode cs).take (n - c.utf8Size)) c
      rw [hnext, ih, List.reverse_cons, List.append_assoc]
      rfl
    · rename_i hc
      rw [hlen, Nat.sub_eq_zero_of_le (by omega), List.take_zero, List.append_nil,
        text_decodeFrom_part (by omega), List.append_nil]

/-- Where all bytes are right, the first of them are right as far as they go. -/
theorem width_of_decodeFrom_append {bytes rest : List UInt8} {index : Nat} {text : List Char}
    {s : Option OpenSequence} (h : (decodeFrom index text s (bytes ++ rest)).fault = none)
    {f : Utf8Fault} (hf : (decodeFrom index text s bytes).fault = some f) : f.width = none := by
  induction bytes generalizing index text s with
  | nil =>
    cases s with
    | none => cases hf
    | some s =>
      cases hf
      rfl
  | cons b bytes ih =>
    rw [List.cons_append] at h
    cases s with
    | none =>
      rw [decodeFrom] at h hf
      split at h
      · rename_i hb
        rw [if_pos hb] at hf
        exact ih h hf
      · rename_i hb
        rw [if_neg hb] at hf
        cases hs : OpenSequence.ofLead? index b.toNat with
        | none =>
          rw [hs] at h
          cases h
        | some s =>
          rw [hs] at h hf
          exact ih h hf
    | some s =>
      rw [decodeFrom] at h hf
      split at h
      · rename_i hb
        rw [if_pos hb] at hf
        dsimp only at h hf
        split at h
        · rename_i hm
          rw [if_pos hm] at hf
          exact ih h hf
        · rename_i hm
          rw [if_neg hm] at hf
          exact ih h hf
      · cases h

end Text

namespace Command

/-- What is read of a source: the characters that are whole before the cap. -/
theorem sourceText_encode (maxSource : Nat) (cs : List Char) :
    sourceText maxSource (encode cs) =
      .ok (takeBytes (min (maxSource + 4) 0xFFFFFFFFFFFFFFFF) cs) := by
  unfold sourceText
  dsimp only
  generalize min (maxSource + 4) 0xFFFFFFFFFFFFFFFF = limit
  have htext : (decode ((encode cs).take limit)).text = takeBytes limit cs :=
    text_decodeFrom_take cs limit 0 []
  rw [htext]
  split
  · rfl
  · rename_i fault hfault
    have hall : (decode ((encode cs).take limit ++ (encode cs).drop limit)).fault = none := by
      rw [List.take_append_drop, decode_encode]
    have hwidth : fault.width = none := width_of_decodeFrom_append hall hfault
    -- without a cut there would be no fault
    have hcut : ((encode cs).take limit).length = limit := by
      rw [List.length_take, Nat.min_eq_left]
      refine Nat.le_of_not_lt fun hshort => ?_
      rw [List.take_of_length_le (Nat.le_of_lt hshort), decode_encode] at hfault
      cases hfault
    rw [if_pos ⟨hcut, hwidth⟩]

section

variable {maxSource : Nat} {cs : List Char} (hlen : byteLength cs < 0x8000000000000000)
include hlen

/-- A text that is not too large is read to its end. -/
theorem takeBytes_cap_of_le (h : byteLength cs ≤ maxSource) :
    takeBytes (min (maxSource + 4) 0xFFFFFFFFFFFFFFFF) cs = cs :=
  (isCutAt_takeBytes _ cs).eq_of_le (by omega)

/-- Of a text that is too large so much is read that it still is. -/
theorem lt_takeBytes_cap (h : maxSource < byteLength cs) :
    maxSource < byteLength (takeBytes (min (maxSource + 4) 0xFFFFFFFFFFFFFFFF) cs) := by
  have hmin : min (maxSource + 4) 0xFFFFFFFFFFFFFFFF = maxSource + 4 := by omega
  rw [hmin]
  rcases Nat.lt_or_ge (maxSource + 4) (byteLength cs) with hcap | hcap
  · have := lt_byteLength_takeBytes hcap
    omega
  · rw [(isCutAt_takeBytes (maxSource + 4) cs).eq_of_le hcap]
    exact h

theorem takeBytes_cap_le_iff :
    byteLength (takeBytes (min (maxSource + 4) 0xFFFFFFFFFFFFFFFF) cs) ≤ maxSource ↔
      byteLength cs ≤ maxSource := by
  constructor
  · intro h
    refine Nat.le_of_not_lt fun hlt => ?_
    have := lt_takeBytes_cap hlen hlt
    omega
  · intro h
    rw [takeBytes_cap_of_le hlen h]
    exact h

/-- The compiler keeps the same part of what was read as of the whole. -/
theorem kept_takeBytes_cap {σ : Type} (c : Compiler σ) (hmax : c.limits.maxSource = maxSource) :
    c.kept (takeBytes (min (maxSource + 4) 0xFFFFFFFFFFFFFFFF) cs) = c.kept cs := by
  unfold Compiler.kept
  rw [hmax]
  by_cases h : byteLength cs ≤ maxSource
  · rw [takeBytes_cap_of_le hlen h]
  · rw [if_neg h, if_neg fun hle => h ((takeBytes_cap_le_iff hlen).1 hle)]
    have htwice := (isCutAt_takeBytes (min (maxSource + 4) 0xFFFFFFFFFFFFFFFF) cs).trans
      (isCutAt_takeBytes maxSource _) (by omega)
    exact htwice.unique (isCutAt_takeBytes maxSource cs)

end

/-- **Capped reading is as good as reading all.** Let a file hold a text. Then a
source is read from it, and compiling what was read gives the script and the
state of the host that the whole text gives. The logs differ at most in the
number of bytes in the report that the source is too large, which is made exactly
if the whole text is. In that case the script is that of the text cut at the last
boundary between characters within the limit. -/
theorem compile_sourceText {files : FileTree} {path : String} {cs : List Char}
    (hfile : files.read path = .ok (encode cs)) (hlen : (encode cs).length < 0x8000000000000000)
    (maxSource : Nat) :
    ∃ text, (files.read path).bind (sourceText maxSource) = .ok text ∧
      ∀ {σ : Type} (c : Compiler σ), c.limits.maxSource = maxSource → ∀ (state : σ) (name : String),
        let capped := c.compile state name text
        let whole := c.compile state name cs
        let sizeReport (source : List Char) : List Diagnostic :=
          if (encode cs).length ≤ maxSource then []
          else [((Diagnostic.sourceTooLarge (byteLength source) maxSource).inLine 0).inScript name]
        capped.script = whole.script ∧ capped.state = whole.state ∧
          (∃ rest, capped.log.toList = sizeReport text ++ rest ∧
            whole.log.toList = sizeReport cs ++ rest) ∧
          capped.log.contains .sourceTooLarge = decide (maxSource < (encode cs).length) ∧
          whole.log.contains .sourceTooLarge = decide (maxSource < (encode cs).length) ∧
          (maxSource < (encode cs).length → ∃ cut, IsCutAt maxSource cs cut ∧
            whole.script = (c.compile state name cut).script) := by
  rw [length_encode] at hlen
  refine ⟨takeBytes (min (maxSource + 4) 0xFFFFFFFFFFFFFFFF) cs, ?_, ?_⟩
  · rw [hfile]
    exact sourceText_encode maxSource cs
  · intro σ c hmax state name capped whole sizeReport
    have hiff : byteLength (takeBytes (min (maxSource + 4) 0xFFFFFFFFFFFFFFFF) cs) ≤ maxSource ↔
        byteLength cs ≤ maxSource := takeBytes_cap_le_iff hlen
    obtain ⟨hscript, hstate, rest, hcapped, hwhole⟩ :=
      Compiler.compile_congr_kept state name (kept_takeBytes_cap hlen c hmax)
    have hreport {source : List Char} (h : byteLength source ≤ maxSource ↔ byteLength cs ≤ maxSource) :
        (c.sourceIssues source).map (fun i => (i.inLine 0).inScript name) = sizeReport source := by
      simp only [Compiler.sourceIssues, sizeReport, length_encode, hmax, h]
      split <;> rfl
    have hcontains {source : List Char} (h : byteLength source ≤ maxSource ↔ byteLength cs ≤ maxSource) :
        (c.compile state name source).log.contains .sourceTooLarge =
          decide (maxSource < (encode cs).length) := by
      rw [c.contains_sourceTooLarge_compile, hmax, length_encode, decide_eq_decide, ← Nat.not_le,
        ← Nat.not_le, h]
    refine ⟨hscript, hstate, ⟨rest, ?_, ?_⟩, hcontains hiff, hcontains Iff.rfl, fun hlarge => ?_⟩
    · rw [← hreport hiff]
      exact hcapped
    · rw [← hreport Iff.rfl]
      exact hwhole
    · rw [length_encode] at hlarge
      have hcut := isCutAt_takeBytes maxSource cs
      have hkept : c.kept cs = c.kept (takeBytes maxSource cs) := by
        unfold Compiler.kept
        rw [hmax, if_neg (Nat.not_le.2 hlarge), if_pos hcut.fits]
      exact ⟨_, hcut, (Compiler.compile_congr_kept state name hkept).1⟩

/-- A comment of two-byte letters, one of which is cut. -/
theorem compile_sourceText_accents :
    let cs := "End\n//ééé".toList
    let files : FileTree := { nodes := [(["big.txt"], .file (encode cs))] }
    let c : Compiler Unit := { Compiler.tiny 16 with limits := { maxSource := 5 } }
    let read := "End\n//é".toList
    let capped := c.compile () "big" read
    let whole := c.compile () "big" cs
    files.read "big.txt" = .ok (encode cs) ∧ (encode cs).length < 0x8000000000000000 ∧
      (files.read "big.txt").bind (sourceText 5) = .ok read ∧
      capped.script = whole.script ∧ capped.log.toList.map (fun d => d.detail) = ["8 BYTES, LIMIT 5"] ∧
      whole.log.toList.map (fun d => d.detail) = ["12 BYTES, LIMIT 5"] ∧
      ∃ cut, IsCutAt 5 cs cut ∧ whole.script = (c.compile () "big" cut).script := by
  intro cs files c read capped whole
  have hfile : files.read "big.txt" = .ok (encode cs) := by decide +kernel
  have hlen : (encode cs).length < 0x8000000000000000 := by decide +kernel
  have hread : (files.read "big.txt").bind (sourceText 5) = .ok read := by decide +kernel
  obtain ⟨text, htext, hall⟩ := compile_sourceText hfile hlen 5
  rw [hread] at htext
  cases htext
  obtain ⟨hscript, _, _, _, _, hcut⟩ := hall c rfl () "big"
  exact ⟨hfile, hlen, hread, hscript, by decide +kernel, by decide +kernel, hcut (by decide +kernel)⟩

end Command

end NpcScript
