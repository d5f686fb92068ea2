import NpcScript.Proofs.ShownBlocks
import NpcScript.Proofs.Terms
import NpcScript.Proofs.Twins

/-! # Code and the message table

Scripts that share a message table do not disturb each other: what is in the
table before a source is compiled shows only in the operands of its plain
strings, and there the index leads to the text, from then on for good. -/
namespace NpcScript

variable {σ : Type}

/-! ## Phrases of two runs -/

/-- Terms of the same operator with alike tokens. -/
def AlikeTerms (x y : Int32 × Token) : Prop := x.1 = y.1 ∧ x.2.Alike y.2

structure Phrase.Alike (p q : Phrase) : Prop where
  head : p.head = q.head
  terms : List.Forall₂ AlikeTerms p.terms q.terms

theorem RightSide.alike_terms {ts us : List Token} (h : List.Forall₂ Token.Alike ts us) (m : RightSide) :
    List.Forall₂ AlikeTerms (m.terms ts) (m.terms us) := by
  induction h generalizing m with
  | nil => exact .nil
  | @cons t u ts us ht _ ih =>
    have hnext : m.next t = m.next u := by
      unfold next
      rw [← ht.isOperand, ← ht.isOperator, ← ht.isAssign]
      split
      · rfl
      · split
        · rename_i ho
          rw [ht.value_of_isOperator ho]
        · rfl
    rw [terms, terms, ← ht.isOperand, ← hnext]
    split
    · exact .cons ⟨rfl, ht⟩ (ih _)
    · exact ih _

theorem forall₂_rightTokens {ts us : List Token} (h : List.Forall₂ Token.Alike ts us) :
    List.Forall₂ Token.Alike (rightTokens ts) (rightTokens us) := by
  cases h with
  | nil => exact .nil
  | cons ht h =>
    rw [rightTokens, rightTokens, ← ht.isAssign]
    split
    · exact h
    · exact .cons ht h

/-- The same line, read with alike tokens. -/
structure LineReading.Alike (l m : LineReading σ) : Prop where
  line : l.line = m.line
  tokens : List.Forall₂ Token.Alike l.tokens m.tokens

namespace LineReading.Alike

variable {l m : LineReading σ} (h : l.Alike m)
include h

theorem indent : l.indent = m.indent := by
  rw [LineReading.indent, LineReading.indent, level, level, spaces, spaces, h.line]

theorem endsScript : l.endsScript = m.endsScript := by
  have ht := h.tokens
  unfold LineReading.endsScript
  rw [h.line]
  generalize l.tokens = ts at ht
  generalize m.tokens = us at ht
  cases ht with
  | nil => rfl
  | cons ht _ => simp only [List.head?_cons, Option.any_some, ht.isFunction, ht.word]

theorem phrases : List.Forall₂ Phrase.Alike l.phrases m.phrases := by
  have ht := h.tokens
  unfold LineReading.phrases
  rw [h.endsScript, h.indent]
  generalize l.tokens = ts at ht
  generalize m.tokens = us at ht
  cases ht with
  | nil => exact .nil
  | @cons t u ts us ht hts =>
    dsimp only
    rw [← ht.kind]
    cases hk : t.kind with
    | none => exact .nil
    | some k =>
      -- a function or a variable is no string, so the heads are the same
      have hvalue (hc : k ≠ .constant) : t = u := by
        rcases ht with rfl | ⟨hkc, _, _⟩
        · rfl
        · rw [hk] at hkc
          cases hkc
          exact absurd rfl hc
      cases k with
      | function =>
        rw [hvalue (by decide)]
        dsimp only
        split
        · exact .nil
        · exact .cons ⟨rfl, .nil⟩ .nil
      | var =>
        rw [hvalue (by decide)]
        exact .cons ⟨rfl, RightSide.alike_terms (forall₂_rightTokens hts) _⟩ .nil
      | constant | operator => exact .nil

end LineReading.Alike

namespace Reader.Steady

variable {r : Reader σ} (hr : r.Steady) (n : LineNumber) (s s' : σ)
include hr

theorem readings (ls : List Lexeme) :
    List.Forall₂ (fun x y => Token.Alike x.token y.token) (r.readings n s ls) (r.readings n s' ls) := by
  induction ls generalizing s s' with
  | nil => exact .nil
  | cons l ls ih => exact .cons (hr n s s' l).2 (ih _ _)

theorem readLine (text : List Char) :
    List.Forall₂ (fun x y => Token.Alike x.token y.token) (r.readLine n s text)
      (r.readLine n s' text) := by
  have h := hr.readings n s s' (lexemes text)
  unfold Reader.readLine
  generalize r.readings n s (lexemes text) = xs at h
  generalize r.readings n s' (lexemes text) = ys at h
  cases h with
  | nil => exact .nil
  | cons hx h =>
    dsimp only
    rw [← hx.isVariable]
    split
    · exact .cons hx h
    · exact .cons hx .nil

end Reader.Steady

namespace Compiler

variable {c : Compiler σ} (hr : c.reader.Steady)
include hr

theorem alike_readLines (n : LineNumber) (s s' : σ) (segments : List Segment) :
    List.Forall₂ LineReading.Alike (c.readLines n s segments) (c.readLines n s' segments) := by
  induction segments generalizing n s s' with
  | nil => exact .nil
  | cons segment segments ih =>
    have hline : (c.readBody (n + 1) s segment.body).Alike (c.readBody (n + 1) s' segment.body) := by
      refine ⟨rfl, ?_⟩
      rw [LineReading.tokens, LineReading.tokens, List.forall₂_map_left_iff, List.forall₂_map_right_iff]
      exact hr.readLine (n + 1) s s' _
    rw [readLines, readLines, hline.endsScript]
    split
    · exact .cons hline .nil
    · exact .cons hline (ih ..)

theorem alike_phrases (s s' : σ) (source : List Char) :
    List.Forall₂ Phrase.Alike (c.phrases s source) (c.phrases s' source) := by
  have hlines : List.Forall₂ LineReading.Alike (c.lineReadings s source) (c.lineReadings s' source) :=
    alike_readLines hr ..
  refine List.rel_append (List.rel_flatMap hlines fun _ _ hl => hl.phrases) ?_
  rw [List.forall₂_same]
  intro p hp
  obtain ⟨e, _, rfl⟩ := List.mem_map.1 hp
  exact ⟨rfl, .nil⟩

end Compiler

/-! ## Words by their origin -/

/-- For each word of phrases in place the term that it was made from; heads and
slots have none. -/
def origins (ps : List Phrase) : List (Option (Int32 × Token)) :=
  ps.flatMap fun p => none :: none :: p.terms.map some

theorem origins_cons (p : Phrase) (ps : List Phrase) :
    origins (p :: ps) = none :: none :: (p.terms.map some ++ origins ps) := rfl

theorem totalSize_congr {ps qs : List Phrase} (h : List.Forall₂ Phrase.Alike ps qs) :
    totalSize (ps.map Phrase.block) = totalSize (qs.map Phrase.block) := by
  induction h with
  | nil => rfl
  | cons hp _ ih =>
    have hsize := hp.terms.length_eq
    simp only [List.map_cons, totalSize_cons, ih, Block.size, Phrase.block, List.length_map, hsize]

theorem nextBlock_congr {ps qs : List Phrase} (h : List.Forall₂ Phrase.Alike ps qs) (indent addr : Nat) :
    nextBlock indent addr (ps.map Phrase.block) = nextBlock indent addr (qs.map Phrase.block) := by
  induction h generalizing addr with
  | nil => rfl
  | cons hp _ ih =>
    have hsize := hp.terms.length_eq
    rw [List.map_cons, List.map_cons, nextBlock, nextBlock, ih]
    simp only [Phrase.block, Block.size, List.length_map, hp.head, hsize]

theorem slotValue_congr {p q : Phrase} (hp : p.Alike q) {ps qs : List Phrase}
    (h : List.Forall₂ Phrase.Alike ps qs) (stop addr : Nat) :
    p.block.slotValue stop addr (ps.map Phrase.block) = q.block.slotValue stop addr (qs.map Phrase.block) := by
  have hsize := hp.terms.length_eq
  unfold Block.slotValue
  rw [nextBlock_congr h]
  simp only [Phrase.block, Block.size, List.length_map, hp.head, hsize]

/-- The words of two runs at an address: both made from alike terms, or the same. -/
theorem getElem?_place_alike {ps qs : List Phrase} (h : List.Forall₂ Phrase.Alike ps qs)
    (stop addr a : Nat) :
    (∃ x y, (origins ps)[a]? = some (some x) ∧ (origins qs)[a]? = some (some y) ∧ AlikeTerms x y ∧
        (spell (place stop addr (ps.map Phrase.block)))[a]? = some (Word.ofTerm x) ∧
        (spell (place stop addr (qs.map Phrase.block)))[a]? = some (Word.ofTerm y)) ∨
      (origins ps)[a]?.join = none ∧ (origins qs)[a]?.join = none ∧
        (spell (place stop addr (ps.map Phrase.block)))[a]? =
          (spell (place stop addr (qs.map Phrase.block)))[a]? := by
  induction h generalizing addr a with
  | nil => exact .inr ⟨rfl, rfl, rfl⟩
  | @cons p q ps qs hp hps ih =>
    have hlen := hp.terms.length_eq
    have hsize : p.block.size = q.block.size := by
      simp only [Phrase.block, Block.size, List.length_map, hlen]
    rw [List.map_cons, List.map_cons, spell_place_cons, spell_place_cons, origins_cons, origins_cons,
      slotValue_congr hp hps, ← hsize]
    rcases a with _ | _ | a
    · refine .inr ⟨rfl, rfl, ?_⟩
      simp only [List.getElem?_cons_zero, Phrase.block, hp.head]
    · exact .inr ⟨rfl, rfl, rfl⟩
    · simp only [List.getElem?_cons_succ, Phrase.block]
      rcases Nat.lt_or_ge a p.terms.length with ha | ha
      · -- the address of a term
        have hx : p.terms[a]? = some p.terms[a] := List.getElem?_eq_getElem ha
        have hy : q.terms[a]? = some q.terms[a] := List.getElem?_eq_getElem (by omega)
        refine .inl ⟨p.terms[a], q.terms[a], ?_, ?_, ?_, ?_, ?_⟩
        · rw [List.getElem?_append_left (by rwa [List.length_map]), List.getElem?_map, hx]
          rfl
        · rw [List.getElem?_append_left (by rw [List.length_map]; omega), List.getElem?_map, hy]
          rfl
        · exact hp.terms.get ha (by omega)
        · rw [List.getElem?_append_left (by rwa [List.length_map]), List.getElem?_map, hx]
          rfl
        · rw [List.getElem?_append_left (by rw [List.length_map]; omega), List.getElem?_map, hy]
          rfl
      · rw [List.getElem?_append_right (by rwa [List.length_map]),
          List.getElem?_append_right (by rw [List.length_map]; omega),
          List.getElem?_append_right (by rwa [List.length_map]),
          List.getElem?_append_right (by rw [List.length_map]; omega)]
        simp only [List.length_map, ← hlen]
        exact ih _ _

/-! ## Indices of strings -/

section

variable {resolve : String → Option Int32} {text : String}

/-- The index of a string in a table. -/
def MessageTable.Indexes (t : MessageTable) (text : String) (value : Int32) : Prop :=
  ∃ i, value = Int32.ofNat i ∧ t.messages[i]? = some text

theorem MessageTable.Indexes.extends {t u : MessageTable} {value : Int32} (h : t.Indexes text value)
    (he : t.Extends u) : u.Indexes text value := by
  obtain ⟨i, hv, hi⟩ := h
  exact ⟨i, hv, he.getElem? hi⟩

namespace Reader

variable {r : Reader MessageTable} (hr : r.host = .ofResolver resolve) {n : LineNumber}
  {t : MessageTable}
include hr

theorem indexes_read {l : Lexeme} (h : (r.read n t l).token.literal? = some text) :
    (r.read n t l).state.Indexes text (r.read n t l).token.value := by
  obtain ⟨_, hv, hs⟩ := read_of_literal hr n t l h
  obtain ⟨i, hi, hget, _⟩ := t.register_spec text
  rw [hs]
  exact ⟨i, hv.trans hi, hget⟩

theorem indexes_readings {ls : List Lexeme} {x : Reading MessageTable} (hx : x ∈ r.readings n t ls)
    (h : x.token.literal? = some text) :
    (Reading.after t (r.readings n t ls)).Indexes text x.token.value := by
  induction ls generalizing t with
  | nil => cases hx
  | cons l ls ih =>
    rcases List.mem_cons.1 hx with rfl | hx
    · have hread := indexes_read hr h
      rw [readings, Reading.after]
      refine after_readings (P := fun u : MessageTable => u.Indexes text _) (fun u hu m _ => ?_) hread
      exact hu.extends (extends_read hr n u m (.refl u))
    · exact ih hx

theorem indexes_readLine {line : List Char} {x : Reading MessageTable} (hx : x ∈ r.readLine n t line)
    (h : x.token.literal? = some text) :
    (Reading.after t (r.readLine n t line)).Indexes text x.token.value := by
  have hall (hx : x ∈ r.readings n t (lexemes line)) := indexes_readings hr hx h
  unfold readLine at hx ⊢
  cases hls : lexemes line with
  | nil =>
    rw [hls] at hx
    cases hx
  | cons l ls =>
    rw [hls, readings] at hx hall
    rw [readings]
    dsimp only at hx ⊢
    split at hx
    · rename_i hv
      rw [if_pos hv]
      exact hall hx
    · rename_i hv
      rw [if_neg hv]
      rw [List.mem_singleton.1 hx] at h ⊢
      exact indexes_read hr h

end Reader

namespace Compiler

variable {c : Compiler MessageTable} (hr : c.reader.host = .ofResolver resolve)
include hr

theorem indexes_readLines {n : LineNumber} {t : MessageTable} {segments : List Segment}
    {l : LineReading MessageTable} (hl : l ∈ c.readLines n t segments) {x : Reading MessageTable}
    (hx : x ∈ l.readings) (h : x.token.literal? = some text) :
    (LineReading.after t (c.readLines n t segments)).Indexes text x.token.value := by
  induction segments generalizing n t with
  | nil => cases hl
  | cons segment segments ih =>
    have hfirst (hx : x ∈ (c.readBody (n + 1) t segment.body).readings) :=
      Reader.indexes_readLine hr hx h
    rw [readLines] at hl ⊢
    split at hl
    · rename_i hends
      rw [if_pos hends]
      rw [List.mem_singleton.1 hl] at hx
      exact hfirst hx
    · rename_i hends
      rw [if_neg hends]
      rcases List.mem_cons.1 hl with rfl | hl
      · refine after_readLines (P := fun u : MessageTable => u.Indexes text _) (fun n u body hu m _ => ?_) (hfirst hx) _
        exact hu.extends (Reader.extends_read hr n u m (.refl u))
      · exact ih hl

/-- After compiling, the value of each plain string is its index. -/
theorem indexes_of_mem_terms {t : MessageTable} {source : List Char} {x : Int32 × Token}
    (hx : x ∈ c.terms t source) (h : x.2.literal? = some text) (name : String) :
    x.2.isVariable = false ∧ (c.compile t name source).state.Indexes text x.2.value := by
  obtain ⟨l, hl, ht, _⟩ := c.exists_of_mem_terms t source hx
  rw [state_compile]
  constructor
  · obtain ⟨n, u, word, hread, _⟩ := c.exists_of_mem_tokens hl ht
    rw [hread] at h ⊢
    rw [Token.isVariable, (Reader.read_of_literal hr n u word h).1]
    rfl
  · obtain ⟨y, hy, hyt⟩ := List.mem_map.1 ht
    rw [← hyt] at h ⊢
    exact indexes_readLines hr hl hy h

end Compiler

end

/-- The index in a payload leads to the text in every later table, as long as
there are not too many messages. -/
theorem MessageTable.Indexes.payload {t : MessageTable} {text : String} {x : Int32 × Token}
    (h : t.Indexes text x.2.value) (ht : t.size < 0x800000) (later : List String) :
    (t.registerAll later).get? (Int32.ofNat (Word.ofTerm x).payload) = some text := by
  obtain ⟨i, hv, hi⟩ := h
  obtain ⟨hlt, _⟩ := Array.getElem?_eq_some_iff.1 hi
  have hlt : i < 0x800000 := Nat.lt_trans hlt ht
  have hp : (Word.ofTerm x).payload = i := by
    rw [Word.ofTerm, Word.payload_operand, hv, Word.field_ofNat hlt (by decide)]
  rw [hp, get?_ofNat _ (by omega)]
  exact (t.extends_registerAll later).getElem? hi

namespace Compiler

/-- The term that the word at an address is made from; heads and slots are made
from none. -/
def originAt (c : Compiler σ) (state : σ) (source : List Char) (addr : Nat) : Option (Int32 × Token) :=
  (origins (c.phrases state source))[addr]?.join

/-- The text of the plain string that the word at an address is the operand of. -/
def literalAt (c : Compiler σ) (state : σ) (source : List Char) (addr : Nat) : Option String :=
  (c.originAt state source addr).bind fun x => x.2.literal?

section

variable {c : Compiler σ} (hr : c.reader.Steady) (s s' : σ) (name : String) (source : List Char)
include hr

theorem size_compile_congr :
    (c.compile s name source).script.size = (c.compile s' name source).script.size := by
  rw [c.size_compile_eq, c.size_compile_eq, ← map_block_phrases, ← map_block_phrases,
    totalSize_congr (alike_phrases hr s s' source)]

/-- The words of two scripts at an address: the operands for alike terms, as far
as the scripts go, or the same. -/
theorem get_compile_alike (hlimit : c.limits.maxWords < 0x100000000) (addr : Nat) :
    (∃ x y, c.originAt s source addr = some x ∧ c.originAt s' source addr = some y ∧ AlikeTerms x y ∧
        (c.compile s name source).script.get? addr =
          (if addr < (c.compile s name source).script.size then some (Word.ofTerm x) else none) ∧
        (c.compile s' name source).script.get? addr =
          (if addr < (c.compile s name source).script.size then some (Word.ofTerm y) else none)) ∨
      c.originAt s source addr = none ∧ c.originAt s' source addr = none ∧
        (c.compile s name source).script.get? addr = (c.compile s' name source).script.get? addr := by
  have hsize := size_compile_congr hr s s' name source
  have hword (q : σ) : (c.compile q name source).script.get? addr =
      if addr < (c.compile q name source).script.size then
        (spell (place (c.compile q name source).script.size 0
          ((c.phrases q source).map Phrase.block)))[addr]? else none := by
    have hlt : (c.compile q name source).script.size < 0x100000000 := by
      have := c.size_compile_eq q name source
      omega
    split
    · rename_i h
      rw [map_block_phrases]
      exact get_compile hlt h
    · rename_i h
      exact Array.getElem?_eq_none_iff.2 (Nat.not_lt.1 h)
  rw [hword s, hword s', ← hsize]
  rcases getElem?_place_alike (alike_phrases hr s s' source) (c.compile s name source).script.size 0
    addr with ⟨x, y, hx, hy, hxy, hwx, hwy⟩ | ⟨hx, hy, hw⟩
  · refine .inl ⟨x, y, ?_, ?_, hxy, by rw [hwx], by rw [hwy]⟩
    · rw [originAt, hx]
      rfl
    · rw [originAt, hy]
      rfl
  · exact .inr ⟨hx, hy, by rw [hw]⟩

end

/-- The origin of a word is one of the terms. -/
theorem mem_terms_of_originAt {c : Compiler σ} {s : σ} {source : List Char} {addr : Nat}
    {x : Int32 × Token} (h : c.originAt s source addr = some x) : x ∈ c.terms s source := by
  obtain ⟨p, hp, hx⟩ := List.mem_flatMap.1 (List.mem_of_getElem? (Option.join_eq_some_iff.1 h))
  refine List.mem_flatMap.2 ⟨p, hp, ?_⟩
  simpa using hx

/-- **Message tables do not show in the code.** A source compiled against two
tables gives the same problems and scripts of the same length. The scripts differ
in the operands of plain strings only, and there the payload of each leads to the
text of the string in the table of each, whatever is registered later. -/
theorem compile_sharing (symbols : SymbolTable) (resolve : String → Option Int32) (limits : Limits)
    (hlimit : limits.maxWords < 0x100000000) (t u : MessageTable) (name : String) (source : List Char) :
    let c : Compiler MessageTable := ⟨symbols, .ofResolver resolve, limits⟩
    let a := c.compile t name source
    let b := c.compile u name source
    a.state.size < 0x800000 → b.state.size < 0x800000 →
      a.log = b.log ∧ a.script.size = b.script.size ∧
        ∀ addr, c.literalAt t source addr = c.literalAt u source addr ∧
          match c.literalAt t source addr with
          | none => a.script.get? addr = b.script.get? addr
          | some text => addr < a.script.size →
            ∃ v w, a.script.get? addr = some v ∧ b.script.get? addr = some w ∧
              v.flag = false ∧ w.flag = false ∧ v.operator = w.operator ∧
              ∀ later later' : List String,
                (a.state.registerAll later).get? (Int32.ofNat v.payload) = some text ∧
                (b.state.registerAll later').get? (Int32.ofNat w.payload) = some text := by
  intro c a b ha hb
  have hhost : c.reader.host = .ofResolver resolve := rfl
  have hsteady : c.reader.Steady := Reader.steady_of_resolver hhost
  refine ⟨log_compile_congr hsteady t u name source, size_compile_congr hsteady t u name source,
    fun addr => ?_⟩
  rcases get_compile_alike hsteady t u name source hlimit addr with
    ⟨x, y, hx, hy, ⟨hop, htok⟩, hwx, hwy⟩ | ⟨hx, hy, hw⟩
  · have hlx : c.literalAt t source addr = x.2.literal? := by simp [literalAt, hx]
    have hly : c.literalAt u source addr = y.2.literal? := by simp [literalAt, hy]
    rw [hlx, hly]
    refine ⟨htok.literal?, ?_⟩
    cases hl : x.2.literal? with
    | none =>
      have he : x = y := Prod.ext hop (htok.eq_of_not_literal hl)
      rw [← he] at hwy
      exact hwx.trans hwy.symm
    | some text =>
      intro h
      rw [if_pos h] at hwx hwy
      obtain ⟨hvx, hix⟩ := indexes_of_mem_terms hhost (mem_terms_of_originAt hx) hl name
      obtain ⟨hvy, hiy⟩ := indexes_of_mem_terms hhost (mem_terms_of_originAt hy)
        (htok.literal?.symm.trans hl) name
      refine ⟨Word.ofTerm x, Word.ofTerm y, hwx, hwy, ?_, ?_, ?_, ?_⟩
      · rw [Word.ofTerm, Word.flag_operand, hvx]
      · rw [Word.ofTerm, Word.flag_operand, hvy]
      · rw [Word.ofTerm, Word.ofTerm, Word.operator_operand, Word.operator_operand, hop]
      · intro later later'
        exact ⟨hix.payload ha later, hiy.payload hb later'⟩
  · have hlx : c.literalAt t source addr = none := by rw [literalAt, hx]; rfl
    have hly : c.literalAt u source addr = none := by rw [literalAt, hy]; rfl
    rw [hlx, hly]
    exact ⟨rfl, hw⟩

/-- The first string has another index in a table that is not empty, and both
lead to it. -/
theorem compile_sharing_two :
    let symbols := SymbolTable.ofList [⟨"x", .var, 2⟩, ⟨"+", .operator, 1⟩, ⟨"End", .function, 9⟩]
    let resolve := fun name : String => if name = "rock" then some (4 : Int32) else none
    let c : Compiler MessageTable := ⟨symbols, .ofResolver resolve, {}⟩
    let source := "x = \"Hi\" + \"Go\" + \"#rock\"".toList
    let a := c.compile {} "test" source
    let b := c.compile ⟨#["Go", "No"]⟩ "test" source
    (({} : Limits).maxWords < 0x100000000 ∧ a.state.size < 0x800000 ∧ b.state.size < 0x800000) ∧
      a.script.get? 2 ≠ b.script.get? 2 ∧ a.log = b.log ∧ a.script.size = b.script.size ∧
      ∃ v w, a.script.get? 2 = some v ∧ b.script.get? 2 = some w ∧
        v.flag = false ∧ w.flag = false ∧ v.operator = w.operator ∧
        ∀ later later' : List String,
          (a.state.registerAll later).get? (Int32.ofNat v.payload) = some "Hi" ∧
          (b.state.registerAll later').get? (Int32.ofNat w.payload) = some "Hi" := by
  intro symbols resolve c source a b
  have hlimit : ({} : Limits).maxWords < 0x100000000 := by decide
  have ha : a.state.size < 0x800000 := by decide +kernel
  have hb : b.state.size < 0x800000 := by decide +kernel
  have hne : a.script.get? 2 ≠ b.script.get? 2 := by decide +kernel
  have hlit : c.literalAt {} source 2 = some "Hi" := by decide +kernel
  obtain ⟨hlog, hsize, hall⟩ :=
    compile_sharing symbols resolve {} hlimit {} ⟨#["Go", "No"]⟩ "test" source ha hb
  have hword := (hall 2).2
  rw [hlit] at hword
  exact ⟨⟨hlimit, ha, hb⟩, hne, hlog, hsize, hword (by decide +kernel)⟩

end Compiler

end NpcScript
