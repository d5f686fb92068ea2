import Mathlib.Data.List.Basic
import NpcScript.Proofs.MessageTables
import NpcScript.Proofs.SymbolTables

/-! # Numbers of messages

A message has the number of distinct messages that were registered before it was
registered first. So a number is given once, it is never changed, and equal
numbers are equal messages. A table may keep an index beside its messages, so that
a known text is found without a search; the two are brought up to date one after
the other, and this gives the same numbers. -/
namespace NpcScript

namespace MessageTable

/-! ## One registration -/

/-- A search through the messages finds the first place of a text. -/
theorem findIdx?_messages (t : MessageTable) (text : String) :
    t.messages.findIdx? (· = text) =
      if text ∈ t.messages.toList then some (t.messages.toList.idxOf text) else none := by
  have hlist : t.messages.findIdx? (· = text) = t.messages.toList.findIdx? (· = text) :=
    List.findIdx?_toArray _ t.messages.toList
  rw [hlist]
  split
  · rename_i hmem
    exact List.findIdx?_eq_some_iff_findIdx_eq.2 ⟨List.idxOf_lt_length_iff.2 hmem, rfl⟩
  · rename_i hmem
    exact List.findIdx?_eq_none_iff_findIdx_eq.2 (List.idxOf_of_notMem hmem)

/-- A text gets its place among the messages as its number. -/
theorem index_register (t : MessageTable) (text : String) :
    (t.register text).1 = Int32.ofNat (t.messages.toList.idxOf text) := by
  rw [register, findIdx?_messages]
  by_cases hmem : text ∈ t.messages.toList
  · rw [if_pos hmem]
  · rw [if_neg hmem, List.idxOf_of_notMem hmem, Array.length_toList]

theorem messages_register (t : MessageTable) (text : String) :
    (t.register text).2.messages.toList =
      if text ∈ t.messages.toList then t.messages.toList else t.messages.toList ++ [text] := by
  rw [register, findIdx?_messages]
  by_cases hmem : text ∈ t.messages.toList
  · rw [if_pos hmem, if_pos hmem]
  · rw [if_neg hmem, if_neg hmem, Array.toList_push]

/-- An index leads to a message exactly if it counts from the first to the last. -/
theorem isSome_get?_iff (t : MessageTable) (j : Int32) :
    (t.get? j).isSome = true ↔ 0 ≤ j.toInt ∧ j.toInt < t.size := by
  rw [get?, size]
  split
  · rename_i hneg
    exact iff_of_false Bool.false_ne_true (by omega)
  · rename_i hpos
    rw [isSome_getElem?]
    omega

/-! ## All registrations -/

theorem registerAll_concat (t : MessageTable) (texts : List String) (text : String) :
    t.registerAll (texts ++ [text]) = ((t.registerAll texts).register text).2 :=
  List.foldl_concat ..

theorem registerAll_append (t : MessageTable) (texts later : List String) :
    t.registerAll (texts ++ later) = (t.registerAll texts).registerAll later := List.foldl_append

/-- The messages of a table that was empty are the texts, each where it came first. -/
theorem messages_registerAll (texts : List String) :
    (registerAll {} texts).messages.toList = texts.eraseDups := by
  induction texts using List.reverseRecOn with
  | nil => rfl
  | append_singleton texts text ih =>
    rw [registerAll_concat, messages_register, ih, eraseDups_concat]
    simp only [List.mem_eraseDups]

/-- The answer to a registration behind others. -/
def answer (before : List String) (text : String) : Int32 := ((registerAll {} before).register text).1

/-- What comes later does not change a number. -/
theorem answer_eq (before : List String) (text : String) (later : List String) :
    answer before text = Int32.ofNat ((before ++ text :: later).eraseDups.idxOf text) := by
  have hlater : before ++ text :: later = (before ++ [text]) ++ later := by simp
  have hmem : text ∈ (before ++ [text]).eraseDups := by simp
  obtain ⟨new, hnew⟩ := extends_registerAll (registerAll {} (before ++ [text])) later
  rw [← registerAll_append, messages_registerAll, messages_registerAll] at hnew
  rw [answer, index_register, messages_registerAll, hlater, ← hnew, List.idxOf_append_of_mem hmem,
    eraseDups_concat]
  split
  · rfl
  · rename_i hnot
    rw [← List.mem_eraseDups] at hnot
    rw [List.idxOf_of_notMem hnot, List.idxOf_append_of_notMem hnot, List.idxOf_cons_self, Nat.add_zero]

/-- The number of a text that was registered is not negative and leads to it. -/
theorem answer_leads {before : List String} {text : String}
    (few : (before ++ [text]).eraseDups.length < 0x80000000) (later : List String) :
    0 ≤ (answer before text).toInt ∧
      (registerAll {} (before ++ text :: later)).get? (answer before text) = some text := by
  have hmem : text ∈ (before ++ [text]).eraseDups := by simp
  have hlt := List.idxOf_lt_length_iff.2 hmem
  have hlater : before ++ text :: later = (before ++ [text]) ++ later := by simp
  have hfound : (registerAll {} (before ++ [text])).messages[(before ++ [text]).eraseDups.idxOf text]? =
      some text := by
    rw [← Array.getElem?_toList, messages_registerAll, List.getElem?_idxOf hmem]
  rw [answer_eq before text [], get?_ofNat _ (by omega), Int32.toInt_ofNat_of_lt (by omega), hlater,
    registerAll_append]
  exact ⟨by omega, (extends_registerAll _ later).getElem? hfound⟩

/-- Numbers below the bound are told apart. -/
theorem ofNat_inj {i j : Nat} (hi : i < 0x80000000) (hj : j < 0x80000000)
    (h : Int32.ofNat i = Int32.ofNat j) : i = j := by
  have hint := congrArg Int32.toInt h
  rw [Int32.toInt_ofNat_of_lt hi, Int32.toInt_ofNat_of_lt hj] at hint
  omega

end MessageTable

/-! ## With an index -/

/-- Messages with an index beside them: a text is looked up in the index, and only
a new one is entered in both. -/
structure IndexedTable where
  messages : Array String := #[]
  index : List (String × Int32) := []
  deriving DecidableEq, Repr

namespace IndexedTable

def register (t : IndexedTable) (text : String) : Int32 × IndexedTable :=
  match t.index.lookup text with
  | some i => (i, t)
  | none =>
    let i := Int32.ofNat t.messages.size
    (i, ⟨t.messages.push text, (text, i) :: t.index⟩)

def registerAll (t : IndexedTable) (texts : List String) : IndexedTable :=
  texts.foldl (fun t text => (t.register text).2) t

/-- The index finds what a search through the messages finds. -/
structure Represents (t : IndexedTable) (u : MessageTable) : Prop where
  messages : t.messages = u.messages
  index : ∀ text, t.index.lookup text = (u.messages.findIdx? (· = text)).map Int32.ofNat

variable {t : IndexedTable} {u : MessageTable}

theorem represents_empty : Represents {} {} := ⟨rfl, fun _ => by simp⟩

/-- A registration gives the same number, and leaves vector and index in step. -/
theorem Represents.register (h : t.Represents u) (text : String) :
    (t.register text).1 = (u.register text).1 ∧ (t.register text).2.Represents (u.register text).2 := by
  have hlookup := h.index text
  unfold IndexedTable.register MessageTable.register
  cases hi : u.messages.findIdx? (· = text) with
  | some i =>
    rw [hi, Option.map_some] at hlookup
    rw [hlookup]
    exact ⟨rfl, h⟩
  | none =>
    rw [hi, Option.map_none] at hlookup
    rw [hlookup, h.messages]
    refine ⟨rfl, rfl, fun other => ?_⟩
    dsimp only
    rw [Array.findIdx?_push, List.lookup_cons, h.index other]
    by_cases ho : other = text
    · simp [ho, hi]
    · have hne : (other == text) = false := by simpa using ho
      simp [hne, Ne.symm ho]

theorem Represents.registerAll (h : t.Represents u) (texts : List String) :
    (t.registerAll texts).Represents (u.registerAll texts) := by
  induction texts generalizing t u with
  | nil => exact h
  | cons text texts ih => exact ih (h.register text).2

end IndexedTable

namespace MessageTable

/-- A table numbers the texts that were registered in it. -/
structure Numbers (texts : List String) (t : MessageTable) : Prop where
  /-- Each text has its place from its first registration. -/
  messages : t.messages.toList = texts.eraseDups
  /-- An answer is an index that leads to the text, then and after all that comes later. -/
  leads : ∀ before text after, texts = before ++ text :: after →
    0 ≤ (answer before text).toInt ∧
      ∀ later, (registerAll {} (before ++ text :: later)).get? (answer before text) = some text
  /-- Equal answers are answers to equal texts. -/
  answer_inj : ∀ before text after before' text' after', texts = before ++ text :: after →
    texts = before' ++ text' :: after' → (answer before text = answer before' text' ↔ text = text')
  /-- An index leads to a message exactly if it is not negative and below the size. -/
  get_iff : ∀ j : Int32, (t.get? j).isSome = true ↔ 0 ≤ j.toInt ∧ j.toInt < t.size

/-- **Messages are numbered in the order in which they come.** With fewer texts
than there are indices, every registration in a table that was empty gives a text
the index that is its own for good. An index that is kept beside the messages
gives the same answers. -/
theorem registerAll_numbers (texts : List String) (few : texts.eraseDups.length < 0x80000000) :
    Numbers texts (registerAll {} texts) ∧
    (IndexedTable.registerAll {} texts).messages = (registerAll {} texts).messages ∧
    ∀ before text, ((IndexedTable.registerAll {} before).register text).1 = answer before text := by
  have hplace {before after : List String} {text : String} (h : texts = before ++ text :: after) :
      answer before text = Int32.ofNat (texts.eraseDups.idxOf text) ∧ text ∈ texts.eraseDups ∧
        texts.eraseDups.idxOf text < 0x80000000 := by
    have hmem : text ∈ texts.eraseDups := by simp [h]
    refine ⟨h ▸ answer_eq before text after, hmem, ?_⟩
    exact Nat.lt_trans (List.idxOf_lt_length_iff.2 hmem) few
  refine ⟨⟨messages_registerAll texts, ?_, ?_, isSome_get?_iff _⟩, ?_, ?_⟩
  · intro before text after h
    have hfew : (before ++ [text]).eraseDups.length < 0x80000000 := by
      have hext := (extends_registerAll (registerAll {} (before ++ [text])) after).length_le
      rw [← registerAll_append, messages_registerAll, messages_registerAll] at hext
      rw [h, ← List.singleton_append, ← List.append_assoc] at few
      omega
    exact ⟨(answer_leads hfew []).1, fun later => (answer_leads hfew later).2⟩
  · intro before text after before' text' after' h h'
    obtain ⟨ha, hmem, hlt⟩ := hplace h
    obtain ⟨ha', _, hlt'⟩ := hplace h'
    rw [ha, ha', ← List.idxOf_inj hmem]
    exact ⟨ofNat_inj hlt hlt', congrArg Int32.ofNat⟩
  · exact (IndexedTable.represents_empty.registerAll texts).messages
  · intro before text
    exact ((IndexedTable.represents_empty.registerAll before).register text).1

/-- The second registration of a text finds the first. -/
theorem registerAll_numbers_repeated :
    ["Hi", "Bye", "Hi"].eraseDups.length < 0x80000000 ∧
      (registerAll {} ["Hi", "Bye", "Hi"]).messages.toList = ["Hi", "Bye"] ∧
      answer ["Hi", "Bye"] "Hi" = answer [] "Hi" ∧ answer ["Hi"] "Bye" ≠ answer [] "Hi" ∧
      ∀ later, (registerAll {} ("Hi" :: "Bye" :: later)).get? (answer ["Hi"] "Bye") = some "Bye" := by
  have few : ["Hi", "Bye", "Hi"].eraseDups.length < 0x80000000 := by decide
  obtain ⟨h, _⟩ := registerAll_numbers ["Hi", "Bye", "Hi"] few
  refine ⟨few, h.messages, ?_, ?_, (h.leads ["Hi"] "Bye" ["Hi"] rfl).2⟩
  · exact (h.answer_inj ["Hi", "Bye"] "Hi" [] [] "Hi" ["Bye", "Hi"] rfl rfl).2 rfl
  · intro heq
    exact absurd ((h.answer_inj ["Hi"] "Bye" ["Hi"] [] "Hi" ["Bye", "Hi"] rfl rfl).1 heq) (by decide)

end MessageTable

end NpcScript
