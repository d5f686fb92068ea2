import Mathlib.Data.List.Basic
import NpcScript.Proofs.Compiling

/-! # Message tables in use

A message table only grows, and a message keeps its index. Reading touches the
table at plain strings only: it registers the text, and the index is the value of
the token. What every registration of a source keeps is kept by compiling it. -/
namespace NpcScript

namespace MessageTable

/-- The index of a registered text leads to it, and the table is as before or
one message longer. -/
theorem register_spec (t : MessageTable) (text : String) :
    ∃ i, (t.register text).1 = Int32.ofNat i ∧ (t.register text).2.messages[i]? = some text ∧
      ((t.register text).2 = t ∨ (t.register text).2.messages = t.messages.push text) := by
  unfold register
  cases hi : t.messages.findIdx? (· = text) with
  | some i =>
    obtain ⟨hlt, hp, _⟩ := Array.findIdx?_eq_some_iff_getElem.1 hi
    refine ⟨i, rfl, ?_, .inl rfl⟩
    rw [Array.getElem?_eq_getElem hlt, of_decide_eq_true hp]
  | none => exact ⟨t.messages.size, rfl, Array.getElem?_push_size, .inr rfl⟩

/-- The first messages of a later table are those of an earlier one. -/
def Extends (t u : MessageTable) : Prop := t.messages.toList <+: u.messages.toList

namespace Extends

variable {t u v : MessageTable}

theorem refl (t : MessageTable) : t.Extends t := List.prefix_refl _

theorem trans (h : t.Extends u) (h' : u.Extends v) : t.Extends v := List.IsPrefix.trans h h'

theorem register (h : t.Extends u) (text : String) : t.Extends (u.register text).2 := by
  refine h.trans ?_
  obtain ⟨_, _, _, he | he⟩ := u.register_spec text
  · rw [he]
    exact refl u
  · rw [Extends, he, Array.toList_push]
    exact List.prefix_append _ _

theorem getElem? (h : t.Extends u) {i : Nat} {text : String} (hi : t.messages[i]? = some text) :
    u.messages[i]? = some text := by
  rw [← Array.getElem?_toList] at hi ⊢
  obtain ⟨hlt, _⟩ := List.getElem?_eq_some_iff.1 hi
  obtain ⟨rest, hrest⟩ := h
  rw [← hrest, List.getElem?_append_left hlt, hi]

end Extends

theorem get?_ofNat (t : MessageTable) {i : Nat} (hi : i < 0x80000000) :
    t.get? (Int32.ofNat i) = t.messages[i]? := by
  have hv : (Int32.ofNat i).toInt = i := Int32.toInt_ofNat_of_lt hi
  rw [get?, hv, if_neg (by omega), Int.toNat_natCast]

/-- Register texts one after the other. -/
def registerAll (t : MessageTable) (texts : List String) : MessageTable :=
  texts.foldl (fun t text => (t.register text).2) t

theorem extends_registerAll (t : MessageTable) (texts : List String) :
    t.Extends (t.registerAll texts) := by
  induction texts generalizing t with
  | nil => exact .refl t
  | cons text texts ih => exact ((Extends.refl t).register text).trans (ih _)

end MessageTable

/-- Assets by a fixed rule, such as an asset table, and a message table as the
state. -/
def Host.ofResolver (resolve : String → Option Int32) : Host MessageTable where
  asset name messages := (resolve name, messages)
  message text messages := messages.register text

/-- The text of a token that was written as a plain string. -/
def Token.literal? (t : Token) : Option String :=
  match WordForm.ofWord t.word.toList with
  | .message text => some (String.ofList text)
  | _ => none

namespace Reader

variable {resolve : String → Option Int32} {r : Reader MessageTable}
  (hr : r.host = .ofResolver resolve) (n : LineNumber) (t : MessageTable) (l : Lexeme)
include hr

/-- A plain string is registered, and its token has the index. -/
theorem read_of_literal {text : String} (h : (r.read n t l).token.literal? = some text) :
    (r.read n t l).token.kind = some .constant ∧
      (r.read n t l).token.value = (t.register text).1 ∧
      (r.read n t l).state = (t.register text).2 := by
  rw [Token.literal?, (r.meaning_read n t l).word_eq, String.toList_ofList] at h
  unfold read classify
  cases hw : WordForm.ofWord (l.text.take r.maxWord) with
  | message text' =>
    rw [hw] at h
    cases h
    simp only [hr]
    exact ⟨rfl, rfl, rfl⟩
  | numeral _ | code _ | assign | asset _ | name =>
    rw [hw] at h
    cases h

/-- Nothing else changes the table. -/
theorem state_of_not_literal (h : (r.read n t l).token.literal? = none) :
    (r.read n t l).state = t := by
  rw [Token.literal?, (r.meaning_read n t l).word_eq, String.toList_ofList] at h
  unfold read classify
  cases hw : WordForm.ofWord (l.text.take r.maxWord) with
  | message text =>
    rw [hw] at h
    cases h
  | asset name =>
    simp only [hr, Host.ofResolver]
    cases resolve (String.ofList name) <;> rfl
  | numeral _ | code _ | assign | name => rfl

theorem extends_read {u : MessageTable} (h : u.Extends t) : u.Extends (r.read n t l).state := by
  cases ht : (r.read n t l).token.literal? with
  | none =>
    rw [state_of_not_literal hr n t l ht]
    exact h
  | some text =>
    rw [(read_of_literal hr n t l ht).2.2]
    exact h.register text

end Reader

/-! ## What the readings of a source keep -/

section

variable {σ : Type} {P : σ → Prop}

namespace Reader

variable {r : Reader σ} {n : LineNumber}

theorem after_readings {ls : List Lexeme} (step : ∀ s, P s → ∀ l ∈ ls, P (r.read n s l).state) {s : σ}
    (h : P s) : P (Reading.after s (r.readings n s ls)) := by
  induction ls generalizing s with
  | nil => exact h
  | cons l ls ih =>
    refine ih (fun s hs m hm => step s hs m (List.mem_cons_of_mem l hm)) ?_
    exact step s h l List.mem_cons_self

theorem after_readLine {text : List Char}
    (step : ∀ s, P s → ∀ l ∈ lexemes text, P (r.read n s l).state) {s : σ} (h : P s) :
    P (Reading.after s (r.readLine n s text)) := by
  have hall := after_readings step h
  unfold readLine
  cases hls : lexemes text with
  | nil => exact h
  | cons l ls =>
    rw [hls] at hall step
    rw [readings]
    dsimp only
    split
    · exact hall
    · exact step s h l List.mem_cons_self

end Reader

namespace Compiler

variable {c : Compiler σ}

theorem after_readLines
    (step : ∀ n s body, P s →
      ∀ l ∈ lexemes (spaceOperators (SourceLine.ofBody c.limits.maxLine body).text),
        P (c.reader.read n s l).state)
    {n : LineNumber} {s : σ} (h : P s) (segments : List Segment) :
    P (LineReading.after s (c.readLines n s segments)) := by
  induction segments generalizing n s with
  | nil => exact h
  | cons segment segments ih =>
    have hline : P (Reading.after s (c.readBody (n + 1) s segment.body).readings) :=
      Reader.after_readLine (fun s hs => step (n + 1) s segment.body hs) h
    rw [readLines]
    split
    · exact hline
    · exact ih hline

/-- What each word of a source keeps of the host's state is kept by compiling it. -/
theorem state_compile_of_step
    (step : ∀ n s body, P s →
      ∀ l ∈ lexemes (spaceOperators (SourceLine.ofBody c.limits.maxLine body).text),
        P (c.reader.read n s l).state)
    {state : σ} (h : P state) (name : String) (source : List Char) :
    P (c.compile state name source).state := by
  rw [state_compile]
  exact after_readLines step h _

end Compiler

end

end NpcScript
