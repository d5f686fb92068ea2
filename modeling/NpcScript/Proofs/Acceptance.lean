import Mathlib.Data.List.TakeWhile
import NpcScript.Proofs.Compiling
import NpcScript.Proofs.Grammar

/-! # The language that is accepted

A source is accepted if no error is reported for it; tabs, text after a
function and a missing end are warnings. What is accepted is said here without
the compiler: by the form of each line that is read, and by the room that the
lines need. -/
namespace NpcScript

variable {σ : Type}

/-- There is no error among some problems. -/
def Quiet (is : List Diagnostic) : Prop := ∀ i ∈ is, i.level ≠ .error

theorem quiet_nil : Quiet [] := nofun

theorem quiet_append {is js : List Diagnostic} : Quiet (is ++ js) ↔ Quiet is ∧ Quiet js :=
  List.forall_mem_append

/-- An error that depends on a condition. -/
theorem quiet_ite {p : Prop} [Decidable p] {i : Diagnostic} (h : i.level = .error) :
    Quiet (if p then [i] else []) ↔ ¬ p := by
  split
  · rename_i hp
    simp [Quiet, h, hp]
  · rename_i hp
    simp [Quiet, hp]

/-- Of errors, only none at all is quiet. -/
theorem quiet_iff_eq_nil {is : List Diagnostic} (h : ∀ i ∈ is, i.level = .error) :
    Quiet is ↔ is = [] := by
  constructor
  · intro hq
    rw [List.eq_nil_iff_forall_not_mem]
    intro i hi
    exact hq i hi (h i hi)
  · rintro rfl
    exact quiet_nil

/-- Where a problem is reported does not change its level. -/
theorem quiet_map_stamp {is : List Diagnostic} (n : LineNumber) (script : String) :
    Quiet (is.map fun i => (i.inLine n).inScript script) ↔ Quiet is :=
  List.forall_mem_map

theorem Log.hadError_eq_false_iff (l : Log) :
    l.hadError = false ↔ Quiet l.notes ∧ l.refusals = 0 := by
  rw [hadError_eq, Bool.or_eq_false_iff, decide_eq_false_iff_not, Nat.not_lt, Nat.le_zero,
    List.any_eq_false]
  simp only [decide_eq_true_eq]
  rfl

/-! ## A line with text has a first word -/

theorem Text.exists_not_isBlank {cs : List Char} (h : trimEnd cs ≠ []) :
    ∃ x ∈ trimEnd cs, isBlank x = false := by
  unfold trimEnd at h ⊢
  cases hd : cs.reverse.dropWhile isBlank with
  | nil =>
    rw [hd] at h
    exact absurd rfl h
  | cons x rest =>
    refine ⟨x, by simp, ?_⟩
    have hne : cs.reverse.dropWhile isBlank ≠ [] := by
      rw [hd]
      exact List.cons_ne_nil _ _
    have hx := List.head_dropWhile_not isBlank hne
    simpa [hd] using hx

theorem mem_spaceOperators {x : Char} {line : List Char} (h : x ∈ line) : x ∈ spaceOperators line := by
  rw [← map_char_cells line] at h
  obtain ⟨cell, hc, rfl⟩ := List.mem_map.1 h
  refine List.mem_flatMap.2 ⟨cell, hc, ?_⟩
  unfold Cell.spaced
  split <;> simp

theorem Lexeme.exists_first {x : Char} {cs : List Char} (hx : x ∈ cs) (hb : Text.isBlank x = false) :
    ∃ l rest, first? cs = some (l, rest) := by
  unfold first?
  cases ht : Text.trimStart cs with
  | nil =>
    rw [Text.trimStart, List.dropWhile_eq_nil_iff] at ht
    rw [ht x hx] at hb
    cases hb
  | cons c rest => exact ⟨_, _, rfl⟩

namespace Reader

variable (r : Reader σ) (n : LineNumber)

theorem exists_of_mem_readings {s : σ} {ls : List Lexeme} {x : Reading σ}
    (hx : x ∈ r.readings n s ls) : ∃ s' l, x = r.read n s' l := by
  induction ls generalizing s with
  | nil => cases hx
  | cons l ls ih =>
    rcases List.mem_cons.1 hx with rfl | hx
    · exact ⟨s, l, rfl⟩
    · exact ih hx

theorem exists_of_mem_readLine {s : σ} {text : List Char} {x : Reading σ}
    (hx : x ∈ r.readLine n s text) : ∃ s' l, x = r.read n s' l := by
  have key : x ∈ r.readings n s (lexemes text) := by
    unfold readLine at hx
    generalize r.readings n s (lexemes text) = xs at hx
    cases xs with
    | nil => exact hx
    | cons y ys =>
      dsimp only at hx
      split at hx
      · exact hx
      · rw [List.mem_singleton.1 hx]
        exact List.mem_cons_self
  exact r.exists_of_mem_readings n key

end Reader

theorem level_of_mem_endIssues {ts : List Token} {stored : Nat} {i : Diagnostic}
    (h : i ∈ endIssues ts stored) : i.level = .error := by
  unfold endIssues at h
  split at h
  · rw [List.mem_singleton.1 h]
    rfl
  · cases h

section

variable {xs : List (Reading σ)} (he : ∀ x ∈ xs, ∀ i ∈ x.issues, i.level = .error)
include he

theorem RightSide.level_of_mem_issues {m : RightSide} {i : Diagnostic} (h : i ∈ m.issues xs) :
    i.level = .error := by
  induction xs generalizing m with
  | nil => cases h
  | cons x xs ih =>
    obtain ⟨hx, hxs⟩ := List.forall_mem_cons.1 he
    rw [issues, List.mem_append, List.mem_append, Option.mem_toList] at h
    rcases h with (h | h) | h
    · exact hx i h
    · exact (code_of_mem_complaint h).2
    · exact ih hxs h

theorem level_of_mem_assignIssues {target : Token} {i : Diagnostic} (h : i ∈ assignIssues target xs) :
    i.level = .error := by
  cases xs with
  | nil =>
    rw [List.mem_singleton.1 h]
    rfl
  | cons x xs =>
    obtain ⟨hx, hxs⟩ := List.forall_mem_cons.1 he
    rw [assignIssues] at h
    split at h
    · rcases List.mem_append.1 h with h | h
      · exact hx i h
      · exact RightSide.level_of_mem_issues hxs h
    · rcases List.mem_append.1 h with h | h
      · exact hx i h
      · rcases List.mem_cons.1 h with rfl | h
        · rfl
        · rw [List.mem_append, Option.mem_toList] at h
          rcases h with h | h
          · exact (RightSide.code_of_mem_complaint h).2
          · exact RightSide.level_of_mem_issues hxs h

end

theorem mem_assignIssues {target : Token} {xs : List (Reading σ)} {x : Reading σ} (hx : x ∈ xs)
    {i : Diagnostic} (hi : i ∈ x.issues) : i ∈ assignIssues target xs := by
  cases xs with
  | nil => cases hx
  | cons y xs =>
    rw [assignIssues]
    rcases List.mem_cons.1 hx with rfl | hx
    · split <;> simp [hi]
    · split
      · exact List.mem_append_right _ (RightSide.mem_issues hx hi _)
      · simp [RightSide.mem_issues hx hi]

namespace LineReading

/-- What holds of every line that was read: a problem in reading is an error, an
unknown word is one, only a variable has words after it that are read, and a
value from the table can be encoded. -/
structure Genuine (l : LineReading σ) : Prop where
  errors : ∀ x ∈ l.readings, ∀ i ∈ x.issues, i.level = .error
  unknown : ∀ x ∈ l.readings, x.token.kind = none → x.issues ≠ []
  alone : ∀ x xs, l.readings = x :: xs → x.token.isVariable = false → xs = []
  readings_ne_nil : l.line.isEmpty = false → l.readings ≠ []
  readings_eq_nil : l.line.isEmpty = true → l.readings = []
  fits : ∀ x ∈ l.readings, ∀ k, x.token.kind = some k → k ≠ .constant → x.token.isAssign = false →
    k.fits x.token.value = true

/-- The statement of a line is one of three: the end, a function, or an
assignment. -/
def HasForm (l : LineReading σ) : Prop :=
  l.endsScript = true ∨ (∃ f, l.tokens.head? = some f ∧ f.isFunction = true) ∨
    ∃ a : Assignment, l.tokens = a.tokens

/-- A line with text as it should be. -/
structure WellWritten (l : LineReading σ) : Prop where
  /-- Two spaces for each level, and at most fifteen levels. -/
  indented : ∃ depth ≤ 15, IndentedBy (2 * depth) l.line.text
  /-- Every word that is read is read without an error. -/
  readable : ∀ x ∈ l.readings, x.issues = []
  form : l.HasForm

variable {l : LineReading σ} {x : Reading σ} {xs : List (Reading σ)}

theorem quiet_indentIssues :
    Quiet l.indentIssues ↔ ∃ depth ≤ 15, IndentedBy (2 * depth) l.line.text := by
  have hodd : (Diagnostic.oddIndentation l.spaces).level = .error := rfl
  have hdeep : (Diagnostic.tooDeep l.level Word.maxIndent).level = .error := rfl
  simp only [← SourceLine.leadingSpaces_eq_iff]
  rw [indentIssues, quiet_append, quiet_ite hodd, quiet_ite hdeep, level, Word.maxIndent, bne_iff_ne, spaces]
  constructor
  · intro h
    exact ⟨l.line.leadingSpaces / 2, by omega, by omega⟩
  · rintro ⟨depth, hdepth, hspaces⟩
    omega

theorem hasForm_of_function (h : l.readings = x :: xs) (hf : x.token.kind = some .function) :
    l.HasForm := by
  refine .inr (.inl ⟨x.token, ?_, decide_eq_true hf⟩)
  rw [tokens, h]
  rfl

theorem hasForm_of_var (h : l.readings = x :: xs) (hv : x.token.kind = some .var) :
    l.HasForm ↔ ∃ a : Assignment, x.token :: xs.map Reading.token = a.tokens := by
  have ht : l.tokens = x.token :: xs.map Reading.token := by
    rw [tokens, h]
    rfl
  have hne : x.token.kind ≠ some .function := by
    rw [hv]
    decide
  unfold HasForm
  rw [l.endsScript_of_ne h hne, ht]
  constructor
  · rintro (hc | ⟨f, hf, hfun⟩ | ha)
    · cases hc
    · cases hf
      exact absurd (Token.kind_of_isFunction hfun) hne
    · exact ha
  · exact fun ha => .inr (.inr ha)

theorem not_hasForm_of_other (h : l.readings = x :: xs) (hf : x.token.kind ≠ some .function)
    (hv : x.token.kind ≠ some .var) : ¬ l.HasForm := by
  have ht : l.tokens = x.token :: xs.map Reading.token := by
    rw [tokens, h]
    rfl
  unfold HasForm
  rw [l.endsScript_of_ne h hf, ht]
  rintro (hc | ⟨f, he, hfun⟩ | ⟨a, ha⟩)
  · cases hc
  · cases he
    exact hf (Token.kind_of_isFunction hfun)
  · obtain ⟨he, _⟩ := List.cons.inj ha
    have hvar := Token.kind_of_isVariable a.isVariable_target
    rw [← he] at hvar
    exact hv hvar

section

variable (g : l.Genuine) (hx : l.readings = x :: xs) (room : Nat)
include g hx

theorem Genuine.quiet_first : Quiet x.issues ↔ x.issues = [] := by
  refine quiet_iff_eq_nil (g.errors x ?_)
  rw [hx]
  exact List.mem_cons_self

theorem Genuine.quiet_of_function (hf : x.token.kind = some .function) :
    Quiet (l.statementIssues room) ↔ (∀ y ∈ l.readings, y.issues = []) ∧ l.HasForm := by
  have hv : x.token.isVariable = false := by
    rw [Token.isVariable, hf]
    rfl
  have hxs : xs = [] := g.alone x xs hx hv
  -- text after a function is only a warning
  have hwarn : Quiet (if l.endsScript || (Text.trim l.rest).isEmpty then []
      else [.trailingText x.token.word (String.ofList (Text.trim l.rest))]) := by
    split
    · exact quiet_nil
    · intro i hi hlevel
      rw [List.mem_singleton.1 hi] at hlevel
      cases hlevel
  rw [l.statementIssues_of_function hx hf, quiet_append, g.quiet_first hx, hx, hxs,
    List.forall_mem_singleton]
  exact ⟨fun h => ⟨h.1, hasForm_of_function hx hf⟩, fun h => ⟨h.1, hwarn⟩⟩

/-- Problems in reading are among those of the assignment, and once there are
none of them every token is known. -/
theorem Genuine.quiet_of_var (hv : x.token.kind = some .var) :
    Quiet (l.statementIssues room) ↔ (∀ y ∈ l.readings, y.issues = []) ∧ l.HasForm := by
  have herr := g.errors
  have hunk := g.unknown
  rw [hx] at herr hunk
  obtain ⟨_, herr⟩ := List.forall_mem_cons.1 herr
  obtain ⟨_, hunk⟩ := List.forall_mem_cons.1 hunk
  have hall : ∀ i ∈ assignIssues x.token xs ++ endIssues (xs.map Reading.token)
      (min (assignWords (xs.map Reading.token)).length (room - 2)), i.level = .error := by
    intro i hi
    rcases List.mem_append.1 hi with hi | hi
    · exact level_of_mem_assignIssues herr hi
    · exact level_of_mem_endIssues hi
  have known (hi : ∀ y ∈ xs, y.issues = []) : ∀ y ∈ xs, y.token.isUnknown = false := by
    intro y hy
    cases hk : y.token.kind with
    | none => exact absurd (hi y hy) (hunk y hy hk)
    | some k =>
      rw [Token.isUnknown, hk]
      rfl
  have hvar : x.token.isVariable = true := decide_eq_true hv
  rw [l.statementIssues_of_var hx hv, quiet_append, g.quiet_first hx, quiet_iff_eq_nil hall,
    hasForm_of_var hx hv, hx, List.forall_mem_cons, and_assoc]
  refine and_congr_right fun _ => ⟨fun h => ?_, ?_⟩
  · have hi : ∀ y ∈ xs, y.issues = [] := by
      intro y hy
      rw [List.eq_nil_iff_forall_not_mem]
      intro i hi
      have hmem : i ∈ assignIssues x.token xs := mem_assignIssues hy hi
      rw [(List.append_eq_nil_iff.1 h).1] at hmem
      cases hmem
    exact ⟨hi, (assign_quiet_iff hvar hi (known hi) _).1 h⟩
  · rintro ⟨hi, hform⟩
    exact (assign_quiet_iff hvar hi (known hi) _).2 hform

/-- An unknown word is reported as such, any other as no statement. -/
theorem Genuine.not_quiet_of_other (hf : x.token.kind ≠ some .function)
    (hv : x.token.kind ≠ some .var) : ¬ Quiet (l.statementIssues room) := by
  rw [l.statementIssues_of_other hx hf hv, quiet_append, g.quiet_first hx]
  rintro ⟨hi, hq⟩
  cases hk : x.token.kind with
  | none => exact g.unknown x (by rw [hx]; exact List.mem_cons_self) hk hi
  | some k =>
    rw [Token.isUnknown, hk, Option.isNone_some, if_neg Bool.false_ne_true] at hq
    exact hq _ List.mem_cons_self rfl

end

/-- The statement of a line gives no error exactly if it has a form and all of
its words are readable. How much room is left does not matter. -/
theorem Genuine.quiet_statementIssues (g : l.Genuine) (hn : l.readings ≠ []) (room : Nat) :
    Quiet (l.statementIssues room) ↔ (∀ x ∈ l.readings, x.issues = []) ∧ l.HasForm := by
  obtain ⟨x, xs, hx⟩ := List.exists_cons_of_ne_nil hn
  by_cases hf : x.token.kind = some .function
  · exact g.quiet_of_function hx room hf
  · by_cases hv : x.token.kind = some .var
    · exact g.quiet_of_var hx room hv
    · exact iff_of_false (g.not_quiet_of_other hx room hf hv)
        fun h => not_hasForm_of_other hx hf hv h.2

/-- A line is accepted if it is not too long, and well written unless it has no
text. -/
def Accepted (maxLine : Nat) (l : LineReading σ) : Prop :=
  l.width ≤ maxLine ∧ (l.line.isEmpty = false → l.WellWritten)

theorem Genuine.quiet_issues (g : l.Genuine) {maxLine : Nat}
    (ht : l.line.truncated = decide (maxLine < l.width)) (room : Nat) :
    Quiet (l.issues maxLine room) ↔ l.Accepted maxLine := by
  have htabs : Quiet (if 0 < l.line.tabs then [.tabs l.line.tabs] else []) := by
    intro i hi
    split at hi
    · rw [List.mem_singleton.1 hi]
      nofun
    · cases hi
  have hlong : (Diagnostic.lineTooLong maxLine).level = .error := rfl
  rw [issues, quiet_append, quiet_append, quiet_ite hlong, ht, decide_eq_true_iff, Nat.not_lt]
  refine (and_iff_right htabs).trans (and_congr_right fun _ => ?_)
  cases he : l.line.isEmpty with
  | true => simp [quiet_nil]
  | false =>
    rw [if_neg Bool.false_ne_true, quiet_append, quiet_indentIssues,
      g.quiet_statementIssues (g.readings_ne_nil he)]
    exact ⟨fun h _ => ⟨h.1, h.2.1, h.2.2⟩, fun h => ⟨(h rfl).indented, (h rfl).readable, (h rfl).form⟩⟩

end LineReading

namespace Compiler

variable (c : Compiler σ)

theorem genuine_readBody (n : LineNumber) (s : σ) (body : List Char) :
    (c.readBody n s body).Genuine where
  errors x hx i hi := by
    obtain ⟨s', l, rfl⟩ := c.reader.exists_of_mem_readLine n hx
    exact (c.reader.of_mem_issues_read n s' hi).2.1
  unknown x hx hk := by
    obtain ⟨s', l, rfl⟩ := c.reader.exists_of_mem_readLine n hx
    exact (c.reader.meaning_read n s' l).issues_ne_nil hk
  alone x xs he hv := by
    change c.reader.readLine n s _ = x :: xs at he
    unfold Reader.readLine at he
    split at he
    · cases he
    · split at he
      · rename_i hvar
        cases he
        rw [hv] at hvar
        cases hvar
      · cases he
        rfl
  readings_ne_nil he := by
    have ht : (SourceLine.ofBody c.limits.maxLine body).text ≠ [] := by
      intro h0
      have h1 : (SourceLine.ofBody c.limits.maxLine body).isEmpty = true := List.isEmpty_iff.2 h0
      change (SourceLine.ofBody c.limits.maxLine body).isEmpty = false at he
      rw [h1] at he
      cases he
    obtain ⟨x, hx, hb⟩ := Text.exists_not_isBlank ht
    obtain ⟨l, rest, hf⟩ := Lexeme.exists_first (mem_spaceOperators hx) hb
    have hr : (c.readBody n s body).readings = _ := c.reader.readLine_of_some n s hf
    rw [hr]
    exact List.cons_ne_nil _ _
  readings_eq_nil he := c.readings_of_isEmpty n s he
  fits x hx k hk hc ha := by
    obtain ⟨s', l, rfl⟩ := c.reader.exists_of_mem_readLine n hx
    obtain ⟨_, _, _, _, _, _, hfits⟩ := (c.reader.meaning_read n s' l).of_symbol hk hc ha
    exact hfits

theorem exists_of_mem_readLines {n : LineNumber} {s : σ} {ss : List Segment} {l : LineReading σ}
    (hl : l ∈ c.readLines n s ss) : ∃ n' s' body, l = c.readBody n' s' body := by
  induction ss generalizing n s with
  | nil => cases hl
  | cons segment ss ih =>
    rw [readLines] at hl
    split at hl
    · rw [List.mem_singleton.1 hl]
      exact ⟨_, _, _, rfl⟩
    · rcases List.mem_cons.1 hl with rfl | hl
      · exact ⟨_, _, _, rfl⟩
      · exact ih hl

/-- Every token of a source comes from a word that was read. -/
theorem exists_of_mem_tokens {s : σ} {source : List Char} {l : LineReading σ}
    (hl : l ∈ c.readSource s source) {t : Token} (ht : t ∈ l.tokens) :
    ∃ n s' word, t = (c.reader.read n s' word).token ∧ c.reader.read n s' word ∈ l.readings := by
  obtain ⟨n, s, body, rfl⟩ := c.exists_of_mem_readLines hl
  obtain ⟨x, hx, rfl⟩ := List.mem_map.1 ht
  obtain ⟨s', word, rfl⟩ := c.reader.exists_of_mem_readLine n hx
  exact ⟨n, s', word, rfl, hx⟩

theorem genuine_of_mem {s : σ} {source : List Char} {l : LineReading σ}
    (hl : l ∈ c.readSource s source) : l.Genuine := by
  obtain ⟨n', s', body, rfl⟩ := c.exists_of_mem_readLines hl
  exact c.genuine_readBody n' s' body

theorem quiet_issues_of_mem {s : σ} {source : List Char} {l : LineReading σ}
    (hl : l ∈ c.readSource s source) (room : Nat) :
    Quiet (l.issues c.limits.maxLine room) ↔ l.Accepted c.limits.maxLine := by
  refine (c.genuine_of_mem hl).quiet_issues ?_ room
  obtain ⟨n', s', body, rfl⟩ := c.exists_of_mem_readLines hl
  rfl

/-- The lines of a source are quiet exactly if each is accepted. -/
theorem quiet_reports {ls : List (LineReading σ)} {maxLine : Nat}
    (h : ∀ l ∈ ls, ∀ room, Quiet (l.issues maxLine room) ↔ l.Accepted maxLine) (script : String)
    (room : Nat) :
    Quiet (LineReading.reports script maxLine room ls) ↔ ∀ l ∈ ls, l.Accepted maxLine := by
  induction ls generalizing room with
  | nil => exact iff_of_true quiet_nil nofun
  | cons l ls ih =>
    obtain ⟨hl, hls⟩ := List.forall_mem_cons.1 h
    rw [LineReading.reports, quiet_append, quiet_map_stamp, hl, ih hls, List.forall_mem_cons]

theorem quiet_sourceIssues (source : List Char) :
    Quiet (c.sourceIssues source) ↔ Text.byteLength source ≤ c.limits.maxSource := by
  unfold sourceIssues
  split
  · rename_i hs
    exact iff_of_true quiet_nil hs
  · rename_i hs
    exact iff_of_false (fun hq => hq _ List.mem_cons_self rfl) hs

theorem quiet_endingIssues (ls : List (LineReading σ)) :
    Quiet (c.endingIssues ls) ↔ c.symbols.end?.isSome = true := by
  have hwarn : Quiet (if ls.any LineReading.endsScript then [] else [.missingEnd]) := by
    intro i hi
    split at hi
    · cases hi
    · rw [List.mem_singleton.1 hi]
      nofun
  rw [endingIssues, quiet_append, and_iff_right hwarn]
  split
  · rename_i hs
    exact iff_of_true quiet_nil hs
  · rename_i hs
    exact iff_of_false (fun hq => hq _ List.mem_cons_self rfl) hs

/-- A source is accepted if it is not too long, each of its lines is accepted,
the script can be ended, and the blocks find room. -/
theorem hadError_compile_iff (state : σ) (name : String) (source : List Char) :
    (c.compile state name source).log.hadError = false ↔
      Text.byteLength source ≤ c.limits.maxSource ∧
        (∀ l ∈ c.lineReadings state source, l.Accepted c.limits.maxLine) ∧
        c.symbols.end?.isSome = true ∧ totalSize (c.blocks state source) ≤ c.limits.maxWords := by
  obtain ⟨hh, hlim, hnotes, _⟩ := c.draft_spec state name source
  have hrefused : (c.draft state name source).log.refusals = 0 ↔
      totalSize (c.blocks state source) ≤ c.limits.maxWords := by
    rw [hh.offered.refusals, hh.offered.closed, hlim]
    rcases Nat.lt_or_ge c.limits.maxWords (totalSize (c.blocks state source)) with hw | hw
    · simp [hw]
    · simp [Nat.not_lt.2 hw, hw]
  have hreports : Quiet (LineReading.reports name c.limits.maxLine c.limits.maxWords
      (c.lineReadings state source)) ↔
        ∀ l ∈ c.lineReadings state source, l.Accepted c.limits.maxLine :=
    quiet_reports (fun l hl room => c.quiet_issues_of_mem hl room) _ _
  change (c.draft state name source).log.hadError = false ↔ _
  rw [Log.hadError_eq_false_iff, hnotes, hrefused, notes, quiet_append, quiet_append, quiet_map_stamp,
    quiet_map_stamp, quiet_sourceIssues, quiet_endingIssues, hreports, and_assoc, and_assoc]

end Compiler

/-! ## The room that lines need -/

theorem countP_pairTokens {ps : List (Token × Token)} (h : Paired ps) :
    (pairTokens ps).countP Token.isOperand = ps.length := by
  induction ps with
  | nil => rfl
  | cons p ps ih =>
    obtain ⟨⟨ho, hf⟩, hp⟩ := paired_cons.1 h
    rw [pairTokens_cons, List.countP_cons_of_neg (by simp [Token.isOperand_eq_false ho]),
      List.countP_cons_of_pos hf, ih hp, List.length_cons]

theorem Assignment.countP_tokens (a : Assignment) :
    a.tokens.tail.countP Token.isOperand = a.terms.length := by
  have hs : a.sign.isOperand = false := by
    obtain ⟨hk, _⟩ := Bool.and_eq_true_iff.1 a.isAssign_sign
    simp [Token.isOperand, Token.isConstant, Token.isVariable, of_decide_eq_true hk]
  rw [tokens, List.tail_cons, List.countP_cons_of_neg (by simp [hs]),
    List.countP_cons_of_pos a.isOperand_first, countP_pairTokens a.paired_rest, terms,
    List.length_cons, List.length_map]

namespace LineReading

/-- The words that a line takes: two for a function, two and one for each
operand for an assignment, none for the line that ends the script. -/
def wordCount (l : LineReading σ) : Nat :=
  match l.tokens with
  | [] => 0
  | _ :: ts => if l.endsScript then 0 else 2 + ts.countP Token.isOperand

variable {l : LineReading σ}

theorem wordCount_of_cons {x : Reading σ} {xs : List (Reading σ)} (h : l.readings = x :: xs) :
    l.wordCount = if l.endsScript then 0 else 2 + (xs.map Reading.token).countP Token.isOperand := by
  rw [wordCount, tokens, h]
  rfl

theorem Genuine.totalSize_blocks (g : l.Genuine) (h : l.line.isEmpty = false → l.WellWritten) :
    totalSize l.blocks = l.wordCount := by
  cases hr : l.readings with
  | nil =>
    rw [l.blocks_of_nil hr, wordCount, tokens, hr]
    rfl
  | cons x xs =>
    have hform : l.HasForm := by
      cases hl : l.line.isEmpty with
      | true =>
        rw [g.readings_eq_nil hl] at hr
        cases hr
      | false => exact (h hl).form
    rw [wordCount_of_cons hr]
    by_cases hf : x.token.kind = some .function
    · have hv : x.token.isVariable = false := by
        rw [Token.isVariable, hf]
        rfl
      rw [l.blocks_of_function hr hf, g.alone x xs hr hv]
      cases l.endsScript <;> rfl
    · by_cases hv : x.token.kind = some .var
      · obtain ⟨a, ha⟩ := (hasForm_of_var hr hv).1 hform
        have hts : xs.map Reading.token = a.tokens.tail := congrArg List.tail ha
        rw [l.blocks_of_var hr hv, l.endsScript_of_ne hr hf, if_neg Bool.false_ne_true, hts,
          a.countP_tokens]
        simp [Block.size, Block.assignment, assignWords_tokens]
      · exact absurd hform (not_hasForm_of_other hr hf hv)

end LineReading

namespace Compiler

variable (c : Compiler σ)

theorem totalSize_flatMap_blocks {ls : List (LineReading σ)}
    (h : ∀ l ∈ ls, totalSize l.blocks = l.wordCount) :
    totalSize (ls.flatMap LineReading.blocks) = (ls.map LineReading.wordCount).sum := by
  induction ls with
  | nil => rfl
  | cons l ls ih =>
    obtain ⟨hl, hls⟩ := List.forall_mem_cons.1 h
    rw [List.flatMap_cons, totalSize_append, hl, ih hls, List.map_cons, List.sum_cons]

/-- **What is accepted.** No error is reported exactly if the source is not too
long, no line that is read is, each with text is well written, the table can end
a script, and all words find room. -/
theorem accepted_iff_language (state : σ) (name : String) (source : List Char) :
    (c.compile state name source).log.hadError = false ↔
      Text.byteLength source ≤ c.limits.maxSource ∧
      (∀ l ∈ c.readSource state source,
        l.width ≤ c.limits.maxLine ∧ (l.line.isEmpty = false → l.WellWritten)) ∧
      c.symbols.end?.isSome = true ∧
      ((c.readSource state source).map LineReading.wordCount).sum + 2 ≤ c.limits.maxWords := by
  rw [hadError_compile_iff]
  refine and_congr_right fun hs => ?_
  have hls : c.lineReadings state source = c.readSource state source := by
    rw [lineReadings, kept, if_pos hs]
  rw [hls]
  refine and_congr_right fun hl => and_congr_right fun hend => ?_
  obtain ⟨e, he⟩ := Option.isSome_iff_exists.1 hend
  have hsize : totalSize (c.blocks state source) =
      ((c.readSource state source).map LineReading.wordCount).sum + 2 := by
    rw [blocks, hls, he, totalSize_append, totalSize_flatMap_blocks]
    · rfl
    · intro l hm
      exact (c.genuine_of_mem hm).totalSize_blocks (hl l hm).2
  rw [hsize]

example : ((tiny 8).compile () "tiny" "IfIdle\n  x = x + 1\nEnd".toList).log.hadError = false := by
  decide +kernel

-- three spaces are no indentation
example : ((tiny 8).compile () "tiny" "IfIdle\n   x = x + 1\nEnd".toList).log.hadError = true := by
  decide +kernel

end Compiler

end NpcScript
