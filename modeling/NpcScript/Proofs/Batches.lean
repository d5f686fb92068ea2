import NpcScript.Command.Run
import NpcScript.Proofs.FilePlaces

/-! # Batches

A run goes through its files in order. What becomes of one file, and what it
leaves for the next, is a step relation; a batch is a chain of such steps. The
exit code and the files of a run are then read off the chain. -/
namespace NpcScript
open NpcScript.Text

theorem Log.hadError_iff (l : Log) : l.hadError = true ↔ ∃ d ∈ l.entries, d.level = .error := by
  rw [hadError, ← Array.any_toList, List.any_eq_true]
  simp

/-! ## The content of a word file -/

/-- The numbers in a content of groups of four bytes, the lowest byte first. -/
def numbers? : List UInt8 → Option (List Nat)
  | [] => some []
  | a :: b :: c :: d :: rest =>
    (numbers? rest).map ((a.toNat + 0x100 * (b.toNat + 0x100 * (c.toNat + 0x100 * d.toNat))) :: ·)
  | _ => none

theorem Word.numbers?_append (w : Word) (rest : List UInt8) :
    numbers? (w.bytes ++ rest) = (numbers? rest).map (w.toNat :: ·) := by
  have hw := w.toNat_lt
  have hsum : w.toNat % 256 + 0x100 * (w.toNat / 0x100 % 256 +
      0x100 * (w.toNat / 0x10000 % 256 + 0x100 * (w.toNat / 0x1000000 % 256))) = w.toNat := by
    omega
  simp only [Word.bytes, List.cons_append, List.nil_append, numbers?, UInt8.toNat_ofNat', Nat.reducePow,
    hsum]

theorem Script.numbers?_bytes (s : Script) :
    numbers? s.bytes = some (s.words.toList.map Word.toNat) := by
  unfold Script.bytes
  induction s.words.toList with
  | nil => rfl
  | cons w ws ih =>
    rw [List.flatMap_cons, w.numbers?_append, ih]
    rfl

namespace Command

/-! ## Steps -/

/-- What a run works on: the files and the messages so far. -/
structure Stage where
  files : FileTree
  messages : MessageTable := {}

/-- What a file compiles to, if it can be read. -/
def Stage.compiled (s : Stage) (o : Options) (assets : AssetTable) (path : String) :
    Except FileError (Compiled MessageTable) :=
  ((s.files.read path).bind (sourceText o.limits.maxSource)).map
    ((o.compiler assets).compile s.messages path)

/-- What becomes of a file. -/
inductive Outcome
  | unread (e : FileError)
  | rejected (out : Compiled MessageTable)
  | checked (out : Compiled MessageTable)
  | unsaved (out : Compiled MessageTable) (e : FileError)
  | saved (out : Compiled MessageTable)

namespace Outcome

def succeeded : Outcome → Bool
  | checked _ | saved _ => true
  | unread _ | rejected _ | unsaved _ _ => false

/-- What is written for a file. -/
def writes (target : String) : Outcome → List (String × List UInt8)
  | saved out => [(target, out.script.bytes)]
  | _ => []

end Outcome

/-- One step of a run: a file is compiled, and its words are written if there is
no error and they are wanted. -/
inductive Processes (o : Options) (assets : AssetTable) (path : String) (s : Stage) :
    Outcome → Stage → Prop
  | unread {e : FileError} : s.compiled o assets path = .error e →
      Processes o assets path s (.unread e) s
  | rejected {out : Compiled MessageTable} : s.compiled o assets path = .ok out →
      (∃ d ∈ out.log.entries, d.level = .error) →
      Processes o assets path s (.rejected out) ⟨s.files, out.state⟩
  | checked {out : Compiled MessageTable} : s.compiled o assets path = .ok out →
      (∀ d ∈ out.log.entries, d.level ≠ .error) → o.check = true →
      Processes o assets path s (.checked out) ⟨s.files, out.state⟩
  | unsaved {out : Compiled MessageTable} {e : FileError} : s.compiled o assets path = .ok out →
      (∀ d ∈ out.log.entries, d.level ≠ .error) → o.check = false →
      s.files.write (o.target path) out.script.bytes = .error e →
      Processes o assets path s (.unsaved out e) ⟨s.files, out.state⟩
  | saved {out : Compiled MessageTable} {files : FileTree} : s.compiled o assets path = .ok out →
      (∀ d ∈ out.log.entries, d.level ≠ .error) → o.check = false →
      s.files.write (o.target path) out.script.bytes = .ok files →
      Processes o assets path s (.saved out) ⟨files, out.state⟩

/-- The steps of a run, one for each file. -/
inductive Runs (o : Options) (assets : AssetTable) :
    Stage → List String → List Outcome → Stage → Prop
  | nil (s : Stage) : Runs o assets s [] [] s
  | cons {s middle last : Stage} {path : String} {paths : List String} {x : Outcome}
      {xs : List Outcome} : Processes o assets path s x middle → Runs o assets middle paths xs last →
      Runs o assets s (path :: paths) (x :: xs) last

/-- What is written for the files of a run, in order. -/
def Options.writes (o : Options) (steps : List (String × Outcome)) : List (String × List UInt8) :=
  steps.flatMap fun step => step.2.writes (o.target step.1)

section

variable {o : Options} {assets : AssetTable} {path : String} {s s' : Stage} {x : Outcome}

theorem Processes.writtenBy (h : Processes o assets path s x s') :
    FileTree.WrittenBy (x.writes (o.target path)) s.files s'.files := by
  cases h with
  | unread | rejected | checked | unsaved => exact .refl _
  | saved _ _ _ hw => exact .single hw

/-- Saving leaves the words of the script in their file. -/
theorem Processes.read_saved {out : Compiled MessageTable}
    (h : Processes o assets path s (.saved out) s') :
    s'.files.read (o.target path) = .ok out.script.bytes := by
  cases h with
  | saved _ _ _ hw => exact FileTree.read_of_write hw

namespace Runs

variable {paths : List String} {xs : List Outcome}

theorem writtenBy (h : Runs o assets s paths xs s') :
    FileTree.WrittenBy (o.writes (paths.zip xs)) s.files s'.files := by
  induction h with
  | nil s => exact .refl _
  | cons hstep _ ih => exact hstep.writtenBy.trans ih

theorem length_eq (h : Runs o assets s paths xs s') : xs.length = paths.length := by
  induction h with
  | nil s => rfl
  | cons _ _ ih => rw [List.length_cons, List.length_cons, ih]

/-- What became of each file came about by a step. -/
theorem exists_step (h : Runs o assets s paths xs s') (hx : (path, x) ∈ paths.zip xs) :
    ∃ before after, Processes o assets path before x after ∧
      FileTree.SameDirectories s.files before.files := by
  induction h with
  | nil s => cases hx
  | cons hstep _ ih =>
    rcases List.mem_cons.1 hx with he | hx
    · obtain ⟨rfl, rfl⟩ := Prod.mk.inj he
      exact ⟨_, _, hstep, .refl _⟩
    · obtain ⟨before, after, hlater, hdirs⟩ := ih hx
      exact ⟨before, after, hlater, hstep.writtenBy.directories.trans hdirs⟩

/-- Every write comes from a file that compiled without an error. -/
theorem of_mem_writes (h : Runs o assets s paths xs s') {w : String × List UInt8}
    (hw : w ∈ o.writes (paths.zip xs)) :
    ∃ path out, (path, Outcome.saved out) ∈ paths.zip xs ∧
      (∀ d ∈ out.log.entries, d.level ≠ .error) ∧ o.check = false ∧ w.1 = o.target path := by
  obtain ⟨⟨path, x⟩, hx, hw⟩ := List.mem_flatMap.1 hw
  cases x with
  | unread | rejected | checked | unsaved => cases hw
  | saved out =>
    obtain ⟨_, _, hstep, _⟩ := h.exists_step hx
    cases hstep with
    | saved _ hok hcheck _ =>
      rw [List.mem_singleton.1 hw]
      exact ⟨path, out, hx, hok, hcheck, rfl⟩

end Runs

end

/-! ## What actions do to files -/

/-- What an action gives and leaves in the files, whatever has been printed. -/
def Leaves {α : Type} (m : StateM World α) (files : FileTree) (P : α → FileTree → Prop) : Prop :=
  ∀ w : World, w.files = files → P (m w).1 (m w).2.files

namespace Leaves

variable {α β : Type} {m : StateM World α} {files files' : FileTree} {path : String}
  {bytes : List UInt8} {P : α → FileTree → Prop} {Q : β → FileTree → Prop}

theorem pure {a : α} (h : P a files) : Leaves (Pure.pure a) files P := by
  rintro w rfl
  exact h

theorem bind {f : α → StateM World β} (h : Leaves m files P)
    (hf : ∀ a files', P a files' → Leaves (f a) files' Q) : Leaves (m >>= f) files Q :=
  fun w hw => hf _ _ (h w hw) _ rfl

theorem bind_warn {f : Unit → StateM World β} {text : String} (h : Leaves (f ()) files Q) :
    Leaves (Shell.warn text >>= f) files Q := fun _ hw => h _ hw

theorem bind_print {f : Unit → StateM World β} {text : String} (h : Leaves (f ()) files Q) :
    Leaves (Shell.print text >>= f) files Q := fun _ hw => h _ hw

theorem bind_trace {o : Options} {f : Unit → StateM World β} {text : String}
    (h : Leaves (f ()) files Q) : Leaves (trace o text >>= f) files Q := by
  unfold trace
  split
  · exact bind_warn h
  · exact h

theorem bind_read {f : Except FileError (List UInt8) → StateM World β}
    (h : Leaves (f (files.read path)) files Q) : Leaves (Shell.read path >>= f) files Q := by
  rintro w rfl
  exact h w rfl

theorem bind_write_ok {f : Except FileError Unit → StateM World β}
    (hw : files.write path bytes = .ok files') (h : Leaves (f (.ok ())) files' Q) :
    Leaves (Shell.write path bytes >>= f) files Q := by
  rintro w rfl
  simp only [Bind.bind, StateT.bind, Shell.write, hw]
  exact h _ rfl

theorem bind_write_error {f : Except FileError Unit → StateM World β} {e : FileError}
    (hw : files.write path bytes = .error e) (h : Leaves (f (.error e)) files Q) :
    Leaves (Shell.write path bytes >>= f) files Q := by
  rintro w rfl
  simp only [Bind.bind, StateT.bind, Shell.write, hw]
  exact h _ rfl

end Leaves

section

variable (o : Options) (assets : AssetTable) (files : FileTree) (b : Batch) (path : String)

/-- What is done with a script that has no error. -/
theorem leaves_save {out : Compiled MessageTable} {messages : MessageTable}
    (hout : Stage.compiled ⟨files, messages⟩ o assets path = .ok out)
    (hok : ∀ d ∈ out.log.entries, d.level ≠ .error) (hcheck : o.check = false) :
    Leaves (save o { b with messages := out.state } path out.script) files fun b' files' =>
      ∃ x, Processes o assets path ⟨files, messages⟩ x ⟨files', b'.messages⟩ ∧
        b'.success = (b.success && x.succeeded) := by
  unfold save
  cases hw : files.write (o.target path) out.script.bytes with
  | ok files' =>
    exact .bind_write_ok hw (.bind_trace (.pure
      ⟨_, .saved hout hok hcheck hw, (Bool.and_true _).symm⟩))
  | error e =>
    exact .bind_write_error hw (.bind_warn (.pure
      ⟨_, .unsaved hout hok hcheck hw, (Bool.and_false _).symm⟩))

theorem leaves_compileFile :
    Leaves (compileFile o assets b path) files fun b' files' =>
      ∃ x, Processes o assets path ⟨files, b.messages⟩ x ⟨files', b'.messages⟩ ∧
        b'.success = (b.success && x.succeeded) := by
  unfold compileFile
  refine .bind_read ?_
  cases hsource : (files.read path).bind (sourceText o.limits.maxSource) with
  | error e =>
    have hout : Stage.compiled ⟨files, b.messages⟩ o assets path = .error e := by
      rw [Stage.compiled, hsource]
      rfl
    exact .bind_warn (.pure ⟨_, .unread hout, (Bool.and_false _).symm⟩)
  | ok source =>
    have hout : Stage.compiled ⟨files, b.messages⟩ o assets path =
        .ok ((o.compiler assets).compile b.messages path source) := by
      rw [Stage.compiled, hsource]
      rfl
    refine .bind_trace (.bind_warn ?_)
    dsimp only
    generalize (o.compiler assets).compile b.messages path source = out at hout ⊢
    have hdone : Leaves (if out.log.hadError = true then Pure.pure ⟨out.state, false⟩
        else if o.check = true then Pure.pure { b with messages := out.state }
        else save o { b with messages := out.state } path out.script) files fun b' files' =>
          ∃ x, Processes o assets path ⟨files, b.messages⟩ x ⟨files', b'.messages⟩ ∧
            b'.success = (b.success && x.succeeded) := by
      split
      · rename_i herror
        exact .pure ⟨_, .rejected hout ((Log.hadError_iff _).1 herror), (Bool.and_false _).symm⟩
      · rename_i herror
        have hok : ∀ d ∈ out.log.entries, d.level ≠ .error :=
          fun d hd hlevel => herror ((Log.hadError_iff _).2 ⟨d, hd, hlevel⟩)
        split
        · rename_i hcheck
          exact .pure ⟨_, .checked hout hok hcheck, (Bool.and_true _).symm⟩
        · rename_i hcheck
          exact leaves_save o assets files b path hout hok (eq_false_of_ne_true hcheck)
    split
    · exact .bind_print hdone
    · exact hdone

theorem leaves_foldlM (paths : List String) :
    Leaves (paths.foldlM (compileFile o assets) b) files fun b' files' =>
      ∃ xs, Runs o assets ⟨files, b.messages⟩ paths xs ⟨files', b'.messages⟩ ∧
        b'.success = (b.success && xs.all Outcome.succeeded) := by
  induction paths generalizing b files with
  | nil => exact .pure ⟨[], .nil _, (Bool.and_true _).symm⟩
  | cons path paths ih =>
    rw [List.foldlM_cons]
    refine (leaves_compileFile o assets files b path).bind ?_
    rintro b' files' ⟨x, hstep, hsuccess⟩ w hw
    obtain ⟨xs, hruns, hall⟩ := ih files' b' w hw
    refine ⟨x :: xs, .cons hstep hruns, ?_⟩
    rw [hall, hsuccess, List.all_cons, Bool.and_assoc]

end

/-! ## Runs -/

/-- A run in a world, with its exit code. -/
def World.run (w : World) (o : Options) : UInt32 × World := (Command.run o : StateM World UInt32) w

namespace Options

/-- The assets of a run that starts with some files. -/
def assetsIn (o : Options) (files : FileTree) : Except FileError AssetTable :=
  match o.assets with
  | none => .ok {}
  | some path => (files.read path).bind assetList

/-- The message list of a run, as something to write. -/
def listWrites (o : Options) (t : MessageTable) : List (String × List UInt8) :=
  (o.messages.map fun path => (path, messageList t)).toList

/-- The files after the last file has been compiled and the message list, if one
is asked for, written. -/
def filesAfter (o : Options) (last : Stage) : Except FileError FileTree :=
  match o.messages with
  | none => .ok last.files
  | some path => last.files.write path (messageList last.messages)

/-- An output for more than one file. -/
def Overloaded (o : Options) : Prop := o.output.isSome = true ∧ 1 < o.files.length

end Options

variable {o : Options}

theorem leaves_giveUp (o : Options) (reason : String) (files : FileTree) :
    Leaves (giveUp o reason) files fun code files' => code = 2 ∧ files' = files := by
  unfold giveUp
  exact .bind_warn (.pure ⟨rfl, rfl⟩)

theorem leaves_loadAssets (o : Options) (files : FileTree) :
    Leaves (loadAssets o) files fun result files' => result = o.assetsIn files ∧ files' = files := by
  unfold loadAssets Options.assetsIn
  cases o.assets with
  | none => exact .pure ⟨rfl, rfl⟩
  | some path => exact .bind_read (.pure ⟨rfl, rfl⟩)

theorem leaves_finish (o : Options) (b : Batch) (files : FileTree) :
    Leaves (finish o b) files fun code files' =>
      (∃ e, o.filesAfter ⟨files, b.messages⟩ = .error e ∧ code = 2 ∧ files' = files) ∨
        o.filesAfter ⟨files, b.messages⟩ = .ok files' ∧ code = b.exitCode := by
  unfold finish Options.filesAfter
  cases o.messages with
  | none => exact .pure (.inr ⟨rfl, rfl⟩)
  | some path =>
    dsimp only
    cases hw : files.write path (messageList b.messages) with
    | ok files' => exact .bind_write_ok hw (.pure (.inr ⟨rfl, rfl⟩))
    | error e =>
      refine .bind_write_error hw fun w hfiles => .inl ?_
      exact ⟨e, rfl, leaves_giveUp o e.message files w hfiles⟩

theorem Options.writtenBy_filesAfter {last : Stage} {files : FileTree}
    (h : o.filesAfter last = .ok files) :
    FileTree.WrittenBy (o.listWrites last.messages) last.files files := by
  unfold Options.filesAfter at h
  unfold Options.listWrites
  cases hm : o.messages with
  | none =>
    rw [hm] at h
    cases h
    exact .refl _
  | some path =>
    rw [hm] at h
    exact .single h

/-- The message list is what was written last. -/
theorem Options.read_messageList {last : Stage} {files : FileTree} {path : String}
    (hm : o.messages = some path) (h : o.filesAfter last = .ok files) :
    files.read path = .ok (messageList last.messages) := by
  rw [Options.filesAfter, hm] at h
  exact FileTree.read_of_write h

section

variable (o) (w : World)

/-- A run that cannot start does nothing. -/
theorem run_of_refused (h : o.Overloaded ∨ ∃ e, o.assetsIn w.files = .error e) :
    (w.run o).1 = 2 ∧ (w.run o).2.files = w.files := by
  have key : Leaves (run o) w.files fun code files' => code = 2 ∧ files' = w.files := by
    unfold run
    split
    · exact leaves_giveUp o _ _
    · rename_i hout
      refine (leaves_loadAssets o w.files).bind ?_
      rintro result _ ⟨rfl, rfl⟩
      rcases h with ⟨hsome, hmany⟩ | ⟨e, he⟩
      · rw [hsome, decide_eq_true hmany] at hout
        exact absurd rfl hout
      · rw [he]
        exact leaves_giveUp o _ _
  exact key w rfl

/-- A run that can start goes through all of its files. -/
theorem run_of_started (hout : ¬ o.Overloaded) {assets : AssetTable}
    (hassets : o.assetsIn w.files = .ok assets) :
    ∃ xs last, Runs o assets ⟨w.files, {}⟩ o.files xs last ∧
      ((∃ e, o.filesAfter last = .error e ∧ (w.run o).1 = 2 ∧ (w.run o).2.files = last.files) ∨
        o.filesAfter last = .ok (w.run o).2.files ∧
          (w.run o).1 = if xs.all Outcome.succeeded then 0 else 1) := by
  have key : Leaves (run o) w.files fun code files' =>
      ∃ xs last, Runs o assets ⟨w.files, {}⟩ o.files xs last ∧
        ((∃ e, o.filesAfter last = .error e ∧ code = 2 ∧ files' = last.files) ∨
          o.filesAfter last = .ok files' ∧ code = if xs.all Outcome.succeeded then 0 else 1) := by
    unfold run
    rw [if_neg (by rwa [Bool.and_eq_true, decide_eq_true_iff])]
    refine (leaves_loadAssets o w.files).bind ?_
    rintro result _ ⟨rfl, rfl⟩
    rw [hassets]
    refine (leaves_foldlM o assets w.files {} o.files).bind ?_
    rintro b files ⟨xs, hruns, hsuccess⟩ w' hw'
    rw [Bool.true_and] at hsuccess
    have hend := leaves_finish o b files w' hw'
    rw [Batch.exitCode, hsuccess] at hend
    exact ⟨xs, _, hruns, hend⟩
  exact key w rfl

/-- A run that comes to its end has been through all of its files. -/
theorem run_of_finished (hcode : (w.run o).1 ≠ 2) :
    ∃ assets xs last, o.assetsIn w.files = .ok assets ∧ Runs o assets ⟨w.files, {}⟩ o.files xs last ∧
      o.filesAfter last = .ok (w.run o).2.files := by
  have hout : ¬ o.Overloaded := fun h => hcode (run_of_refused o w (.inl h)).1
  cases hassets : o.assetsIn w.files with
  | error e => exact absurd (run_of_refused o w (.inr ⟨e, hassets⟩)).1 hcode
  | ok assets =>
    obtain ⟨xs, last, hruns, ⟨_, _, htwo, _⟩ | ⟨hafter, _⟩⟩ := run_of_started o w hout hassets
    · exact absurd htwo hcode
    · exact ⟨assets, xs, last, rfl, hruns, hafter⟩

end

/-- **What a run does.** A run with one output for several files, or whose
assets cannot be loaded, ends with 2 and changes no file. Any other run takes
all of its files in order, whatever becomes of them. It ends with 2 if the
message list cannot be written, and else with 0 if every file succeeded and 1 if
one did not. No place changes but those of word files whose scripts have no
error, if word files are wanted, and of the message list. A word file that is
saved holds the numbers of its words. -/
theorem run_effects (o : Options) (w : World) :
    (o.Overloaded ∨ (∃ e, o.assetsIn w.files = .error e) →
      (w.run o).1 = 2 ∧ (w.run o).2.files = w.files) ∧
    ∀ assets, ¬ o.Overloaded → o.assetsIn w.files = .ok assets →
      ∃ xs last, Runs o assets ⟨w.files, {}⟩ o.files xs last ∧
        (∀ e, o.filesAfter last = .error e → (w.run o).1 = 2 ∧ (w.run o).2.files = last.files) ∧
        (∀ files, o.filesAfter last = .ok files → (w.run o).2.files = files ∧
          (w.run o).1 = if xs.all Outcome.succeeded then 0 else 1) ∧
        (∀ place, (w.run o).2.files.node? place ≠ w.files.node? place →
          (o.check = false ∧ ∃ path out, (path, Outcome.saved out) ∈ o.files.zip xs ∧
            (∀ d ∈ out.log.entries, d.level ≠ .error) ∧
            w.files.locate (o.target path) = .ok place) ∨
          ∃ path, o.messages = some path ∧ w.files.locate path = .ok place) ∧
        ∀ s path out s', Processes o assets path s (.saved out) s' →
          ∃ bytes, s'.files.read (o.target path) = .ok bytes ∧
            numbers? bytes = some (out.script.words.toList.map Word.toNat) := by
  refine ⟨run_of_refused o w, fun assets hout hassets => ?_⟩
  obtain ⟨xs, last, hruns, hend⟩ := run_of_started o w hout hassets
  refine ⟨xs, last, hruns, ?_, ?_, ?_, ?_⟩
  · intro e he
    rcases hend with ⟨_, _, hcode, hfiles⟩ | ⟨hok, _⟩
    · exact ⟨hcode, hfiles⟩
    · rw [he] at hok
      cases hok
  · intro files hfiles
    rcases hend with ⟨e, he, _⟩ | ⟨hok, hcode⟩
    · rw [he] at hfiles
      cases hfiles
    · rw [hfiles] at hok
      cases hok
      exact ⟨rfl, hcode⟩
  · intro place hne
    have hwritten : ∃ ws, FileTree.WrittenBy (o.writes (o.files.zip xs) ++ ws) w.files
        (w.run o).2.files ∧ ∀ x ∈ ws, o.messages = some x.1 := by
      rcases hend with ⟨_, _, _, hfiles⟩ | ⟨hok, _⟩
      · rw [hfiles]
        exact ⟨[], by rw [List.append_nil]; exact hruns.writtenBy, nofun⟩
      · refine ⟨_, hruns.writtenBy.trans (Options.writtenBy_filesAfter hok), ?_⟩
        intro x hx
        obtain ⟨path, hpath, rfl⟩ := Option.map_eq_some_iff.1 (Option.mem_toList.1 hx)
        exact hpath
    obtain ⟨ws, hwritten, hlist⟩ := hwritten
    obtain ⟨x, hx, hloc⟩ := hwritten.exists_of_ne hne
    rcases List.mem_append.1 hx with hx | hx
    · obtain ⟨path, out, hmem, hok, hcheck, htarget⟩ := hruns.of_mem_writes hx
      exact .inl ⟨hcheck, path, out, hmem, hok, htarget ▸ hloc⟩
    · exact .inr ⟨x.1, hlist x hx, hloc⟩
  · intro s path out s' hstep
    exact ⟨_, hstep.read_saved, out.script.numbers?_bytes⟩

/-- A file that is missing, before one that compiles. -/
theorem run_effects_missing :
    let o : Options := { files := ["gone.txt", "a.txt"] }
    let w : World := { files := { nodes := [(["a.txt"], .file (encode "tmpx = 1\nEnd".toList))] } }
    ¬ o.Overloaded ∧ o.assetsIn w.files = .ok {} ∧ (w.run o).1 = 1 ∧
      (w.run o).2.files.read "a.bin" =
        .ok [0, 0, 0, 0, 1, 0, 0, 0, 1, 0, 0, 0, 0x35, 0, 0, 0x80, 5, 0, 0, 0] ∧
      ∃ xs last, Runs o {} ⟨w.files, {}⟩ o.files xs last ∧ xs.all Outcome.succeeded = false := by
  intro o w
  have hout : ¬ o.Overloaded := fun h => absurd h.1 (by decide)
  have hcode : (w.run o).1 = 1 := by decide +kernel
  obtain ⟨xs, last, hruns, _, hend, _⟩ := (run_effects o w).2 {} hout rfl
  refine ⟨hout, rfl, hcode, by decide +kernel, xs, last, hruns, ?_⟩
  obtain ⟨_, hexit⟩ := hend last.files rfl
  rw [hcode] at hexit
  cases hall : xs.all Outcome.succeeded with
  | false => rfl
  | true =>
    rw [hall] at hexit
    cases hexit

end Command

end NpcScript
