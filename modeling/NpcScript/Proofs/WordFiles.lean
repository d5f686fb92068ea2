import NpcScript.Proofs.Batches

/-! # Word files after a run

A run saves the words of each script when it is compiled and does not look back.
Two scripts whose names differ in the extension have one word file, and the
message list can go to a word file too. So a word file holds, when all has gone
well, what was written last to its place. -/
namespace NpcScript.Command
open NpcScript.Text

variable {o : Options} {assets : AssetTable} {s s' : Stage} {paths : List String}

/-- Without `--check`, a file succeeds only by being saved. -/
theorem Processes.saved_of_succeeded {path : String} {x : Outcome} (hcheck : o.check = false)
    (h : Processes o assets path s x s') (hx : x.succeeded = true) : ∃ out, x = .saved out := by
  cases h with
  | unread | rejected | unsaved => cases hx
  | checked _ _ hc =>
    rw [hcheck] at hc
    cases hc
  | saved => exact ⟨_, rfl⟩

theorem Runs.saved_of_succeeded {xs : List Outcome} (hcheck : o.check = false)
    (h : Runs o assets s paths xs s') (hall : xs.all Outcome.succeeded = true) :
    ∃ outs : List (Compiled MessageTable), xs = outs.map .saved := by
  induction h with
  | nil s => exact ⟨[], rfl⟩
  | cons hstep _ ih =>
    obtain ⟨hx, hxs⟩ := Bool.and_eq_true_iff.1 (List.all_cons.symm.trans hall)
    obtain ⟨out, rfl⟩ := hstep.saved_of_succeeded hcheck hx
    obtain ⟨outs, rfl⟩ := ih hxs
    exact ⟨out :: outs, rfl⟩

/-- What is written for scripts that are saved. -/
def Options.savings (o : Options) (scripts : List (String × Compiled MessageTable)) :
    List (String × List UInt8) :=
  scripts.map fun p => (o.target p.1, p.2.script.bytes)

theorem Options.writes_saved (o : Options) (paths : List String)
    (outs : List (Compiled MessageTable)) :
    o.writes (paths.zip (outs.map .saved)) = o.savings (paths.zip outs) := by
  rw [Options.writes, List.zip_map_right, List.flatMap_map, Options.savings, List.map_eq_flatMap]
  rfl

/-- A script that was saved had a place for its words from the start. -/
theorem Runs.exists_place {outs : List (Compiled MessageTable)} {path : String}
    {out : Compiled MessageTable} (h : Runs o assets s paths (outs.map .saved) s')
    (hmem : (path, out) ∈ paths.zip outs) : ∃ place, s.files.locate (o.target path) = .ok place := by
  have hx : (path, Outcome.saved out) ∈ paths.zip (outs.map .saved) := by
    rw [List.zip_map_right]
    exact List.mem_map.2 ⟨_, hmem, rfl⟩
  obtain ⟨before, after, hstep, hdirs⟩ := h.exists_step hx
  cases hstep with
  | saved _ _ _ hw =>
    obtain ⟨place, hl, _⟩ := FileTree.write_eq_ok hw
    exact ⟨place, hdirs.locate_iff.1 hl⟩

/-- A run that ends with 0 and writes word files has saved all scripts. -/
theorem run_saved {w : World} (hcheck : o.check = false) (hcode : (w.run o).1 = 0) :
    ∃ assets outs last, o.assetsIn w.files = .ok assets ∧
      Runs o assets ⟨w.files, {}⟩ o.files (outs.map .saved) last ∧
      FileTree.WrittenBy (o.savings (o.files.zip outs) ++ o.listWrites last.messages) w.files
        (w.run o).2.files := by
  have hstart : ¬ (o.Overloaded ∨ ∃ e, o.assetsIn w.files = .error e) := by
    intro h
    have h2 := (run_of_refused o w h).1
    rw [hcode] at h2
    cases h2
  obtain ⟨hout, hload⟩ := not_or.1 hstart
  cases hassets : o.assetsIn w.files with
  | error e => exact absurd ⟨e, hassets⟩ hload
  | ok assets =>
    obtain ⟨xs, last, hruns, hend⟩ := run_of_started o w hout hassets
    rw [hcode] at hend
    rcases hend with ⟨_, _, h2, _⟩ | ⟨hfiles, hexit⟩
    · cases h2
    · have hall : xs.all Outcome.succeeded = true := by
        by_contra hne
        rw [if_neg hne] at hexit
        cases hexit
      obtain ⟨outs, rfl⟩ := hruns.saved_of_succeeded hcheck hall
      refine ⟨assets, outs, last, rfl, hruns, ?_⟩
      rw [← o.writes_saved]
      exact hruns.writtenBy.trans (Options.writtenBy_filesAfter hfiles)

/-- **The last write to a word file stays.** When a run without `--check` ends
with 0, every script has been saved. Its word file then holds the content that
was written last to that place, by a later script or as the message list, and
its own words if there was none. So it holds its own words exactly when nothing
else has come in their place. -/
theorem run_leaves_last_words {o : Options} {w : World} (hcheck : o.check = false)
    (hcode : (w.run o).1 = 0) :
    ∃ assets outs last, o.assetsIn w.files = .ok assets ∧
      Runs o assets ⟨w.files, {}⟩ o.files (outs.map .saved) last ∧
      ∀ pre path out post, o.files.zip outs = pre ++ (path, out) :: post →
        let later := o.savings post ++ o.listWrites last.messages
        let left := (w.run o).2.files.read (o.target path)
        ∃ place, w.files.locate (o.target path) = .ok place ∧
          left = .ok ((w.files.lastContent later place).getD out.script.bytes) ∧
          (left = .ok out.script.bytes ↔
            ∀ content ∈ w.files.lastContent later place, content = out.script.bytes) ∧
          numbers? out.script.bytes = some (out.script.words.toList.map Word.toNat) := by
  obtain ⟨assets, outs, last, hassets, hruns, hwritten⟩ := run_saved hcheck hcode
  refine ⟨assets, outs, last, hassets, hruns, ?_⟩
  intro pre path out post hsplit later left
  have hmem : (path, out) ∈ o.files.zip outs := by
    rw [hsplit]
    exact List.mem_append_cons_self
  obtain ⟨place, hplace⟩ := hruns.exists_place hmem
  have hlast : w.files.lastContent (o.savings (o.files.zip outs) ++ o.listWrites last.messages) place =
      some ((w.files.lastContent later place).getD out.script.bytes) := by
    have hsavings : o.savings (o.files.zip outs) ++ o.listWrites last.messages =
        o.savings pre ++ (o.target path, out.script.bytes) :: later := by
      rw [hsplit]
      simp [Options.savings, later]
    rw [hsavings, FileTree.lastContent_append, FileTree.lastContent_cons, if_pos hplace]
    cases w.files.lastContent later place <;> rfl
  have hleft : left = .ok ((w.files.lastContent later place).getD out.script.bytes) :=
    hwritten.read hplace hlast
  refine ⟨place, hplace, hleft, ?_, out.script.numbers?_bytes⟩
  rw [hleft, Except.ok.injEq]
  cases w.files.lastContent later place with
  | none => simp
  | some content => simp

/-- Two scripts with a word file each. -/
theorem run_leaves_last_words_apart :
    let o : Options := { files := ["a.txt", "b.txt"] }
    let w : World := { files := { nodes := [(["a.txt"], .file (encode "tmpx = 1\nEnd".toList)),
      (["b.txt"], .file (encode "tmpx = 2\nEnd".toList))] } }
    o.check = false ∧ (w.run o).1 = 0 ∧
      ∃ assets outs last, o.assetsIn w.files = .ok assets ∧
        Runs o assets ⟨w.files, {}⟩ o.files (outs.map .saved) last ∧
        ∃ out rest, outs = out :: rest ∧ (w.run o).2.files.read "a.bin" = .ok out.script.bytes := by
  intro o w
  have hcode : (w.run o).1 = 0 := by decide +kernel
  obtain ⟨assets, outs, last, hassets, hruns, hleft⟩ := run_leaves_last_words (o := o) rfl hcode
  refine ⟨rfl, hcode, assets, outs, last, hassets, hruns, ?_⟩
  have hlength : outs.length = 2 := (List.length_map _).symm.trans hruns.length_eq
  obtain ⟨out, other, rfl⟩ := List.length_eq_two.1 hlength
  obtain ⟨place, hplace, _, hown, _⟩ := hleft [] "a.txt" out [("b.txt", other)] rfl
  have ha : w.files.locate (o.target "a.txt") = .ok ["a.bin"] := by decide +kernel
  have hb : w.files.locate (o.target "b.txt") = .ok ["b.bin"] := by decide +kernel
  obtain rfl : ["a.bin"] = place := Except.ok.inj (ha.symm.trans hplace)
  refine ⟨out, [other], rfl, hown.2 ?_⟩
  intro content hcontent
  obtain ⟨x, hx, hloc, _⟩ := FileTree.exists_of_lastContent hcontent
  rw [List.mem_singleton.1 hx, hb] at hloc
  exact absurd hloc (by decide)

/-- Two scripts that differ in the extension: all goes well, and the words of the
first are lost. -/
theorem first_words_lost :
    let o : Options := { files := ["a.txt", "a.dat"] }
    let first := "tmpx = 1\nEnd".toList
    let w : World := { files := { nodes := [(["a.txt"], .file (encode first)),
      (["a.dat"], .file (encode "tmpx = 2\nEnd".toList))] } }
    o.check = false ∧ (w.run o).1 = 0 ∧
      (w.run o).2.files.read (o.target "a.txt") ≠
        .ok ((o.compiler {}).compile {} "a.txt" first).script.bytes := by
  decide +kernel

end NpcScript.Command
