import NpcScript.Proofs.Batches

/-! # Sources after a run

A word file has the extension `bin`, whatever the extension of its script. So a
run that writes word files only leaves every file with another extension as it
is, sources among them. A source that itself ends in `.bin` is where the words
of a script go, its own or those of a script beside it, and nothing keeps them
apart. -/
namespace NpcScript
open NpcScript.Text

/-- The piece behind the last separator. -/
theorem Text.getLast?_splitFrom {sep : Char} {piece : List Char} (h : sep ∉ piece)
    (pieces : List (List Char)) (cs : List Char) :
    (splitFrom sep pieces piece cs).getLast? =
      some ((piece.reverse ++ cs).reverse.takeWhile (· != sep)).reverse := by
  induction cs generalizing pieces piece with
  | nil =>
    have hpiece : piece.takeWhile (· != sep) = piece := by
      rw [List.takeWhile_eq_self_iff]
      intro x hx
      simpa using fun he : x = sep => h (he ▸ hx)
    rw [splitFrom, List.getLast?_reverse, List.head?_cons, List.append_nil, List.reverse_reverse, hpiece]
  | cons c cs ih =>
    rw [splitFrom]
    split
    · rename_i hc
      subst hc
      -- what stands before a separator is not looked at
      have hcut : (cs.reverse ++ c :: piece).takeWhile (· != c) = cs.reverse.takeWhile (· != c) := by
        rw [List.takeWhile_append]
        split
        · rename_i hall
          rw [List.takeWhile_cons_of_neg (by simp), List.append_nil]
          exact ((List.takeWhile_prefix _).eq_of_length hall).symm
        · rfl
      rw [ih List.not_mem_nil]
      simp [hcut]
    · rename_i hc
      rw [ih (by simpa using ⟨Ne.symm hc, h⟩)]
      simp

namespace Command

/-! ## Names of files -/

/-- What a path has behind its last slash. -/
def fileName (path : List Char) : List Char := (path.reverse.takeWhile (· != '/')).reverse

theorem slash_not_mem_fileName (path : List Char) : '/' ∉ fileName path := by
  intro h
  have := List.mem_takeWhile_imp (List.mem_reverse.1 h)
  simp at this

theorem exists_folder (path : List Char) :
    ∃ folder, path = folder ++ fileName path ∧
      ∀ name, '/' ∉ name → fileName (folder ++ name) = name := by
  refine ⟨(path.reverse.dropWhile (· != '/')).reverse, ?_, ?_⟩
  · rw [fileName, ← List.reverse_append, List.takeWhile_append_dropWhile, List.reverse_reverse]
  · intro name hname
    have hall : ∀ x ∈ name.reverse, (x != '/') = true := by
      intro x hx
      simpa using fun he : x = '/' => hname (he ▸ List.mem_reverse.1 hx)
    have hrest : (path.reverse.dropWhile (· != '/')).takeWhile (· != '/') = [] := by
      have hhead := List.head?_dropWhile_not (· != '/') path.reverse
      cases hd : path.reverse.dropWhile (· != '/') with
      | nil => rfl
      | cons x xs =>
        rw [hd] at hhead
        exact List.takeWhile_cons_of_neg (by simpa using hhead)
    rw [fileName, List.reverse_append, List.reverse_reverse, List.takeWhile_append_of_pos hall, hrest]
    simp

theorem getLast?_parts (path : String) :
    (FileTree.parts path).getLast? = some (String.ofList (fileName path.toList)) := by
  rw [FileTree.parts, List.getLast?_map, splitAtChar, getLast?_splitFrom List.not_mem_nil]
  rfl

/-- The extension of a word file with its dot. -/
def wordSuffix : List Char := ['.', 'b', 'i', 'n']

theorem mem_binaryName {name : List Char} {x : Char} (h : x ∈ binaryName name) :
    x ∈ name ∨ x ∈ wordSuffix := by
  have hbase : ∀ y ∈ dropExtension name, y ∈ name := by
    intro y hy
    unfold dropExtension at hy
    split at hy
    · exact List.mem_of_mem_take hy
    · exact hy
  unfold binaryName at h
  dsimp only at h
  split at h
  · exact .inl (hbase x h)
  · rcases List.mem_append.1 h with h | h
    · refine .inl (hbase x ?_)
      cases hs : splitExtension? (dropExtension name) with
      | none => simpa [hs] using h
      | some p =>
        rw [hs] at h
        unfold splitExtension? at hs
        split at hs
        · cases hs
        · dsimp only at hs
          split at hs
          · cases hs
          · cases hs
            exact List.mem_of_mem_take h
    · exact .inr h

/-- A word file's name has the extension, unless it is the name of no file. -/
theorem suffix_binaryName {name : List Char}
    (h : FileTree.isDots (String.ofList (binaryName name)) = false) :
    wordSuffix <:+ binaryName name := by
  unfold binaryName at h ⊢
  dsimp only at h ⊢
  split
  · rename_i hbase
    rw [if_pos hbase] at h
    simp only [Bool.or_eq_true, decide_eq_true_iff] at hbase
    rcases hbase with (hbase | hbase) | hbase <;> rw [hbase] at h <;> cases h
  · exact List.suffix_append _ _

theorem fileName_wordFile (path : String) :
    fileName (wordFile path).toList = binaryName (fileName path.toList) := by
  obtain ⟨folder, hpath, hname⟩ := exists_folder path.toList
  have hfolder : path.toList.take (path.toList.length - (fileName path.toList).length) = folder := by
    have hlength : path.toList.length = folder.length + (fileName path.toList).length := by
      rw [← List.length_append, ← hpath]
    rw [hlength, Nat.add_sub_cancel, hpath]
    exact List.take_left
  have hslash : '/' ∉ binaryName (fileName path.toList) := by
    intro h
    rcases mem_binaryName h with h | h
    · exact slash_not_mem_fileName _ h
    · exact absurd h (by decide)
  rw [wordFile, String.toList_ofList, ← hname _ hslash]
  rw [← fileName, hfolder]

/-! ## Places of sources -/

namespace FileTree

variable {t : FileTree} {path : String} {place : Place} {bytes : List UInt8}

theorem getLast?_of_locate (h : t.locate path = .ok place) :
    place.getLast? = some (String.ofList (fileName path.toList)) := by
  obtain ⟨folder, _, _, rfl, _⟩ := locate_eq_ok h
  rw [getLast?_parts]
  simp

/-- Words go to places with the extension of a word file. -/
theorem suffix_of_locate_wordFile {source : String} (h : t.locate (wordFile source) = .ok place) :
    ∃ name, place.getLast? = some name ∧ wordSuffix <:+ name.toList := by
  obtain ⟨_, _, hdots, _, _⟩ := locate_eq_ok h
  rw [getLast?_parts, Option.getD_some, fileName_wordFile] at hdots
  refine ⟨_, getLast?_of_locate h, ?_⟩
  rw [String.toList_ofList, fileName_wordFile]
  exact suffix_binaryName hdots

/-- A file that can be read could also be written. -/
theorem exists_locate_of_read (h : t.read path = .ok bytes) : ∃ place, t.locate path = .ok place := by
  unfold read at h
  dsimp only at h
  split at h
  · cases h
  · rename_i folder hwalk
    split at h
    · cases h
    · rename_i hdots
      have hlast : (parts path).reverse.dropWhile (· = "") = (parts path).reverse := by
        cases hr : (parts path).reverse with
        | nil => rfl
        | cons part rest =>
          have hpart : (parts path).getLast? = some part := by
            rw [← List.head?_reverse, hr]
            rfl
          have hne : part ≠ "" := by
            intro he
            rw [hpart, he] at hdots
            exact hdots rfl
          exact List.dropWhile_cons_of_neg (by simpa using hne)
      unfold locate
      dsimp only
      rw [hlast, List.reverse_reverse, hwalk]
      dsimp only
      rw [Bool.eq_false_iff.2 hdots, decide_eq_false (Nat.lt_irrefl _), Bool.or_self,
        if_neg Bool.false_ne_true]
      split at h
      · cases h
      · cases h
      · rename_i hnode
        rw [hnode]
        exact ⟨_, rfl⟩

end FileTree

/-- What is written goes where the words of some file go. -/
theorem Options.exists_of_mem_writes {o : Options} (hout : o.output = none)
    {steps : List (String × Outcome)} {write : String × List UInt8} (h : write ∈ o.writes steps) :
    ∃ source, write.1 = wordFile source := by
  obtain ⟨⟨source, x⟩, _, hx⟩ := List.mem_flatMap.1 h
  cases x with
  | unread | rejected | checked | unsaved => cases hx
  | saved out =>
    rw [List.mem_singleton.1 hx]
    exact ⟨source, by rw [Options.target, hout, Option.getD_none]⟩

/-- A file whose name does not end like that of a word file is not written to. -/
theorem Options.lastContent_writes_eq_none {o : Options} (hout : o.output = none) {t : FileTree}
    {path : String} {place : Place} (hplace : t.locate path = .ok place)
    (hname : ¬ wordSuffix <:+ path.toList) (steps : List (String × Outcome)) :
    t.lastContent (o.writes steps) place = none := by
  cases hc : t.lastContent (o.writes steps) place with
  | none => rfl
  | some content =>
    obtain ⟨write, hmem, hloc, _⟩ := FileTree.exists_of_lastContent hc
    obtain ⟨source, hsource⟩ := Options.exists_of_mem_writes hout hmem
    rw [hsource] at hloc
    obtain ⟨name, hlast, hsuffix⟩ := FileTree.suffix_of_locate_wordFile hloc
    rw [FileTree.getLast?_of_locate hplace] at hlast
    rw [← Option.some.inj hlast, String.toList_ofList] at hsuffix
    obtain ⟨folder, hpath, _⟩ := exists_folder path.toList
    exact absurd (hsuffix.trans ⟨folder, hpath.symm⟩) hname

/-- **What is left of a source.** In a run without `--output` and `--messages`, a
file that could be read before holds afterwards what was written last to its
place as the words of a script, and its old content if nothing was. So it is
unchanged exactly if no such words differ from it. Words go to names that end in
`.bin` only: every other source is unchanged. -/
theorem run_leaves_sources {o : Options} {w : World} (hout : o.output = none)
    (hlist : o.messages = none) {path : String} {bytes : List UInt8}
    (hread : w.files.read path = .ok bytes) :
    let left := (w.run o).2.files.read path
    (∀ e, o.assetsIn w.files = .error e → left = .ok bytes) ∧
    (∀ assets, o.assetsIn w.files = .ok assets →
      ∃ xs last place, Runs o assets ⟨w.files, {}⟩ o.files xs last ∧
        w.files.locate path = .ok place ∧
        let written := w.files.lastContent (o.writes (o.files.zip xs)) place
        left = .ok (written.getD bytes) ∧ (left = .ok bytes ↔ ∀ content ∈ written, content = bytes)) ∧
    (¬ wordSuffix <:+ path.toList → left = .ok bytes) := by
  intro left
  have hsingle : ¬ o.Overloaded := by
    intro h
    rw [Options.Overloaded, hout] at h
    exact absurd h.1 Bool.false_ne_true
  obtain ⟨place, hplace⟩ := FileTree.exists_locate_of_read hread
  have hrefused : ∀ e, o.assetsIn w.files = .error e → left = .ok bytes := by
    intro e he
    show (w.run o).2.files.read path = .ok bytes
    rw [(run_of_refused o w (.inr ⟨e, he⟩)).2, hread]
  have hstarted : ∀ assets, o.assetsIn w.files = .ok assets →
      ∃ xs last, Runs o assets ⟨w.files, {}⟩ o.files xs last ∧
        left = .ok ((w.files.lastContent (o.writes (o.files.zip xs)) place).getD bytes) := by
    intro assets hassets
    obtain ⟨xs, last, hruns, hend⟩ := run_of_started o w hsingle hassets
    have hfiles : (w.run o).2.files = last.files := by
      rcases hend with ⟨_, _, _, hfiles⟩ | ⟨hfiles, _⟩
      · exact hfiles
      · rw [Options.filesAfter, hlist] at hfiles
        exact (Except.ok.inj hfiles).symm
    refine ⟨xs, last, hruns, ?_⟩
    have hwritten := hruns.writtenBy
    show (w.run o).2.files.read path = _
    rw [hfiles, FileTree.read_eq_ok_iff (hwritten.directories.locate_of_ok hplace), hwritten.node,
      (FileTree.read_eq_ok_iff hplace).1 hread]
    cases w.files.lastContent (o.writes (o.files.zip xs)) place <;> rfl
  refine ⟨hrefused, ?_, ?_⟩
  · intro assets hassets
    obtain ⟨xs, last, hruns, hleft⟩ := hstarted assets hassets
    refine ⟨xs, last, place, hruns, hplace, hleft, ?_⟩
    rw [hleft, Except.ok.injEq]
    cases w.files.lastContent (o.writes (o.files.zip xs)) place with
    | none => simp
    | some content => simp
  · intro hname
    cases hassets : o.assetsIn w.files with
    | error e => exact hrefused e hassets
    | ok assets =>
      obtain ⟨xs, _, _, hleft⟩ := hstarted assets hassets
      rw [hleft, Options.lastContent_writes_eq_none hout hplace hname]
      rfl

/-- A source beside a file that its words replace. -/
theorem run_leaves_sources_text :
    let o : Options := { files := ["a.txt"] }
    let source := encode "tmpx = 1\nEnd".toList
    let w : World := { files := { nodes := [(["a.txt"], .file source), (["a.bin"], .file [])] } }
    o.output = none ∧ o.messages = none ∧ w.files.read "a.txt" = .ok source ∧
      ¬ wordSuffix <:+ "a.txt".toList ∧ (w.run o).2.files.read "a.txt" = .ok source ∧
      (w.run o).2.files.read "a.bin" ≠ w.files.read "a.bin" := by
  intro o source w
  have hname : ¬ wordSuffix <:+ "a.txt".toList := by decide
  have hread : w.files.read "a.txt" = .ok source := by decide +kernel
  exact ⟨rfl, rfl, hread, hname, (run_leaves_sources (o := o) rfl rfl hread).2.2 hname,
    by decide +kernel⟩

/-- A source with the extension of a word file: all goes well, and its words take
its place. -/
theorem source_overwritten :
    let o : Options := { files := ["a.bin"] }
    let source := encode "tmpx = 1\nEnd".toList
    let w : World := { files := { nodes := [(["a.bin"], .file source)] } }
    o.output = none ∧ o.messages = none ∧ w.files.read "a.bin" = .ok source ∧ (w.run o).1 = 0 ∧
      (w.run o).2.files.read "a.bin" ≠ .ok source := by
  decide +kernel

end Command

end NpcScript
