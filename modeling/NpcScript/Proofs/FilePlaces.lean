import Mathlib.Data.List.DropRight
import NpcScript.Command.FileTree

/-! # Places that are written to

Two paths can lead to one place. Where a path leads is decided by directories
alone, and writing makes and unmakes none, so it stays the same while files are
written. Hence the content of a place after some writes is what the last of the
paths that lead there was given. -/
namespace NpcScript.Command.FileTree

/-- Trees that lead every path to the same place. -/
structure SameDirectories (t u : FileTree) : Prop where
  here : u.here = t.here
  directory : ∀ place, u.node? place = some .directory ↔ t.node? place = some .directory

namespace SameDirectories

variable {t u v : FileTree}

theorem refl (t : FileTree) : SameDirectories t t := ⟨rfl, fun _ => Iff.rfl⟩

theorem symm (h : SameDirectories t u) : SameDirectories u t :=
  ⟨h.here.symm, fun place => (h.directory place).symm⟩

theorem trans (h : SameDirectories t u) (h' : SameDirectories u v) : SameDirectories t v :=
  ⟨h'.here.trans h.here, fun place => (h'.directory place).trans (h.directory place)⟩

variable (h : SameDirectories t u)
include h

theorem start (path : String) : u.start path = t.start path := by
  rw [FileTree.start, FileTree.start, h.here]

theorem enter {place q : Place} {part : String} (he : t.enter place part = .ok q) :
    u.enter place part = .ok q := by
  unfold FileTree.enter at he ⊢
  by_cases hdot : (part = "" || part = ".") = true
  · rwa [if_pos hdot] at he ⊢
  · rw [if_neg hdot] at he ⊢
    by_cases hup : part = ".."
    · rwa [if_pos hup] at he ⊢
    · rw [if_neg hup] at he ⊢
      split at he
      · cases he
      · cases he
      · rename_i hdir
        rw [(h.directory _).2 hdir]
        exact he

theorem walk {place q : Place} {parts : List String} (hw : t.walk place parts = .ok q) :
    u.walk place parts = .ok q := by
  induction parts generalizing place with
  | nil => exact hw
  | cons part parts ih =>
    rw [FileTree.walk] at hw ⊢
    split at hw
    · cases hw
    · rename_i next hnext
      rw [h.enter hnext]
      exact ih hw

theorem locate_of_ok {path : String} {place : Place} (hl : t.locate path = .ok place) :
    u.locate path = .ok place := by
  unfold FileTree.locate at hl ⊢
  dsimp only at hl ⊢
  rw [h.start]
  split at hl
  · cases hl
  · rename_i folder hwalk
    rw [h.walk hwalk]
    dsimp only
    split at hl
    · cases hl
    · rename_i hlast
      rw [if_neg hlast]
      split at hl
      · cases hl
      · rename_i hnode
        split
        · rename_i hdir
          exact absurd ((h.directory _).1 hdir) hnode
        · exact hl

theorem locate_iff {path : String} {place : Place} :
    u.locate path = .ok place ↔ t.locate path = .ok place :=
  ⟨h.symm.locate_of_ok, h.locate_of_ok⟩

end SameDirectories

variable {t u : FileTree} {path : String} {place : Place} {bytes : List UInt8}

/-- Where a path for writing leads: along its parts to a name that is no
directory. -/
theorem locate_eq_ok (h : t.locate path = .ok place) :
    ∃ folder, t.walk (t.start path) (parts path).dropLast = .ok folder ∧
      isDots ((parts path).getLast?.getD "") = false ∧
      place = folder ++ [(parts path).getLast?.getD ""] ∧ t.node? place ≠ some .directory := by
  unfold locate at h
  dsimp only at h
  have hp : (((parts path).reverse.dropWhile (· = "")).reverse) <+: parts path :=
    List.rdropWhile_prefix (fun part => decide (part = "")) (parts path)
  generalize ((parts path).reverse.dropWhile (· = "")).reverse = named at h hp
  split at h
  · cases h
  · rename_i folder hwalk
    split at h
    · cases h
    · rename_i hlast
      simp only [Bool.or_eq_true, decide_eq_true_iff, not_or, Nat.not_lt, Bool.not_eq_true] at hlast
      -- no slash at the end, so all parts are named
      have hnamed : named = parts path := hp.eq_of_length_le hlast.2
      subst hnamed
      split at h
      · cases h
      · rename_i hnode
        cases h
        exact ⟨folder, hwalk, hlast.1, rfl, hnode⟩

theorem ne_nil_of_locate (h : t.locate path = .ok place) : place ≠ [] := by
  obtain ⟨folder, _, _, rfl, _⟩ := locate_eq_ok h
  simp

/-- A write succeeds where its path leads, changes that place, and no other. -/
theorem write_eq_ok (h : t.write path bytes = .ok u) :
    ∃ place, t.locate path = .ok place ∧ SameDirectories t u ∧
      ∀ q, u.node? q = if q = place then some (.file bytes) else t.node? q := by
  unfold write at h
  cases hl : t.locate path with
  | error e =>
    rw [hl] at h
    cases h
  | ok place =>
    rw [hl] at h
    cases h
    obtain ⟨_, _, _, _, hnode⟩ := locate_eq_ok hl
    have hput := fun q => node?_put (t := t) (.file bytes) q (ne_nil_of_locate hl)
    refine ⟨place, rfl, ⟨rfl, fun q => ?_⟩, hput⟩
    rw [hput]
    split
    · rename_i hq
      rw [hq]
      exact ⟨nofun, fun hd => absurd hd hnode⟩
    · exact Iff.rfl

/-- Reading a path that can be written gives what is in its place. -/
theorem read_eq_ok_iff (h : t.locate path = .ok place) :
    t.read path = .ok bytes ↔ t.node? place = some (.file bytes) := by
  obtain ⟨folder, hwalk, hlast, rfl, hnode⟩ := locate_eq_ok h
  rw [read, hwalk]
  dsimp only
  rw [hlast, if_neg Bool.false_ne_true]
  cases hn : t.node? (folder ++ [(parts path).getLast?.getD ""]) with
  | none => simp
  | some node =>
    cases node with
    | directory => exact absurd hn hnode
    | file content => simp

/-- A file has the content that was written to its path. -/
theorem read_of_write (h : t.write path bytes = .ok u) : u.read path = .ok bytes := by
  obtain ⟨place, hl, hdirs, hnode⟩ := write_eq_ok h
  rw [read_eq_ok_iff (hdirs.locate_of_ok hl), hnode, if_pos rfl]

/-! ## One write after the other -/

/-- What the last of some writes to a place puts there. -/
def lastContent (t : FileTree) (ws : List (String × List UInt8)) (place : Place) : Option (List UInt8) :=
  ((ws.filter fun w => t.locate w.1 = .ok place).getLast?).map Prod.snd

theorem lastContent_nil (t : FileTree) (place : Place) : t.lastContent [] place = none := rfl

theorem lastContent_cons (t : FileTree) (w : String × List UInt8) (ws : List (String × List UInt8))
    (place : Place) :
    t.lastContent (w :: ws) place =
      (t.lastContent ws place).or (if t.locate w.1 = .ok place then some w.2 else none) := by
  unfold lastContent
  by_cases hw : t.locate w.1 = .ok place
  · rw [List.filter_cons_of_pos (by simpa using hw), if_pos hw, List.getLast?_cons]
    cases (ws.filter fun w => t.locate w.1 = .ok place).getLast? <;> rfl
  · rw [List.filter_cons_of_neg (by simpa using hw), if_neg hw, Option.or_none]

theorem lastContent_append (t : FileTree) (ws ws' : List (String × List UInt8)) (place : Place) :
    t.lastContent (ws ++ ws') place = (t.lastContent ws' place).or (t.lastContent ws place) := by
  induction ws with
  | nil => rw [List.nil_append, lastContent_nil, Option.or_none]
  | cons w ws ih => rw [List.cons_append, lastContent_cons, ih, lastContent_cons, Option.or_assoc]

theorem SameDirectories.lastContent (h : SameDirectories t u) (ws : List (String × List UInt8))
    (place : Place) : u.lastContent ws place = t.lastContent ws place := by
  simp only [FileTree.lastContent, h.locate_iff]

/-- What was put somewhere was written to a path that leads there. -/
theorem exists_of_lastContent {ws : List (String × List UInt8)}
    (h : t.lastContent ws place = some bytes) : ∃ w ∈ ws, t.locate w.1 = .ok place ∧ w.2 = bytes := by
  obtain ⟨w, hw, rfl⟩ := Option.map_eq_some_iff.1 h
  obtain ⟨hmem, hloc⟩ := List.mem_filter.1 (List.mem_of_getLast? hw)
  exact ⟨w, hmem, of_decide_eq_true hloc, rfl⟩

/-- One tree comes from another by some writes. -/
structure WrittenBy (ws : List (String × List UInt8)) (t u : FileTree) : Prop where
  directories : SameDirectories t u
  node : ∀ place, u.node? place = ((t.lastContent ws place).map Node.file).or (t.node? place)

namespace WrittenBy

variable {v : FileTree} {ws ws' : List (String × List UInt8)}

theorem refl (t : FileTree) : WrittenBy [] t t := ⟨.refl t, fun _ => rfl⟩

theorem single (h : t.write path bytes = .ok u) : WrittenBy [(path, bytes)] t u := by
  obtain ⟨target, hl, hdirs, hnode⟩ := write_eq_ok h
  refine ⟨hdirs, fun place => ?_⟩
  rw [hnode, lastContent_cons, lastContent_nil, Option.none_or, hl]
  by_cases hp : place = target
  · simp [hp]
  · simp [hp, Ne.symm hp]

theorem trans (h : WrittenBy ws t u) (h' : WrittenBy ws' u v) : WrittenBy (ws ++ ws') t v := by
  refine ⟨h.directories.trans h'.directories, fun place => ?_⟩
  rw [h'.node, h.node, h.directories.lastContent, lastContent_append]
  cases t.lastContent ws' place <;> rfl

/-- A place whose content is not the old one was written to. -/
theorem exists_of_ne (h : WrittenBy ws t u) (hne : u.node? place ≠ t.node? place) :
    ∃ w ∈ ws, t.locate w.1 = .ok place := by
  cases hc : t.lastContent ws place with
  | none =>
    rw [h.node, hc] at hne
    exact absurd rfl hne
  | some content =>
    obtain ⟨w, hw, hloc, _⟩ := exists_of_lastContent hc
    exact ⟨w, hw, hloc⟩

/-- The last write to a place can be read from every path that leads there. -/
theorem read (h : WrittenBy ws t u) (hl : t.locate path = .ok place)
    (hc : t.lastContent ws place = some bytes) : u.read path = .ok bytes := by
  rw [read_eq_ok_iff (h.directories.locate_of_ok hl), h.node, hc]
  rfl

end WrittenBy

end NpcScript.Command.FileTree
