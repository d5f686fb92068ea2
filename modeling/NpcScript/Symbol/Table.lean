import NpcScript.Symbol

/-! # Symbol tables

A symbol table gives each name a kind and a value, and each value of a kind a
name to show it by. Its symbols stand in one list with two indexes beside it, from
names and from values to places in the list. A first pass over the symbols fills
the list and the index of names, and only then a second one the index of values,
so that no place in it is that of a symbol which has been replaced.

A table carries the proof that its indexes find what a search through the list
finds. -/
namespace NpcScript

/-- Symbols in order of their first mention, with the places of names and of values.
An index is given by its look-ups. -/
structure SymbolIndex where
  entries : List Symbol := []
  byName : String → Option Nat := fun _ => none
  byValue : Kind × Int32 → Option Nat := fun _ => none

namespace SymbolIndex

def names (x : SymbolIndex) : List String := x.entries.map Symbol.name

/-- A symbol with a known name takes the place of the old one; a new name goes
to the end. -/
def insert (x : SymbolIndex) (s : Symbol) : SymbolIndex :=
  match x.byName s.name with
  | some i => { x with entries := x.entries.set i s }
  | none => { x with
      entries := x.entries ++ [s]
      byName := fun name => if name = s.name then some x.entries.length else x.byName name }

/-- A value that has a place keeps it. -/
def enterValue (byValue : Kind × Int32 → Option Nat) (entry : Symbol × Nat) : Kind × Int32 → Option Nat :=
  match byValue entry.1.key with
  | some _ => byValue
  | none => fun key => if key = entry.1.key then some entry.2 else byValue key

def enterValues (x : SymbolIndex) : SymbolIndex :=
  { x with byValue := x.entries.zipIdx.foldl enterValue x.byValue }

def ofList (symbols : List Symbol) : SymbolIndex := (symbols.foldl insert {}).enterValues

/-! ## The pass over names -/

/-- Each name has one entry, which the index finds. -/
structure Named (x : SymbolIndex) : Prop where
  distinct : x.names.Nodup
  byName : ∀ name, x.byName name = x.entries.findIdx? fun s => s.name = name

variable {x : SymbolIndex}

theorem named_empty : Named {} := ⟨List.nodup_nil, fun _ => rfl⟩

/-- What inserting does: the symbol takes the place of the first one that has its
name, or comes last if there is none. -/
theorem Named.insert_cases (h : x.Named) (s : Symbol) :
    (∃ pre e post, x.entries = pre ++ e :: post ∧ e.name = s.name ∧ (∀ d ∈ pre, d.name ≠ s.name) ∧
      x.insert s = { x with entries := pre ++ s :: post }) ∨
    (∀ d ∈ x.entries, d.name ≠ s.name) ∧ x.insert s = { x with
      entries := x.entries ++ [s]
      byName := fun name => if name = s.name then some x.entries.length else x.byName name } := by
  have hplace := h.byName s.name
  unfold insert
  cases hi : x.byName s.name with
  | some i =>
    rw [hi] at hplace
    obtain ⟨hlt, hname, hbefore⟩ := List.findIdx?_eq_some_iff_getElem.1 hplace.symm
    refine .inl ⟨x.entries.take i, x.entries[i], x.entries.drop (i + 1), ?_, of_decide_eq_true hname, ?_, ?_⟩
    · rw [← List.drop_eq_getElem_cons hlt, List.take_append_drop]
    · intro d hd
      obtain ⟨j, hj, rfl⟩ := List.getElem_of_mem hd
      rw [List.length_take] at hj
      rw [List.getElem_take]
      simpa using hbefore j (by omega)
    · dsimp only
      rw [List.set_eq_take_append_cons_drop, if_pos hlt]
  | none =>
    rw [hi] at hplace
    refine .inr ⟨?_, rfl⟩
    intro d hd
    simpa using List.findIdx?_eq_none_iff.1 hplace.symm d hd

/-- An insertion keeps the index in step with the entries. -/
theorem Named.insert (h : x.Named) (s : Symbol) : (x.insert s).Named := by
  have hdistinct := h.distinct
  rcases h.insert_cases s with ⟨pre, e, post, hx, he, _, hins⟩ | ⟨hnew, hins⟩
  · rw [names, hx, List.map_append, List.map_cons, he] at hdistinct
    rw [hins]
    refine ⟨?_, fun name => ?_⟩
    · rw [names, List.map_append, List.map_cons]
      exact hdistinct
    · rw [h.byName, hx]
      simp only [List.findIdx?_append, List.findIdx?_cons, he]
  · rw [hins]
    refine ⟨?_, fun name => ?_⟩
    · rw [names, List.map_append, List.map_singleton]
      refine List.nodup_append.2 ⟨hdistinct, by simp, ?_⟩
      intro a ha b hb hab
      obtain ⟨d, hd, hname⟩ := List.mem_map.1 ha
      exact hnew d hd (hname.trans (hab.trans (List.mem_singleton.1 hb)))
    · dsimp only
      rw [List.findIdx?_append, ← h.byName, List.findIdx?_singleton]
      by_cases hname : name = s.name
      · have hnone : x.byName name = none := by
          rw [h.byName, List.findIdx?_eq_none_iff, hname]
          exact fun d hd => decide_eq_false (hnew d hd)
        simp [hname, hname ▸ hnone]
      · simp [hname, Ne.symm hname]

theorem Named.foldl_insert (h : x.Named) (symbols : List Symbol) :
    (symbols.foldl SymbolIndex.insert x).Named := by
  induction symbols generalizing x with
  | nil => exact h
  | cons s symbols ih => exact ih (h.insert s)

/-- The pass over names enters no values. -/
theorem byValue_foldl_insert (symbols : List Symbol) : (symbols.foldl insert x).byValue = x.byValue := by
  induction symbols generalizing x with
  | nil => rfl
  | cons s symbols ih =>
    rw [List.foldl_cons, ih]
    unfold insert
    split <;> rfl

/-! ## The pass over values -/

/-- Both indexes find what a search through the entries finds. -/
structure Consistent (x : SymbolIndex) : Prop extends Named x where
  byValue : ∀ key, x.byValue key = x.entries.findIdx? fun s => s.key = key

theorem enterValue_apply (byValue : Kind × Int32 → Option Nat) (s : Symbol) (i : Nat) (key : Kind × Int32) :
    enterValue byValue (s, i) key = (byValue key).or (if s.key = key then some i else none) := by
  unfold enterValue
  cases hs : byValue s.key with
  | some j =>
    by_cases hkey : s.key = key
    · simp [← hkey, hs]
    · simp [hkey]
  | none =>
    by_cases hkey : s.key = key
    · simp [← hkey, hs]
    · simp [hkey, Ne.symm hkey]

/-- An index of the values of some entries becomes one of the values of all when
the others are entered. -/
theorem foldl_enterValue_apply (before later : List Symbol) {byValue : Kind × Int32 → Option Nat}
    (h : ∀ key, byValue key = before.findIdx? fun s => s.key = key) (key : Kind × Int32) :
    (later.zipIdx before.length).foldl enterValue byValue key =
      (before ++ later).findIdx? fun s => s.key = key := by
  induction later generalizing before byValue with
  | nil => rw [List.append_nil]; exact h key
  | cons s later ih =>
    have hs (key : Kind × Int32) : enterValue byValue (s, before.length) key =
        (before ++ [s]).findIdx? fun s => s.key = key := by
      rw [enterValue_apply, h, List.findIdx?_append, List.findIdx?_singleton]
      by_cases hkey : s.key = key <;> simp [hkey]
    have hlater := ih (before ++ [s]) hs
    rwa [List.length_append, List.length_singleton, List.append_assoc, List.singleton_append] at hlater

/-- **The two passes leave both indexes in step with the entries.** -/
theorem consistent_ofList (symbols : List Symbol) : (ofList symbols).Consistent := by
  refine ⟨⟨(named_empty.foldl_insert symbols).distinct, (named_empty.foldl_insert symbols).byName⟩, ?_⟩
  refine foldl_enterValue_apply [] (symbols.foldl insert {}).entries ?_
  intro key
  rw [byValue_foldl_insert]
  rfl

end SymbolIndex

/-- Symbols with distinct names, and indexes that are in step with them. -/
structure SymbolTable extends SymbolIndex where
  consistent : toSymbolIndex.Consistent

namespace SymbolTable

def ofList (symbols : List Symbol) : SymbolTable :=
  ⟨SymbolIndex.ofList symbols, SymbolIndex.consistent_ofList symbols⟩

/-- Symbols whose names are known to be distinct need no passes. -/
def ofDistinct (symbols : List Symbol) (distinct : (symbols.map Symbol.name).Nodup) : SymbolTable where
  entries := symbols
  byName name := symbols.findIdx? fun s => s.name = name
  byValue key := symbols.findIdx? fun s => s.key = key
  consistent := ⟨⟨distinct, fun _ => rfl⟩, fun _ => rfl⟩

def size (t : SymbolTable) : Nat := t.entries.length

def isEmpty (t : SymbolTable) : Bool := t.entries.isEmpty

def indexOf? (t : SymbolTable) (name : String) : Option Nat := t.byName name

def entry? (t : SymbolTable) (index : Nat) : Option Symbol := t.entries[index]?

def get? (t : SymbolTable) (name : String) : Option Symbol :=
  t.indexOf? name >>= t.entry?

/-- The name that shows a value: that of the first symbol which has it. -/
def nameOf? (t : SymbolTable) (kind : Kind) (value : Int32) : Option String :=
  (t.byValue (kind, value) >>= t.entry?).map Symbol.name

/-- The name of the function that ends a script. -/
def endName : String := "End"

/-- The symbol that ends a script, if it is a function as it has to be. -/
def end? (t : SymbolTable) : Option Symbol :=
  (t.get? endName).filter fun s => s.kind = .function

/-! ## Look-ups -/

theorem indexOf?_eq_findIdx? (t : SymbolTable) (name : String) :
    t.indexOf? name = t.entries.findIdx? fun s => s.name = name := t.consistent.byName name

theorem get?_eq_find? (t : SymbolTable) (name : String) :
    t.get? name = t.entries.find? fun s => s.name = name := by
  rw [List.find?_eq_bind_findIdx?_getElem?, ← indexOf?_eq_findIdx?]
  rfl

theorem nameOf?_eq_find? (t : SymbolTable) (kind : Kind) (value : Int32) :
    t.nameOf? kind value = (t.entries.find? fun s => s.key = (kind, value)).map Symbol.name := by
  rw [List.find?_eq_bind_findIdx?_getElem?, ← t.consistent.byValue]
  rfl

theorem nameOf?_eq_none {t : SymbolTable} {kind : Kind} {value : Int32} :
    t.nameOf? kind value = none ↔ ∀ e ∈ t.entries, e.key ≠ (kind, value) := by
  rw [nameOf?_eq_find?, Option.map_eq_none_iff, List.find?_eq_none]
  simp only [decide_eq_true_eq, ne_eq]

theorem mem_of_nameOf? {t : SymbolTable} {kind : Kind} {value : Int32} {name : String}
    (h : t.nameOf? kind value = some name) : ∃ e ∈ t.entries, e.key = (kind, value) ∧ e.name = name := by
  rw [nameOf?_eq_find?] at h
  obtain ⟨e, hfind, hname⟩ := Option.map_eq_some_iff.1 h
  have hkey := List.find?_some hfind
  exact ⟨e, List.mem_of_find?_eq_some hfind, of_decide_eq_true hkey, hname⟩

/-- Among symbols with distinct names, a name leads to its symbol. -/
theorem find?_name_of_nodup {symbols : List Symbol} (h : (symbols.map Symbol.name).Nodup) {e : Symbol}
    (he : e ∈ symbols) : symbols.find? (fun s => s.name = e.name) = some e := by
  induction symbols with
  | nil => cases he
  | cons a symbols ih =>
    obtain ⟨ha, hrest⟩ := List.nodup_cons.1 h
    rcases List.mem_cons.1 he with rfl | he
    · exact List.find?_cons_of_pos (decide_eq_true rfl)
    · have hname : a.name ≠ e.name := fun heq => ha (heq ▸ List.mem_map_of_mem he)
      exact (List.find?_cons_of_neg (by simpa using hname)).trans (ih hrest he)

theorem mem_entries_iff {t : SymbolTable} {e : Symbol} : e ∈ t.entries ↔ t.get? e.name = some e := by
  rw [get?_eq_find?]
  exact ⟨find?_name_of_nodup t.consistent.distinct, List.mem_of_find?_eq_some⟩

end SymbolTable

end NpcScript
