import Mathlib.Data.List.Induction
import Mathlib.Data.List.Nodup
import NpcScript.Proofs.Meaning

/-! # Symbol tables from lists

A table is made in two passes, one over the symbols and one over the entries that
they leave. Of two symbols with one name the later counts, at the place of the
earlier. Of two names with one kind and value the earlier is shown, and it is the
final values that count for this: a symbol that was replaced can be found neither
by name nor by value. As each table carries the agreement of its indexes with its
entries, there is no table but those that are made in this way. -/
namespace NpcScript

/-- A last item is one more mention, or the first. -/
theorem eraseDups_concat {α : Type} [BEq α] [LawfulBEq α] (xs : List α) (x : α) :
    (xs ++ [x]).eraseDups = if x ∈ xs then xs.eraseDups else xs.eraseDups ++ [x] := by
  rw [List.eraseDups_append]
  by_cases hmem : x ∈ xs
  · have hnone : [x].removeAll xs = [] := by simp [List.removeAll, hmem]
    rw [if_pos hmem, hnone, List.eraseDups_nil, List.append_nil]
  · have hone : [x].removeAll xs = [x] := by simp [List.removeAll, hmem]
    rw [if_neg hmem, hone]
    rfl

namespace SymbolIndex

/-! ## One insertion -/

section

variable {x : SymbolIndex} (h : x.Named)
include h

theorem Named.names_insert (s : Symbol) :
    (x.insert s).names = if s.name ∈ x.names then x.names else x.names ++ [s.name] := by
  rw [names, names]
  rcases h.insert_cases s with ⟨pre, e, post, hx, he, _, hins⟩ | ⟨hnew, hins⟩
  · have hmem : s.name ∈ x.entries.map Symbol.name := by simp [hx, he]
    rw [if_pos hmem, hins, hx, List.map_append, List.map_append, List.map_cons, List.map_cons, he]
  · have hnot : s.name ∉ x.entries.map Symbol.name := by
      intro hmem
      obtain ⟨d, hd, hname⟩ := List.mem_map.1 hmem
      exact hnew d hd hname
    rw [if_neg hnot, hins, List.map_append, List.map_singleton]

theorem Named.find?_insert (s : Symbol) (name : String) :
    (x.insert s).entries.find? (fun d => d.name = name) =
      if s.name = name then some s else x.entries.find? fun d => d.name = name := by
  rcases h.insert_cases s with ⟨pre, e, post, hx, he, hpre, hins⟩ | ⟨hnew, hins⟩
  · rw [hins, hx, List.find?_append, List.find?_append, List.find?_cons, List.find?_cons, he]
    by_cases hname : s.name = name
    · have hnone : pre.find? (fun d => decide (d.name = name)) = none := by
        simpa [← hname] using hpre
      simp [hname, hnone]
    · simp [hname]
  · rw [hins, List.find?_append, List.find?_singleton]
    by_cases hname : s.name = name
    · have hnone : x.entries.find? (fun d => decide (d.name = name)) = none := by
        simpa [← hname] using hnew
      simp [hname, hnone]
    · simp [hname]

end

/-! ## All insertions -/

/-- The pass over values changes no entry. -/
theorem entries_ofList (symbols : List Symbol) :
    (ofList symbols).entries = (symbols.foldl insert {}).entries := rfl

/-- A name has its place from its first symbol. -/
theorem names_ofList (symbols : List Symbol) :
    (ofList symbols).names = (symbols.map Symbol.name).eraseDups := by
  rw [names, entries_ofList, ← names]
  induction symbols using List.reverseRecOn with
  | nil => rfl
  | append_singleton symbols s ih =>
    rw [List.foldl_concat, (named_empty.foldl_insert symbols).names_insert, ih, List.map_append,
      List.map_singleton, eraseDups_concat]
    simp only [List.mem_eraseDups]

/-- A name has its meaning from its last symbol. -/
theorem find?_ofList (symbols : List Symbol) (name : String) :
    (ofList symbols).entries.find? (fun s => s.name = name) = symbols.findRev? fun s => s.name = name := by
  rw [List.findRev?_eq_find?_reverse, entries_ofList]
  induction symbols using List.reverseRecOn with
  | nil => rfl
  | append_singleton symbols s ih =>
    rw [List.foldl_concat, (named_empty.foldl_insert symbols).find?_insert, ih, List.reverse_append,
      List.reverse_singleton, List.singleton_append, List.find?_cons]
    by_cases hname : s.name = name <;> simp [hname]

/-- Symbols with distinct names are taken as they are. -/
theorem entries_ofList_of_nodup {symbols : List Symbol} (h : (symbols.map Symbol.name).Nodup) :
    (ofList symbols).entries = symbols := by
  rw [entries_ofList]
  induction symbols using List.reverseRecOn with
  | nil => rfl
  | append_singleton symbols s ih =>
    rw [List.map_append, List.nodup_append] at h
    obtain ⟨hsymbols, _, hnew⟩ := h
    have hentries := ih hsymbols
    rw [List.foldl_concat]
    rcases (named_empty.foldl_insert symbols).insert_cases s with ⟨pre, e, post, hx, he, _, _⟩ | ⟨_, hins⟩
    · have hmem : e ∈ symbols := hentries ▸ (by simp [hx])
      exact absurd he (hnew e.name (List.mem_map_of_mem hmem) s.name (by simp))
    · rw [hins, hentries]

end SymbolIndex

namespace SymbolTable

/-- The entries of a table say all about it. -/
theorem ext_entries {t u : SymbolTable} (h : t.entries = u.entries) : t = u := by
  obtain ⟨⟨entries, byName, byValue⟩, ht⟩ := t
  obtain ⟨⟨entries', byName', byValue'⟩, hu⟩ := u
  obtain rfl : entries = entries' := h
  obtain rfl : byName = byName' := funext fun name => (ht.byName name).trans (hu.byName name).symm
  obtain rfl : byValue = byValue' := funext fun key => (ht.byValue key).trans (hu.byValue key).symm
  rfl

/-- **Every table is the table of its entries**, the built-in one too. -/
theorem ofList_entries (t : SymbolTable) : ofList t.entries = t :=
  ext_entries (SymbolIndex.entries_ofList_of_nodup t.consistent.distinct)

theorem get?_ofList (symbols : List Symbol) (name : String) :
    (ofList symbols).get? name = symbols.findRev? fun s => s.name = name := by
  rw [get?_eq_find?]
  exact SymbolIndex.find?_ofList symbols name

/-! ## Look-ups -/

variable {t : SymbolTable}

/-- The index of a name is the place of its symbol, and there is only one. -/
theorem indexOf?_eq_some_iff {name : String} {i : Nat} :
    t.indexOf? name = some i ↔ ∃ s, t.entry? i = some s ∧ s.name = name := by
  refine ⟨entry_of_indexOf, ?_⟩
  rintro ⟨s, hs, rfl⟩
  have hget := mem_entries_iff.1 (List.mem_of_getElem? hs)
  obtain ⟨j, hj, he⟩ := Option.bind_eq_some_iff.1 hget
  have hi : t.names[i]? = some s.name := by rw [SymbolIndex.names, List.getElem?_map, ← entry?, hs]; rfl
  have hj' : t.names[j]? = some s.name := by rw [SymbolIndex.names, List.getElem?_map, ← entry?, he]; rfl
  have hlt : i < t.names.length := (List.getElem?_eq_some_iff.1 hi).1
  rw [(List.getElem?_inj hlt t.consistent.distinct).1 (hi.trans hj'.symm)]
  exact hj

/-- No name shows a value exactly if no name has it. -/
theorem nameOf?_eq_none_iff {kind : Kind} {value : Int32} :
    t.nameOf? kind value = none ↔ ∀ name s, t.get? name = some s → ¬ (s.kind = kind ∧ s.value = value) := by
  simp only [nameOf?_eq_none, ne_eq, Symbol.key_eq_iff]
  constructor
  · intro hall name s hget
    rw [get?_eq_find?] at hget
    exact hall s (List.mem_of_find?_eq_some hget)
  · intro hall s hs
    exact hall s.name s (mem_entries_iff.1 hs)

/-- The name that shows a value is that of the first symbol which has it. -/
theorem nameOf?_eq_some_iff {kind : Kind} {value : Int32} {name : String} :
    t.nameOf? kind value = some name ↔
      ∃ i s, t.entry? i = some s ∧ s.name = name ∧ (s.kind = kind ∧ s.value = value) ∧
        ∀ j < i, ∀ e, t.entry? j = some e → ¬ (e.kind = kind ∧ e.value = value) := by
  simp only [nameOf?_eq_find?, Option.map_eq_some_iff, List.find?_eq_some_iff_getElem,
    decide_eq_true_iff, Bool.not_eq_true', decide_eq_false_iff_not, Symbol.key_eq_iff]
  constructor
  · rintro ⟨s, ⟨hs, i, hi, rfl, hbefore⟩, hname⟩
    refine ⟨i, _, List.getElem?_eq_getElem hi, hname, hs, ?_⟩
    intro j hj e he
    obtain ⟨_, rfl⟩ := List.getElem?_eq_some_iff.1 he
    exact hbefore j hj
  · rintro ⟨i, s, hi, hname, hs, hbefore⟩
    obtain ⟨hlt, rfl⟩ := List.getElem?_eq_some_iff.1 hi
    refine ⟨_, ⟨hs, i, hlt, rfl, ?_⟩, hname⟩
    intro j hj
    exact hbefore j hj _ (List.getElem?_eq_getElem (Nat.lt_trans hj hlt))

/-- A table holds what a list of symbols says in the end. -/
structure Reflects (symbols : List Symbol) (t : SymbolTable) : Prop where
  /-- One entry for each name. -/
  distinct : (t.entries.map Symbol.name).Nodup
  /-- Names stand in the order in which they first occur. -/
  order : t.entries.map Symbol.name = (symbols.map Symbol.name).eraseDups
  /-- The last symbol of a name counts. -/
  get_last : ∀ name, t.get? name = symbols.findRev? fun s => s.name = name
  get_none : ∀ name, t.get? name = none ↔ ∀ s ∈ symbols, s.name ≠ name
  /-- Both indexes find what a search through the entries finds. -/
  by_name : ∀ name, t.byName name = t.entries.findIdx? fun s => s.name = name
  by_value : ∀ key, t.byValue key = t.entries.findIdx? fun s => s.key = key
  /-- The index of a name is the place of its entry. -/
  index : ∀ name i, t.indexOf? name = some i ↔ ∃ s, t.entry? i = some s ∧ s.name = name
  entry_index : ∀ name, (t.indexOf? name).bind t.entry? = t.get? name
  /-- A value is shown by the name of the first entry that has it. -/
  shown : ∀ kind value name, t.nameOf? kind value = some name ↔
    ∃ i s, t.entry? i = some s ∧ s.name = name ∧ (s.kind = kind ∧ s.value = value) ∧
      ∀ j < i, ∀ e, t.entry? j = some e → ¬ (e.kind = kind ∧ e.value = value)
  /-- A value is not shown exactly if it is the last value of no name. -/
  not_shown : ∀ kind value, t.nameOf? kind value = none ↔
    ∀ name s, (symbols.findRev? fun s => s.name = name) = some s → ¬ (s.kind = kind ∧ s.value = value)

/-- **The last symbol of a name wins.** The table of a list holds for each name,
in the order of first mention, the last symbol of that name, and answers every
look-up from these symbols alone. Made again from its own entries, it is the same
table. -/
theorem ofList_last_wins (symbols : List Symbol) :
    Reflects symbols (ofList symbols) ∧ ofList (ofList symbols).entries = ofList symbols := by
  refine ⟨?_, ofList_entries _⟩
  refine
    { distinct := (ofList symbols).consistent.distinct
      order := SymbolIndex.names_ofList symbols
      get_last := get?_ofList symbols
      get_none := fun name => ?_
      by_name := (ofList symbols).consistent.byName
      by_value := (ofList symbols).consistent.byValue
      index := fun _ _ => indexOf?_eq_some_iff
      entry_index := fun _ => rfl
      shown := fun _ _ _ => nameOf?_eq_some_iff
      not_shown := fun kind value => ?_ }
  · rw [get?_ofList, List.findRev?_eq_find?_reverse]
    simp
  · rw [nameOf?_eq_none_iff]
    simp only [get?_ofList]

end SymbolTable

end NpcScript
