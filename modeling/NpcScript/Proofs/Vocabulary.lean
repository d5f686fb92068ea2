import NpcScript.Symbol.Builtin
import NpcScript.Word

/-! # Vocabularies that can be read back

A listing shows values by name. A name leads back to its symbol in every table;
for the lines to be read as what they show, it must also be one word that is
neither a number nor anything in quotes or brackets. `Legible` says so of a
table. The built-in one is legible, which is checked over all of its names. -/
namespace NpcScript

/-- Every symbol but a constant has a name that is read as one, and a script's end
can be told from its value. -/
structure SymbolTable.Legible (t : SymbolTable) : Prop where
  writes_name : ∀ e ∈ t.entries, e.kind ≠ .constant → e.kind.writes e.name.toList = true
  neutral : (t.nameOf? .operator Word.neutral).isSome = true
  ends : ∃ e, t.end? = some e ∧ e.kind.fits e.value = true ∧
    ∀ d ∈ t.entries, d.kind = .function → d.value = e.value → d = e

namespace Builtin

/-- **The built-in vocabulary is legible.** -/
theorem legible : SymbolTable.builtin.Legible := by
  have hend : entries.filter (fun d => d.kind = .function && d.value = 53) = [⟨"End", .function, 53⟩] := by
    decide +kernel
  have hmem : ⟨"End", .function, 53⟩ ∈ SymbolTable.builtin.entries :=
    (List.mem_filter.1 (hend ▸ List.mem_singleton_self _)).1
  refine ⟨fun e he _ => writes_name he, ?_, ⟨"End", .function, 53⟩, ?_, by decide, ?_⟩
  · decide +kernel
  · rw [SymbolTable.end?, SymbolTable.endName, SymbolTable.mem_entries_iff.1 hmem]
    rfl
  · intro d hd hk hv
    have hd : d ∈ entries.filter (fun d => d.kind = .function && d.value = 53) :=
      List.mem_filter.2 ⟨hd, by simp [hk, hv]⟩
    rw [hend] at hd
    exact List.mem_singleton.1 hd

end Builtin

end NpcScript
