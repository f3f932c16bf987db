import Mathlib.Data.List.AList

/-!
# Finite maps

What `AList` does not have for maps whose values are of one type: the entries whose value
satisfies a predicate, a function applied to every value, and entries inserted one after the other.
-/

namespace AList

open List

variable {α β γ : Type*}

/-- The entries whose value satisfies `p`. -/
def filterValues (p : β → Bool) (m : AList fun _ : α => β) : AList fun _ : α => β where
  entries := m.entries.filter fun e => p e.2
  nodupKeys := m.nodupKeys.sublist filter_sublist

/-- `f` applied to every value. -/
def mapValues (f : β → γ) (m : AList fun _ : α => β) : AList fun _ : α => γ where
  entries := m.entries.map fun e => ⟨e.1, f e.2⟩
  nodupKeys := by
    have hkeys : (m.entries.map fun e => (⟨e.1, f e.2⟩ : Sigma fun _ : α => γ)).keys =
        m.entries.keys := by
      simp [List.keys, Function.comp_def]
    rw [NodupKeys, hkeys]
    exact m.nodupKeys

variable [DecidableEq α]

variable {m : AList fun _ : α => β} {a : α}

/-- An entry is what `lookup` finds. -/
theorem mem_entries_iff {b : β} : ⟨a, b⟩ ∈ m.entries ↔ m.lookup a = some b := mem_lookup_iff.symm

theorem lookup_filterValues (p : β → Bool) (m : AList fun _ : α => β) (a : α) :
    (m.filterValues p).lookup a = (m.lookup a).filter p := by
  ext b
  rw [Option.filter_eq_some_iff, ← mem_entries_iff, ← mem_entries_iff, filterValues,
    mem_filter]

theorem lookup_mapValues (f : β → γ) (m : AList fun _ : α => β) (a : α) :
    (m.mapValues f).lookup a = (m.lookup a).map f := by
  ext c
  rw [Option.map_eq_some_iff, ← mem_entries_iff, mapValues, mem_map]
  constructor
  · rintro ⟨⟨a', b⟩, hmem, heq⟩
    cases heq
    exact ⟨b, mem_entries_iff.mp hmem, rfl⟩
  · rintro ⟨b, hb, rfl⟩
    exact ⟨⟨a, b⟩, mem_entries_iff.mpr hb, rfl⟩

/-! ### Inserting entries one after the other -/

variable {l : List (Sigma fun _ : α => β)}

end AList
