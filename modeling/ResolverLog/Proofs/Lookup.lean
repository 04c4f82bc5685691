import Mathlib.Data.List.Nodup
import Mathlib.Data.List.Perm.Basic

/-!
# Looking keys up

A table in which no key stands twice tells the same of each key in whatever
order its pairs are, and what it tells of a key is the value that stands with it.
-/

namespace ResolverLog

namespace Lookup

variable {α β : Type} [BEq α] [LawfulBEq α] {table other : List (α × β)} {key : α} {value : β}

theorem mem_of_lookup (h : table.lookup key = some value) : (key, value) ∈ table := by
  obtain ⟨front, back, rfl, -⟩ := List.lookup_eq_some_iff.mp h
  simp

theorem lookup_eq_some_iff_mem (hkeys : (table.map Prod.fst).Nodup) :
    table.lookup key = some value ↔ (key, value) ∈ table := by
  refine ⟨mem_of_lookup, fun hmem => ?_⟩
  obtain ⟨front, back, rfl⟩ := List.append_of_mem hmem
  refine List.lookup_eq_some_iff.mpr ⟨front, back, rfl, fun pair hpair => ?_⟩
  rw [List.map_append, List.map_cons] at hkeys
  have hne : pair.1 ≠ key := (List.nodup_append.mp hkeys).2.2 pair.1
    (List.mem_map_of_mem hpair) key List.mem_cons_self
  exact bne_iff_ne.mpr hne.symm

theorem lookup_eq_none_iff_notMem : table.lookup key = none ↔ key ∉ table.map Prod.fst := by
  rw [List.lookup_eq_none_iff, List.mem_map]
  constructor
  · rintro h ⟨pair, hpair, rfl⟩
    simpa using h pair hpair
  · intro h pair hpair
    rw [bne_iff_ne]
    rintro rfl
    exact h ⟨pair, hpair, rfl⟩

/-- The order of a table does not matter. -/
theorem lookup_eq_of_perm (hkeys : (table.map Prod.fst).Nodup) (h : table.Perm other) (key : α) :
    table.lookup key = other.lookup key := by
  have hother : (other.map Prod.fst).Nodup := (h.map Prod.fst).nodup_iff.mp hkeys
  ext value
  rw [lookup_eq_some_iff_mem hkeys, lookup_eq_some_iff_mem hother, h.mem_iff]

/-- A key is looked up behind pairs with other keys. -/
theorem lookup_append_of_notMem (h : key ∉ table.map Prod.fst) (other : List (α × β)) :
    (table ++ other).lookup key = other.lookup key := by
  rw [List.lookup_append, lookup_eq_none_iff_notMem.mpr h, Option.none_or]

end Lookup

end ResolverLog
