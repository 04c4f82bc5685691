import ResolverLog.Counts
import ResolverLog.Proofs.Lookup

/-!
# Tables of counts as multisets

A table of counts in which no key stands twice is known, up to the order of its
keys, by what it tells of each key. Adding to counts keeps keys apart and does
not depend on the order in which it is done, so counting a list of keys and
merging tables give the same counts for any order of the list and of the tables.
-/

namespace ResolverLog

namespace Counts

open Lookup

variable {a b counts : Counts} {key k : Bytes} {n m : UInt64}

/-- The keys of a table. -/
def keys (counts : Counts) : List Bytes :=
  counts.map Prod.fst

/-- Tables that tell the same of each key have the same keys with the same counts. -/
theorem perm_of_lookup (ha : (keys a).Nodup) (hb : (keys b).Nodup)
    (h : ∀ k, a.lookup k = b.lookup k) : a.Perm b := by
  rw [List.perm_ext_iff_of_nodup (List.Nodup.of_map _ ha) (List.Nodup.of_map _ hb)]
  rintro ⟨k, n⟩
  rw [← lookup_eq_some_iff_mem ha, ← lookup_eq_some_iff_mem hb, h]

theorem keys_perm (h : a.Perm b) : (keys a).Perm (keys b) :=
  h.map _

/-! ## Adding -/

theorem lookup_add (counts : Counts) (key : Bytes) (n : UInt64) (k : Bytes) :
    (counts.add key n).lookup k
      = if k = key then some (counts.get key + n) else counts.lookup k := by
  induction counts with
  | nil =>
      rw [add, List.lookup_cons]
      by_cases hk : k = key
      · subst hk
        simp [get]
      · rw [beq_false_of_ne hk, if_neg hk]
  | cons pair counts ih =>
      obtain ⟨key', count⟩ := pair
      rw [add]
      by_cases hkey : key' = key
      · subst hkey
        rw [if_pos BEq.rfl, List.lookup_cons, get, List.lookup_cons_self, Option.getD_some]
        by_cases hk : k = key'
        · subst hk
          simp
        · rw [beq_false_of_ne hk, List.lookup_cons, beq_false_of_ne hk, if_neg hk]
      · rw [if_neg (by simpa using hkey), List.lookup_cons, ih, get, get,
          List.lookup_cons, List.lookup_cons, beq_false_of_ne (Ne.symm hkey)]
        by_cases hk : k = key'
        · subst hk
          simp [hkey]
        · rw [beq_false_of_ne hk]

theorem mem_keys_add (counts : Counts) (key : Bytes) (n : UInt64) :
    k ∈ keys (counts.add key n) ↔ k = key ∨ k ∈ keys counts := by
  induction counts with
  | nil => simp [add, keys]
  | cons pair counts ih =>
      obtain ⟨key', count⟩ := pair
      rw [add]
      by_cases hkey : key' = key
      · subst hkey
        simp [keys]
      · rw [if_neg (by simpa using hkey)]
        simp only [keys, List.map_cons, List.mem_cons] at ih ⊢
        rw [ih]
        exact or_left_comm

theorem nodup_add (h : (keys counts).Nodup) (key : Bytes) (n : UInt64) :
    (keys (counts.add key n)).Nodup := by
  induction counts with
  | nil => simp [add, keys]
  | cons pair counts ih =>
      obtain ⟨key', count⟩ := pair
      obtain ⟨hnew, hrest⟩ := List.nodup_cons.mp h
      rw [add]
      by_cases hkey : key' = key
      · rw [if_pos (by simpa using hkey)]
        exact List.nodup_cons.mpr ⟨hnew, hrest⟩
      · rw [if_neg (by simpa using hkey)]
        refine List.nodup_cons.mpr ⟨?_, ih hrest⟩
        intro hmem
        rcases (mem_keys_add counts key n).mp hmem with heq | hmem
        · exact hkey heq
        · exact hnew hmem

/-- Adding respects the order of keys. -/
theorem add_perm (ha : (keys a).Nodup) (h : a.Perm b) (key : Bytes) (n : UInt64) :
    (a.add key n).Perm (b.add key n) := by
  have hb : (keys b).Nodup := (keys_perm h).nodup_iff.mp ha
  apply perm_of_lookup (nodup_add ha key n) (nodup_add hb key n)
  intro k
  rw [lookup_add, lookup_add, get, get, lookup_eq_of_perm ha h, lookup_eq_of_perm ha h]

/-- Two additions can change places. -/
theorem add_add_perm (h : (keys counts).Nodup) (key k : Bytes) (n m : UInt64) :
    ((counts.add key n).add k m).Perm ((counts.add k m).add key n) := by
  apply perm_of_lookup (nodup_add (nodup_add h key n) k m) (nodup_add (nodup_add h k m) key n)
  intro x
  simp only [lookup_add, get]
  by_cases hx : x = key
  · by_cases hx' : x = k
    · subst hx
      subst hx'
      simp [UInt64.add_assoc, UInt64.add_comm n m]
    · subst hx
      simp [hx']
  · by_cases hx' : x = k
    · subst hx'
      simp [hx]
    · simp [hx, hx']

/-- The counts of a list of keys added up. -/
def addAll (counts : Counts) (pairs : Counts) : Counts :=
  pairs.foldl (fun sum pair => sum.add pair.1 pair.2) counts

theorem nodup_addAll (h : (keys counts).Nodup) (pairs : Counts) :
    (keys (counts.addAll pairs)).Nodup := by
  induction pairs generalizing counts with
  | nil => exact h
  | cons pair pairs ih => exact ih (nodup_add h pair.1 pair.2)

theorem addAll_congr (ha : (keys a).Nodup) (h : a.Perm b) (pairs : Counts) :
    (a.addAll pairs).Perm (b.addAll pairs) := by
  induction pairs generalizing a b with
  | nil => exact h
  | cons pair pairs ih => exact ih (nodup_add ha pair.1 pair.2) (add_perm ha h pair.1 pair.2)

/-- What is added up does not depend on any order. -/
theorem addAll_perm {pairs more : Counts} (ha : (keys a).Nodup) (h : pairs.Perm more) :
    (a.addAll pairs).Perm (a.addAll more) := by
  induction h generalizing a with
  | nil => exact List.Perm.refl a
  | cons pair _ ih => exact ih (nodup_add ha pair.1 pair.2)
  | swap pair pair' pairs =>
      exact addAll_congr (nodup_add (nodup_add ha _ _) _ _) (add_add_perm ha _ _ _ _) pairs
  | trans _ _ ih ih' => exact (ih ha).trans (ih' ha)

theorem nodup_merge (h : (keys counts).Nodup) (more : Counts) : (keys (counts.merge more)).Nodup :=
  nodup_addAll h more

/-! ## What a table tells of a key -/

theorem get_cons (pair : Bytes × UInt64) (counts : Counts) (k : Bytes) :
    get (pair :: counts) k = if k = pair.1 then pair.2 else counts.get k := by
  rw [get, List.lookup_cons]
  by_cases hk : k = pair.1
  · simp [hk]
  · rw [beq_false_of_ne hk, if_neg hk, get]

theorem mem_keys_iff_lookup (counts : Counts) (key : Bytes) :
    key ∈ keys counts ↔ ∃ n, counts.lookup key = some n := by
  rw [keys, ← not_iff_not, ← lookup_eq_none_iff_notMem, ← Option.ne_none_iff_exists', not_not]

theorem get_eq_zero (h : k ∉ keys counts) : counts.get k = 0 := by
  rw [get, lookup_eq_none_iff_notMem.mpr h, Option.getD_none]

theorem get_of_perm (ha : (keys a).Nodup) (h : a.Perm b) (k : Bytes) : a.get k = b.get k := by
  rw [get, get, lookup_eq_of_perm ha h]

theorem get_add (counts : Counts) (key : Bytes) (n : UInt64) (k : Bytes) :
    (counts.add key n).get k = counts.get k + if k = key then n else 0 := by
  rw [get, lookup_add]
  by_cases hk : k = key
  · rw [if_pos hk, if_pos hk, hk, Option.getD_some]
  · rw [if_neg hk, if_neg hk, UInt64.add_zero, get]

/-- A merged table tells of each key the sum of what the two tables tell. -/
theorem get_merge {more : Counts} (h : (keys more).Nodup) (k : Bytes) :
    (counts.merge more).get k = counts.get k + more.get k := by
  induction more generalizing counts with
  | nil => exact (UInt64.add_zero _).symm
  | cons pair more ih =>
      obtain ⟨hnew, hrest⟩ := List.nodup_cons.mp h
      have htail : ((counts.add pair.1 pair.2).merge more).get k
          = (counts.add pair.1 pair.2).get k + Counts.get more k := ih hrest
      apply htail.trans
      rw [get_add, get_cons]
      by_cases hk : k = pair.1
      · rw [if_pos hk, if_pos hk, hk, get_eq_zero hnew, UInt64.add_zero]
      · rw [if_neg hk, if_neg hk, UInt64.add_zero]

/-- Merging respects the order of keys in both tables. -/
theorem merge_perm {c d : Counts} (ha : (keys a).Nodup) (hab : a.Perm b) (hcd : c.Perm d) :
    (a.merge c).Perm (b.merge d) :=
  (addAll_congr ha hab c).trans (addAll_perm ((keys_perm hab).nodup_iff.mp ha) hcd)

end Counts

end ResolverLog
