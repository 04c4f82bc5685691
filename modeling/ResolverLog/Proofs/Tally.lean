import ResolverLog.Proofs.Counts
import ResolverLog.Tally
import Mathlib.Data.Finset.Card

/-!
# Tallies with room for all keys

A tally that has room for all the keys counted into it forgets none, and then it
holds the counts of a table without bound. So its counts do not depend on the
order in which the keys arrived, only the order of its keys does. Any tally tells
of a key at most how often it was counted, and never holds more keys than it may.
-/

namespace ResolverLog

namespace Tally

open Counts

variable {t : Tally} {key k : Bytes} {n m : UInt64}

theorem keys_eraseP (counts : Counts) (key : Bytes) :
    keys (counts.eraseP fun pair => pair.1 == key) = (keys counts).erase key := by
  induction counts with
  | nil => rfl
  | cons pair counts ih =>
      by_cases hkey : pair.1 = key
      · rw [List.eraseP_cons_of_pos (by simpa using hkey), keys, keys, List.map_cons, hkey,
          List.erase_cons_head]
      · rw [List.eraseP_cons_of_neg (by simpa using hkey)]
        simp only [keys, List.map_cons] at ih ⊢
        rw [ih, List.erase_cons_tail (by simpa using hkey)]

theorem lookup_eraseP_ne (counts : Counts) (h : k ≠ key) :
    (counts.eraseP fun pair => pair.1 == key).lookup k = counts.lookup k := by
  induction counts with
  | nil => rfl
  | cons pair counts ih =>
      by_cases hkey : pair.1 = key
      · have hne : (k == pair.1) = false := by
          rw [hkey]
          exact beq_false_of_ne h
        rw [List.eraseP_cons_of_pos (by simpa using hkey), List.lookup_cons, hne]
      · rw [List.eraseP_cons_of_neg (by simpa using hkey), List.lookup_cons, List.lookup_cons, ih]

theorem keys_filter (counts : Counts) (p : Bytes → Bool) :
    keys (counts.filter fun pair => p pair.1) = (keys counts).filter p := by
  rw [keys, keys, List.filter_map]
  rfl

/-- Where no key stands twice, erasing the first pair of a key erases the key. -/
theorem eraseP_eq_filter {counts : Counts} (h : (keys counts).Nodup) (key : Bytes) :
    (counts.eraseP fun pair => pair.1 == key) = counts.filter fun pair => pair.1 != key := by
  induction counts with
  | nil => rfl
  | cons pair counts ih =>
      obtain ⟨hnew, hrest⟩ := List.nodup_cons.mp h
      by_cases hkey : pair.1 = key
      · have hall : ∀ other ∈ counts, (other.1 != key) = true := by
          intro other hother
          rw [bne_iff_ne]
          rintro rfl
          exact hnew (hkey ▸ List.mem_map_of_mem hother)
        rw [List.eraseP_cons_of_pos (by simpa using hkey), List.filter_cons_of_neg (by simp [hkey]),
          List.filter_eq_self.mpr hall]
      · rw [List.eraseP_cons_of_neg (by simpa using hkey),
          List.filter_cons_of_pos (by simpa using hkey), ih hrest]

/-- Where no key stands twice, all but the last element are those with another key. -/
theorem filter_ne_last {α : Type} {f : α → Bytes} {front : List α} {last : α}
    (h : ((front ++ [last]).map f).Nodup) :
    ((front ++ [last]).filter fun x => f x != f last) = front := by
  rw [List.map_append, List.nodup_append] at h
  rw [List.filter_append, List.filter_cons_of_neg (by simp), List.filter_nil, List.append_nil,
    List.filter_eq_self]
  intro x hx
  rw [bne_iff_ne]
  exact h.2.2 (f x) (List.mem_map_of_mem hx) (f last) (by simp)

@[simp] theorem capacity_count (t : Tally) (key : Bytes) (n : UInt64) :
    (t.count key n).capacity = t.capacity := by
  rw [count]
  split
  · rfl
  · split
    · rfl
    · rfl

/-- With room for its key, counting adds to the count of the key. -/
theorem count_perm_add (h : (keys t.counts).Nodup)
    (hroom : key ∉ keys t.counts → t.size < t.capacity) :
    (t.count key n).counts.Perm (t.counts.add key n) := by
  cases hl : t.counts.lookup key with
  | some m =>
      have hcounts : (t.count key n).counts
          = (key, m + n) :: t.counts.eraseP fun pair => pair.1 == key := by
        rw [count, hl]
      have hkeys : (keys (t.count key n).counts).Nodup := by
        rw [hcounts, keys, List.map_cons, ← keys, keys_eraseP]
        exact List.nodup_cons.mpr ⟨h.not_mem_erase, h.erase _⟩
      apply perm_of_lookup hkeys (nodup_add h key n)
      intro k
      rw [lookup_add, hcounts, List.lookup_cons, Counts.get, hl, Option.getD_some]
      by_cases hk : k = key
      · subst hk
        simp
      · rw [beq_false_of_ne hk, if_neg hk]
        exact lookup_eraseP_ne _ hk
  | none =>
      have hnew : key ∉ keys t.counts := Lookup.lookup_eq_none_iff_notMem.mp hl
      have hcounts : (t.count key n).counts = (key, n) :: t.counts := by
        rw [count, hl]
        simp only
        rw [if_neg (Nat.not_le.mpr (hroom hnew))]
      have hkeys : (keys (t.count key n).counts).Nodup := by
        rw [hcounts]
        exact List.nodup_cons.mpr ⟨hnew, h⟩
      apply perm_of_lookup hkeys (nodup_add h key n)
      intro k
      rw [lookup_add, hcounts, List.lookup_cons, Counts.get, hl, Option.getD_none]
      by_cases hk : k = key
      · subst hk
        simp
      · rw [beq_false_of_ne hk, if_neg hk]

/-- Each key counted once, one after another. -/
def countAll (t : Tally) (list : List Bytes) : Tally :=
  list.foldl (fun t key => t.count key 1) t

/-- Each key once. -/
def ones (list : List Bytes) : Counts :=
  list.map fun key => (key, 1)

/-- With room for all keys, counting adds up. -/
theorem countAll_perm_addAll {list : List Bytes} {sum : Counts} (h : (keys t.counts).Nodup)
    (hsum : t.counts.Perm sum) (hroom : (keys t.counts ++ list).toFinset.card ≤ t.capacity) :
    (t.countAll list).counts.Perm (sum.addAll (ones list)) := by
  induction list generalizing t sum with
  | nil => exact hsum
  | cons key list ih =>
      have hspare : key ∉ keys t.counts → t.size < t.capacity := by
        intro hnew
        have hnodup : (key :: keys t.counts).Nodup := List.nodup_cons.mpr ⟨hnew, h⟩
        have hsub : (key :: keys t.counts).toFinset ⊆ (keys t.counts ++ key :: list).toFinset := by
          intro x hx
          simp only [List.mem_toFinset, List.mem_cons, List.mem_append] at hx ⊢
          tauto
        have hcard := (Finset.card_le_card hsub).trans hroom
        rw [List.toFinset_card_of_nodup hnodup, List.length_cons, keys, List.length_map] at hcard
        exact hcard
      have hcount := count_perm_add (n := 1) h hspare
      have hadd := hcount.trans (add_perm h hsum key 1)
      have hkeys : (keys (t.count key 1).counts).Nodup :=
        (keys_perm hcount).nodup_iff.mpr (nodup_add h key 1)
      refine ih hkeys hadd ?_
      have hsame : (keys (t.count key 1).counts ++ list).toFinset
          = (keys t.counts ++ key :: list).toFinset := by
        ext x
        simp only [List.mem_toFinset, List.mem_append, List.mem_cons,
          (keys_perm hcount).mem_iff, mem_keys_add]
        tauto
      rw [hsame, capacity_count]
      exact hroom

theorem card_le_capacity {capacity : Nat} {list : List Bytes} (h : list.dedup.length ≤ capacity) :
    (keys (empty capacity).counts ++ list).toFinset.card ≤ (empty capacity).capacity := by
  change list.toFinset.card ≤ _
  rw [List.card_toFinset]
  exact h.trans (Nat.le_max_right _ _)

/-- Fewer keys need no more room. -/
theorem length_dedup_le_of_subset {list more : List Bytes} (h : list ⊆ more) :
    list.dedup.length ≤ more.dedup.length := by
  have hdedup : list.dedup ⊆ more.dedup := by
    intro key hkey
    exact List.mem_dedup.mpr (h (List.mem_dedup.mp hkey))
  exact (List.subperm_of_subset (List.nodup_dedup list) hdedup).length_le

/-- A tally with room for all keys counts them in any order. -/
theorem countAll_perm {list list' : List Bytes} (h : (keys t.counts).Nodup) (hp : list.Perm list')
    (hroom : (keys t.counts ++ list).toFinset.card ≤ t.capacity) :
    (t.countAll list).counts.Perm (t.countAll list').counts := by
  have hroom' : (keys t.counts ++ list').toFinset.card ≤ t.capacity := by
    rw [← List.toFinset_eq_of_perm _ _ (hp.append_left _)]
    exact hroom
  have hlist := countAll_perm_addAll h (List.Perm.refl _) hroom
  have hlist' := countAll_perm_addAll h (List.Perm.refl _) hroom'
  have hsum := addAll_perm h (hp.map fun key => (key, (1 : UInt64)))
  exact (hlist.trans hsum).trans hlist'.symm

/-! ## Tallies of any size

A key that is forgotten loses its count, so a tally tells at most what was counted, whatever its
capacity. -/

theorem get_count_self (t : Tally) (key : Bytes) (n : UInt64) :
    (t.count key n).get key = t.get key + n := by
  have hget : t.get key = (t.counts.lookup key).getD 0 := rfl
  rw [hget, count, get]
  cases hl : t.counts.lookup key with
  | some m => simp [get_cons]
  | none =>
      simp only
      split
      · simp [get_cons]
      · simp [get_cons]

/-- A key that is still held has the count it had. -/
theorem get_count_of_mem (hk : k ≠ key) (hmem : k ∈ keys (t.count key n).counts) :
    (t.count key n).get k = t.get k := by
  rw [count] at hmem ⊢
  cases hl : t.counts.lookup key with
  | some m =>
      simp only [get, get_cons, if_neg hk]
      rw [Counts.get, lookup_eraseP_ne _ hk, Counts.get]
  | none =>
      rw [hl] at hmem
      simp only at hmem ⊢
      split at hmem
      · rename_i hfull
        rw [if_pos hfull]
        have hfront : k ∈ keys t.counts.dropLast := (List.mem_cons.mp hmem).resolve_left hk
        rcases List.eq_nil_or_concat' t.counts with hnil | ⟨front, last, hcounts⟩
        · rw [hnil] at hfront
          cases hfront
        · rw [hcounts, List.dropLast_concat] at hfront
          obtain ⟨m, hm⟩ := (mem_keys_iff_lookup front k).mp hfront
          simp only [get, get_cons, if_neg hk]
          rw [hcounts, List.dropLast_concat, Counts.get, Counts.get, List.lookup_append, hm]
          rfl
      · rename_i hroom
        rw [if_neg hroom]
        simp only [get, get_cons, if_neg hk]

/-- The count of any other key stays, unless the key is forgotten. -/
theorem get_count_ne (t : Tally) (n : UInt64) (hk : k ≠ key) :
    (t.count key n).get k = t.get k ∨ (t.count key n).get k = 0 := by
  by_cases hmem : k ∈ keys (t.count key n).counts
  · exact Or.inl (get_count_of_mem hk hmem)
  · exact Or.inr (get_eq_zero hmem)

theorem length_keys (t : Tally) : (keys t.counts).length = t.size :=
  List.length_map _

/-- A count puts its key in front, and what is too much goes. -/
theorem keys_count (hpos : 0 < t.capacity) (h : t.size ≤ t.capacity) (key : Bytes) (n : UInt64) :
    keys (t.count key n).counts = (key :: (keys t.counts).erase key).take t.capacity := by
  have hlength := t.length_keys
  rw [count]
  cases hl : t.counts.lookup key with
  | some m =>
      have hmem := (mem_keys_iff_lookup t.counts key).mpr ⟨m, hl⟩
      have hne := List.length_pos_of_mem hmem
      rw [List.take_of_length_le, ← keys_eraseP]
      · rfl
      · rw [List.length_cons, List.length_erase_of_mem hmem]
        omega
  | none =>
      have hnew : key ∉ keys t.counts := Lookup.lookup_eq_none_iff_notMem.mp hl
      rw [List.erase_of_not_mem hnew]
      simp only
      split
      · rename_i hfull
        have hcapacity : t.capacity = t.size - 1 + 1 := by omega
        rw [hcapacity, List.take_succ_cons, keys, List.map_cons, List.map_dropLast, ← keys,
          List.dropLast_eq_take, hlength]
      · rw [List.take_of_length_le (by rw [List.length_cons]; omega)]
        rfl

theorem nodup_count (h : (keys t.counts).Nodup) (key : Bytes) (n : UInt64) :
    (keys (t.count key n).counts).Nodup := by
  rw [count]
  cases hl : t.counts.lookup key with
  | some m =>
      rw [keys, List.map_cons, ← keys, keys_eraseP]
      exact List.nodup_cons.mpr ⟨h.not_mem_erase, h.erase _⟩
  | none =>
      have hnew : key ∉ keys t.counts := Lookup.lookup_eq_none_iff_notMem.mp hl
      have hsub : (keys t.counts.dropLast).Sublist (keys t.counts) :=
        (List.dropLast_sublist t.counts).map Prod.fst
      simp only
      split
      · exact List.nodup_cons.mpr ⟨fun hmem => hnew (hsub.subset hmem), h.sublist hsub⟩
      · exact List.nodup_cons.mpr ⟨hnew, h⟩

theorem size_count_le (hpos : 0 < t.capacity) (h : t.size ≤ t.capacity) (key : Bytes)
    (n : UInt64) : (t.count key n).size ≤ t.capacity := by
  rw [← length_keys, keys_count hpos h]
  exact List.length_take_le _ _

/-- What holds of a tally however many keys have been counted into it. -/
structure Sound (t : Tally) (capacity : Nat) : Prop where
  capacity_eq : t.capacity = capacity
  nodup : (keys t.counts).Nodup
  size_le : t.size ≤ capacity

theorem sound_empty (capacity : Nat) : (empty capacity).Sound (max 1 capacity) :=
  ⟨rfl, List.nodup_nil, Nat.zero_le _⟩

theorem Sound.countAll {capacity : Nat} (hpos : 0 < capacity) (h : t.Sound capacity)
    (list : List Bytes) : (t.countAll list).Sound capacity := by
  induction list generalizing t with
  | nil => exact h
  | cons key list ih =>
      obtain ⟨rfl, hnodup, hsize⟩ := h
      exact ih ⟨capacity_count t key 1, nodup_count hnodup key 1, size_count_le hpos hsize key 1⟩

/-- A key has been counted at least as often as the tally tells. -/
theorem get_countAll_le {m : Nat} (h : t.get key = UInt64.ofNat m) (list : List Bytes) :
    ∃ n ≤ m + list.count key, (t.countAll list).get key = UInt64.ofNat n := by
  induction list generalizing t m with
  | nil => exact ⟨m, Nat.le_refl m, h⟩
  | cons k list ih =>
      by_cases hk : key = k
      · subst hk
        have hnext : (t.count key 1).get key = UInt64.ofNat (m + 1) := by
          rw [get_count_self, h, UInt64.ofNat_add]
          rfl
        obtain ⟨n, hn, hget⟩ := ih hnext
        refine ⟨n, ?_, hget⟩
        rw [List.count_cons_self]
        omega
      · rw [List.count_cons_of_ne (Ne.symm hk)]
        rcases get_count_ne t 1 hk with hsame | hzero
        · exact ih (hsame.trans h)
        · obtain ⟨n, hn, hget⟩ := ih (m := 0) hzero
          exact ⟨n, by omega, hget⟩

theorem get_addAll_ones (counts : Counts) (list : List Bytes) (key : Bytes) :
    (counts.addAll (ones list)).get key = counts.get key + UInt64.ofNat (list.count key) := by
  induction list generalizing counts with
  | nil => exact (UInt64.add_zero _).symm
  | cons k list ih =>
      apply (ih (counts.add k 1)).trans
      rw [get_add]
      by_cases hk : key = k
      · rw [if_pos hk, hk, List.count_cons_self, Nat.add_comm, UInt64.ofNat_add, UInt64.add_assoc]
        rfl
      · rw [if_neg hk, List.count_cons_of_ne (Ne.symm hk), UInt64.add_zero]

/-- A tally tells of a key at most how often it was counted, and exactly that when there was room
for all keys. -/
theorem get_countAll_empty (capacity : Nat) (list : List Bytes) (key : Bytes) :
    ∃ n ≤ list.count key, ((empty capacity).countAll list).get key = UInt64.ofNat n ∧
      (list.dedup.length ≤ capacity → n = list.count key) := by
  by_cases hroom : list.dedup.length ≤ capacity
  · refine ⟨list.count key, Nat.le_refl _, ?_, fun _ => rfl⟩
    have hnil : (keys (empty capacity).counts).Nodup := List.nodup_nil
    have hsum := countAll_perm_addAll hnil (List.Perm.refl _) (card_le_capacity hroom)
    have hnodup := (keys_perm hsum).nodup_iff.mpr (nodup_addAll hnil (ones list))
    rw [get, get_of_perm hnodup hsum, get_addAll_ones]
    exact UInt64.zero_add _
  · obtain ⟨n, hn, hget⟩ := get_countAll_le (t := empty capacity) (m := 0) rfl list
    exact ⟨n, by omega, hget, fun h => absurd h hroom⟩

end Tally

end ResolverLog
