import Mathlib.Data.List.Sort
import ResolverLog.Proofs.Counts

/-!
# Rankings

The ranking of a table lists its highest-ranked pairs in the order of rank, as
many as are asked for. It may be found by sorting the whole table, or by arranging
a large one so that its highest-ranked pairs stand in front in any order, cutting
it behind them and sorting what is left. Since no two pairs of a table have the
same rank, both come to the same list, whatever order the table is in and however
the arranging and the sorting treat it.

## Implementation notes

`ranksBefore` lets a pair rank before itself, as sorting by it needs. `Precedes`
is the strict order, and of two different pairs of a table one precedes the other.
-/

namespace ResolverLog

namespace Counts

variable {counts listed ranked : Counts} {p q r : Bytes × UInt64} {k : Nat}

/-! ## The order of rank -/

/-- A pair precedes those with smaller counts, and those with the same count and greater keys. -/
def Precedes (p q : Bytes × UInt64) : Prop :=
  q.2 < p.2 ∨ p.2 = q.2 ∧ p.1 < q.1

instance (p q : Bytes × UInt64) : Decidable (Precedes p q) :=
  inferInstanceAs (Decidable (_ ∨ _))

theorem Precedes.trans (hpq : Precedes p q) (hqr : Precedes q r) : Precedes p r := by
  rcases hpq with hpq | ⟨heq, hkey⟩
  · rcases hqr with hqr | ⟨heq, -⟩
    · exact .inl (UInt64.lt_trans hqr hpq)
    · exact .inl (heq ▸ hpq)
  · rcases hqr with hqr | ⟨heq', hkey'⟩
    · exact .inl (heq ▸ hqr)
    · exact .inr ⟨heq.trans heq', List.lt_trans hkey hkey'⟩

theorem not_precedes_self (p : Bytes × UInt64) : ¬ Precedes p p := by
  rintro (h | ⟨-, h⟩)
  · exact UInt64.lt_irrefl p.2 h
  · exact List.lt_irrefl p.1 h

theorem precedes_trichotomy (p q : Bytes × UInt64) : Precedes p q ∨ p = q ∨ Precedes q p := by
  rcases Std.lt_trichotomy p.2 q.2 with hcount | hcount | hcount
  · exact .inr (.inr (.inl hcount))
  · rcases Std.lt_trichotomy p.1 q.1 with hkey | hkey | hkey
    · exact .inl (.inr ⟨hcount, hkey⟩)
    · exact .inr (.inl (Prod.ext hkey hcount))
    · exact .inr (.inr (.inr ⟨hcount.symm, hkey⟩))
  · exact .inl (.inl hcount)

theorem ranksBefore_iff : ranksBefore p q = true ↔ ¬ Precedes q p := by
  rw [ranksBefore, Precedes]
  by_cases hcount : p.2 = q.2
  · rw [if_pos (beq_iff_eq.mpr hcount), decide_eq_true_iff, hcount]
    simp [UInt64.lt_irrefl]
  · rw [if_neg (mt beq_iff_eq.mp hcount), decide_eq_true_iff]
    have hne : ¬ q.2 = p.2 := fun h => hcount h.symm
    simp only [hne, false_and, or_false, UInt64.not_lt]
    exact ⟨UInt64.le_of_lt, fun hle => UInt64.lt_of_le_of_ne hle hne⟩

/-! ## Sorted lists -/

/-- No pair stands behind one that it precedes. -/
def IsRanked (pairs : Counts) : Prop :=
  pairs.Pairwise fun p q => ¬ Precedes q p

instance (pairs : Counts) : Decidable (IsRanked pairs) :=
  inferInstanceAs (Decidable (List.Pairwise _ _))

/-- There is one way only to put pairs in the order of rank. -/
theorem IsRanked.eq_of_perm (h : IsRanked listed) (h' : IsRanked ranked)
    (hperm : listed.Perm ranked) : listed = ranked := by
  refine hperm.eq_of_pairwise (fun p q _ _ hpq hqp => ?_) h h'
  exact ((precedes_trichotomy p q).resolve_left hqp).resolve_right hpq

theorem ranksBefore_trans (p q r : Bytes × UInt64) (hpq : ranksBefore p q = true)
    (hqr : ranksBefore q r = true) : ranksBefore p r = true := by
  rw [ranksBefore_iff] at hpq hqr ⊢
  intro hrp
  rcases precedes_trichotomy p q with h | rfl | h
  · exact hqr (hrp.trans h)
  · exact hqr hrp
  · exact hpq h

theorem ranksBefore_total (p q : Bytes × UInt64) : (ranksBefore p q || ranksBefore q p) = true := by
  rw [Bool.or_eq_true, ranksBefore_iff, ranksBefore_iff, ← not_and_or]
  exact fun h => not_precedes_self p (h.2.trans h.1)

theorem isRanked_mergeSort (pairs : Counts) : IsRanked (pairs.mergeSort ranksBefore) :=
  (List.pairwise_mergeSort ranksBefore_trans ranksBefore_total pairs).imp ranksBefore_iff.mp

/-- In a ranked table each pair precedes those behind it. -/
theorem IsRanked.pairwise_precedes (h : IsRanked ranked) (hkeys : (keys ranked).Nodup) :
    ranked.Pairwise Precedes := by
  have hne : ranked.Pairwise (· ≠ ·) := List.Nodup.of_map _ hkeys
  exact h.imp₂ (fun p q hqp hpq => ((precedes_trichotomy p q).resolve_right
    fun h => h.elim hpq hqp)) hne

/-! ## Cutting before sorting -/

/-- A list is ranked whose front and back are, if no pair of the back precedes one of the front. -/
theorem IsRanked.append (h : IsRanked listed) (h' : IsRanked ranked)
    (hcut : ∀ p ∈ listed, ∀ q ∈ ranked, ¬ Precedes q p) : IsRanked (listed ++ ranked) :=
  List.pairwise_append.mpr ⟨h, h', hcut⟩

/-- Ways to find the highest-ranked pairs of a table. A table with no more pairs than asked for is
sorted, whatever order it is in. Of a larger one the pairs are arranged first, so that none behind
the cut precedes one in front of it, and only those in front of the cut are sorted. -/
inductive Finds (counts : Counts) (k : Nat) (ranked : Counts) : Prop
  | whole (few : counts.length ≤ rankedSize k) (same : ranked.Perm counts)
      (sorted : IsRanked ranked)
  | cut {arranged : Counts} (many : rankedSize k < counts.length) (perm : arranged.Perm counts)
      (apart : ∀ p ∈ arranged.take (rankedSize k), ∀ q ∈ arranged.drop (rankedSize k),
        ¬ Precedes q p)
      (same : ranked.Perm (arranged.take (rankedSize k))) (sorted : IsRanked ranked)

/-- Sorting the front of an arranged table gives the front of the sorted table. -/
theorem eq_take_of_arranged {arranged : Counts} {size : Nat} (hperm : arranged.Perm counts)
    (happart : ∀ p ∈ arranged.take size, ∀ q ∈ arranged.drop size, ¬ Precedes q p)
    (hsame : ranked.Perm (arranged.take size)) (hsorted : IsRanked ranked) :
    ranked = (counts.mergeSort ranksBefore).take size := by
  let back := (arranged.drop size).mergeSort ranksBefore
  have hback : back.Perm (arranged.drop size) := List.mergeSort_perm _ _
  have hwhole : (ranked ++ back).Perm counts := by
    refine (hsame.append hback).trans ?_
    rw [List.take_append_drop]
    exact hperm
  have hranked : IsRanked (ranked ++ back) :=
    hsorted.append (isRanked_mergeSort _) fun p hp q hq =>
      happart p (hsame.mem_iff.mp hp) q (hback.mem_iff.mp hq)
  have heq : counts.mergeSort ranksBefore = ranked ++ back :=
    (isRanked_mergeSort counts).eq_of_perm hranked
      ((List.mergeSort_perm _ _).trans hwhole.symm)
  have hlength : ranked.length = min size arranged.length := by
    rw [hsame.length_eq, List.length_take]
  rw [heq]
  by_cases hlong : size ≤ arranged.length
  · rw [List.take_left' (by omega)]
  · have hnil : back = [] := by
      rw [← List.length_eq_zero_iff, hback.length_eq, List.length_drop]
      omega
    rw [hnil, List.append_nil, List.take_of_length_le (by omega)]

/-- Sorting all and cutting is the same as arranging, cutting and sorting. -/
theorem finds_iff : Finds counts k ranked ↔ ranked = counts.top k := by
  have hperm : (counts.mergeSort ranksBefore).Perm counts := List.mergeSort_perm _ _
  rw [top]
  constructor
  · intro h
    cases h with
    | whole few same sorted =>
        rw [List.take_of_length_le (hperm.length_eq.trans_le few)]
        exact sorted.eq_of_perm (isRanked_mergeSort counts) (same.trans hperm.symm)
    | cut many perm apart same sorted => exact eq_take_of_arranged perm apart same sorted
  · rintro rfl
    by_cases hfew : counts.length ≤ rankedSize k
    · refine .whole hfew ?_ ((isRanked_mergeSort counts).sublist (List.take_sublist _ _))
      rw [List.take_of_length_le (hperm.length_eq.trans_le hfew)]
      exact hperm
    · have hsorted := isRanked_mergeSort counts
      rw [← List.take_append_drop (rankedSize k) (counts.mergeSort ranksBefore)] at hsorted
      have hparts := List.pairwise_append.mp hsorted
      exact .cut (Nat.not_le.mp hfew) hperm hparts.2.2 (List.Perm.refl _) hparts.1

/-! ## What a ranking lists -/

/-- The ranking of a table up to a size: its keys with their counts in the order of rank, and
nothing that is left out precedes anything that is listed. -/
structure Leads (counts : Counts) (size : Nat) (ranked : Counts) : Prop where
  length_eq : ranked.length = min size counts.length
  pairwise : ranked.Pairwise Precedes
  nodup_keys : (keys ranked).Nodup
  lookup_eq : ∀ p ∈ ranked, counts.lookup p.1 = some p.2
  precedes : ∀ p ∈ ranked, ∀ q ∈ counts, q ∉ ranked → Precedes p q

theorem leads_take (hkeys : (keys counts).Nodup) (size : Nat) :
    Leads counts size ((counts.mergeSort ranksBefore).take size) := by
  let sorted := counts.mergeSort ranksBefore
  have hperm : sorted.Perm counts := List.mergeSort_perm _ _
  have hnodup : (keys sorted).Nodup := (keys_perm hperm).nodup_iff.mpr hkeys
  have hranked : sorted.Pairwise Precedes :=
    (isRanked_mergeSort counts).pairwise_precedes hnodup
  have hfront : (sorted.take size).Sublist sorted := List.take_sublist _ _
  constructor
  · rw [List.length_take, hperm.length_eq]
  · exact hranked.sublist hfront
  · exact hnodup.sublist (hfront.map _)
  · intro p hp
    exact (Lookup.lookup_eq_some_iff_mem hkeys).mpr (hperm.mem_iff.mp (hfront.subset hp))
  · intro p hp q hq hnot
    have hback : q ∈ sorted.drop size := by
      have hmem : q ∈ sorted.take size ++ sorted.drop size := by
        rw [List.take_append_drop]
        exact hperm.mem_iff.mpr hq
      exact (List.mem_append.mp hmem).resolve_left hnot
    rw [← List.take_append_drop size sorted] at hranked
    exact (List.pairwise_append.mp hranked).2.2 p hp q hback

/-- A ranking of `k` keys, ten if `k` is zero and never more than 10000, lists the first pairs of
the sorted table, as many as there are up to that number: the keys with their counts, each once and
strictly in the order of rank, and no pair that is left out precedes one that is listed. Every way
to find it, from any order of the table, leads to this list. -/
theorem top_leads (hkeys : (keys counts).Nodup) (k : Nat) :
    let size := if k = 0 then 10 else min k 10000
    (∃ sorted : Counts, sorted.Perm counts ∧ sorted.Pairwise Precedes ∧
      counts.top k = sorted.take (min size counts.length)) ∧
    Leads counts size (counts.top k) ∧
    ∀ listed ranked, listed.Perm counts → (Finds listed k ranked ↔ ranked = counts.top k) := by
  intro size
  have hperm : (counts.mergeSort ranksBefore).Perm counts := List.mergeSort_perm _ _
  refine ⟨⟨counts.mergeSort ranksBefore, hperm, ?_, ?_⟩, leads_take hkeys size, ?_⟩
  · exact (isRanked_mergeSort counts).pairwise_precedes
      ((keys_perm hperm).nodup_iff.mpr hkeys)
  · rw [← hperm.length_eq, ← List.take_eq_take_min]
    rfl
  · intro listed ranked hlisted
    have hsame : listed.mergeSort ranksBefore = counts.mergeSort ranksBefore :=
      (isRanked_mergeSort listed).eq_of_perm (isRanked_mergeSort counts)
        ((List.mergeSort_perm _ _).trans (hlisted.trans hperm.symm))
    rw [finds_iff, top, top, hsame]

/-- Three keys with the same count. -/
def tied : Counts := [([0x62], 1), ([0x63], 1), ([0x61], 1)]

/-- Of three keys with the same count the two smaller ones are listed, also when they stand the
other way round in front of the cut. -/
theorem top_leads_tied :
    (keys tied).Nodup ∧ tied.top 2 = [([0x61], 1), ([0x62], 1)] ∧
      Leads tied 2 [([0x61], 1), ([0x62], 1)] := by
  have hkeys : (keys tied).Nodup := by decide
  obtain ⟨-, hleads, hfinds⟩ := top_leads hkeys 2
  have htop : [([0x61], 1), ([0x62], 1)] = tied.top 2 := by
    have harranged : List.Perm [([0x62], 1), ([0x61], 1), ([0x63], 1)] tied := by decide
    refine (hfinds tied _ (List.Perm.refl _)).mp ?_
    exact .cut (by decide) harranged (by decide) (by decide) (by decide)
  rw [htop]
  exact ⟨hkeys, rfl, hleads⟩

end Counts

end ResolverLog
