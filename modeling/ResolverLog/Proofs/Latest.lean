import ResolverLog.Backlog
import Mathlib.Data.List.Basic

/-!
# The latest entries

Sorting entries by time keeps the order of entries of the same time, and this
determines the sorted list. So it does not matter for the latest entries whether
a list is sorted as a whole, or whether a part of it is sorted and all but its
latest entries are dropped before the rest comes in.
-/

namespace ResolverLog

namespace Recent

variable {α : Type} {n : Nat}

@[simp] theorem lastN_nil (n : Nat) : lastN n ([] : List α) = [] :=
  List.drop_nil

@[simp] theorem lastN_zero (xs : List α) : lastN 0 xs = [] :=
  List.drop_length

theorem length_lastN (n : Nat) (xs : List α) : (lastN n xs).length = min n xs.length := by
  rw [lastN, List.length_drop]
  omega

theorem lastN_of_length_le {xs : List α} (h : xs.length ≤ n) : lastN n xs = xs := by
  rw [lastN, Nat.sub_eq_zero_of_le h, List.drop_zero]

theorem lastN_append_of_le {xs ys : List α} (h : n ≤ ys.length) :
    lastN n (xs ++ ys) = lastN n ys := by
  have hlen : (xs ++ ys).length - n = xs.length + (ys.length - n) := by
    rw [List.length_append]
    omega
  rw [lastN, lastN, hlen, List.drop_length_add_append]

theorem take_append_lastN (n : Nat) (xs : List α) :
    xs.take (xs.length - n) ++ lastN n xs = xs :=
  List.take_append_drop _ _

/-- What falls out of the last ones does not come back when more arrives. -/
theorem lastN_lastN_append (n : Nat) (xs ys : List α) :
    lastN n (lastN n xs ++ ys) = lastN n (xs ++ ys) := by
  rcases Nat.le_total xs.length n with hle | hle
  · rw [lastN_of_length_le hle]
  · have hlen : n ≤ (lastN n xs ++ ys).length := by
      rw [List.length_append, length_lastN]
      omega
    calc lastN n (lastN n xs ++ ys)
        = lastN n (xs.take (xs.length - n) ++ (lastN n xs ++ ys)) := (lastN_append_of_le hlen).symm
      _ = lastN n (xs ++ ys) := by rw [← List.append_assoc, take_append_lastN]

theorem lastN_lastN (n : Nat) (xs : List α) : lastN n (lastN n xs) = lastN n xs := by
  simpa using lastN_lastN_append n xs []

end Recent

namespace Backlog

open Recent

variable {xs ys : List Entry}

/-- An entry is no later than another one. -/
abbrev notLater (a b : Entry) : Bool :=
  decide (a.time.toInt ≤ b.time.toInt)

theorem notLater_trans (a b c : Entry) (hab : notLater a b) (hbc : notLater b c) : notLater a c :=
  decide_eq_true (Int.le_trans (of_decide_eq_true hab) (of_decide_eq_true hbc))

theorem notLater_total (a b : Entry) : notLater a b || notLater b a := by
  rw [Bool.or_eq_true, decide_eq_true_eq, decide_eq_true_eq]
  exact Int.le_total _ _

@[simp] theorem byTime_nil : byTime [] = [] :=
  List.mergeSort_nil

theorem byTime_perm (xs : List Entry) : (byTime xs).Perm xs :=
  List.mergeSort_perm xs _

theorem pairwise_byTime (xs : List Entry) :
    (byTime xs).Pairwise fun a b => a.time.toInt ≤ b.time.toInt := by
  have h := List.pairwise_mergeSort notLater_trans notLater_total xs
  exact h.imp of_decide_eq_true

/-- The entries of one time. -/
def atTime (t : Int) (xs : List Entry) : List Entry :=
  xs.filter fun e => e.time.toInt = t

/-- Entries of the same time keep their order. -/
theorem atTime_byTime (t : Int) (xs : List Entry) : atTime t (byTime xs) = atTime t xs := by
  have hsame : (atTime t xs).Pairwise fun a b => notLater a b := by
    rw [List.pairwise_iff_forall_sublist]
    intro a b hab
    have ha := List.mem_filter.mp (hab.subset List.mem_cons_self)
    have hb := List.mem_filter.mp (hab.subset (List.mem_cons_of_mem a List.mem_cons_self))
    have hta := of_decide_eq_true ha.2
    have htb := of_decide_eq_true hb.2
    exact decide_eq_true (by omega)
  have hsub : (atTime t xs).Sublist (byTime xs) :=
    List.sublist_mergeSort notLater_trans notLater_total hsame List.filter_sublist
  have hsub' : (atTime t xs).Sublist (atTime t (byTime xs)) := by
    have h := hsub.filter fun e => decide (e.time.toInt = t)
    rw [atTime, List.filter_filter] at h
    simpa only [Bool.and_self, atTime] using h
  exact (hsub'.eq_of_length ((byTime_perm xs).filter _).length_eq.symm).symm

/-- Sorted lists are equal when for each time they have the same entries in the same order. -/
theorem eq_of_atTime (hx : xs.Pairwise fun a b => a.time.toInt ≤ b.time.toInt)
    (hy : ys.Pairwise fun a b => a.time.toInt ≤ b.time.toInt)
    (h : ∀ t, atTime t xs = atTime t ys) : xs = ys := by
  induction xs generalizing ys with
  | nil =>
      cases ys with
      | nil => rfl
      | cons b ys =>
          have hb := h b.time.toInt
          simp [atTime] at hb
  | cons a xs ih =>
      cases ys with
      | nil =>
          have ha := h a.time.toInt
          simp [atTime] at ha
      | cons b ys =>
          have hmem : a ∈ b :: ys := by
            have ha : a ∈ atTime a.time.toInt (a :: xs) :=
              List.mem_filter.mpr ⟨List.mem_cons_self, by simp⟩
            rw [h] at ha
            exact (List.mem_filter.mp ha).1
          have hmem' : b ∈ a :: xs := by
            have hb : b ∈ atTime b.time.toInt (b :: ys) :=
              List.mem_filter.mpr ⟨List.mem_cons_self, by simp⟩
            rw [← h] at hb
            exact (List.mem_filter.mp hb).1
          have hle : b.time.toInt ≤ a.time.toInt := by
            rcases List.mem_cons.mp hmem with rfl | ha
            · exact Int.le_refl _
            · exact List.rel_of_pairwise_cons hy ha
          have hle' : a.time.toInt ≤ b.time.toInt := by
            rcases List.mem_cons.mp hmem' with rfl | hb
            · exact Int.le_refl _
            · exact List.rel_of_pairwise_cons hx hb
          have htime : a.time.toInt = b.time.toInt := Int.le_antisymm hle' hle
          have hhead := h a.time.toInt
          rw [atTime, atTime, List.filter_cons_of_pos (by simp),
            List.filter_cons_of_pos (by simp [htime])] at hhead
          obtain ⟨rfl, htail⟩ := List.cons.inj hhead
          congr 1
          apply ih hx.tail hy.tail
          intro t
          by_cases ht : a.time.toInt = t
          · rw [← ht]
            exact htail
          · have hrest := h t
            rw [atTime, atTime, List.filter_cons_of_neg (by simp [ht]),
              List.filter_cons_of_neg (by simp [ht])] at hrest
            exact hrest

/-- The sorted list is the one that has for each time the same entries in the same order. -/
theorem eq_byTime (hy : ys.Pairwise fun a b => a.time.toInt ≤ b.time.toInt)
    (h : ∀ t, atTime t ys = atTime t xs) : ys = byTime xs :=
  eq_of_atTime hy (pairwise_byTime xs) fun t => (h t).trans (atTime_byTime t xs).symm

/-- Only the times that there are have to be looked at. -/
theorem eq_byTime_of_perm (hy : ys.Pairwise fun a b => a.time.toInt ≤ b.time.toInt)
    (hp : ys.Perm xs) (h : ∀ e ∈ xs, atTime e.time.toInt ys = atTime e.time.toInt xs) :
    ys = byTime xs := by
  apply eq_byTime hy
  intro t
  by_cases ht : ∃ e ∈ xs, e.time.toInt = t
  · obtain ⟨e, he, rfl⟩ := ht
    exact h e he
  · have hnone : atTime t xs = [] := by
      rw [atTime, List.filter_eq_nil_iff]
      intro e he hte
      exact ht ⟨e, he, of_decide_eq_true hte⟩
    have hperm : (atTime t ys).Perm (atTime t xs) := hp.filter _
    rw [hnone] at hperm ⊢
    exact hperm.eq_nil

/-- It does not matter whether a part has been sorted before. -/
theorem byTime_byTime_append (xs ys : List Entry) :
    byTime (byTime xs ++ ys) = byTime (xs ++ ys) := by
  apply eq_of_atTime (pairwise_byTime _) (pairwise_byTime _)
  intro t
  rw [atTime_byTime, atTime_byTime, atTime, atTime, List.filter_append, List.filter_append]
  exact congrArg (· ++ _) (atTime_byTime t xs)

/-- An entry with `n` others that are no earlier is not among the latest `n`. -/
theorem lastN_byTime_cons {n : Nat} {e : Entry}
    (h : n ≤ (xs.filter fun x => notLater e x).length) :
    lastN n (byTime (e :: xs)) = lastN n (byTime xs) := by
  obtain ⟨before, after, hcons, hxs, hbefore⟩ :=
    List.mergeSort_cons notLater_trans notLater_total e xs
  have hafter : n ≤ after.length := by
    have hnone : before.filter (fun x => notLater e x) = [] := by
      rw [List.filter_eq_nil_iff]
      intro b hb
      simpa using hbefore b hb
    calc n ≤ (xs.filter fun x => notLater e x).length := h
      _ = ((before ++ after).filter fun x => notLater e x).length := by
          rw [← hxs]
          exact ((byTime_perm xs).filter _).length_eq.symm
      _ = (after.filter fun x => notLater e x).length := by
          rw [List.filter_append, hnone, List.nil_append]
      _ ≤ after.length := List.length_filter_le _ _
  change lastN n (List.mergeSort (e :: xs) notLater) = lastN n (List.mergeSort xs notLater)
  rw [hcons, hxs, List.append_cons, lastN_append_of_le hafter, lastN_append_of_le hafter]

/-- Entries that are no later than `n` others are not among the latest `n`. -/
theorem lastN_byTime_append {n : Nat} {early late : List Entry} (hlen : n ≤ late.length)
    (h : ∀ e ∈ early, ∀ x ∈ late, e.time.toInt ≤ x.time.toInt) (ys : List Entry) :
    lastN n (byTime (early ++ (late ++ ys))) = lastN n (byTime (late ++ ys)) := by
  induction early with
  | nil => rfl
  | cons e early ih =>
      rw [List.cons_append, lastN_byTime_cons, ih]
      · intro x hx
        exact h x (List.mem_cons_of_mem e hx)
      · have hall : late.filter (fun x => notLater e x) = late := by
          rw [List.filter_eq_self]
          intro x hx
          exact decide_eq_true (h e List.mem_cons_self x hx)
        rw [List.filter_append, List.filter_append, hall, List.length_append, List.length_append]
        omega

/-- Dropping all but the latest entries of a part changes nothing for the latest of all. -/
theorem lastN_byTime_trim (n : Nat) (xs ys : List Entry) :
    lastN n (byTime (lastN n (byTime xs) ++ ys)) = lastN n (byTime (xs ++ ys)) := by
  rcases Nat.le_total (byTime xs).length n with hle | hle
  · rw [lastN_of_length_le hle, byTime_byTime_append]
  · have hsplit := take_append_lastN n (byTime xs)
    have hsorted := pairwise_byTime xs
    rw [← hsplit, List.pairwise_append] at hsorted
    have hlen : n ≤ (lastN n (byTime xs)).length := by
      rw [length_lastN]
      omega
    calc lastN n (byTime (lastN n (byTime xs) ++ ys))
        = lastN n (byTime ((byTime xs).take ((byTime xs).length - n)
            ++ (lastN n (byTime xs) ++ ys))) := (lastN_byTime_append hlen hsorted.2.2 ys).symm
      _ = lastN n (byTime (byTime xs ++ ys)) := by rw [← List.append_assoc, hsplit]
      _ = lastN n (byTime (xs ++ ys)) := by rw [byTime_byTime_append]

end Backlog

end ResolverLog
