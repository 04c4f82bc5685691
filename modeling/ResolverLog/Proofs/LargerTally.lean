import ResolverLog.Proofs.Recency

/-!
# Tallies of two sizes

Of two tallies that are asked the same, the one that may hold more keys never
knows less than the other. It holds the keys of the smaller one and older keys
behind them, it has forgotten a key no more often, and of each key it tells at
least as much: the key has been there at least as long.

## Implementation notes

The keys of the smaller tally are the front of those of the larger one, cut at
its capacity, and not just some of them. So when there is no room for a new key
in the larger tally there is none in the smaller one either, and this is what
carries the comparison of the evictions through a count.

Sums are 64-bit words and wrap. A count is compared where what was counted of its
key since the last clearing fits into one.
-/

namespace ResolverLog

open Counts

namespace Tally

variable {key : Bytes} {capacity capacity' : Nat} {calls : List Call}

/-! ## Keys and evictions -/

/-- The smaller tally holds the latest keys of the larger one, as many as it may. -/
theorem keys_run_eq_take (h : capacity ≤ capacity') (calls : List Call) :
    keys (run capacity calls).counts
      = (keys (run capacity' calls).counts).take (run capacity calls).capacity := by
  calc
    keys (run capacity calls).counts = held capacity calls := keys_run capacity calls
    _ = (held capacity' calls).take (max 1 capacity) := by
      rw [held, held, List.take_take, Nat.min_eq_left (by omega)]
    _ = _ := by rw [keys_run, (sound_run capacity calls).capacity_eq]

theorem prefix_keys_run (h : capacity ≤ capacity') (calls : List Call) :
    keys (run capacity calls).counts <+: keys (run capacity' calls).counts := by
  rw [keys_run_eq_take h]
  exact List.take_prefix _ _

/-- A key for which the larger tally has no room has none in the smaller one. -/
theorem full_run_of_full (h : capacity ≤ capacity')
    (hfull : key ∉ keys (run capacity' calls).counts ∧
      (run capacity' calls).capacity ≤ (run capacity' calls).size) :
    key ∉ keys (run capacity calls).counts ∧
      (run capacity calls).capacity ≤ (run capacity calls).size := by
  obtain ⟨hnew, hlarge⟩ := hfull
  refine ⟨fun hmem => hnew ((prefix_keys_run h calls).subset hmem), Nat.le_of_eq ?_⟩
  have hcapacity := (sound_run capacity calls).capacity_eq
  have hcapacity' := (sound_run capacity' calls).capacity_eq
  calc
    (run capacity calls).capacity
        = min (run capacity calls).capacity (run capacity' calls).size := by omega
    _ = ((keys (run capacity' calls).counts).take (run capacity calls).capacity).length := by
      rw [List.length_take, length_keys]
    _ = (run capacity calls).size := by rw [← keys_run_eq_take h, length_keys]

/-- A larger tally has forgotten no more often. -/
theorem evictions_run_le (h : capacity ≤ capacity') (calls : List Call) :
    (run capacity' calls).evictions ≤ (run capacity calls).evictions := by
  induction calls using List.reverseRecOn with
  | nil => exact Nat.le_refl 0
  | append_singleton calls call ih =>
      rw [run_concat, run_concat]
      cases call with
      | clear => exact ih
      | count key n =>
          simp only [Call.apply, evictions_count]
          split
          · rename_i hfull
            rw [if_pos (full_run_of_full h hfull)]
            omega
          · omega

/-! ## Counts -/

theorem total_sinceClear_concat (key k : Bytes) (n : UInt64) (calls : List Call) :
    total key (sinceClear (calls ++ [.count k n]))
      = total key (sinceClear calls) + (Call.count k n).amount key := by
  rw [sinceClear, List.rtakeWhile_concat_pos _ _ _ (by simp), total_concat]
  rfl

/-- A tally tells of a key no more than was counted since the last clearing. -/
theorem toNat_get_run_le (capacity : Nat) (calls : List Call) (key : Bytes) :
    ((run capacity calls).get key).toNat ≤ total key (sinceClear calls) := by
  induction calls using List.reverseRecOn with
  | nil => exact Nat.le_refl 0
  | append_singleton calls call ih =>
      rw [run_concat]
      cases call with
      | clear => exact Nat.zero_le _
      | count k n =>
          rw [total_sinceClear_concat, Call.apply]
          by_cases hk : key = k
          · subst hk
            calc
              (((run capacity calls).count key n).get key).toNat
                  = (((run capacity calls).get key).toNat + n.toNat) % 2 ^ 64 := by
                rw [get_count_self, UInt64.toNat_add]
              _ ≤ ((run capacity calls).get key).toNat + n.toNat := Nat.mod_le _ _
              _ ≤ total key (sinceClear calls) + n.toNat := by omega
              _ = total key (sinceClear calls) + (Call.count key n).amount key := by
                rw [Call.amount, if_pos rfl]
          · rcases get_count_ne (run capacity calls) n hk with hsame | hzero
            · rw [hsame]
              omega
            · rw [hzero]
              exact Nat.zero_le _

/-- A larger tally tells of a key at least as much. -/
theorem get_run_le (h : capacity ≤ capacity') (hsum : total key (sinceClear calls) < UInt64.size) :
    (run capacity calls).get key ≤ (run capacity' calls).get key := by
  induction calls using List.reverseRecOn with
  | nil => exact UInt64.le_refl _
  | append_singleton calls call ih =>
      have hkeys := prefix_keys_run h (calls ++ [call])
      rw [run_concat, run_concat] at hkeys ⊢
      cases call with
      | clear => exact UInt64.le_refl _
      | count k n =>
          rw [total_sinceClear_concat] at hsum
          have hbefore := ih (by omega)
          simp only [Call.apply] at hkeys ⊢
          by_cases hk : key = k
          · -- The larger sum does not wrap, so neither does the smaller one.
            subst hk
            have hlarge := toNat_get_run_le capacity' calls key
            rw [Call.amount, if_pos rfl, UInt64.size] at hsum
            rw [UInt64.le_iff_toNat_le] at hbefore
            rw [get_count_self, get_count_self, UInt64.le_iff_toNat_le, UInt64.toNat_add,
              UInt64.toNat_add, Nat.mod_eq_of_lt (by omega), Nat.mod_eq_of_lt (by omega)]
            omega
          · by_cases hmem : key ∈ keys ((run capacity calls).count k n).counts
            · rw [get_count_of_mem hk hmem, get_count_of_mem hk (hkeys.subset hmem)]
              exact hbefore
            · rw [get, get_eq_zero hmem]
              exact UInt64.zero_le

/-! ## Both -/

/-- Of two tallies that are asked the same, the one that may hold more holds the keys of the other
and older ones behind them, tells of each key at least as much as long as its sum has not wrapped,
and has not forgotten more often. -/
theorem knows_no_less (h : capacity ≤ capacity') (calls : List Call) :
    keys (run capacity calls).counts <+: keys (run capacity' calls).counts ∧
      (∀ key, total key (sinceClear calls) < UInt64.size →
        (run capacity calls).get key ≤ (run capacity' calls).get key) ∧
      (run capacity' calls).evictions ≤ (run capacity calls).evictions :=
  ⟨prefix_keys_run h calls, fun _ => get_run_le h, evictions_run_le h calls⟩

/-- A tally of one key has forgotten the first key and counts it anew. -/
theorem knows_no_less_countedAnew :
    let calls : List Call := [.count [1] 9, .clear, .count [1] 4, .count [2] 1, .count [1] 3]
    keys (run 0 calls).counts <+: keys (run 2 calls).counts ∧
      (run 0 calls).get [1] = 3 ∧ (run 0 calls).get [1] ≤ (run 2 calls).get [1] ∧
      (run 2 calls).evictions ≤ (run 0 calls).evictions := by
  intro calls
  have hle : 0 ≤ 2 := by decide
  obtain ⟨hkeys, hcounts, hevictions⟩ := knows_no_less hle calls
  exact ⟨hkeys, by decide, hcounts [1] (by decide), hevictions⟩

end Tally

end ResolverLog
