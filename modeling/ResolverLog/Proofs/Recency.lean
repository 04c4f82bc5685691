import ResolverLog.Proofs.LinkedTally
import Mathlib.Data.List.DropRight

/-!
# What a tally holds

A tally is called again and again, to count a key or to forget all keys. What it
holds then can be told from the calls alone: the keys counted since it was last
cleared, the latest first, as many as it may hold. The count of a key that it
holds is what was counted since the key last came in, and a key goes each time a
new one comes while as many are held as may be.

The list and the table of `LinkedTally` hold the same after every sequence of
calls.

## Implementation notes

`held` speaks of the calls only. One lemma says how a call changes it, one how a
count changes the keys of a tally, and that both are the same is an induction
over the calls, the last call first.
-/

namespace ResolverLog

open Counts

/-! ## Latest occurrences -/

/-- The keys of a list, each once, the one that occurs last first. -/
def latestFirst (list : List Bytes) : List Bytes :=
  list.dedup.reverse

theorem nodup_latestFirst (list : List Bytes) : (latestFirst list).Nodup :=
  List.nodup_reverse.mpr (List.nodup_dedup list)

@[simp] theorem mem_latestFirst {list : List Bytes} {key : Bytes} :
    key ∈ latestFirst list ↔ key ∈ list := by
  rw [latestFirst, List.mem_reverse, List.mem_dedup]

theorem dedup_append_eq_filter (list more : List Bytes) :
    (list ++ more).dedup = (list.dedup.filter fun key => key ∉ more) ++ more.dedup := by
  induction list with
  | nil => rfl
  | cons key list ih =>
      rw [List.cons_append]
      by_cases hlist : key ∈ list
      · rw [List.dedup_cons_of_mem hlist, List.dedup_cons_of_mem (List.mem_append_left _ hlist), ih]
      · rw [List.dedup_cons_of_notMem hlist]
        by_cases hmore : key ∈ more
        · rw [List.dedup_cons_of_mem (List.mem_append_right _ hmore),
            List.filter_cons_of_neg (by simpa using hmore), ih]
        · rw [List.dedup_cons_of_notMem (by simp [hlist, hmore]),
            List.filter_cons_of_pos (by simpa using hmore), ih, List.cons_append]

/-- The keys of the later list come first, then the other keys of the earlier one. -/
theorem latestFirst_append (list more : List Bytes) :
    latestFirst (list ++ more)
      = latestFirst more ++ (latestFirst list).filter fun key => key ∉ more := by
  rw [latestFirst, dedup_append_eq_filter, List.reverse_append, ← List.filter_reverse]
  rfl

theorem latestFirst_concat (list : List Bytes) (key : Bytes) :
    latestFirst (list ++ [key]) = key :: (latestFirst list).erase key := by
  have hfilter : ((latestFirst list).filter fun k => k ∉ [key])
      = (latestFirst list).filter (· != key) := by
    apply List.filter_congr
    intro k _
    simp [bne, Bool.beq_eq_decide_eq]
  rw [latestFirst_append, hfilter, (nodup_latestFirst list).erase_eq_filter]
  rfl

/-- Erasing a key brings in at most one key from behind. -/
theorem take_erase_take (list : List Bytes) (key : Bytes) (n : Nat) :
    ((list.take (n + 1)).erase key).take n = (list.erase key).take n := by
  induction list generalizing n with
  | nil => rfl
  | cons k list ih =>
      rw [List.take_succ_cons]
      by_cases hkey : k = key
      · rw [hkey, List.erase_cons_head, List.erase_cons_head, List.take_take, Nat.min_self]
      · rw [List.erase_cons_tail (by simpa using hkey), List.erase_cons_tail (by simpa using hkey)]
        cases n with
        | zero => rfl
        | succ n => rw [List.take_succ_cons, List.take_succ_cons, ih]

namespace Tally

variable {t : Tally} {key k : Bytes} {n : UInt64} {capacity : Nat}

/-! ## Calls -/

/-- What is asked of a tally. -/
inductive Call where
  | count (key : Bytes) (n : UInt64)
  | clear
  deriving DecidableEq, Repr

/-- A tally after a call. -/
def Call.apply (t : Tally) : Call → Tally
  | .count key n => t.count key n
  | .clear => t.clear

/-- The tally after these calls. -/
def run (capacity : Nat) (calls : List Call) : Tally :=
  calls.foldl Call.apply (empty capacity)

/-- The key that a call counts. -/
def Call.key? : Call → Option Bytes
  | .count key _ => some key
  | .clear => none

/-- What a call adds to the count of a key. -/
def Call.amount (key : Bytes) : Call → Nat
  | .count k n => if k = key then n.toNat else 0
  | .clear => 0

/-- What calls add to the count of a key. -/
def total (key : Bytes) : List Call → Nat
  | [] => 0
  | call :: calls => call.amount key + total key calls

/-- The calls since the last clearing. -/
def sinceClear (calls : List Call) : List Call :=
  calls.rtakeWhile fun call => call != .clear

/-- The keys counted since the last clearing, the latest first, as many as may be held. -/
def held (capacity : Nat) (calls : List Call) : List Bytes :=
  (latestFirst ((sinceClear calls).filterMap Call.key?)).take (max 1 capacity)

/-- A new key comes after these calls, and there is no room for it. -/
def Call.overflows (capacity : Nat) (before : List Call) : Call → Bool
  | .count key _ =>
    !(held capacity before).contains key && (held capacity before).length == max 1 capacity
  | .clear => false

/-- How often a new key came when there was no room for it. -/
def overflows (capacity : Nat) (calls : List Call) : Nat :=
  (List.range calls.length).countP fun i =>
    calls[i]?.any (Call.overflows capacity (calls.take i))

theorem run_concat (capacity : Nat) (calls : List Call) (call : Call) :
    run capacity (calls ++ [call]) = call.apply (run capacity calls) := by
  rw [run, List.foldl_append]
  rfl

theorem total_concat (key : Bytes) (calls : List Call) (call : Call) :
    total key (calls ++ [call]) = total key calls + call.amount key := by
  induction calls with
  | nil => exact Nat.add_comm _ _
  | cons first calls ih => rw [List.cons_append, total, total, ih, Nat.add_assoc]

theorem length_held_le (capacity : Nat) (calls : List Call) :
    (held capacity calls).length ≤ max 1 capacity :=
  List.length_take_le _ _

theorem nodup_held (capacity : Nat) (calls : List Call) : (held capacity calls).Nodup :=
  (nodup_latestFirst _).sublist (List.take_sublist _ _)

@[simp] theorem held_nil (capacity : Nat) : held capacity [] = [] :=
  List.take_nil

@[simp] theorem held_concat_clear (capacity : Nat) (calls : List Call) :
    held capacity (calls ++ [.clear]) = [] := by
  rw [held, sinceClear, List.rtakeWhile_concat_neg _ _ _ (by simp)]
  exact List.take_nil

/-- A call that counts a key puts it in front, and what is too much goes. -/
theorem held_concat_count (capacity : Nat) (calls : List Call) (key : Bytes) (n : UInt64) :
    held capacity (calls ++ [.count key n])
      = (key :: (held capacity calls).erase key).take (max 1 capacity) := by
  obtain ⟨room, hroom⟩ : ∃ room, max 1 capacity = room + 1 := ⟨max 1 capacity - 1, by omega⟩
  rw [held, held, sinceClear, List.rtakeWhile_concat_pos _ _ _ (by simp), List.filterMap_append,
    hroom]
  change (latestFirst (_ ++ [key])).take (room + 1) = _
  rw [latestFirst_concat, List.take_succ_cons, List.take_succ_cons, take_erase_take]
  rfl

theorem overflows_concat (capacity : Nat) (calls : List Call) (call : Call) :
    overflows capacity (calls ++ [call])
      = overflows capacity calls + if call.overflows capacity calls then 1 else 0 := by
  have hbefore : ∀ i ∈ List.range calls.length,
      (calls ++ [call])[i]?.any (Call.overflows capacity ((calls ++ [call]).take i))
        = calls[i]?.any (Call.overflows capacity (calls.take i)) := by
    intro i hi
    rw [List.mem_range] at hi
    rw [List.getElem?_append_left hi, List.take_append_of_le_length (Nat.le_of_lt hi)]
  rw [overflows, List.length_append, List.length_singleton, List.range_succ, List.countP_append,
    List.countP_congr fun i hi => by rw [hbefore i hi], List.countP_singleton,
    List.getElem?_concat_length, List.take_left]
  rfl

/-! ## A count -/

theorem evictions_count (t : Tally) (key : Bytes) (n : UInt64) :
    (t.count key n).evictions
      = t.evictions + if key ∉ keys t.counts ∧ t.capacity ≤ t.size then 1 else 0 := by
  rw [count]
  cases hl : t.counts.lookup key with
  | some m =>
      have hmem := (mem_keys_iff_lookup t.counts key).mpr ⟨m, hl⟩
      simp [hmem]
  | none =>
      have hnew : key ∉ keys t.counts := Lookup.lookup_eq_none_iff_notMem.mp hl
      by_cases hfull : t.capacity ≤ t.size
      · simp [hnew, hfull]
      · simp [hfull]

/-! ## All calls -/

theorem sound_run (capacity : Nat) (calls : List Call) :
    (run capacity calls).Sound (max 1 capacity) := by
  induction calls using List.reverseRecOn with
  | nil => exact sound_empty capacity
  | append_singleton calls call ih =>
      obtain ⟨hcapacity, hnodup, hsize⟩ := ih
      rw [run_concat]
      cases call with
      | count key n =>
          refine ⟨(capacity_count _ key n).trans hcapacity, nodup_count hnodup key n, ?_⟩
          rw [← hcapacity] at hsize ⊢
          exact size_count_le (by omega) hsize key n
      | clear => exact ⟨hcapacity, List.nodup_nil, Nat.zero_le _⟩

/-- A tally holds the keys that its calls tell. -/
theorem keys_run (capacity : Nat) (calls : List Call) :
    keys (run capacity calls).counts = held capacity calls := by
  induction calls using List.reverseRecOn with
  | nil => exact (held_nil capacity).symm
  | append_singleton calls call ih =>
      rw [run_concat]
      cases call with
      | count key n =>
          have hsound := sound_run capacity calls
          have hcapacity := hsound.capacity_eq
          rw [held_concat_count, ← ih, ← hcapacity]
          exact keys_count (by omega) (hcapacity ▸ hsound.size_le) key n
      | clear =>
          rw [held_concat_clear]
          rfl

theorem get_run_of_notMem {calls : List Call} (h : key ∉ held capacity calls) :
    (run capacity calls).get key = 0 := by
  rw [← keys_run] at h
  exact get_eq_zero h

/-- The count of a key is what was counted since it came in. -/
theorem get_run_of_mem {calls : List Call} (h : key ∈ held capacity calls) :
    ∃ before n after, calls = before ++ .count key n :: after ∧ key ∉ held capacity before ∧
      (∀ more, more <+: after → key ∈ held capacity (before ++ .count key n :: more)) ∧
      (run capacity calls).get key = UInt64.ofNat (total key (.count key n :: after)) := by
  induction calls using List.reverseRecOn with
  | nil =>
      rw [held_nil] at h
      cases h
  | append_singleton calls call ih =>
      rw [run_concat]
      cases call with
      | clear =>
          rw [held_concat_clear] at h
          cases h
      | count k m =>
          by_cases hbefore : key ∈ held capacity calls
          · obtain ⟨before, n, after, hcalls, hnew, hsince, hget⟩ := ih hbefore
            have hwhole : calls ++ [.count k m]
                = before ++ .count key n :: (after ++ [.count k m]) := by
              rw [hcalls, List.append_assoc, List.cons_append]
            refine ⟨before, n, after ++ [.count k m], hwhole, hnew, ?_, ?_⟩
            · intro more hmore
              rcases List.prefix_concat_iff.mp hmore with rfl | hmore
              · rw [← hwhole]
                exact h
              · exact hsince more hmore
            · rw [← List.cons_append, total_concat, UInt64.ofNat_add, ← hget]
              by_cases hk : key = k
              · rw [Call.apply, Call.amount, if_pos hk.symm, UInt64.ofNat_toNat, hk,
                  get_count_self]
              · have hkept : key ∈ keys ((run capacity calls).count k m).counts := by
                  rw [← keys_run, run_concat] at h
                  exact h
                rw [Call.apply, Call.amount, if_neg (Ne.symm hk), get_count_of_mem hk hkept]
                exact (UInt64.add_zero _).symm
          · have hk : key = k := by
              rw [held_concat_count] at h
              exact (List.mem_cons.mp (List.mem_of_mem_take h)).resolve_right
                fun hmem => hbefore (List.mem_of_mem_erase hmem)
            subst hk
            refine ⟨calls, m, [], rfl, hbefore, ?_, ?_⟩
            · intro more hmore
              rw [List.prefix_nil.mp hmore]
              exact h
            · rw [Call.apply, get_count_self, get_run_of_notMem hbefore, total, total, Call.amount,
                if_pos rfl, Nat.add_zero, UInt64.ofNat_toNat, UInt64.zero_add]

/-- A key goes whenever a new one comes and there is no room for it. -/
theorem evictions_run (capacity : Nat) (calls : List Call) :
    (run capacity calls).evictions = overflows capacity calls := by
  induction calls using List.reverseRecOn with
  | nil => rfl
  | append_singleton calls call ih =>
      rw [run_concat, overflows_concat, ← ih]
      cases call with
      | clear => rfl
      | count key n =>
          have hlength : (held capacity calls).length = (run capacity calls).size := by
            rw [← keys_run, length_keys]
          have hle := length_held_le capacity calls
          have hfull : (Call.count key n).overflows capacity calls = true
              ↔ key ∉ keys (run capacity calls).counts
                ∧ (run capacity calls).capacity ≤ (run capacity calls).size := by
            rw [Call.overflows, Bool.and_eq_true, Bool.not_eq_true', ← Bool.not_eq_true,
              List.contains_iff_mem, beq_iff_eq, keys_run, (sound_run capacity calls).capacity_eq,
              ← hlength]
            exact and_congr_right fun _ => ⟨fun h => h.ge, fun h => Nat.le_antisymm hle h⟩
          rw [Call.apply, evictions_count]
          simp only [hfull]

/-- Counting each key of a list leaves those that occur latest. -/
theorem keys_countAll_empty (capacity : Nat) (list : List Bytes) :
    keys ((empty capacity).countAll list).counts = (latestFirst list).take (max 1 capacity) := by
  have hrun : (empty capacity).countAll list = run capacity (list.map fun key => .count key 1) := by
    rw [run, List.foldl_map]
    rfl
  have hsince : sinceClear (list.map fun key => .count key 1)
      = list.map fun key => Call.count key 1 := by
    rw [sinceClear, List.rtakeWhile_eq_self_iff]
    intro call hcall
    obtain ⟨key, -, rfl⟩ := List.mem_map.mp hcall
    rfl
  rw [hrun, keys_run, held, hsince, List.filterMap_map]
  exact congrArg (fun keys => (latestFirst keys).take _) List.filterMap_some

end Tally

namespace LinkedTally

open Tally (Call held overflows total)

/-- A list with its table after a call. -/
def call? (l : LinkedTally) : Call → Option LinkedTally
  | .count key n => l.count? key n
  | .clear => some l.clear

/-- The list with its table after these calls. -/
def run? (capacity : Nat) (calls : List Call) : Option LinkedTally :=
  calls.foldlM call? (empty capacity)

theorem mirrors_run (capacity : Nat) (calls : List Call) :
    ∃ l, run? capacity calls = some l ∧ Mirrors l (Tally.run capacity calls) := by
  induction calls using List.reverseRecOn with
  | nil => exact ⟨_, rfl, Mirrors.empty capacity⟩
  | append_singleton calls call ih =>
      obtain ⟨l, hrun, h⟩ := ih
      rw [run?] at hrun
      rw [run?, List.foldlM_append, hrun, Option.bind_eq_bind, Option.bind_some,
        Tally.run_concat]
      cases call with
      | count key n =>
          have hcapacity := (Tally.sound_run capacity calls).capacity_eq
          obtain ⟨l', hcount, h'⟩ := h.count (by omega) key n
          exact ⟨l', by rw [List.foldlM_cons, call?, hcount]; rfl, h'⟩
      | clear => exact ⟨l.clear, rfl, h.clear⟩

/-- Whatever is asked of it, a list with its table never looks for a node that is not there, and it
is the tally. List and table hold the same keys, each once: those counted latest since the last
clearing, as many as may be held. A key held has the count of the calls since it last came in, any
other key has none. A key went as often as a new one came and there was no room. -/
theorem holds_latest_counted (capacity : Nat) (calls : List Call) :
    ∃ l, run? capacity calls = some l ∧ Mirrors l (Tally.run capacity calls) ∧
      l.nodes.map Prod.snd = held capacity calls ∧
      (l.slots.map Prod.fst).Perm (held capacity calls) ∧
      (held capacity calls).Nodup ∧ (held capacity calls).length ≤ max 1 capacity ∧
      (∀ key, l.get key = (Tally.run capacity calls).get key) ∧
      (∀ key, key ∉ held capacity calls → (Tally.run capacity calls).get key = 0) ∧
      (∀ key, key ∈ held capacity calls →
        ∃ before n after, calls = before ++ .count key n :: after ∧ key ∉ held capacity before ∧
          (∀ more, more <+: after → key ∈ held capacity (before ++ .count key n :: more)) ∧
          (Tally.run capacity calls).get key
            = UInt64.ofNat (total key (.count key n :: after))) ∧
      (Tally.run capacity calls).evictions = overflows capacity calls := by
  obtain ⟨l, hrun, h⟩ := mirrors_run capacity calls
  have hnodes : l.nodes.map Prod.snd = held capacity calls :=
    h.keys_eq.trans (Tally.keys_run capacity calls)
  have hslots : (l.slots.map Prod.fst).Perm (held capacity calls) := by
    rw [← hnodes]
    exact h.keys_perm
  exact ⟨l, hrun, h, hnodes, hslots, Tally.nodup_held capacity calls,
    Tally.length_held_le capacity calls, h.get_eq, fun _ => Tally.get_run_of_notMem,
    fun _ => Tally.get_run_of_mem, Tally.evictions_run capacity calls⟩

/-- The second key goes when the third comes, since the first was counted again. -/
example :
    (run? 2 [.count [1] 4, .count [2] 1, .count [1] 3, .count [3] 5]).map
        (fun l => (l.nodes.map Prod.snd, l.get [1], l.get [2], l.evictions))
      = some ([[3], [1]], 7, 0, 1) := by
  decide

end LinkedTally

end ResolverLog
