import ResolverLog.Counts

/-!
# Bounded tallies

A tally counts keys but holds only so many of them: when a new key arrives and
the tally is full, the key that was counted least recently is forgotten together
with its count. The keys stand in the order of their last count, latest first.
-/

namespace ResolverLog

/-- Counts of the most recently counted keys. -/
structure Tally where
  /-- The most keys held, at least one. -/
  capacity : Nat
  /-- The keys with their counts, the latest counted first. -/
  counts : Counts
  /-- How many keys have been forgotten. -/
  evictions : Nat
  deriving DecidableEq, Repr

namespace Tally

/-- A tally without keys; a capacity of zero counts as one. -/
def empty (capacity : Nat) : Tally :=
  ⟨max 1 capacity, [], 0⟩

/-- The count of a key, zero for a key not held. -/
def get (t : Tally) (key : Bytes) : UInt64 :=
  t.counts.get key

/-- The number of keys held. -/
def size (t : Tally) : Nat :=
  t.counts.length

/-- Adds `n` to the count of a key and makes it the latest. -/
def count (t : Tally) (key : Bytes) (n : UInt64) : Tally :=
  match t.counts.lookup key with
  | some m =>
    { t with counts := (key, m + n) :: t.counts.eraseP fun pair => pair.1 == key }
  | none =>
    if t.capacity ≤ t.size then
      { t with counts := (key, n) :: t.counts.dropLast, evictions := t.evictions + 1 }
    else { t with counts := (key, n) :: t.counts }

/-- Forgets every key; the number of evictions stays. -/
def clear (t : Tally) : Tally :=
  { t with counts := [] }

end Tally

end ResolverLog
