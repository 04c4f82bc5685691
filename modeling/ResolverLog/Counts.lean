import ResolverLog.Bytes

/-!
# Counts by key

A table of counts, one 64-bit counter a key, and the ranking of its keys. Two
tables are merged by adding up, and the ranking puts greater counts first and,
among equal counts, smaller keys.
-/

namespace ResolverLog

/-- Keys with their counts; no key stands twice. -/
abbrev Counts := List (Bytes × UInt64)

namespace Counts

/-- The count of a key, zero for a key that does not occur. -/
def get (counts : Counts) (key : Bytes) : UInt64 :=
  (counts.lookup key).getD 0

/-- Adds to the count of one key. -/
def add (counts : Counts) (key : Bytes) (n : UInt64) : Counts :=
  match counts with
  | [] => [(key, n)]
  | (k, m) :: rest => if k == key then (k, m + n) :: rest else (k, m) :: add rest key n

/-- The counts of two tables added up. -/
def merge (counts more : Counts) : Counts :=
  more.foldl (fun sum pair => sum.add pair.1 pair.2) counts

/-- The pairs in the order of their keys. -/
def byKey (counts : Counts) : Counts :=
  counts.mergeSort fun p q => decide (p.1 ≤ q.1)

/-- A greater count ranks before a smaller one, and a smaller key before a greater one with
the same count. -/
def ranksBefore (p q : Bytes × UInt64) : Bool :=
  if p.2 == q.2 then decide (p.1 ≤ q.1) else decide (q.2 < p.2)

/-- The most keys that a ranking lists. -/
def maxRanked : Nat := 10000

/-- How many keys a request for `k` of them asks for: ten when it says zero. -/
def rankedSize (k : Nat) : Nat :=
  if k = 0 then 10 else min k maxRanked

/-- The highest-ranked `k` keys in the order of rank. -/
def top (counts : Counts) (k : Nat) : Counts :=
  (counts.mergeSort ranksBefore).take (rankedSize k)

end Counts

end ResolverLog
