import ResolverLog.Entry

/-!
# The most recent entries

The log view keeps the last entries in the order in which they arrived, up to
a capacity. An entry beyond the capacity displaces the oldest.
-/

namespace ResolverLog

/-- The last entries, oldest first. -/
structure Recent where
  /-- The most entries kept, at least one. -/
  capacity : Nat
  entries : List Entry
  deriving DecidableEq, Repr

namespace Recent

/-- A view without entries; a capacity of zero counts as one. -/
def empty (capacity : Nat) : Recent :=
  ⟨max 1 capacity, []⟩

/-- The last `n` elements of a list. -/
def lastN {α : Type} (n : Nat) (xs : List α) : List α :=
  xs.drop (xs.length - n)

/-- Appends one entry. -/
def push (r : Recent) (e : Entry) : Recent :=
  { r with entries := lastN r.capacity (r.entries ++ [e]) }

/-- Appends entries, of which only the last `capacity` can matter. -/
def load (r : Recent) (entries : List Entry) : Recent :=
  { r with entries := lastN r.capacity (r.entries ++ lastN r.capacity entries) }

/-- Drops every entry. -/
def clear (r : Recent) : Recent :=
  { r with entries := [] }

end Recent

end ResolverLog
