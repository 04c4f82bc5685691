/-!
# Bounded queues

A queue between the reader of the feed and the workers. Pushing waits while the
queue is full and popping while it is empty; closing ends both kinds of waiting.
What is left in a closed queue can still be popped. A call that would have to
wait is answered by `none`.
-/

namespace ResolverLog

/-- A first-in first-out queue of limited size. -/
structure Queue (α : Type) where
  /-- The most items held, at least one. -/
  capacity : Nat
  /-- The items, the next one to be popped first. -/
  items : List α
  closed : Bool
  deriving DecidableEq, Repr

namespace Queue

variable {α : Type}

/-- A queue without items; a capacity of zero counts as one. -/
def empty (capacity : Nat) : Queue α :=
  ⟨max 1 capacity, [], false⟩

/-- Appends an item; a closed queue refuses it. -/
def push? (q : Queue α) (item : α) : Option (Queue α × Bool) :=
  if q.closed then some (q, false)
  else if q.items.length < q.capacity then some ({ q with items := q.items ++ [item] }, true)
  else none

/-- Takes the next item; a closed queue without items gives none. -/
def pop? (q : Queue α) : Option (Queue α × Option α) :=
  match q.items with
  | item :: rest => some ({ q with items := rest }, some item)
  | [] => if q.closed then some (q, none) else none

/-- Ends pushing. -/
def close (q : Queue α) : Queue α :=
  { q with closed := true }

end Queue

end ResolverLog
