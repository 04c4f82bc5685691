import ResolverLog.Bytes

/-!
# Notes for the operator

The diagnostic lines of the log, each with a level. A threshold decides which
of them are shown: those at its level and above.
-/

namespace ResolverLog

/-- The levels of notes, in rising order. -/
inductive Level
  | debug
  | info
  | error
  deriving DecidableEq, Repr

namespace Level

/-- The place of a level in the order. -/
def rank : Level → Nat
  | debug => 0
  | info => 1
  | error => 2

/-- The level that a word names. -/
def named? (word : Bytes) : Option Level :=
  if word == ascii "debug" then some debug
  else if word == ascii "info" then some info
  else if word == ascii "error" then some error
  else none

/-- The mark in front of a line of this level. -/
def tag : Level → Bytes
  | debug => ascii "[debug] "
  | info => ascii "[info] "
  | error => ascii "[error] "

end Level

/-- One diagnostic message. -/
structure Note where
  level : Level
  text : Bytes
  deriving DecidableEq, Repr

namespace Note

/-- A note at the threshold or above is shown. -/
def isShown (threshold : Level) (note : Note) : Bool :=
  threshold.rank ≤ note.level.rank

/-- The line of a note. -/
def line (note : Note) : Bytes :=
  note.level.tag ++ note.text ++ [0x0A]

end Note

end ResolverLog
