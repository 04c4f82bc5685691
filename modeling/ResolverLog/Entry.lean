import ResolverLog.Question

/-!
# Log entries

One entry is one completed DNS transaction: when it happened, the messages
exchanged, who asked, which resolver answered, the verdict of the filter and
how long it took. Times are signed 64-bit nanoseconds, and so are the differences
of two of them and the spans of hours they are compared with: one that does not
fit into 64 bits wraps around.
-/

namespace ResolverLog

/-- Why a query was, or was not, filtered. -/
structure Reason where
  code : Int32
  deriving DecidableEq, Repr

namespace Reason

/-- No list matched. -/
def notFiltered : Reason := ⟨0⟩

/-- A block list matched. -/
def blockList : Reason := ⟨1⟩

/-- The greatest known code. -/
def last : Int := 6

/-- A known reason has a code from zero to six. -/
def isKnown (reason : Reason) : Bool :=
  0 ≤ reason.code.toInt && reason.code.toInt ≤ last

/-- The name of a reason. -/
def name (reason : Reason) : Bytes :=
  match reason.code.toInt with
  | 0 => ascii "NotFilteredNotFound"
  | 1 => ascii "FilteredBlackList"
  | 2 => ascii "FilteredSafeBrowsing"
  | 3 => ascii "FilteredParental"
  | 4 => ascii "FilteredInvalid"
  | 5 => ascii "FilteredSafeSearch"
  | 6 => ascii "NotFilteredWhiteList"
  | _ => ascii "Unknown"

end Reason

/-- What the filter decided about a query. -/
structure Verdict where
  filtered : Bool
  reason : Reason
  /-- The text of the rule that matched; empty when none did. -/
  rule : Bytes
  /-- The list that the rule stands in. -/
  listId : Int64
  deriving DecidableEq, Repr

/-- The verdict on a query that no rule matched. -/
def Verdict.pass : Verdict := ⟨false, .notFiltered, [], 0⟩

/-- One completed DNS transaction. -/
structure Entry where
  /-- Nanoseconds since 1970-01-01 UTC. -/
  time : Int64
  /-- The query as a DNS message. -/
  question : Bytes
  /-- The response as a DNS message; may be empty. -/
  answer : Bytes
  client : Bytes
  /-- The resolver that answered; may be empty. -/
  resolver : Bytes
  verdict : Verdict
  /-- Nanoseconds that answering took. -/
  elapsed : Int64
  deriving DecidableEq, Repr

namespace Entry

/-- The name that the entry's question asks for. -/
def name? (e : Entry) : Option Bytes :=
  (Question.ofMessage? e.question).map (·.name)

/-- How many nanoseconds before `now` the entry happened, as a difference of 64 bits; negative
for a later one. -/
def age (e : Entry) (now : Int64) : Int :=
  (now - e.time).toInt

end Entry

/-- The nanoseconds of an hour. -/
def nanosPerHour : Int := 3600000000000

/-- The nanoseconds of so many hours, computed in 64 bits. -/
def nanosOfHours (hours : Nat) : Int :=
  (Int64.ofInt (nanosPerHour * hours)).toInt

end ResolverLog
