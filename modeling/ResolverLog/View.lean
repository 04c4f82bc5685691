import ResolverLog.Base64
import ResolverLog.HourlyStats
import ResolverLog.Json
import ResolverLog.Timestamp

/-!
# JSON views

How entries and statistics look to the control plane: an entry is an object of
strings, a ranking is an object whose members stand in the order of rank.
-/

namespace ResolverLog

namespace View

open Bytes

/-- A duration in milliseconds with six significant digits. -/
def milliseconds (elapsed : Int64) : Bytes :=
  let size := ((Binary64.ofNat elapsed.toInt.natAbs).div (.ofNat 1000000)).general
  if elapsed.toInt < 0 then 0x2D :: size else size

/-- The name of a class. -/
def className (qclass : UInt16) : Bytes :=
  if qclass == 1 then ascii "IN" else Decimal.ofNat qclass.toNat

/-- A member whose value is a string with any bytes in it. -/
def text (key : Bytes) (value : Bytes) : Bytes :=
  Json.member key (Json.string value)

/-- A member whose value is a string that is written as it is, without escapes. -/
def verbatim (key : Bytes) (value : Bytes) : Bytes :=
  Json.member key (quoted value)

/-- A question. -/
def question (q : Question) : Bytes :=
  Json.object [text (ascii "host") q.name, verbatim (ascii "type") q.kind.name,
    verbatim (ascii "class") (className q.qclass)]

/-- The members of an entry. The question is left out when it does not parse, the answer
when there is none, and the rule when neither a rule nor a block is on record. -/
def members (e : Entry) : List Bytes :=
  [verbatim (ascii "time") (Timestamp.text e.time)]
    ++ (match Question.ofMessage? e.question with
      | some q => [Json.member (ascii "question") (question q)]
      | none => [])
    ++ (if e.answer.isEmpty then [] else [verbatim (ascii "answer") (Base64.encode e.answer)])
    ++ [text (ascii "client") e.client, text (ascii "upstream") e.resolver,
      verbatim (ascii "elapsedMs") (milliseconds e.elapsed),
      verbatim (ascii "reason") e.verdict.reason.name]
    ++ (if e.verdict.filtered || !e.verdict.rule.isEmpty then
        [text (ascii "rule") e.verdict.rule,
          Json.member (ascii "filterId") (Decimal.ofInt e.verdict.listId.toInt)]
      else [])

/-- An entry. -/
def entry (e : Entry) : Bytes :=
  Json.object (members e)

/-- The log view, oldest entry first. -/
def log (entries : List Entry) : Bytes :=
  Json.array (entries.map entry)

/-- The highest-ranked `limit` keys of a table. -/
def ranking (counts : Counts) (limit : Nat) : Bytes :=
  Json.object ((counts.top limit).map fun pair =>
    Json.member pair.1 (Decimal.ofNat pair.2.toNat))

/-- The number of keys that a ranking shows unless asked otherwise. -/
def rankingLimit : Nat := 100

/-- The statistics of a window. -/
def top (t : Top) (limit : Nat) : Bytes :=
  Json.object [Json.member (ascii "top_queried_domains") (ranking t.domains limit),
    Json.member (ascii "top_blocked_domains") (ranking t.blocked limit),
    Json.member (ascii "top_clients") (ranking t.clients limit)]

end View

end ResolverLog
