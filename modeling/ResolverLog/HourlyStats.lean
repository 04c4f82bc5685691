import ResolverLog.Binary64
import ResolverLog.Entry
import ResolverLog.Tally

/-!
# Statistics by the hour

The last hours of traffic, newest first, each with three tallies: the names
asked for, the names blocked, and the clients. Beside them run totals over
everything counted since the start.

An entry is counted into the hour of its age. Entries from the future, entries
older than the retained hours and entries whose question has no name are
ignored, and their number is kept as well.
-/

namespace ResolverLog

/-- The tallies of one hour. -/
structure HourTallies where
  domains : Tally
  blocked : Tally
  clients : Tally
  deriving DecidableEq, Repr

namespace HourTallies

/-- An hour in which nothing was counted. -/
def empty (topSize : Nat) : HourTallies :=
  ⟨.empty topSize, .empty topSize, .empty topSize⟩

/-- Counts an entry that asks for `name`. -/
def record (h : HourTallies) (name : Bytes) (e : Entry) : HourTallies :=
  { domains := h.domains.count name 1
    blocked := if e.verdict.filtered then h.blocked.count name 1 else h.blocked
    clients := if e.client.isEmpty then h.clients else h.clients.count e.client 1 }

end HourTallies

/-- The counts of a window of hours. -/
structure Top where
  domains : Counts
  blocked : Counts
  clients : Counts
  deriving DecidableEq, Repr

/-- The counts of an hour added to those of a window. -/
def Top.addHour (top : Top) (h : HourTallies) : Top :=
  ⟨top.domains.merge h.domains.counts, top.blocked.merge h.blocked.counts,
    top.clients.merge h.clients.counts⟩

/-- Running totals since the start or the last clearing. -/
structure Totals where
  queries : UInt64
  blocked : UInt64
  ignored : UInt64
  /-- Nanoseconds spent on the queries that took more than none. -/
  elapsed : UInt64
  deriving DecidableEq, Repr

namespace Totals

/-- Nothing counted. -/
def zero : Totals := ⟨0, 0, 0, 0⟩

/-- One more entry counted. -/
def record (t : Totals) (e : Entry) : Totals :=
  { t with
    queries := t.queries + 1
    blocked := if e.verdict.filtered then t.blocked + 1 else t.blocked
    elapsed := if 0 < e.elapsed.toInt then t.elapsed + e.elapsed.toUInt64 else t.elapsed }

/-- One more entry ignored. -/
def ignore (t : Totals) : Totals :=
  { t with ignored := t.ignored + 1 }

/-- The average milliseconds of a query. -/
def averageMs (t : Totals) : Binary64 :=
  if t.queries = 0 then .zero
  else ((Binary64.ofNat t.elapsed.toNat).div (.ofNat t.queries.toNat)).div (.ofNat 1000000)

end Totals

/-- The retained hours and the running totals. -/
structure HourlyStats where
  /-- How many hours are retained. -/
  limit : Nat
  /-- The most keys of a tally. -/
  topSize : Nat
  /-- The tallies of the hours, newest first. -/
  hours : List HourTallies
  totals : Totals
  deriving DecidableEq, Repr

namespace HourlyStats

/-- The most hours that can be retained: a year. -/
def maxHours : Nat := 8760

/-- The number of keys of a tally when none is given. -/
def defaultTopSize : Nat := 500

/-- Statistics without traffic. Zero hours stand for a day, zero keys for the default. -/
def empty (hours topSize : Nat) : HourlyStats :=
  let limit := if hours = 0 then 24 else min hours maxHours
  let topSize := if topSize = 0 then defaultTopSize else topSize
  ⟨limit, topSize, List.replicate limit (.empty topSize), .zero⟩

/-- The place of an age among the retained hours, newest first, for an age that is not
negative. -/
def hourOf (age : Int) : Nat :=
  (age / nanosPerHour).toNat

/-- Counts an entry as of the time `now`, or ignores it; tells which. -/
def record (s : HourlyStats) (e : Entry) (now : Int64) : HourlyStats × Bool :=
  let ignored := ({ s with totals := s.totals.ignore }, false)
  if e.age now < 0 then ignored
  else match e.name? with
    | none => ignored
    | some name =>
      let hour := hourOf (e.age now)
      if hour < s.hours.length then
        ({ s with
            hours := s.hours.modify hour fun h => h.record name e
            totals := s.totals.record e }, true)
      else ignored

/-- The note on an entry that is ignored for its time. -/
def ignoredNote? (s : HourlyStats) (e : Entry) (now : Int64) : Option Bytes :=
  if e.age now < 0 then some (ascii "top: entry is in the future, ignoring")
  else if e.name?.isNone || hourOf (e.age now) < s.hours.length then none
  else some (ascii "top: entry is " ++ Decimal.ofNat (hourOf (e.age now))
    ++ ascii "h old, ignoring")

/-- A new hour begins and the oldest one is dropped. -/
def rotate (s : HourlyStats) : HourlyStats :=
  { s with hours := (.empty s.topSize :: s.hours).take s.limit }

/-- A number of retained hours that `resize` refuses. -/
structure RetentionError where
  hours : Nat
  deriving DecidableEq, Repr

/-- The explanation of a refused retention. -/
def RetentionError.message (e : RetentionError) : Bytes :=
  ascii "invalid: stats retention must be between 1 and " ++ Decimal.ofNat maxHours
    ++ ascii " hours, got " ++ Decimal.ofNat e.hours

/-- Between one hour and a year can be retained. -/
def checkHours (hours : Nat) : Except RetentionError Unit :=
  if hours = 0 || maxHours < hours then .error ⟨hours⟩ else .ok ()

/-- Retains `hours` hours: the oldest are dropped, or empty ones are appended. -/
def resize (s : HourlyStats) (hours : Nat) : Except RetentionError HourlyStats := do
  checkHours hours
  let added := List.replicate (hours - s.hours.length) (HourTallies.empty s.topSize)
  return { s with limit := hours, hours := (s.hours ++ added).take hours }

/-- The counts of the newest `hours` hours. -/
def top (s : HourlyStats) (hours : Nat) : Top :=
  (s.hours.take hours).foldl .addHour ⟨[], [], []⟩

/-- Drops all counts and totals. -/
def clear (s : HourlyStats) : HourlyStats :=
  { s with hours := s.hours.map fun _ => HourTallies.empty s.topSize, totals := .zero }

end HourlyStats

end ResolverLog
