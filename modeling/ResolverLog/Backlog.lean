import ResolverLog.Archive
import ResolverLog.HourlyStats
import ResolverLog.Recent

/-!
# The backlog: what a start takes over from the archive

A start replays the archive into the statistics and collects the entries of the
interval, from which the log view gets the latest. The archive is read newest
file first, so the collected entries are sorted by time, and whenever four times
as many have gathered as the view can hold all but the latest are dropped.

For diagnosis there is a note for every line and entry that is passed over and
one for every file.

## Implementation notes

Reading takes no time here, so the notes report zero milliseconds.
-/

namespace ResolverLog

open Bytes

/-- The statistics gathered from the archive and the candidates for the log view, in the order
of reading. -/
structure Backlog where
  stats : HourlyStats
  recent : Array Entry

namespace Backlog

/-- The entries in the order of time; entries of the same time keep their order. -/
def byTime (entries : List Entry) : List Entry :=
  entries.mergeSort fun a b => decide (a.time.toInt ≤ b.time.toInt)

/-- So many candidates have gathered that only the latest need to be kept. The bound is
computed in 64 bits. -/
def isFull (keep : UInt64) (count : Nat) : Bool :=
  (keep * 4).toNat ≤ count

/-- The latest candidates in the order of time: a quarter of the bound, which is `keep` as long as
four times `keep` fits into 64 bits. -/
def cut (keep : UInt64) (recent : Array Entry) : Array Entry :=
  (Recent.lastN ((keep * 4).toNat / 4) (byTime recent.toList)).toArray

/-- Appends a candidate, and cuts the candidates down to the latest when there are too many. -/
def push (keep : UInt64) (recent : Array Entry) (e : Entry) : Array Entry :=
  let recent := recent.push e
  if isFull keep recent.size then cut keep recent else recent

/-- Takes a replayed entry in: into the statistics if it is not from the future and asks for a
name, and into the log view if it also lies in the interval. -/
def add (keep : UInt64) (interval : Int) (now : Int64) (b : Backlog) (e : Entry) : Backlog :=
  if now.toInt < e.time.toInt || e.name?.isNone then b
  else
    { stats := (b.stats.record e now).1
      recent := if interval < e.age now then b.recent else push keep b.recent e }

/-! ## Notes -/

/-- The note on an entry that is passed over. -/
def entryNote? (stats : HourlyStats) (now : Int64) (e : Entry) : Option Bytes :=
  if e.question.isEmpty then some (ascii "querylog: entry question is absent, skipping")
  else if now.toInt < e.time.toInt then
    some (ascii "querylog: entry is in the future, ignoring")
  else if e.name?.isNone then some (ascii "querylog: malformed dns message question, skipping")
  else stats.ignoredNote? e now

/-- The note on a line that is passed over, or on its entry. -/
def lineNote? (stats : HourlyStats) (window : Int) (now : Int64) (line : Bytes) : Option Bytes :=
  if line.isEmpty then none
  else match Record.decode line with
    | .error e => some (ascii "querylog: " ++ e.message)
    | .ok e => if window < e.age now then none else entryNote? stats now e

/-- A line that is no record. -/
def isUndecodable (line : Bytes) : Bool :=
  match Record.decode line with
  | .ok _ => false
  | .error _ => !line.isEmpty

/-- The note on a file that has been read. -/
def fileNote (path : Bytes) (window : Int) (now : Int64) (lines : List Bytes) : Bytes :=
  ascii "querylog: file " ++ quoted path ++ ascii ": read "
    ++ Decimal.ofNat (lines.filterMap (Archive.deliverable? window now)).length
    ++ ascii " entries in 0ms, " ++ Decimal.ofNat (lines.filter isUndecodable).length
    ++ ascii " undecodable"

/-- The notes on the files of an archive, in the order of reading. -/
def notes (archive : Archive) (files : Files) (stats : HourlyStats) (window : Int)
    (now : Int64) : List Bytes :=
  [archive.path, archive.backupPath].flatMap fun path =>
    match files.read? path with
    | none => []
    | some text =>
      (lines text).filterMap (lineNote? stats window now)
        ++ [fileNote path window now (lines text)]

end Backlog

end ResolverLog
