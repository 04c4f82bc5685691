import ResolverLog.Backlog
import ResolverLog.Journal
import ResolverLog.Settings
import ResolverLog.Task

/-!
# The recorder

The recorder takes in completed queries. It shows each at once in the log view
and the statistics and keeps it pending until a batch is written to the archive.
It is started once, by replaying the archive, and stopped once, by writing what
is pending.

A `Service` is a recorder together with the files it works on and the journal of
its notes. Every operation is a function on services. An operation that can fail
returns the service beside the error, so that what the failure leaves behind can
be read off.

## Implementation notes

Of the background tasks only the writer is part of the state, because taking in
an entry can wake it; `settle` is its run. The hourly and the rotating task run
`rotateHour` and `rotateLog` on clocks of their own, so they are the caller's.
-/

namespace ResolverLog

/-- The life of a recorder. -/
inductive Phase
  | uninitialized
  | running
  | stopped
  deriving DecidableEq, Repr

/-- How taking in an entry ends. -/
inductive IngestResult
  | accepted
  | disabled
  | notRunning
  | missingQuestion
  | badQuestion
  deriving DecidableEq, Repr

/-- The words for a result. -/
def IngestResult.name : IngestResult → Bytes
  | accepted => ascii "accepted"
  | disabled => ascii "disabled"
  | notRunning => ascii "not running"
  | missingQuestion => ascii "question is absent"
  | badQuestion => ascii "malformed question"

/-- Why an operation of the recorder fails. -/
inductive LogError
  | archive (cause : ArchiveError)
  | save (cause : SaveError)
  | unsupportedInterval (hours : UInt32)
  | retention (cause : HourlyStats.RetentionError)
  deriving DecidableEq, Repr

/-- The explanation of an error. -/
def LogError.message : LogError → Bytes
  | .archive cause => cause.message
  | .save cause => cause.message
  | .unsupportedInterval hours =>
    ascii "invalid: unsupported interval " ++ Decimal.ofNat hours.toNat ++ ascii "h"
  | .retention cause => cause.message

/-- A value that the operator must not set, rather than a failure to store. -/
def LogError.isValidation : LogError → Bool
  | .unsupportedInterval _ => true
  | .retention _ => true
  | _ => false

/-- The state of a recorder in memory. -/
structure Recorder where
  config : Config
  phase : Phase
  /-- The log view. -/
  recent : Recent
  stats : HourlyStats
  /-- Accepted entries not yet written, oldest first. -/
  pending : List Entry
  /-- The writer has been woken for the pending entries. -/
  wakeRequested : Bool
  /-- The writer, while the background tasks run. -/
  writer : Option Task
  deriving DecidableEq, Repr

namespace Recorder

/-- The archive of the recorder. -/
def archive (r : Recorder) : Archive :=
  ⟨r.config.logFile⟩

/-- How many pending entries make a batch. -/
def batchSize (r : Recorder) : Nat :=
  max 1 r.config.bufferSize.toNat

/-- A recorder that has not been started. -/
def new (config : Config) : Recorder :=
  { config
    phase := .uninitialized
    recent := .empty config.cacheSize.toNat
    stats := .empty config.statsHours.toNat config.topSize.toNat
    pending := []
    wakeRequested := false
    writer := none }

end Recorder

/-- A recorder with its files and the journal of its notes. -/
structure Service where
  recorder : Recorder
  files : Files
  journal : Journal
  deriving DecidableEq, Repr

namespace Service

open Bytes

/-- Enters a note into the journal. -/
def note (s : Service) (level : Level) (text : Bytes) : Service :=
  let (journal, files) := s.journal.enter s.files ⟨level, text⟩
  { s with journal, files }

/-- A service with a fresh recorder. -/
def launch (config : Config) (files : Files) (journal : Journal) : Service :=
  let s : Service := ⟨.new config, files, journal⟩
  (s.note .info (ascii "TopStatsAggregator ctor: limit_hours="
      ++ Decimal.ofNat s.recorder.stats.limit ++ ascii " top_size="
      ++ Decimal.ofNat s.recorder.stats.topSize)).note .info
    (ascii "QueryLog: file=" ++ config.logFile
      ++ ascii " enabled=" ++ Settings.boolText config.enabled
      ++ ascii " interval_hours=" ++ Decimal.ofNat config.intervalHours.toNat
      ++ ascii " stats_hours=" ++ Decimal.ofNat config.statsHours.toNat
      ++ ascii " cache_size=" ++ Decimal.ofNat s.recorder.recent.capacity
      ++ ascii " buffer_size=" ++ Decimal.ofNat s.recorder.batchSize)

/-- The age up to which a start replays entries: the interval or the retention, whichever is
longer. -/
def window (config : Config) : Int :=
  nanosOfHours (max config.intervalHours.toNat config.statsHours.toNat)

/-- Enters the notes on the reading of the archive, where they are shown at all. -/
def noteBacklog (s : Service) (now : Int64) : Service :=
  let r := s.recorder
  if s.journal.threshold = .debug then
    (Backlog.notes r.archive s.files r.stats (window r.config) now).foldl
      (fun s text => s.note .debug text) s
  else s

/-- Replays the archive into the log view and the statistics. -/
def restore (s : Service) (now : Int64) : Service :=
  let r := s.recorder
  let interval := nanosOfHours r.config.intervalHours.toNat
  let keep := r.recent.capacity.toUInt64
  let replayed := r.archive.replay s.files (window r.config) now
  let backlog := replayed.foldl (Backlog.add keep interval now) ⟨r.stats, #[]⟩
  let restored := { r with
    stats := backlog.stats
    recent := r.recent.load (Backlog.byTime backlog.recent.toList) }
  ({ s with recorder := restored }.noteBacklog now).note .info
    (ascii "querylog: replayed " ++ Decimal.ofNat replayed.length ++ ascii " entries from "
      ++ r.config.logFile)

/-- Starts a recorder that has not been started; any other is left alone. -/
def start (s : Service) (now : Int64) : Service :=
  match s.recorder.phase with
  | .uninitialized =>
    let s := s.restore now
    { s with recorder := { s.recorder with phase := .running } }.note .info
      (ascii "QueryLog: running, " ++ Decimal.ofNat s.recorder.recent.entries.length
        ++ ascii " entries in memory")
  | _ => s.note .info (ascii "QueryLog: start ignored, already started")

/-- Writes a batch to the archive. Nothing is written of a batch that fails. -/
def write (s : Service) (entries : List Entry) : Service × Except ArchiveError Unit :=
  let archive := s.recorder.archive
  match Archive.batch entries with
  | .error cause => (s, .error cause)
  | .ok text =>
    let count := Decimal.ofNat entries.length
    let s := (s.note .debug (ascii "querylog: check ok: " ++ count ++ ascii " entries")).note .debug
      (ascii "querylog: " ++ count ++ ascii " entries serialized in 0us: "
        ++ Decimal.ofNat (text.length / 1024) ++ ascii " kB")
    match archive.put s.files text with
    | .error cause => (s, .error cause)
    | .ok files =>
      ({ s with files }.note .debug (ascii "querylog: ok " ++ quoted archive.path ++ ascii ": "
        ++ Decimal.ofNat text.length ++ ascii " bytes written"), .ok ())

/-- Writes the pending entries: a batch that has become large enough, or whatever there is
when `full`. Entries that cannot be written stay pending. -/
def flush (s : Service) (full : Bool) : Service × Except LogError Unit :=
  let r := s.recorder
  if !full && r.pending.length < r.batchSize then (s, .ok ())
  else
    let s := { s with recorder := { r with wakeRequested := false } }
    if r.pending.isEmpty then (s, .ok ())
    else match s.write r.pending with
      | (s, .ok ()) => ({ s with recorder := { s.recorder with pending := [] } }, .ok ())
      | (s, .error cause) => (s, .error (.archive cause))

/-- Starts the background tasks unless they run. -/
def startBackground (s : Service) : Service :=
  match s.recorder.writer with
  | some _ => s
  | none =>
    let writer := (Task.idle s.recorder.config.flushIntervalMs.toInt).start
    { s with recorder := { s.recorder with writer := some writer } }

/-- One run of the writer. -/
def runWriter (s : Service) (writer : Task) : Service :=
  match s.flush true with
  | (s, .ok ()) => { s with recorder := { s.recorder with writer := some (writer.finish true) } }
  | (s, .error e) =>
    { s with recorder := { s.recorder with writer := some (writer.finish false) } }.note .error
      (ascii "task flush: " ++ e.message ++ ascii "; retrying on next tick")

/-- Lets the writer run if it has been woken. -/
def settle (s : Service) : Service :=
  match s.recorder.writer with
  | some writer => if writer.isDue then s.runWriter writer else s
  | none => s

/-- Waits until `n` entries are pending, for at most `patienceMs`: the writer runs unless its
interval is longer than that. -/
def awaitPending (s : Service) (patienceMs n : Nat) : Service :=
  match s.recorder.writer with
  | some writer =>
    if s.recorder.pending.length ≠ n && writer.intervalMs ≤ patienceMs then s.runWriter writer
    else s
  | none => s

/-- Ends the background tasks. -/
def stopBackground (s : Service) : Service :=
  match s.recorder.writer with
  | none => s
  | some _ =>
    let s := { s with recorder := { s.recorder with writer := none } }
    ((s.note .debug (ascii "task hourly-top stopped")).note .debug
      (ascii "task log-rotate stopped")).note .debug (ascii "task flush stopped")

/-- Ends the background tasks and, for a running recorder, writes what is pending and stops. -/
def stop (s : Service) : Service :=
  let s := s.stopBackground
  match s.recorder.phase with
  | .running =>
    let stopped := { s with recorder := { s.recorder with phase := .stopped } }
    let s := match stopped.flush true with
      | (s, .ok ()) => s
      | (s, .error e) =>
        s.note .error (ascii "querylog: final flush failed, "
          ++ Decimal.ofNat s.recorder.pending.length ++ ascii " entries not saved: " ++ e.message)
    s.note .info (ascii "QueryLog: stopped")
  | _ => s

/-- Why an entry is not taken in, if it is not. -/
def refusal? (r : Recorder) (e : Entry) : Option IngestResult :=
  if r.phase ≠ .running then some .notRunning
  else if !r.config.enabled then some .disabled
  else if e.question.isEmpty then some .missingQuestion
  else if e.name?.isNone then some .badQuestion
  else none

/-- Puts an accepted entry into the log view and the pending batch, and wakes the writer when
the batch has become large enough and it has not been woken yet. -/
def accept (r : Recorder) (e : Entry) : Recorder :=
  let r := { r with recent := r.recent.push e, pending := r.pending ++ [e] }
  if r.batchSize ≤ r.pending.length && !r.wakeRequested then
    { r with wakeRequested := true, writer := r.writer.map Task.trigger }
  else r

/-- The note on an entry that is not taken in for what it asks. -/
def refusalNote? (e : Entry) : IngestResult → Option Bytes
  | .missingQuestion => some (ascii "querylog: entry question is absent, skipping")
  | .badQuestion =>
    some (ascii "querylog: malformed dns message from " ++ e.client ++ ascii ", skipping")
  | _ => none

/-- Enters a debugging note, if there is one. -/
def debug (s : Service) (text : Option Bytes) : Service :=
  match text with
  | some text => s.note .debug text
  | none => s

/-- Takes an entry in at the time `now`. -/
def ingest (s : Service) (e : Entry) (now : Int64) : Service × IngestResult :=
  match refusal? s.recorder e with
  | some result => (s.debug (refusalNote? e result), result)
  | none =>
    let r := accept s.recorder e
    ({ s with recorder := { r with stats := (r.stats.record e now).1 } }.debug
      (r.stats.ignoredNote? e now), .accepted)

/-- Makes the active log file, if there is one, the backup. -/
def rotateLog (s : Service) : Service × Except LogError Unit :=
  let archive := s.recorder.archive
  match archive.isActive s.files, archive.rotate s.files with
  | .ok true, .ok files =>
    ({ s with files }.note .debug (ascii "querylog: rotated from " ++ archive.path ++ ascii " to "
      ++ archive.backupPath ++ ascii " successfully"), .ok ())
  | _, .ok files => ({ s with files }, .ok ())
  | _, .error cause => (s, .error (.archive cause))

/-- Begins a new hour of the statistics. -/
def rotateHour (s : Service) : Service :=
  { s with recorder := { s.recorder with stats := s.recorder.stats.rotate } }.note .info
    (ascii "Rotating hourly top")

/-- Saves a configuration and, if that succeeds, adopts it. -/
def adopt (s : Service) (config : Config) : Service × Except LogError Unit :=
  match Settings.save s.files (Settings.path config) config with
  | (files, .ok ()) =>
    ({ s with recorder := { s.recorder with config }, files }.note .debug
      (ascii "settings written to " ++ Settings.path config), .ok ())
  | (files, .error cause) => ({ s with files }, .error (.save cause))

/-- Switches recording on or off and sets the interval. What is pending is written first, but
a failure of that does not matter. -/
def configure (s : Service) (enabled : Bool) (intervalHours : UInt32) :
    Service × Except LogError Unit :=
  if !Config.isSupportedInterval intervalHours then (s, .error (.unsupportedInterval intervalHours))
  else
    let flushed := match s.flush true with
      | (s, .ok ()) => s
      | (s, .error e) =>
        s.note .error (ascii "querylog: flush before reconfigure failed: " ++ e.message)
    match flushed.adopt { flushed.recorder.config with enabled, intervalHours } with
    | (s, .error e) => (s, .error e)
    | (s, .ok ()) =>
      let s := s.note .info (ascii "querylog: configured enabled=" ++ Settings.boolText enabled
        ++ ascii " interval=" ++ Decimal.ofNat intervalHours.toNat ++ ascii "h")
      if flushed.recorder.config.intervalHours ≠ intervalHours && s.recorder.writer.isSome then
        (s.note .debug (ascii "task log-rotate stopped"), .ok ())
      else (s, .ok ())

/-- Sets the hours that the statistics retain. -/
def setStatsHours (s : Service) (hours : UInt32) : Service × Except LogError Unit :=
  match s.recorder.stats.resize hours.toNat with
  | .error cause => (s, .error (.retention cause))
  | .ok stats =>
    match s.adopt { s.recorder.config with statsHours := hours } with
    | (s, .error e) => (s, .error e)
    | (s, .ok ()) =>
      ({ s with recorder := { s.recorder with stats } }.note .info
        (ascii "top: retention limit set to " ++ Decimal.ofNat hours.toNat ++ ascii "h"), .ok ())

/-- Empties the log view and the pending batch and removes the log files. The statistics
stay. -/
def clear (s : Service) : Service × Except LogError Unit :=
  let r := { s.recorder with
    recent := s.recorder.recent.clear
    pending := []
    wakeRequested := false }
  match r.archive.clear s.files with
  | (files, .error cause) => ({ s with recorder := r, files }, .error (.archive cause))
  | (files, .ok ()) =>
    (({ s with recorder := r, files }.note .debug
      (ascii "querylog: removed log files for " ++ r.config.logFile)).note .info
        (ascii "Query log was cleared"), .ok ())

/-- Replaces the recorder by a fresh one on the same files; the old one is stopped. -/
def reopen (s : Service) (config : Config) : Service :=
  let s := s.stop
  launch config s.files s.journal

end Service

end ResolverLog
