import ResolverLog.Proofs.Operations

/-!
# Runs

A run carries out operations on a service one after another. Beside the service
a ledger is kept of what has been taken in since the last clearing, so that the
state can be compared with the history that led to it.

## Implementation notes

Between two operations anything may happen to files, as long as the log reads
the same: a path can become one that cannot be written to, and one that can.
-/

namespace ResolverLog

open Bytes

/-- What can be asked of a service. -/
inductive Op
  | start (now : Int64)
  | ingest (e : Entry) (now : Int64)
  | flush (full : Bool)
  | rotateLog
  | rotateHour
  | configure (enabled : Bool) (intervalHours : UInt32)
  | setStatsHours (hours : UInt32)
  | clear
  | stop
  | startBackground
  | settle
  | awaitPending (patienceMs n : Nat)
  deriving DecidableEq, Repr

namespace Op

/-- Carries an operation out. -/
def apply (s : Service) : Op → Service
  | start now => s.start now
  | ingest e now => (s.ingest e now).1
  | flush full => (s.flush full).1
  | rotateLog => s.rotateLog.1
  | rotateHour => s.rotateHour
  | configure enabled intervalHours => (s.configure enabled intervalHours).1
  | setStatsHours hours => (s.setStatsHours hours).1
  | clear => s.clear.1
  | stop => s.stop
  | startBackground => s.startBackground
  | settle => s.settle
  | awaitPending patienceMs n => s.awaitPending patienceMs n

/-- Any operation, but a clearing only where it succeeds. -/
def Clean (s : Service) (op : Op) : Prop :=
  op = clear → s.clear.2 = .ok ()

theorem clean_of_ne {s : Service} {op : Op} (h : op ≠ clear) : op.Clean s :=
  fun heq => absurd heq h

theorem clean_of_notMem {ops : List Op} (h : clear ∉ ops) : ∀ op ∈ ops, ∀ s, op.Clean s :=
  fun _ hop _ => clean_of_ne fun heq => h (heq ▸ hop)

/-- The entry that an operation takes in. -/
def admitted (s : Service) : Op → List Entry
  | ingest e now => if (s.ingest e now).2 = .accepted then [e] else []
  | _ => []

/-- What an operation on `s` can do to the log: keep it but for entries that move to the active
file, load it, take an entry in, rotate it, or clear it. -/
inductive Effect (s : Service) : Op → Prop
  | keeps {op} (kept : s.Keeps (op.apply s)) (none : op.admitted s = [])
      (clear : op ≠ clear) (rotate : op ≠ rotateLog) : Effect s op
  | starts {now} (phase : s.recorder.phase = .uninitialized) : Effect s (start now)
  | takes {e now} (accepted : (s.ingest e now).2 = .accepted) : Effect s (ingest e now)
  | rotates : Effect s rotateLog
  | clears : Effect s clear

theorem effect (s : Service) (op : Op) : Effect s op := by
  cases op with
  | start now =>
      by_cases hphase : s.recorder.phase = .uninitialized
      · exact .starts hphase
      · exact .keeps (Service.quiet_start_again hphase now).toKeeps rfl nofun nofun
  | ingest e now =>
      by_cases haccepted : (s.ingest e now).2 = .accepted
      · exact .takes haccepted
      · exact .keeps (Service.quiet_ingest_refused haccepted).toKeeps (if_neg haccepted) nofun nofun
  | rotateLog => exact .rotates
  | clear => exact .clears
  | flush full => exact .keeps (Service.quiet_flush s full).toKeeps rfl nofun nofun
  | rotateHour => exact .keeps (Service.keeps_rotateHour s) rfl nofun nofun
  | configure enabled hours =>
      exact .keeps (Service.quiet_configure s enabled hours).toKeeps rfl nofun nofun
  | setStatsHours hours => exact .keeps (Service.keeps_setStatsHours s hours) rfl nofun nofun
  | stop => exact .keeps (Service.quiet_stop s).toKeeps rfl nofun nofun
  | startBackground => exact .keeps (Service.quiet_startBackground s).toKeeps rfl nofun nofun
  | settle => exact .keeps (Service.quiet_settle s).toKeeps rfl nofun nofun
  | awaitPending patienceMs n =>
      exact .keeps (Service.quiet_awaitPending s patienceMs n).toKeeps rfl nofun nofun

end Op

/-- What has happened to a log since it was last cleared. -/
structure Ledger where
  /-- The entries accepted, in order. -/
  accepted : List Entry
  /-- The entries that sat in the backup when a rotation replaced it, in order. -/
  replaced : List Entry
  /-- The rotations that found an active file and succeeded. -/
  rotations : Nat

namespace Ledger

/-- Nothing has happened. -/
def empty : Ledger := ⟨[], [], 0⟩

/-- The ledger after an operation on `s`. -/
def after (l : Ledger) (s : Service) : Op → Ledger
  | .ingest e now =>
    if (s.ingest e now).2 = .accepted then { l with accepted := l.accepted ++ [e] } else l
  | .rotateLog =>
    if s.Rotates then
      { l with
        replaced := l.replaced ++
          (Record.decodeAll (s.files.contents s.recorder.archive.backupPath)).toOption.getD []
        rotations := l.rotations + 1 }
    else l
  | .clear => if s.clear.2 = .ok () then .empty else l
  | _ => l

/-- Where nothing is taken in, rotated or cleared the ledger stays as it is. -/
theorem after_eq_self {l : Ledger} {s : Service} {op : Op} (hnone : op.admitted s = [])
    (hclear : op ≠ .clear) (hrotate : op ≠ .rotateLog) : l.after s op = l := by
  cases op with
  | ingest e now =>
      rw [Op.admitted] at hnone
      rw [after]
      split
      · rename_i haccepted
        rw [if_pos haccepted] at hnone
        cases hnone
      · rfl
  | clear => exact absurd rfl hclear
  | rotateLog => exact absurd rfl hrotate
  | _ => rfl

end Ledger

/-- A run of allowed operations from `first`, with its ledger. -/
inductive Run (allowed : Service → Op → Prop) (first : Service) : Service → Ledger → Prop
  | launched : Run allowed first first .empty
  | call {s l} (run : Run allowed first s l) (op : Op) (ok : allowed s op) :
      Run allowed first (op.apply s) (l.after s op)
  | outside {s l} (run : Run allowed first s l) (files : Files)
      (active : files.contents s.recorder.archive.path
        = s.files.contents s.recorder.archive.path)
      (backup : files.contents s.recorder.archive.backupPath
        = s.files.contents s.recorder.archive.backupPath) :
      Run allowed first { s with files } l

/-- Carries operations out one after another and keeps the ledger. -/
def Op.applyAll (s : Service) (l : Ledger) : List Op → Service × Ledger
  | [] => (s, l)
  | op :: ops => applyAll (op.apply s) (l.after s op) ops

/-- A log can begin here: its path is a path, under it is no log, and the notes go to neither
of its files. -/
structure Beginning (config : Config) (files : Files) (journal : Journal) : Prop where
  noNul : 0 ∉ config.logFile
  apart_active : Path.Apart journal.path config.logFile
  apart_backup : Path.Apart journal.path (config.logFile ++ ascii ".1")
  active_empty : files.contents config.logFile = []
  backup_empty : files.contents (config.logFile ++ ascii ".1") = []

namespace Service

variable {config : Config} {files : Files} {journal : Journal}

/-- A launch is quiet. -/
theorem quiet_launch (config : Config) (files : Files) (journal : Journal) :
    Quiet ⟨.new config, files, journal⟩ (launch config files journal) :=
  (quiet_note _ _ _).trans (quiet_note _ _ _)

end Service

namespace Run

variable {allowed more : Service → Op → Prop} {first s : Service} {l : Ledger}

/-- A run of allowed operations is one of any operations allowed as well. -/
theorem mono (h : ∀ s op, allowed s op → more s op) (run : Run allowed first s l) :
    Run more first s l := by
  induction run with
  | launched => exact launched
  | call run op ok ih => exact call ih op (h _ op ok)
  | outside run files active backup ih => exact outside ih files active backup

/-- A run goes on with operations that are always allowed. -/
theorem applyAll (run : Run allowed first s l) (ops : List Op)
    (h : ∀ op ∈ ops, ∀ s, allowed s op) :
    Run allowed first (Op.applyAll s l ops).1 (Op.applyAll s l ops).2 := by
  induction ops generalizing s l with
  | nil => exact run
  | cons op ops ih =>
      exact ih (call run op (h op List.mem_cons_self s))
        fun op' hop => h op' (List.mem_cons_of_mem op hop)

end Run

/-! ## A small log -/

/-- The configuration of a log that shows two entries and writes two at a time. -/
def Config.small : Config := ⟨true, 24, 24, 2, 2, 2, 1000, ascii "q.log"⟩

/-- An entry of this time that asks for the name `a`. -/
def Entry.asking (time : Int64) : Entry :=
  ⟨time, [0, 0, 0, 0, 0, 1, 0, 0, 0, 0, 0, 0, 1, 0x61, 0, 0, 1, 0, 1], [], [], [], .pass, 0⟩

/-- Without a note file the notes go nowhere else. -/
theorem Journal.apart_silent (other : Bytes) : Path.Apart Journal.silent.path other := by
  intro place h
  cases h

theorem Beginning.small : Beginning .small .empty .silent := by
  refine ⟨by decide, Journal.apart_silent _, Journal.apart_silent _, ?_, ?_⟩
  · decide
  · decide

end ResolverLog
