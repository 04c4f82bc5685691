import ResolverLog.Proofs.Failures
import ResolverLog.Proofs.StatsChanges
import ResolverLog.Proofs.TornLine

/-!
# The life of a recorder

A recorder is started once and stopped once, whatever else is asked of it in
between and afterwards. Stopping closes the door before it writes what is
pending: from then on nothing can be taken in, and when the writing succeeds
nothing is left to be written, so the view, the statistics and the files can
only lose entries.

What has been taken in since the log was last cleared is traced through the
files. Their text before that may be any, so the records are found at the end of
the files, behind that text.

## Implementation notes

The trace begins anew at each clearing, also at one that fails: it drops the
pending entries in any case, and what it leaves of the files is not told apart
from text that was there before.
-/

namespace ResolverLog

open Bytes HourlyStats

variable {s s' : Service}

/-! ## Phases -/

/-- The phase in which an operation leaves a recorder. -/
def Op.nextPhase : Op → Phase → Phase
  | start _, .uninitialized => .running
  | stop, .running => .stopped
  | _, phase => phase

namespace Service

theorem phase_flush (s : Service) (full : Bool) :
    (s.flush full).1.recorder.phase = s.recorder.phase := by
  obtain ⟨_, _, hrecorder⟩ := recorder_flush s full
  rw [hrecorder]

theorem phase_flushNoting (s : Service) (text : Service → LogError → Bytes) :
    (s.flushNoting text).recorder.phase = s.recorder.phase := by
  obtain ⟨_, _, hrecorder⟩ := recorder_flushNoting s text
  rw [hrecorder]

theorem phase_runWriter (s : Service) (writer : Task) :
    (s.runWriter writer).recorder.phase = s.recorder.phase := by
  have hflush := phase_flush s true
  rw [runWriter]
  split
  · rename_i flushed heq
    rw [heq] at hflush
    exact hflush
  · rename_i flushed e heq
    rw [heq] at hflush
    exact hflush

theorem phase_adopt (s : Service) (config : Config) :
    (s.adopt config).1.recorder.phase = s.recorder.phase := by
  rw [adopt]
  split
  · rfl
  · rfl

theorem phase_configure (s : Service) (enabled : Bool) (hours : UInt32) :
    (s.configure enabled hours).1.recorder.phase = s.recorder.phase := by
  by_cases hsupported : Config.isSupportedInterval hours = true
  · have hflushed : s.flushedFirst.recorder.phase = s.recorder.phase := phase_flushNoting s _
    have hadopt := phase_adopt s.flushedFirst
      { s.flushedFirst.recorder.config with enabled, intervalHours := hours }
    rw [hflushed] at hadopt
    rw [configure_eq s enabled hours hsupported]
    split
    · rename_i adopted e heq
      rw [heq] at hadopt
      exact hadopt
    · rename_i adopted heq
      rw [heq] at hadopt
      simp only
      split
      · exact hadopt
      · exact hadopt
  · rw [configure, Bool.eq_false_of_not_eq_true hsupported]
    rfl

theorem phase_setStatsHours (s : Service) (hours : UInt32) :
    (s.setStatsHours hours).1.recorder.phase = s.recorder.phase := by
  rw [setStatsHours]
  split
  · rfl
  · have hadopt := phase_adopt s { s.recorder.config with statsHours := hours }
    split
    · rename_i adopted e heq
      rw [heq] at hadopt
      exact hadopt
    · rename_i adopted heq
      rw [heq] at hadopt
      exact hadopt

theorem phase_ingest (s : Service) (e : Entry) (now : Int64) :
    (s.ingest e now).1.recorder.phase = s.recorder.phase := by
  rw [ingest]
  cases refusal? s.recorder e with
  | some result => exact congrArg Recorder.phase (recorder_debug _ _)
  | none =>
      obtain ⟨wakeRequested, writer, -, haccept⟩ := accept_eq s.recorder e
      apply (congrArg Recorder.phase (recorder_debug _ _)).trans
      rw [haccept]

theorem recorder_stopBackground (s : Service) :
    s.stopBackground.recorder = { s.recorder with writer := none } := by
  rw [stopBackground]
  split
  · rename_i hnone
    rw [← hnone]
  · rfl

theorem node?_stopBackground {path : Bytes} (h : Path.Apart s.journal.path path) :
    s.stopBackground.files.node? path = s.files.node? path := by
  rw [stopBackground]
  split
  · rfl
  · apply (node?_note (by rw [path_note, path_note]; exact h)).trans
    apply (node?_note (by rw [path_note]; exact h)).trans
    exact node?_note h

theorem phase_stop (s : Service) :
    s.stop.recorder.phase = Op.stop.nextPhase s.recorder.phase := by
  have hbackground : s.stopBackground.recorder.phase = s.recorder.phase := by
    rw [recorder_stopBackground]
  rw [stop_eq]
  split
  · rename_i hrunning
    rw [← hbackground, hrunning]
    exact phase_flushNoting _ _
  · rename_i hphase
    rw [← hbackground]
    cases h : s.stopBackground.recorder.phase with
    | uninitialized => rfl
    | running => exact absurd h hphase
    | stopped => rfl

/-- A recorder that has been started is not started again. -/
theorem start_eq (h : s.recorder.phase ≠ .uninitialized) (now : Int64) :
    s.start now = s.note .info (ascii "QueryLog: start ignored, already started") := by
  rw [start]
  split
  · rename_i hphase
    exact absurd hphase h
  · rfl

/-- Only a running recorder is stopped; any other just has no background tasks afterwards. -/
theorem stop_eq_stopBackground (h : s.recorder.phase ≠ .running) : s.stop = s.stopBackground := by
  rw [stop_eq, if_neg]
  rw [recorder_stopBackground]
  exact h

/-- Stopping a running recorder writes what is pending, when the log can be written to and what is
pending is within the limits of the format. -/
theorem pending_stop (h : s.recorder.phase = .running)
    (hw : s.files.Writable s.recorder.archive.path) (hs : ∀ e ∈ s.recorder.pending, e.Storable) :
    s.stop.recorder.pending = [] := by
  have hwritable : s.stopBackground.files.Writable s.recorder.archive.path := by
    rw [stopBackground]
    split
    · exact hw
    · exact writable_note (writable_note (writable_note hw _ _) _ _) _ _
  have hrecorder := recorder_stopBackground s
  rw [stop_eq, if_pos (by rw [hrecorder]; exact h), finish, flushNoting]
  obtain ⟨hok, hpending⟩ := flush_of_storable
    (s := { s.stopBackground with
      recorder := { s.stopBackground.recorder with phase := .stopped } })
    (by rw [hrecorder]; exact hwritable) (by rw [hrecorder]; exact hs)
  split
  · rename_i flushed heq
    rw [heq] at hpending
    exact hpending
  · rename_i flushed e heq
    rw [heq] at hok
    cases hok

end Service

theorem Op.phase_eq_nextPhase (s : Service) (op : Op) :
    (op.apply s).recorder.phase = op.nextPhase s.recorder.phase := by
  cases op with
  | start now =>
      cases hphase : s.recorder.phase with
      | uninitialized =>
          rw [apply, Service.start, hphase]
          rfl
      | running =>
          rw [apply, Service.start_eq (by rw [hphase]; decide)]
          exact hphase
      | stopped =>
          rw [apply, Service.start_eq (by rw [hphase]; decide)]
          exact hphase
  | stop => exact Service.phase_stop s
  | ingest e now => exact Service.phase_ingest s e now
  | flush full => exact Service.phase_flush s full
  | rotateLog => exact congrArg Recorder.phase (Service.recorder_rotateLog s)
  | rotateHour => rfl
  | configure enabled hours => exact Service.phase_configure s enabled hours
  | setStatsHours hours => exact Service.phase_setStatsHours s hours
  | clear =>
      rw [apply, Service.recorder_clear]
      rfl
  | startBackground =>
      rw [apply, Service.startBackground]
      split
      · rfl
      · rfl
  | settle =>
      rw [apply, Service.settle]
      split
      · split
        · exact Service.phase_runWriter s _
        · rfl
      · rfl
  | awaitPending patienceMs n =>
      rw [apply, Service.awaitPending]
      split
      · split
        · exact Service.phase_runWriter s _
        · rfl
      · rfl

/-! ## After the end -/

namespace Service

/-- A clearing leaves the texts of the log as they are, or removes that of the active file and, if
it can, that of the backup. -/
theorem contents_clear (ht : s.Tidy) :
    s.clear.1.journal.path = s.journal.path ∧
    (s.clear.1.files.contents s.recorder.archive.path = s.files.contents s.recorder.archive.path ∧
      s.clear.1.files.contents s.recorder.archive.backupPath
        = s.files.contents s.recorder.archive.backupPath ∨
    s.clear.1.files.contents s.recorder.archive.path = [] ∧
      (s.clear.1.files.contents s.recorder.archive.backupPath
          = s.files.contents s.recorder.archive.backupPath ∨
        s.clear.1.files.contents s.recorder.archive.backupPath = [])) := by
  have harchive : s.clear.1.recorder.archive = s.recorder.archive :=
    archive_eq (by rw [recorder_clear])
  cases hr : s.clear.2 with
  | ok _ =>
      obtain ⟨hjournal, hstored⟩ := clear_of_ok hr
      obtain ⟨hbackup, hactive⟩ := hstored ht
      rw [harchive] at hbackup hactive
      refine ⟨hjournal, .inr ⟨(Record.encodeAll_eq_ok_iff.mp hactive).2, .inr ?_⟩⟩
      exact (Record.encodeAll_eq_ok_iff.mp hbackup).2
  | error e =>
      obtain ⟨hjournal, cause, -, hclear⟩ := clear_eq_error (Prod.ext rfl hr)
      refine ⟨congrArg Journal.path hjournal, ?_⟩
      rcases Archive.clear_of_error ht.noNul hclear with ⟨-, -, hfiles⟩ | ⟨-, -, hactive, hbackup⟩
      · exact .inl ⟨by rw [hfiles], by rw [hfiles]⟩
      · exact .inr ⟨hactive, .inl (Files.contents_eq_of_node? hbackup)⟩

/-- From `s` on, which has stopped with nothing pending, nothing has been added to what a log shows
and holds: the view is the same or empty, the statistics have aged, and each text of the log is
one of those of `s`, in its place or rotated, or gone. -/
structure Spent (s s' : Service) : Prop extends Tidy s' where
  archive_eq : s'.recorder.archive = s.recorder.archive
  phase_eq : s'.recorder.phase = .stopped
  pending_eq : s'.recorder.pending = []
  entries_eq : s'.recorder.recent.entries = s.recorder.recent.entries ∨
    s'.recorder.recent.entries = []
  aged : Aged s.recorder.stats s'.recorder.stats
  texts_eq :
    s'.files.contents s.recorder.archive.path = s.files.contents s.recorder.archive.path ∧
      s'.files.contents s.recorder.archive.backupPath
        = s.files.contents s.recorder.archive.backupPath ∨
    s'.files.contents s.recorder.archive.path = [] ∧
      (s'.files.contents s.recorder.archive.backupPath
          = s.files.contents s.recorder.archive.backupPath ∨
        s'.files.contents s.recorder.archive.backupPath
          = s.files.contents s.recorder.archive.path ∨
        s'.files.contents s.recorder.archive.backupPath = [])

namespace Spent

/-- A recorder that has stopped takes in no entry. -/
theorem ingest_eq (h : Spent s s') (e : Entry) (now : Int64) :
    (s'.ingest e now).2 = .notRunning := by
  rw [ingest, refusal?, if_pos (by rw [h.phase_eq]; decide)]

/-- No operation adds anything. -/
theorem apply (h : Spent s s') (op : Op) : Spent s (op.apply s') := by
  have hphase : (op.apply s').recorder.phase = .stopped := by
    rw [op.phase_eq_nextPhase, h.phase_eq]
    cases op with
    | _ => rfl
  have haged := h.aged.trans (op.aged_apply h.phase_eq)
  cases op.effect s' with
  | keeps kept =>
      -- Only what was pending could have been written, and nothing was.
      obtain ⟨written, happended, hpending⟩ := kept.appended h.toTidy
      rw [h.pending_eq, eq_comm, List.append_eq_nil_iff] at hpending
      obtain ⟨rfl, hpending⟩ := hpending
      have hactive := happended.active_eq
      have hbackup := happended.backup_eq
      rw [h.archive_eq] at hactive hbackup
      have hsame := hactive.trans (List.append_nil _)
      refine ⟨kept.tidy h.toTidy, (Service.archive_eq kept.logFile_eq).trans h.archive_eq, hphase,
        hpending, ?_, haged, ?_⟩
      · rw [kept.recent_eq]
        exact h.entries_eq
      · rw [hsame, hbackup]
        exact h.texts_eq
  | starts uninitialized =>
      rw [h.phase_eq] at uninitialized
      cases uninitialized
  | takes accepted =>
      rw [h.ingest_eq] at accepted
      cases accepted
  | rotates =>
      by_cases hrotates : s'.Rotates
      · obtain ⟨hjournal, hbackup, hactive⟩ := contents_rotateLog h.toTidy hrotates
        rw [h.archive_eq] at hbackup hactive
        have hrecorder := recorder_rotateLog s'
        refine ⟨h.toTidy.of_eq (by rw [Op.apply, hrecorder]) hjournal, ?_, hphase, ?_, ?_, haged,
          ?_⟩
        · rw [Op.apply, hrecorder, h.archive_eq]
        · rw [Op.apply, hrecorder, h.pending_eq]
        · rw [Op.apply, hrecorder]
          exact h.entries_eq
        · refine .inr ⟨hactive, .inr ?_⟩
          rw [Op.apply, hbackup]
          rcases h.texts_eq with ⟨hsame, -⟩ | ⟨hgone, -⟩
          · exact .inl hsame
          · exact .inr hgone
      · rw [Op.apply, rotateLog_eq_of_not_rotates h.toTidy hrotates]
        exact h
  | clears =>
      have hrecorder := recorder_clear s'
      obtain ⟨hjournal, htexts⟩ := contents_clear h.toTidy
      rw [h.archive_eq] at htexts
      have harchive : s'.clear.1.recorder.archive = s'.recorder.archive :=
        Service.archive_eq (by rw [hrecorder])
      refine ⟨h.toTidy.of_eq (by rw [Op.apply, hrecorder]) hjournal, harchive.trans h.archive_eq,
        hphase, ?_, ?_, haged, ?_⟩
      · rw [Op.apply, hrecorder]
      · rw [Op.apply, hrecorder]
        exact .inr rfl
      · rw [Op.apply]
        rcases htexts with ⟨hactive, hbackup⟩ | ⟨hactive, hbackup | hbackup⟩
        · rw [hactive, hbackup]
          exact h.texts_eq
        · refine .inr ⟨hactive, ?_⟩
          rw [hbackup]
          rcases h.texts_eq with ⟨-, hsame⟩ | ⟨-, hgone⟩
          · exact .inl hsame
          · exact hgone
        · exact .inr ⟨hactive, .inr (.inr hbackup)⟩

theorem outside (h : Spent s s') {files : Files}
    (ha : files.contents s'.recorder.archive.path = s'.files.contents s'.recorder.archive.path)
    (hb : files.contents s'.recorder.archive.backupPath
      = s'.files.contents s'.recorder.archive.backupPath) : Spent s { s' with files } := by
  rw [h.archive_eq] at ha hb
  refine ⟨h.toTidy.of_eq rfl rfl, h.archive_eq, h.phase_eq, h.pending_eq, h.entries_eq, h.aged, ?_⟩
  change files.contents _ = _ ∧ files.contents _ = _ ∨ files.contents _ = _ ∧
    (files.contents _ = _ ∨ files.contents _ = _ ∨ files.contents _ = _)
  rw [ha, hb]
  exact h.texts_eq

end Spent

end Service

/-! ## Tracing what is taken in -/

/-- What has been taken in since a log was last cleared. -/
structure Trace where
  /-- The entries accepted, in order. -/
  accepted : List Entry
  /-- How many of them had left the pending ones when the log was last rotated. -/
  rotated : Nat
  /-- How many of them had at the rotation before that, whose backup the last one replaced. -/
  displaced : Nat

namespace Trace

/-- Nothing has been taken in. -/
def empty : Trace := ⟨[], 0, 0⟩

/-- The trace after an operation on `s`. -/
def after (t : Trace) (s : Service) : Op → Trace
  | .rotateLog =>
    if s.Rotates then
      { t with
        rotated := t.accepted.length - s.recorder.pending.length
        displaced := t.rotated }
    else t
  | .clear => .empty
  | op => { t with accepted := t.accepted ++ op.admitted s }

theorem after_eq_self {t : Trace} {op : Op} (hnone : op.admitted s = []) (hclear : op ≠ .clear)
    (hrotate : op ≠ .rotateLog) : t.after s op = t := by
  have hsame : { t with accepted := t.accepted ++ op.admitted s } = t := by
    rw [hnone, List.append_nil]
  cases op with
  | rotateLog => exact absurd rfl hrotate
  | clear => exact absurd rfl hclear
  | _ => exact hsame

end Trace

/-- A run of any operations from `first`, with its trace. Between two operations anything may happen
to files as long as the texts of the log stay. -/
inductive Traced (first : Service) : Service → Trace → Prop
  | began : Traced first first .empty
  | call {s t} (run : Traced first s t) (op : Op) : Traced first (op.apply s) (t.after s op)
  | outside {s t} (run : Traced first s t) (files : Files)
      (active : files.contents s.recorder.archive.path
        = s.files.contents s.recorder.archive.path)
      (backup : files.contents s.recorder.archive.backupPath
        = s.files.contents s.recorder.archive.backupPath) :
      Traced first { s with files } t

/-- Where the traced entries are: gone with a backup, behind the text `behind` of the backup, behind
the text `front` of the active file, or pending. -/
structure Placed (s : Service) (t : Trace) (gone older newer : List Entry) (behind front : Bytes) :
    Prop extends Service.Tidy s where
  accepted_eq : t.accepted = gone ++ older ++ newer ++ s.recorder.pending
  displaced_eq : t.displaced = gone.length
  rotated_eq : t.rotated = gone.length + older.length
  storable : ∀ e ∈ older ++ newer, e.Storable
  backup_eq : s.files.contents s.recorder.archive.backupPath
    = behind ++ ofLines (older.map Record.line)
  active_eq : s.files.contents s.recorder.archive.path = front ++ ofLines (newer.map Record.line)

namespace Placed

variable {t : Trace} {gone older newer : List Entry} {behind front : Bytes}

/-- Entries only go from the pending ones to the active file. -/
theorem keeps (h : Placed s t gone older newer behind front) (hk : s.Keeps s') :
    ∃ newer', Placed s' t gone older newer' behind front := by
  obtain ⟨written, happended, hpending⟩ := hk.appended h.toTidy
  have harchive := Service.archive_eq hk.logFile_eq
  refine ⟨newer ++ written, hk.tidy h.toTidy, ?_, h.displaced_eq, h.rotated_eq, ?_, ?_, ?_⟩
  · rw [h.accepted_eq, hpending]
    simp only [List.append_assoc]
  · intro e he
    rw [← List.append_assoc] at he
    rcases List.mem_append.mp he with he | he
    · exact h.storable e he
    · exact happended.storable e he
  · rw [harchive, happended.backup_eq, h.backup_eq]
  · rw [harchive, happended.active_eq, h.active_eq, List.map_append, ofLines_append,
      List.append_assoc]

theorem start (h : Placed s t gone older newer behind front)
    (hphase : s.recorder.phase = .uninitialized) (now : Int64) :
    ∃ newer', Placed (s.start now) t gone older newer' behind front := by
  have hopened : Placed (s.restored now).opened t gone older newer behind front :=
    ⟨h.toTidy.of_eq rfl rfl, h.accepted_eq, h.displaced_eq, h.rotated_eq, h.storable, h.backup_eq,
      h.active_eq⟩
  exact hopened.keeps (Service.quiet_start hphase now).toKeeps

theorem ingest (h : Placed s t gone older newer behind front) {e : Entry} {now : Int64}
    (haccepted : (s.ingest e now).2 = .accepted) :
    ∃ newer', Placed (s.ingest e now).1 (t.after s (.ingest e now)) gone older newer' behind
      front := by
  have hafter : t.after s (.ingest e now) = { t with accepted := t.accepted ++ [e] } :=
    congrArg (fun es => { t with accepted := t.accepted ++ es }) (if_pos haccepted)
  rw [hafter]
  have htaken : Placed (s.taken e now) { t with accepted := t.accepted ++ [e] } gone older newer
      behind front := by
    refine ⟨h.toTidy.of_eq rfl rfl, ?_, h.displaced_eq, h.rotated_eq, h.storable, h.backup_eq,
      h.active_eq⟩
    rw [h.accepted_eq]
    exact List.append_assoc _ _ _
  exact htaken.keeps (Service.quiet_ingest haccepted).toKeeps

/-- A rotation displaces what was in the backup. -/
theorem rotateLog (h : Placed s t gone older newer behind front) (hrotates : s.Rotates) :
    Placed s.rotateLog.1 (t.after s .rotateLog) (gone ++ older) newer [] front [] := by
  obtain ⟨hjournal, hbackup, hactive⟩ := Service.contents_rotateLog h.toTidy hrotates
  have hrecorder := Service.recorder_rotateLog s
  rw [Trace.after, if_pos hrotates]
  refine ⟨h.toTidy.of_eq (by rw [hrecorder]) hjournal, ?_, ?_, ?_, ?_, ?_, ?_⟩
  · rw [hrecorder, List.append_nil]
    exact h.accepted_eq
  · rw [h.rotated_eq, List.length_append]
  · have hlength := congrArg List.length h.accepted_eq
    simp only [List.length_append] at hlength ⊢
    omega
  · intro e he
    rw [List.append_nil] at he
    exact h.storable e (List.mem_append_right _ he)
  · rw [hrecorder, hbackup]
    exact h.active_eq
  · rw [hrecorder, hactive]
    rfl

/-- After a clearing nothing is traced. -/
theorem clear (ht : s.Tidy) : Placed s.clear.1 .empty [] [] []
    (s.clear.1.files.contents s.recorder.archive.backupPath)
    (s.clear.1.files.contents s.recorder.archive.path) := by
  have hrecorder := Service.recorder_clear s
  have harchive : s.clear.1.recorder.archive = s.recorder.archive :=
    Service.archive_eq (by rw [hrecorder])
  refine ⟨ht.of_eq (by rw [hrecorder]) (Service.contents_clear ht).1, ?_, rfl, rfl,
    List.forall_mem_nil _, ?_, ?_⟩
  · rw [hrecorder]
    rfl
  · rw [harchive]
    exact (List.append_nil _).symm
  · rw [harchive]
    exact (List.append_nil _).symm

end Placed

/-- The traced entries are in their places, behind whole lines if `whole`. -/
def Traces (whole : Prop) (s : Service) (t : Trace) : Prop :=
  ∃ gone older newer behind front, Placed s t gone older newer behind front ∧
    (whole → tornLine behind = [] ∧ tornLine front = [])

namespace Traces

variable {t : Trace} {whole : Prop}

/-- A log begins with any texts behind which nothing has been taken in. -/
theorem launch {config : Config} {files : Files} {journal : Journal}
    (ht : Service.Tidy ⟨.new config, files, journal⟩) :
    Traces (tornLine (files.contents config.logFile) = [] ∧
      tornLine (files.contents (config.logFile ++ ascii ".1")) = [])
      (.launch config files journal) .empty := by
  have hnew : Placed ⟨.new config, files, journal⟩ .empty [] [] []
      (files.contents (config.logFile ++ ascii ".1")) (files.contents config.logFile) :=
    ⟨ht, rfl, rfl, rfl, List.forall_mem_nil _, (List.append_nil _).symm, (List.append_nil _).symm⟩
  obtain ⟨newer, hplaced⟩ := hnew.keeps (Service.quiet_launch config files journal).toKeeps
  exact ⟨[], [], newer, _, _, hplaced, And.symm⟩

/-- Every operation leaves the traced entries in their places. -/
theorem call (h : Traces whole s t) (op : Op) : Traces whole (op.apply s) (t.after s op) := by
  obtain ⟨gone, older, newer, behind, front, hplaced, hwhole⟩ := h
  cases op.effect s with
  | keeps kept none clear rotate =>
      rw [Trace.after_eq_self none clear rotate]
      obtain ⟨newer', hplaced'⟩ := hplaced.keeps kept
      exact ⟨gone, older, newer', behind, front, hplaced', hwhole⟩
  | @starts now phase =>
      have hnone : (Op.start now).admitted s = [] := rfl
      rw [Trace.after_eq_self hnone (by simp) (by simp)]
      obtain ⟨newer', hplaced'⟩ := hplaced.start phase now
      exact ⟨gone, older, newer', behind, front, hplaced', hwhole⟩
  | takes accepted =>
      obtain ⟨newer', hplaced'⟩ := hplaced.ingest accepted
      exact ⟨gone, older, newer', behind, front, hplaced', hwhole⟩
  | rotates =>
      by_cases hrotates : s.Rotates
      · exact ⟨_, _, _, _, _, hplaced.rotateLog hrotates, fun hw => ⟨(hwhole hw).2, rfl⟩⟩
      · rw [Op.apply, Service.rotateLog_eq_of_not_rotates hplaced.toTidy hrotates, Trace.after,
          if_neg hrotates]
        exact ⟨gone, older, newer, behind, front, hplaced, hwhole⟩
  | clears =>
      refine ⟨_, _, _, _, _, Placed.clear hplaced.toTidy, ?_⟩
      intro hw
      obtain ⟨hbehind, hfront⟩ := hwhole hw
      have hbackup := tornLine_append_ofLines hbehind (older.map Record.line)
      have hactive := tornLine_append_ofLines hfront (newer.map Record.line)
      rw [← hplaced.backup_eq] at hbackup
      rw [← hplaced.active_eq] at hactive
      rcases (Service.contents_clear hplaced.toTidy).2 with ⟨ha, hb⟩ | ⟨ha, hb | hb⟩
      · rw [ha, hb]
        exact ⟨hbackup, hactive⟩
      · rw [ha, hb]
        exact ⟨hbackup, rfl⟩
      · rw [ha, hb]
        exact ⟨rfl, rfl⟩

theorem outside (h : Traces whole s t) {files : Files}
    (ha : files.contents s.recorder.archive.path = s.files.contents s.recorder.archive.path)
    (hb : files.contents s.recorder.archive.backupPath
      = s.files.contents s.recorder.archive.backupPath) : Traces whole { s with files } t := by
  obtain ⟨gone, older, newer, behind, front, hplaced, hwhole⟩ := h
  exact ⟨gone, older, newer, behind, front, ⟨hplaced.toTidy.of_eq rfl rfl, hplaced.accepted_eq,
    hplaced.displaced_eq, hplaced.rotated_eq, hplaced.storable, hb.trans hplaced.backup_eq,
    ha.trans hplaced.active_eq⟩, hwhole⟩

end Traces

theorem Traced.traces {config : Config} {files : Files} {journal : Journal} {t : Trace}
    (ht : Service.Tidy ⟨.new config, files, journal⟩)
    (run : Traced (.launch config files journal) s t) :
    Traces (tornLine (files.contents config.logFile) = [] ∧
      tornLine (files.contents (config.logFile ++ ascii ".1")) = []) s t := by
  induction run with
  | began => exact Traces.launch ht
  | call run op ih => exact ih.call op
  | outside run files active backup ih => exact ih.outside active backup

/-- After the end of a recorder no run takes anything in. -/
theorem Traced.spent {first : Service} {t : Trace} (hfirst : Service.Spent first first)
    (run : Traced first s t) : Service.Spent first s ∧ t.accepted = [] := by
  induction run with
  | began => exact ⟨hfirst, rfl⟩
  | @call s t run op ih =>
      refine ⟨ih.1.apply op, ?_⟩
      have hnone : op.admitted s = [] := by
        cases op with
        | ingest e now =>
            apply if_neg
            rw [ih.1.ingest_eq e now]
            decide
        | _ => rfl
      cases op with
      | rotateLog =>
          rw [Trace.after]
          split
          · exact ih.2
          · exact ih.2
      | clear => rfl
      | _ => exact (congrArg (t.accepted ++ ·) hnone).trans ((List.append_nil _).trans ih.2)
  | outside run files active backup ih => exact ⟨ih.1.outside active backup, ih.2⟩

/-- Records on lines of their own behind whole lines can be read. -/
theorem Files.mem_records {files : Files} {path front : Bytes} {entries : List Entry} {e : Entry}
    (hs : ∀ e ∈ entries, e.Storable) (hfront : tornLine front = [])
    (h : files.contents path = front ++ ofLines (entries.map Record.line)) (he : e ∈ entries) :
    e ∈ files.records path := by
  have hmem : Record.line e ∈ lines (files.contents path) := by
    obtain ⟨first, rest, rfl⟩ := List.exists_cons_of_ne_nil (List.ne_nil_of_mem he)
    have hnewline : ∀ record ∈ (first :: rest).map Record.line, newline ∉ record :=
      Record.newline_notMem_of_mem_map_line
    rw [h, List.map_cons, lines_append_ofLines front hnewline, hfront]
    exact List.mem_append_right _ (List.mem_map_of_mem he)
  rw [Files.records, List.mem_filterMap]
  exact ⟨Record.line e, hmem, by rw [Record.decode_line_alone (hs e he)]; rfl⟩

/-! ## One life -/

/-- In every run a recorder goes from its one start to its one end: only a start begins to run a
recorder, and only one that has not been started, and only a stop ends one that runs. A start or a
stop at any other time leaves the recorder and the files as they are, but for the background tasks
and the note file. Once a running recorder has been stopped whose log can be written to and whose
pending entries are within the limits of the format, nothing is pending. What was accepted since
the last clearing and not displaced by a rotation is then at the end of the two files, in order,
and can be read there unless the log began behind a torn line. And whatever is asked of the recorder
afterwards, nothing is taken in and nothing is added to the view, the pending entries, the
statistics or the files. -/
theorem Traced.lives_once {config : Config} {files : Files} {journal : Journal} {t : Trace}
    (ht : Service.Tidy ⟨.new config, files, journal⟩)
    (run : Traced (.launch config files journal) s t) :
    (∀ op : Op, (op.apply s).recorder.phase = op.nextPhase s.recorder.phase) ∧
    (s.recorder.phase ≠ .uninitialized → ∀ now,
      (s.start now).recorder = s.recorder ∧ ∀ path, Path.Apart s.journal.path path →
        (s.start now).files.node? path = s.files.node? path) ∧
    (s.recorder.phase ≠ .running →
      s.stop.recorder = { s.recorder with writer := none } ∧ ∀ path,
        Path.Apart s.journal.path path → s.stop.files.node? path = s.files.node? path) ∧
    (s.recorder.phase = .running → s.files.Writable s.recorder.archive.path →
      (∀ e ∈ s.recorder.pending, e.Storable) →
      s.stop.recorder.phase = .stopped ∧ s.stop.recorder.pending = [] ∧
      (∃ older newer, t.accepted.drop t.displaced = older ++ newer ∧
        ofLines (older.map Record.line) <:+ s.stop.files.contents s.recorder.archive.backupPath ∧
        ofLines (newer.map Record.line) <:+ s.stop.files.contents s.recorder.archive.path) ∧
      (tornLine (files.contents config.logFile) = [] ∧
          tornLine (files.contents (config.logFile ++ ascii ".1")) = [] →
        ∀ e ∈ t.accepted.drop t.displaced,
          e ∈ s.stop.files.records s.recorder.archive.backupPath ∨
            e ∈ s.stop.files.records s.recorder.archive.path) ∧
      ∀ s' t', Traced s.stop s' t' → s.stop.Spent s' ∧ t'.accepted = []) := by
  refine ⟨fun op => op.phase_eq_nextPhase s, ?_, ?_, ?_⟩
  · intro hphase now
    rw [Service.start_eq hphase]
    exact ⟨rfl, fun path hpath => Service.node?_note hpath⟩
  · intro hphase
    rw [Service.stop_eq_stopBackground hphase]
    exact ⟨Service.recorder_stopBackground s, fun path hpath => Service.node?_stopBackground hpath⟩
  · intro hphase hw hs
    have hkeeps := (Service.quiet_stop s).toKeeps
    have hstopped : s.stop.recorder.phase = .stopped := by
      rw [Service.phase_stop, hphase]
      rfl
    have hpending := Service.pending_stop hphase hw hs
    obtain ⟨gone, older, newer, behind, front, hplaced, hwhole⟩ := run.traces ht
    obtain ⟨newer, hplaced⟩ := hplaced.keeps hkeeps
    -- Nothing is pending any more, so what has not been displaced is in one of the two files.
    have hdrop : t.accepted.drop t.displaced = older ++ newer := by
      rw [hplaced.accepted_eq, hpending, hplaced.displaced_eq, List.append_nil, List.append_assoc,
        List.drop_left]
    have hbackup := hplaced.backup_eq
    have hactive := hplaced.active_eq
    rw [Service.archive_eq hkeeps.logFile_eq] at hbackup hactive
    refine ⟨hstopped, hpending,
      ⟨older, newer, hdrop, ⟨behind, hbackup.symm⟩, ⟨front, hactive.symm⟩⟩, ?_, ?_⟩
    · intro hlines e he
      obtain ⟨hbehind, hfront⟩ := hwhole hlines
      rw [hdrop] at he
      rcases List.mem_append.mp he with he | he
      · exact .inl (Files.mem_records (fun e he => hplaced.storable e (List.mem_append_left _ he))
          hbehind hbackup he)
      · exact .inr (Files.mem_records (fun e he => hplaced.storable e (List.mem_append_right _ he))
          hfront hactive he)
    · intro s' t' later
      exact later.spent ⟨hplaced.toTidy, rfl, hstopped, hpending, .inl rfl, Aged.refl _,
        .inl ⟨rfl, rfl⟩⟩

/-- Carries an operation out and traces what it takes in. -/
def Op.traced (run : Service × Trace) (op : Op) : Service × Trace :=
  (op.apply run.1, run.2.after run.1 op)

theorem Traced.foldl {first : Service} {t : Trace} (run : Traced first s t) (ops : List Op) :
    Traced first (ops.foldl Op.traced (s, t)).1 (ops.foldl Op.traced (s, t)).2 := by
  induction ops generalizing s t with
  | nil => exact run
  | cons op ops ih => exact ih (run.call op)

/-- A log whose first entry has been rotated away, with the second one pending. -/
def secondPending : Service × Trace :=
  [Op.start 5, .ingest (.asking 1) 5, .flush true, .rotateLog, .ingest (.asking 2) 5].foldl
    Op.traced (.launch .small .empty .silent, .empty)

theorem secondPending_spec :
    secondPending.1.recorder.phase = .running ∧
      secondPending.1.recorder.archive.path = ascii "q.log" ∧
      secondPending.1.files.Writable secondPending.1.recorder.archive.path ∧
      (∀ e ∈ secondPending.1.recorder.pending, e.Storable) ∧
      secondPending.2.accepted.drop secondPending.2.displaced = [.asking 1, .asking 2] := by
  decide +kernel

/-- Stopping it writes the second entry, and a later start lets no third one in. -/
theorem Traced.lives_once_secondPending :
    secondPending.1.stop.recorder.pending = [] ∧
    (∀ e ∈ [Entry.asking 1, .asking 2],
      e ∈ secondPending.1.stop.files.records (ascii "q.log.1") ∨
        e ∈ secondPending.1.stop.files.records (ascii "q.log")) ∧
    ((secondPending.1.stop.start 6).ingest (.asking 3) 6).2 = .notRunning := by
  have ht : Service.Tidy ⟨.new .small, .empty, .silent⟩ :=
    ⟨by decide, Journal.apart_silent _, Journal.apart_silent _⟩
  have run : Traced (.launch .small .empty .silent) secondPending.1 secondPending.2 :=
    Traced.began.foldl _
  obtain ⟨-, -, -, hstop⟩ := Traced.lives_once ht run
  obtain ⟨hphase, hlog, hwritable, hstorable, hdrop⟩ := secondPending_spec
  obtain ⟨-, hpending, -, hread, hlater⟩ := hstop hphase hwritable hstorable
  rw [hdrop] at hread
  refine ⟨hpending, ?_, ?_⟩
  · intro e he
    have hread := hread (by decide) e he
    rw [Archive.backupPath, hlog] at hread
    exact hread
  · exact (hlater _ _ (Traced.began.call (.start 6))).1.ingest_eq _ _

end ResolverLog
