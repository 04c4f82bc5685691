import ResolverLog.Proofs.LogFiles
import ResolverLog.Proofs.Record
import ResolverLog.Recorder

/-!
# Operations that only move entries

A log that only the recorder writes consists of two lists of entries, which its
files hold as records, and of the pending entries. Most operations take in no
entry and drop none: what leaves the pending entries arrives at the end of the
active file, also where the operation fails. This is shown from the writing of
one batch upwards.

## Implementation notes

Notes may be written to any file, so each step depends on the note file being
none of the log files.
-/

namespace ResolverLog

open Bytes

namespace Archive

theorem encodeAll_of_batch {entries : List Entry} {text : Bytes} (h : batch entries = .ok text) :
    Record.encodeAll entries = .ok text := by
  rw [batch] at h
  cases he : Record.encodeAll entries with
  | error cause =>
      rw [he] at h
      cases h
  | ok text' =>
      rw [he] at h
      simp only at h
      split at h
      · cases h
      · cases h
        rfl

theorem batch_of_storable {entries : List Entry} (h : ∀ e ∈ entries, e.Storable) :
    batch entries = .ok (ofLines (entries.map Record.line)) := by
  rw [batch, Record.encodeAll_of_storable h]
  simp only [Record.verify_ofLines h]

theorem batch_of_not_storable {entries : List Entry} (h : ∃ e ∈ entries, ¬ e.Storable) :
    ∃ cause, batch entries = .error (.encode cause) := by
  cases he : Record.encodeAll entries with
  | error cause => exact ⟨cause, by rw [batch, he]⟩
  | ok text =>
      obtain ⟨e, hmem, hlimit⟩ := h
      exact absurd ((Record.encodeAll_eq_ok_iff.mp he).1 e hmem) hlimit

end Archive

namespace Service

/-- The path of the log is a path, and the notes go to neither of its files. -/
structure Tidy (s : Service) : Prop where
  noNul : 0 ∉ s.recorder.config.logFile
  apart_active : Path.Apart s.journal.path s.recorder.archive.path
  apart_backup : Path.Apart s.journal.path s.recorder.archive.backupPath

/-- On the way from `s` to `s'` the records of these entries have come behind the text of the
active file, and nothing else has come of the log. -/
structure Appended (s s' : Service) (written : List Entry) : Prop where
  storable : ∀ e ∈ written, e.Storable
  active_eq : s'.files.contents s.recorder.archive.path
    = s.files.contents s.recorder.archive.path ++ ofLines (written.map Record.line)
  backup_eq : s'.files.contents s.recorder.archive.backupPath
    = s.files.contents s.recorder.archive.backupPath

/-- The files hold the records of these entries and nothing else. -/
structure Stored (s : Service) (backup active : List Entry) : Prop where
  backup_eq : Record.encodeAll backup = .ok (s.files.contents s.recorder.archive.backupPath)
  active_eq : Record.encodeAll active = .ok (s.files.contents s.recorder.archive.path)

/-- The way from `s` to `s'` takes in no entries, shows the same ones, and moves entries from
the front of the pending ones to the end of the active file only. Whatever the files are, only
entries within the limits of the format leave the pending ones. -/
structure Keeps (s s' : Service) : Prop where
  logFile_eq : s'.recorder.config.logFile = s.recorder.config.logFile
  journal_eq : s'.journal.path = s.journal.path
  phase_of : s'.recorder.phase = .uninitialized → s.recorder.phase = .uninitialized
  recent_eq : s'.recorder.recent = s.recorder.recent
  pending_eq : ∃ written : List Entry, (∀ e ∈ written, e.Storable) ∧
    s.recorder.pending = written ++ s'.recorder.pending
  appended : s.Tidy → ∃ written, Appended s s' written ∧
    s.recorder.pending = written ++ s'.recorder.pending

/-- The way from `s` to `s'` leaves the statistics alone as well. -/
structure Quiet (s s' : Service) : Prop extends Keeps s s' where
  stats_eq : s'.recorder.stats = s.recorder.stats

variable {s s' s'' : Service}

theorem archive_eq (h : s'.recorder.config.logFile = s.recorder.config.logFile) :
    s'.recorder.archive = s.recorder.archive := by
  rw [Recorder.archive, Recorder.archive, h]

theorem Tidy.of_eq (ht : s.Tidy) (hl : s'.recorder.config.logFile = s.recorder.config.logFile)
    (hj : s'.journal.path = s.journal.path) : s'.Tidy := by
  refine ⟨?_, ?_, ?_⟩
  · rw [hl]
    exact ht.noNul
  · rw [hj, archive_eq hl]
    exact ht.apart_active
  · rw [hj, archive_eq hl]
    exact ht.apart_backup

theorem Stored.of_eq {backup active : List Entry} (hs : s.Stored backup active)
    (hl : s'.recorder.config.logFile = s.recorder.config.logFile)
    (ha : s'.files.contents s.recorder.archive.path = s.files.contents s.recorder.archive.path)
    (hb : s'.files.contents s.recorder.archive.backupPath
      = s.files.contents s.recorder.archive.backupPath) : s'.Stored backup active := by
  constructor
  · rw [archive_eq hl, hb]
    exact hs.backup_eq
  · rw [archive_eq hl, ha]
    exact hs.active_eq

theorem Appended.trans {written more : List Entry} (h : Appended s s' written)
    (hl : s'.recorder.config.logFile = s.recorder.config.logFile)
    (h' : Appended s' s'' more) : Appended s s'' (written ++ more) := by
  have hactive := h'.active_eq
  have hbackup := h'.backup_eq
  rw [archive_eq hl] at hactive hbackup
  refine ⟨?_, ?_, hbackup.trans h.backup_eq⟩
  · intro e he
    rcases List.mem_append.mp he with he | he
    · exact h.storable e he
    · exact h'.storable e he
  · rw [hactive, h.active_eq, List.append_assoc, List.map_append, ofLines_append]

namespace Keeps

/-- Files that hold the records of entries hold besides them those that have come. -/
theorem moved (h : Keeps s s') (ht : s.Tidy) (backup active : List Entry)
    (hs : s.Stored backup active) :
    ∃ written, s'.Stored backup (active ++ written) ∧
      s.recorder.pending = written ++ s'.recorder.pending := by
  obtain ⟨written, happended, hp⟩ := h.appended ht
  refine ⟨written, ⟨?_, ?_⟩, hp⟩
  · rw [archive_eq h.logFile_eq, happended.backup_eq]
    exact hs.backup_eq
  · rw [archive_eq h.logFile_eq, happended.active_eq]
    exact Record.encodeAll_append hs.active_eq (Record.encodeAll_of_storable happended.storable)

theorem tidy (h : Keeps s s') (ht : s.Tidy) : s'.Tidy :=
  ht.of_eq h.logFile_eq h.journal_eq

theorem trans (h : Keeps s s') (h' : Keeps s' s'') : Keeps s s'' := by
  refine ⟨h'.logFile_eq.trans h.logFile_eq, h'.journal_eq.trans h.journal_eq,
    fun hp => h.phase_of (h'.phase_of hp), h'.recent_eq.trans h.recent_eq, ?_, ?_⟩
  · obtain ⟨written, hw, hp⟩ := h.pending_eq
    obtain ⟨written', hw', hp'⟩ := h'.pending_eq
    refine ⟨written ++ written', ?_, by rw [hp, hp', List.append_assoc]⟩
    intro e he
    rcases List.mem_append.mp he with he | he
    · exact hw e he
    · exact hw' e he
  intro ht
  obtain ⟨written, hw, hp⟩ := h.appended ht
  obtain ⟨more, hm, hp'⟩ := h'.appended (h.tidy ht)
  exact ⟨written ++ more, hw.trans h.logFile_eq hm, by rw [hp, hp', List.append_assoc]⟩

end Keeps

namespace Quiet

theorem trans (h : Quiet s s') (h' : Quiet s' s'') : Quiet s s'' :=
  ⟨h.toKeeps.trans h'.toKeeps, h'.stats_eq.trans h.stats_eq⟩

/-- What changes neither the texts of the log nor its entries is quiet. -/
theorem of_eq (hl : s'.recorder.config.logFile = s.recorder.config.logFile)
    (hj : s'.journal.path = s.journal.path)
    (hphase : s'.recorder.phase = .uninitialized → s.recorder.phase = .uninitialized)
    (hrecent : s'.recorder.recent = s.recorder.recent)
    (hstats : s'.recorder.stats = s.recorder.stats)
    (hpending : s'.recorder.pending = s.recorder.pending)
    (htexts : s.Tidy →
      s'.files.contents s.recorder.archive.path = s.files.contents s.recorder.archive.path ∧
      s'.files.contents s.recorder.archive.backupPath
        = s.files.contents s.recorder.archive.backupPath) : Quiet s s' := by
  refine ⟨⟨hl, hj, hphase, hrecent, ⟨[], List.forall_mem_nil _, hpending.symm⟩, ?_⟩, hstats⟩
  intro ht
  obtain ⟨ha, hb⟩ := htexts ht
  exact ⟨[], ⟨List.forall_mem_nil _, ha.trans (List.append_nil _).symm, hb⟩, hpending.symm⟩

theorem refl (s : Service) : Quiet s s :=
  of_eq rfl rfl id rfl rfl rfl fun _ => ⟨rfl, rfl⟩

end Quiet

/-! ## Notes -/

theorem path_note (s : Service) (level : Level) (text : Bytes) :
    (s.note level text).journal.path = s.journal.path := by
  simp only [note, Journal.enter]
  split
  · rfl
  · rfl

/-- A note changes nothing under any other path than that of the note file. -/
theorem node?_note {level : Level} {text other : Bytes} (h : Path.Apart s.journal.path other) :
    (s.note level text).files.node? other = s.files.node? other :=
  Journal.node?_enter h

theorem read?_note {level : Level} {text other : Bytes} (h : Path.Apart s.journal.path other) :
    (s.note level text).files.read? other = s.files.read? other :=
  Journal.read?_enter h

theorem contents_note {level : Level} {text other : Bytes} (h : Path.Apart s.journal.path other) :
    (s.note level text).files.contents other = s.files.contents other :=
  Journal.contents_enter h

theorem quiet_note (s : Service) (level : Level) (text : Bytes) : Quiet s (s.note level text) :=
  Quiet.of_eq rfl (path_note s level text) id rfl rfl rfl
    fun ht => ⟨contents_note ht.apart_active, contents_note ht.apart_backup⟩

theorem Tidy.note (ht : s.Tidy) (level : Level) (text : Bytes) : (s.note level text).Tidy :=
  ht.of_eq rfl (path_note s level text)

theorem Stored.note {backup active : List Entry} (hs : s.Stored backup active) (ht : s.Tidy)
    (level : Level) (text : Bytes) : (s.note level text).Stored backup active :=
  hs.of_eq rfl (contents_note ht.apart_active) (contents_note ht.apart_backup)

@[simp] theorem recorder_debug (s : Service) (text : Option Bytes) :
    (s.debug text).recorder = s.recorder := by
  cases text with
  | none => rfl
  | some text => rfl

theorem quiet_debug (s : Service) (text : Option Bytes) : Quiet s (s.debug text) := by
  cases text with
  | none => exact Quiet.refl s
  | some text => exact quiet_note s .debug text

/-! ## Writing -/

/-- Writing a batch fails and changes no entry, or puts the batch behind the active file. -/
theorem write_cases (s : Service) (entries : List Entry) :
    (s.write entries).1.recorder = s.recorder ∧
      ((∃ cause, (s.write entries).2 = .error cause ∧ Quiet s (s.write entries).1) ∨
      ((s.write entries).2 = .ok () ∧ (∀ e ∈ entries, e.Storable) ∧
        (s.write entries).1.journal.path = s.journal.path ∧
        (s.Tidy → Appended s (s.write entries).1 entries))) := by
  rw [write]
  cases hb : Archive.batch entries with
  | error cause => exact ⟨rfl, Or.inl ⟨cause, rfl, Quiet.refl s⟩⟩
  | ok text =>
      simp only
      generalize ascii "querylog: check ok: " ++ _ ++ _ = check
      generalize ascii "querylog: " ++ _ ++ _ ++ _ ++ _ = serialized
      have hquiet := (quiet_note s .debug check).trans (quiet_note _ .debug serialized)
      cases hp : s.recorder.archive.put
          ((s.note .debug check).note .debug serialized).files text with
      | error cause => exact ⟨rfl, Or.inl ⟨cause, rfl, hquiet⟩⟩
      | ok files =>
          obtain ⟨hall, rfl⟩ := Record.encodeAll_eq_ok_iff.mp (Archive.encodeAll_of_batch hb)
          obtain ⟨hactive, hother⟩ := Archive.contents_put hp
          refine ⟨rfl, Or.inr ⟨rfl, hall, (path_note _ _ _).trans hquiet.journal_eq, ?_⟩⟩
          intro ht
          have ht' : Tidy { (s.note .debug check).note .debug serialized with files } :=
            ((ht.note .debug check).note .debug serialized).of_eq rfl rfl
          have hnoted := ht.note .debug check
          refine ⟨hall, ?_, ?_⟩
          · apply (contents_note ht'.apart_active).trans
            apply hactive.trans
            apply congrArg (· ++ ofLines (entries.map Record.line))
            exact (contents_note hnoted.apart_active).trans (contents_note ht.apart_active)
          · apply (contents_note ht'.apart_backup).trans
            apply (hother _ (Archive.apart_backupPath ht.noNul)).trans
            exact (contents_note hnoted.apart_backup).trans (contents_note ht.apart_backup)

/-- A flush moves no entry or all pending ones, and nothing else that the log shows. -/
theorem quiet_flush (s : Service) (full : Bool) : Quiet s (s.flush full).1 := by
  rw [flush]
  simp only
  split
  · exact Quiet.refl s
  · have hwake : Quiet s { s with recorder := { s.recorder with wakeRequested := false } } :=
      Quiet.of_eq rfl rfl id rfl rfl rfl fun _ => ⟨rfl, rfl⟩
    split
    · exact hwake
    · apply hwake.trans
      generalize hw : { s with recorder := { s.recorder with wakeRequested := false } } = woken
      have hpending : s.recorder.pending = woken.recorder.pending := by rw [← hw]
      rw [hpending]
      obtain ⟨hrecorder, ⟨cause, hr, hquiet⟩ | ⟨hr, hall, hjournal, happended⟩⟩ :=
        write_cases woken woken.recorder.pending
      · split
        · rename_i written heq
          rw [heq] at hr
          cases hr
        · rename_i written cause' heq
          rw [heq] at hquiet
          exact hquiet
      · split
        · rename_i written heq
          rw [heq] at hrecorder hjournal happended
          simp only at hrecorder hjournal
          refine ⟨⟨?_, hjournal, ?_, ?_, ?_, ?_⟩, ?_⟩
          · simp only [hrecorder]
          · simp only [hrecorder]
            exact id
          · simp only [hrecorder]
          · exact ⟨woken.recorder.pending, hall, (List.append_nil _).symm⟩
          · intro ht
            obtain ⟨-, hactive, hbackup⟩ := happended ht
            exact ⟨woken.recorder.pending, ⟨hall, hactive, hbackup⟩, (List.append_nil _).symm⟩
          · simp only [hrecorder]
        · rename_i written cause' heq
          rw [heq] at hr
          cases hr

/-- A full flush whose failure is noted and does not matter otherwise. -/
def flushNoting (s : Service) (text : Service → LogError → Bytes) : Service :=
  match s.flush true with
  | (s, .ok ()) => s
  | (s, .error e) => s.note .error (text s e)

/-- A flush changes the recorder in its pending entries only. -/
theorem recorder_flush (s : Service) (full : Bool) :
    ∃ pending wakeRequested,
      (s.flush full).1.recorder = { s.recorder with pending, wakeRequested } := by
  rw [flush]
  simp only
  split
  · exact ⟨_, _, rfl⟩
  · split
    · exact ⟨_, _, rfl⟩
    · have hrecorder := (write_cases
        { s with recorder := { s.recorder with wakeRequested := false } } s.recorder.pending).1
      split
      · rename_i written heq
        rw [heq] at hrecorder
        exact ⟨[], false, congrArg (fun r : Recorder => { r with pending := [] }) hrecorder⟩
      · rename_i written cause heq
        rw [heq] at hrecorder
        exact ⟨_, _, hrecorder⟩

theorem recorder_flushNoting (s : Service) (text : Service → LogError → Bytes) :
    ∃ pending wakeRequested,
      (s.flushNoting text).recorder = { s.recorder with pending, wakeRequested } := by
  have hflush := recorder_flush s true
  rw [flushNoting]
  split
  · rename_i flushed heq
    rw [heq] at hflush
    exact hflush
  · rename_i flushed e heq
    rw [heq] at hflush
    exact hflush

theorem config_flushNoting (s : Service) (text : Service → LogError → Bytes) :
    (s.flushNoting text).recorder.config = s.recorder.config := by
  obtain ⟨_, _, hrecorder⟩ := recorder_flushNoting s text
  rw [hrecorder]

theorem quiet_flushNoting (s : Service) (text : Service → LogError → Bytes) :
    Quiet s (s.flushNoting text) := by
  have hflush := quiet_flush s true
  rw [flushNoting]
  split
  · rename_i flushed heq
    rw [heq] at hflush
    exact hflush
  · rename_i flushed e heq
    rw [heq] at hflush
    exact hflush.trans (quiet_note _ _ _)

/-! ## Tasks and stopping -/

theorem quiet_startBackground (s : Service) : Quiet s s.startBackground := by
  rw [startBackground]
  split
  · exact Quiet.refl s
  · exact Quiet.of_eq rfl rfl id rfl rfl rfl fun _ => ⟨rfl, rfl⟩

/-- Telling the writer how its run ended is quiet. -/
theorem quiet_setWriter (s : Service) (writer : Option Task) :
    Quiet s { s with recorder := { s.recorder with writer } } :=
  Quiet.of_eq rfl rfl id rfl rfl rfl fun _ => ⟨rfl, rfl⟩

theorem quiet_runWriter (s : Service) (writer : Task) : Quiet s (s.runWriter writer) := by
  have hflush := quiet_flush s true
  rw [runWriter]
  split
  · rename_i flushed heq
    rw [heq] at hflush
    exact hflush.trans (quiet_setWriter _ _)
  · rename_i flushed e heq
    rw [heq] at hflush
    exact (hflush.trans (quiet_setWriter _ _)).trans (quiet_note _ _ _)

theorem quiet_settle (s : Service) : Quiet s s.settle := by
  rw [settle]
  split
  · split
    · exact quiet_runWriter s _
    · exact Quiet.refl s
  · exact Quiet.refl s

theorem quiet_awaitPending (s : Service) (patienceMs n : Nat) :
    Quiet s (s.awaitPending patienceMs n) := by
  rw [awaitPending]
  split
  · split
    · exact quiet_runWriter s _
    · exact Quiet.refl s
  · exact Quiet.refl s

theorem quiet_stopBackground (s : Service) : Quiet s s.stopBackground := by
  rw [stopBackground]
  split
  · exact Quiet.refl s
  · exact (((quiet_setWriter s none).trans (quiet_note _ _ _)).trans (quiet_note _ _ _)).trans
      (quiet_note _ _ _)

/-- What stopping does to a running recorder once the background tasks have ended. -/
def finish (s : Service) : Service :=
  ({ s with recorder := { s.recorder with phase := .stopped } }.flushNoting fun s e =>
    ascii "querylog: final flush failed, " ++ Decimal.ofNat s.recorder.pending.length
      ++ ascii " entries not saved: " ++ e.message).note .info (ascii "QueryLog: stopped")

theorem stop_eq (s : Service) :
    s.stop = if s.stopBackground.recorder.phase = .running then s.stopBackground.finish
      else s.stopBackground := by
  rw [stop]
  simp only
  cases h : s.stopBackground.recorder.phase with
  | uninitialized => rfl
  | running => rfl
  | stopped => rfl

/-- Stopping writes what is pending, or leaves it pending. -/
theorem quiet_stop (s : Service) : Quiet s s.stop := by
  have hbackground := quiet_stopBackground s
  rw [stop_eq]
  split
  · refine hbackground.trans ((Quiet.trans ?_ (quiet_flushNoting _ _)).trans (quiet_note _ _ _))
    exact Quiet.of_eq rfl rfl (fun h => by cases h) rfl rfl rfl fun _ => ⟨rfl, rfl⟩
  · exact hbackground

/-! ## Changing the configuration -/

/-- Saving and adopting a configuration with the same log is quiet. -/
theorem quiet_adopt (s : Service) (config : Config)
    (hl : config.logFile = s.recorder.config.logFile) : Quiet s (s.adopt config).1 := by
  have hsave : s.Tidy →
      (Settings.save s.files (Settings.path config) config).1.contents s.recorder.archive.path
          = s.files.contents s.recorder.archive.path ∧
        (Settings.save s.files (Settings.path config) config).1.contents
            s.recorder.archive.backupPath = s.files.contents s.recorder.archive.backupPath := by
    intro ht
    have hnul : 0 ∉ config.logFile := by
      rw [hl]
      exact ht.noNul
    have hsave := Config.contents_save s.files hnul
    rw [hl] at hsave
    exact hsave
  rw [adopt]
  split
  · rename_i files heq
    rw [heq] at hsave
    refine Quiet.trans ?_ (quiet_note _ _ _)
    exact Quiet.of_eq hl rfl id rfl rfl rfl hsave
  · rename_i files cause heq
    rw [heq] at hsave
    exact Quiet.of_eq rfl rfl id rfl rfl rfl hsave

/-- What configuring does first. -/
def flushedFirst (s : Service) : Service :=
  s.flushNoting fun _ e => ascii "querylog: flush before reconfigure failed: " ++ e.message

theorem configure_eq (s : Service) (enabled : Bool) (intervalHours : UInt32)
    (h : Config.isSupportedInterval intervalHours = true) :
    s.configure enabled intervalHours =
      match s.flushedFirst.adopt { s.flushedFirst.recorder.config with enabled, intervalHours } with
      | (s, .error e) => (s, .error e)
      | (adopted, .ok ()) =>
        let noted := adopted.note .info (ascii "querylog: configured enabled="
          ++ Settings.boolText enabled
          ++ ascii " interval=" ++ Decimal.ofNat intervalHours.toNat ++ ascii "h")
        if s.flushedFirst.recorder.config.intervalHours ≠ intervalHours
            && noted.recorder.writer.isSome then
          (noted.note .debug (ascii "task log-rotate stopped"), .ok ())
        else (noted, .ok ()) := by
  rw [configure, h]
  rfl

/-- Configuring writes what is pending, or leaves it pending. -/
theorem quiet_configure (s : Service) (enabled : Bool) (hours : UInt32) :
    Quiet s (s.configure enabled hours).1 := by
  by_cases hsupported : Config.isSupportedInterval hours = true
  · have hflushed : Quiet s s.flushedFirst := quiet_flushNoting s _
    have hadopt := quiet_adopt s.flushedFirst
      { s.flushedFirst.recorder.config with enabled, intervalHours := hours } rfl
    rw [configure_eq s enabled hours hsupported]
    split
    · rename_i adopted e heq
      rw [heq] at hadopt
      exact hflushed.trans hadopt
    · rename_i adopted heq
      rw [heq] at hadopt
      have hadopted := hflushed.trans hadopt
      simp only
      split
      · exact (hadopted.trans (quiet_note _ _ _)).trans (quiet_note _ _ _)
      · exact hadopted.trans (quiet_note _ _ _)
  · rw [configure, Bool.eq_false_of_not_eq_true hsupported]
    exact Quiet.refl s

/-- The statistics are not part of what the log keeps. -/
theorem keeps_setStats (s : Service) (stats : HourlyStats) :
    Keeps s { s with recorder := { s.recorder with stats } } :=
  ⟨rfl, rfl, id, rfl, ⟨[], List.forall_mem_nil _, rfl⟩,
    fun _ => ⟨[], ⟨List.forall_mem_nil _, (List.append_nil _).symm, rfl⟩, rfl⟩⟩

theorem keeps_setStatsHours (s : Service) (hours : UInt32) : Keeps s (s.setStatsHours hours).1 := by
  rw [setStatsHours]
  split
  · exact (Quiet.refl s).toKeeps
  · rename_i stats _
    have hadopt := (quiet_adopt s { s.recorder.config with statsHours := hours } rfl).toKeeps
    split
    · rename_i adopted e heq
      rw [heq] at hadopt
      exact hadopt
    · rename_i adopted heq
      rw [heq] at hadopt
      exact (hadopt.trans (keeps_setStats _ _)).trans (quiet_note _ _ _).toKeeps

theorem keeps_rotateHour (s : Service) : Keeps s s.rotateHour :=
  (keeps_setStats s _).trans (quiet_note _ _ _).toKeeps

end Service

end ResolverLog
