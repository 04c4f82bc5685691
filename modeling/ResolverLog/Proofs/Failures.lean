import ResolverLog.Proofs.Admission
import ResolverLog.Proofs.Conservation

/-!
# What failing operations leave

An operation that reports a failure has stored nothing and has not begun to
change the recorder, so the log is what it was before: a flush keeps the batch,
a rotation both files, and a change of the settings the settings, in memory and
on disk. What configuring writes beforehand only moves from the pending entries
to the active file.

Clearing is the exception. The view and the pending entries are gone before the
first file is removed, and the active file is when the removal of the backup
fails.

## Implementation notes

All operations may write notes, also when they fail, and saving settings may
leave a temporary file. `Spares` names the paths under which something may have
changed, so that all others are as they were.
-/

namespace ResolverLog

open Bytes

namespace Service

variable {s s' s'' : Service} {e : LogError} {entries : List Entry} {others : List Bytes}

/-! ## What is not touched -/

/-- On the way from `s` to `s'` nothing changes under any path but those in `others` and that of the
note file. -/
structure Spares (others : List Bytes) (s s' : Service) : Prop where
  journal_eq : s'.journal.path = s.journal.path
  node?_eq : ∀ path, Path.Apart s.journal.path path → (∀ other ∈ others, Path.Apart other path) →
    s'.files.node? path = s.files.node? path

namespace Spares

theorem refl (others : List Bytes) (s : Service) : Spares others s s :=
  ⟨rfl, fun _ _ _ => rfl⟩

theorem trans (h : Spares others s s') (h' : Spares others s' s'') : Spares others s s'' := by
  constructor
  · exact h'.journal_eq.trans h.journal_eq
  · intro path hnotes hothers
    apply (h'.node?_eq path _ hothers).trans (h.node?_eq path hnotes hothers)
    rw [h.journal_eq]
    exact hnotes

theorem note (h : Spares others s s') (level : Level) (text : Bytes) :
    Spares others s (s'.note level text) := by
  apply h.trans
  constructor
  · exact path_note s' level text
  · intro path hnotes _
    exact node?_note hnotes

theorem mono {more : List Bytes} (h : Spares others s s') (hsub : others ⊆ more) :
    Spares more s s' :=
  ⟨h.journal_eq, fun path hnotes hmore => h.node?_eq path hnotes fun other hother =>
    hmore other (hsub hother)⟩

end Spares

/-! ## Flushing and rotating -/

/-- Writing touches the active file, and not even that when it fails. -/
theorem spares_write (s : Service) (entries : List Entry) :
    Spares [s.recorder.archive.path] s (s.write entries).1 ∧
      ∀ cause, (s.write entries).2 = .error cause → Spares [] s (s.write entries).1 := by
  rw [write]
  cases Archive.batch entries with
  | error cause => exact ⟨Spares.refl _ s, fun _ _ => Spares.refl _ s⟩
  | ok text =>
      simp only
      generalize ascii "querylog: check ok: " ++ _ ++ _ = check
      generalize ascii "querylog: " ++ _ ++ _ ++ _ ++ _ = serialized
      have hnotes : ∀ others, Spares others s ((s.note .debug check).note .debug serialized) :=
        fun others => ((Spares.refl others s).note .debug check).note .debug serialized
      generalize (s.note .debug check).note .debug serialized = noted at hnotes ⊢
      cases hp : s.recorder.archive.put noted.files text with
      | error cause => exact ⟨hnotes _, fun _ _ => hnotes _⟩
      | ok files =>
          constructor
          · apply Spares.note
            refine ⟨(hnotes []).journal_eq, ?_⟩
            intro path hpath hothers
            apply (Archive.node?_put hp (hothers _ List.mem_cons_self)).trans
            exact (hnotes []).node?_eq path hpath (List.forall_mem_nil _)
          · intro cause h
            cases h

/-- A flush that fails keeps the batch and touches no file. -/
theorem flush_of_error {full : Bool} (h : s.flush full = (s', .error e)) :
    s'.recorder = s.calmed.recorder ∧ Spares [] s s' := by
  rw [flush] at h
  split at h
  · cases h
  · simp only at h
    split at h
    · cases h
    · split at h
      · cases h
      · rename_i written cause hwrite
        cases h
        have hrecorder := (write_cases s.calmed s.recorder.pending).1
        have hspares := (spares_write s.calmed s.recorder.pending).2 cause
        rw [calmed, hwrite] at hrecorder hspares
        exact ⟨hrecorder, (hspares rfl).journal_eq, (hspares rfl).node?_eq⟩

/-- A flush touches the active file. -/
theorem spares_flush (s : Service) (full : Bool) :
    Spares [s.recorder.archive.path] s (s.flush full).1 := by
  rw [flush]
  simp only
  split
  · exact Spares.refl _ s
  · split
    · exact ⟨rfl, fun _ _ _ => rfl⟩
    · have hspares := (spares_write s.calmed s.recorder.pending).1
      rw [calmed] at hspares
      split
      · rename_i written hwrite
        rw [hwrite] at hspares
        exact ⟨hspares.journal_eq, hspares.node?_eq⟩
      · rename_i written cause hwrite
        rw [hwrite] at hspares
        exact ⟨hspares.journal_eq, hspares.node?_eq⟩

theorem spares_flushedFirst (s : Service) :
    Spares [s.recorder.archive.path] s s.flushedFirst := by
  have hflush := spares_flush s true
  rw [flushedFirst, flushNoting]
  split
  · rename_i flushed heq
    rw [heq] at hflush
    exact hflush
  · rename_i flushed e heq
    rw [heq] at hflush
    exact hflush.note _ _

/-- A rotation that fails changes nothing. -/
theorem rotateLog_of_error (h : s.rotateLog = (s', .error e)) : s' = s := by
  rw [rotateLog] at h
  split at h
  · cases h
  · cases h
  · cases h
    rfl

/-! ## Changing the settings -/

/-- Adopting a configuration fails when it cannot be saved, and then only the temporary file can
have changed. -/
theorem adopt_of_error {config : Config} (h : s.adopt config = (s', .error e)) :
    s'.recorder = s.recorder ∧ e.isValidation = false ∧
      Spares [Settings.temporaryPath (Settings.path config)] s s' := by
  rw [adopt] at h
  split at h
  · cases h
  · rename_i files cause hsave
    cases h
    refine ⟨rfl, rfl, rfl, ?_⟩
    intro path _ hothers
    exact Settings.node?_save_of_error hsave (hothers _ List.mem_cons_self)

/-- Hours that cannot be retained change nothing, and hours that cannot be saved change at most the
temporary file. -/
theorem setStatsHours_of_error {hours : UInt32} (h : s.setStatsHours hours = (s', .error e)) :
    s'.recorder = s.recorder ∧
      Spares [Settings.temporaryPath (Settings.path s.recorder.config)] s s' := by
  rw [setStatsHours] at h
  split at h
  · cases h
    exact ⟨rfl, Spares.refl _ _⟩
  · split at h
    · rename_i adopted cause hadopt
      cases h
      obtain ⟨hrecorder, -, hspares⟩ := adopt_of_error hadopt
      exact ⟨hrecorder, hspares⟩
    · cases h

/-- An interval that is not supported changes nothing. A configuration that cannot be saved is not
adopted, but what was pending may have been written before. -/
theorem configure_of_error {enabled : Bool} {hours : UInt32}
    (h : s.configure enabled hours = (s', .error e)) :
    (e.isValidation = true ∧ s' = s) ∨
      (e.isValidation = false ∧ Quiet s s' ∧ s'.recorder.config = s.recorder.config ∧
        Spares [s.recorder.archive.path,
          Settings.temporaryPath (Settings.path s.recorder.config)] s s') := by
  by_cases hi : Config.isSupportedInterval hours = true
  · right
    have hquiet := quiet_configure s enabled hours
    have hflushed : s.flushedFirst.recorder.config = s.recorder.config := config_flushNoting s _
    rw [h] at hquiet
    rw [configure_eq s enabled hours hi] at h
    split at h
    · rename_i adopted cause hadopt
      cases h
      obtain ⟨hrecorder, hvalidation, hspares⟩ := adopt_of_error hadopt
      refine ⟨hvalidation, hquiet, ?_, ?_⟩
      · rw [hrecorder, hflushed]
      · apply ((spares_flushedFirst s).mono (by simp)).trans
        apply hspares.mono
        rw [hflushed]
        exact List.subset_cons_self _ _
    · simp only at h
      split at h
      · cases h
      · cases h
  · left
    rw [configure, Bool.eq_false_of_not_eq_true hi] at h
    cases h
    exact ⟨rfl, rfl⟩

/-! ## Clearing -/

theorem clear_eq_error (h : s.clear = (s', .error e)) :
    s'.journal = s.journal ∧ ∃ cause, e = .archive cause ∧
      s.recorder.archive.clear s.files = (s'.files, .error cause) := by
  rw [clear] at h
  simp only at h
  split at h
  · rename_i files cause hclear
    cases h
    exact ⟨rfl, cause, rfl, hclear⟩
  · cases h

/-- Also after a clearing that fails the files hold the records of entries. -/
theorem Stored.clear {backup active : List Entry} (hs : s.Stored backup active) (ht : s.Tidy) :
    s.clear.1.journal.path = s.journal.path ∧
      ∃ backup' active', s.clear.1.Stored backup' active' := by
  have hlog : s.clear.1.recorder.config.logFile = s.recorder.config.logFile := by
    rw [recorder_clear]
  cases hr : s.clear.2 with
  | ok _ =>
      obtain ⟨hjournal, hstored⟩ := clear_of_ok hr
      exact ⟨hjournal, [], [], hstored ht⟩
  | error e =>
      obtain ⟨hjournal, cause, -, hclear⟩ := clear_eq_error (Prod.ext rfl hr)
      refine ⟨congrArg Journal.path hjournal, backup, ?_⟩
      rcases Archive.clear_of_error ht.noNul hclear with ⟨-, -, hfiles⟩ | ⟨-, -, hactive, hbackup⟩
      · refine ⟨active, hs.of_eq hlog ?_ ?_⟩
        · rw [hfiles]
        · rw [hfiles]
      · refine ⟨[], ?_, ?_⟩
        · rw [archive_eq hlog, Files.contents_eq_of_node? hbackup]
          exact hs.backup_eq
        · rw [archive_eq hlog, hactive]
          rfl

/-! ## Logs that nobody else writes to -/

/-- The path of the log is a path, the notes go to none of its files, and these hold the records of
entries. -/
structure Standing (s : Service) : Prop extends Tidy s where
  apart_settings : Path.Apart s.journal.path (Settings.path s.recorder.config)
  stored : ∃ backup active, s.Stored backup active

namespace Standing

theorem of_eq (h : Standing s) (hlog : s'.recorder.config.logFile = s.recorder.config.logFile)
    (hjournal : s'.journal.path = s.journal.path)
    (hstored : ∃ backup active, s'.Stored backup active) : Standing s' := by
  refine ⟨h.toTidy.of_eq hlog hjournal, ?_, hstored⟩
  rw [hjournal, Settings.path, hlog]
  exact h.apart_settings

theorem keeps (h : Standing s) (hk : s.Keeps s') : Standing s' := by
  obtain ⟨backup, active, hs⟩ := h.stored
  obtain ⟨written, hs', -⟩ := hk.moved h.toTidy backup active hs
  exact h.of_eq hk.logFile_eq hk.journal_eq ⟨backup, active ++ written, hs'⟩

/-- A recorder that changes in memory stands on the same files. -/
theorem setRecorder (h : Standing s) (r : Recorder)
    (hlog : r.config.logFile = s.recorder.config.logFile) :
    Standing { s with recorder := r } := by
  obtain ⟨backup, active, hs⟩ := h.stored
  exact h.of_eq hlog rfl ⟨backup, active, hs.of_eq hlog rfl rfl⟩

/-- Without a rotation or a clearing entries only go from the pending ones to the active file. -/
theorem entries_of_quiet (h : Standing s) (hq : Quiet s s') :
    ∃ backup active active',
      Record.decodeAll (s.files.contents s.recorder.archive.backupPath) = .ok backup ∧
      Record.decodeAll (s.files.contents s.recorder.archive.path) = .ok active ∧
      Record.decodeAll (s'.files.contents s.recorder.archive.backupPath) = .ok backup ∧
      Record.decodeAll (s'.files.contents s.recorder.archive.path) = .ok active' ∧
      backup ++ active' ++ s'.recorder.pending = backup ++ active ++ s.recorder.pending := by
  obtain ⟨backup, active, hs⟩ := h.stored
  obtain ⟨written, hs', hpending⟩ := hq.moved h.toTidy backup active hs
  have harchive := archive_eq hq.logFile_eq
  refine ⟨backup, active, active ++ written, ?_, ?_, ?_, ?_, ?_⟩
  · exact Record.decodeAll_of_encodeAll hs.backup_eq
  · exact Record.decodeAll_of_encodeAll hs.active_eq
  · rw [← harchive]
    exact Record.decodeAll_of_encodeAll hs'.backup_eq
  · rw [← harchive]
    exact Record.decodeAll_of_encodeAll hs'.active_eq
  · rw [hpending]
    simp only [List.append_assoc]

/-- Every operation keeps a log standing, whether it succeeds or not. -/
theorem apply (h : Standing s) (op : Op) : Standing (op.apply s) := by
  cases op.effect s with
  | keeps kept => exact h.keeps kept
  | @starts now phase =>
      exact (h.setRecorder (s.restored now).opened.recorder rfl).keeps
        (quiet_start phase now).toKeeps
  | @takes e now accepted =>
      exact (h.setRecorder (s.taken e now).recorder rfl).keeps (quiet_ingest accepted).toKeeps
  | rotates =>
      by_cases hrotates : s.Rotates
      · obtain ⟨hrecorder, hjournal, hstored⟩ := rotateLog_of_rotates h.toTidy hrotates
        obtain ⟨backup, active, hs⟩ := h.stored
        exact h.of_eq (by rw [Op.apply, hrecorder]) hjournal ⟨active, [], hstored _ _ hs⟩
      · rw [Op.apply, rotateLog_eq_of_not_rotates h.toTidy hrotates]
        exact h
  | clears =>
      obtain ⟨backup, active, hs⟩ := h.stored
      obtain ⟨hjournal, hstored⟩ := hs.clear h.toTidy
      exact h.of_eq (by rw [Op.apply, recorder_clear]) hjournal hstored

end Standing

end Service

namespace Run

variable {config : Config} {files : Files} {journal : Journal} {s : Service} {l : Ledger}

/-- A log that begins standing stands after every run, failing operations included. -/
theorem standing (hs : Service.Standing ⟨.new config, files, journal⟩)
    (run : Run (fun _ _ => True) (.launch config files journal) s l) : s.Standing := by
  induction run with
  | launched => exact hs.keeps (Service.quiet_launch config files journal).toKeeps
  | call run op ok ih => exact ih.apply op
  | outside run files active backup ih =>
      obtain ⟨b, a, hstored⟩ := ih.stored
      exact ih.of_eq rfl rfl ⟨b, a, hstored.of_eq rfl active backup⟩

/-- In every run a flush that fails leaves the pending entries and both log files as they are, a
rotation that fails changes nothing, hours that cannot be set leave the recorder and the settings
file and touch no path but that of the temporary file, and an interval that is not supported
changes nothing. A configuration that cannot be saved leaves the configuration, the statistics and
the settings file, and the backup, the active file and the pending entries together hold the same
entries. -/
theorem failures_keep (hs : Service.Standing ⟨.new config, files, journal⟩)
    (run : Run (fun _ _ => True) (.launch config files journal) s l) :
    (∀ full s' e, s.flush full = (s', .error e) →
      s'.recorder.pending = s.recorder.pending ∧
      s'.files.node? s.recorder.archive.path = s.files.node? s.recorder.archive.path ∧
      s'.files.node? s.recorder.archive.backupPath
        = s.files.node? s.recorder.archive.backupPath) ∧
    (∀ s' e, s.rotateLog = (s', .error e) → s' = s) ∧
    (∀ hours s' e, s.setStatsHours hours = (s', .error e) →
      s'.recorder = s.recorder ∧
      s'.files.node? (Settings.path s.recorder.config)
        = s.files.node? (Settings.path s.recorder.config) ∧
      ∀ path, Path.Apart s.journal.path path →
        Path.Apart (Settings.temporaryPath (Settings.path s.recorder.config)) path →
        s'.files.node? path = s.files.node? path) ∧
    ∀ enabled hours s' e, s.configure enabled hours = (s', .error e) →
      (e.isValidation = true → s' = s) ∧
      (e.isValidation = false →
        s'.recorder.config = s.recorder.config ∧ s'.recorder.stats = s.recorder.stats ∧
        s'.files.node? (Settings.path s.recorder.config)
          = s.files.node? (Settings.path s.recorder.config) ∧
        ∃ backup active active',
          Record.decodeAll (s.files.contents s.recorder.archive.backupPath) = .ok backup ∧
          Record.decodeAll (s.files.contents s.recorder.archive.path) = .ok active ∧
          Record.decodeAll (s'.files.contents s.recorder.archive.backupPath) = .ok backup ∧
          Record.decodeAll (s'.files.contents s.recorder.archive.path) = .ok active' ∧
          backup ++ active' ++ s'.recorder.pending = backup ++ active ++ s.recorder.pending) := by
  have hstanding := run.standing hs
  have hsettings := Config.apart_temporary_settings hstanding.noNul
  refine ⟨?_, ?_, ?_, ?_⟩
  · intro full s' e h
    obtain ⟨hrecorder, hspares⟩ := Service.flush_of_error h
    refine ⟨?_, ?_, ?_⟩
    · rw [hrecorder]
      rfl
    · exact hspares.node?_eq _ hstanding.apart_active (List.forall_mem_nil _)
    · exact hspares.node?_eq _ hstanding.apart_backup (List.forall_mem_nil _)
  · intro s' e h
    exact Service.rotateLog_of_error h
  · intro hours s' e h
    obtain ⟨hrecorder, hspares⟩ := Service.setStatsHours_of_error h
    refine ⟨hrecorder, ?_, ?_⟩
    · exact hspares.node?_eq _ hstanding.apart_settings (by simpa using hsettings)
    · intro path hnotes htemporary
      exact hspares.node?_eq path hnotes (by simpa using htemporary)
  · intro enabled hours s' e h
    rcases Service.configure_of_error h with
      ⟨hvalidation, rfl⟩ | ⟨hvalidation, hquiet, hconfig, hspares⟩
    · refine ⟨fun _ => rfl, fun hfalse => ?_⟩
      rw [hvalidation] at hfalse
      cases hfalse
    · refine ⟨fun htrue => ?_, fun _ => ⟨hconfig, hquiet.stats_eq, ?_, ?_⟩⟩
      · rw [hvalidation] at htrue
        cases htrue
      · apply hspares.node?_eq _ hstanding.apart_settings
        have hactive := Path.apart_append hstanding.noNul Config.isSuffix_settings
        simpa using ⟨hactive, hsettings⟩
      · exact hstanding.entries_of_quiet hquiet

/-- A service that has a directory in the place of its settings file, with one entry pending. -/
def unsaving : Service × Ledger :=
  Op.applyAll (.launch .small (Files.empty.makeDirectories (ascii "q.log.conf")) .silent) .empty
    [.start 5, .ingest (.asking 1) 5]

theorem unsaving_spec :
    (unsaving.1.configure false 24).2
        = .error (.save (.replaceFailed (ascii "q.log.conf") .isDirectory)) ∧
      (unsaving.1.configure false 24).1.recorder.pending = [] ∧
      unsaving.1.recorder.pending = [.asking 1] ∧
      Record.decodeAll (unsaving.1.files.contents unsaving.1.recorder.archive.path) = .ok [] ∧
      Record.decodeAll (unsaving.1.files.contents unsaving.1.recorder.archive.backupPath)
        = .ok [] := by
  decide +kernel

/-- Recording cannot be switched off there, because that cannot be saved. The pending entry goes to
the active file all the same. -/
theorem failures_keep_unsaving :
    (unsaving.1.configure false 24).2
      = .error (.save (.replaceFailed (ascii "q.log.conf") .isDirectory)) ∧
    (unsaving.1.configure false 24).1.recorder.config = unsaving.1.recorder.config ∧
    (unsaving.1.configure false 24).1.recorder.pending = [] ∧
    ∃ active,
      Record.decodeAll
          ((unsaving.1.configure false 24).1.files.contents unsaving.1.recorder.archive.path)
        = .ok active ∧
      active ++ (unsaving.1.configure false 24).1.recorder.pending = [.asking 1] := by
  have hs : Service.Standing
      ⟨.new .small, Files.empty.makeDirectories (ascii "q.log.conf"), .silent⟩ := by
    refine ⟨⟨by decide, Journal.apart_silent _, Journal.apart_silent _⟩, Journal.apart_silent _,
      [], [], ?_, ?_⟩
    · decide
    · decide
  obtain ⟨hfailed, hwritten, hpending, hnone', hnone⟩ := unsaving_spec
  have run : Run (fun _ _ => True)
      (.launch .small (Files.empty.makeDirectories (ascii "q.log.conf")) .silent)
      unsaving.1 unsaving.2 :=
    Run.applyAll .launched [.start 5, .ingest (.asking 1) 5] fun _ _ _ => trivial
  obtain ⟨-, -, -, hconfigure⟩ := failures_keep hs run
  obtain ⟨hconfig, -, -, backup, active, active', hbackup, hactive, -, hactive', hentries⟩ :=
    (hconfigure false 24 _ _ (Prod.ext rfl hfailed)).2 rfl
  obtain rfl : [] = backup := Except.ok.inj (hnone.symm.trans hbackup)
  obtain rfl : [] = active := Except.ok.inj (hnone'.symm.trans hactive)
  refine ⟨hfailed, hconfig, hwritten, active', hactive', ?_⟩
  rwa [hpending] at hentries

end Run

/-! ## What a failing clearing loses -/

/-- The entries that can be read in a file. -/
def Files.records (files : Files) (path : Bytes) : List Entry :=
  (lines (files.contents path)).filterMap fun line => (Record.decode line).toOption

namespace Archive

variable {archive : Archive} {files files' : Files} {e : ArchiveError}

theorem backupPath_ne_path (archive : Archive) : archive.backupPath ≠ archive.path := by
  intro heq
  have hlength := congrArg List.length heq
  simp [backupPath, ascii] at hlength

/-- A clearing that fails keeps the records of the backup. It keeps the active file as well when it
fails there, and none of its records when it fails at the backup. -/
theorem records_of_clear_error (hp : 0 ∉ archive.path)
    (h : archive.clear files = (files', .error e)) :
    files'.records archive.backupPath = files.records archive.backupPath ∧
      ((∃ cause, e = .removeFailed archive.path cause) ∧ files' = files ∨
        (∃ cause, e = .removeFailed archive.backupPath cause) ∧
          files'.records archive.path = []) := by
  rcases clear_of_error hp h with ⟨cause, rfl, rfl⟩ | ⟨cause, rfl, hactive, hbackup⟩
  · exact ⟨rfl, .inl ⟨⟨cause, rfl⟩, rfl⟩⟩
  · refine ⟨?_, .inr ⟨⟨cause, rfl⟩, ?_⟩⟩
    · rw [Files.records, Files.records, Files.contents_eq_of_node? hbackup]
    · rw [Files.records, hactive]
      rfl

theorem records_path_eq_iff_of_clear_error (hp : 0 ∉ archive.path)
    (h : archive.clear files = (files', .error e)) :
    files'.records archive.path = files.records archive.path ↔
      (∃ cause, e = .removeFailed archive.path cause) ∨ files.records archive.path = [] := by
  rcases (records_of_clear_error hp h).2 with ⟨hfailed, rfl⟩ | ⟨⟨cause, rfl⟩, hlost⟩
  · exact iff_of_true rfl (.inl hfailed)
  · have hother : ¬ ∃ c, ArchiveError.removeFailed archive.backupPath cause
        = .removeFailed archive.path c := by
      rintro ⟨c, heq⟩
      exact archive.backupPath_ne_path (ArchiveError.removeFailed.inj heq).1
    rw [hlost, or_iff_right hother]
    exact eq_comm

end Archive

theorem Recent.clear_eq_self_iff {recent : Recent} :
    recent.clear = recent ↔ recent.entries = [] := by
  constructor
  · intro heq
    exact (congrArg Recent.entries heq).symm
  · intro hempty
    rw [Recent.clear, ← hempty]

namespace Service

variable {s s' : Service} {e : LogError}

/-- A clearing that fails has emptied the view and dropped the pending entries. The backup is as it
was, and so is the active file when it cannot be removed; otherwise it is empty. So nothing is lost
only if there was nothing to show, nothing pending, and no record in an active file that was
removed. -/
theorem failed_clear_keeps_iff (hp : 0 ∉ s.recorder.config.logFile)
    (h : s.clear = (s', .error e)) :
    s'.recorder.recent.entries = [] ∧ s'.recorder.pending = [] ∧
    s'.files.records s.recorder.archive.backupPath
      = s.files.records s.recorder.archive.backupPath ∧
    ((∃ cause, e = .archive (.removeFailed s.recorder.archive.path cause)) ∧ s'.files = s.files ∨
      (∃ cause, e = .archive (.removeFailed s.recorder.archive.backupPath cause)) ∧
        s'.files.records s.recorder.archive.path = []) ∧
    (s'.recorder.recent = s.recorder.recent ∧ s'.recorder.pending = s.recorder.pending ∧
        s'.files.records s.recorder.archive.path = s.files.records s.recorder.archive.path ∧
        s'.files.records s.recorder.archive.backupPath
          = s.files.records s.recorder.archive.backupPath ↔
      s.recorder.recent.entries = [] ∧ s.recorder.pending = [] ∧
        ((∃ cause, e = .archive (.removeFailed s.recorder.archive.path cause)) ∨
          s.files.records s.recorder.archive.path = [])) := by
  have hrecorder : s'.recorder = { s.recorder with
      recent := s.recorder.recent.clear
      pending := []
      wakeRequested := false } := by
    have hclear := recorder_clear s
    rwa [h] at hclear
  obtain ⟨-, cause, rfl, hclear⟩ := clear_eq_error h
  obtain ⟨hbackup, hfiles⟩ := Archive.records_of_clear_error hp hclear
  have hactive := Archive.records_path_eq_iff_of_clear_error hp hclear
  have hpending : [] = s.recorder.pending ↔ s.recorder.pending = [] := eq_comm
  simp only [LogError.archive.injEq]
  rw [hrecorder]
  refine ⟨rfl, rfl, hbackup, hfiles, ?_⟩
  rw [Recent.clear_eq_self_iff, hpending, hactive, eq_true hbackup, and_true]

/-- A service with two entries in the view, one of them pending, and with a directory that is not
empty in the place of the backup. -/
def blocked : Service :=
  let taken := (Op.applyAll (.launch .small .empty .silent) .empty
    [.start 5, .ingest (.asking 1) 5, .flush true, .ingest (.asking 2) 5]).1
  { taken with files := taken.files.makeDirectories (ascii "q.log.1/x") }

theorem blocked_spec :
    blocked.clear.2 = .error (.archive (.removeFailed (ascii "q.log.1") .notEmpty)) ∧
      blocked.recorder.recent.entries = [.asking 1, .asking 2] ∧
      blocked.recorder.pending = [.asking 2] ∧
      blocked.files.records blocked.recorder.archive.path = [.asking 1] := by
  decide +kernel

/-- Its clearing fails, and with that all of its entries are gone. -/
theorem failed_clear_keeps_iff_blocked :
    blocked.recorder.recent.entries = [.asking 1, .asking 2] ∧
    blocked.recorder.pending = [.asking 2] ∧
    blocked.files.records blocked.recorder.archive.path = [.asking 1] ∧
    blocked.clear.1.recorder.recent.entries = [] ∧
    blocked.clear.1.recorder.pending = [] ∧
    blocked.clear.1.files.records blocked.recorder.archive.path = [] := by
  have hp : 0 ∉ blocked.recorder.config.logFile := by
    decide +kernel
  obtain ⟨hclear, hshown, hwaiting, hrecorded⟩ := blocked_spec
  obtain ⟨hrecent, hpending, -, hfiles, -⟩ := failed_clear_keeps_iff hp (Prod.ext rfl hclear)
  refine ⟨hshown, hwaiting, hrecorded, hrecent, hpending, ?_⟩
  rcases hfiles with ⟨⟨cause, heq⟩, -⟩ | ⟨-, hlost⟩
  · simp only [LogError.archive.injEq, ArchiveError.removeFailed.injEq] at heq
    exact absurd heq.1 (by decide +kernel)
  · exact hlost

/-- A clearing that fails does not leave everything as it was. -/
theorem not_failed_clear_keeps :
    ¬ ∀ (s s' : Service) (l : Ledger) (e : LogError),
      Run (fun _ _ => True) (.launch .small .empty .silent) s l → s.clear = (s', .error e) →
        s'.recorder.recent = s.recorder.recent ∧ s'.recorder.pending = s.recorder.pending ∧
        s'.files.records s.recorder.archive.path = s.files.records s.recorder.archive.path ∧
        s'.files.records s.recorder.archive.backupPath
          = s.files.records s.recorder.archive.backupPath := by
  intro h
  have taken : Run (fun _ _ => True) (.launch .small .empty .silent) _ _ :=
    Run.applyAll .launched
      [.start 5, .ingest (.asking 1) 5, .flush true, .ingest (.asking 2) 5] fun _ _ _ => trivial
  have run : Run (fun _ _ => True) (.launch .small .empty .silent) blocked _ :=
    taken.outside _ (by decide +kernel) (by decide +kernel)
  obtain ⟨hclear, hshown, -, -⟩ := blocked_spec
  obtain ⟨hrecent, -⟩ := h _ _ _ _ run (Prod.ext rfl hclear)
  have hempty : blocked.clear.1.recorder.recent.entries = [] := by
    rw [recorder_clear]
    rfl
  rw [hrecent, hshown] at hempty
  cases hempty

end Service

end ResolverLog
