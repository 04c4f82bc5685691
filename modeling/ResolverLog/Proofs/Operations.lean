import ResolverLog.Proofs.Quiet

/-!
# Operations that change what the log holds

Starting fills the view and the statistics from the archive, taking an entry in
adds it everywhere but to the files, rotating drops what the backup held, and
clearing drops everything but the statistics. Each of them is one such change,
and quiet otherwise.
-/

namespace ResolverLog

open Bytes

namespace Service

variable {s s' : Service}

/-! ## Starting -/

/-- What a start at the time `now` takes over from the archive. -/
def backlog (s : Service) (now : Int64) : Backlog :=
  (s.recorder.archive.replay s.files (window s.recorder.config) now).foldl
    (Backlog.add s.recorder.recent.capacity.toUInt64
      (nanosOfHours s.recorder.config.intervalHours.toNat) now)
    ⟨s.recorder.stats, #[]⟩

/-- The view and the statistics filled from the archive. -/
def restored (s : Service) (now : Int64) : Service :=
  { s with recorder := { s.recorder with
    stats := (s.backlog now).stats
    recent := s.recorder.recent.load (Backlog.byTime (s.backlog now).recent.toList) } }

/-- A recorder that takes in entries. -/
def opened (s : Service) : Service :=
  { s with recorder := { s.recorder with phase := .running } }

theorem quiet_foldl_note (texts : List Bytes) (s : Service) :
    Quiet s (texts.foldl (fun s text => s.note .debug text) s) := by
  induction texts generalizing s with
  | nil => exact Quiet.refl s
  | cons text texts ih => exact (quiet_note s .debug text).trans (ih _)

theorem quiet_noteBacklog (s : Service) (now : Int64) : Quiet s (s.noteBacklog now) := by
  rw [noteBacklog]
  split
  · exact quiet_foldl_note _ s
  · exact Quiet.refl s

theorem quiet_restore (s : Service) (now : Int64) : Quiet (s.restored now) (s.restore now) :=
  (quiet_noteBacklog (s.restored now) now).trans (quiet_note _ _ _)

theorem Quiet.opened (h : Quiet s s') : Quiet s.opened s'.opened := by
  refine ⟨⟨h.logFile_eq, h.journal_eq, (fun hp => by cases hp), h.recent_eq, h.pending_eq, ?_⟩,
    h.stats_eq⟩
  intro ht
  obtain ⟨written, ⟨hall, hactive, hbackup⟩, hp⟩ := h.appended (ht.of_eq rfl rfl)
  exact ⟨written, ⟨hall, hactive, hbackup⟩, hp⟩

/-- Starting fills the view and the statistics and is quiet otherwise. -/
theorem quiet_start (h : s.recorder.phase = .uninitialized) (now : Int64) :
    Quiet (s.restored now).opened (s.start now) := by
  rw [start, h]
  exact (quiet_restore s now).opened.trans (quiet_note _ _ _)

/-- A recorder is started once. -/
theorem quiet_start_again (h : s.recorder.phase ≠ .uninitialized) (now : Int64) :
    Quiet s (s.start now) := by
  rw [start]
  split
  · rename_i hphase
    exact absurd hphase h
  · exact quiet_note _ _ _

/-! ## Taking in -/

/-- An entry added to the view, the statistics and the pending entries. -/
def taken (s : Service) (e : Entry) (now : Int64) : Service :=
  { s with recorder := { s.recorder with
    recent := s.recorder.recent.push e
    stats := (s.recorder.stats.record e now).1
    pending := s.recorder.pending ++ [e] } }

theorem refusal?_of_accepted {e : Entry} {now : Int64} (h : (s.ingest e now).2 = .accepted) :
    refusal? s.recorder e = none := by
  rw [ingest] at h
  cases hr : refusal? s.recorder e with
  | none => rfl
  | some result =>
      rw [hr] at h
      simp only at h
      subst h
      rw [refusal?] at hr
      split_ifs at hr
      · cases hr
      · cases hr
      · cases hr
      · cases hr

/-- Entries are taken in by a running and enabled recorder, when they ask for a name. -/
theorem refusal?_eq_none_iff {r : Recorder} {e : Entry} :
    refusal? r e = none ↔ r.phase = .running ∧ r.config.enabled = true ∧
      e.question.isEmpty = false ∧ e.name?.isSome = true := by
  rw [refusal?]
  split_ifs with hphase henabled hquestion hname
  · simp [hphase]
  · simp_all
  · simp_all
  · simp_all
  · simp_all [Option.isSome_iff_ne_none]

/-- While the recorder runs and is switched on, only the name decides. -/
theorem refusal?_eq_none_iff_isSome {r : Recorder} {e : Entry} (hphase : r.phase = .running)
    (henabled : r.config.enabled = true) : refusal? r e = none ↔ e.name?.isSome = true := by
  rw [refusal?_eq_none_iff]
  constructor
  · rintro ⟨-, -, -, hname⟩
    exact hname
  · intro hname
    refine ⟨hphase, henabled, ?_, hname⟩
    rw [List.isEmpty_eq_false_iff]
    intro hnil
    rw [Entry.name?, hnil] at hname
    exact absurd hname (by decide)

/-- Accepting an entry adds it to the view and to the pending entries. It may wake the writer, if
there is one. -/
theorem accept_eq (r : Recorder) (e : Entry) :
    ∃ wakeRequested writer, (r.writer = none → writer = none) ∧ accept r e = { r with
      recent := r.recent.push e
      pending := r.pending ++ [e]
      wakeRequested
      writer } := by
  rw [accept]
  simp only
  split
  · refine ⟨_, _, ?_, rfl⟩
    intro hwriter
    rw [hwriter]
    rfl
  · exact ⟨_, _, id, rfl⟩

/-- An accepted entry is added, and nothing else that the log shows changes. -/
theorem quiet_ingest {e : Entry} {now : Int64} (h : (s.ingest e now).2 = .accepted) :
    Quiet (s.taken e now) (s.ingest e now).1 := by
  rw [ingest, refusal?_of_accepted h]
  refine Quiet.trans ?_ (quiet_debug _ _)
  obtain ⟨wakeRequested, writer, -, haccept⟩ := accept_eq s.recorder e
  rw [haccept]
  exact Quiet.of_eq rfl rfl id rfl rfl rfl fun _ => ⟨rfl, rfl⟩

/-- An entry that is not accepted is nowhere. -/
theorem quiet_ingest_refused {e : Entry} {now : Int64} (h : (s.ingest e now).2 ≠ .accepted) :
    Quiet s (s.ingest e now).1 := by
  rw [ingest] at h ⊢
  cases hr : refusal? s.recorder e with
  | none =>
      rw [hr] at h
      exact absurd rfl h
  | some result => exact quiet_debug s _

/-! ## Rotating -/

/-- The rotation of the log finds an active file and succeeds. -/
def Rotates (s : Service) : Prop :=
  s.recorder.archive.isActive s.files = .ok true ∧ s.rotateLog.2 = .ok ()

instance (s : Service) : Decidable s.Rotates :=
  inferInstanceAs (Decidable (_ ∧ _))

theorem recorder_rotateLog (s : Service) : s.rotateLog.1.recorder = s.recorder := by
  rw [rotateLog]
  split
  · rfl
  · rfl
  · rfl

/-- A rotation that finds no active file or fails changes nothing. -/
theorem rotateLog_eq_of_not_rotates (ht : s.Tidy) (h : ¬ s.Rotates) : s.rotateLog.1 = s := by
  rw [Rotates, rotateLog] at h
  rw [rotateLog]
  cases hr : s.recorder.archive.rotate s.files with
  | error cause =>
      rw [hr] at h
      cases s.recorder.archive.isActive s.files with
      | error e => rfl
      | ok active => cases active <;> rfl
  | ok files =>
      rw [hr] at h
      rcases Archive.contents_rotate ht.noNul hr with ⟨ha, rfl⟩ | ⟨ha, -⟩
      · rw [ha]
      · rw [ha] at h
        exact absurd ⟨rfl, rfl⟩ h

/-- A rotation makes the text of the active file that of the backup. -/
theorem contents_rotateLog (ht : s.Tidy) (h : s.Rotates) :
    s.rotateLog.1.journal.path = s.journal.path ∧
      s.rotateLog.1.files.contents s.recorder.archive.backupPath
        = s.files.contents s.recorder.archive.path ∧
      s.rotateLog.1.files.contents s.recorder.archive.path = [] := by
  obtain ⟨ha, hr⟩ := h
  rw [rotateLog] at hr ⊢
  simp only [ha] at hr ⊢
  cases hf : s.recorder.archive.rotate s.files with
  | error cause =>
      rw [hf] at hr
      cases hr
  | ok files =>
      rcases Archive.contents_rotate ht.noNul hf with ⟨ha', -⟩ | ⟨-, hbackup, hactive⟩
      · rw [ha'] at ha
        cases ha
      · have ht' : Tidy { s with files } := ht.of_eq rfl rfl
        refine ⟨path_note _ _ _, ?_, ?_⟩
        · exact (contents_note ht'.apart_backup).trans hbackup
        · exact (contents_note ht'.apart_active).trans hactive

/-- A rotation makes the active entries the backup. -/
theorem rotateLog_of_rotates (ht : s.Tidy) (h : s.Rotates) :
    s.rotateLog.1.recorder = s.recorder ∧ s.rotateLog.1.journal.path = s.journal.path ∧
      ∀ backup active, s.Stored backup active → s.rotateLog.1.Stored active [] := by
  obtain ⟨hjournal, hbackup, hactive⟩ := contents_rotateLog ht h
  refine ⟨recorder_rotateLog s, hjournal, ?_⟩
  intro backup active hs
  constructor
  · rw [recorder_rotateLog, hbackup]
    exact hs.active_eq
  · rw [recorder_rotateLog, hactive]
    rfl

/-! ## Clearing -/

/-- What clearing does to a recorder, however the removal of the files ends. -/
theorem recorder_clear (s : Service) : s.clear.1.recorder = { s.recorder with
    recent := s.recorder.recent.clear
    pending := []
    wakeRequested := false } := by
  rw [clear]
  simp only
  split
  · rfl
  · rfl

/-- A successful clearing leaves no entries, and the statistics as they are. -/
theorem clear_of_ok (h : s.clear.2 = .ok ()) :
    s.clear.1.journal.path = s.journal.path ∧ (s.Tidy → s.clear.1.Stored [] []) := by
  rw [clear] at h ⊢
  simp only at h ⊢
  split at h
  · cases h
  · rename_i files hf
    refine ⟨(path_note _ _ _).trans (path_note _ _ _), ?_⟩
    intro ht
    obtain ⟨hactive, hbackup⟩ := Archive.contents_clear hf
    generalize hc : ({ s with
      recorder := { s.recorder with
        recent := s.recorder.recent.clear, pending := [], wakeRequested := false }
      files } : Service) = cleared
    have ht' : cleared.Tidy := by
      rw [← hc]
      exact ht.of_eq rfl rfl
    have hstored : cleared.Stored [] [] := by
      rw [← hc]
      exact ⟨congrArg Except.ok hbackup.symm, congrArg Except.ok hactive.symm⟩
    exact (hstored.note ht' _ _).note (ht'.note _ _) _ _

end Service

end ResolverLog
