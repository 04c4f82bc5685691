import ResolverLog.Proofs.Runs

/-!
# Nothing is lost, doubled or reordered

Every accepted entry is in one place: among those that a rotation dropped with
an old backup, in the backup, in the active file, or pending. Read in this order
the places give back the accepted entries in the order of their acceptance.
-/

namespace ResolverLog

open Bytes

/-- The ledger and the places where entries are kept agree. -/
structure Accounted (s : Service) (l : Ledger) (backup active : List Entry) : Prop where
  tidy : s.Tidy
  stored : s.Stored backup active
  accepted_eq : l.accepted = l.replaced ++ (backup ++ active ++ s.recorder.pending)
  backup_nil : l.rotations = 0 → backup = []
  replaced_nil : l.rotations ≤ 1 → l.replaced = []

namespace Accounted

variable {s s' : Service} {l : Ledger} {backup active : List Entry}

theorem decode_backup (h : Accounted s l backup active) :
    Record.decodeAll (s.files.contents s.recorder.archive.backupPath) = .ok backup :=
  Record.decodeAll_of_encodeAll h.stored.backup_eq

theorem decode_active (h : Accounted s l backup active) :
    Record.decodeAll (s.files.contents s.recorder.archive.path) = .ok active :=
  Record.decodeAll_of_encodeAll h.stored.active_eq

/-- Up to one rotation, and with nothing pending, all accepted entries are stored. -/
theorem accepted_eq_append (h : Accounted s l backup active) (hle : l.rotations ≤ 1)
    (hpending : s.recorder.pending = []) : l.accepted = backup ++ active := by
  rw [h.accepted_eq, h.replaced_nil hle, hpending, List.nil_append, List.append_nil]

/-- Where nothing has been accepted, nothing is stored. -/
theorem stored_nil (h : Accounted s l backup active) (hnone : l.accepted = []) :
    s.Stored [] [] := by
  have hplaces := h.accepted_eq
  rw [hnone, eq_comm, List.append_eq_nil_iff, List.append_eq_nil_iff, List.append_eq_nil_iff]
    at hplaces
  obtain ⟨-, ⟨rfl, rfl⟩, -⟩ := hplaces
  exact h.stored

/-- Moving entries from the pending ones to the active file changes no account. -/
theorem keeps (h : Accounted s l backup active) (hk : s.Keeps s') :
    ∃ active', Accounted s' l backup active' := by
  obtain ⟨written, hstored, hpending⟩ := hk.moved h.tidy backup active h.stored
  refine ⟨active ++ written, hk.tidy h.tidy, hstored, ?_, h.backup_nil, h.replaced_nil⟩
  calc l.accepted
      = l.replaced ++ (backup ++ active ++ s.recorder.pending) := h.accepted_eq
    _ = l.replaced ++ (backup ++ active ++ (written ++ s'.recorder.pending)) := by rw [hpending]
    _ = l.replaced ++ (backup ++ (active ++ written) ++ s'.recorder.pending) := by
        simp only [List.append_assoc]

theorem start (h : Accounted s l backup active) (now : Int64) :
    ∃ active', Accounted (s.start now) l backup active' := by
  by_cases hp : s.recorder.phase = .uninitialized
  · have hopened : Accounted (s.restored now).opened l backup active :=
      ⟨h.tidy.of_eq rfl rfl, h.stored.of_eq rfl rfl rfl, h.accepted_eq, h.backup_nil,
        h.replaced_nil⟩
    exact hopened.keeps (Service.quiet_start hp now).toKeeps
  · exact h.keeps (Service.quiet_start_again hp now).toKeeps

/-- An entry that is accepted becomes the last pending one. -/
theorem ingest (h : Accounted s l backup active) (e : Entry) (now : Int64) :
    ∃ active', Accounted (s.ingest e now).1 (l.after s (.ingest e now)) backup active' := by
  rw [Ledger.after]
  split
  · rename_i haccepted
    have htaken : Accounted (s.taken e now) { l with accepted := l.accepted ++ [e] }
        backup active := by
      refine ⟨h.tidy.of_eq rfl rfl, h.stored.of_eq rfl rfl rfl, ?_, h.backup_nil, h.replaced_nil⟩
      calc l.accepted ++ [e]
          = l.replaced ++ (backup ++ active ++ s.recorder.pending) ++ [e] := by rw [h.accepted_eq]
        _ = l.replaced ++ (backup ++ active ++ (s.recorder.pending ++ [e])) := by
            simp only [List.append_assoc]
    exact htaken.keeps (Service.quiet_ingest haccepted).toKeeps
  · rename_i hrefused
    exact h.keeps (Service.quiet_ingest_refused hrefused).toKeeps

/-- A rotation drops the backup, and only that. -/
theorem rotateLog (h : Accounted s l backup active) :
    ∃ backup' active', Accounted s.rotateLog.1 (l.after s .rotateLog) backup' active' := by
  rw [Ledger.after]
  split
  · rename_i hrotates
    obtain ⟨hrecorder, hjournal, hstored⟩ := Service.rotateLog_of_rotates h.tidy hrotates
    have hlog := congrArg (fun r : Recorder => r.config.logFile) hrecorder
    refine ⟨active, [], h.tidy.of_eq hlog hjournal, hstored backup active h.stored, ?_, ?_, ?_⟩
    · rw [h.decode_backup, hrecorder]
      calc l.accepted
          = l.replaced ++ (backup ++ active ++ s.recorder.pending) := h.accepted_eq
        _ = l.replaced ++ backup ++ (active ++ [] ++ s.recorder.pending) := by
            simp only [List.append_assoc, List.append_nil]
    · intro hzero
      exact absurd hzero (Nat.succ_ne_zero _)
    · intro hle
      have hzero : l.rotations = 0 := Nat.le_zero.mp (Nat.le_of_succ_le_succ hle)
      rw [h.decode_backup, h.backup_nil hzero, h.replaced_nil (by omega)]
      rfl
  · rename_i hrotates
    rw [Service.rotateLog_eq_of_not_rotates h.tidy hrotates]
    exact ⟨backup, active, h⟩

theorem clear (h : Accounted s l backup active) (hok : s.clear.2 = .ok ()) :
    Accounted s.clear.1 (l.after s .clear) [] [] := by
  obtain ⟨hjournal, hstored⟩ := Service.clear_of_ok hok
  rw [Ledger.after, if_pos hok]
  refine ⟨h.tidy.of_eq ?_ hjournal, hstored h.tidy, ?_, fun _ => rfl, fun _ => rfl⟩
  · rw [Service.recorder_clear]
  · rw [Service.recorder_clear]
    rfl

/-- Every operation keeps the accounts. -/
theorem call (h : Accounted s l backup active) (op : Op) (hop : op.Clean s) :
    ∃ backup' active', Accounted (op.apply s) (l.after s op) backup' active' := by
  cases op.effect s with
  | keeps hkeeps hnone hclear hrotate =>
      rw [Ledger.after_eq_self hnone hclear hrotate]
      exact ⟨backup, h.keeps hkeeps⟩
  | starts hphase => exact ⟨backup, h.start _⟩
  | takes haccepted => exact ⟨backup, h.ingest _ _⟩
  | rotates => exact h.rotateLog
  | clears => exact ⟨[], [], h.clear (hop rfl)⟩

theorem outside (h : Accounted s l backup active) {files : Files}
    (ha : files.contents s.recorder.archive.path = s.files.contents s.recorder.archive.path)
    (hb : files.contents s.recorder.archive.backupPath
      = s.files.contents s.recorder.archive.backupPath) :
    Accounted { s with files } l backup active :=
  ⟨h.tidy.of_eq rfl rfl, h.stored.of_eq rfl ha hb, h.accepted_eq, h.backup_nil, h.replaced_nil⟩

/-- A log begins with empty accounts. -/
theorem launch {config : Config} {files : Files} {journal : Journal}
    (h : Beginning config files journal) :
    ∃ active, Accounted (.launch config files journal) .empty [] active := by
  have hnew : Accounted ⟨.new config, files, journal⟩ .empty [] [] := by
    refine ⟨⟨h.noNul, h.apart_active, h.apart_backup⟩, ⟨?_, ?_⟩, rfl, fun _ => rfl, fun _ => rfl⟩
    · exact congrArg Except.ok h.backup_empty.symm
    · exact congrArg Except.ok h.active_empty.symm
  exact hnew.keeps (Service.quiet_launch config files journal).toKeeps

end Accounted

/-- The accounts of a run of clean operations agree. -/
theorem Run.accounted {config : Config} {files : Files} {journal : Journal} {s : Service}
    {l : Ledger} (hb : Beginning config files journal)
    (run : Run (fun s op => op.Clean s) (.launch config files journal) s l) :
    ∃ backup active, Accounted s l backup active := by
  induction run with
  | launched => exact ⟨[], Accounted.launch hb⟩
  | call run op ok ih =>
      obtain ⟨backup, active, h⟩ := ih
      exact h.call op ok
  | outside run files ha hb ih =>
      obtain ⟨backup, active, h⟩ := ih
      exact ⟨backup, active, h.outside ha hb⟩

/-- In every run the backup, the active file and the pending entries together are the latest
accepted entries, in order and without a gap. Up to one rotation they are all of them, and
what further rotations have dropped is just what sat in the backup when it was replaced. -/
theorem Run.conserves_accepted {config : Config} {files : Files} {journal : Journal} {s : Service}
    {l : Ledger} (hb : Beginning config files journal)
    (run : Run (fun s op => op.Clean s) (.launch config files journal) s l) :
    ∃ backup active,
      Record.decodeAll (s.files.contents s.recorder.archive.backupPath) = .ok backup ∧
      Record.decodeAll (s.files.contents s.recorder.archive.path) = .ok active ∧
      backup ++ active ++ s.recorder.pending <:+ l.accepted ∧
      (l.rotations ≤ 1 → backup ++ active ++ s.recorder.pending = l.accepted) ∧
      l.accepted = l.replaced ++ (backup ++ active ++ s.recorder.pending) := by
  obtain ⟨backup, active, h⟩ := run.accounted hb
  refine ⟨backup, active, h.decode_backup, h.decode_active, ⟨l.replaced, h.accepted_eq.symm⟩, ?_,
    h.accepted_eq⟩
  intro hle
  rw [h.accepted_eq, h.replaced_nil hle, List.nil_append]

/-- Four entries are taken in and the log is rotated twice before the last of them. -/
def rotatedTwice : Service × Ledger :=
  Op.applyAll (.launch .small .empty .silent) .empty
    [.start 5, .ingest (.asking 1) 5, .flush true, .rotateLog, .ingest (.asking 2) 5, .flush true,
      .rotateLog, .ingest (.asking 3) 5, .flush true, .ingest (.asking 4) 5]

/-- The first entry is gone with the first backup; the others are in three places. -/
theorem Run.conserves_accepted_rotatedTwice :
    rotatedTwice.2.accepted = [.asking 1, .asking 2, .asking 3, .asking 4] ∧
    rotatedTwice.2.replaced = [.asking 1] ∧
    rotatedTwice.1.recorder.pending = [.asking 4] ∧
    ∃ backup active,
      Record.decodeAll (rotatedTwice.1.files.contents rotatedTwice.1.recorder.archive.backupPath)
        = .ok backup ∧
      Record.decodeAll (rotatedTwice.1.files.contents rotatedTwice.1.recorder.archive.path)
        = .ok active ∧
      rotatedTwice.2.accepted
        = rotatedTwice.2.replaced ++ (backup ++ active ++ rotatedTwice.1.recorder.pending) := by
  have run : Run (fun s op => op.Clean s) (.launch .small .empty .silent) rotatedTwice.1
      rotatedTwice.2 :=
    Run.applyAll .launched _ (Op.clean_of_notMem (by simp))
  obtain ⟨backup, active, hbackup, hactive, -, -, haccepted⟩ :=
    Run.conserves_accepted .small run
  exact ⟨by decide +kernel, by decide +kernel, by decide +kernel, backup, active, hbackup, hactive,
    haccepted⟩

end ResolverLog
