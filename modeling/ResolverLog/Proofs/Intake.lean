import ResolverLog.Intake
import ResolverLog.Proofs.Admission
import ResolverLog.Proofs.EventLine
import ResolverLog.Proofs.Holdings

/-!
# What a log has been given

A log that can be written to keeps what it is given: the entries stand in its
file, which is there only if there are any, or they are pending behind those.
Nothing that a run of the program does between its start and its end changes
that, and handling a line adds the entry of that line, if it has one that is
taken in.
-/

namespace ResolverLog

open Bytes

/-- An entry apart from its time. -/
def Entry.timeless (e : Entry) : Entry :=
  { e with time := 0 }

/-- The entry, apart from its time, of a line that is taken in: no empty line and no comment, and
an event whose name is not the root. -/
def Intake.recorded? (line : Bytes) : Option Entry :=
  if Intake.isSkipped line = true ∨ EventLine.name? line = some [0x2E] then none
  else EventLine.parse line 0

/-- A log under this path that can be written to is enabled, in this phase of its life, and has
been given these entries. -/
structure Logging (path : Bytes) (phase : Phase) (s : Service) (logged : List Entry) : Prop where
  tidy : s.Tidy
  path_eq : s.recorder.archive.path = path
  writable : s.files.Writable path
  phase_eq : s.recorder.phase = phase
  enabled_eq : s.recorder.config.enabled = true
  storable : ∀ e ∈ logged, e.Storable
  logged_eq : ∃ written, Archive.Holds s.files path written ∧
    logged = written ++ s.recorder.pending

namespace Logging

variable {path : Bytes} {phase phase' : Phase} {s : Service} {logged more : List Entry} {e : Entry}

/-! ## Notes and changes in memory -/

theorem note (h : Logging path phase s logged) (level : Level) (text : Bytes) :
    Logging path phase (s.note level text) logged := by
  refine ⟨h.tidy.note level text, h.path_eq, Service.writable_note h.writable level text,
    h.phase_eq, h.enabled_eq, h.storable, ?_⟩
  obtain ⟨written, hholds, hlogged⟩ := h.logged_eq
  refine ⟨written, ?_, hlogged⟩
  change Archive.Holds (s.journal.enter s.files ⟨level, text⟩).2 _ _
  rcases s.journal.enter_cases s.files ⟨level, text⟩ with heq | ⟨place, hplace, hagree⟩
  · rw [heq]
    exact hholds
  · refine hholds.of_agreeOff hagree fun x hx => ?_
    rw [List.mem_singleton.mp hx, ← h.path_eq]
    exact h.tidy.apart_active place hplace

theorem debug (h : Logging path phase s logged) (text : Option Bytes) :
    Logging path phase (s.debug text) logged := by
  cases text with
  | none => exact h
  | some text => exact h.note .debug text

/-- A change in memory that adds entries to the pending ones. -/
theorem setRecorder (h : Logging path phase s logged) (r : Recorder)
    (hconfig : r.config = s.recorder.config) (hphase : r.phase = phase')
    (hpending : r.pending = s.recorder.pending ++ more) (hmore : ∀ e ∈ more, e.Storable) :
    Logging path phase' { s with recorder := r } (logged ++ more) := by
  have hlog : r.config.logFile = s.recorder.config.logFile := by
    rw [hconfig]
  have harchive : r.archive = s.recorder.archive := congrArg Archive.mk hlog
  refine ⟨h.tidy.of_eq hlog rfl, ?_, h.writable, hphase, ?_, ?_, ?_⟩
  · rw [harchive]
    exact h.path_eq
  · rw [hconfig]
    exact h.enabled_eq
  · intro e he
    rcases List.mem_append.mp he with he | he
    · exact h.storable e he
    · exact hmore e he
  · obtain ⟨written, hholds, hlogged⟩ := h.logged_eq
    refine ⟨written, hholds, ?_⟩
    rw [hpending, hlogged, List.append_assoc]

/-- A change in memory that leaves the pending entries alone. -/
theorem setRecorder_same (h : Logging path phase s logged) (r : Recorder)
    (hconfig : r.config = s.recorder.config) (hphase : r.phase = phase')
    (hpending : r.pending = s.recorder.pending) :
    Logging path phase' { s with recorder := r } logged := by
  have hsame := h.setRecorder r hconfig hphase (hpending.trans (List.append_nil _).symm)
    (List.forall_mem_nil _)
  rwa [List.append_nil] at hsame

/-! ## Writing -/

theorem storable_of_mem_pending (h : Logging path phase s logged) :
    ∀ e ∈ s.recorder.pending, e.Storable := by
  obtain ⟨written, -, rfl⟩ := h.logged_eq
  exact fun e he => h.storable e (List.mem_append_right written he)

/-- What is pending goes behind what is in the file. -/
theorem write (h : Logging path phase s logged) (hne : s.recorder.pending ≠ []) :
    ∃ written, s.write s.recorder.pending = (written, .ok ()) ∧
      Logging path phase { written with recorder := { written.recorder with pending := [] } }
        logged := by
  have hstorable := h.storable_of_mem_pending
  rw [Service.write, Archive.batch_of_storable hstorable]
  simp only
  generalize ascii "querylog: check ok: " ++ _ ++ _ = check
  generalize ascii "querylog: " ++ _ ++ _ ++ _ ++ _ = serialized
  generalize ascii "querylog: ok " ++ _ ++ _ ++ _ ++ _ = written
  have hnoted := (h.note .debug check).note .debug serialized
  obtain ⟨files, happend⟩ := Files.append?_of_writable hnoted.writable
    (ofLines (s.recorder.pending.map Record.line))
  rw [Archive.put, h.path_eq, happend]
  refine ⟨_, rfl, ?_⟩
  -- The batch is in the file before the last note, which may go to any file but that one.
  have hput : Logging path phase
      { (s.note .debug check).note .debug serialized with
        files, recorder := { s.recorder with pending := [] } } logged := by
    obtain ⟨place, -, hagree, -⟩ := Files.append?_some happend
    obtain ⟨stored, hholds, hlogged⟩ := hnoted.logged_eq
    refine ⟨hnoted.tidy.of_eq rfl rfl, h.path_eq, hagree.writable hnoted.writable, h.phase_eq,
      h.enabled_eq, h.storable, stored ++ s.recorder.pending, ?_, ?_⟩
    · exact hholds.append hne (Record.encodeAll_of_storable hstorable) happend
    · rw [List.append_nil]
      exact hlogged
  exact hput.note .debug written

theorem flush (h : Logging path phase s logged) :
    ∃ flushed, s.flush true = (flushed, .ok ()) ∧ Logging path phase flushed logged ∧
      flushed.recorder.pending = [] := by
  have hcalmed : Logging path phase s.calmed logged := h.setRecorder_same _ rfl h.phase_eq rfl
  rw [Service.flush, if_neg (by simp)]
  by_cases hne : s.recorder.pending = []
  · simp only [List.isEmpty_iff.mpr hne, if_true]
    exact ⟨_, rfl, hcalmed, hne⟩
  · obtain ⟨written, hwrite, hlogging⟩ := hcalmed.write hne
    simp only [Service.calmed] at hwrite
    simp only [List.isEmpty_eq_false_iff.mpr hne, Bool.false_eq_true, if_false, hwrite]
    exact ⟨_, rfl, hlogging, rfl⟩

theorem runWriter (h : Logging path phase s logged) (writer : Task) :
    Logging path phase (s.runWriter writer) logged := by
  obtain ⟨flushed, hflush, hlogging, -⟩ := h.flush
  rw [Service.runWriter, hflush]
  exact hlogging.setRecorder_same _ rfl hlogging.phase_eq rfl

/-! ## The life of a log -/

theorem rotateHour (h : Logging path phase s logged) : Logging path phase s.rotateHour logged := by
  have hrotated : Logging path phase
      { s with recorder := { s.recorder with stats := s.recorder.stats.rotate } } logged :=
    h.setRecorder_same _ rfl h.phase_eq rfl
  exact hrotated.note _ _

theorem noteBacklog (h : Logging path phase s logged) (now : Int64) :
    Logging path phase (s.noteBacklog now) logged := by
  rw [Service.noteBacklog]
  split
  · rename_i hdebug
    clear hdebug
    generalize Backlog.notes _ _ _ _ _ = texts
    induction texts generalizing s with
    | nil => exact h
    | cons text texts ih => exact ih (h.note .debug text)
  · exact h

theorem start (h : Logging path .uninitialized s logged) (now : Int64) :
    Logging path .running (s.start now) logged := by
  have hfilled : Logging path .uninitialized (s.restored now) logged :=
    h.setRecorder_same _ rfl h.phase_eq rfl
  have hrestored : Logging path .uninitialized (s.restore now) logged :=
    (hfilled.noteBacklog now).note _ _
  have hopened : Logging path .running (s.restore now).opened logged :=
    hrestored.setRecorder_same _ rfl rfl rfl
  rw [Service.start, h.phase_eq]
  exact hopened.note _ _

theorem startBackground (h : Logging path phase s logged) :
    Logging path phase s.startBackground logged := by
  rw [Service.startBackground]
  split
  · exact h
  · exact h.setRecorder_same _ rfl h.phase_eq rfl

theorem stopBackground (h : Logging path phase s logged) :
    Logging path phase s.stopBackground logged := by
  rw [Service.stopBackground]
  split
  · exact h
  · have hended : Logging path phase { s with recorder := { s.recorder with writer := none } }
        logged := h.setRecorder_same _ rfl h.phase_eq rfl
    exact ((hended.note _ _).note _ _).note _ _

/-- Stopping writes what is pending. -/
theorem stop (h : Logging path .running s logged) :
    Logging path .stopped s.stop logged ∧ s.stop.recorder.pending = [] := by
  have hbackground := h.stopBackground
  have hstopped : Logging path .stopped
      { s.stopBackground with recorder := { s.stopBackground.recorder with phase := .stopped } }
      logged := hbackground.setRecorder_same _ rfl rfl rfl
  obtain ⟨flushed, hflush, hlogging, hpending⟩ := hstopped.flush
  rw [Service.stop_eq, if_pos hbackground.phase_eq, Service.finish, Service.flushNoting, hflush]
  exact ⟨hlogging.note _ _, hpending⟩

/-! ## Taking in -/

theorem refusal?_of_isSome (h : Logging path .running s logged) (hname : e.name?.isSome = true) :
    Service.refusal? s.recorder e = none :=
  (Service.refusal?_eq_none_iff_isSome h.phase_eq h.enabled_eq).mpr hname

/-- An entry that asks for a name is given to the log. -/
theorem ingest (h : Logging path .running s logged) (hs : e.Storable)
    (hname : e.name?.isSome = true) (now : Int64) :
    (s.ingest e now).2 = .accepted ∧ Logging path .running (s.ingest e now).1 (logged ++ [e]) := by
  obtain ⟨wakeRequested, writer, -, haccept⟩ := Service.accept_eq s.recorder e
  rw [Service.ingest, h.refusal?_of_isSome hname, haccept]
  refine ⟨rfl, Logging.debug ?_ _⟩
  exact h.setRecorder _ rfl h.phase_eq rfl (by simpa using hs)

/-- Any other entry is not. -/
theorem ingest_refused (h : Logging path phase s logged) (hname : ¬ e.name?.isSome = true)
    (now : Int64) :
    (s.ingest e now).2 ≠ .accepted ∧ Logging path phase (s.ingest e now).1 logged := by
  have hrefused : (s.ingest e now).2 ≠ .accepted := fun haccepted =>
    hname (Service.refusal?_eq_none_iff.mp (Service.refusal?_of_accepted haccepted)).2.2.2
  refine ⟨hrefused, ?_⟩
  rw [Service.ingest] at hrefused ⊢
  cases hr : Service.refusal? s.recorder e with
  | none =>
      rw [hr] at hrefused
      exact absurd rfl hrefused
  | some result => exact h.debug _

/-- A line that is not taken in adds nothing. -/
theorem of_recorded?_eq_none {line : Bytes} (h : Logging path .running s logged)
    (hnone : Intake.recorded? line = none) :
    ∃ more, Logging path .running s (logged ++ more) ∧
      more.map Entry.timeless = (Intake.recorded? line).toList := by
  refine ⟨[], ?_, ?_⟩
  · rwa [List.append_nil]
  · rw [hnone]
    rfl

/-- The entry of an event is given to the log, unless the event asks for the root. -/
theorem handle_event {line : Bytes} {now : Int64} (h : Logging path .running s logged)
    (counts : IntakeCounts) (hskip : ¬ Intake.isSkipped line = true)
    (hevent : EventLine.parse line now = some e) :
    ∃ more, Logging path .running (Intake.handle (s, counts) line now).1 (logged ++ more) ∧
      more.map Entry.timeless = (Intake.recorded? line).toList := by
  have hparse : EventLine.parse line 0 = some e.timeless := by
    rw [EventLine.parse_eq_map line 0 now, hevent]
    rfl
  have hasked := EventLine.isSome_name?_of_parse hevent
  rw [Intake.handle]
  simp only [hevent, if_neg hskip]
  by_cases hname : e.name?.isSome = true
  · obtain ⟨haccepted, hlogging⟩ := h.ingest (EventLine.storable_of_parse hevent) hname now
    cases hingest : s.ingest e now with
    | mk taken result =>
        simp only [hingest] at haccepted hlogging ⊢
        subst haccepted
        refine ⟨[e], hlogging, ?_⟩
        rw [Intake.recorded?, if_neg (not_or.mpr ⟨hskip, hasked.mp hname⟩), hparse]
        rfl
  · obtain ⟨hrefused, hlogging⟩ := h.ingest_refused hname now
    have hroot : EventLine.name? line = some [0x2E] := not_not.mp (mt hasked.mpr hname)
    cases hingest : s.ingest e now with
    | mk left result =>
        simp only [hingest] at hrefused hlogging ⊢
        refine of_recorded?_eq_none ?_ (if_pos (.inr hroot))
        split
        · rename_i heq
          cases heq
          exact absurd rfl hrefused
        · rename_i heq
          cases heq
          exact hlogging.note _ _

/-- Handling a line gives its entry to the log, if it is one that is taken in. -/
theorem handle (h : Logging path .running s logged) (counts : IntakeCounts) (line : Bytes)
    (now : Int64) :
    ∃ more, Logging path .running (Intake.handle (s, counts) line now).1 (logged ++ more) ∧
      more.map Entry.timeless = (Intake.recorded? line).toList := by
  by_cases hskip : Intake.isSkipped line = true
  · rw [Intake.handle, if_pos hskip]
    exact h.of_recorded?_eq_none (if_pos (.inl hskip))
  · cases hevent : EventLine.parse line now with
    | some e => exact h.handle_event counts hskip hevent
    | none =>
        have hparse : EventLine.parse line 0 = none := by
          rw [EventLine.parse_eq_map line 0 now, hevent]
          rfl
        rw [Intake.handle]
        simp only [hevent, if_neg hskip]
        refine of_recorded?_eq_none (h.note _ _) ?_
        rw [Intake.recorded?, hparse, ite_self]

end Logging

end ResolverLog
