import ResolverLog.Proofs.Lifecycle

/-!
# What the operations do to the writer

When an accepted entry makes the batch large enough it sets a mark and calls the
writer, if there is one. While there is a mark no further entry does. Flushing
takes the mark away, and so does whatever leaves nothing to be written: clearing,
configuring and stopping. Hiring a writer leaves the mark as it is.

A flush has two ends. It takes the pending entries when it begins, and when it
ends it has written them or gives them back.
-/

namespace ResolverLog

open Bytes

variable {s : Service} {e : Entry} {now : Int64}

namespace Service

theorem recorder_foldl_note (texts : List Bytes) (s : Service) :
    (texts.foldl (fun s text => s.note .debug text) s).recorder = s.recorder := by
  induction texts generalizing s with
  | nil => rfl
  | cons text texts ih => exact ih _

theorem recorder_noteBacklog (s : Service) (now : Int64) :
    (s.noteBacklog now).recorder = s.recorder := by
  rw [noteBacklog]
  split
  · exact recorder_foldl_note _ s
  · rfl

theorem recorder_restore (s : Service) (now : Int64) :
    (s.restore now).recorder = (s.restored now).recorder :=
  recorder_noteBacklog (s.restored now) now

theorem recorder_start (h : s.recorder.phase = .uninitialized) (now : Int64) :
    (s.start now).recorder = (s.restored now).opened.recorder := by
  rw [start, h]
  exact congrArg (fun r : Recorder => { r with phase := .running }) (recorder_restore s now)

/-- Hiring a writer changes nothing else about the recorder. -/
theorem recorder_startBackground (s : Service) :
    ∃ writer, s.startBackground.recorder = { s.recorder with writer } := by
  rw [startBackground]
  split
  · exact ⟨s.recorder.writer, rfl⟩
  · exact ⟨_, rfl⟩

theorem recorder_adopt (s : Service) (config : Config) :
    ∃ adopted, (s.adopt config).1.recorder = { s.recorder with config := adopted } := by
  rw [adopt]
  split
  · exact ⟨_, rfl⟩
  · exact ⟨_, rfl⟩

theorem recorder_setStatsHours (s : Service) (hours : UInt32) :
    ∃ config stats, (s.setStatsHours hours).1.recorder = { s.recorder with config, stats } := by
  rw [setStatsHours]
  split
  · exact ⟨_, _, rfl⟩
  · rename_i stats _
    obtain ⟨config, hadopt⟩ := recorder_adopt s { s.recorder.config with statsHours := hours }
    split
    · rename_i adopted e heq
      rw [heq] at hadopt
      exact ⟨config, s.recorder.stats, hadopt⟩
    · rename_i adopted heq
      rw [heq] at hadopt
      exact ⟨config, stats, congrArg (fun r : Recorder => { r with stats }) hadopt⟩

/-! ## The two ends of a flush -/

/-- A flush has begun: it has taken all pending entries. -/
def emptied (s : Service) : Service :=
  { s with recorder := { s.recorder with pending := [], wakeRequested := false } }

/-- A flush ends: it has written its batch, or the batch is pending again. -/
def storeBatch (s : Service) (batch : List Entry) : Service × Except LogError Unit :=
  if batch.isEmpty then (s, .ok ())
  else match s.write batch with
    | (s, .ok ()) => (s, .ok ())
    | (s, .error cause) =>
      ({ s with recorder := { s.recorder with pending := batch ++ s.recorder.pending } },
        .error (.archive cause))

/-- Writing depends on the path of the archive only. -/
theorem write_setRecorder (s : Service) {r : Recorder} (h : r.archive = s.recorder.archive)
    (entries : List Entry) :
    ({ s with recorder := r } : Service).write entries
      = ({ (s.write entries).1 with recorder := r }, (s.write entries).2) := by
  rw [write, write]
  cases Archive.batch entries with
  | error cause => rfl
  | ok text =>
      simp only [h]
      generalize ascii "querylog: check ok: " ++ _ ++ _ = check
      generalize ascii "querylog: " ++ _ ++ _ ++ _ ++ _ = serialized
      have hnoted : (({ s with recorder := r } : Service).note .debug check).note .debug serialized
          = { (s.note .debug check).note .debug serialized with recorder := r } := rfl
      rw [hnoted]
      cases s.recorder.archive.put ((s.note .debug check).note .debug serialized).files text with
      | error cause => rfl
      | ok files => rfl

/-- A full flush begins and ends. -/
theorem flush_true (s : Service) :
    s.flush true = s.emptied.storeBatch s.recorder.pending := by
  rw [flush, storeBatch]
  simp only [Bool.not_true, Bool.false_and, Bool.false_eq_true, if_false]
  by_cases hempty : s.recorder.pending = []
  · rw [hempty]
    rfl
  · have hpending : s.recorder.pending.isEmpty = false := List.isEmpty_eq_false_iff.mpr hempty
    have hmarked := write_setRecorder s (r := { s.recorder with wakeRequested := false }) rfl
      s.recorder.pending
    have hemptied : s.emptied.write s.recorder.pending = _ :=
      write_setRecorder s (r := s.emptied.recorder) rfl s.recorder.pending
    rw [hpending, hmarked, hemptied]
    cases (s.write s.recorder.pending).2 with
    | ok _ => rfl
    | error cause =>
        simp only [Bool.false_eq_true, if_false]
        rw [show s.emptied.recorder.pending = [] from rfl, List.append_nil]
        rfl

theorem recorder_storeBatch (s : Service) (batch : List Entry) :
    ∃ pending, (s.storeBatch batch).1.recorder = { s.recorder with pending } ∧
      s.recorder.pending <:+ pending := by
  have hwrite := (write_cases s batch).1
  rw [storeBatch]
  split
  · exact ⟨_, rfl, List.suffix_rfl⟩
  · split
    · rename_i written heq
      rw [heq] at hwrite
      exact ⟨_, hwrite, List.suffix_rfl⟩
    · rename_i written cause heq
      rw [heq] at hwrite
      refine ⟨_, congrArg (fun r : Recorder => { r with pending := batch ++ r.pending }) hwrite, ?_⟩
      exact List.suffix_append _ _

/-- A full flush takes the mark away and leaves the writer alone. -/
theorem recorder_flush_true (s : Service) :
    ∃ pending, (s.flush true).1.recorder = { s.recorder with pending, wakeRequested := false } := by
  obtain ⟨pending, hrecorder, -⟩ := recorder_storeBatch s.emptied s.recorder.pending
  rw [flush_true]
  exact ⟨pending, hrecorder⟩

/-- A flush does nothing or is a full one. -/
theorem flush_cases (s : Service) (full : Bool) :
    (s.flush full).1 = s ∨ s.flush full = s.flush true := by
  cases full with
  | true => exact Or.inr rfl
  | false =>
      by_cases hfew : s.recorder.pending.length < s.recorder.batchSize
      · left
        rw [flush]
        simp [hfew]
      · right
        rw [flush, flush]
        simp [hfew]

theorem recorder_flushNoting_true (s : Service) (text : Service → LogError → Bytes) :
    ∃ pending,
      (s.flushNoting text).recorder = { s.recorder with pending, wakeRequested := false } := by
  have hflush := recorder_flush_true s
  rw [flushNoting]
  split
  · rename_i flushed heq
    rw [heq] at hflush
    exact hflush
  · rename_i flushed e heq
    rw [heq] at hflush
    exact hflush

/-- Configuring takes the mark away, unless the interval is refused. -/
theorem recorder_configure (s : Service) (enabled : Bool) (hours : UInt32) :
    (s.configure enabled hours).1.recorder = s.recorder ∨
      ∃ config pending, (s.configure enabled hours).1.recorder
        = { s.recorder with config, pending, wakeRequested := false } := by
  by_cases hsupported : Config.isSupportedInterval hours = true
  · right
    obtain ⟨pending, hflushed⟩ := recorder_flushNoting_true s fun _ e =>
      ascii "querylog: flush before reconfigure failed: " ++ e.message
    obtain ⟨config, hadopt⟩ := recorder_adopt s.flushedFirst
      { s.flushedFirst.recorder.config with enabled, intervalHours := hours }
    have hconfigured := hadopt.trans (congrArg (fun r : Recorder => { r with config }) hflushed)
    refine ⟨config, pending, ?_⟩
    rw [configure_eq s enabled hours hsupported]
    split
    · rename_i adopted e heq
      rw [heq] at hconfigured
      exact hconfigured
    · rename_i adopted heq
      rw [heq] at hconfigured
      simp only
      split
      · exact hconfigured
      · exact hconfigured
  · left
    rw [configure, Bool.eq_false_of_not_eq_true hsupported]
    rfl

/-- Stopping leaves no writer, and no mark of a running recorder. -/
theorem recorder_stop (s : Service) :
    s.stop.recorder.writer = none ∧
      (s.recorder.phase = .running → s.stop.recorder.wakeRequested = false) ∧
      (s.recorder.phase ≠ .running → s.stop.recorder.wakeRequested = s.recorder.wakeRequested) := by
  have hbackground := recorder_stopBackground s
  have hphase : s.stopBackground.recorder.phase = s.recorder.phase := by
    rw [hbackground]
  rw [stop_eq, hphase]
  split
  · rename_i hrunning
    obtain ⟨pending, hflushed⟩ := recorder_flushNoting_true
      { s.stopBackground with
        recorder := { s.stopBackground.recorder with phase := .stopped } } fun s e =>
      ascii "querylog: final flush failed, " ++ Decimal.ofNat s.recorder.pending.length
        ++ ascii " entries not saved: " ++ e.message
    have hfinish : s.stopBackground.finish.recorder = _ := hflushed
    rw [hfinish, hbackground]
    exact ⟨rfl, fun _ => rfl, fun h => absurd hrunning h⟩
  · rename_i hidle
    rw [hbackground]
    exact ⟨rfl, fun h => absurd h hidle, fun _ => rfl⟩

/-- An accepted entry sets the mark and calls the writer if it makes the batch large enough and
there is no mark. -/
theorem recorder_ingest_accepted (h : (s.ingest e now).2 = .accepted) :
    (s.ingest e now).1.recorder.batchSize = s.recorder.batchSize ∧
      (s.ingest e now).1.recorder.pending = s.recorder.pending ++ [e] ∧
      if s.recorder.batchSize ≤ (s.recorder.pending ++ [e]).length
          ∧ s.recorder.wakeRequested = false then
        (s.ingest e now).1.recorder.wakeRequested = true ∧
          (s.ingest e now).1.recorder.writer = s.recorder.writer.map Task.trigger
      else (s.ingest e now).1.recorder.wakeRequested = s.recorder.wakeRequested ∧
        (s.ingest e now).1.recorder.writer = s.recorder.writer := by
  rw [ingest, refusal?_of_accepted h]
  simp only [recorder_debug]
  have haccept : accept s.recorder e =
      if s.recorder.batchSize ≤ (s.recorder.pending ++ [e]).length
          ∧ s.recorder.wakeRequested = false then
        { s.recorder with
          recent := s.recorder.recent.push e
          pending := s.recorder.pending ++ [e]
          wakeRequested := true
          writer := s.recorder.writer.map Task.trigger }
      else
        { s.recorder with
          recent := s.recorder.recent.push e
          pending := s.recorder.pending ++ [e] } := by
    rw [accept]
    by_cases hfull : s.recorder.batchSize ≤ (s.recorder.pending ++ [e]).length
        ∧ s.recorder.wakeRequested = false
    · rw [if_pos hfull, if_pos]
      simpa [Recorder.batchSize] using hfull
    · rw [if_neg hfull, if_neg]
      simpa [Recorder.batchSize] using hfull
  rw [haccept]
  split
  · exact ⟨rfl, rfl, rfl, rfl⟩
  · exact ⟨rfl, rfl, rfl, rfl⟩

/-- Behind an entry that fills the batch there is a mark, new or old. -/
theorem wakeRequested_ingest (h : (s.ingest e now).2 = .accepted)
    (hfull : (s.ingest e now).1.recorder.batchSize
      ≤ (s.ingest e now).1.recorder.pending.length) :
    (s.ingest e now).1.recorder.wakeRequested = true := by
  obtain ⟨hsize, hpending, hsignal⟩ := recorder_ingest_accepted h
  rw [hsize, hpending] at hfull
  split at hsignal
  · exact hsignal.1
  · rename_i hnot
    rw [hsignal.1]
    exact Bool.eq_true_of_not_eq_false fun hunmarked => hnot ⟨hfull, hunmarked⟩

/-- Taking in an entry neither brings a writer nor sends it away. -/
theorem isSome_writer_ingest (h : (s.ingest e now).2 = .accepted) :
    (s.ingest e now).1.recorder.writer.isSome = s.recorder.writer.isSome := by
  obtain ⟨-, -, hsignal⟩ := recorder_ingest_accepted h
  split at hsignal
  · rw [hsignal.2, Option.isSome_map]
  · rw [hsignal.2]

end Service

namespace Op

/-- What an operation can do to the mark and to the writer. -/
inductive Signal (s : Service) (op : Op) : Prop
  | keeps (mark : (op.apply s).recorder.wakeRequested = s.recorder.wakeRequested)
      (writer : (op.apply s).recorder.writer = s.recorder.writer)
  /-- A flush begins, or there is nothing left to be written. -/
  | relieves (mark : (op.apply s).recorder.wakeRequested = false)
      (writer : (op.apply s).recorder.writer = s.recorder.writer)
  | asks (running : s.recorder.phase = .running) (unmarked : s.recorder.wakeRequested = false)
      (mark : (op.apply s).recorder.wakeRequested = true)
      (writer : (op.apply s).recorder.writer = s.recorder.writer.map Task.trigger)
  /-- A writer comes that nobody has called. -/
  | hires {task : Task} (vacant : s.recorder.writer = none)
      (mark : (op.apply s).recorder.wakeRequested = s.recorder.wakeRequested)
      (writer : (op.apply s).recorder.writer = some task) (uncalled : task.triggered = false)
  | dismisses (stops : op = stop) (writer : (op.apply s).recorder.writer = none)
      (running : s.recorder.phase = .running → (op.apply s).recorder.wakeRequested = false)
      (idle : s.recorder.phase ≠ .running →
        (op.apply s).recorder.wakeRequested = s.recorder.wakeRequested)

/-- The operation is not a run of the writer. -/
def isCall : Op → Bool
  | settle | awaitPending _ _ => false
  | _ => true

theorem signal (s : Service) {op : Op} (h : op.isCall = true) : op.Signal s := by
  cases op with
  | start now =>
      have hrecorder := Service.recorder_restore s now
      have hstart : (s.start now).recorder.wakeRequested = s.recorder.wakeRequested ∧
          (s.start now).recorder.writer = s.recorder.writer := by
        rw [Service.start]
        split
        · exact ⟨(congrArg Recorder.wakeRequested hrecorder).trans rfl,
            (congrArg Recorder.writer hrecorder).trans rfl⟩
        · exact ⟨rfl, rfl⟩
      exact .keeps hstart.1 hstart.2
  | ingest e now =>
      by_cases haccepted : (s.ingest e now).2 = .accepted
      · obtain ⟨-, -, hsignal⟩ := Service.recorder_ingest_accepted haccepted
        split at hsignal
        · rename_i hfull
          have hphase := (Service.refusal?_eq_none_iff.mp
            (Service.refusal?_of_accepted haccepted)).1
          exact .asks hphase hfull.2 hsignal.1 hsignal.2
        · exact .keeps hsignal.1 hsignal.2
      · have hrecorder : (s.ingest e now).1.recorder = s.recorder := by
          rw [Service.ingest] at haccepted ⊢
          cases hr : Service.refusal? s.recorder e with
          | none =>
              rw [hr] at haccepted
              exact absurd rfl haccepted
          | some result => exact Service.recorder_debug _ _
        exact .keeps (by rw [apply, hrecorder]) (by rw [apply, hrecorder])
  | flush full =>
      rcases s.flush_cases full with hsame | hfull
      · exact .keeps (by rw [apply, hsame]) (by rw [apply, hsame])
      · obtain ⟨pending, hrecorder⟩ := s.recorder_flush_true
        rw [← hfull] at hrecorder
        exact .relieves (by rw [apply, hrecorder]) (by rw [apply, hrecorder])
  | rotateLog =>
      have hrecorder := s.recorder_rotateLog
      exact .keeps (by rw [apply, hrecorder]) (by rw [apply, hrecorder])
  | rotateHour => exact .keeps rfl rfl
  | configure enabled hours =>
      rcases s.recorder_configure enabled hours with hrecorder | ⟨config, pending, hrecorder⟩
      · exact .keeps (by rw [apply, hrecorder]) (by rw [apply, hrecorder])
      · exact .relieves (by rw [apply, hrecorder]) (by rw [apply, hrecorder])
  | setStatsHours hours =>
      obtain ⟨config, stats, hrecorder⟩ := s.recorder_setStatsHours hours
      exact .keeps (by rw [apply, hrecorder]) (by rw [apply, hrecorder])
  | clear =>
      have hrecorder := s.recorder_clear
      exact .relieves (by rw [apply, hrecorder]) (by rw [apply, hrecorder])
  | stop =>
      obtain ⟨hwriter, hrunning, hidle⟩ := s.recorder_stop
      exact .dismisses rfl hwriter hrunning hidle
  | startBackground =>
      cases hwriter : s.recorder.writer with
      | some task =>
          have hsame : s.startBackground = s := by
            rw [Service.startBackground, hwriter]
          exact .keeps (by rw [apply, hsame]) (by rw [apply, hsame])
      | none =>
          have hstarted : s.startBackground = { s with recorder := { s.recorder with
              writer := some (Task.idle s.recorder.config.flushIntervalMs.toInt).start } } := by
            rw [Service.startBackground, hwriter]
          exact .hires hwriter (by rw [apply, hstarted]) (by rw [apply, hstarted]) rfl
  | settle | awaitPending _ _ => cases h

/-- Only a running recorder is marked. -/
theorem idle_apply {op : Op} (hcall : op.isCall = true)
    (h : s.recorder.phase ≠ .running → s.recorder.wakeRequested = false)
    (hphase : (op.apply s).recorder.phase ≠ .running) :
    (op.apply s).recorder.wakeRequested = false := by
  by_cases hstop : op = .stop
  · obtain ⟨-, hrunning, hidle⟩ := s.recorder_stop
    subst hstop
    by_cases hbefore : s.recorder.phase = .running
    · exact hrunning hbefore
    · exact (hidle hbefore).trans (h hbefore)
  · have hbefore : s.recorder.phase ≠ .running := by
      intro hrunning
      rw [op.phase_eq_nextPhase, hrunning] at hphase
      cases op with
      | stop => exact hstop rfl
      | _ => exact hphase rfl
    cases op.signal s hcall with
    | keeps mark writer => exact mark.trans (h hbefore)
    | relieves mark writer => exact mark
    | asks running => exact absurd running hbefore
    | hires vacant mark => exact mark.trans (h hbefore)
    | dismisses stops => exact absurd stops hstop

end Op

end ResolverLog
