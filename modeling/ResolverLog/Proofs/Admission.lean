import ResolverLog.Proofs.Runs
import ResolverLog.Proofs.Writable

/-!
# What is accepted and what can be written

An entry is accepted for what it asks, not for its sizes and its reason. One
that the record format cannot hold is therefore accepted as well, and from then
on no batch can be written: the entry is in each of them. Nothing is lost by
that, since a batch that fails stays pending as a whole, and clearing the log
ends it. As long as only entries within the limits of the format come in, a
full flush of a log that can be written to succeeds. Where there is no room for
them they stay pending until there is.
-/

namespace ResolverLog

open Bytes

namespace Service

variable {s : Service} {e : Entry} {entries : List Entry} {path : Bytes}

/-! ## Flushing -/

/-- A note leaves a path one that can be written to. -/
theorem writable_note (h : s.files.Writable path) (level : Level) (text : Bytes) :
    (s.note level text).files.Writable path := by
  change (s.journal.enter s.files ⟨level, text⟩).2.Writable path
  rcases s.journal.enter_cases s.files ⟨level, text⟩ with heq | ⟨place, -, hagree⟩
  · rw [heq]
    exact h
  · exact hagree.writable h

/-- A batch within the limits of the format is written where the log can be written to. -/
theorem write_of_storable (hw : s.files.Writable s.recorder.archive.path)
    (h : ∀ e ∈ entries, e.Storable) : ∃ written, s.write entries = (written, .ok ()) := by
  rw [write, Archive.batch_of_storable h]
  simp only
  generalize ascii "querylog: check ok: " ++ _ ++ _ = check
  generalize ascii "querylog: " ++ _ ++ _ ++ _ ++ _ = serialized
  obtain ⟨files, ha⟩ := Files.append?_of_writable
    (writable_note (writable_note hw .debug check) .debug serialized)
    (ofLines (entries.map Record.line))
  rw [Archive.put, ha]
  exact ⟨_, rfl⟩

/-- Any other batch is refused before anything is written. -/
theorem write_of_not_storable (s : Service) (h : ∃ e ∈ entries, ¬ e.Storable) :
    ∃ cause, s.write entries = (s, .error (.encode cause)) := by
  obtain ⟨cause, hb⟩ := Archive.batch_of_not_storable h
  exact ⟨cause, by rw [write, hb]⟩

/-- The service with its wish for a flush withdrawn. -/
def calmed (s : Service) : Service :=
  { s with recorder := { s.recorder with wakeRequested := false } }

theorem flush_of_storable (hw : s.files.Writable s.recorder.archive.path)
    (h : ∀ e ∈ s.recorder.pending, e.Storable) :
    (s.flush true).2 = .ok () ∧ (s.flush true).1.recorder.pending = [] := by
  obtain ⟨written, hwrite⟩ : ∃ written, s.calmed.write s.recorder.pending = (written, .ok ()) :=
    write_of_storable hw h
  rw [calmed] at hwrite
  rw [flush, if_neg (by simp)]
  simp only [hwrite]
  split
  · rename_i hempty
    exact ⟨rfl, List.isEmpty_iff.mp hempty⟩
  · exact ⟨rfl, rfl⟩

theorem flush_of_not_storable (h : ∃ e ∈ s.recorder.pending, ¬ e.Storable) :
    ∃ cause, s.flush true = (s.calmed, .error (.archive (.encode cause))) := by
  obtain ⟨cause, hwrite⟩ := write_of_not_storable s.calmed h
  obtain ⟨e, he, -⟩ := h
  have hempty : s.recorder.pending.isEmpty = false :=
    List.isEmpty_eq_false_iff.mpr (List.ne_nil_of_mem he)
  refine ⟨cause, ?_⟩
  rw [calmed] at hwrite
  rw [flush, if_neg (by simp)]
  simp only [hempty, Bool.false_eq_true, if_false, hwrite]
  rfl

/-! ## Where there is no room -/

theorem files_note_of_full (hfull : s.files.full = true) (level : Level) (text : Bytes) :
    (s.note level text).files = s.files := by
  change (s.journal.enter s.files ⟨level, text⟩).2 = s.files
  rw [Journal.enter]
  split
  · have hnone : s.files.append? s.journal.path (Note.line ⟨level, text⟩) = none := by
      rw [Files.append?, if_pos hfull]
    simp only [Journal.store, hnone, Option.getD_none, ite_self]
  · rfl

/-- A batch within the limits of the format is not written where there is no room for it. -/
theorem write_of_full (hfull : s.files.full = true)
    (ho : s.files.opens s.recorder.archive.path = true) (h : ∀ e ∈ entries, e.Storable) :
    ∃ kept, s.write entries = (kept, .error (.writeFailed s.recorder.archive.path)) ∧
      kept.recorder = s.recorder ∧ kept.files = s.files := by
  rw [write, Archive.batch_of_storable h]
  simp only
  generalize ascii "querylog: check ok: " ++ _ ++ _ = check
  generalize ascii "querylog: " ++ _ ++ _ ++ _ ++ _ = serialized
  have hfiles : ((s.note .debug check).note .debug serialized).files = s.files := by
    have hchecked := files_note_of_full hfull .debug check
    exact (files_note_of_full (hchecked ▸ hfull) .debug serialized).trans hchecked
  have hnone : s.files.append? s.recorder.archive.path (ofLines (entries.map Record.line))
      = none := by
    rw [Files.append?, if_pos hfull]
  rw [hfiles, Archive.put, hnone, Archive.putFault, if_pos ho]
  exact ⟨_, rfl, rfl, hfiles⟩

/-- A full flush fails where the active file can be opened and there is no room, and leaves the
pending entries and the files as they were. -/
theorem flush_of_full (hfull : s.files.full = true)
    (ho : s.files.opens s.recorder.archive.path = true) (hne : s.recorder.pending ≠ [])
    (h : ∀ e ∈ s.recorder.pending, e.Storable) :
    ∃ kept, s.flush true
        = (kept, .error (.archive (.writeFailed s.recorder.archive.path))) ∧
      kept.recorder = s.calmed.recorder ∧ kept.files = s.files := by
  obtain ⟨kept, hwrite, hrecorder, hfiles⟩ := write_of_full (s := s.calmed) hfull ho h
  rw [calmed] at hwrite
  rw [flush, if_neg (by simp)]
  simp only [List.isEmpty_eq_false_iff.mpr hne, Bool.false_eq_true, if_false, hwrite]
  exact ⟨kept, rfl, hrecorder, hfiles⟩

/-! ## What is pending -/

theorem pending_clear (s : Service) : s.clear.1.recorder.pending = [] := by
  rw [recorder_clear]

theorem ingest_eq_accepted_iff {now : Int64} :
    (s.ingest e now).2 = .accepted ↔ refusal? s.recorder e = none := by
  constructor
  · exact refusal?_of_accepted
  · intro h
    rw [ingest, h]

end Service

namespace Op

variable {s : Service} {l : Ledger} {op : Op} {ops : List Op} {e : Entry}

/-- Only a clearing takes back what has been accepted. -/
theorem accepted_after (l : Ledger) (s : Service) (hop : op ≠ clear) :
    (l.after s op).accepted = l.accepted ++ op.admitted s := by
  cases op with
  | ingest e now =>
      rw [Ledger.after, admitted]
      split
      · rfl
      · rw [List.append_nil]
  | rotateLog =>
      change (l.after s rotateLog).accepted = l.accepted ++ []
      rw [Ledger.after, List.append_nil]
      split
      · rfl
      · rfl
  | clear => exact absurd rfl hop
  | start _ | flush _ | rotateHour | configure _ _ | setStatsHours _ | stop | startBackground
  | settle | awaitPending _ _ => exact (List.append_nil _).symm

/-- Any operation but a clearing adds to the pending entries what it takes in, and removes only
entries within the limits of the format. -/
theorem pending_apply (s : Service) (hop : op ≠ clear) :
    ∃ written : List Entry, (∀ e ∈ written, e.Storable) ∧
      s.recorder.pending ++ op.admitted s = written ++ (op.apply s).recorder.pending := by
  cases op.effect s with
  | keeps hkeeps hnone _ _ =>
      rw [hnone, List.append_nil]
      exact hkeeps.pending_eq
  | starts hphase =>
      obtain ⟨written, hwritten, heq⟩ := (Service.quiet_start hphase _).pending_eq
      exact ⟨written, hwritten, (List.append_nil _).trans heq⟩
  | takes haccepted =>
      rw [admitted, if_pos haccepted]
      exact (Service.quiet_ingest haccepted).pending_eq
  | rotates =>
      refine ⟨[], List.forall_mem_nil _, ?_⟩
      rw [apply, Service.recorder_rotateLog]
      exact List.append_nil _
  | clears => exact absurd rfl hop

/-- Only a clearing takes away a pending entry that cannot be written. -/
theorem mem_pending_applyAll (hops : clear ∉ ops) (he : e ∈ s.recorder.pending)
    (hs : ¬ e.Storable) : e ∈ (applyAll s l ops).1.recorder.pending := by
  induction ops generalizing s l with
  | nil => exact he
  | cons op ops ih =>
      rw [List.mem_cons, not_or] at hops
      refine ih hops.2 ?_
      obtain ⟨written, hwritten, hp⟩ := pending_apply s (Ne.symm hops.1)
      have hmem : e ∈ written ++ (op.apply s).recorder.pending := by
        rw [← hp]
        exact List.mem_append_left _ he
      rcases List.mem_append.mp hmem with hmem | hmem
      · exact absurd (hwritten e hmem) hs
      · exact hmem

end Op

namespace Run

variable {allowed : Service → Op → Prop} {config : Config} {files : Files} {journal : Journal}
  {s : Service} {l : Ledger}

/-- What is pending has been accepted since the last clearing. -/
theorem pending_subset (run : Run allowed (.launch config files journal) s l) :
    s.recorder.pending ⊆ l.accepted := by
  induction run with
  | launched => exact List.nil_subset _
  | @call s l run op ok ih =>
      by_cases hop : op = .clear
      · subst hop
        rw [Op.apply, Service.pending_clear]
        exact List.nil_subset _
      · obtain ⟨written, -, hp⟩ := Op.pending_apply s hop
        rw [Op.accepted_after l s hop]
        intro e he
        have hmem : e ∈ s.recorder.pending ++ op.admitted s := by
          rw [hp]
          exact List.mem_append_right written he
        rcases List.mem_append.mp hmem with hmem | hmem
        · exact List.mem_append_left _ (ih hmem)
        · exact List.mem_append_right _ hmem
  | outside run files active backup ih => exact ih

/-- In every state of a log that can be written to, a full flush succeeds just when all pending
entries are within the limits of the format, and then nothing is pending. That is so if all
accepted entries are, but to be accepted an entry only has to come to a running and enabled
recorder and to ask for a name. Once an entry outside the limits is pending, every full flush
fails on it until the log is cleared, and leaves the pending entries and the files as they were. -/
theorem flush_eq_ok_iff (run : Run (fun _ _ => True) (.launch config files journal) s l)
    (hw : s.files.Writable s.recorder.archive.path) :
    ((s.flush true).2 = .ok () ↔ ∀ e ∈ s.recorder.pending, e.Storable) ∧
    ((s.flush true).2 = .ok () → (s.flush true).1.recorder.pending = []) ∧
    ((∀ e ∈ l.accepted, e.Storable) → (s.flush true).2 = .ok ()) ∧
    (∀ e now, (s.ingest e now).2 = .accepted ↔
      s.recorder.phase = .running ∧ s.recorder.config.enabled = true ∧
        e.question.isEmpty = false ∧ e.name?.isSome = true) ∧
    ((∃ e ∈ s.recorder.pending, ¬ e.Storable) → ∀ ops s', Op.clear ∉ ops →
      (Op.applyAll s l ops).1 = s' →
      ∃ cause, s'.flush true = (s'.calmed, .error (.archive (.encode cause)))) := by
  have hstorable : (s.flush true).2 = .ok () → ∀ e ∈ s.recorder.pending, e.Storable := by
    intro hok
    by_contra hnot
    simp only [not_forall] at hnot
    obtain ⟨e, he, hs⟩ := hnot
    obtain ⟨cause, hflush⟩ := Service.flush_of_not_storable ⟨e, he, hs⟩
    rw [hflush] at hok
    cases hok
  refine ⟨⟨hstorable, fun h => (Service.flush_of_storable hw h).1⟩,
    fun hok => (Service.flush_of_storable hw (hstorable hok)).2,
    fun h => (Service.flush_of_storable hw fun e he => h e (run.pending_subset he)).1,
    fun e now => Service.ingest_eq_accepted_iff.trans Service.refusal?_eq_none_iff, ?_⟩
  rintro ⟨e, he, hs⟩ ops s' hops rfl
  exact Service.flush_of_not_storable ⟨e, Op.mem_pending_applyAll hops he hs, hs⟩

end Run

/-! ## An entry that cannot be written -/

/-- An entry of this time with a reason that the record format does not know. -/
def Entry.unreasoned (time : Int64) : Entry :=
  { Entry.asking time with verdict := ⟨false, ⟨7⟩, [], 0⟩ }

/-- The entry has been accepted and is pending. -/
def unwritten : Service × Ledger :=
  Op.applyAll (.launch .small .empty .silent) .empty [.start 5, .ingest (.unreasoned 1) 5]

theorem run_unwritten :
    Run (fun _ _ => True) (.launch .small .empty .silent) unwritten.1 unwritten.2 :=
  Run.applyAll .launched _ fun _ _ _ => trivial

theorem writable_unwritten : unwritten.1.files.Writable unwritten.1.recorder.archive.path := by
  decide +kernel

/-- The full flush fails on the entry that has been accepted, and fails again behind another one. -/
theorem Run.flush_eq_ok_iff_unwritten :
    unwritten.2.accepted = [.unreasoned 1] ∧ (unwritten.1.flush true).2 ≠ .ok () ∧
    ∃ cause, ((unwritten.1.ingest (.asking 2) 5).1.flush true).2
      = .error (.archive (.encode cause)) := by
  obtain ⟨hiff, -, -, -, hstuck⟩ := Run.flush_eq_ok_iff run_unwritten writable_unwritten
  have hpending : Entry.unreasoned 1 ∈ unwritten.1.recorder.pending := by decide +kernel
  have hlimit : ¬ (Entry.unreasoned 1).Storable := by decide
  obtain ⟨cause, hflush⟩ := hstuck ⟨_, hpending, hlimit⟩ [.ingest (.asking 2) 5] _ (by simp) rfl
  exact ⟨by decide +kernel, fun hok => hlimit (hiff.mp hok _ hpending), cause,
    congrArg Prod.snd hflush⟩

/-- Not every flush of a running log that can be written to succeeds. -/
theorem not_flush_eq_ok :
    ¬ ∀ (config : Config) (files : Files) (journal : Journal) (s : Service) (l : Ledger),
      Run (fun _ _ => True) (.launch config files journal) s l → s.recorder.phase = .running →
      s.files.Writable s.recorder.archive.path →
      (s.flush true).2 = .ok () ∧ (s.flush true).1.recorder.pending = [] := by
  intro h
  obtain ⟨hok, -⟩ := h _ _ _ _ _ run_unwritten (by decide +kernel) writable_unwritten
  exact absurd hok (by decide +kernel)

end ResolverLog
