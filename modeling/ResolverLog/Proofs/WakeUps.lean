import ResolverLog.Proofs.Signals

/-!
# Waking the writer

The writer waits for its interval to pass or to be called. It is called when an
accepted entry makes the batch large enough, once for each flush: a mark stays
until a flush begins, and while it is there nobody is called.

The mark is set and the writer called together, but it can be set when there is
no writer yet, and the writer that comes later is not told. Until a flush begins
nobody will be called, however many entries pend, so they wait for the interval.
This is the only way in which a call is lost: a mark that was set while there was
a writer means that the writer has been called, or has heard the call and is
about to write.

## Implementation notes

The operations of a service see the runs of its writer as a whole. Here the
writer takes turns with them: it leaves its wait, it begins to write, and it is
done, and entries can come in between. A flush takes all pending entries with it
when it begins, and gives them back, in front of newer ones, when they cannot be
written. No other flush begins meanwhile. That the turns of a run make up
`runWriter` is `turns_run`.

What a mark means for the writer depends on the past, so a run carries along
whether its mark has been set unheard.
-/

namespace ResolverLog

open Bytes
open Relation (ReflTransGen)

variable {s : Service} {e : Entry} {now : Int64}

/-! ## A service and its writer -/

/-- Where the writer is in its round. -/
inductive Stage
  /-- It waits for a call and for its interval to pass. -/
  | waiting
  /-- It has heard a call and is about to write. -/
  | called
  /-- Its interval has passed and it is about to write. -/
  | timely
  | writing
  deriving DecidableEq, Repr

/-- A service whose writer takes turns with its callers. Without a writer it waits for none. -/
structure Staffed where
  service : Service
  stage : Stage
  /-- The entries that a flush has taken and not yet written. -/
  batch : Option (List Entry)

namespace Staffed

/-- The writer leaves its wait; a call is heard but once. -/
def wake (w : Staffed) (stage : Stage) (task : Task) : Staffed :=
  { w with
    service := { w.service with recorder := { w.service.recorder with
      writer := some { task with triggered := false } } }
    stage }

/-- A flush begins. -/
def take (w : Staffed) (stage : Stage) : Staffed :=
  ⟨w.service.emptied, stage, some w.service.recorder.pending⟩

/-- The writer has come to the end of its run. A call that it has not heard stays. -/
def endRun (task : Task) : Service × Except LogError Unit → Service
  | (s, .ok ()) =>
    { s with recorder := { s.recorder with
      writer := some { task.finish true with triggered := task.triggered } } }
  | (s, .error e) =>
    { s with recorder := { s.recorder with
      writer := some { task.finish false with triggered := task.triggered } } }.note .error
      (ascii "task flush: " ++ e.message ++ ascii "; retrying on next tick")

/-- A flush ends, that of the writer with its run. -/
def put (w : Staffed) (batch : List Entry) : Staffed :=
  match w.stage, w.service.recorder.writer with
  | .writing, some task => ⟨endRun task (w.service.storeBatch batch), .waiting, none⟩
  | stage, _ => ⟨(w.service.storeBatch batch).1, stage, none⟩

/-- The turns that nobody has to ask for and that wait for no time to pass. -/
inductive Turn : Staffed → Staffed → Prop
  /-- The writer hears that it has been called. -/
  | hear {w : Staffed} {task : Task} (writer : w.service.recorder.writer = some task)
      (waiting : w.stage = .waiting) (triggered : task.triggered = true) :
      Turn w (w.wake .called task)
  /-- The writer begins to write. -/
  | take {w : Staffed} (ready : w.stage = .called ∨ w.stage = .timely) (free : w.batch = none) :
      Turn w (w.take .writing)
  /-- A flush ends, whoever began it. -/
  | put {w : Staffed} {batch : List Entry} (held : w.batch = some batch) : Turn w (w.put batch)

/-- An operation can be carried out: none that flushes while a flush is going on, and a stop not
while the writer is at work. -/
def Admits (w : Staffed) : Op → Prop
  | .flush _ | .configure _ _ | .clear => w.batch = none
  | .stop => w.batch = none ∧ w.stage = .waiting
  | op => op.isCall = true

/-- What can happen next. -/
inductive Move : Staffed → Staffed → Prop
  | turn {w w' : Staffed} (h : Turn w w') : Move w w'
  | call {w : Staffed} (op : Op) (admitted : w.Admits op) :
      Move w { w with service := op.apply w.service }
  /-- The interval passes without a call. -/
  | tick {w : Staffed} {task : Task} (writer : w.service.recorder.writer = some task)
      (waiting : w.stage = .waiting) (uncalled : task.triggered = false) :
      Move w (w.wake .timely task)
  /-- A caller begins to write. -/
  | take {w : Staffed} (free : w.batch = none) : Move w (w.take w.stage)
  | outside {w : Staffed} (files : Files) :
      Move w { w with service := { w.service with files } }

/-- Whether the mark was set when there was no writer to be called, if it is set. -/
def unheardAfter (r r' : Recorder) (unheard : Bool) : Bool :=
  r'.wakeRequested && if r.wakeRequested then unheard else r.writer.isNone

/-- A run from a service without a writer, which tells whether its mark was set unheard. -/
inductive Course (first : Service) : Staffed → Bool → Prop
  | begun : Course first ⟨first, .waiting, none⟩ false
  | step {w w' : Staffed} {unheard : Bool} (run : Course first w unheard) (h : Move w w') :
      Course first w' (unheardAfter w.service.recorder w'.service.recorder unheard)

/-- Whether the writer has a call to hear, if there is a writer. -/
def bell (w : Staffed) : Option Bool :=
  w.service.recorder.writer.map Task.triggered

/-- The writer has been called, and the flush of the call has not begun. -/
def IsCalled (w : Staffed) : Prop :=
  w.stage = .called ∨ w.bell = some true

instance (w : Staffed) : Decidable w.IsCalled :=
  inferInstanceAs (Decidable (_ ∨ _))

/-- What the mark means: it has called the writer, unless it was set unheard, and then nobody
calls. -/
structure Sound (w : Staffed) (unheard : Bool) : Prop where
  vacant : w.bell = none → w.stage = .waiting
  idle : w.service.recorder.phase ≠ .running → w.service.recorder.wakeRequested = false
  busy : w.stage = .writing → w.batch ≠ none
  heard : w.service.recorder.wakeRequested = true → unheard = false → w.IsCalled
  marked : unheard = true → w.service.recorder.wakeRequested = true
  uncalled : unheard = true → ¬ w.IsCalled

variable {w w' : Staffed} {unheard : Bool} {task : Task} {batch : List Entry}

theorem unheardAfter_of_unmarked {r r' : Recorder} (h : r'.wakeRequested = false) :
    unheardAfter r r' unheard = false := by
  rw [unheardAfter, h, Bool.false_and]

theorem recorder_endRun (task : Task) (ended : Service × Except LogError Unit) :
    ∃ done, (endRun task ended).recorder = { ended.1.recorder with writer := some done } ∧
      done.triggered = task.triggered := by
  obtain ⟨s, r⟩ := ended
  cases r with
  | ok _ => exact ⟨_, rfl, rfl⟩
  | error e => exact ⟨_, rfl, rfl⟩

/-- The end of a flush gives entries back at most, and ends the run of a writer that was writing. A
call that has not been heard stays. -/
theorem put_spec (w : Staffed) (batch : List Entry) :
    (w.put batch).batch = none ∧
      (∃ pending writer,
        (w.put batch).service.recorder = { w.service.recorder with pending, writer } ∧
          w.service.recorder.pending <:+ pending) ∧
      (w.put batch).bell = w.bell ∧
      ((w.put batch).stage = w.stage ∨ w.stage = .writing ∧ (w.put batch).stage = .waiting) ∧
      ((w.put batch).stage = .writing → w.bell = none) := by
  obtain ⟨pending, hrecorder, hsuffix⟩ := w.service.recorder_storeBatch batch
  rw [put, bell, bell]
  split
  · rename_i task hstage hwriter
    obtain ⟨done, hended, htriggered⟩ := recorder_endRun task (w.service.storeBatch batch)
    rw [hrecorder] at hended
    refine ⟨rfl, ⟨pending, some done, hended, hsuffix⟩, ?_, Or.inr ⟨hstage, rfl⟩, nofun⟩
    simp only [hended, hwriter, Option.map_some, htriggered]
  · rename_i hother
    refine ⟨rfl, ⟨pending, w.service.recorder.writer, hrecorder, hsuffix⟩, ?_, Or.inl rfl, ?_⟩
    · simp only [hrecorder]
    · intro hstage
      cases hwriter : w.service.recorder.writer with
      | none => rfl
      | some task => exact absurd hwriter (hother task hstage)

theorem isCalled_put (w : Staffed) (batch : List Entry) :
    (w.put batch).IsCalled ↔ w.IsCalled := by
  obtain ⟨-, -, hbell, hstage, -⟩ := put_spec w batch
  rw [IsCalled, IsCalled, hbell]
  rcases hstage with hstage | ⟨hbefore, hafter⟩
  · rw [hstage]
  · rw [hbefore, hafter]
    simp

namespace Sound

theorem heard_of_unmarked (h : Sound w unheard)
    (hmark : w.service.recorder.wakeRequested = false) : unheard = false := by
  cases hu : unheard with
  | false => rfl
  | true =>
      rw [h.marked hu] at hmark
      cases hmark

/-- Where the mark stays it means what it meant. -/
theorem unheardAfter_eq (h : Sound w unheard) {r' : Recorder}
    (hmark : r'.wakeRequested = w.service.recorder.wakeRequested) :
    unheardAfter w.service.recorder r' unheard = unheard := by
  rw [unheardAfter, hmark]
  cases hm : w.service.recorder.wakeRequested with
  | true => rw [if_pos rfl, Bool.true_and]
  | false => rw [Bool.false_and, h.heard_of_unmarked hm]

/-- A mark that is set while there is a writer is heard, and an old one means what it meant. -/
theorem unheardAfter_of_marked (h : Sound w unheard) {r' : Recorder}
    (hmark : r'.wakeRequested = true) (hwriter : w.service.recorder.writer.isSome) :
    unheardAfter w.service.recorder r' unheard = unheard := by
  cases hm : w.service.recorder.wakeRequested with
  | true => exact h.unheardAfter_eq (hmark.trans hm.symm)
  | false =>
      rw [unheardAfter, hmark, hm, Option.isNone_eq_false_iff.mpr hwriter, h.heard_of_unmarked hm]
      rfl

/-- Without a mark there is nothing to be heard. -/
theorem of_unmarked (hmark : w.service.recorder.wakeRequested = false)
    (vacant : w.bell = none → w.stage = .waiting) (busy : w.stage = .writing → w.batch ≠ none)
    (r : Recorder) : Sound w (unheardAfter r w.service.recorder unheard) := by
  rw [unheardAfter_of_unmarked hmark]
  refine ⟨vacant, fun _ => hmark, busy, ?_, nofun, nofun⟩
  intro hmarked
  rw [hmark] at hmarked
  cases hmarked

/-- Where neither the mark nor the call changes, the mark means what it meant. -/
theorem of_same (h : Sound w unheard)
    (hmark : w'.service.recorder.wakeRequested = w.service.recorder.wakeRequested)
    (hcalled : w'.IsCalled ↔ w.IsCalled) (vacant : w'.bell = none → w'.stage = .waiting)
    (idle : w'.service.recorder.phase ≠ .running → w'.service.recorder.wakeRequested = false)
    (busy : w'.stage = .writing → w'.batch ≠ none) :
    Sound w' (unheardAfter w.service.recorder w'.service.recorder unheard) := by
  rw [h.unheardAfter_eq hmark]
  refine ⟨vacant, idle, busy, ?_, ?_, ?_⟩
  · rw [hmark, hcalled]
    exact h.heard
  · rw [hmark]
    exact h.marked
  · rw [hcalled]
    exact h.uncalled

/-- A new mark calls the writer, and is set unheard if there is none. -/
theorem of_asked (h : Sound w unheard) {s : Service}
    (hunmarked : w.service.recorder.wakeRequested = false)
    (hmark : s.recorder.wakeRequested = true)
    (hwriter : s.recorder.writer = w.service.recorder.writer.map Task.trigger)
    (idle : s.recorder.phase ≠ .running → s.recorder.wakeRequested = false) :
    Sound { w with service := s } (unheardAfter w.service.recorder s.recorder unheard) := by
  have hghost : unheardAfter w.service.recorder s.recorder unheard
      = w.service.recorder.writer.isNone := by
    rw [unheardAfter, hmark, hunmarked]
    rfl
  rw [hghost]
  cases hw : w.service.recorder.writer with
  | none =>
      have hnone : bell { w with service := s } = none := by
        rw [bell, hwriter, hw]
        rfl
      have hwaiting : w.stage = .waiting := by
        apply h.vacant
        rw [bell, hw]
        rfl
      refine ⟨fun _ => hwaiting, idle, h.busy, nofun, fun _ => hmark, ?_⟩
      rw [IsCalled, hnone, hwaiting]
      simp
  | some task =>
      have hcalled : bell { w with service := s } = some true := by
        rw [bell, hwriter, hw]
        rfl
      refine ⟨?_, idle, h.busy, fun _ _ => Or.inr hcalled, nofun, nofun⟩
      rw [hcalled]
      exact nofun

theorem turn (h : Sound w unheard) (hturn : Turn w w') :
    Sound w' (unheardAfter w.service.recorder w'.service.recorder unheard) := by
  cases hturn with
  | hear writer waiting triggered =>
      have hcalled : w.IsCalled := by
        right
        rw [bell, writer, Option.map_some, triggered]
      exact h.of_same rfl (iff_of_true (Or.inl rfl) hcalled) nofun h.idle nofun
  | take ready free =>
      refine of_unmarked (w := w.take .writing) rfl ?_ (fun _ => Option.some_ne_none _) _
      intro hvacant
      rw [h.vacant hvacant] at ready
      exact absurd ready (by decide)
  | put held =>
      rename_i batch
      obtain ⟨-, ⟨pending, writer, hrecorder, -⟩, hbell, hstage, hdone⟩ := put_spec w batch
      have vacant : (w.put batch).bell = none → (w.put batch).stage = .waiting := by
        intro hvacant
        rw [hbell] at hvacant
        rcases hstage with hstage | ⟨-, hstage⟩
        · exact hstage.trans (h.vacant hvacant)
        · exact hstage
      refine h.of_same (by rw [hrecorder]) (isCalled_put w batch) vacant ?_ ?_
      · rw [hrecorder]
        exact h.idle
      · intro hwriting
        rw [vacant (hbell.trans (hdone hwriting))] at hwriting
        cases hwriting

/-- A call from outside may set the mark, and then it calls the writer if there is one. -/
theorem call (h : Sound w unheard) {op : Op} (admitted : w.Admits op) :
    Sound { w with service := op.apply w.service }
      (unheardAfter w.service.recorder (op.apply w.service).recorder unheard) := by
  have hcall : op.isCall = true := by
    cases op with
    | settle | awaitPending _ _ => exact admitted
    | _ => rfl
  have hidle := op.idle_apply hcall h.idle
  have hbell : ∀ writer, (op.apply w.service).recorder.writer = writer →
      bell { w with service := op.apply w.service } = writer.map Task.triggered := by
    rintro _ rfl
    rfl
  cases op.signal w.service hcall with
  | keeps mark writer =>
      have hsame : bell { w with service := op.apply w.service } = w.bell := hbell _ writer
      refine h.of_same mark ?_ ?_ hidle h.busy
      · rw [IsCalled, IsCalled, hsame]
      · rw [hsame]
        exact h.vacant
  | relieves mark writer =>
      refine of_unmarked (w := { w with service := op.apply w.service }) mark ?_ h.busy _
      rw [hbell _ writer]
      exact h.vacant
  | asks running unmarked mark writer => exact h.of_asked unmarked mark writer hidle
  | hires vacant mark writer uncalled =>
      have hnone : w.bell = none := by
        rw [bell, vacant]
        rfl
      have hwaiting := h.vacant hnone
      have hnew : bell { w with service := op.apply w.service } = some false := by
        rw [hbell _ writer, Option.map_some, uncalled]
      refine h.of_same mark ?_ ?_ hidle h.busy
      · rw [IsCalled, IsCalled, hnew, hnone, hwaiting]
        simp
      · rw [hnew]
        exact nofun
  | dismisses stops writer running idle =>
      obtain ⟨-, hwaiting⟩ : w.batch = none ∧ w.stage = .waiting := by
        rw [stops] at admitted
        exact admitted
      have hmark : (op.apply w.service).recorder.wakeRequested = false := by
        by_cases hphase : w.service.recorder.phase = .running
        · exact running hphase
        · exact (idle hphase).trans (h.idle hphase)
      exact of_unmarked (w := { w with service := op.apply w.service }) hmark (fun _ => hwaiting)
        h.busy _

theorem move (h : Sound w unheard) (hmove : Move w w') :
    Sound w' (unheardAfter w.service.recorder w'.service.recorder unheard) := by
  cases hmove with
  | turn hturn => exact h.turn hturn
  | call op admitted => exact h.call admitted
  | @tick task writer waiting uncalled =>
      have hquiet : ¬ w.IsCalled := by
        rw [IsCalled, waiting, bell, writer, Option.map_some, uncalled]
        simp
      have hstill : ¬ (w.wake .timely task).IsCalled := by
        rintro (hcalled | hcalled)
        · cases hcalled
        · cases hcalled
      exact h.of_same rfl (iff_of_false hstill hquiet) nofun h.idle nofun
  | take free =>
      exact of_unmarked (w := w.take w.stage) rfl h.vacant (fun _ => Option.some_ne_none _) _
  | outside files => exact h.of_same rfl Iff.rfl h.vacant h.idle h.busy

end Sound

/-- In every course the mark means what it says. -/
theorem Course.sound {first : Service} (h : first.recorder.wakeRequested = false)
    (run : Course first w unheard) : Sound w unheard := by
  induction run with
  | begun =>
      refine ⟨fun _ => rfl, fun _ => h, nofun, ?_, nofun, nofun⟩
      intro hmark
      rw [h] at hmark
      cases hmark
  | step run hmove ih => exact ih.move hmove

/-! ## What a call leads to -/

/-- A writer that has been called takes what is pending without waiting for its interval. -/
theorem exists_taken (h : Sound w unheard) (hcalled : w.IsCalled) :
    ∃ w' taken, ReflTransGen Turn w w' ∧ w'.batch = some taken ∧
      w'.service.recorder.pending = [] ∧ w.service.recorder.pending <:+ taken := by
  -- With nobody else writing, the writer hears the call, unless it has, and begins.
  have hfree : ∀ {w : Staffed}, w.batch = none → w.stage ≠ .writing → w.IsCalled →
      ∃ w', ReflTransGen Turn w w' ∧ w'.batch = some w.service.recorder.pending ∧
        w'.service.recorder.pending = [] := by
    intro w hbatch hstage hcalled
    by_cases hready : w.stage = .called ∨ w.stage = .timely
    · exact ⟨_, .single (.take hready hbatch), rfl, rfl⟩
    · have hwaiting : w.stage = .waiting := by
        cases hs : w.stage with
        | waiting => rfl
        | called => exact absurd (Or.inl hs) hready
        | timely => exact absurd (Or.inr hs) hready
        | writing => exact absurd hs hstage
      have hbell : w.bell = some true :=
        hcalled.resolve_left fun hs => hready (Or.inl hs)
      obtain ⟨task, hwriter, htriggered⟩ := Option.map_eq_some_iff.mp hbell
      have hheard : Turn (w.wake .called task) ((w.wake .called task).take .writing) :=
        .take (Or.inl rfl) hbatch
      exact ⟨_, .head (.hear hwriter hwaiting htriggered) (.single hheard), rfl, rfl⟩
  cases hbatch : w.batch with
  | none =>
      have hstage : w.stage ≠ .writing := fun hwriting => h.busy hwriting hbatch
      obtain ⟨w', hturns, htaken, hpending⟩ := hfree hbatch hstage hcalled
      exact ⟨w', _, hturns, htaken, hpending, List.suffix_rfl⟩
  | some batch =>
      obtain ⟨hnone, ⟨pending, writer, hrecorder, hsuffix⟩, hbell, -, hdone⟩ := put_spec w batch
      have hput := h.turn (.put hbatch)
      have hstage : (w.put batch).stage ≠ .writing := fun hwriting => hput.busy hwriting hnone
      obtain ⟨w', hturns, htaken, hpending⟩ :=
        hfree hnone hstage ((isCalled_put w batch).mpr hcalled)
      refine ⟨w', _, .head (.put hbatch) hturns, htaken, hpending, ?_⟩
      rw [hrecorder]
      exact hsuffix

/-- A writer that waits and has not been called takes nothing before its interval has passed. -/
theorem pending_suffix_of_not_called (hcalled : ¬ w.IsCalled) (hwaiting : w.stage = .waiting)
    (hturns : ReflTransGen Turn w w') :
    (¬ w'.IsCalled ∧ w'.stage = .waiting) ∧
      w.service.recorder.pending <:+ w'.service.recorder.pending := by
  induction hturns with
  | refl => exact ⟨⟨hcalled, hwaiting⟩, List.suffix_rfl⟩
  | @tail between _ _ hturn ih =>
      obtain ⟨⟨hcalled, hwaiting⟩, hsuffix⟩ := ih
      cases hturn with
      | hear writer waiting triggered =>
          refine absurd (Or.inr ?_) hcalled
          rw [bell, writer, Option.map_some, triggered]
      | take ready free =>
          rw [hwaiting] at ready
          exact absurd ready (by decide)
      | put held =>
          rename_i batch
          obtain ⟨-, ⟨pending, writer, hrecorder, hmore⟩, -, hstage, -⟩ := put_spec between batch
          refine ⟨⟨fun h => hcalled ((isCalled_put between batch).mp h), ?_⟩, hsuffix.trans ?_⟩
          · rcases hstage with hstage | ⟨-, hstage⟩
            · exact hstage.trans hwaiting
            · exact hstage
          · rw [hrecorder]
            exact hmore

/-! ## A run of the writer as a whole -/

/-- Ending a flush does not depend on the writer. -/
theorem storeBatch_setWriter (s : Service) (writer : Option Task) (batch : List Entry) :
    ({ s with recorder := { s.recorder with writer } } : Service).storeBatch batch
      = ({ (s.storeBatch batch).1 with
            recorder := { (s.storeBatch batch).1.recorder with writer } },
          (s.storeBatch batch).2) := by
  have hrecorder := (Service.write_cases s batch).1
  have hwrite := Service.write_setRecorder s (r := { s.recorder with writer }) rfl batch
  rw [Service.storeBatch, Service.storeBatch, hwrite]
  cases batch.isEmpty with
  | true => rfl
  | false =>
      cases hw : s.write batch with
      | mk written r =>
          rw [hw] at hrecorder
          simp only [Bool.false_eq_true, if_false]
          cases r with
          | ok _ => rw [← hrecorder]
          | error cause => rw [← hrecorder]

/-- The turns of the writer, from the beginning of its flush to the end, are its run. -/
theorem turns_run {stage : Stage} (hready : stage = .called ∨ stage = .timely) (s : Service)
    (task : Task) :
    ReflTransGen Turn (wake ⟨s, .waiting, none⟩ stage task) ⟨s.runWriter task, .waiting, none⟩ := by
  let writing := (wake ⟨s, .waiting, none⟩ stage task).take .writing
  have hend : writing.service.storeBatch s.recorder.pending
      = ({ (s.flush true).1 with recorder := { (s.flush true).1.recorder with
            writer := some { task with triggered := false } } }, (s.flush true).2) := by
    rw [s.flush_true]
    exact storeBatch_setWriter s.emptied _ _
  have hput : writing.put s.recorder.pending = ⟨s.runWriter task, .waiting, none⟩ := by
    change Staffed.mk (endRun { task with triggered := false }
      (writing.service.storeBatch s.recorder.pending)) .waiting none = _
    rw [hend, Service.runWriter]
    obtain ⟨flushed, r⟩ := s.flush true
    cases r with
    | ok _ => rfl
    | error e => rfl
  rw [← hput]
  exact .head (.take hready rfl) (.single (.put rfl))

/-- A writer that waits can run as a whole, called or not. -/
theorem moves_run (hwriter : s.recorder.writer = some task) :
    ReflTransGen Move ⟨s, .waiting, none⟩ ⟨s.runWriter task, .waiting, none⟩ := by
  have hturns : ∀ {w w' : Staffed}, ReflTransGen Turn w w' → ReflTransGen Move w w' :=
    fun h => ReflTransGen.mono (fun _ _ => .turn) _ _ h
  cases htriggered : task.triggered with
  | true =>
      exact .head (.turn (.hear hwriter rfl htriggered)) (hturns (turns_run (.inl rfl) s task))
  | false => exact .head (.tick hwriter rfl htriggered) (hturns (turns_run (.inr rfl) s task))

theorem admits_of_isCall {op : Op} (h : op.isCall = true) (s : Service) :
    Admits ⟨s, .waiting, none⟩ op := by
  cases op with
  | flush _ | configure _ _ | clear => rfl
  | stop => exact ⟨rfl, rfl⟩
  | _ => exact h

/-- What an operation does to a service is among what can happen to it and its writer. -/
theorem moves_apply (s : Service) (op : Op) :
    ReflTransGen Move ⟨s, .waiting, none⟩ ⟨op.apply s, .waiting, none⟩ := by
  cases op with
  | settle =>
      rw [Op.apply, Service.settle]
      split
      · rename_i task hwriter
        split
        · exact moves_run hwriter
        · exact .refl
      · exact .refl
  | awaitPending patienceMs n =>
      rw [Op.apply, Service.awaitPending]
      split
      · rename_i task hwriter
        split
        · exact moves_run hwriter
        · exact .refl
      · exact .refl
  | _ => exact .single (.call _ (admits_of_isCall rfl s))

/-- So every run of operations is part of a course. -/
theorem Course.applyAll {first : Service} (run : Course first ⟨s, .waiting, none⟩ unheard)
    (l : Ledger) (ops : List Op) :
    ∃ unheard', Course first ⟨(Op.applyAll s l ops).1, .waiting, none⟩ unheard' := by
  have hmoves : ∀ {w w' : Staffed} {unheard : Bool}, Course first w unheard →
      ReflTransGen Move w w' → ∃ unheard', Course first w' unheard' := by
    intro w w' unheard run hmoves
    induction hmoves with
    | refl => exact ⟨_, run⟩
    | tail _ hmove ih =>
        obtain ⟨_, run⟩ := ih
        exact ⟨_, run.step hmove⟩
  induction ops generalizing s l unheard with
  | nil => exact ⟨_, run⟩
  | cons op ops ih =>
      obtain ⟨_, run⟩ := hmoves run (moves_apply s op)
      exact ih run _

/-! ## Lost and heard -/

/-- Whenever an accepted entry fills the batch and there is a writer, the writer has been called, by
this entry or by an earlier one whose flush has not begun, if and only if the mark has not been set
unheard. Then all that is pending is taken without waiting for the interval. Otherwise a writer that
waits takes none of it before the interval has passed. -/
theorem ingest_calls_iff {config : Config} {files : Files} {journal : Journal}
    (run : Course (.launch config files journal) w unheard)
    (haccepted : (w.service.ingest e now).2 = .accepted)
    (hfull : (w.service.ingest e now).1.recorder.batchSize
      ≤ (w.service.ingest e now).1.recorder.pending.length)
    (hwriter : (w.service.ingest e now).1.recorder.writer.isSome) :
    let next : Staffed := { w with service := (w.service.ingest e now).1 }
    (next.IsCalled ↔ unheard = false) ∧
      (next.IsCalled → ∃ w' taken, ReflTransGen Turn next w' ∧ w'.batch = some taken ∧
        w'.service.recorder.pending = [] ∧ next.service.recorder.pending <:+ taken) ∧
      (¬ next.IsCalled → next.stage = .waiting → ∀ w', ReflTransGen Turn next w' →
        next.service.recorder.pending <:+ w'.service.recorder.pending) := by
  intro next
  have hsound : Sound w unheard := run.sound rfl
  have hmark := Service.wakeRequested_ingest haccepted hfull
  rw [Service.isSome_writer_ingest haccepted] at hwriter
  have hnext : Sound next unheard := by
    rw [← hsound.unheardAfter_of_marked hmark hwriter]
    exact hsound.move (.call (.ingest e now) rfl)
  refine ⟨⟨?_, hnext.heard hmark⟩, exists_taken hnext, ?_⟩
  · intro hcalled
    exact Bool.eq_false_of_not_eq_true fun hunheard => hnext.uncalled hunheard hcalled
  · intro hcalled hwaiting w' hturns
    exact (pending_suffix_of_not_called hcalled hwaiting hturns).2

/-- Operations carried out while the writer waits, and whether the mark was set unheard. -/
def watch (s : Service) (unheard : Bool) : List Op → Service × Bool
  | [] => (s, unheard)
  | op :: ops => watch (op.apply s) (unheardAfter s.recorder (op.apply s).recorder unheard) ops

theorem Course.watch {first : Service} (run : Course first ⟨s, .waiting, none⟩ unheard)
    {ops : List Op} (h : ∀ op ∈ ops, op.isCall = true) :
    Course first ⟨(watch s unheard ops).1, .waiting, none⟩ (watch s unheard ops).2 := by
  induction ops generalizing s unheard with
  | nil => exact run
  | cons op ops ih =>
      obtain ⟨hcall, hrest⟩ := List.forall_mem_cons.mp h
      exact ih (run.step (.call op (admits_of_isCall hcall s))) hrest

/-- A log whose writer is there before the first entry. -/
def staffedFirst : Service × Bool :=
  watch (.launch .small .empty .silent) false
    [.start 5, .startBackground, .ingest (.asking 1) 5]

theorem staffedFirst_spec :
    let s := (staffedFirst.1.ingest (.asking 2) 5).1
    staffedFirst.2 = false ∧ (staffedFirst.1.ingest (.asking 2) 5).2 = .accepted ∧
      s.recorder.pending = [.asking 1, .asking 2] ∧
      s.recorder.batchSize ≤ s.recorder.pending.length ∧ s.recorder.writer.isSome := by
  decide +kernel

/-- With the writer at hand, the second entry calls it, and both are taken. -/
theorem ingest_calls_iff_staffedFirst :
    ∃ w' taken, ReflTransGen Turn
        ⟨(staffedFirst.1.ingest (.asking 2) 5).1, .waiting, none⟩ w' ∧
      w'.batch = some taken ∧ w'.service.recorder.pending = [] ∧
      [.asking 1, .asking 2] <:+ taken := by
  have run : Course (.launch .small .empty .silent) ⟨staffedFirst.1, .waiting, none⟩
      staffedFirst.2 := Course.watch .begun (by decide)
  obtain ⟨hunmarked, haccepted, hpending, hfull, hwriter⟩ := staffedFirst_spec
  obtain ⟨hcalled, htaken, -⟩ := ingest_calls_iff run haccepted hfull hwriter
  rw [← hpending]
  exact htaken (hcalled.mpr hunmarked)

/-- A log whose writer comes after two entries have filled the batch. -/
def filledFirst : Service × Bool :=
  watch (.launch .small .empty .silent) false
    [.start 5, .ingest (.asking 1) 5, .ingest (.asking 2) 5, .startBackground]

theorem filledFirst_spec :
    let s := (filledFirst.1.ingest (.asking 3) 5).1
    filledFirst.2 = true ∧ (filledFirst.1.ingest (.asking 3) 5).2 = .accepted ∧
      s.recorder.batchSize ≤ s.recorder.pending.length ∧ s.recorder.writer.isSome ∧
      ¬ IsCalled ⟨s, .waiting, none⟩ := by
  decide +kernel

/-- With the batch filled before, the third entry is accepted into a full batch, and the writer that
has come is not called. -/
theorem not_ingest_calls :
    Course (.launch .small .empty .silent) ⟨filledFirst.1, .waiting, none⟩ true ∧
      (filledFirst.1.ingest (.asking 3) 5).2 = .accepted ∧
      (filledFirst.1.ingest (.asking 3) 5).1.recorder.batchSize
        ≤ (filledFirst.1.ingest (.asking 3) 5).1.recorder.pending.length ∧
      (filledFirst.1.ingest (.asking 3) 5).1.recorder.writer.isSome ∧
      ¬ IsCalled ⟨(filledFirst.1.ingest (.asking 3) 5).1, .waiting, none⟩ := by
  have run : Course (.launch .small .empty .silent) ⟨filledFirst.1, .waiting, none⟩
      filledFirst.2 := Course.watch .begun (by decide)
  obtain ⟨hunheard, hingest⟩ := filledFirst_spec
  rw [hunheard] at run
  exact ⟨run, hingest⟩

end Staffed

end ResolverLog
