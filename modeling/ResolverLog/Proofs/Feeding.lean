import Mathlib.Logic.Relation
import ResolverLog.Proofs.Feed
import ResolverLog.Proofs.Intake
import ResolverLog.Proofs.Queue

/-!
# Feeding the log

A reader hands the lines of a stream to one worker through a bounded queue, while
the writer and the hourly task run whenever they like. In whatever order these
parties take their turns, the log has been given the entries of the lines that
the worker has handled, in the order of the stream, and every such run can be
brought to its end.

## Implementation notes

A line is taken from the queue and handled in one step: with a single worker
nobody can tell the two apart. So is a batch taken from the pending entries and
written: writings exclude each other, and what is taken in meanwhile is pending
behind the batch either way. The task that moves the log file aside waits for a
day at least and has no part in a run over a given stream.
-/

namespace ResolverLog

/-- A log that is fed from a stream. -/
structure Feeding where
  /-- The lines that the reader has not handed over yet. -/
  unread : List Bytes
  queue : Queue Bytes
  service : Service
  counts : IntakeCounts

namespace Feeding

open Relation (ReflTransGen)

variable {f f' : Feeding} {lines : List Bytes}

/-- Nothing has been handed over yet. -/
def begin (capacity : Nat) (lines : List Bytes) (s : Service) : Feeding :=
  ⟨lines, .empty capacity, s, Intake.noCounts⟩

/-- One turn of one of the parties. -/
inductive Step : Feeding → Feeding → Prop
  /-- The reader hands a line over, once there is room for it. -/
  | hand {f : Feeding} {line : Bytes} {rest : List Bytes} {queue : Queue Bytes}
      (unread : f.unread = line :: rest) (pushed : f.queue.push? line = some (queue, true)) :
      Step f { f with unread := rest, queue }
  /-- The reader has come to the end of the stream. -/
  | close {f : Feeding} (unread : f.unread = []) (opened : f.queue.closed = false) :
      Step f { f with queue := f.queue.close }
  /-- The worker takes a line, once there is one, and handles it. -/
  | take {f : Feeding} {line : Bytes} {queue : Queue Bytes} (now : Int64)
      (popped : f.queue.pop? = some (queue, some line)) :
      Step f { f with
        queue
        service := (Intake.handle (f.service, f.counts) line now).1
        counts := (Intake.handle (f.service, f.counts) line now).2 }
  /-- The writer runs, woken or in its own time. -/
  | write {f : Feeding} {writer : Task} (running : f.service.recorder.writer = some writer) :
      Step f { f with service := f.service.runWriter writer }
  /-- The hourly task runs. -/
  | hour {f : Feeding} : Step f { f with service := f.service.rotateHour }

/-- The reader is through, and so is the worker. -/
structure IsDone (f : Feeding) : Prop where
  unread : f.unread = []
  emptied : f.queue.items = []
  closed : f.queue.closed = true

/-- Of these lines the first have been handled, the next ones wait in the queue, and the log has
been given the entries of those handled. -/
structure Fed (path : Bytes) (lines : List Bytes) (f : Feeding) : Prop where
  room : 0 < f.queue.capacity
  closed : f.queue.closed = true → f.unread = []
  logging : ∃ handled logged, lines = handled ++ f.queue.items ++ f.unread ∧
    Logging path .running f.service logged ∧
    logged.map Entry.timeless = handled.filterMap Intake.recorded?

variable {path : Bytes}

theorem Fed.begin {s : Service} (h : Logging path .running s []) (capacity : Nat)
    (lines : List Bytes) : (begin capacity lines s).Fed path lines := by
  refine ⟨Queue.capacity_empty capacity, ?_, [], [], rfl, h, rfl⟩
  intro hclosed
  cases hclosed

/-- Every turn keeps account of the lines. -/
theorem Fed.step (h : f.Fed path lines) (hstep : Step f f') : f'.Fed path lines := by
  obtain ⟨hroom, hclosed, handled, logged, hlines, hlogging, hlogged⟩ := h
  cases hstep with
  | hand unread pushed =>
      obtain ⟨hopen, rfl⟩ := Queue.push?_eq_some pushed
      refine ⟨hroom, ?_, handled, logged, ?_, hlogging, hlogged⟩
      · intro h
        rw [hopen] at h
        cases h
      · rw [hlines, unread]
        simp
  | close unread opened =>
      exact ⟨hroom, fun _ => unread, handled, logged, hlines, hlogging, hlogged⟩
  | take now popped =>
      rename_i line queue
      obtain ⟨hitems, hcapacity, hsame⟩ := Queue.pop?_eq_some popped
      obtain ⟨more, hmore, hrecorded⟩ := hlogging.handle f.counts line now
      refine ⟨hcapacity.symm ▸ hroom, fun h => hclosed (hsame.symm.trans h), handled ++ [line],
        logged ++ more, ?_, hmore, ?_⟩
      · rw [hlines, hitems]
        simp
      · rw [List.map_append, hlogged, hrecorded, List.filterMap_append]
        cases hline : Intake.recorded? line with
        | none => simp [hline]
        | some e => simp [hline]
  | write running =>
      exact ⟨hroom, hclosed, handled, logged, hlines, hlogging.runWriter _, hlogged⟩
  | hour => exact ⟨hroom, hclosed, handled, logged, hlines, hlogging.rotateHour, hlogged⟩

/-- A whole run keeps account of the lines. -/
theorem Fed.run (h : f.Fed path lines) (hrun : ReflTransGen Step f f') : f'.Fed path lines := by
  induction hrun with
  | refl => exact h
  | tail _ hstep ih => exact ih.step hstep

/-- At the end of a run the log has been given the entries of all lines. -/
theorem Fed.logging_of_isDone (h : f.Fed path lines) (hdone : f.IsDone) :
    ∃ logged, Logging path .running f.service logged ∧
      logged.map Entry.timeless = lines.filterMap Intake.recorded? := by
  obtain ⟨handled, logged, hlines, hlogging, hlogged⟩ := h.logging
  rw [hdone.emptied, hdone.unread, List.append_nil, List.append_nil] at hlines
  exact ⟨logged, hlogging, hlines ▸ hlogged⟩

/-! ## Coming to an end -/

/-- How many turns the reader and the worker have still to take. -/
def left (f : Feeding) : Nat :=
  2 * f.unread.length + f.queue.items.length + if f.queue.closed then 0 else 1

/-- As long as there is something to do, the reader or the worker can take a turn. -/
theorem Fed.exists_step (h : f.Fed path lines) (hdone : ¬ f.IsDone) :
    ∃ f', Step f f' ∧ f'.left < f.left := by
  cases hitems : f.queue.items with
  | cons line items =>
      refine ⟨_, .take 0 (Queue.pop?_of_items hitems), ?_⟩
      simp only [left, hitems, List.length_cons]
      omega
  | nil =>
      have hopen : f.queue.closed = false := by
        by_contra hclosed
        rw [Bool.not_eq_false] at hclosed
        exact hdone ⟨h.closed hclosed, hitems, hclosed⟩
      cases hunread : f.unread with
      | nil =>
          refine ⟨_, .close hunread hopen, ?_⟩
          simp [left, Queue.close, hopen]
      | cons line rest =>
          have hroom : f.queue.items.length < f.queue.capacity := by
            rw [hitems]
            exact h.room
          refine ⟨_, .hand hunread (Queue.push?_of_room line hopen hroom), ?_⟩
          simp only [left, hunread, hitems, List.length_cons, List.length_append, List.length_nil]
          omega

/-- Every run can be brought to its end. -/
theorem Fed.exists_isDone (h : f.Fed path lines) : ∃ f', ReflTransGen Step f f' ∧ f'.IsDone := by
  -- The tasks need no turn any more, so what the reader and the worker have left measures the way.
  induction hleft : f.left using Nat.strong_induction_on generalizing f with
  | h n ih =>
      by_cases hdone : f.IsDone
      · exact ⟨f, .refl, hdone⟩
      · obtain ⟨next, hstep, hless⟩ := h.exists_step hdone
        obtain ⟨last, hrun, hlast⟩ := ih next.left (hleft ▸ hless) (h.step hstep) rfl
        exact ⟨last, .head hstep hrun, hlast⟩

/-! ## Line by line -/

/-- A woken writer takes its turn. -/
theorem run_settle (f : Feeding) :
    ReflTransGen Step f { f with service := f.service.settle } := by
  rw [Service.settle]
  split
  · rename_i writer hwriter
    split
    · exact .single (.write hwriter)
    · exact .refl
  · exact .refl

/-- Handing over each line when the one before it has been handled is one way to run. -/
theorem exists_handleAll (capacity : Nat) (lines : List Bytes) (s : Service) (now : Int64) :
    ∃ f, ReflTransGen Step (begin capacity lines s) f ∧ f.IsDone ∧
      (f.service, f.counts) = Intake.handleAll s lines now := by
  rw [Intake.handleAll, begin]
  -- The counts grow along the lines; what they begin with does not matter.
  generalize Intake.noCounts = counts
  induction lines generalizing s counts with
  | nil => exact ⟨_, .single (.close rfl rfl), ⟨rfl, rfl, rfl⟩, rfl⟩
  | cons line lines ih =>
      obtain ⟨f, hrun, hdone, hall⟩ := ih (Intake.handle (s, counts) line now).1.settle
        (Intake.handle (s, counts) line now).2
      refine ⟨f, ?_, hdone, hall⟩
      let waiting : Queue Bytes := ⟨max 1 capacity, [line], false⟩
      have hpush : (Queue.empty capacity).push? line = some (waiting, true) :=
        Queue.push?_of_room line rfl (Queue.capacity_empty capacity)
      have hpop : waiting.pop? = some (.empty capacity, some line) := Queue.pop?_of_items rfl
      have hhand : Step ⟨line :: lines, .empty capacity, s, counts⟩ ⟨lines, waiting, s, counts⟩ :=
        .hand rfl hpush
      have htake := Step.take (f := ⟨lines, waiting, s, counts⟩) now hpop
      exact .head hhand (.head htake ((run_settle _).trans hrun))

end Feeding

end ResolverLog
