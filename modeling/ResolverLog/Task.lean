/-!
# Periodic tasks

A task runs its action every interval, and at once when it is triggered. A
failing run is counted and does not end the task. Stopping waits for the run in
progress; starting again forgets a trigger that came too late.
-/

namespace ResolverLog

/-- A task between two runs of its action. -/
structure Task where
  /-- Milliseconds between two runs, at least one. -/
  intervalMs : Int
  running : Bool
  /-- A run has been asked for and has not begun. -/
  triggered : Bool
  runs : Nat
  failures : Nat
  deriving DecidableEq, Repr

namespace Task

/-- A task that has not been started. -/
def idle (intervalMs : Int) : Task :=
  ⟨max 1 intervalMs, false, false, 0, 0⟩

/-- Starts the task unless it is running. -/
def start (t : Task) : Task :=
  if t.running then t else { t with running := true, triggered := false }

/-- Stops the task. -/
def stop (t : Task) : Task :=
  { t with running := false }

/-- Asks for a run. -/
def trigger (t : Task) : Task :=
  { t with triggered := true }

/-- The task has to run now. -/
def isDue (t : Task) : Bool :=
  t.running && t.triggered

/-- How often the action has been run. -/
def calls (t : Task) : Nat :=
  t.runs + t.failures

/-- One run of the action, which tells whether it succeeded. -/
def finish (t : Task) (succeeded : Bool) : Task :=
  if succeeded then { t with triggered := false, runs := t.runs + 1 }
  else { t with triggered := false, failures := t.failures + 1 }

/-- Runs the action, which fails on the call numbers that `fails` tells, if it is due. -/
def settle (t : Task) (fails : Nat → Bool) : Task :=
  if t.isDue then t.finish !fails (t.calls + 1) else t

/-- Lets `ticks` intervals pass. -/
def pass (t : Task) (fails : Nat → Bool) : Nat → Task
  | 0 => t
  | ticks + 1 =>
    if t.running then (t.finish !fails (t.calls + 1)).pass fails ticks else t

/-- Waits until the action has been called `n` times, for at most `patienceMs`. -/
def await (t : Task) (fails : Nat → Bool) (patienceMs : Nat) (n : Nat) : Task :=
  t.pass fails (min (n - t.calls) (patienceMs / t.intervalMs.toNat))

end Task

end ResolverLog
