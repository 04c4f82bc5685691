import ResolverLog.Proofs.Admission
import ResolverLog.Proofs.Restart

/-!
# The log view over whole runs

The view shows the last entries of a history: those that the start has loaded,
and behind them those that have been accepted, in the order of acceptance.
Clearing the log begins a new history without entries. No failure makes a
difference to it, and neither does what becomes of the files: an entry comes
into the view when it is accepted, and one that is refused leaves no trace but a
note.
-/

namespace ResolverLog

open Bytes Recent

namespace Op

variable {s : Service} {op : Op} {n : Nat} {shown : List Entry}

/-- The history of the view after an operation, when a clearing succeeds. -/
def shownAfter (shown : List Entry) (s : Service) : Op → List Entry
  | clear => []
  | op => shown ++ op.admitted s

theorem shownAfter_of_ne (h : op ≠ clear) : op.shownAfter shown s = shown ++ op.admitted s := by
  cases op with
  | clear => exact absurd rfl h
  | _ => rfl

/-- A recorder that has been started stays so. -/
theorem phase_apply (h : s.recorder.phase ≠ .uninitialized) (op : Op) :
    (op.apply s).recorder.phase ≠ .uninitialized := by
  cases op.effect s with
  | keeps kept => exact fun hp => h (kept.phase_of hp)
  | starts phase => exact absurd phase h
  | takes accepted => exact fun hp => h ((Service.quiet_ingest accepted).phase_of hp)
  | rotates =>
      rw [apply, Service.recorder_rotateLog]
      exact h
  | clears =>
      rw [apply, Service.recorder_clear]
      exact h

/-- Every operation on a recorder that has been started adds to the view what it takes in. -/
theorem recent_apply (hphase : s.recorder.phase ≠ .uninitialized)
    (h : s.recorder.recent = ⟨n, lastN n shown⟩) :
    (op.apply s).recorder.recent = ⟨n, lastN n (op.shownAfter shown s)⟩ := by
  cases op.effect s with
  | keeps kept none clear =>
      rw [kept.recent_eq, h, shownAfter_of_ne clear, none, List.append_nil]
  | starts phase => exact absurd phase hphase
  | @takes e now accepted =>
      have hshown : (ingest e now).shownAfter shown s = shown ++ [e] :=
        congrArg (shown ++ ·) (if_pos accepted)
      apply (Service.quiet_ingest accepted).recent_eq.trans
      change s.recorder.recent.push e = _
      rw [hshown, h, push, lastN_lastN_append]
  | rotates =>
      have hshown : rotateLog.shownAfter shown s = shown := List.append_nil shown
      rw [hshown, apply, Service.recorder_rotateLog, h]
  | clears =>
      rw [apply, Service.recorder_clear]
      simp only [h, Recent.clear, shownAfter, lastN_nil]

end Op

/-- A run of operations on a service from its start on, with the history of its view. Between two
operations anything may happen to the files. -/
inductive Viewed (first : Service) (now : Int64) : Service → List Entry → Prop
  | started : Viewed first now (first.start now) (first.loadable now)
  | call {s shown} (run : Viewed first now s shown) (op : Op) (ok : op.Clean s) :
      Viewed first now (op.apply s) (op.shownAfter shown s)
  | outside {s shown} (run : Viewed first now s shown) (files : Files) :
      Viewed first now { s with files } shown

namespace Service

/-- A refused entry leaves nothing but a note. -/
theorem ingest_of_refused {s : Service} {e : Entry} {now : Int64}
    (h : (s.ingest e now).2 ≠ .accepted) :
    (s.ingest e now).1.recorder = s.recorder ∧
      ∀ path, Path.Apart s.journal.path path →
        (s.ingest e now).1.files.node? path = s.files.node? path := by
  rw [ingest] at h ⊢
  cases hr : refusal? s.recorder e with
  | none =>
      rw [hr] at h
      exact absurd rfl h
  | some result =>
      simp only
      cases refusalNote? e result with
      | none => exact ⟨rfl, fun _ _ => rfl⟩
      | some text => exact ⟨rfl, fun _ hpath => node?_note hpath⟩

end Service

namespace Viewed

variable {config : Config} {files : Files} {journal : Journal} {s : Service} {now : Int64}
  {shown : List Entry}

theorem recent_eq (run : Viewed (.launch config files journal) now s shown) :
    s.recorder.phase ≠ .uninitialized ∧
      s.recorder.recent = ⟨config.capacity, lastN config.capacity shown⟩ := by
  induction run with
  | started =>
      have hquiet := Service.quiet_start
        (rfl : (Service.launch config files journal).recorder.phase = .uninitialized) now
      constructor
      · intro hphase
        cases hquiet.phase_of hphase
      · apply hquiet.recent_eq.trans
        exact Service.recent_restored_of_empty rfl now
  | call run op ok ih =>
      obtain ⟨hphase, hrecent⟩ := ih
      exact ⟨Op.phase_apply hphase op, Op.recent_apply hphase hrecent⟩
  | outside run files ih => exact ih

/-- In every run from the start of a log on, the view shows the last entries, as many as it can
hold, of those loaded at the start and those accepted since, in this order and counted since the
last clearing. An entry that is not accepted changes nothing in the recorder and under no path but
that of the note file. -/
theorem shows_latest (run : Viewed (.launch config files journal) now s shown) :
    s.recorder.recent.entries = lastN (max 1 config.cacheSize.toNat) shown ∧
    ∀ e time, (s.ingest e time).2 ≠ .accepted →
      (s.ingest e time).1.recorder = s.recorder ∧
      ∀ path, Path.Apart s.journal.path path →
        (s.ingest e time).1.files.node? path = s.files.node? path := by
  constructor
  · rw [run.recent_eq.2]
    rfl
  · intro e time hrefused
    exact Service.ingest_of_refused hrefused

/-- Files with a log of two records. -/
def storedTwo : Files :=
  (Files.empty.append? (ascii "q.log")
    (ofLines ([Entry.asking 1, Entry.asking 2].map Record.line))).getD .empty

/-- A log that is taken up again, gets a third entry and is rotated. -/
def resumed : Service :=
  Op.apply (Op.apply ((Service.launch .small storedTwo .silent).start 5) (.ingest (.asking 3) 5))
    .rotateLog

/-- The view of two entries shows one of those loaded and the one accepted, and an entry without a
question is refused without a trace. -/
theorem shows_latest_resumed :
    resumed.recorder.recent.entries = [.asking 2, .asking 3] ∧
    (resumed.ingest { Entry.asking 4 with question := [] } 5).1.recorder = resumed.recorder := by
  have hloaded : (Service.launch .small storedTwo .silent).loadable 5
      = [.asking 1, .asking 2] := by
    have hgathered : ((Service.launch .small storedTwo .silent).backlog 5).recent.toList
        = [.asking 1, .asking 2] := by
      decide +kernel
    exact Backlog.byTime_eq_of_perm (by decide) (List.Perm.of_eq hgathered)
  have begun : Viewed (.launch .small storedTwo .silent) 5 _ _ := .started
  have taken := begun.call (.ingest (.asking 3) 5) (Op.clean_of_ne nofun)
  have run : Viewed (.launch .small storedTwo .silent) 5 resumed _ :=
    taken.call .rotateLog (Op.clean_of_ne nofun)
  obtain ⟨hview, hrefused⟩ := run.shows_latest
  constructor
  · rw [hview, hloaded]
    decide +kernel
  · exact (hrefused _ 5 (by decide +kernel)).1

end Viewed

end ResolverLog
