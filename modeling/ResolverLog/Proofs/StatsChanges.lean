import ResolverLog.Proofs.Replay
import ResolverLog.Proofs.Runs
import ResolverLog.Proofs.WindowedCounts

/-!
# What operations do to the statistics

Whatever an operation does, to the statistics it carries out changes that can be
told beforehand: a start counts what it replays, taking an entry in counts it,
and a new hour and a new retention are changes of their own. So the statistics
of every state that a run reaches come from empty ones by such changes.

A recorder that does not run takes nothing in, so its statistics only age: the
totals stay, and an hour that is not empty is one that was there before.
-/

namespace ResolverLog

namespace HourlyStats

variable {s s' s'' : HourlyStats}

/-! ## Ageing -/

/-- The statistics after changes one after another. -/
def changed (s : HourlyStats) (changes : List Change) : HourlyStats :=
  changes.foldl Change.apply s

/-- The changes that count nothing and forget no total. -/
def Change.ages : Change → Bool
  | .rotate => true
  | .resize _ => true
  | _ => false

/-- From `s` to `s'` nothing has been counted: the totals are the same, and the hours in which
something is counted are hours of `s`, in their order. -/
structure Aged (s s' : HourlyStats) : Prop where
  topSize_eq : s'.topSize = s.topSize
  totals_eq : s'.totals = s.totals
  hours_sublist : (s'.hours.filter fun h => h ≠ .empty s.topSize).Sublist s.hours

theorem Aged.refl (s : HourlyStats) : Aged s s :=
  ⟨rfl, rfl, List.filter_sublist⟩

theorem Aged.trans (h : Aged s s') (h' : Aged s' s'') : Aged s s'' := by
  refine ⟨h'.topSize_eq.trans h.topSize_eq, h'.totals_eq.trans h.totals_eq, ?_⟩
  have hsub := h'.hours_sublist.filter fun hour => hour ≠ .empty s.topSize
  rw [h.topSize_eq, List.filter_filter] at hsub
  simp only [Bool.and_self] at hsub
  exact hsub.trans h.hours_sublist

/-- Hours that are empty do not count. -/
theorem filter_replicate_empty (n topSize : Nat) :
    (List.replicate n (HourTallies.empty topSize)).filter (fun h => h ≠ .empty topSize) = [] := by
  rw [List.filter_eq_nil_iff]
  intro h hmem
  rw [List.eq_of_mem_replicate hmem]
  simp

theorem Aged.rotate (s : HourlyStats) : Aged s s.rotate := by
  refine ⟨rfl, rfl, ?_⟩
  have hsub := (List.take_sublist s.limit (.empty s.topSize :: s.hours)).filter
    fun h => h ≠ .empty s.topSize
  rw [List.filter_cons_of_neg (by simp)] at hsub
  exact hsub.trans List.filter_sublist

theorem Aged.resize (s : HourlyStats) (hours : Nat) :
    Aged s ((s.resize hours).toOption.getD s) := by
  rw [resize_eq]
  split
  · refine ⟨rfl, rfl, ?_⟩
    have hsub := (List.take_sublist hours (s.hours ++ List.replicate (hours - s.hours.length)
      (HourTallies.empty s.topSize))).filter fun h => h ≠ .empty s.topSize
    rw [List.filter_append, filter_replicate_empty, List.append_nil] at hsub
    exact hsub.trans List.filter_sublist
  · exact Aged.refl s

/-- Changes that only age leave nothing new. -/
theorem Aged.changes {changes : List Change} (h : ∀ c ∈ changes, c.ages = true)
    (s : HourlyStats) : Aged s (s.changed changes) := by
  induction changes generalizing s with
  | nil => exact Aged.refl s
  | cons c changes ih =>
      refine Aged.trans ?_ (ih (fun c' hc => h c' (List.mem_cons_of_mem c hc)) (c.apply s))
      have hages := h c List.mem_cons_self
      cases c with
      | rotate => exact Aged.rotate s
      | resize hours => exact Aged.resize s hours
      | record e now => cases hages
      | clear => cases hages

end HourlyStats

open HourlyStats

variable {s : Service}

namespace Service

/-- A retention that is set and saved is adopted. -/
theorem stats_setStatsHours (s : Service) (hours : UInt32) :
    (s.setStatsHours hours).1.recorder.stats =
      if (s.setStatsHours hours).2 = .ok () then
        (s.recorder.stats.resize hours.toNat).toOption.getD s.recorder.stats
      else s.recorder.stats := by
  rw [setStatsHours]
  cases hresize : s.recorder.stats.resize hours.toNat with
  | error cause => rfl
  | ok stats =>
      have hadopt := (quiet_adopt s { s.recorder.config with statsHours := hours } rfl).stats_eq
      dsimp only
      cases hr : s.adopt { s.recorder.config with statsHours := hours } with
      | mk adopted result =>
          rw [hr] at hadopt
          cases result with
          | error e => exact hadopt
          | ok _ => rfl

/-- A start counts what it replays, as far as it counts at all. -/
theorem stats_start (h : s.recorder.phase = .uninitialized) (now : Int64) :
    (s.start now).recorder.stats =
      s.recorder.stats.changed
        (((s.recorder.archive.replay s.files (window s.recorder.config) now).filter
          (Backlog.counts now)).map (.record · now)) := by
  rw [(quiet_start h now).stats_eq, changed, List.foldl_map]
  exact Backlog.stats_foldl_add _ _

end Service

namespace Op

/-- What an operation on `s` does to the statistics. -/
def changes (s : Service) : Op → List HourlyStats.Change
  | start now =>
    if s.recorder.phase = .uninitialized then
      ((s.recorder.archive.replay s.files (Service.window s.recorder.config) now).filter
        (Backlog.counts now)).map (.record · now)
    else []
  | ingest e now => if (s.ingest e now).2 = .accepted then [.record e now] else []
  | rotateHour => [.rotate]
  | setStatsHours hours =>
    if (s.setStatsHours hours).2 = .ok () then [.resize hours.toNat] else []
  | flush _ | rotateLog | configure _ _ | clear | stop | startBackground | settle
  | awaitPending _ _ => []

theorem stats_apply (s : Service) (op : Op) :
    (op.apply s).recorder.stats = s.recorder.stats.changed (op.changes s) := by
  cases op with
  | start now =>
      rw [changes]
      split
      · rename_i hphase
        exact Service.stats_start hphase now
      · rename_i hphase
        exact (Service.quiet_start_again hphase now).stats_eq
  | ingest e now =>
      rw [changes]
      split
      · rename_i haccepted
        exact (Service.quiet_ingest haccepted).stats_eq
      · rename_i hrefused
        exact (Service.quiet_ingest_refused hrefused).stats_eq
  | rotateHour => rfl
  | setStatsHours hours =>
      rw [changes, apply, Service.stats_setStatsHours]
      split
      · rfl
      · rfl
  | flush full => exact (Service.quiet_flush s full).stats_eq
  | rotateLog => exact congrArg Recorder.stats (Service.recorder_rotateLog s)
  | configure enabled hours => exact (Service.quiet_configure s enabled hours).stats_eq
  | clear =>
      rw [apply, Service.recorder_clear]
      rfl
  | stop => exact (Service.quiet_stop s).stats_eq
  | startBackground => exact (Service.quiet_startBackground s).stats_eq
  | settle => exact (Service.quiet_settle s).stats_eq
  | awaitPending patienceMs n => exact (Service.quiet_awaitPending s patienceMs n).stats_eq

/-- The statistics of a recorder that has stopped only age. -/
theorem aged_apply (h : s.recorder.phase = .stopped) (op : Op) :
    Aged s.recorder.stats (op.apply s).recorder.stats := by
  rw [stats_apply]
  apply Aged.changes
  intro c hc
  cases op with
  | start now =>
      rw [changes, if_neg (by rw [h]; decide)] at hc
      cases hc
  | ingest e now =>
      rw [changes] at hc
      split at hc
      · rename_i haccepted
        have hphase := (Service.refusal?_eq_none_iff.mp (Service.refusal?_of_accepted haccepted)).1
        rw [h] at hphase
        cases hphase
      · cases hc
  | rotateHour =>
      rw [List.mem_singleton.mp hc]
      rfl
  | setStatsHours hours =>
      rw [changes] at hc
      split at hc
      · rw [List.mem_singleton.mp hc]
        rfl
      · cases hc
  | flush _ | rotateLog | configure _ _ | clear | stop | startBackground | settle
  | awaitPending _ _ => cases hc

end Op

namespace Run

variable {allowed : Service → Op → Prop} {config : Config} {files : Files} {journal : Journal}
  {l : Ledger}

/-- The statistics that a run reaches come from empty ones by changes. -/
theorem exists_changes (run : Run allowed (.launch config files journal) s l) :
    ∃ changes : List HourlyStats.Change, s.recorder.stats
      = (HourlyStats.empty config.statsHours.toNat config.topSize.toNat).changed changes := by
  induction run with
  | launched => exact ⟨[], rfl⟩
  | @call s l run op ok ih =>
      obtain ⟨changes, hstats⟩ := ih
      refine ⟨changes ++ op.changes s, ?_⟩
      rw [Op.stats_apply, hstats, changed, changed, changed, List.foldl_append]
  | outside run files active backup ih => exact ih

/-- No tally that a run reaches holds a key twice or more keys than it may. -/
theorem sound_hours (run : Run allowed (.launch config files journal) s l) :
    ∀ h ∈ s.recorder.stats.hours, h.Sound s.recorder.stats.topSize := by
  obtain ⟨changes, hstats⟩ := run.exists_changes
  have hmatches := (Matches.opened config.statsHours.toNat config.topSize.toNat).changes changes
  rw [← changed, ← hstats] at hmatches
  have hpos : 1 ≤ (HourlyStats.empty config.statsHours.toNat config.topSize.toNat).topSize := by
    change 1 ≤ if config.topSize.toNat = 0 then defaultTopSize else config.topSize.toNat
    split
    · decide
    · omega
  intro h hmem
  rw [hmatches.hours_eq] at hmem
  obtain ⟨hour, -, rfl⟩ := List.mem_map.mp hmem
  have hsound := HourTallies.sound_empty
    (HourlyStats.empty config.statsHours.toNat config.topSize.toNat).topSize
  rw [Nat.max_eq_right hpos] at hsound
  rw [hmatches.topSize_eq]
  exact hsound.recordAll hpos _

end Run

end ResolverLog
