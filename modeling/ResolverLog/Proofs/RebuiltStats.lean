import ResolverLog.Proofs.Admission
import ResolverLog.Proofs.Restart
import ResolverLog.Proofs.StatsChanges

/-!
# A restart rebuilds the statistics

Under a clock that stands still the live statistics count the accepted entries
in the order of their acceptance. A start counts the archive, whose window
reaches as far back as the retained hours, unless so many are configured that
their nanoseconds exceed 64 bits. After a rotation it counts in another order,
which matters only to a tally that has to forget keys.
-/

namespace ResolverLog

open Bytes HourlyStats

/-- An operation at the time `now` that leaves the hours where they are and drops nothing. -/
def Op.Steady (now : Int64) : Op → Prop
  | .start t => t = now
  | .ingest _ t => t = now
  | .rotateHour => False
  | .setStatsHours _ => False
  | .clear => False
  | _ => True

instance (now : Int64) (op : Op) : Decidable (op.Steady now) :=
  match op with
  | .start t | .ingest _ t => inferInstanceAs (Decidable (t = now))
  | .rotateHour | .setStatsHours _ | .clear => inferInstanceAs (Decidable False)
  | .flush _ | .rotateLog | .configure _ _ | .stop | .startBackground | .settle
  | .awaitPending _ _ => inferInstanceAs (Decidable True)

theorem Op.Steady.ne_clear {now : Int64} {op : Op} (h : op.Steady now) : op ≠ .clear := by
  rintro rfl
  exact h

theorem Op.Steady.clean {now : Int64} {s : Service} {op : Op} (h : op.Steady now) : op.Clean s :=
  Op.clean_of_ne h.ne_clear

/-- Where a start finds nothing to replay, the statistics count what is taken in. -/
theorem Op.Steady.stats_apply {now : Int64} {s : Service} {op : Op} (h : op.Steady now)
    (hstart : s.recorder.phase = .uninitialized →
      ∀ t, (s.restored t).recorder.stats = s.recorder.stats) :
    (op.apply s).recorder.stats = s.recorder.stats.recordAll now (op.admitted s) := by
  cases op with
  | start t =>
      by_cases hphase : s.recorder.phase = .uninitialized
      · exact (Service.quiet_start hphase t).stats_eq.trans (hstart hphase t)
      · exact (Service.quiet_start_again hphase t).stats_eq
  | ingest e t =>
      obtain rfl : t = now := h
      rw [Op.stats_apply, Op.changes, Op.admitted]
      split
      · rfl
      · rfl
  | rotateHour | setStatsHours _ | clear => exact h.elim
  | flush _ | rotateLog | configure _ _ | stop | startBackground | settle | awaitPending _ _ =>
      exact Op.stats_apply s _

/-- The statistics of a configuration before any traffic. -/
def Config.stats (config : Config) : HourlyStats :=
  .empty config.statsHours.toNat config.topSize.toNat

namespace Run

variable {config config' : Config} {files : Files} {journal : Journal} {s : Service} {l : Ledger}
  {now : Int64}

/-- In a steady run the statistics count what has been accepted. -/
theorem stats_eq (hb : Beginning config files journal)
    (run : Run (fun _ op => op.Steady now) (.launch config files journal) s l) :
    s.recorder.stats = config.stats.recordAll now l.accepted := by
  induction run with
  | launched => rfl
  | @call s l run op ok ih =>
      have hrun : Run (fun s op => op.Clean s) (.launch config files journal) s l :=
        run.mono fun _ _ h => h.clean
      obtain ⟨backup, active, ha⟩ := hrun.accounted hb
      have hstart : s.recorder.phase = .uninitialized →
          ∀ t, (s.restored t).recorder.stats = s.recorder.stats := by
        intro hphase t
        exact Service.stats_restored (ha.stored_nil ((hrun.shown hb).idle hphase)) t
      rw [ok.stats_apply hstart, Op.accepted_after l s ok.ne_clear, ih]
      exact List.foldl_append.symm
  | outside run files ha hb ih => exact ih

end Run

namespace Config

variable {config : Config} {now : Int64} {e : Entry}

/-- Supported intervals last from a day to a quarter of a year. -/
theorem supported_bounds (h : isSupportedInterval config.intervalHours = true) :
    24 ≤ config.intervalHours.toNat ∧ config.intervalHours.toNat ≤ 2160 := by
  rw [isSupportedInterval] at h
  simp only [Bool.or_eq_true, beq_iff_eq] at h
  rcases h with ((heq | heq) | heq) | heq
  all_goals
    rw [heq]
    decide

/-- The window of a supported interval covers the retained hours. -/
theorem limit_le_window (h : isSupportedInterval config.intervalHours = true)
    (hstats : config.statsHours.toNat ≤ maxSpan) :
    nanosPerHour * config.stats.limit ≤ Service.window config := by
  obtain ⟨hlower, hupper⟩ := supported_bounds h
  have hspans : config.SpansFit := ⟨hupper.trans (by decide), hstats⟩
  have hlimit : config.stats.limit ≤ max config.intervalHours.toNat config.statsHours.toNat := by
    change (if config.statsHours.toNat = 0 then 24 else min config.statsHours.toNat maxHours) ≤ _
    split
    · omega
    · omega
  rw [hspans.window_eq]
  exact Int.mul_le_mul_of_nonneg_left (by omega) (by decide)

/-- What is counted into the retained hours is replayed and counts. -/
theorem inHours_replayed (h : isSupportedInterval config.intervalHours = true)
    (hstats : config.statsHours.toNat ≤ maxSpan) (hahead : -2 ^ 63 ≤ e.trueAge now)
    (he : inHours now config.stats.limit e = true) :
    (Backlog.counts now e && decide (e.age now ≤ Service.window config)) = true := by
  rw [inHours, Bool.and_eq_true, Bool.and_eq_true, decide_eq_true_eq, decide_eq_true_eq] at he
  obtain ⟨⟨hage, hname⟩, hhour⟩ := he
  have hcounts : Backlog.counts now e = true := by
    rw [Backlog.counts, hname, Bool.and_true, decide_eq_true_eq]
    exact Int.sub_nonneg.mp (Entry.trueAge_nonneg hahead hage)
  have hpos : (0 : Int) < nanosPerHour := by decide
  have hquotient : e.age now / nanosPerHour + 1 ≤ config.stats.limit := by
    have hnonneg := Int.ediv_nonneg hage hpos.le
    rw [hourOf] at hhour
    omega
  have hlt : e.age now < (e.age now / nanosPerHour + 1) * nanosPerHour :=
    Int.lt_ediv_add_one_mul_self _ hpos
  have hle : (e.age now / nanosPerHour + 1) * nanosPerHour ≤ nanosPerHour * config.stats.limit := by
    rw [Int.mul_comm nanosPerHour]
    exact Int.mul_le_mul_of_nonneg_right hquotient hpos.le
  rw [hcounts, Bool.true_and, decide_eq_true_eq]
  exact (hlt.le.trans hle).trans (limit_le_window h hstats)

/-- What a start counts of the entries of one of the retained hours. -/
theorem filter_replayed_inHour (h : isSupportedInterval config.intervalHours = true)
    (hstats : config.statsHours.toNat ≤ maxSpan) {entries : List Entry}
    (hahead : ∀ e ∈ entries, -2 ^ 63 ≤ e.trueAge now) {hour : Nat}
    (hlt : hour < config.stats.limit) :
    ((entries.filter fun e => e.age now ≤ Service.window config).filter
        (Backlog.counts now)).filter (inHour now hour)
      = entries.filter (inHour now hour) := by
  rw [List.filter_filter, List.filter_filter]
  apply List.filter_congr
  intro e hmem
  cases hin : inHour now hour e with
  | false => rfl
  | true =>
      have hhours : inHours now config.stats.limit e = true := by
        rw [inHour, Bool.and_eq_true, beq_iff_eq] at hin
        rw [inHours, hin.1, hin.2]
        simpa using hlt
      exact inHours_replayed h hstats (hahead e hmem) hhours

/-- A start counts as many entries as there are within the retained hours. -/
theorem countP_replayed (h : isSupportedInterval config.intervalHours = true)
    (hstats : config.statsHours.toNat ≤ maxSpan) {entries : List Entry}
    (hahead : ∀ e ∈ entries, -2 ^ 63 ≤ e.trueAge now) {p : Entry → Bool}
    (hp : ∀ e, p e = true → inHours now config.stats.limit e = true) :
    ((entries.filter fun e => e.age now ≤ Service.window config).filter
        (Backlog.counts now)).countP p = entries.countP p := by
  rw [List.countP_filter, List.countP_filter]
  apply List.countP_congr
  intro e hmem
  simp only [Bool.and_eq_true, decide_eq_true_eq]
  constructor
  · rintro ⟨⟨hpe, -⟩, -⟩
    exact hpe
  · intro hpe
    have hreplayed := inHours_replayed h hstats (hahead e hmem) (hp e hpe)
    rw [Bool.and_eq_true, decide_eq_true_eq] at hreplayed
    exact ⟨⟨hpe, hreplayed.1⟩, hreplayed.2⟩

end Config

/-- An hour has room for all names and clients of its entries. -/
structure HourlyStats.HasRoom (stats : HourlyStats) (es : List Entry) : Prop where
  names : (HourTallies.names es).dedup.length ≤ stats.topSize
  clients : (HourTallies.clientsOf es).dedup.length ≤ stats.topSize

instance (stats : HourlyStats) (es : List Entry) : Decidable (stats.HasRoom es) :=
  decidable_of_iff ((HourTallies.names es).dedup.length ≤ stats.topSize ∧
    (HourTallies.clientsOf es).dedup.length ≤ stats.topSize)
    ⟨fun h => ⟨h.1, h.2⟩, fun h => ⟨h.names, h.clients⟩⟩

namespace Run

variable {config config' : Config} {files : Files} {journal : Journal} {s : Service} {l : Ledger}
  {now : Int64}

/-- The statistics of a new recorder after its start. -/
theorem stats_start_reopen {backup active : List Entry}
    (h : Accounted (s.reopen config') l backup active) (now : Int64) :
    ((s.reopen config').start now).recorder.stats =
      config'.stats.recordAll now
        (((active ++ backup).filter fun e => e.age now ≤ Service.window config').filter
          (Backlog.counts now)) :=
  (Service.quiet_start (s := s.reopen config') rfl now).stats_eq.trans
    (Service.stats_restored h.stored now)

/-- After a stop that leaves nothing pending, a new recorder that starts at the time at which all
entries were taken in has the same counts in each window of hours and the same numbers of queries
and of blocked ones, when no rotation has changed the order of counting or when every retained
hour has room for its names and clients. The nanoseconds of the configured hours must be a number of
64 bits, and no entry may be so far ahead that its age has wrapped to that of a past one. -/
theorem restart_rebuilds_stats (hb : Beginning config files journal)
    (run : Run (fun _ op => op.Steady now) (.launch config files journal) s l)
    (hrotations : l.rotations ≤ 1) (hsaved : s.stop.recorder.pending = [])
    (hlog : config'.logFile = config.logFile) (hhours : config'.statsHours = config.statsHours)
    (htop : config'.topSize = config.topSize)
    (hinterval : Config.isSupportedInterval config'.intervalHours = true)
    (hspan : config'.statsHours.toNat ≤ maxSpan)
    (hahead : ∀ e ∈ l.accepted, -2 ^ 63 ≤ e.trueAge now)
    (hroom : l.rotations = 0 ∨ ∀ hour < s.recorder.stats.limit,
      s.recorder.stats.HasRoom (l.accepted.filter (inHour now hour))) :
    (∀ hours, (s.recorder.stats.top hours).Same
        (((s.reopen config').start now).recorder.stats.top hours)) ∧
      ((s.reopen config').start now).recorder.stats.totals.queries
        = s.recorder.stats.totals.queries ∧
      ((s.reopen config').start now).recorder.stats.totals.blocked
        = s.recorder.stats.totals.blocked := by
  have hrun : Run (fun s op => op.Clean s) (.launch config files journal) s l :=
    run.mono fun _ _ h => h.clean
  obtain ⟨backup, active, ha⟩ := hrun.accounted_reopen hb hsaved hlog
  have haccepted : l.accepted = backup ++ active := by
    have hpending : (s.reopen config').recorder.pending = [] := rfl
    rw [ha.accepted_eq, ha.replaced_nil hrotations, hpending, List.nil_append, List.append_nil]
  have hperm : l.accepted.Perm (active ++ backup) := by
    rw [haccepted]
    exact List.perm_append_comm
  have hahead' : ∀ e ∈ active ++ backup, -2 ^ 63 ≤ e.trueAge now := fun e he =>
    hahead e (hperm.mem_iff.mpr he)
  have hstats : config'.stats = config.stats := by
    rw [Config.stats, Config.stats, hhours, htop]
  have hrebuilt := stats_start_reopen ha now
  obtain ⟨hlimit, htopSize⟩ := sizes_recordAll config.stats now l.accepted
  rw [run.stats_eq hb, hlimit] at hroom
  rw [run.stats_eq hb, hrebuilt]
  have hlength : config.stats.hours.length = config'.stats.limit := by
    rw [hstats]
    exact List.length_replicate
  refine ⟨?_, ?_, ?_⟩
  · intro hours
    apply top_same
    rw [hstats, Config.stats, hours_recordAll_empty, hours_recordAll_empty,
      List.forall₂_map_left_iff, List.forall₂_map_right_iff, List.forall₂_same]
    intro hour hmem
    have hlt : hour < config'.stats.limit := by
      rw [hstats]
      exact List.mem_range.mp hmem
    rw [Config.filter_replayed_inHour hinterval hspan hahead' hlt]
    rcases hroom with hzero | hroom
    · have horder : l.accepted = active ++ backup := by
        rw [haccepted, ha.backup_nil hzero, List.nil_append, List.append_nil]
      rw [horder]
      exact HourTallies.Alike.refl _
    · obtain ⟨hnames, hclients⟩ := hroom hour (List.mem_range.mp hmem)
      rw [htopSize] at hnames hclients
      exact HourTallies.recordAll_alike (hperm.filter _) hnames hclients
  · rw [queries_recordAll, queries_recordAll, hstats, hlength,
      Config.countP_replayed hinterval hspan hahead' fun _ h => h, hperm.countP_eq]
  · have hblocked : ∀ e, blockedInHours now config'.stats.limit e = true →
        inHours now config'.stats.limit e = true := by
      intro e he
      rw [blockedInHours, Bool.and_eq_true] at he
      exact he.1
    rw [blocked_recordAll, blocked_recordAll, hstats, hlength,
      Config.countP_replayed hinterval hspan hahead' hblocked, hperm.countP_eq]

end Run

/-- The log that was rotated once counts its three entries again. -/
theorem Run.restart_rebuilds_stats_rotatedOnce :
    rotatedOnce.1.recorder.stats.totals.queries = 3 ∧
    (∀ hours, (rotatedOnce.1.recorder.stats.top hours).Same
      (((rotatedOnce.1.reopen .small).start 5).recorder.stats.top hours)) ∧
    ((rotatedOnce.1.reopen .small).start 5).recorder.stats.totals.queries = 3 := by
  have hsteady : ∀ op ∈ [Op.start 5, .ingest (.asking 1) 5, .flush true, .rotateLog,
      .ingest (.asking 2) 5, .ingest (.asking 3) 5], op.Steady 5 := by
    decide
  have hroom : ∀ hour < rotatedOnce.1.recorder.stats.limit,
      rotatedOnce.1.recorder.stats.HasRoom (rotatedOnce.2.accepted.filter (inHour 5 hour)) := by
    decide +kernel
  obtain ⟨haccepted, hrotations, -, hqueries, hsaved⟩ := rotatedOnce_spec
  have run : Run (fun _ op => op.Steady 5) (.launch .small .empty .silent) rotatedOnce.1
      rotatedOnce.2 :=
    Run.applyAll .launched _ fun op hop _ => hsteady op hop
  obtain ⟨htop, hrebuilt, -⟩ := Run.restart_rebuilds_stats .small run hrotations hsaved rfl rfl
    rfl (by decide) (by decide) (by rw [haccepted]; decide) (Or.inr hroom)
  exact ⟨hqueries, htop, hrebuilt.trans hqueries⟩

/-- The log that retains too many hours for 64 bits has counted one entry, and none when it is
opened again. -/
theorem Run.not_restart_rebuilds_stats :
    (¬ ∀ (config : Config) (files : Files) (journal : Journal) (s : Service) (l : Ledger)
        (now : Int64),
      Beginning config files journal →
      Run (fun _ op => op.Steady now) (.launch config files journal) s l → l.rotations = 0 →
      s.stop.recorder.pending = [] → Config.isSupportedInterval config.intervalHours = true →
      (∀ hours, (s.recorder.stats.top hours).Same
          (((s.reopen config).start now).recorder.stats.top hours)) ∧
        ((s.reopen config).start now).recorder.stats.totals.queries
          = s.recorder.stats.totals.queries ∧
        ((s.reopen config).start now).recorder.stats.totals.blocked
          = s.recorder.stats.totals.blocked) ∧
    (takenOverlong.1.recorder.stats.top 1).domains = [(ascii "a", 1)] ∧
    (((takenOverlong.1.reopen .overlong).start 5).recorder.stats.top 1).domains = [] := by
  have hsteady : ∀ op ∈ [Op.start 5, .ingest (.asking 1) 5], op.Steady 5 := by decide
  have htops : (takenOverlong.1.recorder.stats.top 1).domains = [(ascii "a", 1)] ∧
      (((takenOverlong.1.reopen .overlong).start 5).recorder.stats.top 1).domains = [] := by
    decide +kernel
  obtain ⟨-, hrotations, -, hlive, hsaved, -, hrebuilt⟩ := takenOverlong_spec
  refine ⟨?_, htops⟩
  intro hsame
  obtain ⟨-, hqueries, -⟩ := hsame .overlong .empty .silent takenOverlong.1 takenOverlong.2 5
    .overlong (Run.applyAll .launched _ fun op hop _ => hsteady op hop) hrotations hsaved
    (by decide)
  rw [hlive, hrebuilt] at hqueries
  exact absurd hqueries (by decide)

end ResolverLog
