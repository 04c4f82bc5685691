import ResolverLog.Proofs.Age
import ResolverLog.Proofs.Conservation
import ResolverLog.Proofs.Replay

/-!
# A restart restores the log view

While a log runs, its view shows the last of the entries accepted since it was
last cleared. After a stop that leaves nothing pending and at most one rotation
the archive holds all of these, so a new recorder finds them again. It reads the
active file first, and that is why it has to sort what it reads by time.
-/

namespace ResolverLog

open Bytes Recent

namespace Service

variable {s s' : Service} {backup active : List Entry}

/-- What is taken over from an archive that holds the records of entries. -/
theorem backlog_eq (hs : s.Stored backup active) (now : Int64) :
    s.backlog now
      = ((active ++ backup).filter fun e => e.age now ≤ window s.recorder.config).foldl
          (Backlog.add s.recorder.recent.capacity.toUInt64
            (nanosOfHours s.recorder.config.intervalHours.toNat) now)
          ⟨s.recorder.stats, #[]⟩ := by
  rw [backlog, Archive.replay_of_encodeAll hs.backup_eq hs.active_eq]

/-- The entries that a start at the time `now` loads into the view, in the order of time. -/
def loadable (s : Service) (now : Int64) : List Entry :=
  Backlog.byTime (s.backlog now).recent.toList

/-- An empty view is filled with the latest of the entries that are loaded. -/
theorem recent_restored_of_empty (hempty : s.recorder.recent.entries = []) (now : Int64) :
    (s.restored now).recorder.recent =
      { s.recorder.recent with
        entries := lastN s.recorder.recent.capacity (s.loadable now) } := by
  change s.recorder.recent.load (s.loadable now) = _
  rw [load, hempty, List.nil_append, lastN_lastN]

/-- A start fills an empty view with the latest of the entries that are loaded. -/
theorem entries_start (hphase : s.recorder.phase = .uninitialized)
    (hempty : s.recorder.recent.entries = []) (now : Int64) :
    (s.start now).recorder.recent.entries = lastN s.recorder.recent.capacity (s.loadable now) := by
  rw [(quiet_start hphase now).recent_eq]
  exact congrArg Recent.entries (recent_restored_of_empty hempty now)

/-- A capacity is a word. -/
theorem toNat_capacity (hcapacity : 4 * s.recorder.recent.capacity < 2 ^ 64) :
    s.recorder.recent.capacity.toUInt64.toNat = s.recorder.recent.capacity :=
  UInt64.toNat_ofNat_of_lt' (show s.recorder.recent.capacity < 2 ^ 64 by omega)

/-- The latest of the entries that are loaded are those of the archive. -/
theorem lastN_loadable (hcapacity : 4 * s.recorder.recent.capacity < 2 ^ 64) (now : Int64) :
    lastN s.recorder.recent.capacity (s.loadable now)
      = lastN s.recorder.recent.capacity (Backlog.byTime
          ((s.recorder.archive.replay s.files (window s.recorder.config) now).filter
            (Backlog.shows (nanosOfHours s.recorder.config.intervalHours.toNat) now))) := by
  have hkeep := toNat_capacity hcapacity
  have hlatest := Backlog.lastN_byTime_gathered (by rwa [hkeep])
    ((s.recorder.archive.replay s.files (window s.recorder.config) now).filter
      (Backlog.shows (nanosOfHours s.recorder.config.intervalHours.toNat) now)) []
  rw [hkeep, List.append_nil, List.append_nil] at hlatest
  rw [loadable, backlog, Backlog.recent_foldl_add]
  exact hlatest

/-- What is loaded of an archive that holds the records of entries. -/
theorem lastN_loadable_eq (hs : s.Stored backup active)
    (hcapacity : 4 * s.recorder.recent.capacity < 2 ^ 64) (now : Int64) :
    lastN s.recorder.recent.capacity (s.loadable now)
      = lastN s.recorder.recent.capacity (Backlog.byTime
          (((active ++ backup).filter fun e => e.age now ≤ window s.recorder.config).filter
            (Backlog.shows (nanosOfHours s.recorder.config.intervalHours.toNat) now))) := by
  rw [lastN_loadable hcapacity, Archive.replay_of_encodeAll hs.backup_eq hs.active_eq]

/-- Nothing is loaded of an empty archive. -/
theorem loadable_nil (hs : s.Stored [] []) (now : Int64) : s.loadable now = [] := by
  rw [loadable, backlog_eq hs]
  exact Backlog.byTime_nil

/-- The statistics count what the window has. -/
theorem stats_restored (hs : s.Stored backup active) (now : Int64) :
    (s.restored now).recorder.stats =
      (((active ++ backup).filter fun e => e.age now ≤ window s.recorder.config).filter
        (Backlog.counts now)).foldl (fun stats e => (stats.record e now).1) s.recorder.stats := by
  change (s.backlog now).stats = _
  rw [backlog_eq hs, Backlog.stats_foldl_add]

end Service

/-- The most entries that the view of a log shows. -/
def Config.capacity (config : Config) : Nat :=
  max 1 config.cacheSize.toNat

/-- The view shows the last accepted entries, all of which ask for a name, and nothing has been
accepted before the start. -/
structure Shown (config : Config) (s : Service) (l : Ledger) : Prop where
  logFile_eq : s.recorder.config.logFile = config.logFile
  recent_eq : s.recorder.recent = ⟨config.capacity, lastN config.capacity l.accepted⟩
  idle : s.recorder.phase = .uninitialized → l.accepted = []
  named : ∀ e ∈ l.accepted, e.name?.isSome

namespace Shown

variable {config : Config} {s s' : Service} {l : Ledger} {backup active : List Entry}

theorem keeps (h : Shown config s l) (hk : s.Keeps s') : Shown config s' l :=
  ⟨hk.logFile_eq.trans h.logFile_eq, hk.recent_eq.trans h.recent_eq,
    fun hp => h.idle (hk.phase_of hp), h.named⟩

/-- A start finds an empty archive. -/
theorem start (h : Shown config s l) (ha : Accounted s l backup active) (now : Int64) :
    Shown config (s.start now) l := by
  by_cases hp : s.recorder.phase = .uninitialized
  · have hnone := h.idle hp
    have hempty : s.recorder.recent.entries = [] := by
      rw [h.recent_eq, hnone, lastN_nil]
    have hopened : Shown config (s.restored now).opened l := by
      refine ⟨h.logFile_eq, ?_, (fun hp => by cases hp), h.named⟩
      change (s.restored now).recorder.recent = _
      rw [Service.recent_restored_of_empty hempty, Service.loadable_nil (ha.stored_nil hnone),
        h.recent_eq, hnone, lastN_nil]
    exact hopened.keeps (Service.quiet_start hp now).toKeeps
  · exact h.keeps (Service.quiet_start_again hp now).toKeeps

theorem ingest (h : Shown config s l) (e : Entry) (now : Int64) :
    Shown config (s.ingest e now).1 (l.after s (.ingest e now)) := by
  rw [Ledger.after]
  split
  · rename_i haccepted
    obtain ⟨hrunning, -, -, hname⟩ :=
      Service.refusal?_eq_none_iff.mp (Service.refusal?_of_accepted haccepted)
    have htaken : Shown config (s.taken e now) { l with accepted := l.accepted ++ [e] } := by
      refine ⟨h.logFile_eq, ?_, ?_, ?_⟩
      · change s.recorder.recent.push e = _
        rw [h.recent_eq, push, lastN_lastN_append]
      · intro hp
        cases hrunning.symm.trans hp
      · intro x hx
        rcases List.mem_append.mp hx with hx | hx
        · exact h.named x hx
        · rw [List.mem_singleton.mp hx]
          exact hname
    exact htaken.keeps (Service.quiet_ingest haccepted).toKeeps
  · rename_i hrefused
    exact h.keeps (Service.quiet_ingest_refused hrefused).toKeeps

theorem rotateLog (h : Shown config s l) (ha : Accounted s l backup active) :
    Shown config s.rotateLog.1 (l.after s .rotateLog) := by
  rw [Ledger.after]
  split
  · rename_i hrotates
    obtain ⟨hrecorder, -, -⟩ := Service.rotateLog_of_rotates ha.tidy hrotates
    refine ⟨?_, ?_, ?_, h.named⟩
    · rw [hrecorder]
      exact h.logFile_eq
    · rw [hrecorder]
      exact h.recent_eq
    · rw [hrecorder]
      exact h.idle
  · rename_i hrotates
    rw [Service.rotateLog_eq_of_not_rotates ha.tidy hrotates]
    exact h

theorem clear (h : Shown config s l) (hok : s.clear.2 = .ok ()) :
    Shown config s.clear.1 (l.after s .clear) := by
  have hrecorder := Service.recorder_clear s
  rw [Ledger.after, if_pos hok]
  refine ⟨?_, ?_, fun _ => rfl, ?_⟩
  · rw [hrecorder]
    exact h.logFile_eq
  · rw [hrecorder]
    simp only [h.recent_eq, Recent.clear, Ledger.empty, lastN_nil]
  · intro e he
    cases he

/-- Every operation keeps the view in step with the ledger. -/
theorem call (h : Shown config s l) (ha : Accounted s l backup active) (op : Op)
    (hop : op.Clean s) : Shown config (op.apply s) (l.after s op) := by
  cases op.effect s with
  | keeps hkeeps hnone hclear hrotate =>
      rw [Ledger.after_eq_self hnone hclear hrotate]
      exact h.keeps hkeeps
  | starts hphase => exact h.start ha _
  | takes haccepted => exact h.ingest _ _
  | rotates => exact h.rotateLog ha
  | clears => exact h.clear (hop rfl)

end Shown

namespace Run

variable {config config' : Config} {files : Files} {journal : Journal} {s : Service} {l : Ledger}

/-- In every run of clean operations the view shows the last accepted entries. -/
theorem shown (hb : Beginning config files journal)
    (run : Run (fun s op => op.Clean s) (.launch config files journal) s l) :
    Shown config s l := by
  induction run with
  | launched =>
      refine ⟨rfl, ?_, fun _ => rfl, fun e he => by cases he⟩
      rw [Ledger.empty, lastN_nil]
      rfl
  | call run op ok ih =>
      obtain ⟨backup, active, ha⟩ := run.accounted hb
      exact ih.call ha op ok
  | outside run files ha hb ih => exact ⟨ih.logFile_eq, ih.recent_eq, ih.idle, ih.named⟩

/-- A recorder that is opened where another one has stopped without leaving entries pending
finds its accounts. -/
theorem accounted_reopen (hb : Beginning config files journal)
    (run : Run (fun s op => op.Clean s) (.launch config files journal) s l)
    (hsaved : s.stop.recorder.pending = []) (hlog : config'.logFile = config.logFile) :
    ∃ backup active, Accounted (s.reopen config') l backup active := by
  obtain ⟨backup, active, ha⟩ := run.accounted hb
  obtain ⟨active, hstopped⟩ := ha.keeps (Service.quiet_stop s).toKeeps
  have hpath : config'.logFile = s.stop.recorder.config.logFile := by
    rw [hlog, (Service.quiet_stop s).logFile_eq, (run.shown hb).logFile_eq]
  have hnew : Accounted ⟨.new config', s.stop.files, s.stop.journal⟩ l backup active := by
    refine ⟨hstopped.tidy.of_eq hpath rfl, hstopped.stored.of_eq hpath rfl rfl, ?_,
      hstopped.backup_nil, hstopped.replaced_nil⟩
    rw [hstopped.accepted_eq, hsaved]
    rfl
  exact ⟨backup, hnew.keeps (Service.quiet_launch _ _ _).toKeeps⟩

/-- The view of a new recorder after its start. -/
theorem recent_start_reopen {backup active : List Entry}
    (h : Accounted (s.reopen config') l backup active) (hcapacity : 4 * config'.capacity < 2 ^ 64)
    (now : Int64) :
    ((s.reopen config').start now).recorder.recent.entries =
      lastN config'.capacity (Backlog.byTime
        (((active ++ backup).filter fun e => e.age now ≤ Service.window config').filter
          (Backlog.shows (nanosOfHours config'.intervalHours.toNat) now))) :=
  (Service.entries_start rfl rfl now).trans (Service.lastN_loadable_eq h.stored hcapacity now)

end Run

/-- An entry of the interval: it is not from the future and no older than the interval. -/
def inInterval (config : Config) (now : Int64) (e : Entry) : Prop :=
  0 ≤ e.trueAge now ∧ e.trueAge now ≤ nanosPerHour * config.intervalHours.toNat

instance (config : Config) (now : Int64) (e : Entry) : Decidable (inInterval config now e) :=
  inferInstanceAs (Decidable (_ ∧ _))

/-- An entry that a start at the time `now` loads into the view: it is not from the future, and
its age in 64 bits exceeds neither the window nor the interval. -/
def isLoaded (config : Config) (now : Int64) (e : Entry) : Prop :=
  0 ≤ e.trueAge now ∧ e.age now ≤ Service.window config
    ∧ e.age now ≤ nanosOfHours config.intervalHours.toNat

instance (config : Config) (now : Int64) (e : Entry) : Decidable (isLoaded config now e) :=
  inferInstanceAs (Decidable (_ ∧ _))

section Loading

variable {config : Config} {now : Int64} {e : Entry} {entries : List Entry}

/-- The age of an entry of the interval is a number of 64 bits. -/
theorem inInterval.ageFits (hspans : config.SpansFit) (h : inInterval config now e) :
    e.AgeFits now := by
  have hinterval := hspans.interval_le
  obtain ⟨hnow, hage⟩ := h
  rw [maxSpan] at hinterval
  rw [nanosPerHour] at hage
  exact ⟨by omega, by omega⟩

/-- As long as the spans do not wrap, a start loads the entries of the interval, and those from so
long ago that their ages have wrapped. -/
theorem isLoaded_iff (hspans : config.SpansFit) :
    isLoaded config now e ↔ inInterval config now e ∨ 2 ^ 63 ≤ e.trueAge now := by
  have hinterval := hspans.interval_le
  have hle : nanosPerHour * config.intervalHours.toNat ≤ Service.window config := by
    rw [hspans.window_eq]
    exact Int.mul_le_mul_of_nonneg_left (by omega) (by decide)
  rw [maxSpan] at hinterval
  rw [isLoaded, inInterval, hspans.interval_eq]
  rw [nanosPerHour] at hle ⊢
  constructor
  · rintro ⟨hnow, -, hage⟩
    rcases Entry.age_of_le hnow with htrue | ⟨hlong, -⟩
    · exact .inl ⟨hnow, htrue ▸ hage⟩
    · exact .inr hlong
  · rintro (⟨hnow, hage⟩ | hlong)
    · rcases Entry.age_of_le hnow with htrue | ⟨hlong, -⟩
      · rw [htrue]
        exact ⟨hnow, hage.trans hle, hage⟩
      · omega
    · have hnow : 0 ≤ e.trueAge now := by omega
      rcases Entry.age_of_le hnow with htrue | ⟨-, hnegative⟩
      · have hfits := e.age_lt now
        omega
      · exact ⟨hnow, by omega, by omega⟩

theorem isLoaded_iff_inInterval (hspans : config.SpansFit) (hfits : e.AgeFits now) :
    isLoaded config now e ↔ inInterval config now e := by
  rw [isLoaded_iff hspans]
  exact or_iff_left (Int.not_le.mpr hfits.2)

/-- As long as nothing wraps, a start loads the entries of the interval. -/
theorem filter_isLoaded (hspans : config.SpansFit) (hfits : ∀ e ∈ entries, e.AgeFits now) :
    entries.filter (fun e => isLoaded config now e)
      = entries.filter fun e => inInterval config now e := by
  apply List.filter_congr
  intro e he
  exact decide_eq_decide.mpr (isLoaded_iff_inInterval hspans (hfits e he))

end Loading

/-- An entry is earlier than another one. -/
def earlier (a b : Entry) : Prop :=
  a.time.toInt < b.time.toInt

instance : DecidableRel earlier :=
  fun _ _ => inferInstanceAs (Decidable (_ < _))

namespace Backlog

variable {config : Config} {now : Int64} {xs ys : List Entry}

/-- Of what is replayed that is shown which asks for a name and is loaded. -/
theorem shows_eq (config : Config) (now : Int64) (e : Entry) :
    (shows (nanosOfHours config.intervalHours.toNat) now e
        && decide (e.age now ≤ Service.window config))
      = (e.name?.isSome && decide (isLoaded config now e)) := by
  rw [Bool.eq_iff_iff]
  simp only [shows, counts, isLoaded, Bool.and_eq_true, decide_eq_true_eq, Entry.trueAge,
    Int.sub_nonneg]
  tauto

theorem filter_shows (entries : List Entry) (config : Config) (now : Int64) :
    (entries.filter fun e => e.age now ≤ Service.window config).filter
        (shows (nanosOfHours config.intervalHours.toNat) now)
      = entries.filter fun e => e.name?.isSome && decide (isLoaded config now e) := by
  rw [List.filter_filter]
  exact List.filter_congr fun e _ => shows_eq config now e

theorem filter_shows_of_named (h : ∀ e ∈ xs, e.name?.isSome) :
    (xs.filter fun e => e.age now ≤ Service.window config).filter
        (shows (nanosOfHours config.intervalHours.toNat) now)
      = xs.filter fun e => isLoaded config now e := by
  rw [filter_shows]
  apply List.filter_congr
  intro e he
  rw [h e he, Bool.true_and]

/-- Sorting entries of different times puts each before the later ones. -/
theorem pairwise_earlier_byTime (h : (xs.map Entry.time).Nodup) : (byTime xs).Pairwise earlier := by
  have hnodup : (byTime xs).Pairwise fun a b => a.time ≠ b.time := by
    rw [← List.pairwise_map (R := (· ≠ ·))]
    exact ((byTime_perm xs).map _).nodup_iff.mpr h
  refine (pairwise_byTime xs).imp₂ ?_ hnodup
  intro a b hle hne
  have htime : a.time.toInt ≠ b.time.toInt := fun heq => hne (Int64.toInt_inj.mp heq)
  exact Int.lt_iff_le_and_ne.mpr ⟨hle, htime⟩

/-- Entries in the order of time are found again from any order. -/
theorem byTime_eq_of_perm (h : ys.Pairwise earlier) (hp : xs.Perm ys) : byTime xs = ys := by
  have hnodup : (xs.map Entry.time).Nodup := by
    rw [(hp.map Entry.time).nodup_iff, List.Nodup, List.pairwise_map]
    apply h.imp
    rintro a b hlt heq
    rw [earlier, heq] at hlt
    exact Int.lt_irrefl _ hlt
  refine List.Perm.eq_of_pairwise ?_ (pairwise_earlier_byTime hnodup) h ((byTime_perm xs).trans hp)
  intro a b _ _ hab hba
  exact absurd hab (Int.lt_asymm hba)

end Backlog

/-- The latest of some entries in the order of time, as many as a view shows. -/
def LatestOf (config : Config) (entries shown : List Entry) : Prop :=
  ∃ ordered : List Entry,
    ordered.Perm entries ∧ ordered.Pairwise earlier ∧ shown = lastN config.capacity ordered

namespace Run

variable {config config' : Config} {files : Files} {journal : Journal} {s : Service} {l : Ledger}
  {backup active : List Entry}

/-- A new recorder shows of the entries in its archive the latest that it loads. -/
theorem entries_reopen (h : Accounted (s.reopen config') l backup active)
    (hnamed : ∀ e ∈ active ++ backup, e.name?.isSome)
    (hcapacity : 4 * config'.capacity < 2 ^ 64) (now : Int64) :
    ((s.reopen config').start now).recorder.recent.entries =
      lastN config'.capacity (Backlog.byTime
        ((active ++ backup).filter fun e => isLoaded config' now e)) := by
  rw [recent_start_reopen h hcapacity now, Backlog.filter_shows_of_named hnamed]

/-- Where all are of the interval, it shows the latest of all. -/
theorem entries_reopen_inside (h : Accounted (s.reopen config') l backup active)
    (hnamed : ∀ e ∈ active ++ backup, e.name?.isSome) (hspans : config'.SpansFit)
    (hcapacity : 4 * config'.capacity < 2 ^ 64) {now : Int64}
    (hall : ∀ e ∈ active ++ backup, inInterval config' now e) :
    ((s.reopen config').start now).recorder.recent.entries =
      lastN config'.capacity (Backlog.byTime (active ++ backup)) := by
  rw [entries_reopen h hnamed hcapacity, List.filter_eq_self.mpr]
  intro e he
  have hfits := (hall e he).ageFits hspans
  exact decide_eq_true ((isLoaded_iff_inInterval hspans hfits).mpr (hall e he))

/-- After a stop that leaves nothing pending, and at most one rotation, a new recorder on the
same log shows the latest of the accepted entries that it loads, ordered by time. As long as
neither the spans of its configuration nor the ages wrap, these are the entries of its interval.
Entries that came in the order of time and are all of the interval are then shown as before the
stop. -/
theorem restart_shows_latest (hb : Beginning config files journal)
    (run : Run (fun s op => op.Clean s) (.launch config files journal) s l)
    (hrotations : l.rotations ≤ 1) (htimes : (l.accepted.map Entry.time).Nodup)
    (hsaved : s.stop.recorder.pending = []) (hlog : config'.logFile = config.logFile)
    (hcapacity : 4 * config'.capacity < 2 ^ 64) (now : Int64) :
    LatestOf config' (l.accepted.filter fun e => isLoaded config' now e)
      ((s.reopen config').start now).recorder.recent.entries ∧
    (config'.SpansFit → (∀ e ∈ l.accepted, e.AgeFits now) →
      LatestOf config' (l.accepted.filter fun e => inInterval config' now e)
        ((s.reopen config').start now).recorder.recent.entries) ∧
    (config'.SpansFit → config'.cacheSize = config.cacheSize → l.accepted.Pairwise earlier →
      (∀ e ∈ l.accepted, inInterval config' now e) →
      ((s.reopen config').start now).recorder.recent.entries = s.recorder.recent.entries) := by
  obtain ⟨backup, active, ha⟩ := run.accounted_reopen hb hsaved hlog
  have hshown := run.shown hb
  have haccepted := ha.accepted_eq_append hrotations rfl
  have hperm : (active ++ backup).Perm l.accepted := by
    rw [haccepted]
    exact List.perm_append_comm
  have hnamed : ∀ e ∈ active ++ backup, e.name?.isSome := fun e he =>
    hshown.named e (hperm.mem_iff.mp he)
  have hlatest : LatestOf config' (l.accepted.filter fun e => isLoaded config' now e)
      ((s.reopen config').start now).recorder.recent.entries := by
    refine ⟨_, (Backlog.byTime_perm _).trans (hperm.filter _), ?_,
      entries_reopen ha hnamed hcapacity now⟩
    apply Backlog.pairwise_earlier_byTime
    have hsub : ((active ++ backup).filter fun e => isLoaded config' now e).Sublist
        (active ++ backup) := List.filter_sublist
    exact ((hperm.map _).nodup_iff.mpr htimes).sublist (hsub.map _)
  refine ⟨hlatest, ?_, ?_⟩
  · intro hspans hfits
    rwa [filter_isLoaded hspans hfits] at hlatest
  · intro hspans hcache hordered hall
    have hsame : config'.capacity = config.capacity := by
      rw [Config.capacity, Config.capacity, hcache]
    calc ((s.reopen config').start now).recorder.recent.entries
        = lastN config'.capacity (Backlog.byTime (active ++ backup)) :=
          entries_reopen_inside ha hnamed hspans hcapacity fun e he => hall e (hperm.mem_iff.mp he)
      _ = lastN config.capacity l.accepted := by
          rw [Backlog.byTime_eq_of_perm hordered hperm, hsame]
      _ = s.recorder.recent.entries := by rw [hshown.recent_eq]

end Run

/-- Three entries are taken in, with a rotation behind the first. -/
def rotatedOnce : Service × Ledger :=
  Op.applyAll (.launch .small .empty .silent) .empty
    [.start 5, .ingest (.asking 1) 5, .flush true, .rotateLog, .ingest (.asking 2) 5,
      .ingest (.asking 3) 5]

theorem rotatedOnce_spec :
    rotatedOnce.2.accepted = [.asking 1, .asking 2, .asking 3] ∧ rotatedOnce.2.rotations ≤ 1 ∧
      rotatedOnce.1.recorder.recent.entries = [.asking 2, .asking 3] ∧
      rotatedOnce.1.recorder.stats.totals.queries = 3 ∧
      rotatedOnce.1.stop.recorder.pending = [] := by
  decide +kernel

/-- The view that holds two entries shows the last two again. -/
theorem Run.restart_shows_latest_rotatedOnce :
    rotatedOnce.2.accepted = [.asking 1, .asking 2, .asking 3] ∧
    LatestOf .small (rotatedOnce.2.accepted.filter fun e => inInterval .small 9 e)
      ((rotatedOnce.1.reopen .small).start 9).recorder.recent.entries ∧
    ((rotatedOnce.1.reopen .small).start 9).recorder.recent.entries = [.asking 2, .asking 3] := by
  have run : Run (fun s op => op.Clean s) (.launch .small .empty .silent) rotatedOnce.1
      rotatedOnce.2 :=
    Run.applyAll .launched _ (Op.clean_of_notMem (by simp))
  obtain ⟨haccepted, hrotations, hview, -, hsaved⟩ := rotatedOnce_spec
  have hspans : Config.small.SpansFit := ⟨by decide, by decide⟩
  obtain ⟨-, hlatest, hsame⟩ := Run.restart_shows_latest .small run hrotations
    (by rw [haccepted]; decide) hsaved (show Config.small.logFile = _ from rfl) (by decide) 9
  refine ⟨haccepted, hlatest hspans (by rw [haccepted]; decide), ?_⟩
  calc ((rotatedOnce.1.reopen .small).start 9).recorder.recent.entries
      = rotatedOnce.1.recorder.recent.entries := by
        apply hsame hspans rfl
        · rw [haccepted]
          decide
        · rw [haccepted]
          decide
    _ = [.asking 2, .asking 3] := hview

/-- The configuration of a small log that retains more hours than 64 bits have nanoseconds for. -/
def Config.overlong : Config :=
  { Config.small with statsHours := 2562048 }

theorem Beginning.overlong : Beginning .overlong .empty .silent :=
  ⟨Beginning.small.noNul, Journal.apart_silent _, Journal.apart_silent _,
    Beginning.small.active_empty, Beginning.small.backup_empty⟩

/-- One entry is taken in by a log of these hours. -/
def takenOverlong : Service × Ledger :=
  Op.applyAll (.launch .overlong .empty .silent) .empty [.start 5, .ingest (.asking 1) 5]

/-- Its window has wrapped to a negative one, so that nothing is loaded or counted when it is opened
again. -/
theorem takenOverlong_spec :
    takenOverlong.2.accepted = [.asking 1] ∧ takenOverlong.2.rotations = 0 ∧
      takenOverlong.1.recorder.recent.entries = [.asking 1] ∧
      takenOverlong.1.recorder.stats.totals.queries = 1 ∧
      takenOverlong.1.stop.recorder.pending = [] ∧
      ((takenOverlong.1.reopen .overlong).start 5).recorder.recent.entries = [] ∧
      ((takenOverlong.1.reopen .overlong).start 5).recorder.stats.totals.queries = 0 := by
  decide +kernel

/-- The view that showed an entry is empty when the log is opened again. -/
theorem Run.not_restart_shows_latest :
    (¬ ∀ (config : Config) (files : Files) (journal : Journal) (s : Service) (l : Ledger)
        (now : Int64),
      Beginning config files journal →
      Run (fun s op => op.Clean s) (.launch config files journal) s l → l.rotations ≤ 1 →
      (l.accepted.map Entry.time).Nodup → s.stop.recorder.pending = [] →
      4 * config.capacity < 2 ^ 64 →
      LatestOf config (l.accepted.filter fun e => inInterval config now e)
        ((s.reopen config).start now).recorder.recent.entries) ∧
    takenOverlong.1.recorder.recent.entries = [.asking 1] ∧
    ((takenOverlong.1.reopen .overlong).start 5).recorder.recent.entries = [] := by
  obtain ⟨haccepted, hrotations, hview, -, hsaved, hrestarted, -⟩ := takenOverlong_spec
  refine ⟨?_, hview, hrestarted⟩
  intro hlatest
  have run : Run (fun s op => op.Clean s) (.launch .overlong .empty .silent) takenOverlong.1
      takenOverlong.2 :=
    Run.applyAll .launched _ (Op.clean_of_notMem (by simp))
  obtain ⟨ordered, hperm, -, hshown⟩ := hlatest .overlong .empty .silent takenOverlong.1
    takenOverlong.2 5 .overlong run (hrotations.trans_le (Nat.zero_le 1))
    (by rw [haccepted]; decide) hsaved (by decide)
  rw [haccepted] at hperm
  obtain rfl : ordered = [.asking 1] := List.perm_singleton.mp hperm
  rw [hrestarted] at hshown
  exact absurd hshown (by decide)

end ResolverLog
