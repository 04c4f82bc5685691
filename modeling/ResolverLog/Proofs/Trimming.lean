import ResolverLog.Proofs.CutRecord
import ResolverLog.Proofs.Failures
import ResolverLog.Proofs.Restart

/-!
# Gathering the entries for the view in bounded space

A start sorts the candidates for the view and drops all but the latest whenever
four times as many have gathered as the view can hold. The view does not show
it: it is filled with the latest of all that the archive has for it, as if they
had been sorted once at the end.

That a cut leaves as many as the view can hold takes a bound of at least this
number, and the bound is computed in 64 bits. It is right for every capacity
below `2 ^ 62`. Above, four times the capacity wraps, and there can be too few
candidates to cut them down.
-/

namespace ResolverLog

open Bytes Recent

/-! ## What is there to be shown -/

namespace Archive

/-- A file delivers those of its records that are not too old. -/
theorem delivery_eq_filter_records (files : Files) (window : Int) (now : Int64) (path : Bytes) :
    delivery files window now path
      = (files.records path).filter fun e => e.age now ≤ window := by
  rw [delivery, Files.records, List.filterMap_eq_flatMap_toList, List.filterMap_eq_flatMap_toList,
    List.filter_flatMap]
  exact List.flatMap_congr fun line _ => deliverable?_eq_filter window now line

end Archive

namespace Service

variable {s : Service}

/-- The recorded entries, in the order of reading: those of the active file and then those of the
backup. -/
def replayed (s : Service) : List Entry :=
  s.files.records s.recorder.archive.path ++ s.files.records s.recorder.archive.backupPath

/-- The recorded entries that ask for a name. -/
def named (s : Service) : List Entry :=
  s.replayed.filter fun e => e.name?.isSome

/-- The recorded entries that a view may show which is filled at the time `now`, in the order of
reading. -/
def showable (s : Service) (now : Int64) : List Entry :=
  s.named.filter fun e => isLoaded s.recorder.config now e

theorem replay_eq_filter_replayed (s : Service) (window : Int) (now : Int64) :
    s.recorder.archive.replay s.files window now
      = s.replayed.filter fun e => e.age now ≤ window := by
  rw [Archive.replay_eq, Archive.delivery_eq_filter_records, Archive.delivery_eq_filter_records,
    ← List.filter_append, replayed]

theorem filter_shows_replay (s : Service) (now : Int64) :
    (s.recorder.archive.replay s.files (window s.recorder.config) now).filter
        (Backlog.shows (nanosOfHours s.recorder.config.intervalHours.toNat) now)
      = s.showable now := by
  rw [replay_eq_filter_replayed, Backlog.filter_shows, showable, named, List.filter_filter]
  exact List.filter_congr fun e _ => Bool.and_comm _ _

/-- A start fills an empty view with the latest of the entries that it may show. -/
theorem entries_start_eq (hphase : s.recorder.phase = .uninitialized)
    (hempty : s.recorder.recent.entries = [])
    (hcapacity : 4 * s.recorder.recent.capacity < 2 ^ 64) (now : Int64) :
    (s.start now).recorder.recent.entries
      = lastN s.recorder.recent.capacity (Backlog.byTime (s.showable now)) := by
  rw [entries_start hphase hempty, lastN_loadable hcapacity, filter_shows_replay]

/-- The view stays empty when there is nothing that it may show. -/
theorem entries_start_eq_nil (hphase : s.recorder.phase = .uninitialized)
    (hempty : s.recorder.recent.entries = [])
    (hcapacity : 4 * s.recorder.recent.capacity < 2 ^ 64) {now : Int64}
    (h : ∀ e ∈ s.named, ¬ isLoaded s.recorder.config now e) :
    (s.start now).recorder.recent.entries = [] := by
  have hnone : s.showable now = [] := by
    simpa [showable] using h
  rw [entries_start_eq hphase hempty hcapacity, hnone, Backlog.byTime_nil, lastN_nil]

/-- A start fills an empty view with the latest of the recorded entries that it may show: the last
ones when they are sorted by time, entries of the same time staying in the order of reading. That
the candidates are sorted and cut down whenever too many have gathered changes nothing: behind any
part of them, what is left of it and the rest have the same latest entries. As long as neither the
spans of the configuration nor the ages wrap, the view may show the entries of its interval. -/
theorem start_shows_latest (hphase : s.recorder.phase = .uninitialized)
    (hempty : s.recorder.recent.entries = [])
    (hcapacity : 4 * s.recorder.recent.capacity < 2 ^ 64) (now : Int64) :
    (∃ ordered : List Entry,
      ordered.Perm (s.showable now) ∧
      (ordered.Pairwise fun a b => a.time.toInt ≤ b.time.toInt) ∧
      (∀ t, Backlog.atTime t ordered = Backlog.atTime t (s.showable now)) ∧
      (s.start now).recorder.recent.entries = lastN s.recorder.recent.capacity ordered ∧
      ∀ before after, s.showable now = before ++ after →
        lastN s.recorder.recent.capacity (Backlog.byTime
            ((before.foldl (Backlog.push s.recorder.recent.capacity.toUInt64) #[]).toList ++ after))
          = lastN s.recorder.recent.capacity ordered) ∧
    (s.recorder.config.SpansFit → (∀ e ∈ s.named, e.AgeFits now) →
      s.showable now = s.named.filter fun e => inInterval s.recorder.config now e) := by
  have hkeep := toNat_capacity hcapacity
  refine ⟨⟨Backlog.byTime (s.showable now), Backlog.byTime_perm _, Backlog.pairwise_byTime _,
    fun t => Backlog.atTime_byTime t _, entries_start_eq hphase hempty hcapacity now, ?_⟩,
    filter_isLoaded⟩
  intro before after hsplit
  have hgathered := Backlog.lastN_byTime_gathered (by rwa [hkeep]) before after
  rw [hkeep] at hgathered
  rw [hgathered, hsplit]

end Service

/-- A log of nine entries out of order, the last of them in the backup. -/
def scattered : Files :=
  let active := [.asking 3, Archive.askedFar 5, .asking 1, .asking 2, .asking 4, .asking 1,
    .asking 2, .asking 3]
  ((Files.empty.append? (ascii "q.log") (ofLines (active.map Record.line))).bind
    (·.append? (ascii "q.log.1") (ofLines [Record.line (.asking 5)]))).getD .empty

/-- All nine ask for a name. -/
theorem named_scattered {config : Config} (h : config.logFile = ascii "q.log") :
    let s := Service.launch config scattered .silent
    let entries := [.asking 3, Archive.askedFar 5, .asking 1, .asking 2, .asking 4, .asking 1,
      .asking 2, .asking 3, .asking 5]
    s.replayed = entries ∧ s.named = entries := by
  intro s entries
  have hrecords : scattered.records (ascii "q.log") ++ scattered.records (ascii "q.log.1")
      = entries ∧ entries.filter (fun e => e.name?.isSome) = entries := by
    decide +kernel
  have hreplayed : s.replayed = entries := by
    refine Eq.trans ?_ hrecords.1
    change scattered.records config.logFile ++ scattered.records (config.logFile ++ ascii ".1") = _
    rw [h]
    rfl
  refine ⟨hreplayed, ?_⟩
  rw [Service.named, hreplayed, hrecords.2]

/-- The view for two entries shows those of the latest time, though the eight of the active file
have been cut down before the one of the backup was read. -/
theorem Service.start_shows_latest_scattered :
    ((Service.launch .small scattered .silent).start 6).recorder.recent.entries
      = [Archive.askedFar 5, .asking 5] := by
  obtain ⟨⟨ordered, -, hsorted, hstable, hview, -⟩, -⟩ :=
    Service.start_shows_latest (s := .launch .small scattered .silent) rfl rfl (by decide) 6
  have hshowable : (Service.launch .small scattered .silent).showable 6
      = [.asking 3, Archive.askedFar 5, .asking 1, .asking 2, .asking 4, .asking 1, .asking 2,
        .asking 3, .asking 5] := by
    rw [Service.showable, (named_scattered rfl).2]
    decide
  have hordered : [Entry.asking 1, .asking 1, .asking 2, .asking 2, .asking 3, .asking 3,
      .asking 4, Archive.askedFar 5, .asking 5] = ordered := by
    rw [hshowable] at hstable
    rw [Backlog.eq_byTime hsorted hstable]
    exact Backlog.eq_byTime_of_perm (by decide) (by decide) (by decide)
  rw [hview, ← hordered]
  rfl

/-- The configuration of a small log whose interval has wrapped to a negative one, and whose window
to one of 25 minutes. -/
def Config.wrapped : Config :=
  { Config.small with intervalHours := 2562048, statsHours := 5124096 }

/-- The nine entries are replayed and are of the interval, but the view shows none of them. With the
interval of a day and a retention of that many hours none is even replayed. -/
theorem Service.not_start_shows_latest :
    (¬ ∀ (s : Service) (now : Int64), s.recorder.phase = .uninitialized →
      s.recorder.recent.entries = [] → 4 * s.recorder.recent.capacity < 2 ^ 64 →
      ∃ ordered : List Entry,
        ordered.Perm ((s.recorder.archive.replay s.files (window s.recorder.config) now).filter
          fun e => e.name?.isSome ∧ inInterval s.recorder.config now e) ∧
        (s.start now).recorder.recent.entries = lastN s.recorder.recent.capacity ordered) ∧
    ((Service.launch .wrapped scattered .silent).start 6).recorder.recent.entries = [] ∧
    ((Service.launch .overlong scattered .silent).start 6).recorder.recent.entries = [] := by
  have hwrapped := named_scattered (show Config.wrapped.logFile = _ from rfl)
  have hoverlong := named_scattered (show Config.overlong.logFile = _ from rfl)
  have hview : ((Service.launch .wrapped scattered .silent).start 6).recorder.recent.entries
      = [] := by
    apply Service.entries_start_eq_nil rfl rfl (by decide)
    rw [hwrapped.2]
    decide
  have hview' : ((Service.launch .overlong scattered .silent).start 6).recorder.recent.entries
      = [] := by
    apply Service.entries_start_eq_nil rfl rfl (by decide)
    rw [hoverlong.2]
    decide
  refine ⟨?_, hview, hview'⟩
  intro hlatest
  obtain ⟨ordered, hperm, hshown⟩ :=
    hlatest (.launch .wrapped scattered .silent) 6 rfl rfl (by decide)
  have hnine : ordered.length = 9 := by
    have hnames := hwrapped.2
    rw [Service.named, hwrapped.1, List.filter_eq_self] at hnames
    rw [hperm.length_eq, Service.replay_eq_filter_replayed, hwrapped.1, List.filter_filter,
      List.filter_eq_self.mpr]
    · rfl
    · intro e he
      have hinside : inInterval .wrapped 6 e ∧ e.age 6 ≤ Service.window .wrapped := by
        revert e
        decide
      rw [Bool.and_eq_true, decide_eq_true_eq, decide_eq_true_eq]
      exact ⟨⟨hnames e he, hinside.1⟩, hinside.2⟩
  have hempty := (congrArg List.length (hview.symm.trans hshown)).symm
  rw [length_lastN, hnine] at hempty
  exact absurd hempty (by decide)

/-! ## Where candidates are cut down -/

namespace Backlog

variable {keep : UInt64} {recent : Array Entry}

/-- The candidates at hand whenever they are cut down while entries are gathered behind `recent`, in
the order of the cuts. -/
def cuts (keep : UInt64) (recent : Array Entry) : List Entry → List (Array Entry)
  | [] => []
  | e :: rest =>
    (if isFull keep (recent.push e).size then [recent.push e] else [])
      ++ cuts keep (push keep recent e) rest

/-- The number of candidates at which they are cut down. -/
def bound (keep : UInt64) : Nat :=
  max 1 (keep * 4).toNat

theorem bound_eq {n : Nat} (h : keep.toNat = n) : bound keep = max 1 (4 * n % 2 ^ 64) := by
  have hbound : (keep * 4).toNat = keep.toNat * 4 % 2 ^ 64 := UInt64.toNat_mul keep 4
  rw [bound, hbound, h, Nat.mul_comm]

/-- Between two entries there are fewer candidates than the bound. -/
theorem size_push_lt (keep : UInt64) (recent : Array Entry) (e : Entry) :
    (push keep recent e).size < bound keep := by
  rw [push]
  split
  · have hcut : (cut keep (recent.push e)).size ≤ (keep * 4).toNat / 4 := by
      rw [cut, List.size_toArray, length_lastN]
      exact Nat.min_le_left _ _
    rw [bound]
    omega
  · rename_i hfull
    have hlt : (recent.push e).size < (keep * 4).toNat := by
      rw [isFull, decide_eq_true_eq] at hfull
      exact Nat.not_le.mp hfull
    exact Nat.lt_of_lt_of_le hlt (Nat.le_max_right _ _)

/-- Candidates are cut down when there are as many as the bound. -/
theorem size_of_mem_cuts {entries : List Entry} {gathered : Array Entry}
    (h : recent.size < bound keep) (hmem : gathered ∈ cuts keep recent entries) :
    gathered.size = bound keep := by
  induction entries generalizing recent with
  | nil => cases hmem
  | cons e rest ih =>
      rw [cuts] at hmem
      rcases List.mem_append.mp hmem with hmem | hmem
      · split at hmem
        · rename_i hfull
          obtain rfl := List.mem_singleton.mp hmem
          rw [isFull, decide_eq_true_eq] at hfull
          rw [bound] at h ⊢
          rw [Array.size_push] at hfull ⊢
          omega
        · cases hmem
      · exact ih (size_push_lt keep recent e) hmem

/-- When there are enough entries, the candidates are cut down. -/
theorem exists_mem_cuts {entries : List Entry} (h : recent.size < bound keep)
    (hlen : bound keep ≤ recent.size + entries.length) :
    ∃ gathered, gathered ∈ cuts keep recent entries := by
  induction entries generalizing recent with
  | nil => exact absurd h (Nat.not_lt.mpr hlen)
  | cons e rest ih =>
      rw [cuts]
      by_cases hfull : isFull keep (recent.push e).size = true
      · rw [if_pos hfull]
        exact ⟨_, List.mem_append_left _ (List.mem_singleton_self _)⟩
      · have hlt := size_push_lt keep recent e
        rw [push] at hlt ⊢
        simp only [if_neg hfull] at hlt ⊢
        obtain ⟨gathered, hmem⟩ := ih hlt (by
          rw [Array.size_push]
          rw [List.length_cons] at hlen
          omega)
        exact ⟨gathered, List.mem_append_right _ hmem⟩

end Backlog

namespace Service

variable {s : Service}

/-- The candidates at hand whenever a start at the time `now` cuts them down. -/
def cuts (s : Service) (now : Int64) : List (Array Entry) :=
  Backlog.cuts s.recorder.recent.capacity.toUInt64 #[]
    ((s.recorder.archive.replay s.files (window s.recorder.config) now).filter
      (Backlog.shows (nanosOfHours s.recorder.config.intervalHours.toNat) now))

/-- A start cuts the candidates down when there are as many as the bound. -/
theorem size_of_mem_cuts {gathered : Array Entry} {now : Int64}
    (hcapacity : s.recorder.recent.capacity < 2 ^ 64) (hmem : gathered ∈ s.cuts now) :
    gathered.size = max 1 (4 * s.recorder.recent.capacity % 2 ^ 64) := by
  rw [← Backlog.bound_eq (UInt64.toNat_ofNat_of_lt' hcapacity)]
  exact Backlog.size_of_mem_cuts (Nat.lt_of_lt_of_le Nat.one_pos (Nat.le_max_left _ _)) hmem

/-- When there is enough to be shown, the candidates are cut down. -/
theorem exists_mem_cuts {now : Int64} (hcapacity : s.recorder.recent.capacity < 2 ^ 64)
    (hlen : max 1 (4 * s.recorder.recent.capacity % 2 ^ 64) ≤ (s.showable now).length) :
    ∃ gathered, gathered ∈ s.cuts now := by
  rw [cuts, filter_shows_replay]
  apply Backlog.exists_mem_cuts (Nat.lt_of_lt_of_le Nat.one_pos (Nat.le_max_left _ _))
  rw [Backlog.bound_eq (UInt64.toNat_ofNat_of_lt' hcapacity)]
  exact hlen.trans (Nat.le_add_left _ _)

end Service

namespace Files

variable {files : Files} {path : Bytes} {entries : List Entry}

/-- A file that holds the records of entries holds these entries. -/
theorem records_of_contents (hs : ∀ e ∈ entries, e.Storable)
    (h : files.contents path = ofLines (entries.map Record.line)) :
    files.records path = entries := by
  have hdecode : ∀ e ∈ entries,
      ((fun line => (Record.decode line).toOption) ∘ Record.line) e = some e := by
    intro e he
    rw [Function.comp_apply, Record.decode_line_alone (hs e he)]
    rfl
  rw [records, h, lines_ofLines Record.newline_notMem_of_mem_map_line, List.filterMap_map,
    List.filterMap_congr hdecode]
  exact List.filterMap_some

/-- There is a log for any entries that can be stored. -/
theorem exists_records (hs : ∀ e ∈ entries, e.Storable) :
    ∃ files : Files, files.records (ascii "q.log") = entries ∧
      files.records (ascii "q.log.1") = [] := by
  have hw : Files.empty.Writable (ascii "q.log") := by decide
  obtain ⟨files, happend⟩ := append?_of_writable hw (ofLines (entries.map Record.line))
  have hput : Archive.put ⟨ascii "q.log"⟩ .empty (ofLines (entries.map Record.line))
      = .ok files := by
    rw [Archive.put, happend]
  obtain ⟨hactive, hother⟩ := Archive.contents_put hput
  have hbackup : files.contents (ascii "q.log.1") = [] :=
    (hother _ (Archive.apart_backupPath (by decide))).trans (by decide)
  refine ⟨files, records_of_contents hs ?_, records_of_contents (List.forall_mem_nil _) hbackup⟩
  have hempty : Files.empty.contents (ascii "q.log") = [] := by decide
  rwa [hempty] at hactive

end Files

/-- The configuration of a small log with a view of this size. -/
def Config.viewing (cacheSize : UInt64) : Config :=
  { Config.small with cacheSize }

namespace Service

/-- A log that holds one entry several times has it to be shown as often. -/
theorem showable_of_replicate {files : Files} {n : Nat}
    (hactive : files.records (ascii "q.log") = List.replicate n (.asking 1))
    (hbackup : files.records (ascii "q.log.1") = []) (cacheSize : UInt64) :
    (launch (.viewing cacheSize) files .silent).showable 1 = List.replicate n (.asking 1) := by
  have hname : (Entry.asking 1).name?.isSome := by decide +kernel
  have hloaded : isLoaded .small 1 (.asking 1) := by decide
  have hnamed : (launch (.viewing cacheSize) files .silent).named
      = List.replicate n (.asking 1) := by
    change (files.records (ascii "q.log") ++ files.records (ascii "q.log.1")).filter _ = _
    rw [hactive, hbackup, List.append_nil, List.filter_eq_self]
    intro e he
    rwa [List.eq_of_mem_replicate he]
  rw [showable, hnamed, List.filter_eq_self]
  intro e he
  rw [List.eq_of_mem_replicate he]
  exact decide_eq_true hloaded

/-- For every capacity there is a log from which a start gathers as many candidates as it takes to
cut them down. -/
theorem exists_cut (cacheSize : UInt64) :
    ∃ (files : Files) (gathered : Array Entry),
      gathered ∈ (launch (.viewing cacheSize) files .silent).cuts 1 := by
  have hcache := cacheSize.toNat_lt
  have hs : ∀ e ∈ List.replicate (max 1 (4 * max 1 cacheSize.toNat % 2 ^ 64)) (Entry.asking 1),
      e.Storable := by
    intro e he
    rw [List.eq_of_mem_replicate he]
    decide
  obtain ⟨files, hactive, hbackup⟩ := Files.exists_records hs
  refine ⟨files, exists_mem_cuts (s := launch (.viewing cacheSize) files .silent) ?_ ?_⟩
  · change max 1 cacheSize.toNat < 2 ^ 64
    omega
  · rw [showable_of_replicate hactive hbackup, List.length_replicate]
    exact le_refl _

/-- A start that cuts the candidates down has gathered as many as its bound, four times the capacity
of the view in 64 bits, but at least one. So every cut finds as many as the view can hold exactly
when the capacity does not exceed this bound, and no capacity below `2 ^ 62` does. -/
theorem cuts_enough_iff (cacheSize : UInt64) :
    (∀ (s : Service) (now : Int64), s.recorder.recent.capacity = max 1 cacheSize.toNat →
      ∀ gathered ∈ s.cuts now, gathered.size = max 1 (4 * max 1 cacheSize.toNat % 2 ^ 64)) ∧
    ((∀ (config : Config) (files : Files) (journal : Journal) (now : Int64),
        config.cacheSize = cacheSize →
        ∀ gathered ∈ (launch config files journal).cuts now, config.capacity ≤ gathered.size) ↔
      max 1 cacheSize.toNat ≤ max 1 (4 * max 1 cacheSize.toNat % 2 ^ 64)) ∧
    (cacheSize.toNat < 2 ^ 62 →
      max 1 cacheSize.toNat ≤ max 1 (4 * max 1 cacheSize.toNat % 2 ^ 64)) := by
  have hcache := cacheSize.toNat_lt
  have hsize : ∀ (s : Service) (now : Int64), s.recorder.recent.capacity = max 1 cacheSize.toNat →
      ∀ gathered ∈ s.cuts now, gathered.size = max 1 (4 * max 1 cacheSize.toNat % 2 ^ 64) := by
    intro s now hcapacity gathered hmem
    rw [← hcapacity]
    exact size_of_mem_cuts (by omega) hmem
  refine ⟨hsize, ⟨?_, ?_⟩, by omega⟩
  · intro henough
    obtain ⟨files, gathered, hmem⟩ := exists_cut cacheSize
    rw [← hsize _ 1 rfl gathered hmem]
    exact henough _ files .silent 1 rfl gathered hmem
  · rintro hle config files journal now rfl gathered hmem
    rw [hsize _ now rfl gathered hmem]
    exact hle

/-- Where four times the capacity wraps to nothing no candidate is left. -/
theorem loadable_of_wrapped {s : Service} (h : s.recorder.recent.capacity.toUInt64 * 4 = 0)
    (now : Int64) : s.loadable now = [] := by
  have hpush : ∀ e, Backlog.push s.recorder.recent.capacity.toUInt64 #[] e = #[] := by
    intro e
    rw [Backlog.push, Backlog.isFull, Backlog.cut, h, UInt64.toNat_zero, Nat.zero_div, lastN_zero]
    rfl
  rw [loadable, backlog, Backlog.recent_foldl_add, List.foldl_fixed' hpush]
  exact Backlog.byTime_nil

/-- A view for `2 ^ 62` entries gathers one candidate, cuts that down, and shows nothing. -/
theorem not_cuts_enough :
    (¬ ∀ (config : Config) (files : Files) (journal : Journal) (now : Int64),
      ∀ gathered ∈ (launch config files journal).cuts now, config.capacity ≤ gathered.size) ∧
    ((launch (.viewing 0x4000000000000000) scattered .silent).start 6).recorder.recent.entries
      = [] := by
  have hcapacity :
      (launch (.viewing 0x4000000000000000) scattered .silent).recorder.recent.capacity
        = 2 ^ 62 := by
    rfl
  constructor
  · intro henough
    have hshowable :
        1 ≤ ((launch (.viewing 0x4000000000000000) scattered .silent).showable 6).length := by
      rw [showable, (named_scattered rfl).2]
      decide
    obtain ⟨gathered, hmem⟩ : ∃ gathered,
        gathered ∈ (launch (.viewing 0x4000000000000000) scattered .silent).cuts 6 := by
      apply exists_mem_cuts
      · rw [hcapacity]
        decide
      · rw [hcapacity]
        exact hshowable
    have hsize : gathered.size = max 1 (4 * 2 ^ 62 % 2 ^ 64) := by
      rw [← hcapacity]
      exact size_of_mem_cuts (by rw [hcapacity]; decide) hmem
    have hle : 2 ^ 62 ≤ gathered.size :=
      hcapacity.ge.trans (henough _ scattered .silent 6 gathered hmem)
    omega
  · rw [entries_start rfl rfl, loadable_of_wrapped (by rw [hcapacity]; decide), lastN_nil]

end Service

end ResolverLog
