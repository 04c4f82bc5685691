import ResolverLog.Proofs.RebuiltStats
import ResolverLog.Proofs.Recency
import ResolverLog.Proofs.Trimming
import ResolverLog.Proofs.WindowedCounts

/-!
# The keys of rebuilt tallies

The log was written backup first. A start counts the active file first, and a
tally that has to forget keys forgets those it counted first: the newest ones of
the log. The keys of the backup stay though they are older.

The tallies come out with the keys that the order of the log would leave in three
cases only: all keys of the hour have room, or the latest keys of one file are
among the latest keys of the other.

## Implementation notes

What a tally holds after both files are the keys of the file counted last and then
the other ones. That this only depends on as many keys of each file as have room is
`take_thenOthers`. With it the two orders are compared as lists without repetition.
-/

namespace ResolverLog

open Bytes Counts HourlyStats

/-! ## One list and then another -/

/-- The keys of the first list, and then the other keys of the second one. -/
def thenOthers (first second : List Bytes) : List Bytes :=
  first ++ second.filter fun key => !first.contains key

section ThenOthers

variable {a b : List Bytes} {n : Nat}

theorem thenOthers_eq (a b : List Bytes) :
    thenOthers a b = a ++ b.filter fun key => key ∉ a := by
  simp [thenOthers]

theorem mem_thenOthers {key : Bytes} : key ∈ thenOthers a b ↔ key ∈ a ∨ key ∈ b := by
  rw [thenOthers_eq, List.mem_append, List.mem_filter, decide_eq_true_iff]
  tauto

theorem nodup_thenOthers (ha : a.Nodup) (hb : b.Nodup) : (thenOthers a b).Nodup := by
  rw [thenOthers_eq, List.nodup_append]
  refine ⟨ha, hb.filter _, ?_⟩
  rintro x hx y hy rfl
  exact of_decide_eq_true (List.mem_filter.mp hy).2 hx

theorem thenOthers_perm (ha : a.Nodup) (hb : b.Nodup) :
    (thenOthers a b).Perm (thenOthers b a) := by
  apply (List.perm_ext_iff_of_nodup (nodup_thenOthers ha hb) (nodup_thenOthers hb ha)).mpr
  intro key
  rw [mem_thenOthers, mem_thenOthers, or_comm]

theorem thenOthers_of_subset (h : b ⊆ a) : thenOthers a b = a := by
  rw [thenOthers_eq, List.filter_eq_nil_iff.mpr, List.append_nil]
  intro key hkey
  simpa using h hkey

theorem take_thenOthers_of_le (h : n ≤ a.length) (b : List Bytes) :
    (thenOthers a b).take n = a.take n :=
  List.take_append_of_le_length h

theorem take_subset_take_thenOthers (a b : List Bytes) (n : Nat) :
    a.take n ⊆ (thenOthers a b).take n := by
  rw [thenOthers_eq, List.take_append]
  exact List.subset_append_left _ _

/-- Of the second list no more keys than there is room for matter, since the first one has taken as
much room as it can have taken of them away. -/
theorem take_filter_take (hb : b.Nodup) (a : List Bytes) (n : Nat) :
    ((b.take n).filter fun key => key ∉ a).take (n - a.length)
      = (b.filter fun key => key ∉ a).take (n - a.length) := by
  by_cases hn : n ≤ b.length
  · have hcommon : ((b.take n).filter fun key => key ∈ a).length ≤ a.length := by
      apply List.Subperm.length_le
      apply List.subperm_of_subset ((hb.sublist (List.take_sublist n b)).filter _)
      intro key hkey
      exact of_decide_eq_true (List.mem_filter.mp hkey).2
    have hsplit := List.length_eq_length_filter_add (l := b.take n) fun key => decide (key ∈ a)
    rw [List.length_take, Nat.min_eq_left hn] at hsplit
    have hrest : n - a.length ≤ ((b.take n).filter fun key => key ∉ a).length := by
      simp only [decide_not]
      omega
    conv_rhs => rw [← List.take_append_drop n b, List.filter_append]
    rw [List.take_append_of_le_length hrest]
  · rw [List.take_of_length_le (Nat.le_of_not_le hn)]

/-- Where there is room for `n` keys, no more than `n` of each list matter. -/
theorem take_thenOthers (hb : b.Nodup) (a : List Bytes) (n : Nat) :
    (thenOthers a b).take n = (thenOthers (a.take n) (b.take n)).take n := by
  by_cases hn : n ≤ a.length
  · have hlength : n ≤ (a.take n).length := by
      rw [List.length_take, Nat.min_eq_left hn]
    rw [take_thenOthers_of_le hn, take_thenOthers_of_le hlength, List.take_take, Nat.min_self]
  · rw [List.take_of_length_le (Nat.le_of_not_le hn), thenOthers_eq, thenOthers_eq,
      List.take_append, List.take_append, take_filter_take hb]

/-- If the first `n` keys of one list are among those of the other, these are what is left,
whichever list comes first. -/
theorem take_thenOthers_perm_of_subset (ha : a.Nodup) (hb : b.Nodup)
    (h : a.take n ⊆ b.take n) :
    ((thenOthers b a).take n).Perm ((thenOthers a b).take n) := by
  have ha' := ha.sublist (List.take_sublist n a)
  have hb' := hb.sublist (List.take_sublist n b)
  have hperm := thenOthers_perm hb' ha'
  rw [thenOthers_of_subset h] at hperm
  have hlength : (thenOthers (a.take n) (b.take n)).length ≤ n := by
    rw [← hperm.length_eq, List.length_take]
    exact Nat.min_le_left _ _
  rw [take_thenOthers ha, take_thenOthers hb, thenOthers_of_subset h, List.take_take,
    Nat.min_self, List.take_of_length_le hlength]
  exact hperm

/-- When the order of two lists does not matter for what there is room for. -/
theorem take_thenOthers_perm_iff (ha : a.Nodup) (hb : b.Nodup) (n : Nat) :
    ((thenOthers b a).take n).Perm ((thenOthers a b).take n) ↔
      (thenOthers a b).length ≤ n ∨ a.take n ⊆ b.take n ∨ b.take n ⊆ a.take n := by
  constructor
  · intro hperm
    have hfirst : a.take n ⊆ (thenOthers b a).take n :=
      List.Subset.trans (take_subset_take_thenOthers a b n) hperm.symm.subset
    have hsecond : b.take n ⊆ (thenOthers a b).take n :=
      List.Subset.trans (take_subset_take_thenOthers b a n) hperm.subset
    by_cases hbn : n ≤ b.length
    · rw [take_thenOthers_of_le hbn] at hfirst
      exact Or.inr (Or.inl hfirst)
    · by_cases han : n ≤ a.length
      · rw [take_thenOthers_of_le han] at hsecond
        exact Or.inr (Or.inr hsecond)
      · left
        rw [List.take_of_length_le (Nat.le_of_not_le han)] at hfirst
        have hboth : thenOthers a b ⊆ (thenOthers b a).take n := by
          intro key hkey
          rcases mem_thenOthers.mp hkey with hmem | hmem
          · exact hfirst hmem
          · have hlater := take_subset_take_thenOthers b a n
            rw [List.take_of_length_le (Nat.le_of_not_le hbn)] at hlater
            exact hlater hmem
        exact (List.subperm_of_subset (nodup_thenOthers ha hb) hboth).length_le.trans
          (List.length_take_le n _)
  · rintro (hlength | h | h)
    · have hperm := thenOthers_perm hb ha
      rw [List.take_of_length_le hlength, List.take_of_length_le (hperm.length_eq ▸ hlength)]
      exact hperm
    · exact take_thenOthers_perm_of_subset ha hb h
    · exact (take_thenOthers_perm_of_subset hb ha h).symm

end ThenOthers

theorem latestFirst_append_eq_thenOthers (list more : List Bytes) :
    latestFirst (list ++ more) = thenOthers (latestFirst more) (latestFirst list) := by
  rw [latestFirst_append, thenOthers_eq]
  simp only [mem_latestFirst]

/-! ## Keys of an hour -/

namespace Aspect

/-- The keys of the entries of an hour, in the order of the entries. -/
def keysIn (aspect : Aspect) (now : Int64) (hour : Nat) (es : List Entry) : List Bytes :=
  (es.filter (inHour now hour)).filterMap aspect.key?

/-- The keys that statistics hold of an hour, the latest counted first. -/
def held (aspect : Aspect) (stats : HourlyStats) (hour : Nat) : List Bytes :=
  (stats.hours[hour]?.map fun h => keys (aspect.tally h).counts).getD []

theorem keysIn_append (aspect : Aspect) (now : Int64) (hour : Nat) (es more : List Entry) :
    aspect.keysIn now hour (es ++ more)
      = aspect.keysIn now hour es ++ aspect.keysIn now hour more := by
  rw [keysIn, List.filter_append, List.filterMap_append]
  rfl

/-- Statistics hold of an hour the latest keys, as many as there is room for. -/
theorem held_recordAll (aspect : Aspect) {config : Config} (now : Int64) (es : List Entry)
    {hour : Nat} (h : hour < config.stats.limit) :
    aspect.held (config.stats.recordAll now es) hour
      = (latestFirst (aspect.keysIn now hour es)).take config.stats.topSize := by
  have hroom : max 1 config.stats.topSize = config.stats.topSize := by
    apply Nat.max_eq_right
    change 1 ≤ if config.topSize.toNat = 0 then defaultTopSize else config.topSize.toNat
    split
    · decide
    · omega
  rw [Config.stats] at h
  rw [held, Config.stats, hours_recordAll_empty, List.getElem?_map, List.getElem?_range h,
    Option.map_some, Option.map_some, Option.getD_some, tally_recordAll, tally_empty,
    Tally.keys_countAll_empty]
  exact congrArg (List.take · _) hroom

end Aspect

namespace Service

variable {config : Config} {files : Files} {journal : Journal} {hour : Nat}

/-- The recorded entries, in the order in which they were recorded. -/
def logged (s : Service) : List Entry :=
  s.files.records s.recorder.archive.backupPath ++ s.files.records s.recorder.archive.path

/-- A start counts what is replayed, as far as the window reaches. -/
theorem stats_start_launch (config : Config) (files : Files) (journal : Journal) (now : Int64) :
    ((launch config files journal).start now).recorder.stats =
      config.stats.recordAll now
        (((launch config files journal).replayed.filter fun e => e.age now ≤ window config).filter
          (Backlog.counts now)) := by
  have hreplay := replay_eq_filter_replayed (launch config files journal) (window config) now
  apply (quiet_start (s := launch config files journal) rfl now).stats_eq.trans
  change ((launch config files journal).backlog now).stats = _
  rw [backlog, Backlog.stats_foldl_add, ← hreplay]
  rfl

/-- A start leaves the keys that it counted last: those of the backup, and only then those of the
active file. -/
theorem held_start (hinterval : Config.isSupportedInterval config.intervalHours = true)
    (hspan : config.statsHours.toNat ≤ maxSpan) (hlt : hour < config.stats.limit) (aspect : Aspect)
    {files : Files} {journal : Journal} {now : Int64}
    (hahead : ∀ e ∈ (launch config files journal).replayed, -2 ^ 63 ≤ e.trueAge now) :
    aspect.held ((launch config files journal).start now).recorder.stats hour
      = (latestFirst (aspect.keysIn now hour (launch config files journal).replayed)).take
          config.stats.topSize := by
  rw [stats_start_launch, aspect.held_recordAll now _ hlt, Aspect.keysIn,
    Config.filter_replayed_inHour hinterval hspan hahead hlt]
  rfl

/-- Recording a log leaves of each hour its latest keys, as many as there is room for. A start
leaves the same keys if and only if all keys of the hour have room, or the latest keys of one file
are among the latest keys of the other. The nanoseconds of the configured hours must be a number of
64 bits, and no entry may be so far ahead that its age has wrapped to that of a past one. -/
theorem start_holds_latest_keys_iff
    (hinterval : Config.isSupportedInterval config.intervalHours = true)
    (hspan : config.statsHours.toNat ≤ maxSpan) (hlt : hour < config.stats.limit) (aspect : Aspect)
    (files : Files) (journal : Journal) (now : Int64)
    (hahead : ∀ e ∈ (launch config files journal).logged, -2 ^ 63 ≤ e.trueAge now) :
    let s := launch config files journal
    let latest (es : List Entry) := latestFirst (aspect.keysIn now hour es)
    let active := latest (s.files.records s.recorder.archive.path)
    let backup := latest (s.files.records s.recorder.archive.backupPath)
    let room := config.stats.topSize
    aspect.held (config.stats.recordAll now s.logged) hour = (latest s.logged).take room ∧
      ((aspect.held (s.start now).recorder.stats hour).Perm ((latest s.logged).take room) ↔
        (latest s.logged).length ≤ room ∨ active.take room ⊆ backup.take room ∨
          backup.take room ⊆ active.take room) := by
  intro s latest active backup room
  have hlogged : latest s.logged = thenOthers active backup := by
    rw [← latestFirst_append_eq_thenOthers, ← Aspect.keysIn_append]
    rfl
  have hreplayed : latest s.replayed = thenOthers backup active := by
    rw [← latestFirst_append_eq_thenOthers, ← Aspect.keysIn_append]
    rfl
  refine ⟨aspect.held_recordAll now s.logged hlt, ?_⟩
  have hahead' : ∀ e ∈ s.replayed, -2 ^ 63 ≤ e.trueAge now := fun e he =>
    hahead e (List.perm_append_comm.mem_iff.mp he)
  rw [held_start hinterval hspan hlt aspect hahead', show latestFirst _ = _ from hreplayed, hlogged]
  exact take_thenOthers_perm_iff (nodup_latestFirst _) (nodup_latestFirst _) room

/-- A log that was rotated between two entries: the backup has the one that asks for `a`, the active
file the one that asks for `b`. -/
def rotatedNames : Files :=
  let archive : Archive := ⟨ascii "q.log"⟩
  let written := do
    let files ← archive.append .empty [lettered 0x61 1]
    let files ← archive.rotate files
    archive.append files [lettered 0x62 1]
  written.toOption.getD .empty

/-- With room for two names a start holds the two of the log. -/
theorem start_holds_latest_keys_iff_roomy :
    (Aspect.domains.held ((launch .small rotatedNames .silent).start 5).recorder.stats 0).Perm
      [[0x62], [0x61]] := by
  have hinterval : Config.isSupportedInterval Config.small.intervalHours = true := by decide
  have hlt : 0 < Config.small.stats.limit := by decide
  obtain ⟨hahead, hlatest⟩ :
      (∀ e ∈ (launch .small rotatedNames .silent).logged, -2 ^ 63 ≤ e.trueAge 5) ∧
        latestFirst (Aspect.domains.keysIn 5 0 (launch .small rotatedNames .silent).logged)
          = [[0x62], [0x61]] := by
    decide +kernel
  obtain ⟨-, hsame⟩ := start_holds_latest_keys_iff hinterval (by decide) hlt .domains rotatedNames
    .silent 5 hahead
  have hroom : (latestFirst (Aspect.domains.keysIn 5 0
      (launch .small rotatedNames .silent).logged)).length ≤ Config.small.stats.topSize := by
    rw [hlatest]
    decide
  have hheld := hsame.mpr (Or.inl hroom)
  rw [List.take_of_length_le hroom, hlatest] at hheld
  exact hheld

/-- With room for one name the last one of the log is `b`, and a start holds `a`. -/
theorem not_start_holds_latest_keys :
    (latestFirst (Aspect.domains.keysIn 5 0
      (launch { Config.small with topSize := 1 } rotatedNames .silent).logged)).take 1
        = [[0x62]] ∧
    Aspect.domains.held ((launch { Config.small with topSize := 1 } rotatedNames .silent).start
      5).recorder.stats 0 = [[0x61]] := by
  decide +kernel

end Service

end ResolverLog
