import ResolverLog.Proofs.Trimming

/-!
# Entries of the same time across a restart

Sorting by time keeps the order of reading, and the active file is read before
the backup. So where a rotation has fallen between entries of the same time, a
restart shows those behind it first. All other entries come in the order of
their arrival.
-/

namespace ResolverLog

open Bytes Recent

namespace Recent

variable {α : Type} {n : Nat} {early middle middle' late : List α}

theorem lastN_append (n : Nat) (xs ys : List α) :
    lastN n (xs ++ ys) = lastN (n - ys.length) xs ++ lastN n ys := by
  rcases Nat.le_total ys.length n with hle | hle
  · rw [lastN_of_length_le hle, lastN, lastN, List.length_append,
      List.drop_append_of_le_length (by omega)]
    congr 2
    omega
  · rw [lastN_append_of_le hle, Nat.sub_eq_zero_of_le hle, lastN_zero, List.nil_append]

/-- Of lists that differ in the middle the last elements are the same when they are in the part of
the middle that is reached. -/
theorem lastN_middle_inj (hlen : middle.length = middle'.length) :
    lastN n (early ++ middle ++ late) = lastN n (early ++ middle' ++ late) ↔
      lastN (n - late.length) middle = lastN (n - late.length) middle' := by
  rw [lastN_append n, lastN_append n, List.append_left_inj, lastN_append _ early,
    lastN_append _ early, hlen, List.append_right_inj]

end Recent

namespace Backlog

variable {xs ys : List Entry}

theorem atTime_append (t : Int) (xs ys : List Entry) :
    atTime t (xs ++ ys) = atTime t xs ++ atTime t ys :=
  List.filter_append ..

theorem atTime_eq_nil {t : Int} (h : ∀ e ∈ xs, e.time.toInt ≠ t) : atTime t xs = [] := by
  rw [atTime, List.filter_eq_nil_iff]
  exact fun e he ht => h e he (of_decide_eq_true ht)

/-- It does not matter for the order of sorting in which order entries of different times come. -/
theorem atTime_append_comm {t : Int} (h : ∀ a ∈ xs, ∀ b ∈ ys, a.time.toInt < b.time.toInt) :
    atTime t (xs ++ ys) = atTime t (ys ++ xs) := by
  rw [atTime_append, atTime_append]
  by_cases hx : ∃ a ∈ xs, a.time.toInt = t
  · obtain ⟨a, ha, rfl⟩ := hx
    rw [atTime_eq_nil fun b hb => (h a ha b hb).ne', List.append_nil, List.nil_append]
  · have hnone : atTime t xs = [] := atTime_eq_nil fun a ha hat => hx ⟨a, ha, hat⟩
    rw [hnone, List.nil_append, List.append_nil]

/-- Sorted entries can be divided at any time. -/
theorem exists_split (h : xs.Pairwise fun a b => a.time.toInt ≤ b.time.toInt) (t : Int) :
    ∃ early late, xs = early ++ late ∧ (∀ e ∈ early, e.time.toInt < t) ∧
      ∀ e ∈ late, t ≤ e.time.toInt := by
  induction xs with
  | nil => exact ⟨[], [], rfl, List.forall_mem_nil _, List.forall_mem_nil _⟩
  | cons a xs ih =>
      by_cases ha : a.time.toInt < t
      · obtain ⟨early, late, rfl, hearly, hlate⟩ := ih h.tail
        exact ⟨a :: early, late, rfl, List.forall_mem_cons.mpr ⟨ha, hearly⟩, hlate⟩
      · have hall : ∀ e ∈ a :: xs, t ≤ e.time.toInt := by
          have hat : t ≤ a.time.toInt := Int.not_lt.mp ha
          refine List.forall_mem_cons.mpr ⟨hat, fun e he => ?_⟩
          exact hat.trans (List.rel_of_pairwise_cons h he)
        exact ⟨[], a :: xs, rfl, List.forall_mem_nil _, hall⟩

/-- Between the parts of a sorted list there is a time. -/
theorem exists_time_between (h : (xs ++ ys).Pairwise fun a b => a.time.toInt ≤ b.time.toInt) :
    ∃ t : Int, (∀ e ∈ xs, e.time.toInt ≤ t) ∧ ∀ e ∈ ys, t ≤ e.time.toInt := by
  obtain ⟨-, hy, hxy⟩ := List.pairwise_append.mp h
  cases ys with
  | nil => exact ⟨2 ^ 63, fun e _ => e.time.toInt_le.trans (by decide), List.forall_mem_nil _⟩
  | cons b ys =>
      refine ⟨b.time.toInt, fun e he => hxy e he b List.mem_cons_self, ?_⟩
      exact List.forall_mem_cons.mpr ⟨le_refl _, fun e he => List.rel_of_pairwise_cons hy he⟩

/-- In sorted entries those of one time can change places. -/
theorem pairwise_of_tied {t : Int} {early middle middle' late : List Entry}
    (h : (early ++ middle ++ late).Pairwise fun a b => a.time.toInt ≤ b.time.toInt)
    (hp : middle'.Perm middle) (htied : ∀ e ∈ middle, e.time.toInt = t) :
    (early ++ middle' ++ late).Pairwise fun a b => a.time.toInt ≤ b.time.toInt := by
  have hmiddle : middle'.Pairwise fun a b => a.time.toInt ≤ b.time.toInt := by
    apply List.pairwise_of_forall_mem_list
    intro a ha b hb
    rw [htied a (hp.mem_iff.mp ha), htied b (hp.mem_iff.mp hb)]
  simp only [List.append_assoc, List.pairwise_append, List.mem_append, hp.mem_iff] at h ⊢
  exact ⟨h.1, ⟨hmiddle, h.2.1.2⟩, h.2.2⟩

/-- Entries read in two parts, the later part first, have for each time the order that they have
when only those of the time at which the parts meet change places. -/
theorem atTime_swap {t : Int} {early before after late : List Entry}
    (hearly : ∀ e ∈ early, e.time.toInt < t) (htied : ∀ e ∈ before ++ after, e.time.toInt = t)
    (hlate : ∀ e ∈ late, t < e.time.toInt) (u : Int) :
    atTime u (early ++ (after ++ before) ++ late)
      = atTime u (after ++ late ++ (early ++ before)) := by
  have hbefore : atTime u (before ++ late) = atTime u (late ++ before) :=
    atTime_append_comm fun a ha b hb =>
      (htied a (List.mem_append_left _ ha)).trans_lt (hlate b hb)
  have hfront : atTime u (early ++ (after ++ late)) = atTime u (after ++ late ++ early) := by
    apply atTime_append_comm
    intro a ha b hb
    have hat := hearly a ha
    rcases List.mem_append.mp hb with hb | hb
    · have hbt := htied b (List.mem_append_right _ hb)
      omega
    · have hbt := hlate b hb
      omega
  calc atTime u (early ++ (after ++ before) ++ late)
      = atTime u early ++ atTime u after ++ atTime u (before ++ late) := by
        simp only [atTime_append, List.append_assoc]
    _ = atTime u (early ++ (after ++ late)) ++ atTime u before := by
        rw [hbefore]
        simp only [atTime_append, List.append_assoc]
    _ = atTime u (after ++ late ++ (early ++ before)) := by
        rw [hfront]
        simp only [atTime_append, List.append_assoc]

/-- Entries in the order of time, of which the later part is read first, are sorted back but for
those of the time at which the parts meet. -/
theorem byTime_append_swap (h : (xs ++ ys).Pairwise fun a b => a.time.toInt ≤ b.time.toInt) :
    ∃ (t : Int) (early before after late : List Entry),
      xs = early ++ before ∧ ys = after ++ late ∧
      (∀ e ∈ early, e.time.toInt < t) ∧ (∀ e ∈ before ++ after, e.time.toInt = t) ∧
      (∀ e ∈ late, t < e.time.toInt) ∧
      byTime (ys ++ xs) = early ++ (after ++ before) ++ late := by
  obtain ⟨t, hxt, hty⟩ := exists_time_between h
  obtain ⟨hx, hy, -⟩ := List.pairwise_append.mp h
  obtain ⟨early, before, rfl, hearly, hbefore⟩ := exists_split hx t
  obtain ⟨after, late, rfl, hafter, hlate⟩ := exists_split hy (t + 1)
  have htied : ∀ e ∈ before ++ after, e.time.toInt = t := by
    intro e he
    rcases List.mem_append.mp he with he | he
    · exact Int.le_antisymm (hxt e (List.mem_append_right _ he)) (hbefore e he)
    · exact Int.le_antisymm (Int.lt_add_one_iff.mp (hafter e he))
        (hty e (List.mem_append_left _ he))
  refine ⟨t, early, before, after, late, rfl, rfl, hearly, htied, hlate, (eq_byTime ?_ ?_).symm⟩
  · have hgrouped : (early ++ (before ++ after) ++ late).Pairwise
        fun a b => a.time.toInt ≤ b.time.toInt := by
      simpa only [List.append_assoc] using h
    exact pairwise_of_tied hgrouped List.perm_append_comm htied
  · exact atTime_swap hearly htied hlate

end Backlog

namespace Run

variable {config config' : Config} {files : Files} {journal : Journal} {s : Service} {l : Ledger}

/-- Under a configuration whose spans do not wrap, entries that came in the order of time, times
standing still included, and are all of the interval are shown again after a stop that leaves
nothing pending, and at most one rotation. They are in the order of their arrival but for those of
one time, that of the rotation: of these the ones in the active file come first. So the view is the
same as before exactly when, as far as it reaches, it makes no difference to swap them. -/
theorem restart_swaps_equal_times (hb : Beginning config files journal)
    (run : Run (fun s op => op.Clean s) (.launch config files journal) s l)
    (hrotations : l.rotations ≤ 1)
    (hordered : l.accepted.Pairwise fun a b => a.time.toInt ≤ b.time.toInt)
    (hsaved : s.stop.recorder.pending = []) (hlog : config'.logFile = config.logFile)
    (hspans : config'.SpansFit) (hcache : config'.cacheSize = config.cacheSize)
    (hcapacity : 4 * config'.capacity < 2 ^ 64) (now : Int64)
    (hall : ∀ e ∈ l.accepted, inInterval config' now e) :
    ∃ (t : Int) (early before after late : List Entry),
      Record.decodeAll ((s.reopen config').files.contents
        (s.reopen config').recorder.archive.backupPath) = .ok (early ++ before) ∧
      Record.decodeAll ((s.reopen config').files.contents
        (s.reopen config').recorder.archive.path) = .ok (after ++ late) ∧
      (∀ e ∈ early, e.time.toInt < t) ∧ (∀ e ∈ before ++ after, e.time.toInt = t) ∧
      (∀ e ∈ late, t < e.time.toInt) ∧
      l.accepted = early ++ (before ++ after) ++ late ∧
      (l.rotations = 0 → early ++ before = []) ∧
      s.recorder.recent.entries = lastN config.capacity (early ++ (before ++ after) ++ late) ∧
      ((s.reopen config').start now).recorder.recent.entries
        = lastN config.capacity (early ++ (after ++ before) ++ late) ∧
      (((s.reopen config').start now).recorder.recent.entries = s.recorder.recent.entries ↔
        lastN (config.capacity - late.length) (after ++ before)
          = lastN (config.capacity - late.length) (before ++ after)) := by
  obtain ⟨backup, active, ha⟩ := run.accounted_reopen hb hsaved hlog
  have hshown := run.shown hb
  have haccepted := ha.accepted_eq_append hrotations rfl
  have hmem : ∀ e ∈ active ++ backup, e ∈ l.accepted := by
    intro e he
    rw [haccepted]
    exact List.perm_append_comm.mem_iff.mp he
  rw [haccepted] at hordered
  obtain ⟨t, early, before, after, late, rfl, rfl, hearly, htied, hlate, hswap⟩ :=
    Backlog.byTime_append_swap hordered
  have hsame : config'.capacity = config.capacity := by
    rw [Config.capacity, Config.capacity, hcache]
  have hregroup : early ++ before ++ (after ++ late) = early ++ (before ++ after) ++ late := by
    simp only [List.append_assoc]
  have hview : s.recorder.recent.entries
      = lastN config.capacity (early ++ (before ++ after) ++ late) := by
    rw [hshown.recent_eq, haccepted, hregroup]
  have hrestarted := entries_reopen_inside ha (fun e he => hshown.named e (hmem e he)) hspans
    hcapacity fun e he => hall e (hmem e he)
  rw [hswap, hsame] at hrestarted
  refine ⟨t, early, before, after, late, ha.decode_backup, ha.decode_active, hearly, htied, hlate,
    haccepted.trans hregroup, ha.backup_nil, hview, hrestarted, ?_⟩
  rw [hview, hrestarted]
  exact lastN_middle_inj List.perm_append_comm.length_eq

end Run

theorem Beginning.viewing (cacheSize : UInt64) : Beginning (.viewing cacheSize) .empty .silent :=
  ⟨Beginning.small.noNul, Journal.apart_silent _, Journal.apart_silent _,
    Beginning.small.active_empty, Beginning.small.backup_empty⟩

/-- Three entries are taken in, with a rotation behind the first. -/
def rotatedBetween (first second third : Entry) : Service × Ledger :=
  Op.applyAll (.launch (.viewing 4) .empty .silent) .empty
    [.start 5, .ingest first 5, .flush true, .rotateLog, .ingest second 5, .ingest third 5]

theorem run_rotatedBetween (first second third : Entry) :
    Run (fun s op => op.Clean s) (.launch (.viewing 4) .empty .silent)
      (rotatedBetween first second third).1 (rotatedBetween first second third).2 :=
  Run.applyAll .launched _ (Op.clean_of_notMem (by simp))

/-- Two entries of the same time come behind the rotation. -/
def tiedBehind : Service × Ledger :=
  rotatedBetween (.asking 1) (.asking 2) (Archive.askedFar 2)

/-- The first entry is in the backup and the other ones are in the active file. -/
theorem tiedBehind_spec :
    tiedBehind.2.accepted = [.asking 1, .asking 2, Archive.askedFar 2] ∧
      tiedBehind.2.rotations ≤ 1 ∧ tiedBehind.1.stop.recorder.pending = [] ∧
      tiedBehind.1.recorder.recent.entries = [.asking 1, .asking 2, Archive.askedFar 2] ∧
      Record.decodeAll ((tiedBehind.1.reopen (.viewing 4)).files.contents
        (tiedBehind.1.reopen (.viewing 4)).recorder.archive.backupPath) = .ok [.asking 1] ∧
      Record.decodeAll ((tiedBehind.1.reopen (.viewing 4)).files.contents
        (tiedBehind.1.reopen (.viewing 4)).recorder.archive.path)
          = .ok [.asking 2, Archive.askedFar 2] := by
  decide +kernel

/-- They are shown again as they came. -/
theorem Run.restart_swaps_equal_times_tiedBehind :
    tiedBehind.2.accepted = [.asking 1, .asking 2, Archive.askedFar 2] ∧
    ((tiedBehind.1.reopen (.viewing 4)).start 9).recorder.recent.entries
      = [.asking 1, .asking 2, Archive.askedFar 2] := by
  obtain ⟨haccepted, hrotations, hsaved, hview, hfirst, hothers⟩ := tiedBehind_spec
  obtain ⟨t, early, before, after, late, hbackup, hactive, -, htied, -, -, -, -, -, hsame⟩ :=
    Run.restart_swaps_equal_times (.viewing 4)
      (show Run _ _ tiedBehind.1 tiedBehind.2 from run_rotatedBetween _ _ _) hrotations
      (by rw [haccepted]; decide) hsaved rfl ⟨by decide, by decide⟩
      (show (Config.viewing 4).cacheSize = _ from rfl) (by decide) 9 (by rw [haccepted]; decide)
  refine ⟨haccepted, (hsame.mpr ?_).trans hview⟩
  have hbefore : ∀ e ∈ before, e = .asking 1 := by
    intro e he
    have hmem := List.mem_append_right early he
    rwa [Except.ok.inj (hbackup.symm.trans hfirst), List.mem_singleton] at hmem
  have hafter : ∀ e ∈ after, e.time.toInt = 2 := by
    intro e he
    have hmem := List.mem_append_left late he
    rw [Except.ok.inj (hactive.symm.trans hothers)] at hmem
    exact (show ∀ e ∈ [Entry.asking 2, Archive.askedFar 2], e.time.toInt = 2 by decide) e hmem
  -- an entry on both sides would have the times 1 and 2
  rcases before with _ | ⟨b, before⟩
  · rw [List.append_nil, List.nil_append]
  rcases after with _ | ⟨a, after⟩
  · rw [List.append_nil, List.nil_append]
  have hb := htied b (by simp)
  have ha := htied a (by simp)
  rw [hbefore b List.mem_cons_self] at hb
  rw [hafter a List.mem_cons_self] at ha
  exact absurd (hb.trans ha.symm) (by decide)

/-- The rotation falls between two entries of the same time. -/
def tiedAcross : Service × Ledger :=
  rotatedBetween (.asking 1) (Archive.askedFar 1) (.asking 2)

/-- The first entry is read behind the other ones. -/
theorem tiedAcross_spec :
    tiedAcross.2.accepted = [.asking 1, Archive.askedFar 1, .asking 2] ∧
      tiedAcross.2.rotations ≤ 1 ∧ tiedAcross.1.stop.recorder.pending = [] ∧
      tiedAcross.1.recorder.recent.entries = [.asking 1, Archive.askedFar 1, .asking 2] ∧
      (tiedAcross.1.reopen (.viewing 4)).showable 9
        = [Archive.askedFar 1, .asking 2, .asking 1] := by
  decide +kernel

/-- The second one is shown first after the restart. -/
theorem Run.not_restart_keeps_order :
    (¬ ∀ (config : Config) (files : Files) (journal : Journal) (s : Service) (l : Ledger)
        (now : Int64),
      Beginning config files journal →
      Run (fun s op => op.Clean s) (.launch config files journal) s l → l.rotations ≤ 1 →
      (l.accepted.Pairwise fun a b => a.time.toInt ≤ b.time.toInt) →
      s.stop.recorder.pending = [] → config.SpansFit → 4 * config.capacity < 2 ^ 64 →
      (∀ e ∈ l.accepted, inInterval config now e) →
      ((s.reopen config).start now).recorder.recent.entries = s.recorder.recent.entries) ∧
    tiedAcross.1.recorder.recent.entries = [.asking 1, Archive.askedFar 1, .asking 2] ∧
    ((tiedAcross.1.reopen (.viewing 4)).start 9).recorder.recent.entries
      = [Archive.askedFar 1, .asking 1, .asking 2] := by
  obtain ⟨haccepted, hrotations, hsaved, hview, hshowable⟩ := tiedAcross_spec
  have hsorted : [Archive.askedFar 1, .asking 1, .asking 2]
      = Backlog.byTime [Archive.askedFar 1, .asking 2, .asking 1] :=
    Backlog.eq_byTime_of_perm (by decide) (by decide) (by decide)
  have hrestarted : ((tiedAcross.1.reopen (.viewing 4)).start 9).recorder.recent.entries
      = [Archive.askedFar 1, .asking 1, .asking 2] := by
    rw [Service.entries_start_eq rfl rfl (by decide), hshowable, ← hsorted]
    rfl
  refine ⟨?_, hview, hrestarted⟩
  intro hkeeps
  have hsame := hkeeps (.viewing 4) .empty .silent tiedAcross.1 tiedAcross.2 9 (.viewing 4)
    (run_rotatedBetween _ _ _) hrotations (by rw [haccepted]; decide) hsaved
    ⟨by decide, by decide⟩ (by decide) (by rw [haccepted]; decide)
  rw [hrestarted, hview] at hsame
  exact absurd hsame (by decide)

end ResolverLog
