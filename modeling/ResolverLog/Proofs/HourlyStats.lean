import ResolverLog.HourlyStats
import ResolverLog.Proofs.Tally
import Mathlib.Data.List.Forall2

/-!
# What the statistics hold

Each hour of the statistics depends on the entries of that hour only, in the
order in which they came, and the totals on the number of the entries counted.
From there it is seen when two orders of counting give the same statistics.
-/

namespace ResolverLog

open Bytes Counts

/-- No key stands twice, and both tables have the same keys with the same counts. -/
structure Counts.Same (a b : Counts) : Prop where
  nodup : (keys a).Nodup
  perm : a.Perm b

/-- The counts of a window are the same in each of its tables. -/
structure Top.Same (a b : Top) : Prop where
  domains : a.domains.Same b.domains
  blocked : a.blocked.Same b.blocked
  clients : a.clients.Same b.clients

namespace HourTallies

/-- Two hours hold the same counts. -/
structure Alike (h h' : HourTallies) : Prop where
  domains : h.domains.counts.Perm h'.domains.counts
  blocked : h.blocked.counts.Perm h'.blocked.counts
  clients : h.clients.counts.Perm h'.clients.counts

theorem Alike.refl (h : HourTallies) : Alike h h :=
  ⟨List.Perm.refl _, List.Perm.refl _, List.Perm.refl _⟩

/-- The name that an entry asks for; empty for none. -/
def asked (e : Entry) : Bytes :=
  e.name?.getD []

/-- The names that entries ask for. -/
def names (es : List Entry) : List Bytes :=
  es.map asked

/-- The clients of entries, as far as they are known. -/
def clientsOf (es : List Entry) : List Bytes :=
  (es.map Entry.client).filter fun client => !client.isEmpty

/-- An entry that was blocked. -/
def isBlocked (e : Entry) : Bool :=
  e.verdict.filtered

/-- Entries counted one after another. -/
def recordAll (h : HourTallies) (es : List Entry) : HourTallies :=
  es.foldl (fun h e => h.record (asked e) e) h

theorem domains_recordAll (h : HourTallies) (es : List Entry) :
    (h.recordAll es).domains = h.domains.countAll (names es) := by
  induction es generalizing h with
  | nil => rfl
  | cons e es ih => exact ih _

theorem blocked_recordAll (h : HourTallies) (es : List Entry) :
    (h.recordAll es).blocked = h.blocked.countAll (names (es.filter isBlocked)) := by
  induction es generalizing h with
  | nil => rfl
  | cons e es ih =>
      have htail := ih (h.record (asked e) e)
      by_cases hf : isBlocked e = true
      · rw [List.filter_cons_of_pos hf]
        have hblocked : (h.record (asked e) e).blocked = h.blocked.count (asked e) 1 := by
          exact if_pos hf
        rw [hblocked] at htail
        exact htail
      · rw [List.filter_cons_of_neg hf]
        have hblocked : (h.record (asked e) e).blocked = h.blocked := by
          exact if_neg hf
        rw [hblocked] at htail
        exact htail

theorem clients_recordAll (h : HourTallies) (es : List Entry) :
    (h.recordAll es).clients = h.clients.countAll (clientsOf es) := by
  induction es generalizing h with
  | nil => rfl
  | cons e es ih =>
      have htail := ih (h.record (asked e) e)
      rw [clientsOf, List.map_cons]
      by_cases hc : e.client.isEmpty = true
      · rw [List.filter_cons_of_neg (by simp [hc])]
        have hclients : (h.record (asked e) e).clients = h.clients := by
          rw [record, if_pos hc]
        rw [hclients] at htail
        exact htail
      · rw [List.filter_cons_of_pos (by simp [hc])]
        have hclients : (h.record (asked e) e).clients = h.clients.count e.client 1 := by
          rw [record, if_neg hc]
        rw [hclients] at htail
        exact htail

/-- What holds of an hour however many entries have been counted into it. -/
structure Sound (h : HourTallies) (capacity : Nat) : Prop where
  domains : h.domains.Sound capacity
  blocked : h.blocked.Sound capacity
  clients : h.clients.Sound capacity

theorem sound_empty (topSize : Nat) : (empty topSize).Sound (max 1 topSize) :=
  ⟨Tally.sound_empty topSize, Tally.sound_empty topSize, Tally.sound_empty topSize⟩

theorem Sound.recordAll {h : HourTallies} {capacity : Nat} (hs : h.Sound capacity)
    (hpos : 0 < capacity) (es : List Entry) : (h.recordAll es).Sound capacity := by
  refine ⟨?_, ?_, ?_⟩
  · rw [domains_recordAll]
    exact hs.domains.countAll hpos _
  · rw [blocked_recordAll]
    exact hs.blocked.countAll hpos _
  · rw [clients_recordAll]
    exact hs.clients.countAll hpos _

/-- The tallies of an hour have room for the names and the clients of these entries besides those
that they hold. -/
def HasRoom (h : HourTallies) (capacity : Nat) (es : List Entry) : Prop :=
  (keys h.domains.counts ++ names es).dedup.length ≤ capacity ∧
  (keys h.blocked.counts ++ names (es.filter isBlocked)).dedup.length ≤ capacity ∧
  (keys h.clients.counts ++ clientsOf es).dedup.length ≤ capacity

instance (h : HourTallies) (capacity : Nat) (es : List Entry) : Decidable (h.HasRoom capacity es) :=
  inferInstanceAs (Decidable (_ ∧ _))

/-- No entries need no more room than there is. -/
theorem Sound.hasRoom_nil {h : HourTallies} {capacity : Nat} (hs : h.Sound capacity) :
    h.HasRoom capacity [] := by
  have hfits : ∀ {t : Tally}, t.Sound capacity → (keys t.counts ++ []).dedup.length ≤ capacity := by
    intro t ht
    rw [List.append_nil, ht.nodup.dedup, keys, List.length_map]
    exact ht.size_le
  exact ⟨hfits hs.domains, hfits hs.blocked, hfits hs.clients⟩

/-- An hour with room for all names and clients holds the same counts for any order of its
entries. -/
theorem Sound.recordAll_alike {h : HourTallies} {capacity : Nat} {es es' : List Entry}
    (hs : h.Sound capacity) (hp : es.Perm es') (hroom : h.HasRoom capacity es) :
    Alike (h.recordAll es) (h.recordAll es') := by
  obtain ⟨hdomains, hblocked, hclients⟩ := hroom
  refine ⟨?_, ?_, ?_⟩
  · rw [domains_recordAll, domains_recordAll]
    refine Tally.countAll_perm hs.domains.nodup (hp.map asked) ?_
    rw [List.card_toFinset, hs.domains.capacity_eq]
    exact hdomains
  · rw [blocked_recordAll, blocked_recordAll]
    refine Tally.countAll_perm hs.blocked.nodup ((hp.filter isBlocked).map asked) ?_
    rw [List.card_toFinset, hs.blocked.capacity_eq]
    exact hblocked
  · rw [clients_recordAll, clients_recordAll]
    refine Tally.countAll_perm hs.clients.nodup ((hp.map Entry.client).filter _) ?_
    rw [List.card_toFinset, hs.clients.capacity_eq]
    exact hclients

/-- An hour in which nothing was counted before needs room for the new names and clients only. -/
theorem recordAll_alike {topSize : Nat} {es es' : List Entry} (hp : es.Perm es')
    (hnames : (names es).dedup.length ≤ topSize)
    (hclients : (clientsOf es).dedup.length ≤ topSize) :
    Alike ((empty topSize).recordAll es) ((empty topSize).recordAll es') := by
  have hfits : topSize ≤ max 1 topSize := Nat.le_max_right 1 topSize
  have hblocked := Tally.length_dedup_le_of_subset
    (List.filter_sublist.map asked : (names (es.filter isBlocked)).Sublist (names es)).subset
  exact (sound_empty topSize).recordAll_alike hp ⟨hnames.trans hfits,
    (hblocked.trans hnames).trans hfits, hclients.trans hfits⟩

end HourTallies

namespace Top

/-- Adding alike hours keeps the counts the same. -/
theorem same_addHour {a b : Top} {h h' : HourTallies} (hs : a.Same b) (hh : h.Alike h') :
    (a.addHour h).Same (b.addHour h') :=
  ⟨⟨nodup_merge hs.domains.nodup _, merge_perm hs.domains.nodup hs.domains.perm hh.domains⟩,
    ⟨nodup_merge hs.blocked.nodup _, merge_perm hs.blocked.nodup hs.blocked.perm hh.blocked⟩,
    ⟨nodup_merge hs.clients.nodup _, merge_perm hs.clients.nodup hs.clients.perm hh.clients⟩⟩

theorem same_foldl_addHour {a b : Top} {hours hours' : List HourTallies} (hs : a.Same b)
    (hh : List.Forall₂ HourTallies.Alike hours hours') :
    (hours.foldl addHour a).Same (hours'.foldl addHour b) := by
  induction hh generalizing a b with
  | nil => exact hs
  | cons halike _ ih => exact ih (same_addHour hs halike)

end Top

namespace HourlyStats

variable {s s' : HourlyStats} {now : Int64} {e : Entry}

/-- Statistics with alike hours tell the same of each window. -/
theorem top_same (h : List.Forall₂ HourTallies.Alike s.hours s'.hours) (hours : Nat) :
    (s.top hours).Same (s'.top hours) := by
  have hnil : Counts.Same [] [] := ⟨List.nodup_nil, List.Perm.refl _⟩
  exact Top.same_foldl_addHour ⟨hnil, hnil, hnil⟩ (List.forall₂_take hours h)

/-- An entry that is counted into an hour at a time. -/
def inHour (now : Int64) (hour : Nat) (e : Entry) : Bool :=
  0 ≤ e.age now && e.name?.isSome && hourOf (e.age now) == hour

/-- An entry that is counted into one of the first hours. -/
def inHours (now : Int64) (limit : Nat) (e : Entry) : Bool :=
  0 ≤ e.age now && e.name?.isSome && hourOf (e.age now) < limit

theorem record_of_inHours (h : inHours now s.hours.length e = true) :
    (s.record e now).1 =
      { s with
        hours := s.hours.modify (hourOf (e.age now)) fun h => h.record (HourTallies.asked e) e
        totals := s.totals.record e } := by
  rw [inHours, Bool.and_eq_true, Bool.and_eq_true, decide_eq_true_eq, decide_eq_true_eq] at h
  obtain ⟨⟨hage, hname⟩, hhour⟩ := h
  obtain ⟨name, hname⟩ := Option.isSome_iff_exists.mp hname
  rw [record]
  simp only
  rw [if_neg (Int.not_lt.mpr hage), hname]
  simp only
  rw [if_pos hhour, HourTallies.asked, hname]
  rfl

theorem record_of_not_inHours (h : inHours now s.hours.length e = false) :
    (s.record e now).1 = { s with totals := s.totals.ignore } := by
  rw [record]
  simp only
  split
  · rfl
  · rename_i hage
    cases hname : e.name? with
    | none => rfl
    | some name =>
        simp only
        split
        · rename_i hhour
          rw [inHours, hname] at h
          simp [Int.not_lt.mp hage, hhour] at h
        · rfl

@[simp] theorem length_hours_record (s : HourlyStats) (e : Entry) (now : Int64) :
    (s.record e now).1.hours.length = s.hours.length := by
  cases h : inHours now s.hours.length e with
  | false => rw [record_of_not_inHours h]
  | true =>
      rw [record_of_inHours h]
      exact List.length_modify _ _ _

/-- Counting leaves the sizes of the statistics alone. -/
theorem sizes_record (s : HourlyStats) (e : Entry) (now : Int64) :
    (s.record e now).1.limit = s.limit ∧ (s.record e now).1.topSize = s.topSize := by
  cases h : inHours now s.hours.length e with
  | false =>
      rw [record_of_not_inHours h]
      exact ⟨rfl, rfl⟩
  | true =>
      rw [record_of_inHours h]
      exact ⟨rfl, rfl⟩

/-- Counting an entry changes its hour only. -/
theorem hours_record (s : HourlyStats) (e : Entry) (now : Int64) (hour : Nat) :
    (s.record e now).1.hours[hour]? =
      s.hours[hour]?.map fun h =>
        if inHour now hour e then h.record (HourTallies.asked e) e else h := by
  cases h : inHours now s.hours.length e with
  | false =>
      rw [record_of_not_inHours h]
      cases hget : s.hours[hour]? with
      | none => rfl
      | some tallies =>
          have hlt : hour < s.hours.length := (List.getElem?_eq_some_iff.mp hget).1
          have hout : inHour now hour e = false := by
            rw [Bool.eq_false_iff]
            intro hin
            rw [inHour, Bool.and_eq_true, beq_iff_eq] at hin
            rw [inHours, hin.1, hin.2] at h
            simp [hlt] at h
          rw [Option.map_some, hout]
          rfl
  | true =>
      rw [record_of_inHours h, List.getElem?_modify]
      rw [inHours, Bool.and_eq_true] at h
      simp only [inHour, h.1, Bool.true_and, beq_iff_eq]
      rfl

/-- Entries counted one after another. -/
def recordAll (s : HourlyStats) (now : Int64) (es : List Entry) : HourlyStats :=
  es.foldl (fun s e => (s.record e now).1) s

theorem sizes_recordAll (s : HourlyStats) (now : Int64) (es : List Entry) :
    (s.recordAll now es).limit = s.limit ∧ (s.recordAll now es).topSize = s.topSize := by
  induction es generalizing s with
  | nil => exact ⟨rfl, rfl⟩
  | cons e es ih =>
      obtain ⟨hlimit, htop⟩ := sizes_record s e now
      obtain ⟨hlimit', htop'⟩ := ih (s.record e now).1
      exact ⟨hlimit'.trans hlimit, htop'.trans htop⟩

/-- Each hour counts its entries in the order in which they came. -/
theorem hours_recordAll (s : HourlyStats) (now : Int64) (es : List Entry) (hour : Nat) :
    (s.recordAll now es).hours[hour]? =
      s.hours[hour]?.map fun h => h.recordAll (es.filter (inHour now hour)) := by
  induction es generalizing s with
  | nil => exact Option.map_id'.symm
  | cons e es ih =>
      have htail := ih (s.record e now).1
      rw [hours_record, Option.map_map] at htail
      apply htail.trans
      congr 1
      funext h
      cases hin : inHour now hour e with
      | false =>
          rw [List.filter_cons_of_neg (by simp [hin])]
          rfl
      | true =>
          rw [List.filter_cons_of_pos hin]
          rfl

theorem hours_empty (hours topSize : Nat) :
    (empty hours topSize).hours
      = List.replicate (empty hours topSize).limit (.empty (empty hours topSize).topSize) :=
  rfl

/-- The hours of statistics without traffic after counting. -/
theorem hours_recordAll_empty (hours topSize : Nat) (now : Int64) (es : List Entry) :
    ((empty hours topSize).recordAll now es).hours =
      (List.range (empty hours topSize).limit).map fun hour =>
        (HourTallies.empty (empty hours topSize).topSize).recordAll
          (es.filter (inHour now hour)) := by
  apply List.ext_getElem?
  intro hour
  rw [hours_recordAll, List.getElem?_map, hours_empty]
  by_cases hlt : hour < (empty hours topSize).limit
  · rw [List.getElem?_range hlt, List.getElem?_replicate_of_lt hlt]
    rfl
  · rw [List.getElem?_eq_none (by simpa using hlt), List.getElem?_eq_none (by simpa using hlt)]
    rfl

/-! ## Totals -/

/-- The totals after one more entry, which is counted or ignored. -/
def totalsAfter (now : Int64) (limit : Nat) (t : Totals) (e : Entry) : Totals :=
  if inHours now limit e then t.record e else t.ignore

theorem totals_recordAll (s : HourlyStats) (now : Int64) (es : List Entry) :
    (s.recordAll now es).totals = es.foldl (totalsAfter now s.hours.length) s.totals := by
  induction es generalizing s with
  | nil => rfl
  | cons e es ih =>
      have htail := ih (s.record e now).1
      rw [length_hours_record] at htail
      apply htail.trans
      rw [List.foldl_cons, totalsAfter]
      cases h : inHours now s.hours.length e with
      | false =>
          rw [record_of_not_inHours h]
          rfl
      | true =>
          rw [record_of_inHours h]
          rfl

theorem queries_recordAll (s : HourlyStats) (now : Int64) (es : List Entry) :
    (s.recordAll now es).totals.queries
      = s.totals.queries + UInt64.ofNat (es.countP (inHours now s.hours.length)) := by
  rw [totals_recordAll]
  generalize s.totals = totals
  induction es generalizing totals with
  | nil => exact (UInt64.add_zero _).symm
  | cons e es ih =>
      apply (ih (totalsAfter now s.hours.length totals e)).trans
      rw [totalsAfter]
      by_cases h : inHours now s.hours.length e = true
      · rw [if_pos h, List.countP_cons_of_pos h, UInt64.ofNat_add]
        change totals.queries + 1 + _ = _
        rw [UInt64.add_assoc, UInt64.add_comm 1]
        rfl
      · rw [if_neg h, List.countP_cons_of_neg h]
        rfl

/-- An entry that is counted as blocked. -/
def blockedInHours (now : Int64) (limit : Nat) (e : Entry) : Bool :=
  inHours now limit e && e.verdict.filtered

theorem blocked_recordAll (s : HourlyStats) (now : Int64) (es : List Entry) :
    (s.recordAll now es).totals.blocked
      = s.totals.blocked + UInt64.ofNat (es.countP (blockedInHours now s.hours.length)) := by
  rw [totals_recordAll]
  generalize s.totals = totals
  induction es generalizing totals with
  | nil => exact (UInt64.add_zero _).symm
  | cons e es ih =>
      apply (ih (totalsAfter now s.hours.length totals e)).trans
      rw [totalsAfter]
      by_cases h : inHours now s.hours.length e = true
      · rw [if_pos h]
        change (if e.verdict.filtered then totals.blocked + 1 else totals.blocked) + _ = _
        by_cases hf : e.verdict.filtered = true
        · rw [if_pos hf, List.countP_cons_of_pos (by simp [blockedInHours, h, hf]),
            UInt64.ofNat_add, UInt64.add_assoc, UInt64.add_comm 1]
          rfl
        · rw [if_neg hf, List.countP_cons_of_neg (by simp [blockedInHours, hf])]
      · rw [if_neg h, List.countP_cons_of_neg (by simp [blockedInHours, h])]
        rfl

/-! ## Any order

What is added to the totals does not depend on what was added before, and neither do the counts of
an hour, unless a tally of that hour has to forget keys. -/

theorem totalsAfter_comm (now : Int64) (limit : Nat) (t : Totals) (e e' : Entry) :
    totalsAfter now limit (totalsAfter now limit t e) e'
      = totalsAfter now limit (totalsAfter now limit t e') e := by
  have hrecord : (t.record e).record e' = (t.record e').record e := by
    simp only [Totals.record, Totals.mk.injEq]
    refine ⟨trivial, ?_, trivial, ?_⟩
    · split_ifs <;> rfl
    · split_ifs
      · rw [UInt64.add_assoc, UInt64.add_comm e.elapsed.toUInt64, ← UInt64.add_assoc]
      all_goals rfl
  simp only [totalsAfter]
  split_ifs
  · exact hrecord
  all_goals rfl

theorem totals_recordAll_perm (s : HourlyStats) (now : Int64) {es es' : List Entry}
    (hp : es.Perm es') : (s.recordAll now es).totals = (s.recordAll now es').totals := by
  rw [totals_recordAll, totals_recordAll]
  exact hp.foldl_eq' (fun e _ e' _ t => totalsAfter_comm now s.hours.length t e e') s.totals

@[simp] theorem length_hours_recordAll (s : HourlyStats) (now : Int64) (es : List Entry) :
    (s.recordAll now es).hours.length = s.hours.length := by
  induction es generalizing s with
  | nil => rfl
  | cons e es ih => exact (ih (s.record e now).1).trans (length_hours_record s e now)

/-- Where each hour has room for its entries, their order does not show in any window. -/
theorem top_recordAll_perm {capacity : Nat} {es es' : List Entry}
    (hs : ∀ h ∈ s.hours, h.Sound capacity) (hp : es.Perm es')
    (hroom : ∀ (hour : Nat) (h : HourTallies), s.hours[hour]? = some h →
      h.HasRoom capacity (es.filter (inHour now hour))) (hours : Nat) :
    ((s.recordAll now es).top hours).Same ((s.recordAll now es').top hours) := by
  refine top_same (List.forall₂_iff_get.mpr ⟨by simp, ?_⟩) hours
  intro hour hlt hlt'
  have hcounted := hours_recordAll s now es hour
  have hcounted' := hours_recordAll s now es' hour
  rw [length_hours_recordAll] at hlt
  rw [List.getElem?_eq_getElem (by simpa using hlt), List.getElem?_eq_getElem hlt,
    Option.map_some, Option.some.injEq] at hcounted hcounted'
  rw [List.get_eq_getElem, List.get_eq_getElem, hcounted, hcounted']
  exact (hs _ (List.getElem_mem hlt)).recordAll_alike (hp.filter _)
    (hroom hour _ (List.getElem?_eq_getElem hlt))

end HourlyStats

end ResolverLog
