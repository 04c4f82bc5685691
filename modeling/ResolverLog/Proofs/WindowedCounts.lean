import ResolverLog.Proofs.HourlyStats

/-!
# Counts of a window of hours

The statistics count into places that move: a new hour pushes all others back by
one, fewer retained hours cut off the last places, and more of them add empty
ones. Beside them an account is kept that knows no places: each entry counted
stands in it with its age in hours when it was counted and the number of hours
begun since then, until it is dropped.

After any changes each retained hour holds the tallies of the entries that the
account has for its place, in the order in which they came. So what a window
tells of a key is at most the number of such entries in the account, and exactly
that number as long as no hour of the window has seen more names or clients than
a tally has keys.
-/

namespace ResolverLog

open Bytes Counts

/-! ## Three tallies of an hour -/

/-- What an hour keeps tallies of. -/
inductive Aspect
  | domains
  | blocked
  | clients
  deriving DecidableEq, Repr

namespace Aspect

/-- The key under which an entry is counted: the name asked for, the same for blocked entries
only, the client where it is known. -/
def key? : Aspect → Entry → Option Bytes
  | domains, e => some (HourTallies.asked e)
  | blocked, e => if e.verdict.filtered then some (HourTallies.asked e) else none
  | clients, e => if e.client.isEmpty then none else some e.client

/-- The tally of an hour. -/
def tally : Aspect → HourTallies → Tally
  | domains, h => h.domains
  | blocked, h => h.blocked
  | clients, h => h.clients

/-- The table of a window. -/
def table : Aspect → Top → Counts
  | domains, top => top.domains
  | blocked, top => top.blocked
  | clients, top => top.clients

@[simp] theorem tally_empty (aspect : Aspect) (topSize : Nat) :
    aspect.tally (.empty topSize) = .empty topSize := by
  cases aspect with
  | domains | blocked | clients => rfl

@[simp] theorem table_addHour (aspect : Aspect) (top : Top) (h : HourTallies) :
    aspect.table (top.addHour h) = (aspect.table top).merge (aspect.tally h).counts := by
  cases aspect with
  | domains | blocked | clients => rfl

/-- An entry is counted under its key, if it has one. -/
theorem tally_record (aspect : Aspect) (h : HourTallies) (e : Entry) :
    aspect.tally (h.record (HourTallies.asked e) e)
      = (aspect.tally h).countAll (aspect.key? e).toList := by
  cases aspect with
  | domains => rfl
  | blocked =>
      rw [tally, tally, key?, HourTallies.record]
      cases e.verdict.filtered with
      | false => rfl
      | true => rfl
  | clients =>
      rw [tally, tally, key?, HourTallies.record]
      cases e.client.isEmpty with
      | false => rfl
      | true => rfl

/-- A tally of an hour counts the keys of its entries. -/
theorem tally_recordAll (aspect : Aspect) (h : HourTallies) (es : List Entry) :
    aspect.tally (h.recordAll es) = (aspect.tally h).countAll (es.filterMap aspect.key?) := by
  induction es generalizing h with
  | nil => rfl
  | cons e es ih =>
      apply (ih (h.record (HourTallies.asked e) e)).trans
      rw [tally_record]
      cases hkey : aspect.key? e with
      | none => rw [List.filterMap_cons_none hkey]; rfl
      | some key => rw [List.filterMap_cons_some hkey]; rfl

/-- An hour that has seen few names and few clients has few keys to count. -/
theorem length_dedup_keys_le {topSize : Nat} {es : List Entry}
    (hnames : (HourTallies.names es).dedup.length ≤ topSize)
    (hclients : (HourTallies.clientsOf es).dedup.length ≤ topSize) (aspect : Aspect) :
    (es.filterMap aspect.key?).dedup.length ≤ topSize := by
  cases aspect with
  | domains =>
      refine (Tally.length_dedup_le_of_subset ?_).trans hnames
      intro key hkey
      obtain ⟨e, he, hkey⟩ := List.mem_filterMap.mp hkey
      cases hkey
      exact List.mem_map.mpr ⟨e, he, rfl⟩
  | blocked =>
      refine (Tally.length_dedup_le_of_subset ?_).trans hnames
      intro key hkey
      obtain ⟨e, he, hkey⟩ := List.mem_filterMap.mp hkey
      rw [key?] at hkey
      split at hkey
      · cases hkey
        exact List.mem_map.mpr ⟨e, he, rfl⟩
      · cases hkey
  | clients =>
      refine (Tally.length_dedup_le_of_subset ?_).trans hclients
      intro key hkey
      obtain ⟨e, he, hkey⟩ := List.mem_filterMap.mp hkey
      rw [key?] at hkey
      split at hkey
      · cases hkey
      · rename_i hknown
        cases hkey
        rw [HourTallies.clientsOf, List.mem_filter]
        exact ⟨List.mem_map.mpr ⟨e, he, rfl⟩, by simpa using hknown⟩

end Aspect

namespace HourlyStats

/-! ## Changes and the account of them -/

/-- What can be asked of statistics. -/
inductive Change
  | record (e : Entry) (now : Int64)
  | rotate
  | resize (hours : Nat)
  | clear
  deriving DecidableEq, Repr

/-- Carries a change out; a retention that is refused changes nothing. -/
def Change.apply (s : HourlyStats) : Change → HourlyStats
  | record e now => (s.record e now).1
  | rotate => s.rotate
  | resize hours => (s.resize hours).toOption.getD s
  | clear => s.clear

/-- An entry that has been counted. -/
structure Counted where
  entry : Entry
  /-- Its age in whole hours when it was counted. -/
  age : Nat
  /-- How many hours have begun since then. -/
  rotations : Nat
  deriving DecidableEq, Repr

namespace Counted

/-- The hours by which a counted entry lies back. -/
def back (c : Counted) : Nat :=
  c.age + c.rotations

/-- The entry after one more hour has begun. -/
def older (c : Counted) : Counted :=
  { c with rotations := c.rotations + 1 }

@[simp] theorem back_older (c : Counted) : c.older.back = c.back + 1 := rfl

end Counted

/-- The entries counted and not dropped, in the order in which they came. -/
structure Account where
  /-- How many hours are retained. -/
  limit : Nat
  counted : List Counted

namespace Account

/-- Nothing counted. -/
def opened (hours : Nat) : Account :=
  ⟨if hours = 0 then 24 else min hours maxHours, []⟩

/-- The account after a change. -/
def after (a : Account) : Change → Account
  | .record e now =>
    if inHours now a.limit e then
      { a with counted := a.counted ++ [⟨e, hourOf (e.age now), 0⟩] }
    else a
  | .rotate =>
    { a with counted := (a.counted.map Counted.older).filter fun c => c.back < a.limit }
  | .resize hours =>
    if 1 ≤ hours ∧ hours ≤ maxHours then
      ⟨hours, a.counted.filter fun c => c.back < hours⟩
    else a
  | .clear => { a with counted := [] }

/-- The entries that lie back by so many hours. -/
def entriesAt (a : Account) (hour : Nat) : List Entry :=
  (a.counted.filter fun c => c.back == hour).map Counted.entry

/-- How many entries of the newest `hours` hours are counted under a key. -/
def number (a : Account) (aspect : Aspect) (hours : Nat) (key : Bytes) : Nat :=
  a.counted.countP fun c => decide (c.back < hours) && aspect.key? c.entry == some key

/-- None of the newest `hours` hours has seen more than `topSize` names or clients. -/
def HasRoom (a : Account) (topSize hours : Nat) : Prop :=
  ∀ hour < hours, (HourTallies.names (a.entriesAt hour)).dedup.length ≤ topSize ∧
    (HourTallies.clientsOf (a.entriesAt hour)).dedup.length ≤ topSize

instance (a : Account) (topSize hours : Nat) : Decidable (a.HasRoom topSize hours) :=
  inferInstanceAs (Decidable (∀ hour < hours, _ ∧ _))

theorem number_zero (a : Account) (aspect : Aspect) (key : Bytes) : a.number aspect 0 key = 0 := by
  simp [number]

/-- A window with one more hour has the entries of that hour besides. -/
theorem number_succ (a : Account) (aspect : Aspect) (hours : Nat) (key : Bytes) :
    a.number aspect (hours + 1) key =
      a.number aspect hours key + ((a.entriesAt hours).filterMap aspect.key?).count key := by
  rw [number, number, entriesAt]
  induction a.counted with
  | nil => rfl
  | cons c counted ih =>
      rw [List.countP_cons, List.countP_cons, ih]
      by_cases hback : c.back = hours
      · rw [List.filter_cons_of_pos (by simpa using hback), List.map_cons]
        cases hkey : aspect.key? c.entry with
        | none => simp [List.filterMap_cons_none hkey]
        | some k =>
            rw [List.filterMap_cons_some hkey, List.count_cons]
            simp [hback, Nat.add_assoc]
      · rw [List.filter_cons_of_neg (by simpa using hback)]
        have hlt : decide (c.back < hours + 1) = decide (c.back < hours) :=
          decide_eq_decide.mpr (by omega)
        rw [hlt]
        omega

/-! ### What changes do to the entries of an hour -/

theorem entriesAt_append (a : Account) (c : Counted) (hour : Nat) :
    entriesAt { a with counted := a.counted ++ [c] } hour
      = a.entriesAt hour ++ if c.back == hour then [c.entry] else [] := by
  rw [entriesAt, entriesAt, List.filter_append, List.map_append]
  cases hback : c.back == hour with
  | false => simp [hback]
  | true => simp [hback]

theorem entriesAt_rotate_zero (a : Account) : (a.after .rotate).entriesAt 0 = [] := by
  rw [after, entriesAt, List.map_eq_nil_iff, List.filter_eq_nil_iff]
  intro c hc
  obtain ⟨c, -, rfl⟩ := List.mem_map.mp (List.mem_filter.mp hc).1
  rw [Counted.back_older, beq_iff_eq]
  exact Nat.succ_ne_zero c.back

/-- A new hour pushes the entries back by one. -/
theorem entriesAt_rotate_succ {a : Account} {hour : Nat} (h : hour + 1 < a.limit) :
    (a.after .rotate).entriesAt (hour + 1) = a.entriesAt hour := by
  rw [after, entriesAt, entriesAt, List.filter_filter, List.filter_map, List.map_map]
  congr 1
  apply List.filter_congr
  intro c _
  by_cases hback : c.back = hour
  · simp [hback, h]
  · simp [hback]

/-- Cutting off what lies further back leaves the entries of an hour. -/
theorem entriesAt_cut {counted : List Counted} {limit hours hour : Nat} (h : hour < hours) :
    entriesAt ⟨hours, counted.filter fun c => c.back < hours⟩ hour
      = entriesAt ⟨limit, counted⟩ hour := by
  rw [entriesAt, entriesAt, List.filter_filter]
  congr 1
  apply List.filter_congr
  intro c _
  by_cases hback : c.back = hour
  · simp [hback, h]
  · simp [hback]

end Account

theorem inHour_eq {now : Int64} {limit hour : Nat} {e : Entry} (h : hour < limit) :
    inHour now hour e = (inHours now limit e && hourOf (e.age now) == hour) := by
  rw [inHour, inHours]
  by_cases hhour : hourOf (e.age now) = hour
  · simp [hhour, h]
  · rw [beq_false_of_ne hhour, Bool.and_false, Bool.and_false]

/-- A retention from one hour to a year is set, any other refused. -/
theorem resize_eq (s : HourlyStats) (hours : Nat) :
    s.resize hours = if 1 ≤ hours ∧ hours ≤ maxHours then
      .ok { s with
        limit := hours
        hours := (s.hours ++ List.replicate (hours - s.hours.length)
          (HourTallies.empty s.topSize)).take hours }
    else .error ⟨hours⟩ := by
  rw [resize, checkHours]
  by_cases hbounds : 1 ≤ hours ∧ hours ≤ maxHours
  · have hcheck : (hours = 0 || maxHours < hours) = false := by
      simp
      omega
    rw [hcheck, if_pos hbounds]
    rfl
  · have hcheck : (hours = 0 || maxHours < hours) = true := by
      simp
      omega
    rw [hcheck, if_neg hbounds]
    rfl

/-- The statistics hold what the account has: each retained hour the tallies of the entries that
lie back by so many hours. -/
structure Matches (topSize : Nat) (s : HourlyStats) (a : Account) : Prop where
  limit_eq : s.limit = a.limit
  topSize_eq : s.topSize = topSize
  limit_pos : 1 ≤ a.limit
  limit_le : a.limit ≤ maxHours
  back_lt : ∀ c ∈ a.counted, c.back < a.limit
  hours_eq : s.hours = (List.range a.limit).map fun hour =>
    (HourTallies.empty topSize).recordAll (a.entriesAt hour)

namespace Matches

variable {topSize : Nat} {s : HourlyStats} {a : Account}

theorem length_hours (h : Matches topSize s a) : s.hours.length = a.limit := by
  rw [h.hours_eq, List.length_map, List.length_range]

/-- What a retained hour holds. -/
theorem getElem?_hours (h : Matches topSize s a) {hour : Nat} (hlt : hour < a.limit) :
    s.hours[hour]? = some ((HourTallies.empty topSize).recordAll (a.entriesAt hour)) := by
  rw [h.hours_eq, List.getElem?_map, List.getElem?_range hlt, Option.map_some]

/-- No entry lies back by more hours than are retained. -/
theorem entriesAt_eq_nil (h : Matches topSize s a) {hour : Nat} (hle : a.limit ≤ hour) :
    a.entriesAt hour = [] := by
  rw [Account.entriesAt, List.map_eq_nil_iff, List.filter_eq_nil_iff]
  intro c hc
  have hlt := h.back_lt c hc
  rw [beq_iff_eq]
  omega

/-- Hours are known by what each of them holds. -/
theorem of_getElem? (limit_eq : s.limit = a.limit) (topSize_eq : s.topSize = topSize)
    (limit_pos : 1 ≤ a.limit) (limit_le : a.limit ≤ maxHours)
    (back_lt : ∀ c ∈ a.counted, c.back < a.limit) (hlength : s.hours.length = a.limit)
    (hget : ∀ hour < a.limit,
      s.hours[hour]? = some ((HourTallies.empty topSize).recordAll (a.entriesAt hour))) :
    Matches topSize s a := by
  refine ⟨limit_eq, topSize_eq, limit_pos, limit_le, back_lt, ?_⟩
  apply List.ext_getElem?
  intro hour
  by_cases hlt : hour < a.limit
  · rw [hget hour hlt, List.getElem?_map, List.getElem?_range hlt, Option.map_some]
  · rw [List.getElem?_eq_none (by omega), List.getElem?_eq_none (by simpa using hlt)]

theorem opened (hours topSize : Nat) :
    Matches (empty hours topSize).topSize (empty hours topSize) (.opened hours) := by
  refine ⟨rfl, rfl, ?_, ?_, List.forall_mem_nil _, ?_⟩
  · rw [Account.opened]
    split
    · decide
    · rename_i hne
      exact Nat.le_min.mpr ⟨Nat.one_le_iff_ne_zero.mpr hne, by decide⟩
  · rw [Account.opened]
    split
    · decide
    · exact Nat.min_le_right _ _
  · exact (hours_recordAll_empty hours topSize 0 []).trans rfl

theorem record (h : Matches topSize s a) (e : Entry) (now : Int64) :
    Matches topSize (s.record e now).1 (a.after (.record e now)) := by
  obtain ⟨hlimit, htop⟩ := sizes_record s e now
  rw [h.limit_eq] at hlimit
  rw [h.topSize_eq] at htop
  have hlength := (length_hours_record s e now).trans h.length_hours
  rw [Account.after]
  split
  · rename_i hin
    refine of_getElem? hlimit htop h.limit_pos h.limit_le ?_ hlength ?_
    · intro c hc
      rcases List.mem_append.mp hc with hc | hc
      · exact h.back_lt c hc
      · rw [inHours, Bool.and_eq_true, decide_eq_true_eq] at hin
        rw [List.mem_singleton.mp hc]
        exact hin.2
    · intro hour hlt
      rw [hours_record, h.getElem?_hours hlt, Option.map_some, Account.entriesAt_append,
        inHour_eq hlt, hin]
      cases hback : hourOf (e.age now) == hour with
      | false => simp [Counted.back, hback]
      | true => simp [Counted.back, hback, HourTallies.recordAll]
  · rename_i hout
    refine of_getElem? hlimit htop h.limit_pos h.limit_le h.back_lt hlength ?_
    intro hour hlt
    rw [hours_record, h.getElem?_hours hlt, Option.map_some, inHour_eq hlt,
      Bool.eq_false_of_not_eq_true hout]
    rfl

theorem rotate (h : Matches topSize s a) : Matches topSize s.rotate (a.after .rotate) := by
  have hlength : s.rotate.hours.length = a.limit := by
    rw [HourlyStats.rotate, List.length_take, List.length_cons, h.length_hours, h.limit_eq]
    omega
  refine of_getElem? h.limit_eq h.topSize_eq h.limit_pos h.limit_le ?_ hlength ?_
  · intro c hc
    change c.back < a.limit
    simpa using (List.mem_filter.mp hc).2
  · intro hour hlt
    change hour < a.limit at hlt
    rw [HourlyStats.rotate, List.getElem?_take_of_lt (h.limit_eq ▸ hlt)]
    cases hour with
    | zero =>
        rw [List.getElem?_cons_zero, h.topSize_eq, Account.entriesAt_rotate_zero]
        rfl
    | succ hour =>
        rw [List.getElem?_cons_succ, h.getElem?_hours (by omega),
          Account.entriesAt_rotate_succ hlt]

theorem resize (h : Matches topSize s a) (hours : Nat) :
    Matches topSize (Change.apply s (.resize hours)) (a.after (.resize hours)) := by
  rw [Change.apply, resize_eq, Account.after]
  split
  · rename_i hbounds
    obtain ⟨hpos, hle⟩ := hbounds
    refine of_getElem? rfl h.topSize_eq hpos hle ?_ ?_ ?_
    · intro c hc
      simpa using (List.mem_filter.mp hc).2
    · simp only [Except.toOption, Option.getD_some, List.length_take, List.length_append,
        List.length_replicate]
      omega
    · intro hour hlt
      change hour < hours at hlt
      simp only [Except.toOption, Option.getD_some]
      rw [List.getElem?_take_of_lt hlt, Account.entriesAt_cut hlt]
      by_cases hkept : hour < a.limit
      · rw [List.getElem?_append_left (by rw [h.length_hours]; exact hkept), h.getElem?_hours hkept]
      · rw [List.getElem?_append_right (by rw [h.length_hours]; omega), h.length_hours,
          List.getElem?_replicate_of_lt (by omega), h.topSize_eq,
          h.entriesAt_eq_nil (Nat.le_of_not_lt hkept)]
        rfl
  · exact h

theorem clear (h : Matches topSize s a) : Matches topSize s.clear (a.after .clear) := by
  refine of_getElem? h.limit_eq h.topSize_eq h.limit_pos h.limit_le (List.forall_mem_nil _) ?_ ?_
  · exact (List.length_map _).trans h.length_hours
  · intro hour hlt
    rw [HourlyStats.clear, List.getElem?_map, h.getElem?_hours hlt, h.topSize_eq]
    rfl

/-- One change keeps the account right. -/
theorem change (h : Matches topSize s a) (change : Change) :
    Matches topSize (change.apply s) (a.after change) := by
  cases change with
  | record e now => exact h.record e now
  | rotate => exact h.rotate
  | resize hours => exact h.resize hours
  | clear => exact h.clear

/-- So do any changes one after another. -/
theorem changes (h : Matches topSize s a) (changes : List Change) :
    Matches topSize (changes.foldl Change.apply s) (changes.foldl Account.after a) := by
  induction changes generalizing s a with
  | nil => exact h
  | cons change changes ih => exact ih (h.change change)

/-! ### Windows -/

/-- A window with one more hour adds the tallies of that hour. -/
theorem top_succ (h : Matches topSize s a) {hours : Nat} (hlt : hours < a.limit) :
    s.top (hours + 1)
      = (s.top hours).addHour ((HourTallies.empty topSize).recordAll (a.entriesAt hours)) := by
  rw [top, List.take_add_one, h.getElem?_hours hlt, List.foldl_append]
  rfl

/-- Retained hours tell of a key at most what the account has, and exactly that where there was
room for all keys. -/
theorem get_top (h : Matches topSize s a) (aspect : Aspect) {hours : Nat} (hle : hours ≤ a.limit)
    (key : Bytes) :
    ∃ n ≤ a.number aspect hours key,
      (aspect.table (s.top hours)).get key = UInt64.ofNat n ∧
      (a.HasRoom topSize hours → n = a.number aspect hours key) := by
  induction hours with
  | zero =>
      refine ⟨0, Nat.zero_le _, ?_, fun _ => (a.number_zero aspect key).symm⟩
      cases aspect with
      | domains | blocked | clients => rfl
  | succ hours ih =>
      obtain ⟨n, hn, hget, hexact⟩ := ih (by omega)
      obtain ⟨m, hm, hget', hexact'⟩ := Tally.get_countAll_empty topSize
        ((a.entriesAt hours).filterMap aspect.key?) key
      have hsound := (Tally.sound_empty topSize).countAll (Nat.le_max_left 1 topSize)
        ((a.entriesAt hours).filterMap aspect.key?)
      rw [a.number_succ]
      refine ⟨n + m, Nat.add_le_add hn hm, ?_, ?_⟩
      · rw [h.top_succ hle, Aspect.table_addHour, Aspect.tally_recordAll, Aspect.tally_empty,
          get_merge hsound.nodup, hget, UInt64.ofNat_add]
        exact congrArg (UInt64.ofNat n + ·) hget'
      · intro hroom
        obtain ⟨hnames, hclients⟩ := hroom hours (Nat.lt_succ_self hours)
        rw [hexact fun hour hlt => hroom hour (Nat.lt_succ_of_lt hlt),
          hexact' (Aspect.length_dedup_keys_le hnames hclients aspect)]

/-- No tally of a retained hour holds more keys than it may. -/
theorem size_le (h : Matches topSize s a) {tallies : HourTallies} (hmem : tallies ∈ s.hours)
    (aspect : Aspect) : (aspect.tally tallies).size ≤ max 1 topSize := by
  rw [h.hours_eq] at hmem
  obtain ⟨hour, -, rfl⟩ := List.mem_map.mp hmem
  rw [Aspect.tally_recordAll, Aspect.tally_empty]
  exact ((Tally.sound_empty topSize).countAll (Nat.le_max_left 1 topSize) _).size_le

end Matches

/-! ## Any changes -/

/-- The tables of a window have no key twice. -/
theorem nodup_table_top (s : HourlyStats) (aspect : Aspect) (hours : Nat) :
    (keys (aspect.table (s.top hours))).Nodup := by
  have hsame : (s.top hours).Same (s.top hours) :=
    top_same (List.forall₂_same.mpr fun h _ => HourTallies.Alike.refl h) hours
  cases aspect with
  | domains => exact hsame.domains.nodup
  | blocked => exact hsame.blocked.nodup
  | clients => exact hsame.clients.nodup

theorem top_min (s : HourlyStats) (hours : Nat) :
    s.top (min hours s.hours.length) = s.top hours := by
  rw [top, top, ← List.take_eq_take_min]

theorem record_eq_true_iff {s : HourlyStats} {e : Entry} {now : Int64} :
    (s.record e now).2 = true ↔ inHours now s.hours.length e = true := by
  rw [record, inHours]
  by_cases hage : e.age now < 0
  · simp [hage, Int.not_le.mpr hage]
  · cases hname : e.name? with
    | none => simp [hage]
    | some name =>
        by_cases hhour : hourOf (e.age now) < s.hours.length
        · simp [hage, hhour, Int.not_lt.mp hage]
        · simp [hage, hhour]

/-- The number of keys that a tally has room for. -/
def tallySize (topSize : Nat) : Nat :=
  if topSize = 0 then defaultTopSize else topSize

/-- After any changes as many hours are retained as the limit says, one to 8760, and no tally holds
more keys than it has room for. An entry is counted when it asks for a name and its age lies in the
retained hours. A window tells of each key at most the number of the entries counted under it that
lie back by less than the window and the limit and have not been dropped, and exactly this number
where no hour of the window has seen more names or clients than a tally has room for. -/
theorem top_of_changes (hours topSize : Nat) (changes : List Change) :
    let s := changes.foldl Change.apply (empty hours topSize)
    let a := changes.foldl Account.after (.opened hours)
    s.hours.length = s.limit ∧ s.limit = a.limit ∧ 1 ≤ s.limit ∧ s.limit ≤ 8760 ∧
    (∀ e now, (s.record e now).2 = true ↔ inHours now s.limit e = true) ∧
    (∀ h ∈ s.hours, ∀ aspect : Aspect, (aspect.tally h).size ≤ tallySize topSize) ∧
    ∀ (aspect : Aspect) (window : Nat) (key : Bytes),
      (keys (aspect.table (s.top window))).Nodup ∧
      ((aspect.table (s.top window)).get key).toNat ≤ a.number aspect (min window s.limit) key ∧
      (a.HasRoom (tallySize topSize) (min window s.limit) →
        a.number aspect (min window s.limit) key < UInt64.size →
        ((aspect.table (s.top window)).get key).toNat
          = a.number aspect (min window s.limit) key) := by
  intro s a
  have hm : Matches (tallySize topSize) s a := (Matches.opened hours topSize).changes changes
  have hlength : s.hours.length = s.limit := hm.length_hours.trans hm.limit_eq.symm
  refine ⟨hlength, hm.limit_eq, hm.limit_eq ▸ hm.limit_pos, hm.limit_eq ▸ hm.limit_le, ?_, ?_, ?_⟩
  · intro e now
    rw [← hlength]
    exact record_eq_true_iff
  · intro h hmem aspect
    have hpos : 1 ≤ tallySize topSize := by
      rw [tallySize]
      split
      · decide
      · omega
    exact (hm.size_le hmem aspect).trans_eq (Nat.max_eq_right hpos)
  · intro aspect window key
    have hle : min window s.limit ≤ a.limit := by
      rw [hm.limit_eq]
      exact Nat.min_le_right window a.limit
    obtain ⟨n, hn, hget, hexact⟩ := hm.get_top aspect hle key
    rw [← hlength, top_min] at hget
    have htoNat : ((aspect.table (s.top window)).get key).toNat = n % UInt64.size := by
      rw [hget]
      exact UInt64.toNat_ofNat'
    refine ⟨nodup_table_top s aspect window, ?_, ?_⟩
    · rw [htoNat]
      exact (Nat.mod_le n _).trans hn
    · intro hroom hlt
      rw [htoNat, hexact hroom, Nat.mod_eq_of_lt hlt]

/-- An entry of this time and of the client `c` that asks for a name of one letter. -/
def lettered (letter : UInt8) (time : Int64) : Entry :=
  ⟨time, [0, 0, 0, 0, 0, 1, 0, 0, 0, 0, 0, 0, 1, letter, 0, 0, 1, 0, 1], [], [0x63], [], .pass, 0⟩

/-- In one hour `a`, `b` and again `a` are counted, the last one after the next hour has begun. One
more `a` lies back by two hours and is cut off before three hours are retained again. -/
def cutAndRegrown : List Change :=
  [.record (lettered 0x61 0) 5, .record (lettered 0x62 0) 5, .rotate,
    .record (lettered 0x61 0) 3600000000005, .record (lettered 0x61 0) 7200000000005, .resize 2,
    .resize 3]

/-- With room for two names the window tells that `a` was counted twice; with room for one the
first of them is lost to `b`. -/
theorem top_of_changes_cutAndRegrown :
    (((cutAndRegrown.foldl Change.apply (empty 3 2)).top 9).domains.get [0x61]).toNat = 2 ∧
    (((cutAndRegrown.foldl Change.apply (empty 3 1)).top 9).domains.get [0x61]).toNat = 1 ∧
    1 ≤ (cutAndRegrown.foldl Account.after (.opened 3)).number .domains 3 [0x61] := by
  obtain ⟨-, -, -, -, -, -, hroomy⟩ := top_of_changes 3 2 cutAndRegrown
  obtain ⟨-, -, -, -, -, -, hnarrow⟩ := top_of_changes 3 1 cutAndRegrown
  obtain ⟨-, -, hexact⟩ := hroomy .domains 9 [0x61]
  obtain ⟨-, hle, -⟩ := hnarrow .domains 9 [0x61]
  have hnumber : (cutAndRegrown.foldl Account.after (.opened 3)).number .domains
      (min 9 (cutAndRegrown.foldl Change.apply (empty 3 2)).limit) [0x61] = 2 := by decide +kernel
  have hone : (((cutAndRegrown.foldl Change.apply (empty 3 1)).top 9).domains.get [0x61]).toNat
      = 1 := by decide +kernel
  refine ⟨(hexact (by decide +kernel) (by rw [hnumber]; decide)).trans hnumber, hone, ?_⟩
  exact hone.symm.trans_le hle

end HourlyStats

end ResolverLog
