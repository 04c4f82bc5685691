import ResolverLog.Recorder
import Mathlib.Algebra.Ring.Int.Defs
import Mathlib.Algebra.Ring.Nat

/-!
# Ages and spans in 64 bits

The age of an entry and the nanoseconds of a span of hours are computed in 64
bits. An age is the true one as long as the entry and the present are less than
2^63 nanoseconds apart, about 292 years, and the nanoseconds of a span are the
true ones for up to 2562047 hours.
-/

namespace ResolverLog

namespace Entry

variable {e : Entry} {now : Int64}

/-- How many nanoseconds before `now` the entry happened, however many these are. -/
def trueAge (e : Entry) (now : Int64) : Int :=
  now.toInt - e.time.toInt

/-- The age of the entry is a number of 64 bits. -/
def AgeFits (now : Int64) (e : Entry) : Prop :=
  -2 ^ 63 ≤ e.trueAge now ∧ e.trueAge now < 2 ^ 63

instance (now : Int64) (e : Entry) : Decidable (AgeFits now e) :=
  inferInstanceAs (Decidable (_ ∧ _))

theorem age_eq_bmod (e : Entry) (now : Int64) : e.age now = (e.trueAge now).bmod (2 ^ 64) :=
  Int64.toInt_sub now e.time

theorem AgeFits.age_eq (h : e.AgeFits now) : e.age now = e.trueAge now := by
  obtain ⟨hlower, hupper⟩ := h
  rw [age_eq_bmod]
  apply Int.bmod_eq_of_le <;> omega

/-- An entry whose age has not wrapped from below is of the past if its age says so. -/
theorem trueAge_nonneg (hahead : -2 ^ 63 ≤ e.trueAge now) (h : 0 ≤ e.age now) :
    0 ≤ e.trueAge now := by
  by_cases hfits : e.trueAge now < 2 ^ 63
  · rwa [AgeFits.age_eq ⟨hahead, hfits⟩] at h
  · omega

theorem age_lt (e : Entry) (now : Int64) : e.age now < 2 ^ 63 :=
  Int64.toInt_lt _

/-- An entry that is not from the future has its true age, or one that is below zero. -/
theorem age_of_le (h : 0 ≤ e.trueAge now) :
    e.age now = e.trueAge now ∨ (2 ^ 63 ≤ e.trueAge now ∧ e.age now < 0) := by
  by_cases hfits : e.trueAge now < 2 ^ 63
  · exact .inl (AgeFits.age_eq ⟨by omega, hfits⟩)
  · have hnow := now.toInt_lt
    have htime := e.time.le_toInt
    have hupper : e.trueAge now < 2 ^ 64 := by
      rw [trueAge]
      omega
    refine .inr ⟨Int.not_lt.mp hfits, ?_⟩
    rw [age_eq_bmod, Int.bmod]
    omega

/-- The age of an entry of the earliest time, seen from the year 2023, is below zero. -/
example : (⟨Int64.minValue, [], [], [], [], .pass, 0⟩ : Entry).age 1700000000000000000 < 0 := by
  decide

end Entry

/-- Entries whose ages fit are told apart by their true ages. -/
theorem filter_age_le {entries : List Entry} {now : Int64} (h : ∀ e ∈ entries, e.AgeFits now)
    (window : Int) :
    entries.filter (fun e => e.age now ≤ window)
      = entries.filter fun e => e.trueAge now ≤ window := by
  apply List.filter_congr
  intro e he
  rw [(h e he).age_eq]

/-- The most hours whose nanoseconds are a number of 64 bits. -/
def maxSpan : Nat := 2562047

theorem nanosOfHours_of_le {hours : Nat} (h : hours ≤ maxSpan) :
    nanosOfHours hours = nanosPerHour * hours := by
  rw [maxSpan] at h
  rw [nanosOfHours, nanosPerHour, Int64.toInt_ofInt]
  apply Int.bmod_eq_of_le <;> simp only [Int64.size] <;> omega

/-- The interval and the retention of a configuration are spans of 64 bits. -/
structure Config.SpansFit (config : Config) : Prop where
  interval_le : config.intervalHours.toNat ≤ maxSpan
  stats_le : config.statsHours.toNat ≤ maxSpan

namespace Config.SpansFit

variable {config : Config}

theorem interval_eq (h : config.SpansFit) :
    nanosOfHours config.intervalHours.toNat = nanosPerHour * config.intervalHours.toNat :=
  nanosOfHours_of_le h.interval_le

theorem window_eq (h : config.SpansFit) :
    Service.window config
      = nanosPerHour * max config.intervalHours.toNat config.statsHours.toNat := by
  rw [Service.window, nanosOfHours_of_le (Nat.max_le.mpr ⟨h.interval_le, h.stats_le⟩)]

end Config.SpansFit

end ResolverLog
