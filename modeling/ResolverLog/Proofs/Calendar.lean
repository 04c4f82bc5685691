import ResolverLog.Timestamp
import Mathlib.Algebra.Order.Ring.Int
import Mathlib.Data.Int.SuccPred
import Mathlib.Order.SuccPred.Basic

/-!
# The calendar day by day

The proleptic Gregorian calendar as it is told: a leap year every fourth year,
of the full centuries only every fourth one, twelve months of their lengths, and
the first of January behind the last of December. Dates are numbered by the days
since 1970-01-01, and `Date.ofDays` gives each number its date: the date of the
next number is the next date.

## Implementation notes

`Date.ofDays` works in years that begin in March and in eras of 400 years. A day
of an era is taken apart into its century, its four years, its year and its day
of the year (`EraDay`), so that each quotient of `yearOfEra` can be told from
these parts.
-/

namespace ResolverLog

namespace Date

variable {d e : Date} {n : Int} {year : Int} {month : Nat}

/-! ## The rules -/

/-- Every fourth year is a leap year, of the full centuries only every fourth one. -/
def isLeap (year : Int) : Bool :=
  year % 4 == 0 && (year % 100 != 0 || year % 400 == 0)

/-- The lengths of the months. -/
def monthLengths (leap : Bool) : List Nat :=
  [31, if leap then 29 else 28, 31, 30, 31, 30, 31, 31, 30, 31, 30, 31]

/-- The length of a month. -/
def daysInMonth (year : Int) (month : Nat) : Nat :=
  (monthLengths (isLeap year)).getD (month - 1) 0

/-- The date names a day. -/
structure IsDay (d : Date) : Prop where
  month_pos : 1 ≤ d.month
  month_le : d.month ≤ 12
  day_pos : 1 ≤ d.day
  day_le : d.day ≤ daysInMonth d.year d.month

theorem isDay_iff : d.IsDay ↔
    1 ≤ d.month ∧ d.month ≤ 12 ∧ 1 ≤ d.day ∧ d.day ≤ daysInMonth d.year d.month :=
  ⟨fun ⟨h₁, h₂, h₃, h₄⟩ => ⟨h₁, h₂, h₃, h₄⟩, fun ⟨h₁, h₂, h₃, h₄⟩ => ⟨h₁, h₂, h₃, h₄⟩⟩

instance (d : Date) : Decidable d.IsDay :=
  decidable_of_iff _ isDay_iff.symm

/-- The next date. -/
def next (d : Date) : Date :=
  if d.day < daysInMonth d.year d.month then { d with day := d.day + 1 }
  else if d.month < 12 then ⟨d.year, d.month + 1, 1⟩
  else ⟨d.year + 1, 1, 1⟩

/-- The earlier of two dates has the smaller year, month or day, in this order. -/
def Earlier (d e : Date) : Prop :=
  d.year < e.year ∨ d.year = e.year ∧ (d.month < e.month ∨ d.month = e.month ∧ d.day < e.day)

theorem isLeap_iff : isLeap year = true ↔
    year % 4 = 0 ∧ (year % 100 ≠ 0 ∨ year % 400 = 0) := by
  simp [isLeap]

/-! ## Dates by number -/

/-- The leap years from the year 1 to the one before `year`. -/
def leapsBefore (year : Int) : Int :=
  (year - 1) / 4 - (year - 1) / 100 + (year - 1) / 400

/-- The days from 1970-01-01 to the first of January of a year. -/
def newYear (year : Int) : Int :=
  365 * (year - 1970) + (leapsBefore year - leapsBefore 1970)

/-- The days of a year before the first of a month. -/
def beforeMonth (year : Int) (month : Nat) : Nat :=
  ((monthLengths (isLeap year)).take (month - 1)).sum

/-- The days from 1970-01-01 to a date. -/
def toDays (d : Date) : Int :=
  newYear d.year + beforeMonth d.year d.month + d.day - 1

theorem newYear_succ (year : Int) :
    newYear (year + 1) = newYear year + (monthLengths (isLeap year)).sum := by
  have hleap : isLeap year = true ↔ _ := isLeap_iff
  cases h : isLeap year with
  | false =>
      have hsum : (monthLengths false).sum = 365 := rfl
      rw [h] at hleap
      simp only [Bool.false_eq_true, false_iff] at hleap
      simp only [newYear, leapsBefore, hsum]
      omega
  | true =>
      have hsum : (monthLengths true).sum = 366 := rfl
      rw [h] at hleap
      simp only [true_iff] at hleap
      simp only [newYear, leapsBefore, hsum]
      omega

theorem newYear_mono {year later : Int} (h : year ≤ later) : newYear year ≤ newYear later := by
  have hmono : Monotone newYear := by
    apply monotone_int_of_le_succ
    intro year
    rw [newYear_succ]
    omega
  exact hmono h

theorem beforeMonth_succ (year : Int) (h : 1 ≤ month) (hle : month ≤ 12) :
    beforeMonth year (month + 1) = beforeMonth year month + daysInMonth year month := by
  obtain ⟨k, rfl⟩ := Nat.exists_eq_add_of_le' h
  have hall : ∀ leap, ∀ k < 12, ((monthLengths leap).take (k + 1)).sum =
      ((monthLengths leap).take k).sum + (monthLengths leap).getD k 0 := by
    decide
  exact hall (isLeap year) k (by omega)

theorem beforeMonth_mono (year : Int) : Monotone (beforeMonth year) := by
  intro month later hle
  obtain ⟨rest, hrest⟩ : (monthLengths (isLeap year)).take (month - 1)
      <+: (monthLengths (isLeap year)).take (later - 1) :=
    List.take_prefix_take_left (by omega)
  rw [beforeMonth, beforeMonth, ← hrest, List.sum_append]
  exact Nat.le_add_right _ _

theorem beforeMonth_thirteen (year : Int) :
    beforeMonth year 13 = (monthLengths (isLeap year)).sum := rfl

/-- A day lies in its year. -/
theorem IsDay.toDays_lt (h : d.IsDay) : d.toDays < newYear (d.year + 1) := by
  have hmonth := beforeMonth_succ d.year h.month_pos h.month_le
  have hyear : beforeMonth d.year (d.month + 1) ≤ beforeMonth d.year 13 :=
    beforeMonth_mono d.year (by have := h.month_le; omega)
  have hday := h.day_le
  rw [beforeMonth_thirteen] at hyear
  rw [toDays, newYear_succ]
  omega

/-- Earlier days have smaller numbers. -/
theorem Earlier.toDays_lt (h : d.Earlier e) (hd : d.IsDay) (he : e.IsDay) :
    d.toDays < e.toDays := by
  have hday := hd.day_le
  have hday' := he.day_pos
  rcases h with hyear | ⟨hyear, hmonth | ⟨hmonth, hless⟩⟩
  · have hlast := hd.toDays_lt
    have hmono : newYear (d.year + 1) ≤ newYear e.year := newYear_mono (by omega)
    have hfirst : newYear e.year ≤ e.toDays := by
      rw [toDays]
      omega
    omega
  · have hsucc := beforeMonth_succ d.year hd.month_pos hd.month_le
    have hmono : beforeMonth d.year (d.month + 1) ≤ beforeMonth d.year e.month :=
      beforeMonth_mono d.year hmonth
    rw [toDays, toDays, ← hyear]
    omega
  · rw [toDays, toDays, ← hyear, ← hmonth]
    omega

theorem earlier_trichotomy (d e : Date) : d.Earlier e ∨ d = e ∨ e.Earlier d := by
  obtain ⟨year, month, day⟩ := d
  obtain ⟨year', month', day'⟩ := e
  simp only [Earlier, Date.mk.injEq]
  omega

theorem earlier_of_toDays_lt (hd : d.IsDay) (he : e.IsDay) (h : d.toDays < e.toDays) :
    d.Earlier e := by
  rcases earlier_trichotomy d e with hlt | rfl | hgt
  · exact hlt
  · exact absurd h (lt_irrefl _)
  · exact absurd (hgt.toDays_lt he hd) (by omega)

/-- A number belongs to one date at most. -/
theorem eq_of_toDays_eq (hd : d.IsDay) (he : e.IsDay) (h : d.toDays = e.toDays) : d = e := by
  rcases earlier_trichotomy d e with hlt | rfl | hgt
  · exact absurd (hlt.toDays_lt hd he) (by omega)
  · rfl
  · exact absurd (hgt.toDays_lt he hd) (by omega)

theorem toDays_next (h : d.IsDay) : d.next.toDays = d.toDays + 1 := by
  have hmonth := beforeMonth_succ d.year h.month_pos h.month_le
  have hday := h.day_le
  rw [next]
  split
  · simp only [toDays]
    omega
  · split
    · simp only [toDays, hmonth]
      omega
    · have htwelve : d.month = 12 := by
        have := h.month_le
        omega
      have hyear : (monthLengths (isLeap d.year)).sum = beforeMonth d.year (d.month + 1) := by
        rw [htwelve]
        rfl
      have hone : beforeMonth (d.year + 1) 1 = 0 := rfl
      simp only [toDays, newYear_succ, hyear, hmonth, hone]
      omega

theorem daysInMonth_pos (year : Int) (h : 1 ≤ month) (hle : month ≤ 12) :
    1 ≤ daysInMonth year month := by
  have hall : ∀ leap, ∀ k < 12, 1 ≤ (monthLengths leap).getD k 0 := by decide
  exact hall (isLeap year) (month - 1) (by omega)

theorem IsDay.day_le_thirtyOne (h : d.IsDay) : d.day ≤ 31 := by
  have hpos := h.month_pos
  have hle := h.month_le
  have hall : ∀ leap, ∀ k < 12, (monthLengths leap).getD k 0 ≤ 31 := by decide
  exact h.day_le.trans (hall (isLeap d.year) (d.month - 1) (by omega))

theorem IsDay.next (h : d.IsDay) : d.next.IsDay := by
  have hpos := h.month_pos
  have hle := h.month_le
  rw [Date.next]
  split
  · exact ⟨hpos, hle, Nat.le_add_left 1 _, by assumption⟩
  · split
    · have hle' : d.month + 1 ≤ 12 := by omega
      exact ⟨Nat.le_add_left 1 _, hle', le_rfl, daysInMonth_pos _ (Nat.le_add_left 1 _) hle'⟩
    · have hjanuary : (1 : Nat) ≤ 12 := by decide
      exact ⟨le_rfl, hjanuary, le_rfl, daysInMonth_pos _ le_rfl hjanuary⟩

/-! ## Days of an era -/

/-- A day of an era by its century, the four years in the century, the year of the four and the day
of this year. Only the last of four years can have 366 days, and that of the last four years of a
century only in the last century. -/
structure EraDay where
  century : Nat
  fours : Nat
  year : Nat
  day : Nat
  century_le : century ≤ 3
  fours_le : fours ≤ 24
  year_le : year ≤ 3
  day_le : day < 365 ∨ day = 365 ∧ year = 3 ∧ (fours < 24 ∨ century = 3)

namespace EraDay

variable {era : Int}

/-- The year of the era. -/
def yearNumber (x : EraDay) : Nat :=
  100 * x.century + 4 * x.fours + x.year

/-- The day of the era. -/
def dayNumber (x : EraDay) : Nat :=
  36524 * x.century + 1461 * x.fours + 365 * x.year + x.day

theorem exists_dayNumber {days : Nat} (h : days < 146097) :
    ∃ x : EraDay, x.dayNumber = days := by
  obtain ⟨century, inCentury, hcentury, hin, rfl⟩ : ∃ century inCentury, century ≤ 3 ∧
      (inCentury < 36524 ∨ inCentury = 36524 ∧ century = 3) ∧
      36524 * century + inCentury = days :=
    ⟨min 3 (days / 36524), days - 36524 * min 3 (days / 36524), by omega, by omega, by omega⟩
  obtain ⟨year, day, hyear, hday, hrest⟩ : ∃ year day, year ≤ 3 ∧
      (day < 365 ∨ day = 365 ∧ year = 3) ∧ 365 * year + day = inCentury % 1461 :=
    ⟨min 3 (inCentury % 1461 / 365), inCentury % 1461 - 365 * min 3 (inCentury % 1461 / 365),
      by omega, by omega, by omega⟩
  refine ⟨⟨century, inCentury / 1461, year, day, hcentury, by omega, hyear, by omega⟩, ?_⟩
  simp only [dayNumber]
  omega

theorem dayNumber_lt (x : EraDay) : x.dayNumber < 146097 := by
  have hcentury := x.century_le
  have hfours := x.fours_le
  have hyear := x.year_le
  have hday := x.day_le
  rw [dayNumber]
  omega

/-- A quotient by 1460 counts the leap days, and one of them too early at the end of four years. -/
theorem yearOfEra_dayNumber (x : EraDay) : yearOfEra x.dayNumber = x.yearNumber := by
  obtain ⟨century, fours, year, day, hcentury, hfours, hyear, hday⟩ := x
  simp only [yearOfEra, dayNumber, yearNumber]
  generalize hn : 36524 * century + 1461 * fours + 365 * year + day = n
  have hcenturies : n / 36524 = century + n / 146096 := by
    rcases Nat.lt_or_ge n (36524 * (century + 1)) with h | h
    · have hlow : n / 36524 = century := by omega
      have hhigh : n / 146096 = 0 := by omega
      omega
    · have hend : n = 146096 := by omega
      subst hend
      omega
  have hleaps : n / 1460 = 25 * century + fours
      + (24 * century + fours + 365 * year + day) / 1460 := by
    have hsplit : n = 24 * century + fours + 365 * year + day + 1460 * (25 * century + fours) := by
      omega
    rw [hsplit, Nat.add_mul_div_left _ _ (by decide), Nat.add_comm]
  have hearly : (24 * century + fours + 365 * year + day) / 1460 = 0 ∧ day < 365 ∨
      (24 * century + fours + 365 * year + day) / 1460 = 1 ∧ 0 < day := by
    rcases Nat.lt_or_ge (24 * century + fours + 365 * year + day) 1460 with h | h
    · left
      constructor
      · omega
      · omega
    · right
      constructor
      · omega
      · omega
  rw [hcenturies, hleaps]
  generalize (24 * century + fours + 365 * year + day) / 1460 = early at hearly
  generalize n / 146096 = last
  have hdays : n - (25 * century + fours + early) + (century + last) - last
      = day - early + 365 * (100 * century + 4 * fours + year) := by
    omega
  rw [hdays, Nat.add_mul_div_left _ _ (by decide), Nat.div_eq_of_lt (by omega), Nat.zero_add]

theorem daysBeforeYear_yearNumber (x : EraDay) :
    daysBeforeYear x.yearNumber + x.day = x.dayNumber := by
  obtain ⟨century, fours, year, day, hcentury, hfours, hyear, hday⟩ := x
  simp only [daysBeforeYear, dayNumber, yearNumber]
  have hfour : (100 * century + 4 * fours + year) / 4 = 25 * century + fours := by omega
  have hhundred : (100 * century + 4 * fours + year) / 100 = century := by omega
  omega

/-- The year that begins in March, within the calendar. -/
def march (era : Int) (x : EraDay) : Int :=
  era * 400 + x.yearNumber

/-- The first of January lies 306 days behind the first of March. -/
theorem newYear_march (era : Int) (x : EraDay) :
    newYear (x.march era + 1) + x.day = 146097 * era + x.dayNumber - epoch + 306 := by
  obtain ⟨century, fours, year, day, hcentury, hfours, hyear, hday⟩ := x
  simp only [newYear, leapsBefore, march, yearNumber, dayNumber, epoch]
  push_cast
  have hfour : (era * 400 + (100 * (century : Int) + 4 * fours + year) + 1 - 1) / 4
      = 100 * era + 25 * century + fours := by omega
  have hhundred : (era * 400 + (100 * (century : Int) + 4 * fours + year) + 1 - 1) / 100
      = 4 * era + century := by omega
  have hall : (era * 400 + (100 * (century : Int) + 4 * fours + year) + 1 - 1) / 400 = era := by
    omega
  rw [hfour, hhundred, hall]
  omega

/-- The day behind 365 others is the last of February in a leap year. -/
theorem isLeap_march (x : EraDay) (h : x.day = 365) : isLeap (x.march era + 1) = true := by
  obtain ⟨century, fours, year, day, hcentury, hfours, hyear, hday⟩ := x
  simp only at h
  rw [isLeap_iff, march, yearNumber]
  push_cast
  omega

/-- The date of a day whose year began in March. -/
def date (era : Int) (x : EraDay) : Date :=
  let month := (5 * x.day + 2) / 153
  { year := x.march era + (if month < 10 then 0 else 1)
    month := if month < 10 then month + 3 else month - 9
    day := x.day - daysBeforeMonth month + 1 }

theorem ofDays_eq (x : EraDay) (h : n + epoch = 146097 * era + x.dayNumber) :
    ofDays n = x.date era := by
  have hlt := x.dayNumber_lt
  have hera : (n + epoch) / daysPerEra = era := by
    rw [daysPerEra]
    omega
  have hday : ((n + epoch) % daysPerEra).toNat = x.dayNumber := by
    rw [daysPerEra]
    omega
  have hrest : x.dayNumber - daysBeforeYear x.yearNumber = x.day := by
    rw [← x.daysBeforeYear_yearNumber]
    omega
  rw [ofDays, hera, hday]
  simp only [x.yearOfEra_dayNumber, hrest]
  rfl

/-- The month of a day of the year, counted from March, is one of twelve and holds the day. -/
theorem month_spec (x : EraDay) :
    (5 * x.day + 2) / 153 ≤ 11 ∧ daysBeforeMonth ((5 * x.day + 2) / 153) ≤ x.day ∧
      x.day < daysBeforeMonth ((5 * x.day + 2) / 153 + 1) := by
  have hday := x.day_le
  simp only [daysBeforeMonth]
  omega

theorem toDays_date (era : Int) (x : EraDay) :
    (x.date era).toDays = 146097 * era + x.dayNumber - epoch := by
  obtain ⟨hmonth, hle, -⟩ := x.month_spec
  have hyear := x.newYear_march era
  rw [date]
  generalize (5 * x.day + 2) / 153 = month at hmonth hle ⊢
  by_cases hten : month < 10
  · have hall : ∀ leap, ∀ month < 10, ((monthLengths leap).take (month + 2)).sum + 306
        = (monthLengths leap).sum + daysBeforeMonth month := by
      decide
    have hbefore : beforeMonth (x.march era) (month + 3) + 306
        = (monthLengths (isLeap (x.march era))).sum + daysBeforeMonth month :=
      hall _ month hten
    rw [newYear_succ] at hyear
    simp only [if_pos hten, toDays, add_zero]
    omega
  · have hall : ∀ leap, ∀ month < 12, 10 ≤ month →
        ((monthLengths leap).take (month - 9 - 1)).sum + 306 = daysBeforeMonth month := by
      decide
    have hbefore : beforeMonth (x.march era + 1) (month - 9) + 306 = daysBeforeMonth month :=
      hall _ month (by omega) (by omega)
    simp only [if_neg hten, toDays]
    omega

theorem isDay_date (era : Int) (x : EraDay) : (x.date era).IsDay := by
  obtain ⟨hmonth, hle, hlt⟩ := x.month_spec
  rw [date]
  generalize (5 * x.day + 2) / 153 = month at hmonth hle hlt ⊢
  by_cases hten : month < 10
  · have hall : ∀ leap, ∀ month < 10,
        daysBeforeMonth (month + 1)
          = daysBeforeMonth month + (monthLengths leap).getD (month + 2) 0 := by
      decide
    have hlength : daysBeforeMonth (month + 1)
        = daysBeforeMonth month + daysInMonth (x.march era) (month + 3) :=
      hall _ month hten
    simp only [if_pos hten, add_zero]
    exact ⟨by simp only; omega, by simp only; omega, Nat.le_add_left 1 _, by simp only; omega⟩
  · simp only [if_neg hten]
    obtain rfl | rfl : month = 10 ∨ month = 11 := by omega
    · have hjanuary : daysInMonth (x.march era + 1) (10 - 9) = 31 := rfl
      have hfirst : daysBeforeMonth 10 = 306 := rfl
      have hlast : daysBeforeMonth (10 + 1) = 337 := rfl
      exact ⟨(by decide : 1 ≤ 10 - 9), (by decide : 10 - 9 ≤ 12), Nat.le_add_left 1 _,
        by simp only; omega⟩
    · have hfirst : daysBeforeMonth 11 = 337 := rfl
      refine ⟨(by decide : 1 ≤ 11 - 9), (by decide : 11 - 9 ≤ 12), Nat.le_add_left 1 _, ?_⟩
      rcases x.day_le with hday | ⟨hday, -⟩
      · have hfebruary : ∀ leap, 28 ≤ (monthLengths leap).getD (11 - 9 - 1) 0 := by decide
        have hlength : 28 ≤ daysInMonth (x.march era + 1) (11 - 9) := hfebruary _
        simp only
        omega
      · have hlength : daysInMonth (x.march era + 1) (11 - 9) = 29 := by
          rw [daysInMonth, x.isLeap_march hday]
          rfl
        simp only
        omega

end EraDay

theorem exists_ofDays (n : Int) : ∃ era, ∃ x : EraDay,
    n + epoch = 146097 * era + x.dayNumber ∧ ofDays n = x.date era := by
  have hlt : ((n + epoch) % 146097).toNat < 146097 := by omega
  obtain ⟨x, hx⟩ := EraDay.exists_dayNumber hlt
  have heq : n + epoch = 146097 * ((n + epoch) / 146097) + x.dayNumber := by omega
  exact ⟨_, x, heq, x.ofDays_eq heq⟩

theorem isDay_ofDays (n : Int) : (ofDays n).IsDay := by
  obtain ⟨era, x, -, hdate⟩ := exists_ofDays n
  rw [hdate]
  exact x.isDay_date era

theorem toDays_ofDays (n : Int) : (ofDays n).toDays = n := by
  obtain ⟨era, x, hn, hdate⟩ := exists_ofDays n
  rw [hdate, x.toDays_date]
  omega

theorem ofDays_zero : ofDays 0 = ⟨1970, 1, 1⟩ := by
  decide

/-- The date of the next number is the next date. -/
theorem ofDays_succ (n : Int) : ofDays (n + 1) = (ofDays n).next := by
  apply eq_of_toDays_eq (isDay_ofDays _) (isDay_ofDays n).next
  rw [toDays_next (isDay_ofDays n), toDays_ofDays, toDays_ofDays]

/-- Later days have later dates. -/
theorem earlier_ofDays {n m : Int} (h : n < m) : (ofDays n).Earlier (ofDays m) := by
  apply earlier_of_toDays_lt (isDay_ofDays n) (isDay_ofDays m)
  rwa [toDays_ofDays, toDays_ofDays]

end Date

end ResolverLog
