import ResolverLog.Decimal

/-!
# Timestamps

Nanoseconds since 1970-01-01 UTC as `YYYY-MM-DDTHH:MM:SS.nnnnnnnnnZ` in the
proleptic Gregorian calendar, for times before the epoch as well.

## Implementation notes

The calendar year is taken to start in March, so that a leap day is the last
day of its year, and days are counted in eras of 400 years, which all have the
same number of days.
-/

namespace ResolverLog

/-- A day of the proleptic Gregorian calendar. -/
structure Date where
  year : Int
  month : Nat
  day : Nat
  deriving DecidableEq, Repr

namespace Date

/-- The days of 400 years. -/
def daysPerEra : Int := 146097

/-- The year of the era, from 0 to 399, in which a day of the era lies. -/
def yearOfEra (dayOfEra : Nat) : Nat :=
  (dayOfEra - dayOfEra / 1460 + dayOfEra / 36524 - dayOfEra / 146096) / 365

/-- The days of the era before the first of March of a year of the era. -/
def daysBeforeYear (yearOfEra : Nat) : Nat :=
  365 * yearOfEra + yearOfEra / 4 - yearOfEra / 100

/-- The days of the year before the first of a month, with months counted from March. -/
def daysBeforeMonth (month : Nat) : Nat :=
  (153 * month + 2) / 5

/-- The days from 0000-03-01 to 1970-01-01. -/
def epoch : Int := 719468

/-- The date that lies `days` days after 1970-01-01. -/
def ofDays (days : Int) : Date :=
  let shifted := days + epoch
  let era := shifted / daysPerEra
  let dayOfEra := (shifted % daysPerEra).toNat
  let year := yearOfEra dayOfEra
  let dayOfYear := dayOfEra - daysBeforeYear year
  let month := (5 * dayOfYear + 2) / 153
  { year := era * 400 + year + (if month < 10 then 0 else 1)
    month := if month < 10 then month + 3 else month - 9
    day := dayOfYear - daysBeforeMonth month + 1 }

end Date

namespace Timestamp

open Bytes

/-- The nanoseconds of a second. -/
def nanosPerSecond : Int64 := 1000000000

/-- The seconds of a day. -/
def secondsPerDay : Int := 86400

/-- The text of a time of day, in seconds. -/
def clock (seconds : Nat) : Bytes :=
  Decimal.padded 2 (seconds / 3600) ++ 0x3A :: Decimal.padded 2 (seconds / 60 % 60)
    ++ 0x3A :: Decimal.padded 2 (seconds % 60)

/-- The text of a date. -/
def date (d : Date) : Bytes :=
  Decimal.padded 4 d.year.toNat ++ 0x2D :: Decimal.padded 2 d.month ++ 0x2D
    :: Decimal.padded 2 d.day

/-- The whole seconds of an instant and the nanoseconds behind them. Division of machine numbers
rounds toward zero, which before the epoch can give a second too many and less than no
nanoseconds. -/
def split (time : Int64) : Int64 × Int64 :=
  let seconds := time / nanosPerSecond
  let nanos := time % nanosPerSecond
  if nanos < 0 then (seconds - 1, nanos + nanosPerSecond) else (seconds, nanos)

/-- The text of an instant. -/
def text (time : Int64) : Bytes :=
  let (seconds, nanos) := split time
  date (Date.ofDays (seconds.toInt / secondsPerDay)) ++ 0x54
    :: clock (seconds.toInt % secondsPerDay).toNat ++ 0x2E
    :: Decimal.padded 9 nanos.toInt.toNat ++ [0x5A]

end Timestamp

end ResolverLog
