import ResolverLog.Proofs.Calendar
import ResolverLog.Proofs.Decimal
import Mathlib.Data.List.Forall2

/-!
# Timestamps read back

The text of an instant is a row of numbers, each of a fixed width and with a
mark behind it. Read as a date of the calendar and a time of this day it gives
back the instant to the nanosecond, and two texts compare byte by byte as the
instants do.

## Implementation notes

Both statements are first about rows of numbers of any layout
(`readFields?_writeFields`, `writeFields_lt`) and then about the seven numbers of
an instant. The years of the instants have four digits because dates grow with
their numbers, so that the first and the last of them bound all others.
-/

namespace ResolverLog

namespace Timestamp

open Bytes

variable {layout : List (Nat × UInt8)} {numbers more : List Nat} {time : Int64}

/-! ## Fields -/

/-- The fields of an instant, each with the number of its digits and the mark behind it. -/
def fieldLayout : List (Nat × UInt8) :=
  [(4, 0x2D), (2, 0x2D), (2, 0x54), (2, 0x3A), (2, 0x3A), (2, 0x2E), (9, 0x5A)]

/-- The numbers of the fields, when the text has for each its digits and its mark and nothing
else. -/
def readFields? : List (Nat × UInt8) → Bytes → Option (List Nat)
  | [], text => if text.isEmpty then some [] else none
  | (width, mark) :: layout, text =>
    let digits := text.take width
    match text.drop width with
    | [] => none
    | b :: rest =>
      if digits.length = width ∧ digits.all isDigit = true ∧ b = mark then
        (readFields? layout rest).map (Decimal.value digits :: ·)
      else none

/-- The instant that a text denotes: a day of the calendar and a time of this day. -/
def instant? (text : Bytes) : Option Int :=
  match readFields? fieldLayout text with
  | some [year, month, day, hour, minute, second, nanos] =>
    let date : Date := ⟨year, month, day⟩
    if date.IsDay ∧ hour < 24 ∧ minute < 60 ∧ second < 60 then
      some ((((date.toDays * 24 + hour) * 60 + minute) * 60 + second) * 1000000000 + nanos)
    else none
  | _ => none

/-- The text has the given shape, in which a digit stands for any digit. -/
def HasShape (shape text : Bytes) : Prop :=
  List.Forall₂ (fun s b => if isDigit s = true then isDigit b = true else b = s) shape text

/-- The text of the fields. -/
def writeFields : List (Nat × UInt8) → List Nat → Bytes
  | (width, mark) :: layout, n :: numbers =>
    Decimal.padded width n ++ mark :: writeFields layout numbers
  | _, _ => []

/-- Each number has no more digits than its field. -/
def Fit (layout : List (Nat × UInt8)) (numbers : List Nat) : Prop :=
  List.Forall₂ (fun field n => 0 < field.1 ∧ n < 10 ^ field.1) layout numbers

theorem readFields?_writeFields (h : Fit layout numbers) :
    readFields? layout (writeFields layout numbers) = some numbers := by
  induction h with
  | nil => rfl
  | @cons field n layout numbers hn _ ih =>
      obtain ⟨width, mark⟩ := field
      obtain ⟨w, rfl⟩ := Nat.exists_eq_succ_of_ne_zero hn.1.ne'
      have hlength := Decimal.length_padded hn.2
      have hdigits : (Decimal.padded (w + 1) n).all isDigit = true :=
        List.all_eq_true.mpr fun b hb => Decimal.isDigit_of_mem_padded hb
      have htake : (Decimal.padded (w + 1) n ++ mark :: writeFields layout numbers).take (w + 1)
          = Decimal.padded (w + 1) n := List.take_left' hlength
      have hdrop : (Decimal.padded (w + 1) n ++ mark :: writeFields layout numbers).drop (w + 1)
          = mark :: writeFields layout numbers := List.drop_left' hlength
      simp only [writeFields, readFields?, Nat.succ_eq_add_one, htake, hdrop]
      rw [if_pos ⟨hlength, hdigits, trivial⟩, ih, Decimal.value_padded hn.2]
      rfl

/-- Fields compare like their texts, the first of them first. -/
theorem writeFields_lt (h : Fit layout numbers) (hmore : Fit layout more) (hlt : numbers < more) :
    writeFields layout numbers < writeFields layout more := by
  induction h generalizing more with
  | nil =>
      cases hmore
      exact absurd hlt (List.lt_irrefl _)
  | @cons field n layout numbers hn _ ih =>
      obtain ⟨width, mark⟩ := field
      obtain ⟨w, rfl⟩ := Nat.exists_eq_succ_of_ne_zero hn.1.ne'
      cases hmore with
      | @cons _ m _ more hm hrest =>
          have hlength : (Decimal.padded (w + 1) n).length = (Decimal.padded (w + 1) m).length := by
            rw [Decimal.length_padded hn.2, Decimal.length_padded hm.2]
          rw [writeFields, writeFields, append_lt_append_iff hlength]
          rcases List.cons_lt_cons_iff.mp hlt with hfirst | ⟨rfl, hless⟩
          · exact .inl (Decimal.padded_lt_padded hfirst hm.2)
          · exact .inr ⟨rfl, List.cons_lt_cons_iff.mpr (.inr ⟨rfl, ih hrest hless⟩)⟩

theorem hasShape_self (text : Bytes) : HasShape text text := by
  rw [HasShape, List.forall₂_same]
  intro b _
  split
  · assumption
  · rfl

theorem hasShape_replicate {digits : Bytes} (h : ∀ b ∈ digits, isDigit b = true) :
    HasShape (List.replicate digits.length 0x30) digits := by
  induction digits with
  | nil => exact .nil
  | cons b digits ih =>
      rw [List.forall_mem_cons] at h
      exact .cons h.1 (ih h.2)

theorem hasShape_writeFields (h : Fit layout numbers) :
    HasShape (layout.flatMap fun field => List.replicate field.1 0x30 ++ [field.2])
      (writeFields layout numbers) := by
  induction h with
  | nil => exact .nil
  | @cons field n layout numbers hn _ ih =>
      obtain ⟨width, mark⟩ := field
      obtain ⟨w, rfl⟩ := Nat.exists_eq_succ_of_ne_zero hn.1.ne'
      have hdigits : HasShape (List.replicate (Decimal.padded (w + 1) n).length 0x30)
          (Decimal.padded (w + 1) n) :=
        hasShape_replicate fun b hb => Decimal.isDigit_of_mem_padded hb
      rw [Decimal.length_padded hn.2] at hdigits
      have hwritten : writeFields ((w + 1, mark) :: layout) (n :: numbers)
          = Decimal.padded (w + 1) n ++ [mark] ++ writeFields layout numbers := by
        simp [writeFields]
      rw [List.flatMap_cons, hwritten]
      exact List.rel_append (List.rel_append hdigits (hasShape_self [mark])) ih

/-! ## Instants -/

/-- The parts of an instant. -/
theorem split_eq (time : Int64) : (split time).1.toInt = time.toInt / 1000000000 ∧
    (split time).2.toInt = time.toInt % 1000000000 := by
  simp only [split]
  have hlow := time.le_toInt
  have hhigh := time.toInt_lt
  have hunit : nanosPerSecond.toInt = 1000000000 := rfl
  have hseconds : (time / nanosPerSecond).toInt = time.toInt.tdiv 1000000000 := by
    rw [Int64.toInt_div_of_ne_right _ _ (by decide), hunit]
  have hnanos : (time % nanosPerSecond).toInt = time.toInt.tmod 1000000000 := by
    rw [Int64.toInt_mod, hunit]
  have hround : 1000000000 * time.toInt.tdiv 1000000000 + time.toInt.tmod 1000000000
      = time.toInt := Int.mul_tdiv_add_tmod _ _
  have hless : time.toInt.tmod 1000000000 < 1000000000 := Int.tmod_lt_of_pos _ (by decide)
  have hmore : -1000000000 < time.toInt.tmod 1000000000 := Int.lt_tmod_of_pos _ (by decide)
  rw [← hseconds, ← hnanos] at hround
  rw [← hnanos] at hless hmore
  generalize time / nanosPerSecond = seconds at hround hseconds
  generalize time % nanosPerSecond = nanos at hround hless hmore hnanos
  have hsign : nanos < 0 ↔ nanos.toInt < 0 := Int64.lt_iff_toInt_lt
  by_cases hnegative : nanos < 0
  · rw [if_pos hnegative]
    rw [hsign] at hnegative
    have hone : (1 : Int64).toInt = 1 := rfl
    have hback : (seconds - 1).toInt = seconds.toInt - 1 := by
      rw [Int64.toInt_sub, hone]
      exact Int.bmod_eq_of_le (by omega) (by omega)
    have hahead : (nanos + nanosPerSecond).toInt = nanos.toInt + 1000000000 := by
      rw [Int64.toInt_add, hunit]
      exact Int.bmod_eq_of_le (by omega) (by omega)
    rw [hback, hahead]
    omega
  · rw [if_neg hnegative]
    rw [hsign] at hnegative
    simp only
    omega

/-- The numbers of the fields of an instant. -/
def fields (time : Int64) : List Nat :=
  let (seconds, nanos) := split time
  let date := Date.ofDays (seconds.toInt / secondsPerDay)
  let clock := (seconds.toInt % secondsPerDay).toNat
  [date.year.toNat, date.month, date.day, clock / 3600, clock / 60 % 60, clock % 60,
    nanos.toInt.toNat]

theorem text_eq (time : Int64) : text time = writeFields fieldLayout (fields time) := by
  simp only [text, date, clock, fieldLayout, fields, writeFields, List.append_assoc,
    List.cons_append]

/-- The years of the instants. -/
theorem year_bounds {days : Int} (hlow : -106752 ≤ days) (hhigh : days ≤ 106751) :
    1677 ≤ (Date.ofDays days).year ∧ (Date.ofDays days).year ≤ 2262 := by
  have hmono : ∀ {n m : Int}, n ≤ m → (Date.ofDays n).year ≤ (Date.ofDays m).year := by
    intro n m h
    rcases lt_or_eq_of_le h with hlt | rfl
    · rcases Date.earlier_ofDays hlt with hyear | ⟨hyear, -⟩
      · exact hyear.le
      · exact hyear.le
    · exact le_rfl
  have hfirst : (Date.ofDays (-106752)).year = 1677 := by decide
  have hlast : (Date.ofDays 106751).year = 2262 := by decide
  exact ⟨hfirst ▸ hmono hlow, hlast ▸ hmono hhigh⟩

theorem days_bounds (time : Int64) : -106752 ≤ (split time).1.toInt / secondsPerDay ∧
    (split time).1.toInt / secondsPerDay ≤ 106751 := by
  have hlow := time.le_toInt
  have hhigh := time.toInt_lt
  rw [(split_eq time).1, secondsPerDay]
  omega

theorem fields_eq (time : Int64) : fields time =
    let days := (split time).1.toInt / secondsPerDay
    let clock := ((split time).1.toInt % secondsPerDay).toNat
    [(Date.ofDays days).year.toNat, (Date.ofDays days).month, (Date.ofDays days).day, clock / 3600,
      clock / 60 % 60, clock % 60, (split time).2.toInt.toNat] := rfl

theorem fit_fields (time : Int64) : Fit fieldLayout (fields time) := by
  obtain ⟨hlow, hhigh⟩ := days_bounds time
  obtain ⟨hyear, hyear'⟩ := year_bounds hlow hhigh
  have hdate := Date.isDay_ofDays ((split time).1.toInt / secondsPerDay)
  have hmonth := hdate.month_le
  have hday := hdate.day_le_thirtyOne
  have hnanos := (split_eq time).2
  have hclock : ((split time).1.toInt % secondsPerDay).toNat < 86400 := by
    rw [secondsPerDay]
    omega
  simp only [fields_eq, Fit, fieldLayout, List.forall₂_cons, List.forall₂_nil_left_iff, and_true]
  omega

/-- The fields compare like the instants: by the date, then by the time of the day. -/
theorem fields_lt {time later : Int64} (h : time < later) : fields time < fields later := by
  obtain ⟨hseconds, hnanos⟩ := split_eq time
  obtain ⟨hseconds', hnanos'⟩ := split_eq later
  obtain ⟨hlow, hhigh⟩ := days_bounds time
  obtain ⟨hlow', hhigh'⟩ := days_bounds later
  have hyear := (year_bounds hlow hhigh).1
  have hyear' := (year_bounds hlow' hhigh').1
  rw [Int64.lt_iff_toInt_lt] at h
  have hle : (split time).1.toInt ≤ (split later).1.toInt := by omega
  simp only [fields_eq, List.cons_lt_cons_iff]
  generalize (split time).1.toInt = seconds at *
  generalize (split later).1.toInt = seconds' at *
  rw [secondsPerDay] at *
  rcases lt_or_ge (seconds / 86400) (seconds' / 86400) with hlt | hge
  · have hearlier := Date.earlier_ofDays hlt
    rw [Date.Earlier] at hearlier
    omega
  · have hdays : seconds / 86400 = seconds' / 86400 := by omega
    simp only [hdays, lt_irrefl, true_and, false_or]
    omega

theorem instant?_text (time : Int64) : instant? (text time) = some time.toInt := by
  have hdate := Date.isDay_ofDays ((split time).1.toInt / secondsPerDay)
  have hdays := Date.toDays_ofDays ((split time).1.toInt / secondsPerDay)
  obtain ⟨hlow, hhigh⟩ := days_bounds time
  have hyear := (year_bounds hlow hhigh).1
  obtain ⟨hseconds, hnanos⟩ := split_eq time
  have hclock : ((split time).1.toInt % secondsPerDay).toNat < 86400 := by
    rw [secondsPerDay]
    omega
  rw [instant?, text_eq, readFields?_writeFields (fit_fields time), fields_eq]
  simp only
  have hcast : (((Date.ofDays ((split time).1.toInt / secondsPerDay)).year.toNat : Nat) : Int)
      = (Date.ofDays ((split time).1.toInt / secondsPerDay)).year := by
    omega
  rw [hcast]
  simp only [hdate, hdays, true_and]
  rw [if_pos (by omega), Option.some.injEq]
  rw [secondsPerDay] at *
  omega

theorem text_lt_text {time later : Int64} (h : time < later) : text time < text later := by
  rw [text_eq, text_eq]
  exact writeFields_lt (fit_fields time) (fit_fields later) (fields_lt h)

/-- The text of every instant has the same form and denotes the instant. So no two instants have
the same text, and texts sort as the instants do. -/
theorem text_denotes_and_sorts :
    (∀ time, HasShape (ascii "0000-00-00T00:00:00.000000000Z") (text time) ∧
      instant? (text time) = some time.toInt) ∧
    Function.Injective text ∧
    ∀ time later, time < later ↔ text time < text later := by
  have hshape : ascii "0000-00-00T00:00:00.000000000Z"
      = fieldLayout.flatMap fun field => List.replicate field.1 0x30 ++ [field.2] := by
    decide
  have hinjective : Function.Injective text := by
    intro time later h
    have hread := instant?_text time
    rw [h, instant?_text later, Option.some.injEq] at hread
    exact (Int64.toInt_inj.mp hread).symm
  refine ⟨fun time => ⟨?_, instant?_text time⟩, hinjective,
    fun time later => ⟨text_lt_text, fun h => ?_⟩⟩
  · rw [hshape, text_eq]
    exact hasShape_writeFields (fit_fields time)
  · by_contra hnot
    rcases Int64.lt_or_eq_of_le (Int64.not_lt.mp hnot) with hlt | rfl
    · exact List.lt_irrefl _ (List.lt_trans h (text_lt_text hlt))
    · exact List.lt_irrefl _ h

example : text (-1) = ascii "1969-12-31T23:59:59.999999999Z" := by decide +kernel

end Timestamp

end ResolverLog
