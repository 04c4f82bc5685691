import ResolverLog.Decimal

/-!
# Averages in double precision

Durations are reported as quotients in IEEE double precision. A non-negative
double is kept here as the product of a natural number and a power of two, and
each operation computes the exact quotient of natural numbers and rounds once,
to the nearest double and to the even one of two equally near. The decimal texts
are rounded from the exact value in the same way.

## Implementation notes

The quotients of the log lie far from the ends of the exponent range, so there
are no subnormal numbers, no infinities and no check for them.
-/

namespace ResolverLog

/-- The quotient rounded to the nearest natural number, a half to the even neighbour. -/
def roundDiv (num den : Nat) : Nat :=
  let q := num / den
  let r := num % den
  if 2 * r < den then q
  else if den < 2 * r then q + 1
  else q + q % 2

/-- The non-negative double `mantissa * 2 ^ exponent`. -/
structure Binary64 where
  mantissa : Nat
  exponent : Int
  deriving DecidableEq, Repr

namespace Binary64

open Bytes

/-- The number zero. -/
def zero : Binary64 := ⟨0, 0⟩

/-- The fraction `num / den` times `2 ^ e`. -/
def scale (num den : Nat) (e : Int) : Nat × Nat :=
  if 0 ≤ e then (num * Nat.pow 2 e.toNat, den) else (num, den * Nat.pow 2 (-e).toNat)

/-- The double with 53 significant bits nearest to the fraction `num / den`. -/
def nearest (num den : Nat) : Binary64 :=
  if num = 0 then zero
  else
    let low : Int := num.log2 - den.log2 - 53
    let (n, d) := scale num den (-low)
    let exponent := if n / d < Nat.pow 2 53 then low else low + 1
    let (n, d) := scale num den (-exponent)
    let mantissa := roundDiv n d
    if mantissa = Nat.pow 2 53 then ⟨Nat.pow 2 52, exponent + 1⟩ else ⟨mantissa, exponent⟩

/-- The double nearest to a natural number. -/
def ofNat (n : Nat) : Binary64 :=
  nearest n 1

/-- The exact value as a fraction. -/
def fraction (x : Binary64) : Nat × Nat :=
  scale x.mantissa 1 x.exponent

/-- The double nearest to the quotient of two doubles. -/
def div (x y : Binary64) : Binary64 :=
  nearest (x.fraction.1 * y.fraction.2) (x.fraction.2 * y.fraction.1)

/-- The bits of the number in the interchange format. -/
def bits (x : Binary64) : Nat :=
  if x.mantissa = 0 then 0
  else (x.exponent + 1075).toNat * Nat.pow 2 52 + (x.mantissa - Nat.pow 2 52)

/-- The text with exactly `places` digits after the point. -/
def fixed (places : Nat) (x : Binary64) : Bytes :=
  let unit := Nat.pow 10 places
  let n := roundDiv (x.fraction.1 * unit) x.fraction.2
  Decimal.ofNat (n / unit) ++ 0x2E :: Decimal.padded places (n % unit)

/-- The greatest `p` with `10 ^ p` at most `num / den`, for a positive fraction. -/
def decimalExponent (num den : Nat) : Int :=
  let p : Int := (Decimal.ofNat num).length - (Decimal.ofNat den).length
  if 0 ≤ p then (if den * Nat.pow 10 p.toNat ≤ num then p else p - 1)
  else (if den ≤ num * Nat.pow 10 (-p).toNat then p else p - 1)

/-- The first six significant digits as a number of six digits, and the decimal exponent
of the first of them. -/
def sixDigits (x : Binary64) : Nat × Int :=
  let (num, den) := x.fraction
  let p := decimalExponent num den
  let shift := 5 - p
  let n := if 0 ≤ shift then roundDiv (num * Nat.pow 10 shift.toNat) den
    else roundDiv num (den * Nat.pow 10 (-shift).toNat)
  if n = 1000000 then (100000, p + 1) else (n, p)

/-- The digits without the zeros at their end. -/
def trimZeros (digits : Bytes) : Bytes :=
  (digits.reverse.dropWhile (· == 0x30)).reverse

/-- The digits after a point; no point when there are none. -/
def point (digits : Bytes) : Bytes :=
  if digits.isEmpty then [] else 0x2E :: digits

/-- The text with at most six significant digits and without trailing zeros: positional
for exponents from -4 to 5, otherwise with an exponent of at least two digits. -/
def general (x : Binary64) : Bytes :=
  if x.mantissa = 0 then ascii "0"
  else
    let (n, p) := x.sixDigits
    let digits := Decimal.ofNat n
    if 0 ≤ p && p < 6 then
      digits.take (p.toNat + 1) ++ point (trimZeros (digits.drop (p.toNat + 1)))
    else if -4 ≤ p && p < 0 then
      ascii "0" ++ point (List.replicate (-p - 1).toNat 0x30 ++ trimZeros digits)
    else
      digits.take 1 ++ point (trimZeros (digits.drop 1)) ++ 0x65
        :: (if 0 ≤ p then 0x2B else 0x2D) :: Decimal.padded 2 p.natAbs

end Binary64

end ResolverLog
