import ResolverLog.Bytes

/-!
# Decimal numbers as text

Writing is canonical: no leading zeros, a minus sign only before a negative
number. Four readers of different strictness share one digit reader:

* `int64?` takes a whole text, with an optional minus sign, in the signed
  64-bit range;
* `upTo?` takes a whole text of at most a given number of digits;
* `leading?` takes the number that a text begins with, after blanks and one
  sign of either kind, and gives back what follows;
* `word?` is `leading?` into an unsigned word, where a minus sign negates
  modulo the word size.
-/

namespace ResolverLog

namespace Decimal

open Bytes

/-- The byte of a digit below ten. -/
def digit (d : Nat) : UInt8 :=
  (0x30 + d).toUInt8

/-- The canonical text of a natural number. -/
def ofNat (n : Nat) : Bytes :=
  if n < 10 then [digit n] else ofNat (n / 10) ++ [digit (n % 10)]
termination_by n
decreasing_by omega

/-- The canonical text of an integer. -/
def ofInt : Int → Bytes
  | .ofNat n => ofNat n
  | .negSucc n => 0x2D :: ofNat (n + 1)

/-- A number as text of at least `width` digits, with zeros in front. -/
def padded (width n : Nat) : Bytes :=
  let text := ofNat n
  List.replicate (width - text.length) 0x30 ++ text

/-- The number that a run of digits denotes. -/
def value (digits : Bytes) : Nat :=
  digits.foldl (fun n b => 10 * n + (b.toNat - 0x30)) 0

/-- The number that a text denotes when it consists of digits alone. -/
def nat? (text : Bytes) : Option Nat :=
  if !text.isEmpty && text.all isDigit then some (value text) else none

/-- As `nat?`, but a text of more than `maxDigits` digits is refused. -/
def upTo? (maxDigits : Nat) (text : Bytes) : Option Nat :=
  if text.length ≤ maxDigits then nat? text else none

/-- The integer as a signed 64-bit number when it lies in that range. -/
def inInt64? (n : Int) : Option Int64 :=
  if -9223372036854775808 ≤ n && n ≤ 9223372036854775807 then some (Int64.ofInt n) else none

/-- A whole text as a signed 64-bit number: an optional minus sign, then digits. -/
def int64? (text : Bytes) : Option Int64 :=
  match text with
  | 0x2D :: digits => (nat? digits).bind fun n => inInt64? (-(n : Int))
  | digits => (nat? digits).bind fun n => inInt64? n

/-- The number a text begins with. -/
structure Leading where
  /-- A minus sign stands before the digits. -/
  negative : Bool
  /-- The number that the digits denote. -/
  magnitude : Nat
  /-- What follows the digits. -/
  rest : Bytes

/-- Reads blanks, at most one sign and then a non-empty run of digits. -/
def leading? (text : Bytes) : Option Leading :=
  let (negative, text) := match trimLeft text with
    | 0x2D :: rest => (true, rest)
    | 0x2B :: rest => (false, rest)
    | rest => (false, rest)
  let digits := text.takeWhile isDigit
  if digits.isEmpty then none else some ⟨negative, value digits, text.dropWhile isDigit⟩

/-- The leading number as an unsigned word of `bits` bits. Magnitudes that do not fit are
refused; a minus sign negates modulo the word size. -/
def Leading.word? (bits : Nat) (number : Leading) : Option Nat :=
  let size := Nat.pow 2 bits
  if number.magnitude < size then
    some (if number.negative then (size - number.magnitude) % size else number.magnitude)
  else none

/-- The leading number as a signed 32-bit number, when it fits. -/
def Leading.int32? (number : Leading) : Option Int :=
  let n : Int := if number.negative then -number.magnitude else number.magnitude
  if -2147483648 ≤ n && n ≤ 2147483647 then some n else none

end Decimal

end ResolverLog
