import ResolverLog.Hex

/-!
# Percent escapes

The values of a record are written with letters, digits and the marks
`- . _ ~ : /` as they are and every other byte as `%XX`. Reading accepts any
byte outside escapes but refuses an escape that is cut off or has a digit that
is not hexadecimal.
-/

namespace ResolverLog

namespace Percent

open Bytes

/-- Why an escaped text cannot be read. -/
inductive Error
  | truncated
  | badDigits
  deriving DecidableEq, Repr

/-- The explanation of an escape error. -/
def Error.message : Error → Bytes
  | .truncated => ascii "truncated percent escape"
  | .badDigits => ascii "bad percent escape"

/-- The bytes that are written as they are. -/
def isPlain (b : UInt8) : Bool :=
  isLetter b || isDigit b || b == 0x2D || b == 0x2E || b == 0x5F || b == 0x7E || b == 0x3A
    || b == 0x2F

/-- One byte, escaped unless it is plain. -/
def encodeByte (b : UInt8) : Bytes :=
  if isPlain b then [b] else [0x25, Hex.upper (b >>> 4), Hex.upper (b &&& 0x0F)]

/-- The escaped form of a text. -/
def encode (text : Bytes) : Bytes :=
  text.flatMap encodeByte

/-- Reads on behind `done`, the bytes read so far in reverse. -/
def decodeFrom (done : Bytes) : Bytes → Except Error Bytes
  | 0x25 :: high :: low :: rest =>
    match Hex.digit? high, Hex.digit? low with
    | some h, some l => decodeFrom ((h <<< 4 ||| l) :: done) rest
    | _, _ => .error .badDigits
  | 0x25 :: _ => .error .truncated
  | b :: rest => decodeFrom (b :: done) rest
  | [] => .ok done.reverse

/-- The text that an escaped form stands for. -/
def decode (text : Bytes) : Except Error Bytes :=
  decodeFrom [] text

end Percent

end ResolverLog
