import ResolverLog.Bytes

/-!
# Base64 payloads

The standard alphabet with padding. Writing takes three bytes to four
characters. Reading goes through the quanta from left to right and names the
first fault; the bits that padding leaves over are not looked at.
-/

namespace ResolverLog

namespace Base64

open Bytes

/-- Why a text is no base64. -/
inductive Error
  | badLength
  | misplacedPadding
  | dataAfterPadding
  | badCharacter
  deriving DecidableEq, Repr

/-- The explanation of a base64 error. -/
def Error.message : Error → Bytes
  | .badLength => ascii "base64 length not a multiple of 4"
  | .misplacedPadding => ascii "misplaced base64 padding"
  | .dataAfterPadding => ascii "data after base64 padding"
  | .badCharacter => ascii "invalid base64 character"

/-- The padding character. -/
abbrev pad : UInt8 := 0x3D

/-- The character of a six-bit value. -/
def symbol (v : UInt8) : UInt8 :=
  if v < 26 then 0x41 + v
  else if v < 52 then 0x61 + (v - 26)
  else if v < 62 then 0x30 + (v - 52)
  else if v == 62 then 0x2B
  else 0x2F

/-- The six-bit value of a character of the alphabet. -/
def sextet? (c : UInt8) : Option UInt8 :=
  if 0x41 ≤ c && c ≤ 0x5A then some (c - 0x41)
  else if 0x61 ≤ c && c ≤ 0x7A then some (c - 0x61 + 26)
  else if isDigit c then some (c - 0x30 + 52)
  else if c == 0x2B then some 62
  else if c == 0x2F then some 63
  else none

/-- The characters of the first, second, third and fourth sextet of three bytes. -/
def first (a : UInt8) : UInt8 := symbol (a >>> 2)

@[inherit_doc first]
def second (a b : UInt8) : UInt8 := symbol ((a &&& 0x03) <<< 4 ||| b >>> 4)

@[inherit_doc first]
def third (b c : UInt8) : UInt8 := symbol ((b &&& 0x0F) <<< 2 ||| c >>> 6)

@[inherit_doc first]
def fourth (c : UInt8) : UInt8 := symbol (c &&& 0x3F)

/-- Writes on behind `done`, the characters written so far in reverse. -/
def encodeFrom (done : Bytes) : Bytes → Bytes
  | [] => done.reverse
  | [a] => (pad :: pad :: second a 0 :: first a :: done).reverse
  | [a, b] => (pad :: third b 0 :: second a b :: first a :: done).reverse
  | a :: b :: c :: rest =>
    encodeFrom (fourth c :: third b c :: second a b :: first a :: done) rest

/-- The base64 text of a payload. -/
def encode (data : Bytes) : Bytes :=
  encodeFrom [] data

/-- A character that must carry data. -/
def sextet (c : UInt8) : Except Error UInt8 :=
  if c == pad then .error .misplacedPadding
  else match sextet? c with
    | some v => .ok v
    | none => .error .badCharacter

/-- The bytes of one quantum. Padding may stand in the third and fourth place of the last
quantum only. -/
def quantum (last : Bool) (a b c d : UInt8) : Except Error Bytes := do
  let v ← sextet a
  let w ← sextet b
  let one := v <<< 2 ||| w >>> 4
  if last && c == pad then
    if d == pad then return [one]
    else throw .dataAfterPadding
  let x ← sextet c
  let two := (w &&& 0x0F) <<< 4 ||| x >>> 2
  if last && d == pad then return [one, two]
  let y ← sextet d
  return [one, two, (x &&& 0x03) <<< 6 ||| y]

/-- Reads on behind `done`, the bytes read so far in reverse. -/
def decodeFrom (done : Bytes) : Bytes → Except Error Bytes
  | a :: b :: c :: d :: rest =>
    match quantum rest.isEmpty a b c d with
    | .ok bytes => decodeFrom (bytes.reverse ++ done) rest
    | .error e => .error e
  | _ => .ok done.reverse

/-- The payload that a base64 text stands for. -/
def decode (text : Bytes) : Except Error Bytes :=
  if text.length % 4 == 0 then decodeFrom [] text else .error .badLength

end Base64

end ResolverLog
