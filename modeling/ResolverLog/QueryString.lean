import ResolverLog.Hex

/-!
# Query strings of requests

The part of a request target after the question mark: `key=value` pairs joined
by `&`. Unlike the escapes of records, the escapes here never fail. A plus sign
is a space, a percent sign with fewer than two bytes after it stands for itself,
and the two bytes after any other percent sign are read as far as they form a
hexadecimal number with blanks and a sign allowed in front.
-/

namespace ResolverLog

namespace QueryString

open Bytes

/-- The byte that the two bytes of an escape stand for. -/
def escapeValue (high low : UInt8) : UInt8 :=
  match Hex.digit? high with
  | some h =>
    match Hex.digit? low with
    | some l => h <<< 4 ||| l
    | none => h
  | none =>
    let l := (Hex.digit? low).getD 0
    if high == 0x2D then 0 - l
    else if high == 0x2B || isBlank high then l
    else 0

/-- Reads on behind `done`, the bytes read so far in reverse. -/
def decodeFrom (done : Bytes) : Bytes → Bytes
  | 0x25 :: high :: low :: rest => decodeFrom (escapeValue high low :: done) rest
  | b :: rest => decodeFrom ((if b == 0x2B then 0x20 else b) :: done) rest
  | [] => done.reverse

/-- The text that an escaped key or value stands for. -/
def decode (text : Bytes) : Bytes :=
  decodeFrom [] text

/-- The value of the first pair whose key reads as `key`, if any. -/
def find? (key query : Bytes) : Option Bytes :=
  (splitOn 0x26 query).findSome? fun pair =>
    match cutAt? 0x3D pair with
    | some (k, v) => if decode k == key then some (decode v) else none
    | none => none

/-- The value of `key` in the query, empty when no pair has it. -/
def value (key query : Bytes) : Bytes :=
  (find? key query).getD []

end QueryString

end ResolverLog
