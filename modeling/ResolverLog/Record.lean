import ResolverLog.Base64
import ResolverLog.Decimal
import ResolverLog.Entry
import ResolverLog.Percent

/-!
# Records: one entry as one line

A record is a line of `key=value` fields joined by `&`, the values in percent
escapes. Times and counts are decimal, the two messages are base64. The fields
`v` (the version of the format), `t` and `q` are required, the other known ones
default, and unknown ones are skipped, so that a later format can add fields.
A key may stand only once.

`encode` and `decode` are for one record, `encodeAll` and `decodeAll` for the
lines of a batch, and `verify` reads a written batch back before it is trusted.

## Implementation notes

Reading goes in two passes. `fields` splits the line, decodes the values and
finds repeated keys, in the order of the line. `ofFields` then looks the known
keys up, in the fixed order of the format, and the first fault wins.
-/

namespace ResolverLog

/-- Why a line is no record. -/
inductive DecodeError
  | emptyRecord
  | badField (field : Bytes)
  | duplicateField (key : Bytes)
  | missingField (key : Bytes)
  | badInteger (key value : Bytes)
  | unsupportedVersion (version : Int64)
  | badFlag (value : Bytes)
  | unknownReason (value : Bytes)
  | percent (cause : Percent.Error)
  | base64 (cause : Base64.Error)
  deriving DecidableEq, Repr

/-- What a decoding error has to say, with all of the text that it quotes. -/
def DecodeError.fullMessage : DecodeError → Bytes
  | .emptyRecord => ascii "decode: empty record"
  | .badField field => ascii "decode: bad field '" ++ field ++ ascii "'"
  | .duplicateField key => ascii "decode: duplicate field '" ++ key ++ ascii "'"
  | .missingField key => ascii "decode: missing field '" ++ key ++ ascii "'"
  | .badInteger key value => ascii "decode: bad integer for '" ++ key ++ ascii "': " ++ value
  | .unsupportedVersion version =>
    ascii "decode: unsupported record version " ++ Decimal.ofInt version.toInt
  | .badFlag value => ascii "decode: bad filtered flag: " ++ value
  | .unknownReason value => ascii "decode: unknown filter reason " ++ value
  | .percent cause => ascii "decode: " ++ cause.message
  | .base64 cause => ascii "decode: " ++ cause.message

/-- The explanation of a decoding error, which ends where the quoted text has a NUL. -/
def DecodeError.message (e : DecodeError) : Bytes :=
  Bytes.beforeNul e.fullMessage

/-- Why an entry cannot be written. -/
inductive EncodeError
  | questionTooLarge (size : Nat)
  | answerTooLarge (size : Nat)
  | unknownReason (code : Int32)
  deriving DecidableEq, Repr

/-- The explanation of an encoding error. -/
def EncodeError.message : EncodeError → Bytes
  | .questionTooLarge size =>
    ascii "encode: question payload too large: " ++ Decimal.ofNat size ++ ascii " bytes"
  | .answerTooLarge size =>
    ascii "encode: answer payload too large: " ++ Decimal.ofNat size ++ ascii " bytes"
  | .unknownReason code => ascii "encode: unknown filter reason " ++ Decimal.ofInt code.toInt

/-- Why a written batch does not stand for its entries. -/
inductive ConsistencyError
  | undecodable (cause : DecodeError)
  | count (expected found : Nat)
  | differs (index : Nat)
  deriving DecidableEq, Repr

/-- The explanation of a consistency error. -/
def ConsistencyError.message : ConsistencyError → Bytes
  | .undecodable cause =>
    ascii "consistency: encoded buffer does not decode: " ++ cause.message
  | .count expected found =>
    ascii "consistency: check fail: " ++ Decimal.ofNat expected ++ ascii " vs "
      ++ Decimal.ofNat found ++ ascii " entries"
  | .differs index =>
    ascii "consistency: decoded entry " ++ Decimal.ofNat index ++ ascii " differs from source"

namespace Record

open Bytes

/-- The version of the format. -/
def version : Int64 := 1

/-- The largest message that a record can carry, which is the largest that DNS has. -/
def maxPayload : Nat := 65535

/-- A field behind its separator: the key as it is and the value in percent escapes. -/
def field (key value : Bytes) : Bytes :=
  0x26 :: key ++ 0x3D :: Percent.encode value

/-- The line of an entry, whatever its sizes and its reason. -/
def line (e : Entry) : Bytes :=
  ascii "v=" ++ Decimal.ofInt version.toInt
    ++ field (ascii "t") (Decimal.ofInt e.time.toInt)
    ++ field (ascii "q") (Base64.encode e.question)
    ++ field (ascii "a") (Base64.encode e.answer)
    ++ field (ascii "ip") e.client
    ++ field (ascii "up") e.resolver
    ++ field (ascii "f") (if e.verdict.filtered then ascii "1" else ascii "0")
    ++ field (ascii "reason") (Decimal.ofInt e.verdict.reason.code.toInt)
    ++ field (ascii "rule") e.verdict.rule
    ++ field (ascii "fid") (Decimal.ofInt e.verdict.listId.toInt)
    ++ field (ascii "el") (Decimal.ofInt e.elapsed.toInt)

/-- The record of an entry whose messages fit and whose reason is known. -/
def encode (e : Entry) : Except EncodeError Bytes :=
  if maxPayload < e.question.length then .error (.questionTooLarge e.question.length)
  else if maxPayload < e.answer.length then .error (.answerTooLarge e.answer.length)
  else if e.verdict.reason.isKnown then .ok (line e)
  else .error (.unknownReason e.verdict.reason.code)

/-- The records of a batch, each on a line of its own. -/
def encodeAll (entries : List Entry) : Except EncodeError Bytes := do
  let records ← entries.mapM encode
  return records.flatMap fun record => record ++ [0x0A]

/-- The fields of a record with their decoded values, in the order of the line. -/
abbrev Fields := List (Bytes × Bytes)

/-- Reads the fields in `pairs` behind `seen`, the fields read so far in reverse. -/
def fieldsFrom (seen : Fields) : List Bytes → Except DecodeError Fields
  | [] => .ok seen.reverse
  | pair :: pairs =>
    match cutAt? 0x3D pair with
    | some (b :: key, value) =>
      match Percent.decode value with
      | .error cause => .error (.percent cause)
      | .ok value =>
        if (seen.lookup (b :: key)).isSome then .error (.duplicateField (b :: key))
        else fieldsFrom ((b :: key, value) :: seen) pairs
    | _ => .error (.badField pair)

/-- The fields of a line; newlines and carriage returns at its end do not count. -/
def fields (text : Bytes) : Except DecodeError Fields :=
  let text := trimLineEnd text
  if text.isEmpty then .error .emptyRecord else fieldsFrom [] (splitOn 0x26 text)

/-- The value of a field that must be there. -/
def required (fields : Fields) (key : Bytes) : Except DecodeError Bytes :=
  match fields.lookup key with
  | some value => .ok value
  | none => .error (.missingField key)

/-- A value as a signed 64-bit number. -/
def integer (key value : Bytes) : Except DecodeError Int64 :=
  match Decimal.int64? value with
  | some n => .ok n
  | none => .error (.badInteger key value)

/-- A value as a payload. -/
def payload (value : Bytes) : Except DecodeError Bytes :=
  match Base64.decode value with
  | .ok data => .ok data
  | .error cause => .error (.base64 cause)

/-- A value as a filtered flag. -/
def flag (value : Bytes) : Except DecodeError Bool :=
  if value == ascii "1" then .ok true
  else if value == ascii "0" then .ok false
  else .error (.badFlag value)

/-- A value as the code of a known reason. -/
def reason (value : Bytes) : Except DecodeError Reason := do
  let code ← integer (ascii "reason") value
  if 0 ≤ code.toInt && code.toInt ≤ Reason.last then return ⟨code.toInt32⟩
  else throw (.unknownReason value)

/-- The reading of an optional field, with a default for an absent one. -/
def optional {α : Type} (fields : Fields) (key : Bytes) (default : α)
    (read : Bytes → Except DecodeError α) : Except DecodeError α :=
  match fields.lookup key with
  | some value => read value
  | none => .ok default

/-- The entry that a record's fields describe. -/
def ofFields (fields : Fields) : Except DecodeError Entry := do
  let v ← integer (ascii "v") (← required fields (ascii "v"))
  if v != version then throw (.unsupportedVersion v)
  let time ← integer (ascii "t") (← required fields (ascii "t"))
  let question ← payload (← required fields (ascii "q"))
  let answer ← optional fields (ascii "a") [] payload
  let client := (fields.lookup (ascii "ip")).getD []
  let resolver := (fields.lookup (ascii "up")).getD []
  let filtered ← optional fields (ascii "f") false flag
  let reason ← optional fields (ascii "reason") .notFiltered reason
  let rule := (fields.lookup (ascii "rule")).getD []
  let listId ← optional fields (ascii "fid") 0 (integer (ascii "fid"))
  let elapsed ← optional fields (ascii "el") 0 (integer (ascii "el"))
  return ⟨time, question, answer, client, resolver, ⟨filtered, reason, rule, listId⟩, elapsed⟩

/-- The entry that a line records. -/
def decode (text : Bytes) : Except DecodeError Entry := do
  ofFields (← fields text)

/-- The entries that the non-empty lines of a text record. -/
def decodeAll (text : Bytes) : Except DecodeError (List Entry) :=
  ((lines text).filter fun l => !l.isEmpty).mapM decode

/-- The first place where two lists of entries differ. -/
def firstDifference? (expected found : List Entry) : Option Nat :=
  (expected.zip found).findIdx? fun pair => pair.1 != pair.2

/-- Reads a written batch back and compares it with the entries it was written from. -/
def verify (entries : List Entry) (text : Bytes) : Except ConsistencyError Unit :=
  match decodeAll text with
  | .error cause => .error (.undecodable cause)
  | .ok found =>
    if found.length ≠ entries.length then .error (.count entries.length found.length)
    else match firstDifference? entries found with
      | some index => .error (.differs index)
      | none => .ok ()

end Record

end ResolverLog
