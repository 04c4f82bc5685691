import ResolverLog.Decimal
import ResolverLog.Json

/-!
# Requests to change the configuration

The body of such a request is one flat JSON object with the members `enabled`, a
boolean, and `interval`, a number of hours. Other members are skipped, and of
several members with one key the last counts. A body is taken as a whole or not
at all.
-/

namespace ResolverLog

/-- A requested configuration. -/
structure ConfigRequest where
  enabled : Bool
  interval : UInt32
  deriving DecidableEq, Repr

namespace ConfigRequest

open Bytes

/-- Why a body is no request. -/
inductive Error
  | expectedObject
  | expectedKey
  | expectedColon
  | badValue (key : Bytes)
  | enabledNotBool
  | intervalNotNumber
  | expectedCommaOrEnd
  | trailingData
  | missingMember
  deriving DecidableEq, Repr

/-- The explanation of an error. -/
def Error.message : Error → Bytes
  | .expectedObject => ascii "json decode: expected object"
  | .expectedKey => ascii "json decode: expected key"
  | .expectedColon => ascii "json decode: expected ':'"
  | .badValue key => ascii "json decode: bad value for " ++ key
  | .enabledNotBool => ascii "json decode: enabled must be a bool"
  | .intervalNotNumber => ascii "json decode: interval must be a non-negative integer"
  | .expectedCommaOrEnd => ascii "json decode: expected ',' or '\x7d'"
  | .trailingData => ascii "json decode: trailing data"
  | .missingMember => ascii "json decode: enabled and interval are required"

/-- The members found so far. -/
structure Found where
  enabled : Option Bool
  interval : Option UInt32
  deriving DecidableEq, Repr

/-- The value of `enabled`. -/
def readEnabled : Json.Scalar → Except Error Bool
  | .bare text =>
    if text == ascii "true" then .ok true
    else if text == ascii "false" then .ok false
    else .error .enabledNotBool
  | .quoted _ => .error .enabledNotBool

/-- The value of `interval`: one to nine digits. -/
def readInterval : Json.Scalar → Except Error UInt32
  | .bare text =>
    match Decimal.upTo? 9 text with
    | some n => .ok n.toUInt32
    | none => .error .intervalNotNumber
  | .quoted _ => .error .intervalNotNumber

/-- Takes a member in. -/
def Found.add (found : Found) (key : Bytes) (value : Json.Scalar) : Except Error Found :=
  if key == ascii "enabled" then
    (readEnabled value).map fun enabled => { found with enabled := some enabled }
  else if key == ascii "interval" then
    (readInterval value).map fun interval => { found with interval := some interval }
  else .ok found

/-- Reads the members that are left, the closing brace, and gives back what follows. -/
def members (found : Found) (text : Bytes) : Except Error (Found × Bytes) :=
  match _hKey : Json.readString? text with
  | none => .error .expectedKey
  | some (key, afterKey) =>
    match _hColon : Json.readMark? 0x3A afterKey with
    | none => .error .expectedColon
    | some afterColon =>
      match _hValue : Json.readScalar? afterColon with
      | none => .error (.badValue key)
      | some (value, afterValue) =>
        match found.add key value with
        | .error e => .error e
        | .ok found =>
          match _hComma : Json.readMark? 0x2C afterValue with
          | some rest => members found rest
          | none =>
            match Json.readMark? 0x7D afterValue with
            | some rest => .ok (found, rest)
            | none => .error .expectedCommaOrEnd
termination_by text.length
decreasing_by
  have := Json.readString?_length_lt _hKey
  have := Json.readMark?_length_lt _hColon
  have := Json.readScalar?_length_le _hValue
  have := Json.readMark?_length_lt _hComma
  omega

/-- The members of an object behind its opening brace. -/
def object (text : Bytes) : Except Error (Found × Bytes) :=
  match Json.readMark? 0x7D text with
  | some rest => .ok (⟨none, none⟩, rest)
  | none => members ⟨none, none⟩ text

/-- The request that a body makes. -/
def parse (body : Bytes) : Except Error ConfigRequest :=
  match Json.readMark? 0x7B body with
  | none => .error .expectedObject
  | some text =>
    match object text with
    | .error e => .error e
    | .ok (found, rest) =>
      if !(trimLeft rest).isEmpty then .error .trailingData
      else match found.enabled, found.interval with
        | some enabled, some interval => .ok ⟨enabled, interval⟩
        | _, _ => .error .missingMember

end ConfigRequest

end ResolverLog
