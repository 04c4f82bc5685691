import ResolverLog.RecordType

/-!
# The question of a DNS message

A message starts with a header of twelve bytes, of which only the number of
questions matters here, and the question itself: a name, a type and a class.
On the wire a name is a run of labels, each behind its length, that ends either
with a zero byte or with a pointer to a place in the message where the rest of
the name stands.

`Question.ofMessage?` reads the one question of a message, `Question.message`
writes a query that asks one.

## Implementation notes

`labelRun` reads the labels up to the end of one run and also tells what ended
it. `labelsAt` strings runs together along at most `maxJumps` pointers. A name
is the labels joined by dots, so a label that itself holds a dot reads like two.
-/

namespace ResolverLog

/-- A parsed question. -/
structure Question where
  /-- The name in lower case without trailing dots; never empty. -/
  name : Bytes
  kind : RecordType
  qclass : UInt16
  deriving DecidableEq, Repr

namespace Question

open Bytes

/-- The length of the message header. -/
def headerSize : Nat := 12

/-- The greatest number of pointers that a name may follow. -/
def maxJumps : Nat := 16

/-- The greatest length of a name with its dots. -/
def maxNameLength : Nat := 255

/-- What ends a run of labels. -/
inductive RunEnd
  /-- A zero byte: the name is complete. -/
  | root
  /-- A pointer: the name goes on at an offset of the message. -/
  | pointer (target : Nat)
  deriving DecidableEq, Repr

/-- A run of labels, what ended it, and the bytes behind that end. -/
structure LabelRun where
  labels : List Bytes
  ending : RunEnd
  rest : Bytes

/-- Reads labels behind `done`, the labels read so far in reverse. A length byte from 64 to
191 belongs to no label type in use. -/
def labelRun (done : List Bytes) (wire : Bytes) : Option LabelRun :=
  match wire with
  | [] => none
  | size :: rest =>
    if size == 0 then some ⟨done.reverse, .root, rest⟩
    else if 0xC0 ≤ size then
      match rest with
      | [] => none
      | low :: rest => some ⟨done.reverse, .pointer ((size &&& 0x3F).toNat * 256 + low.toNat), rest⟩
    else if 0x40 ≤ size then none
    else
      let label := rest.take size.toNat
      if label.length = size.toNat then labelRun (label :: done) (rest.drop size.toNat)
      else none
termination_by wire.length
decreasing_by simp only [List.length_drop, List.length_cons]; omega

/-- The labels of the name at `offset`, following at most `jumps` pointers, and the bytes
behind the name's first run. -/
def labelsAt (message : Bytes) (jumps offset : Nat) : Option (List Bytes × Bytes) :=
  match labelRun [] (message.drop offset) with
  | none => none
  | some ⟨labels, .root, rest⟩ => some (labels, rest)
  | some ⟨labels, .pointer target, rest⟩ =>
    match jumps with
    | 0 => none
    | jumps + 1 => (labelsAt message jumps target).map fun (more, _) => (labels ++ more, rest)

/-- The name without the dots at its end. -/
def trimDots (name : Bytes) : Bytes :=
  (name.reverse.dropWhile (· == 0x2E)).reverse

/-- A 16-bit number from its high and its low byte. -/
def word (high low : UInt8) : UInt16 :=
  high.toUInt16 <<< 8 ||| low.toUInt16

/-- The number of questions that the header announces. -/
def count? (message : Bytes) : Option UInt16 :=
  if message.length < headerSize then none
  else match message.drop 4 with
    | high :: low :: _ => some (word high low)
    | _ => none

/-- The question of a message that holds exactly one and asks for more than the root. -/
def ofMessage? (message : Bytes) : Option Question := do
  guard (count? message == some 1)
  let (labels, rest) ← labelsAt message maxJumps headerSize
  let joined := join [0x2E] labels
  guard (joined.length ≤ maxNameLength)
  match rest with
  | t₁ :: t₀ :: c₁ :: c₀ :: _ =>
    let name := trimDots (joined.map lower)
    guard (!name.isEmpty)
    return ⟨name, ⟨word t₁ t₀⟩, word c₁ c₀⟩
  | _ => none

/-- Why a text is no name that a query can carry. -/
inductive NameError
  | tooLong (name : Bytes)
  | badLabel (name : Bytes)
  deriving DecidableEq, Repr

/-- The explanation of a name error, which ends where the name has a NUL. -/
def NameError.message : NameError → Bytes
  | .tooLong name => ascii "name too long: " ++ beforeNul name
  | .badLabel name => ascii "bad label in name: " ++ beforeNul name

/-- The greatest length of a label. -/
def maxLabelLength : Nat := 63

/-- A label of one to 63 bytes can be written. -/
def isLabel (label : Bytes) : Bool :=
  !label.isEmpty && label.length ≤ maxLabelLength

/-- The labels of a dotted name. One trailing dot is dropped first, and a dot ends a label
rather than parting two. -/
def labelsOfName (name : Bytes) : Except NameError (List Bytes) :=
  let stem := dropFinal 0x2E name
  if maxNameLength - 2 < stem.length then .error (.tooLong name)
  else
    let labels := terminated 0x2E stem
    if labels.all isLabel then .ok labels else .error (.badLabel name)

/-- The two bytes of a 16-bit number, high byte first. -/
def wordBytes (n : UInt16) : Bytes :=
  [(n >>> 8).toUInt8, n.toUInt8]

/-- The labels on the wire, each behind its length, and the zero byte. -/
def labelBytes (labels : List Bytes) : Bytes :=
  (labels.flatMap fun label => label.length.toUInt8 :: label) ++ [0]

/-- A query that asks for `name`: recursion desired, one question, class Internet. -/
def message (name : Bytes) (kind : RecordType) (id : UInt16) : Except NameError Bytes := do
  let labels ← labelsOfName name
  return wordBytes id ++ [0x01, 0x00, 0x00, 0x01, 0x00, 0x00, 0x00, 0x00, 0x00, 0x00]
    ++ labelBytes labels ++ wordBytes kind.code ++ wordBytes 1

end Question

end ResolverLog
