/-!
# Byte strings

Every text of the log — record lines, names, paths, request heads, JSON — is a
string of bytes without an encoding, as files and sockets deliver it. This
module holds the ways in which the formats cut such strings: at a separator,
at the first separator, into lines, into blank-separated words, into reads of a
fixed size, and at a marker of several bytes.

## Implementation notes

Cuts that look at one byte at a time are right folds, so each has one equation
for the empty string and one for a leading byte. Cuts that look ahead carry the
part already passed in reverse, which keeps long inputs off the call stack.
-/

namespace ResolverLog

/-- A text or payload, byte by byte. -/
abbrev Bytes := List UInt8

/-- The bytes of an ASCII literal. -/
def ascii (text : String) : Bytes :=
  text.toList.map fun c => c.toNat.toUInt8

namespace Bytes

/-- Space, tab, newline, vertical tab, form feed and carriage return are blank. -/
def isBlank (b : UInt8) : Bool :=
  b == 0x20 || (0x09 ≤ b && b ≤ 0x0D)

/-- The ASCII decimal digits. -/
def isDigit (b : UInt8) : Bool :=
  0x30 ≤ b && b ≤ 0x39

/-- The ASCII letters. -/
def isLetter (b : UInt8) : Bool :=
  (0x41 ≤ b && b ≤ 0x5A) || (0x61 ≤ b && b ≤ 0x7A)

/-- Upper-case ASCII letters become lower-case; every other byte stays. -/
def lower (b : UInt8) : UInt8 :=
  if 0x41 ≤ b && b ≤ 0x5A then b + 0x20 else b

/-- The pieces between the bytes that `p` marks, empty pieces included. -/
def splitWhere (p : UInt8 → Bool) (text : Bytes) : List Bytes :=
  text.foldr (fun b pieces =>
    if p b then [] :: pieces
    else match pieces with
      | [] => [[b]]
      | piece :: rest => (b :: piece) :: rest) [[]]

/-- The pieces between the occurrences of one separator, empty pieces included. -/
def splitOn (sep : UInt8) (text : Bytes) : List Bytes :=
  splitWhere (· == sep) text

/-- The pieces of a text in which `sep` ends a piece: as `splitOn`, but nothing follows
a final separator. -/
def terminated (sep : UInt8) (text : Bytes) : List Bytes :=
  let pieces := splitOn sep text
  if pieces.getLast? = some [] then pieces.dropLast else pieces

/-- The lines of a text without their newlines; an unterminated last line counts unless
it is empty. -/
def lines (text : Bytes) : List Bytes :=
  terminated 0x0A text

/-- The maximal runs of bytes that are not blank. -/
def words (text : Bytes) : List Bytes :=
  (splitWhere isBlank text).filter fun word => !word.isEmpty

/-- The parts before and after the first occurrence of `sep`. -/
def cutAt? (sep : UInt8) (text : Bytes) : Option (Bytes × Bytes) :=
  match text.dropWhile (· != sep) with
  | _ :: after => some (text.takeWhile (· != sep), after)
  | [] => none

/-- Walks to the first place where `mark` stands; `passed` holds the bytes before it in
reverse. -/
def cutAtMarkFrom (mark passed : Bytes) : Bytes → Option (Bytes × Bytes)
  | [] => if mark.isEmpty then some (passed.reverse, []) else none
  | b :: rest =>
    if mark.isPrefixOf (b :: rest) then some (passed.reverse, (b :: rest).drop mark.length)
    else cutAtMarkFrom mark (b :: passed) rest

/-- The parts before and after the first occurrence of the byte string `mark`. -/
def cutAtMark? (mark text : Bytes) : Option (Bytes × Bytes) :=
  cutAtMarkFrom mark [] text

/-- The text without its leading blanks. -/
def trimLeft (text : Bytes) : Bytes :=
  text.dropWhile isBlank

/-- The first word of a text and what follows it; none when the text is blank. -/
def takeWord? (text : Bytes) : Option (Bytes × Bytes) :=
  let text := trimLeft text
  if text.isEmpty then none
  else some (text.takeWhile fun b => !isBlank b, text.dropWhile fun b => !isBlank b)

/-- The text without the newlines and carriage returns at its end. -/
def trimLineEnd (text : Bytes) : Bytes :=
  (text.reverse.dropWhile fun b => b == 0x0A || b == 0x0D).reverse

/-- The text without one final occurrence of `b`. -/
def dropFinal (b : UInt8) (text : Bytes) : Bytes :=
  if text.getLast? = some b then text.dropLast else text

/-- The bytes before the first NUL, which is where system calls and explanations end a text. -/
def beforeNul (text : Bytes) : Bytes :=
  text.takeWhile (· != 0)

/-- The text between two double quotes. -/
def quoted (text : Bytes) : Bytes :=
  0x22 :: text ++ [0x22]

/-- The pieces joined with `sep` between them. -/
def join (sep : Bytes) (pieces : List Bytes) : Bytes :=
  sep.intercalate pieces

/-- The text in reads of `size` bytes, the last one shorter; a size of zero reads as one. -/
def reads (size : Nat) (text : Bytes) : List Bytes :=
  match text with
  | [] => []
  | b :: rest => (b :: rest.take (size - 1)) :: reads size (rest.drop (size - 1))
termination_by text.length
decreasing_by simp only [List.length_drop, List.length_cons]; omega

end Bytes

end ResolverLog
