import ResolverLog.Entry

/-!
# Event lines

The feed delivers one completed query a line:

    client name [type] [ok | blocked | blocked:rule] [microseconds]

The words are separated by blanks. Each optional word is recognised by its form
and stands in this order: a type is letters and digits that start with a letter,
a verdict starts with `ok` or `blocked`, a duration is one to twelve digits. A
rule belongs to a block, and a type has to be one of the named ones.
-/

namespace ResolverLog

namespace EventLine

open Bytes

/-- A word of letters and digits that starts with a letter, other than the two verdicts. -/
def isTypeWord (word : Bytes) : Bool :=
  match word with
  | [] => false
  | b :: rest =>
    isLetter b && rest.all (fun c => isLetter c || isDigit c)
      && word != ascii "ok" && word != ascii "blocked"

/-- Takes the type off the words; a line without one asks for an address. -/
def takeType : List Bytes → Option (RecordType × List Bytes)
  | [] => some (.a, [])
  | word :: rest =>
    if isTypeWord word then (RecordType.named? word).map fun kind => (kind, rest)
    else some (.a, word :: rest)

/-- The verdict that a word stands for, if it is one: `none` for a pass. -/
def verdictOf? (word : Bytes) : Option Verdict :=
  if word == ascii "ok" then some .pass
  else if word == ascii "blocked" then some ⟨true, .blockList, [], 0⟩
  else match cutAtMark? (ascii "blocked:") word with
    | some ([], b :: rule) => some ⟨true, .blockList, b :: rule, 0⟩
    | _ => none

/-- Takes the verdict off the words; a line without one passed. -/
def takeVerdict : List Bytes → Verdict × List Bytes
  | [] => (.pass, [])
  | word :: rest =>
    match verdictOf? word with
    | some verdict => (verdict, rest)
    | none => (.pass, word :: rest)

/-- The nanoseconds that the remaining words give: at most one number of microseconds. -/
def elapsedOf? : List Bytes → Option Nat
  | [] => some 0
  | [word] => (Decimal.upTo? 12 word).map (· * 1000)
  | _ => none

/-- The entry that a line describes, as of the time `now`. -/
def parse (line : Bytes) (now : Int64) : Option Entry :=
  match words line with
  | client :: name :: rest => do
    let (kind, rest) ← takeType rest
    let (verdict, rest) := takeVerdict rest
    let elapsed ← elapsedOf? rest
    match Question.message name kind 0 with
    | .ok question => return ⟨now, question, [], client, [], verdict, Int64.ofNat elapsed⟩
    | .error _ => none
  | _ => none

end EventLine

end ResolverLog
