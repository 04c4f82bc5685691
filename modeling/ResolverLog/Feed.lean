import ResolverLog.Bytes

/-!
# The feed

Event lines come from a stream, in reads of arbitrary sizes, or from a file, and
go into a queue that is emptied on the other side. Both readers deliver the same
lines, empty ones included, and close the queue at the end. Nothing is read once
a stop has been asked for, and nothing is delivered to a queue that was closed
before.
-/

namespace ResolverLog

namespace Feed

open Bytes

/-- What a reader has done with the queue by the time it closes it. -/
structure Delivery where
  /-- The lines that the queue took. -/
  lines : List Bytes
  /-- How many they are. -/
  count : Nat
  deriving DecidableEq, Repr

/-- The lines that are complete in a text and the bytes behind the last newline. -/
def completeLines (text : Bytes) : List Bytes × Bytes :=
  let pieces := splitOn 0x0A text
  (pieces.dropLast, pieces.getLast?.getD [])

/-- Reads on with `partialLine` left over and the lines of `delivered`, latest first, already
in the queue. -/
def streamFrom (partialLine : Bytes) (delivered : List Bytes) : List Bytes → List Bytes
  | [] => (if partialLine.isEmpty then delivered else partialLine :: delivered).reverse
  | read :: reads =>
    let (complete, partialLine) := completeLines (partialLine ++ read)
    streamFrom partialLine (complete.reverse ++ delivered) reads

/-- Reads a stream to its end. -/
def ofStream (stop queueClosed : Bool) (reads : List Bytes) : Delivery :=
  if stop || queueClosed then ⟨[], 0⟩
  else
    let lines := streamFrom [] [] reads
    ⟨lines, lines.length⟩

/-- Reads a file to its end. -/
def ofFile (stop queueClosed : Bool) (content : Bytes) : Delivery :=
  if stop || queueClosed then ⟨[], 0⟩
  else
    let found := lines content
    ⟨found, found.length⟩

/-- The bytes that one read of a stream asks for. -/
def readSize : Nat := 8192

end Feed

end ResolverLog
