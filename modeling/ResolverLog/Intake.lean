import ResolverLog.EventLine
import ResolverLog.Recorder

/-!
# Intake: event lines into the recorder

What the workers do with the lines of the feed. Empty lines and comments are
skipped; every other line is either accepted, refused by the recorder, or no
event at all. A woken writer runs before the next line.
-/

namespace ResolverLog

/-- How many lines ended in which way. -/
structure IntakeCounts where
  accepted : Nat
  rejected : Nat
  parseErrors : Nat
  deriving DecidableEq, Repr

namespace Intake

/-- No lines yet. -/
def noCounts : IntakeCounts := ⟨0, 0, 0⟩

/-- Lines without an event: empty ones and comments. -/
def isSkipped (line : Bytes) : Bool :=
  line.isEmpty || line.head? == some 0x23

/-- Handles one line at the time `now`. -/
def handle (state : Service × IntakeCounts) (line : Bytes) (now : Int64) : Service × IntakeCounts :=
  let (s, counts) := state
  if isSkipped line then (s, counts)
  else match EventLine.parse line now with
    | none =>
      (s.note .debug (ascii "worker 0: unparseable event: " ++ line),
        { counts with parseErrors := counts.parseErrors + 1 })
    | some e =>
      match s.ingest e now with
      | (s, .accepted) => (s, { counts with accepted := counts.accepted + 1 })
      | (s, result) =>
        (s.note .debug (ascii "worker: event rejected (" ++ result.name ++ ascii "): " ++ line),
          { counts with rejected := counts.rejected + 1 })

/-- Handles lines in their order, all at the time `now`, letting a woken writer run in
between. -/
def handleAll (s : Service) (lines : List Bytes) (now : Int64) : Service × IntakeCounts :=
  lines.foldl (fun state line =>
    let (s, counts) := handle state line now
    (s.settle, counts)) (s, noCounts)

end Intake

end ResolverLog
