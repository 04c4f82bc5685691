import ResolverLog.Program
import Std.Time.DateTime.Timestamp

/-!
# The command line program

Reads the files that a run can touch and the standard input, runs the program
on them, and writes back what has changed.

## Implementation notes

What lies in a directory is not read, so only an empty directory can be moved or
removed.
-/

namespace ResolverLog

namespace Main

/-- The bytes of a text in UTF-8. -/
def bytesOf (text : String) : Bytes :=
  text.toUTF8.toList

/-- The text that bytes are in UTF-8. -/
def textOf (bytes : Bytes) : String :=
  (String.fromUTF8? bytes.toByteArray).getD ""

/-- What a path names in the file system: what can be opened but not read is a directory. -/
def look (path : Bytes) : IO (Option Node) := do
  let some handle ← try some <$> IO.FS.Handle.mk (textOf path) .read catch _ => pure none
    | return none
  try
    return some (.file (.ofText (← handle.readBinToEnd).toList))
  catch _ =>
    return some .directory

/-- The paths that a path leads through, and the path itself. -/
def stages (path : Bytes) : List Bytes :=
  let names := Bytes.splitOn 0x2F path
  (List.range names.length).map fun n => Bytes.join [0x2F] (names.take (n + 1))

/-- Adds what a path names, and what it leads through, to the tree. -/
def load (files : Files) (path : Bytes) : IO Files := do
  let mut files := files
  for stage in stages path do
    match ← look stage with
    | some .directory => files := files.makeDirectories stage
    | some (.file content) => files := (files.write? stage content.text).getD files
    | none => pure ()
  return files

/-- Removes what a path of the file system names, if anything. -/
def clear (path : Bytes) : IO Unit := do
  match ← look path with
  | some (.file _) => IO.FS.removeFile (textOf path)
  | some .directory => IO.FS.removeDir (textOf path)
  | none => pure ()

/-- Makes a path of the file system name what it names after a run. -/
def save (before after : Files) (path : Bytes) : IO Unit := do
  let new := (after.stat path).toOption
  if (before.stat path).toOption ≠ new then
    clear path
    match new with
    | some (.file content) => IO.FS.writeBinFile (textOf path) content.text.toByteArray
    | some .directory => IO.FS.createDir (textOf path)
    | none => pure ()

/-- The nanoseconds since 1970-01-01 UTC. -/
def now : IO Int64 := do
  let time ← Std.Time.Timestamp.now
  return Int64.ofInt time.toNanosecondsSinceUnixEpoch.val

/-- A machine with `cores` processors for this program: it takes the lines in one after another, so
workers cost nothing, and it opens no sockets. -/
def machine (cores : Nat) : Machine :=
  ⟨cores, UInt64.size, fun _ => some .noSocket⟩

/-- Runs the program on the words of a command line, for a machine with `cores` processors. -/
def run (cores : Nat) (words : List Bytes) : IO UInt32 := do
  let paths := Program.paths cores words
  let files ← paths.foldlM load Files.empty
  let input ← if paths.isEmpty then pure ByteArray.empty else (← IO.getStdin).readBinToEnd
  match Program.run (machine cores) words input.toList files (← now) with
  | .exits outcome =>
    (← IO.getStderr).write outcome.errors.toByteArray
    (← IO.getStdout).write outcome.output.toByteArray
    for path in paths do
      save files outcome.files path
    return outcome.status.toUInt32
  | .serves => return 0
  | .aborts => return 134

end Main

end ResolverLog

/-- Runs the program on the words of the command line. -/
def main (args : List String) : IO UInt32 :=
  ResolverLog.Main.run 4 (args.map ResolverLog.Main.bytesOf)
