import ResolverLog.Files
import ResolverLog.Record

/-!
# The archive: the log on disk

An active file, to which batches of records are appended, and one backup, which
the active file becomes when it is rotated. A batch is encoded and read back
before a byte of it is written, and it is written as a whole or, where there is
no room for it, not at all.

Replaying goes through the active file and then the backup. Lines that do not
decode and entries older than the window are passed over.

## Implementation notes

A file that has taken all bytes of a batch can be closed, so closing it does not
fail.
-/

namespace ResolverLog

/-- Why the archive cannot be changed. -/
inductive ArchiveError
  | encode (cause : EncodeError)
  | consistency (cause : ConsistencyError)
  | openFailed (path : Bytes)
  | writeFailed (path : Bytes)
  | statFailed (path : Bytes) (cause : FileError)
  | renameFailed (source target : Bytes) (cause : FileError)
  | removeFailed (path : Bytes) (cause : FileError)
  deriving DecidableEq, Repr

open Bytes

/-- What an archive error has to say, with the whole paths. -/
def ArchiveError.fullMessage : ArchiveError → Bytes
  | .encode cause => cause.message
  | .consistency cause => cause.message
  | .openFailed path => ascii "persist: failed to open " ++ quoted path ++ ascii " for append"
  | .writeFailed path => ascii "persist: couldn't write to " ++ quoted path
  | .statFailed path cause =>
    ascii "persist: stat " ++ quoted path ++ ascii ": " ++ cause.message
  | .renameFailed source target cause =>
    ascii "persist: failed to rename " ++ quoted source ++ ascii " to " ++ quoted target
      ++ ascii ": " ++ cause.message
  | .removeFailed path cause =>
    ascii "persist: failed to remove " ++ quoted path ++ ascii ": " ++ cause.message

/-- The explanation of an archive error, which ends where a path has a NUL. -/
def ArchiveError.message (e : ArchiveError) : Bytes :=
  beforeNul e.fullMessage

/-- The archive that is kept under a path. -/
structure Archive where
  path : Bytes
  deriving DecidableEq, Repr

namespace Archive

/-- What is said when an archive is asked for without a file to keep it in. -/
def noFileMessage : Bytes := ascii "LogStore: null file handle"

/-- The archive under a path; there is none without a path. -/
def ofPath? (path : Option Bytes) : Except Bytes Archive :=
  match path with
  | some path => .ok ⟨path⟩
  | none => .error noFileMessage

/-- The path of the backup. -/
def backupPath (archive : Archive) : Bytes :=
  archive.path ++ ascii ".1"

/-- The verified records of a batch. -/
def batch (entries : List Entry) : Except ArchiveError Bytes :=
  match Record.encodeAll entries with
  | .error cause => .error (.encode cause)
  | .ok text =>
    match Record.verify entries text with
    | .error cause => .error (.consistency cause)
    | .ok () => .ok text

/-- Why text cannot be appended to the active file. -/
def putFault (archive : Archive) (files : Files) : ArchiveError :=
  if files.opens archive.path then .writeFailed archive.path else .openFailed archive.path

/-- Appends text to the active file. -/
def put (archive : Archive) (files : Files) (text : Bytes) : Except ArchiveError Files :=
  match files.append? archive.path text with
  | some files => .ok files
  | none => .error (archive.putFault files)

/-- Appends a batch to the active file; an empty batch does not even create it. -/
def append (archive : Archive) (files : Files) (entries : List Entry) :
    Except ArchiveError Files :=
  if entries.isEmpty then .ok files
  else match batch entries with
    | .error e => .error e
    | .ok text => archive.put files text

/-- Whether there is an active file. -/
def isActive (archive : Archive) (files : Files) : Except ArchiveError Bool :=
  match files.stat archive.path with
  | .ok _ => .ok true
  | .error e => if e.isAbsence then .ok false else .error (.statFailed archive.path e)

/-- Makes the active file, if there is one, the backup. -/
def rotate (archive : Archive) (files : Files) : Except ArchiveError Files :=
  match archive.isActive files with
  | .error e => .error e
  | .ok false => .ok files
  | .ok true =>
    match files.rename archive.path archive.backupPath with
    | .ok files => .ok files
    | .error cause => .error (.renameFailed archive.path archive.backupPath cause)

/-- Removes the active file and then the backup. Where the second removal fails the first
one stands. -/
def clear (archive : Archive) (files : Files) : Files × Except ArchiveError Unit :=
  match files.remove archive.path with
  | .error cause => (files, .error (.removeFailed archive.path cause))
  | .ok files =>
    match files.remove archive.backupPath with
    | .error cause => (files, .error (.removeFailed archive.backupPath cause))
    | .ok files => (files, .ok ())

/-- The entry that a replay delivers for a line: one that decodes and is no older than the
window. -/
def deliverable? (window : Int) (now : Int64) (line : Bytes) : Option Entry :=
  if line.isEmpty then none
  else match Record.decode line with
    | .ok e => if window < e.age now then none else some e
    | .error _ => none

/-- How far a replay has come. -/
structure Progress where
  /-- How often the reader has been asked whether to go on. -/
  polls : Nat
  /-- How many entries have been delivered. -/
  count : Nat
  /-- The entries delivered, the latest first. -/
  delivered : List Entry

/-- Asks the reader whether to go on, given the number of this question and of the entries
delivered. -/
def Progress.poll (progress : Progress) (goOn : Nat → Nat → Bool) : Progress × Bool :=
  ({ progress with polls := progress.polls + 1 }, goOn (progress.polls + 1) progress.count)

/-- Replays lines for as long as the reader wants. -/
def replayLines (window : Int) (now : Int64) (goOn : Nat → Nat → Bool) :
    List Bytes → Progress → Progress
  | [], progress => progress
  | line :: rest, progress =>
    match progress.poll goOn with
    | (progress, false) => progress
    | (progress, true) =>
      match deliverable? window now line with
      | some e =>
        replayLines window now goOn rest
          { progress with count := progress.count + 1, delivered := e :: progress.delivered }
      | none => replayLines window now goOn rest progress

/-- Replays files, each of which may be missing, for as long as the reader wants. -/
def replayFiles (window : Int) (now : Int64) (goOn : Nat → Nat → Bool) (files : Files) :
    List Bytes → Progress → Progress
  | [], progress => progress
  | path :: rest, progress =>
    match progress.poll goOn with
    | (progress, false) => progress
    | (progress, true) =>
      let text := (files.read? path).getD []
      replayFiles window now goOn files rest (replayLines window now goOn (lines text) progress)

/-- The entries of the active file and then of the backup that are no older than the window,
as long as the reader wants to go on. -/
def replayWhile (archive : Archive) (files : Files) (window : Int) (now : Int64)
    (goOn : Nat → Nat → Bool) : List Entry :=
  let paths := [archive.path, archive.backupPath]
  (replayFiles window now goOn files paths ⟨0, 0, []⟩).delivered.reverse

/-- All entries of the active file and then of the backup that are no older than the
window. -/
def replay (archive : Archive) (files : Files) (window : Int) (now : Int64) : List Entry :=
  replayWhile archive files window now fun _ _ => true

end Archive

end ResolverLog
