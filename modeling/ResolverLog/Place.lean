import ResolverLog.Bytes

/-!
# Places and paths

A place is where a file can be: a way of names from the root, from the working
directory, or from one of the directories above it. A path is a text that leads
to a place, but only together with a tree of files, because each name on the way
has to be a directory. `Path.ofText` takes a path apart without one.

## Implementation notes

The names of the directories above the working directory are not known, so a
path that goes up and comes down again by name finds nothing.
-/

namespace ResolverLog

open Bytes

/-- Why a file operation fails. -/
inductive FileError
  | missing
  | isDirectory
  | notDirectory
  | notEmpty
  | nameTooLong
  | invalid
  | busy
  deriving DecidableEq, Repr

/-- The explanation of a file error. -/
def FileError.message : FileError → Bytes
  | .missing => ascii "No such file or directory"
  | .isDirectory => ascii "Is a directory"
  | .notDirectory => ascii "Not a directory"
  | .notEmpty => ascii "Directory not empty"
  | .nameTooLong => ascii "File name too long"
  | .invalid => ascii "Invalid argument"
  | .busy => ascii "Device or resource busy"

/-- A path with this error leads nowhere, so that nothing exists under it. -/
def FileError.isAbsence (e : FileError) : Bool :=
  e == .missing || e == .notDirectory

/-- Where a way of names starts. -/
inductive Base
  /-- The directory so many levels above the working directory. -/
  | above (levels : Nat)
  | root
  deriving DecidableEq, Repr

/-- A way of names. -/
structure Place where
  base : Base
  names : List Bytes
  deriving DecidableEq, Repr

namespace Place

/-- The working directory. -/
def working : Place := ⟨.above 0, []⟩

/-- The root of all files, which is its own parent. -/
def root : Place := ⟨.root, []⟩

/-- The place of a name in a directory. -/
def child (directory : Place) (name : Bytes) : Place :=
  { directory with names := directory.names ++ [name] }

/-- The directory that a place lies in. -/
def parent (place : Place) : Place :=
  match place.names, place.base with
  | [], .above levels => ⟨.above (levels + 1), []⟩
  | names, base => ⟨base, names.dropLast⟩

/-- The way to `other` goes through `place` and on. -/
def isAbove (place other : Place) : Bool :=
  place.base == other.base && place.names.isPrefixOf other.names
    && place.names.length < other.names.length

/-- The same way with its first part, up to `source`, replaced by the way to `target`. -/
def moved (source target place : Place) : Place :=
  { target with names := target.names ++ place.names.drop source.names.length }

/-- The path from the working directory, for a place in it. -/
def path? (place : Place) : Option Bytes :=
  if place.base = .above 0 then some (join [0x2F] place.names) else none

end Place

/-- The last step of a path. -/
inductive Step
  /-- Into a name, behind which there may be slashes. -/
  | name (name : Bytes) (slash : Bool)
  /-- A single dot: nowhere. -/
  | stay
  /-- Two dots: to the directory above. -/
  | up
  deriving DecidableEq, Repr

/-- The step that a name of a path makes at its end. -/
def Step.ofName (name : Bytes) (slash : Bool) : Step :=
  if name == ascii "." then .stay
  else if name == ascii ".." then .up
  else .name name slash

/-- A path taken apart. -/
structure Path where
  start : Place
  /-- The names on the way to the last one. -/
  names : List Bytes
  /-- The last step; a path of slashes alone has none. -/
  last : Option Step
  deriving DecidableEq, Repr

namespace Path

/-- The longest path. -/
def maxLength : Nat := 4095

/-- Takes a path apart. It ends at its first NUL, and slashes in a row count as one. -/
def ofText (text : Bytes) : Except FileError Path :=
  let text := beforeNul text
  if text.isEmpty then .error .missing
  else if maxLength < text.length then .error .nameTooLong
  else
    let pieces := splitOn 0x2F text
    let start := if pieces.head? = some [] then Place.root else Place.working
    let slash := pieces.getLast? == some []
    let names := pieces.filter fun piece => !piece.isEmpty
    .ok ⟨start, names.dropLast, names.getLast?.map fun name => Step.ofName name slash⟩

end Path

end ResolverLog
