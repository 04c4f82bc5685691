import ResolverLog.Content
import ResolverLog.Place

/-!
# The file tree

The files that the log lives among, as a value: places with what stands there,
a file with its content or a directory. Operations name places by paths, as
system calls do, and either succeed as a whole or fail and leave the tree as it
was. Which of several faults an operation reports is part of its meaning: the
way is walked from left to right, and the last step is judged after it.

Opening a directory for reading succeeds, but it yields no bytes. Where there is
no room left a file can be opened for writing, but nothing is written.
-/

namespace ResolverLog

open Bytes

/-- What stands at a place. -/
inductive Node
  | file (content : Content)
  | directory
  deriving DecidableEq, Repr

/-- Places with what stands there. The directories that ways start from are not listed. -/
structure Files where
  nodes : List (Place × Node)
  /-- There is no room for more bytes in any file. -/
  full : Bool
  deriving DecidableEq, Repr

/-- Where a path arrives before its last step, in a directory, and that step. -/
structure Target where
  directory : Place
  last : Option Step
  deriving DecidableEq, Repr

/-- The place that the last step leads to. -/
def Target.place (target : Target) : Place :=
  match target.last with
  | some (.name name _) => target.directory.child name
  | some .up => target.directory.parent
  | some .stay => target.directory
  | none => target.directory

namespace Files

/-- A working directory with nothing in it. -/
def empty : Files := ⟨[], false⟩

/-- What stands at a place. -/
def get? (files : Files) (place : Place) : Option Node :=
  if place.names.isEmpty then some .directory else files.nodes.lookup place

/-- The tree without a place; what lies below it stays. -/
def erase (files : Files) (place : Place) : Files :=
  { files with nodes := files.nodes.filter fun node => node.1 != place }

/-- The tree with a node put at a place. -/
def set (files : Files) (place : Place) (node : Node) : Files :=
  { files with nodes := (place, node) :: (files.erase place).nodes }

/-- Something lies below a place. -/
def hasChildren (files : Files) (place : Place) : Bool :=
  files.nodes.any fun node => place.isAbove node.1

/-! ## Walking along a path -/

/-- The longest name. -/
def maxName : Nat := 255

/-- What a directory holds under a name, if anything. -/
def lookup (files : Files) (directory : Place) (name : Bytes) : Except FileError (Option Node) :=
  if maxName < name.length then .error .nameTooLong else .ok (files.get? (directory.child name))

/-- Goes from a directory into the one that a name leads to. -/
def enter (files : Files) (directory : Place) (name : Bytes) : Except FileError Place :=
  match Step.ofName name false with
  | .stay => .ok directory
  | .up => .ok directory.parent
  | .name name _ =>
    match files.lookup directory name with
    | .error e => .error e
    | .ok none => .error .missing
    | .ok (some (.file _)) => .error .notDirectory
    | .ok (some .directory) => .ok (directory.child name)

/-- Walks a path up to its last step. -/
def target (files : Files) (path : Bytes) : Except FileError Target :=
  match Path.ofText path with
  | .error e => .error e
  | .ok path =>
    match path.names.foldlM files.enter path.start with
    | .error e => .error e
    | .ok directory => .ok ⟨directory, path.last⟩

/-- What a path names. -/
def stat (files : Files) (path : Bytes) : Except FileError Node :=
  match files.target path with
  | .error e => .error e
  | .ok ⟨directory, some (.name name slash)⟩ =>
    match files.lookup directory name with
    | .error e => .error e
    | .ok none => .error .missing
    | .ok (some .directory) => .ok .directory
    | .ok (some (.file content)) => if slash then .error .notDirectory else .ok (.file content)
  | .ok _ => .ok .directory

/-! ## Reading and writing -/

/-- The bytes that a path opens to, if it can be opened for reading. -/
def read? (files : Files) (path : Bytes) : Option Bytes :=
  match files.stat path with
  | .ok (.file content) => some content.text
  | .ok .directory => some []
  | .error _ => none

/-- The place that a path opens for writing, and the content of the file that is already
there. -/
def writable? (files : Files) (path : Bytes) : Option (Place × Option Content) :=
  match files.target path with
  | .ok ⟨directory, some (.name name false)⟩ =>
    match files.lookup directory name with
    | .ok none => some (directory.child name, none)
    | .ok (some (.file content)) => some (directory.child name, some content)
    | _ => none
  | _ => none

/-- A path can be opened for writing. -/
def opens (files : Files) (path : Bytes) : Bool :=
  (files.writable? path).isSome

/-- Puts `text` into a file in place of what it held; none when it cannot be opened or takes no
bytes. -/
def write? (files : Files) (path text : Bytes) : Option Files :=
  if files.full then none
  else (files.writable? path).map fun (place, _) => files.set place (.file (.ofText text))

/-- Appends `text` to a file, which need not exist; none when it cannot be opened or takes no
bytes. -/
def append? (files : Files) (path text : Bytes) : Option Files :=
  if files.full then none
  else (files.writable? path).map fun (place, old) =>
    files.set place (.file ((old.getD .empty).append text))

/-! ## Renaming -/

/-- Gives what lies at `source` and below it a new place. -/
def move (files : Files) (source target : Place) : Files :=
  { files with nodes := (files.erase target).nodes.map fun node =>
    if node.1 == source || source.isAbove node.1 then (source.moved target node.1, node.2)
    else node }

/-- Puts the node of kind `node` at `source` in the place of what stands at `target`: a file
replaces a file, and a directory an empty directory. -/
def replace (files : Files) (source target : Place) (node : Node) : Except FileError Files :=
  if source.isAbove target then .error .invalid
  else if target.isAbove source then .error .notEmpty
  else if source = target then .ok files
  else match node, files.get? target with
    | .file _, some .directory => .error .isDirectory
    | .directory, some (.file _) => .error .notDirectory
    | .directory, some .directory =>
      if files.hasChildren target then .error .notEmpty else .ok (files.move source target)
    | _, _ => .ok (files.move source target)

/-- Only directories may be named with slashes behind them. -/
def allowsSlash (node : Node) (slash : Bool) : Bool :=
  !slash || node == .directory

/-- Renames what is under one path so that it is under another. -/
def rename (files : Files) (source target : Bytes) : Except FileError Files := do
  let source ← files.target source
  let target ← files.target target
  match source.last, target.last with
  | some (.name old oldSlash), some (.name new newSlash) =>
    match ← files.lookup source.directory old with
    | none => throw .missing
    | some node =>
      let _ ← files.lookup target.directory new
      if allowsSlash node (oldSlash || newSlash) then files.replace source.place target.place node
      else throw .notDirectory
  | _, _ => throw .busy

/-! ## Removing -/

/-- Removes a file or an empty directory. -/
def delete (files : Files) (path : Bytes) : Except FileError Files := do
  let target ← files.target path
  match target.last with
  | none => throw .busy
  | some .stay => throw .invalid
  | some .up => throw .notEmpty
  | some (.name name slash) =>
    match ← files.lookup target.directory name with
    | none => throw .missing
    | some node =>
      if !allowsSlash node slash then throw .notDirectory
      else if node == .directory && files.hasChildren target.place then throw .notEmpty
      else return files.erase target.place

/-- As `delete`, but a path under which there is nothing is fine. -/
def remove (files : Files) (path : Bytes) : Except FileError Files :=
  match files.delete path with
  | .error .missing => .ok files
  | result => result

/-- Removes what a path names and all that lies below it, as far as that is possible. -/
def removeAll (files : Files) (path : Bytes) : Files :=
  match files.target path with
  | .error _ => files
  | .ok target =>
    let emptied : Files :=
      { files with nodes := files.nodes.filter fun node => !target.place.isAbove node.1 }
    match emptied.remove path with
    | .ok files => files
    | .error _ => emptied

/-! ## Directories -/

/-- Walks on from a directory and makes those that are missing, up to the first fault. -/
def makeDirectoriesFrom (files : Files) (directory : Place) : List Bytes → Files
  | [] => files
  | name :: rest =>
    match files.enter directory name with
    | .ok next => files.makeDirectoriesFrom next rest
    | .error .missing =>
      (files.set (directory.child name) .directory).makeDirectoriesFrom (directory.child name) rest
    | .error _ => files

/-- The name that a last step goes into. -/
def stepName : Option Step → List Bytes
  | some (.name name _) => [name]
  | _ => []

/-- Makes a directory and those above it, as far as nothing is in the way. -/
def makeDirectories (files : Files) (path : Bytes) : Files :=
  match Path.ofText path with
  | .ok path => files.makeDirectoriesFrom path.start (path.names ++ stepName path.last)
  | .error _ => files

/-- The paths of all nodes in the working directory, in byte order and with a slash at the end
of directories. -/
def listing (files : Files) : List Bytes :=
  (files.nodes.filterMap fun node =>
    match node.2 with
    | .file _ => node.1.path?
    | .directory => node.1.path?.map (· ++ [0x2F])).mergeSort fun p q => decide (p ≤ q)

end Files

end ResolverLog
