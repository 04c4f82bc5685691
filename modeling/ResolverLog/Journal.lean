import ResolverLog.Files
import ResolverLog.Note

/-!
# The journal

Where the notes of a run go. A note at the threshold or above is shown and, in
the same moment, appended to the note file, if there is one and it can be
opened. The note file may be any file, also one that the log reads or writes
itself, so the order of notes and other writing matters.
-/

namespace ResolverLog

/-- The notes of a run. -/
structure Journal where
  /-- Notes below this level are dropped. -/
  threshold : Level
  /-- The path of the note file; empty for none. -/
  path : Bytes
  /-- The notes shown so far, the latest first. -/
  shown : List Note
  deriving DecidableEq, Repr

namespace Journal

/-- A journal without a note file in which only errors are shown. -/
def silent : Journal := ⟨.error, [], []⟩

/-- Appends a line to the note file. -/
def store (journal : Journal) (files : Files) (line : Bytes) : Files :=
  if journal.path.isEmpty then files else (files.append? journal.path line).getD files

/-- Enters a note, unless it is below the threshold. -/
def enter (journal : Journal) (files : Files) (note : Note) : Journal × Files :=
  if note.isShown journal.threshold then
    ({ journal with shown := note :: journal.shown }, journal.store files note.line)
  else (journal, files)

/-- The lines of the notes shown, oldest first. -/
def text (journal : Journal) : Bytes :=
  journal.shown.reverse.flatMap Note.line

end Journal

end ResolverLog
