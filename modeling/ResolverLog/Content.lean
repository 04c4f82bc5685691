import ResolverLog.Bytes

/-!
# File contents

What a file holds is kept with its last byte first, so that appending takes time
in proportion to what is appended, however long the file has become. Files that
hold the same text have equal contents.
-/

namespace ResolverLog

/-- What a file holds. -/
structure Content where
  /-- The bytes of the file, the last one first. -/
  reversed : Bytes
  deriving DecidableEq, Repr

namespace Content

/-- A file with nothing in it. -/
def empty : Content := ⟨[]⟩

/-- The content with `text` behind it. -/
def append (content : Content) (text : Bytes) : Content :=
  ⟨text.reverse ++ content.reversed⟩

/-- The content of a file that holds `text`. -/
def ofText (text : Bytes) : Content :=
  empty.append text

/-- The text of a file. -/
def text (content : Content) : Bytes :=
  content.reversed.reverse

end Content

end ResolverLog
