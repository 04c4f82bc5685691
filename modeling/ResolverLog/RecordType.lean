import ResolverLog.Decimal

/-!
# Resource record types

A record type is a 16-bit number. The common ones have names; the text of any
other is `TYPE` and its number. Reading takes a name of the table or a bare
number, but not the `TYPE` form.
-/

namespace ResolverLog

/-- The type of record that a question asks for. -/
structure RecordType where
  /-- The number on the wire. -/
  code : UInt16
  deriving DecidableEq, Repr

namespace RecordType

/-- IPv4 addresses, the type of a question that names none. -/
def a : RecordType := ⟨1⟩

/-- The named types. -/
def table : List (Bytes × RecordType) :=
  [(ascii "A", a), (ascii "NS", ⟨2⟩), (ascii "CNAME", ⟨5⟩), (ascii "SOA", ⟨6⟩),
   (ascii "PTR", ⟨12⟩), (ascii "MX", ⟨15⟩), (ascii "TXT", ⟨16⟩), (ascii "AAAA", ⟨28⟩),
   (ascii "SRV", ⟨33⟩), (ascii "HTTPS", ⟨65⟩), (ascii "ANY", ⟨255⟩)]

/-- The type that a name of the table stands for. -/
def named? (text : Bytes) : Option RecordType :=
  table.lookup text

/-- The name of the type, or `TYPE` and its number. -/
def name (kind : RecordType) : Bytes :=
  match table.find? fun entry => entry.2 == kind with
  | some (text, _) => text
  | none => ascii "TYPE" ++ Decimal.ofNat kind.code.toNat

/-- The type that a text stands for: a name of the table, or a number of at most five
digits that fits into 16 bits. -/
def ofText? (text : Bytes) : Option RecordType :=
  match named? text with
  | some kind => some kind
  | none =>
    match Decimal.upTo? 5 text with
    | some n => if n ≤ 0xFFFF then some ⟨n.toUInt16⟩ else none
    | none => none

end RecordType

end ResolverLog
