import ResolverLog.Bytes

/-!
# Hexadecimal digits

Both letter cases are read. Percent escapes are written in upper case, JSON
escapes in lower case.
-/

namespace ResolverLog

namespace Hex

/-- The value of a hexadecimal digit. -/
def digit? (b : UInt8) : Option UInt8 :=
  if 0x30 ≤ b && b ≤ 0x39 then some (b - 0x30)
  else if 0x41 ≤ b && b ≤ 0x46 then some (b - 0x37)
  else if 0x61 ≤ b && b ≤ 0x66 then some (b - 0x57)
  else none

/-- The upper-case digit of a value below sixteen. -/
def upper (d : UInt8) : UInt8 :=
  if d < 10 then 0x30 + d else 0x37 + d

/-- The lower-case digit of a value below sixteen. -/
def lower (d : UInt8) : UInt8 :=
  if d < 10 then 0x30 + d else 0x57 + d

end Hex

end ResolverLog
