import ResolverLog.Bytes
import ResolverLog.Hex

/-!
# JSON text

Strings are written with the short escapes for quote, backslash, newline,
carriage return and tab, with `\u00XX` for the other control bytes, and with
every other byte as it is. Reading is for the flat objects of requests: a string
ends at its first unescaped quote, and a backslash stands for the byte behind
it, whatever that is.

Each reader skips blanks first and gives back what follows. The lemmas at the
end say that what follows is shorter, which is why loops over members end.
-/

namespace ResolverLog

namespace Json

open Bytes

/-- One byte inside a string. -/
def escapeByte (b : UInt8) : Bytes :=
  if b == 0x22 then [0x5C, 0x22]
  else if b == 0x5C then [0x5C, 0x5C]
  else if b == 0x0A then [0x5C, 0x6E]
  else if b == 0x0D then [0x5C, 0x72]
  else if b == 0x09 then [0x5C, 0x74]
  else if b < 0x20 then
    [0x5C, 0x75, 0x30, 0x30, Hex.lower (b >>> 4), Hex.lower (b &&& 0x0F)]
  else [b]

/-- A text as it stands inside a string. -/
def escape (text : Bytes) : Bytes :=
  text.flatMap escapeByte

/-- A text as a string. -/
def string (text : Bytes) : Bytes :=
  quoted (escape text)

/-- An object member. -/
def member (key value : Bytes) : Bytes :=
  string key ++ 0x3A :: value

/-- The pieces between brackets, separated by commas. -/
def array (items : List Bytes) : Bytes :=
  0x5B :: join [0x2C] items ++ [0x5D]

/-- The members between braces, separated by commas. -/
def object (members : List Bytes) : Bytes :=
  0x7B :: join [0x2C] members ++ [0x7D]

/-- Reads a string up to its end behind `done`, the bytes read so far in reverse. -/
def readStringFrom (done : Bytes) : Bytes → Option (Bytes × Bytes)
  | 0x5C :: b :: rest => readStringFrom (b :: done) rest
  | [0x5C] => none
  | 0x22 :: rest => some (done.reverse, rest)
  | b :: rest => readStringFrom (b :: done) rest
  | [] => none

/-- Reads a string and what follows it. -/
def readString? (text : Bytes) : Option (Bytes × Bytes) :=
  match trimLeft text with
  | 0x22 :: rest => readStringFrom [] rest
  | _ => none

/-- Reads one mark and what follows it. -/
def readMark? (mark : UInt8) (text : Bytes) : Option Bytes :=
  match trimLeft text with
  | b :: rest => if b == mark then some rest else none
  | [] => none

/-- A value of a flat object. -/
inductive Scalar
  /-- A string, by its text. -/
  | quoted (text : Bytes)
  /-- A number or a literal name, by its characters. -/
  | bare (text : Bytes)
  deriving DecidableEq, Repr

/-- The characters of bare values. -/
def isBare (b : UInt8) : Bool :=
  isLetter b || isDigit b || b == 0x2D || b == 0x2E || b == 0x2B

/-- Reads a scalar and what follows it. -/
def readScalar? (text : Bytes) : Option (Scalar × Bytes) :=
  match trimLeft text with
  | 0x22 :: rest => (readStringFrom [] rest).map fun (text, rest) => (.quoted text, rest)
  | text =>
    let bare := text.takeWhile isBare
    if bare.isEmpty then none else some (.bare bare, text.dropWhile isBare)

theorem trimLeft_length_le (text : Bytes) : (trimLeft text).length ≤ text.length :=
  (List.dropWhile_suffix isBlank).length_le

theorem readStringFrom_length_lt {done text value rest : Bytes}
    (h : readStringFrom done text = some (value, rest)) : rest.length < text.length := by
  fun_induction readStringFrom done text with
  | case1 done b text ih => have := ih h; simp only [List.length_cons]; omega
  | case2 => simp at h
  | case3 => simp_all
  | case4 done b text _ _ _ ih => have := ih h; simp only [List.length_cons]; omega
  | case5 => simp at h

theorem readString?_length_lt {text value rest : Bytes}
    (h : readString? text = some (value, rest)) : rest.length < text.length := by
  unfold readString? at h
  split at h
  · next tail hd =>
    have := readStringFrom_length_lt h
    have := trimLeft_length_le text
    simp only [hd, List.length_cons] at this
    omega
  · simp at h

theorem readMark?_length_lt {mark : UInt8} {text rest : Bytes}
    (h : readMark? mark text = some rest) : rest.length < text.length := by
  unfold readMark? at h
  split at h
  · next b tail hd =>
    have := trimLeft_length_le text
    split at h
    · simp only [hd, List.length_cons, Option.some.injEq] at this h
      subst h
      omega
    · simp at h
  · simp at h

theorem readScalar?_length_le {text rest : Bytes} {value : Scalar}
    (h : readScalar? text = some (value, rest)) : rest.length ≤ text.length := by
  have hle := trimLeft_length_le text
  unfold readScalar? at h
  split at h
  · next tail hd =>
    obtain ⟨⟨v, r⟩, hr, heq⟩ := Option.map_eq_some_iff.mp h
    have := readStringFrom_length_lt hr
    simp only [hd, List.length_cons] at hle
    simp only [Prod.mk.injEq] at heq
    obtain ⟨_, rfl⟩ := heq
    omega
  · dsimp only at h
    split at h
    · simp at h
    · simp only [Option.some.injEq, Prod.mk.injEq] at h
      obtain ⟨_, rfl⟩ := h
      have := (List.dropWhile_suffix isBare (l := trimLeft text)).length_le
      omega

end Json

end ResolverLog
