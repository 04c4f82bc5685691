import ResolverLog.Json
import ResolverLog.Proofs.Bytes

/-!
# The grammar of JSON texts

A JSON text is one value between blanks. The grammar is over bytes: those from
0x80 on are ordinary characters of strings, and an escape with four hexadecimal
digits stands for the UTF-8 bytes of its character. Half of a surrogate pair
stands for no character.

A text denotes at most one value.

## Implementation notes

Where a number or the blanks behind a value end depends on what follows, so two
readings are compared in front of whatever may follow such a phrase. The
induction is on one of the readings; the first byte of a value tells how the
other one begins.
-/

namespace ResolverLog

namespace Json

open Bytes

/-- A value. -/
inductive Value
  | null
  | bool (b : Bool)
  /-- A number, by its characters. -/
  | number (text : Bytes)
  | string (text : Bytes)
  | array (items : List Value)
  | object (members : List (Bytes × Value))

/-! ## Numbers -/

/-- One digit or more. -/
def IsDigits (text : Bytes) : Prop :=
  text ≠ [] ∧ ∀ b ∈ text, isDigit b = true

/-- The digits in front of a point, without zeros in front of other digits. -/
inductive IsWhole : Bytes → Prop
  | zero : IsWhole [0x30]
  | digits {first : UInt8} {rest : Bytes} (hdigits : IsDigits (first :: rest))
      (hfirst : first ≠ 0x30) : IsWhole (first :: rest)

/-- A point with digits behind it, or nothing. -/
inductive IsFraction : Bytes → Prop
  | none : IsFraction []
  | digits {digits : Bytes} (hdigits : IsDigits digits) : IsFraction (0x2E :: digits)

/-- A power of ten, or nothing. -/
inductive IsExponent : Bytes → Prop
  | none : IsExponent []
  | digits {mark : UInt8} {sign digits : Bytes} (hmark : mark ∈ [0x65, 0x45])
      (hsign : sign ∈ [[], [0x2B], [0x2D]]) (hdigits : IsDigits digits) :
      IsExponent (mark :: (sign ++ digits))

/-- A number. -/
inductive IsNumber : Bytes → Prop
  | mk {sign whole fraction exponent : Bytes} (hsign : sign ∈ [[], [0x2D]])
      (hwhole : IsWhole whole) (hfraction : IsFraction fraction)
      (hexponent : IsExponent exponent) : IsNumber (sign ++ (whole ++ (fraction ++ exponent)))

/-! ## Strings -/

/-- The escapes of one character, with the bytes that they stand for. -/
def escapes : List (UInt8 × UInt8) :=
  [(0x22, 0x22), (0x5C, 0x5C), (0x2F, 0x2F), (0x62, 0x08), (0x66, 0x0C), (0x6E, 0x0A), (0x72, 0x0D),
    (0x74, 0x09)]

/-- The number that four hexadecimal digits stand for. -/
def unit? (digits : Bytes) : Option Nat := do
  let [a, b, c, d] := digits | none
  return 4096 * (← Hex.digit? a).toNat + 256 * (← Hex.digit? b).toNat
    + 16 * (← Hex.digit? c).toNat + (← Hex.digit? d).toNat

/-- One character of a string as it is written, and the bytes that it stands for. -/
inductive Character : Bytes → Bytes → Prop
  | plain {b : UInt8} (control : 0x20 ≤ b) (quote : b ≠ 0x22) (backslash : b ≠ 0x5C) :
      Character [b] [b]
  | short {mark b : UInt8} (hescape : escapes.lookup mark = some b) : Character [0x5C, mark] [b]
  | unit {digits : Bytes} {c : Char} (hunit : unit? digits = some c.toNat) :
      Character (0x5C :: 0x75 :: digits) (String.utf8EncodeChar c)
  | pair {high low : Bytes} {m n : Nat} {c : Char} (hhigh : unit? high = some m)
      (hlow : unit? low = some n) (hm : 0xD800 ≤ m ∧ m < 0xDC00) (hn : 0xDC00 ≤ n ∧ n < 0xE000)
      (hc : c.toNat = 0x10000 + 0x400 * (m - 0xD800) + (n - 0xDC00)) :
      Character (0x5C :: 0x75 :: (high ++ 0x5C :: 0x75 :: low)) (String.utf8EncodeChar c)

/-- What stands between the quotes of a string, and the text that it denotes. -/
inductive Characters : Bytes → Bytes → Prop
  | nil : Characters [] []
  | cons {written text more moreText : Bytes} (hcharacter : Character written text)
      (hmore : Characters more moreText) : Characters (written ++ more) (text ++ moreText)

/-! ## Phrases -/

/-- Space, tab, newline and carriage return. -/
def isSpace (b : UInt8) : Bool :=
  b == 0x20 || b == 0x09 || b == 0x0A || b == 0x0D

/-- What may stand between tokens. -/
def IsGap (text : Bytes) : Prop :=
  ∀ b ∈ text, isSpace b = true

/-- The word for a truth value. -/
def boolText (b : Bool) : Bytes :=
  if b then ascii "true" else ascii "false"

/-- What a piece of text may be read as. -/
inductive Phrase
  /-- A value. -/
  | value (v : Value)
  /-- A value between blanks. -/
  | element (v : Value)
  /-- One element or more, with commas between them. -/
  | elements (vs : List Value)
  /-- A key and an element, with a colon between them. -/
  | member (key : Bytes) (v : Value)
  /-- One member or more, with commas between them. -/
  | members (ms : List (Bytes × Value))

/-- What a text reads as. -/
inductive Reads : Phrase → Bytes → Prop
  | null : Reads (.value .null) (ascii "null")
  | bool (b : Bool) : Reads (.value (.bool b)) (boolText b)
  | number {text : Bytes} (hnumber : IsNumber text) : Reads (.value (.number text)) text
  | string {written text : Bytes} (hcharacters : Characters written text) :
      Reads (.value (.string text)) (0x22 :: (written ++ [0x22]))
  | noItems {gap : Bytes} (hgap : IsGap gap) :
      Reads (.value (.array [])) (0x5B :: (gap ++ [0x5D]))
  | array {items : List Value} {text : Bytes} (hitems : Reads (.elements items) text) :
      Reads (.value (.array items)) (0x5B :: (text ++ [0x5D]))
  | noMembers {gap : Bytes} (hgap : IsGap gap) :
      Reads (.value (.object [])) (0x7B :: (gap ++ [0x7D]))
  | object {members : List (Bytes × Value)} {text : Bytes}
      (hmembers : Reads (.members members) text) :
      Reads (.value (.object members)) (0x7B :: (text ++ [0x7D]))
  | element {v : Value} {before text after : Bytes} (hbefore : IsGap before)
      (hvalue : Reads (.value v) text) (hafter : IsGap after) :
      Reads (.element v) (before ++ (text ++ after))
  | lastElement {v : Value} {text : Bytes} (helement : Reads (.element v) text) :
      Reads (.elements [v]) text
  | nextElement {v : Value} {vs : List Value} {text more : Bytes}
      (helement : Reads (.element v) text) (hmore : Reads (.elements vs) more) :
      Reads (.elements (v :: vs)) (text ++ 0x2C :: more)
  | member {key before written between text : Bytes} {v : Value} (hbefore : IsGap before)
      (hkey : Characters written key) (hbetween : IsGap between)
      (helement : Reads (.element v) text) :
      Reads (.member key v) (before ++ 0x22 :: (written ++ 0x22 :: (between ++ 0x3A :: text)))
  | lastMember {key : Bytes} {v : Value} {text : Bytes} (hmember : Reads (.member key v) text) :
      Reads (.members [(key, v)]) text
  | nextMember {key : Bytes} {v : Value} {ms : List (Bytes × Value)} {text more : Bytes}
      (hmember : Reads (.member key v) text) (hmore : Reads (.members ms) more) :
      Reads (.members ((key, v) :: ms)) (text ++ 0x2C :: more)

/-- The text denotes this value. -/
def Denotes (text : Bytes) (v : Value) : Prop :=
  Reads (.element v) text

/-! ## Runs -/

variable {x y : Bytes}

/-- Two runs of a class that end where it ends are the same. -/
theorem run_inj {p : UInt8 → Bool} {run other : Bytes} (hrun : ∀ b ∈ run, p b = true)
    (hother : ∀ b ∈ other, p b = true) (hx : ∀ b ∈ x.head?, p b = false)
    (hy : ∀ b ∈ y.head?, p b = false) (h : run ++ x = other ++ y) : run = other ∧ x = y := by
  obtain ⟨htake, hdrop⟩ := takeWhile_dropWhile_append hrun hx
  obtain ⟨htake', hdrop'⟩ := takeWhile_dropWhile_append hother hy
  rw [h] at htake hdrop
  exact ⟨htake.symm.trans htake', hdrop.symm.trans hdrop'⟩

/-- The characters of numbers. -/
def isNumeric (b : UInt8) : Bool :=
  isDigit b || b == 0x2D || b == 0x2B || b == 0x2E || b == 0x65 || b == 0x45

section Numbers

variable {text : Bytes}

theorem IsDigits.isNumeric (h : IsDigits text) : ∀ b ∈ text, isNumeric b = true := by
  intro b hb
  simp [Json.isNumeric, h.2 b hb]

theorem IsWhole.isDigits (h : IsWhole text) : IsDigits text := by
  cases h with
  | zero => exact ⟨by decide, by decide +kernel⟩
  | digits hdigits => exact hdigits

theorem IsFraction.isNumeric (h : IsFraction text) : ∀ b ∈ text, isNumeric b = true := by
  cases h with
  | none => exact fun _ hb => nomatch hb
  | digits hdigits =>
      rw [List.forall_mem_cons]
      exact ⟨by decide, hdigits.isNumeric⟩

theorem IsExponent.isNumeric (h : IsExponent text) : ∀ b ∈ text, isNumeric b = true := by
  cases h with
  | none => exact fun _ hb => nomatch hb
  | digits hmark hsign hdigits =>
      rw [List.forall_mem_cons, List.forall_mem_append]
      exact ⟨(by decide +kernel : ∀ mark ∈ [0x65, 0x45], Json.isNumeric mark = true) _ hmark,
        (by decide +kernel : ∀ sign ∈ [[], [0x2B], [0x2D]], ∀ b ∈ sign, Json.isNumeric b = true)
          _ hsign,
        hdigits.isNumeric⟩

theorem IsNumber.isNumeric (h : IsNumber text) : ∀ b ∈ text, isNumeric b = true := by
  obtain ⟨hsign, hwhole, hfraction, hexponent⟩ := h
  simp only [List.forall_mem_append]
  exact ⟨(by decide +kernel : ∀ sign ∈ [[], [0x2D]], ∀ b ∈ sign, Json.isNumeric b = true) _ hsign,
    hwhole.isDigits.isNumeric, hfraction.isNumeric, hexponent.isNumeric⟩

end Numbers

/-! ## Strings are unambiguous -/

section Strings

variable {written other text denoted : Bytes}

theorem length_of_unit? {digits : Bytes} {n : Nat} (h : unit? digits = some n) :
    digits.length = 4 := by
  match digits with
  | [_, _, _, _] => rfl
  | [] | [_] | [_, _] | [_, _, _] | _ :: _ :: _ :: _ :: _ :: _ => cases h

theorem unit_inj {digits digits' : Bytes} {m n : Nat} (h : unit? digits = some m)
    (h' : unit? digits' = some n) (heq : digits ++ x = digits' ++ y) :
    digits = digits' ∧ m = n ∧ x = y := by
  obtain ⟨rfl, hrest⟩ := List.append_inj heq ((length_of_unit? h).trans (length_of_unit? h').symm)
  exact ⟨rfl, Option.some.inj (h.symm.trans h'), hrest⟩

theorem mark_ne_of_lookup {mark b : UInt8} (h : escapes.lookup mark = some b) : mark ≠ 0x75 := by
  rintro rfl
  have hnone : escapes.lookup 0x75 = none := by decide
  rw [hnone] at h
  cases h

theorem escape_inj {mark mark' : UInt8} {rest rest' : Bytes}
    (h : 0x5C :: mark :: rest ++ x = 0x5C :: mark' :: rest' ++ y) :
    mark = mark' ∧ rest ++ x = rest' ++ y := by
  simpa using h

/-- A character of Unicode is no half of a surrogate pair. -/
theorem not_surrogate (c : Char) : ¬ (0xD800 ≤ c.toNat ∧ c.toNat < 0xE000) := by
  have hvalid := c.valid
  rw [UInt32.isValidChar, Nat.isValidChar] at hvalid
  simp only [Char.toNat]
  omega

theorem Character.inj (h : Character written text) (h' : Character other denoted)
    (heq : written ++ x = other ++ y) : written = other ∧ text = denoted := by
  cases h with
  | plain control quote backslash =>
      cases h' with
      | plain =>
          obtain rfl := (List.cons.inj heq).1
          exact ⟨rfl, rfl⟩
      | short | unit | pair => exact absurd (List.cons.inj heq).1 backslash
  | short hescape =>
      cases h' with
      | plain _ _ backslash => exact absurd (List.cons.inj heq).1.symm backslash
      | short hescape' =>
          obtain ⟨rfl, -⟩ := escape_inj heq
          rw [Option.some.inj (hescape.symm.trans hescape')]
          exact ⟨rfl, rfl⟩
      | unit | pair => exact absurd (escape_inj heq).1 (mark_ne_of_lookup hescape)
  | @unit digits c hunit =>
      cases h' with
      | plain _ _ backslash => exact absurd (List.cons.inj heq).1.symm backslash
      | short hescape' => exact absurd (escape_inj heq).1.symm (mark_ne_of_lookup hescape')
      | unit hunit' =>
          obtain ⟨rfl, hc, -⟩ := unit_inj hunit hunit' (escape_inj heq).2
          rw [Char.toNat_inj.mp hc]
          exact ⟨rfl, rfl⟩
      | pair hhigh hlow hm =>
          have htail := (escape_inj heq).2
          rw [List.append_assoc] at htail
          obtain ⟨-, hc, -⟩ := unit_inj hunit hhigh htail
          exact absurd (show 0xD800 ≤ c.toNat ∧ c.toNat < 0xE000 by omega) (not_surrogate c)
  | pair hhigh hlow hm hn hc =>
      cases h' with
      | plain _ _ backslash => exact absurd (List.cons.inj heq).1.symm backslash
      | short hescape' => exact absurd (escape_inj heq).1.symm (mark_ne_of_lookup hescape')
      | @unit _ c' hunit' =>
          have htail := (escape_inj heq).2
          rw [List.append_assoc] at htail
          obtain ⟨-, hc', -⟩ := unit_inj hhigh hunit' htail
          exact absurd (show 0xD800 ≤ c'.toNat ∧ c'.toNat < 0xE000 by omega) (not_surrogate c')
      | pair hhigh' hlow' hm' hn' hc' =>
          have htail := (escape_inj heq).2
          rw [List.append_assoc, List.append_assoc] at htail
          obtain ⟨rfl, rfl, hrest⟩ := unit_inj hhigh hhigh' htail
          obtain ⟨rfl, rfl, -⟩ := unit_inj hlow hlow' (escape_inj hrest).2
          rw [Char.toNat_inj.mp (hc.trans hc'.symm)]
          exact ⟨rfl, rfl⟩

/-- No character begins with the quote that ends a string. -/
theorem Character.head?_ne (h : Character written text) :
    ∃ b rest, written = b :: rest ∧ b ≠ 0x22 := by
  cases h with
  | plain _ quote => exact ⟨_, _, rfl, quote⟩
  | short | unit | pair => exact ⟨_, _, rfl, by decide⟩

/-- A string ends at the first quote that is no part of a character. -/
theorem Characters.inj (h : Characters written text) (h' : Characters other denoted)
    (heq : written ++ 0x22 :: x = other ++ 0x22 :: y) :
    written = other ∧ text = denoted ∧ x = y := by
  induction h generalizing other denoted with
  | nil =>
      cases h' with
      | nil => exact ⟨rfl, rfl, (List.cons.inj heq).2⟩
      | cons hcharacter =>
          obtain ⟨b, rest, rfl, hb⟩ := hcharacter.head?_ne
          exact absurd (List.cons.inj heq).1.symm hb
  | cons hcharacter hmore ih =>
      cases h' with
      | nil =>
          obtain ⟨b, rest, rfl, hb⟩ := hcharacter.head?_ne
          exact absurd (List.cons.inj heq).1 hb
      | cons hcharacter' hmore' =>
          rw [List.append_assoc, List.append_assoc] at heq
          obtain ⟨rfl, rfl⟩ := hcharacter.inj hcharacter' heq
          obtain ⟨rfl, rfl, hrest⟩ := ih hmore' (List.append_cancel_left heq)
          exact ⟨rfl, rfl, hrest⟩

end Strings

/-! ## The grammar is unambiguous -/

section Phrases

variable {v w : Value} {vs : List Value} {key text other gap : Bytes} {ms : List (Bytes × Value)}

/-- The byte that a value begins with, one for all numbers. -/
def Value.mark : Value → UInt8
  | .null => 0x6E
  | .bool b => if b then 0x74 else 0x66
  | .number _ => 0x30
  | .string _ => 0x22
  | .array _ => 0x5B
  | .object _ => 0x7B

/-- The mark of the values that begin with this byte. -/
def markOf (b : UInt8) : UInt8 :=
  if isDigit b || b == 0x2D then 0x30 else b

theorem markOf_of_isNumber (h : IsNumber text) : ∃ b rest, text = b :: rest ∧ markOf b = 0x30 := by
  obtain ⟨hsign, hwhole, -, -⟩ := h
  have hdigits := hwhole.isDigits
  simp only [List.mem_cons, List.not_mem_nil, or_false] at hsign
  rcases hsign with rfl | rfl
  · obtain ⟨b, rest, rfl⟩ := List.exists_cons_of_ne_nil hdigits.1
    exact ⟨b, _, rfl, by simp [markOf, hdigits.2 b List.mem_cons_self]⟩
  · exact ⟨_, _, rfl, by decide⟩

theorem Reads.markOf (h : Reads (.value v) text) :
    ∃ b rest, text = b :: rest ∧ markOf b = v.mark := by
  cases h with
  | null => exact ⟨_, _, rfl, by decide⟩
  | bool b =>
      cases b with
      | false => exact ⟨_, _, rfl, by decide⟩
      | true => exact ⟨_, _, rfl, by decide⟩
  | number hnumber => exact markOf_of_isNumber hnumber
  | string | noItems | array | noMembers | object => exact ⟨_, _, rfl, rfl⟩

/-- Two values of one kind; truth values are alike when they are equal. -/
def Value.Alike : Value → Value → Prop
  | .null, .null | .number _, .number _ | .string _, .string _ | .array _, .array _
  | .object _, .object _ => True
  | .bool b, .bool c => b = c
  | _, _ => False

theorem alike_of_mark_eq (h : v.mark = w.mark) : v.Alike w := by
  cases v
  all_goals
    cases w
    all_goals grind [Value.mark, Value.Alike]

/-- The first byte tells the kind of a value. -/
theorem Reads.alike (h : Reads (.value v) text) (h' : Reads (.value w) other)
    (heq : text ++ x = other ++ y) : v.Alike w := by
  obtain ⟨b, rest, rfl, hmark⟩ := h.markOf
  obtain ⟨c, rest', rfl, hmark'⟩ := h'.markOf
  rw [(List.cons.inj heq).1, hmark'] at hmark
  exact alike_of_mark_eq hmark.symm

/-- A value begins neither with a blank nor with the end of an array or an object. -/
theorem dark_of_markOf {b : UInt8} (h : Json.markOf b = v.mark) :
    isSpace b = false ∧ b ≠ 0x5D ∧ b ≠ 0x7D := by
  have hmark : v.mark ∈ [0x6E, 0x74, 0x66, 0x30, 0x22, 0x5B, 0x7B] := by
    cases v with
    | bool b => cases b <;> decide
    | _ => simp only [Value.mark]; decide
  rw [← h] at hmark
  have hne : ∀ c ∈ [0x20, 0x09, 0x0A, 0x0D, 0x5D, 0x7D], b ≠ c := by
    rintro c hc rfl
    exact (by decide +kernel : ∀ c ∈ [0x20, 0x09, 0x0A, 0x0D, 0x5D, 0x7D],
      Json.markOf c ∉ [0x6E, 0x74, 0x66, 0x30, 0x22, 0x5B, 0x7B]) b hc hmark
  simp only [List.forall_mem_cons] at hne
  simp [isSpace, hne]

/-- A text that begins behind a gap, with a byte that is neither a blank nor the end of an array
or an object. -/
def IsDark (text : Bytes) : Prop :=
  ∃ gap b rest, text = gap ++ b :: rest ∧ IsGap gap ∧ isSpace b = false ∧ b ≠ 0x5D ∧ b ≠ 0x7D

theorem IsDark.append (h : IsDark text) (more : Bytes) : IsDark (text ++ more) := by
  obtain ⟨gap, b, rest, rfl, hgap, hb⟩ := h
  exact ⟨gap, b, rest ++ more, by simp, hgap, hb⟩

theorem IsDark.gap_append (h : IsDark text) (hgap : IsGap gap) : IsDark (gap ++ text) := by
  obtain ⟨inner, b, rest, rfl, hinner, hb⟩ := h
  exact ⟨gap ++ inner, b, rest, by simp, List.forall_mem_append.mpr ⟨hgap, hinner⟩, hb⟩

/-- Such a text is not an empty array or object. -/
theorem IsDark.append_ne {close : UInt8} (h : IsDark text) (hgap : IsGap gap)
    (hclose : close = 0x5D ∨ close = 0x7D) (x y : Bytes) : text ++ x ≠ gap ++ close :: y := by
  obtain ⟨inner, b, rest, rfl, hinner, hb, hb', hb''⟩ := h
  intro heq
  rw [List.append_assoc] at heq
  have hspace : isSpace close = false := by
    rcases hclose with rfl | rfl
    · decide
    · decide
  obtain ⟨-, htail⟩ := run_inj hinner hgap (by simpa using hb) (by simpa using hspace) heq
  rcases hclose with rfl | rfl
  · exact hb' (List.cons.inj htail).1
  · exact hb'' (List.cons.inj htail).1

theorem Reads.isDark_value (h : Reads (.value v) text) : IsDark text := by
  obtain ⟨b, rest, rfl, hmark⟩ := h.markOf
  exact ⟨[], b, rest, rfl, nofun, dark_of_markOf hmark⟩

theorem Reads.isDark_element (h : Reads (.element v) text) : IsDark text := by
  cases h with
  | element hbefore hvalue => exact (hvalue.isDark_value.append _).gap_append hbefore

theorem Reads.isDark_elements (h : Reads (.elements vs) text) : IsDark text := by
  cases h with
  | lastElement helement => exact helement.isDark_element
  | nextElement helement => exact helement.isDark_element.append _

theorem Reads.isDark_member (h : Reads (.member key v) text) : IsDark text := by
  cases h with
  | member hbefore => exact ⟨_, 0x22, _, rfl, hbefore, by decide⟩

theorem Reads.isDark_members (h : Reads (.members ms) text) : IsDark text := by
  cases h with
  | lastMember hmember => exact hmember.isDark_member
  | nextMember hmember => exact hmember.isDark_member.append _

/-- No character of a number follows. -/
def EndsNumber (rest : Bytes) : Prop :=
  ∀ b ∈ rest.head?, isNumeric b = false

/-- What follows an element or a member. -/
def EndsElement (rest : Bytes) : Prop :=
  ∀ b ∈ rest.head?, b = 0x2C ∨ b = 0x5D ∨ b = 0x7D

/-- What follows the last element or the last member. -/
def EndsLast (rest : Bytes) : Prop :=
  ∀ b ∈ rest.head?, b = 0x5D ∨ b = 0x7D

/-- Wherever a text begins with this one, it reads in no other way up to where the phrase can
end. -/
def IsOnly : Phrase → Bytes → Prop
  | .value v, text => ∀ {w other x y}, Reads (.value w) other → EndsNumber x → EndsNumber y →
      text ++ x = other ++ y → v = w ∧ text = other
  | .element v, text => ∀ {w other x y}, Reads (.element w) other → EndsElement x →
      EndsElement y → text ++ x = other ++ y → v = w ∧ text = other
  | .elements vs, text => ∀ {ws other x y}, Reads (.elements ws) other → EndsLast x →
      EndsLast y → text ++ x = other ++ y → vs = ws ∧ text = other
  | .member key v, text => ∀ {key' w other x y}, Reads (.member key' w) other → EndsElement x →
      EndsElement y → text ++ x = other ++ y → (key, v) = (key', w) ∧ text = other
  | .members ms, text => ∀ {ms' other x y}, Reads (.members ms') other → EndsLast x →
      EndsLast y → text ++ x = other ++ y → ms = ms' ∧ text = other

theorem inside_inj {first close : UInt8} (h : first :: (text ++ [close]) ++ x
    = first :: (other ++ [close]) ++ y) : text ++ close :: x = other ++ close :: y := by
  simpa using h

theorem gap_inj {close : UInt8} {gap' : Bytes} (hgap : IsGap gap) (hgap' : IsGap gap')
    (hclose : isSpace close = false) (h : gap ++ close :: x = gap' ++ close :: y) :
    gap = gap' ∧ x = y := by
  obtain ⟨rfl, hrest⟩ := run_inj hgap hgap' (by simpa using hclose) (by simpa using hclose) h
  exact ⟨rfl, (List.cons.inj hrest).2⟩

theorem endsLast_cons {close : UInt8} (h : close = 0x5D ∨ close = 0x7D) (rest : Bytes) :
    EndsLast (close :: rest) := by
  simpa [EndsLast] using h

theorem EndsLast.endsElement (h : EndsLast x) : EndsElement x :=
  fun b hb => .inr (h b hb)

theorem endsElement_comma (rest : Bytes) : EndsElement (0x2C :: rest) := by
  simp [EndsElement]

theorem EndsElement.isSpace (h : EndsElement x) : ∀ b ∈ x.head?, Json.isSpace b = false := by
  intro b hb
  rcases h b hb with rfl | rfl | rfl
  all_goals decide

theorem EndsElement.endsNumber_append (h : EndsElement x) (hgap : IsGap gap) :
    EndsNumber (gap ++ x) := by
  intro b hb
  cases gap with
  | nil =>
      rcases h b hb with rfl | rfl | rfl
      all_goals decide
  | cons c gap =>
      obtain rfl : c = b := Option.some.inj hb
      have hspace := hgap c List.mem_cons_self
      simp only [Json.isSpace, Bool.or_eq_true, beq_iff_eq] at hspace
      rcases hspace with ((rfl | rfl) | rfl) | rfl
      all_goals decide

theorem EndsLast.ne_comma (h : EndsLast x) (rest : Bytes) : x ≠ 0x2C :: rest := by
  rintro rfl
  exact absurd (h 0x2C rfl) (by decide)

theorem Reads.isSpace_head? (h : Reads (.value v) text) (rest : Bytes) :
    ∀ b ∈ (text ++ rest).head?, Json.isSpace b = false := by
  obtain ⟨b, tail, rfl, hmark⟩ := h.markOf
  simpa using (dark_of_markOf hmark).1

/-! ### One reading for each production -/

theorem isOnly_null : IsOnly (.value .null) (ascii "null") := by
  intro w other x y h' hx hy heq
  have halike := Reads.null.alike h' heq
  cases h' with
  | null => exact ⟨rfl, rfl⟩
  | bool | number | string | noItems | array | noMembers | object => exact halike.elim

theorem isOnly_bool (b : Bool) : IsOnly (.value (.bool b)) (boolText b) := by
  intro w other x y h' hx hy heq
  have halike := (Reads.bool b).alike h' heq
  cases h' with
  | bool c =>
      obtain rfl : b = c := halike
      exact ⟨rfl, rfl⟩
  | null | number | string | noItems | array | noMembers | object => exact halike.elim

theorem isOnly_number (h : IsNumber text) : IsOnly (.value (.number text)) text := by
  intro w other x y h' hx hy heq
  have halike := (Reads.number h).alike h' heq
  cases h' with
  | number hnumber' =>
      obtain ⟨rfl, -⟩ := run_inj h.isNumeric hnumber'.isNumeric hx hy heq
      exact ⟨rfl, rfl⟩
  | null | bool | string | noItems | array | noMembers | object => exact halike.elim

theorem isOnly_string {written : Bytes} (h : Characters written text) :
    IsOnly (.value (.string text)) (0x22 :: (written ++ [0x22])) := by
  intro w other x y h' hx hy heq
  have halike := (Reads.string h).alike h' heq
  cases h' with
  | string hcharacters' =>
      obtain ⟨rfl, rfl, -⟩ := h.inj hcharacters' (inside_inj heq)
      exact ⟨rfl, rfl⟩
  | null | bool | number | noItems | array | noMembers | object => exact halike.elim

theorem isOnly_noItems (h : IsGap gap) : IsOnly (.value (.array [])) (0x5B :: (gap ++ [0x5D])) := by
  intro w other x y h' hx hy heq
  have halike := (Reads.noItems h).alike h' heq
  cases h' with
  | noItems hgap' =>
      obtain ⟨rfl, -⟩ := gap_inj h hgap' (by decide) (inside_inj heq)
      exact ⟨rfl, rfl⟩
  | array hitems' =>
      exact absurd (inside_inj heq).symm (hitems'.isDark_elements.append_ne h (.inl rfl) _ _)
  | null | bool | number | string | noMembers | object => exact halike.elim

theorem isOnly_array (h : Reads (.elements vs) text) (honly : IsOnly (.elements vs) text) :
    IsOnly (.value (.array vs)) (0x5B :: (text ++ [0x5D])) := by
  intro w other x y h' hx hy heq
  have halike := (Reads.array h).alike h' heq
  cases h' with
  | noItems hgap' =>
      exact absurd (inside_inj heq) (h.isDark_elements.append_ne hgap' (.inl rfl) _ _)
  | array hitems' =>
      obtain ⟨rfl, rfl⟩ := honly hitems' (endsLast_cons (.inl rfl) _) (endsLast_cons (.inl rfl) _)
        (inside_inj heq)
      exact ⟨rfl, rfl⟩
  | null | bool | number | string | noMembers | object => exact halike.elim

theorem isOnly_noMembers (h : IsGap gap) :
    IsOnly (.value (.object [])) (0x7B :: (gap ++ [0x7D])) := by
  intro w other x y h' hx hy heq
  have halike := (Reads.noMembers h).alike h' heq
  cases h' with
  | noMembers hgap' =>
      obtain ⟨rfl, -⟩ := gap_inj h hgap' (by decide) (inside_inj heq)
      exact ⟨rfl, rfl⟩
  | object hmembers' =>
      exact absurd (inside_inj heq).symm (hmembers'.isDark_members.append_ne h (.inr rfl) _ _)
  | null | bool | number | string | noItems | array => exact halike.elim

theorem isOnly_object (h : Reads (.members ms) text) (honly : IsOnly (.members ms) text) :
    IsOnly (.value (.object ms)) (0x7B :: (text ++ [0x7D])) := by
  intro w other x y h' hx hy heq
  have halike := (Reads.object h).alike h' heq
  cases h' with
  | noMembers hgap' =>
      exact absurd (inside_inj heq) (h.isDark_members.append_ne hgap' (.inr rfl) _ _)
  | object hmembers' =>
      obtain ⟨rfl, rfl⟩ := honly hmembers' (endsLast_cons (.inr rfl) _)
        (endsLast_cons (.inr rfl) _) (inside_inj heq)
      exact ⟨rfl, rfl⟩
  | null | bool | number | string | noItems | array => exact halike.elim

theorem isOnly_element {before after : Bytes} (hbefore : IsGap before)
    (h : Reads (.value v) text) (hafter : IsGap after) (honly : IsOnly (.value v) text) :
    IsOnly (.element v) (before ++ (text ++ after)) := by
  intro w other x y h' hx hy heq
  cases h' with
  | element hbefore' hvalue' hafter' =>
      simp only [List.append_assoc] at heq
      obtain ⟨rfl, hvalues⟩ := run_inj hbefore hbefore' (h.isSpace_head? _)
        (hvalue'.isSpace_head? _) heq
      obtain ⟨rfl, rfl⟩ := honly hvalue' (hx.endsNumber_append hafter)
        (hy.endsNumber_append hafter') hvalues
      obtain ⟨rfl, -⟩ := run_inj hafter hafter' hx.isSpace hy.isSpace
        (List.append_cancel_left hvalues)
      exact ⟨rfl, rfl⟩

theorem isOnly_lastElement (honly : IsOnly (.element v) text) : IsOnly (.elements [v]) text := by
  intro ws other x y h' hx hy heq
  cases h' with
  | lastElement helement' =>
      obtain ⟨rfl, rfl⟩ := honly helement' hx.endsElement hy.endsElement heq
      exact ⟨rfl, rfl⟩
  | nextElement helement' hmore' =>
      rw [List.append_assoc] at heq
      obtain ⟨rfl, rfl⟩ := honly helement' hx.endsElement (endsElement_comma _) heq
      exact absurd (List.append_cancel_left heq) (hx.ne_comma _)

theorem isOnly_nextElement {more : Bytes} (honly : IsOnly (.element v) text)
    (hmore : IsOnly (.elements vs) more) : IsOnly (.elements (v :: vs)) (text ++ 0x2C :: more) := by
  intro ws other x y h' hx hy heq
  rw [List.append_assoc] at heq
  cases h' with
  | lastElement helement' =>
      obtain ⟨rfl, rfl⟩ := honly helement' (endsElement_comma _) hy.endsElement heq
      exact absurd (List.append_cancel_left heq).symm (hy.ne_comma _)
  | nextElement helement' hmore' =>
      rw [List.append_assoc] at heq
      obtain ⟨rfl, rfl⟩ := honly helement' (endsElement_comma _) (endsElement_comma _) heq
      obtain ⟨rfl, rfl⟩ := hmore hmore' hx hy (List.cons.inj (List.append_cancel_left heq)).2
      exact ⟨rfl, rfl⟩

theorem isOnly_member {before written between : Bytes} (hbefore : IsGap before)
    (hkey : Characters written key) (hbetween : IsGap between) (honly : IsOnly (.element v) text) :
    IsOnly (.member key v)
      (before ++ 0x22 :: (written ++ 0x22 :: (between ++ 0x3A :: text))) := by
  intro key' w other x y h' hx hy heq
  cases h' with
  | member hbefore' hkey' hbetween' helement' =>
      simp only [List.append_assoc, List.cons_append] at heq
      obtain ⟨rfl, hkeys⟩ := gap_inj hbefore hbefore' (by decide) heq
      obtain ⟨rfl, rfl, hcolons⟩ := hkey.inj hkey' hkeys
      obtain ⟨rfl, helements⟩ := gap_inj hbetween hbetween' (by decide) hcolons
      obtain ⟨rfl, rfl⟩ := honly helement' hx hy helements
      exact ⟨rfl, rfl⟩

theorem isOnly_lastMember (honly : IsOnly (.member key v) text) :
    IsOnly (.members [(key, v)]) text := by
  intro ms other x y h' hx hy heq
  cases h' with
  | lastMember hmember' =>
      obtain ⟨hpair, rfl⟩ := honly hmember' hx.endsElement hy.endsElement heq
      exact ⟨congrArg (fun pair => [pair]) hpair, rfl⟩
  | nextMember hmember' hmore' =>
      rw [List.append_assoc] at heq
      obtain ⟨-, rfl⟩ := honly hmember' hx.endsElement (endsElement_comma _) heq
      exact absurd (List.append_cancel_left heq) (hx.ne_comma _)

theorem isOnly_nextMember {more : Bytes} (honly : IsOnly (.member key v) text)
    (hmore : IsOnly (.members ms) more) :
    IsOnly (.members ((key, v) :: ms)) (text ++ 0x2C :: more) := by
  intro ms' other x y h' hx hy heq
  rw [List.append_assoc] at heq
  cases h' with
  | lastMember hmember' =>
      obtain ⟨-, rfl⟩ := honly hmember' (endsElement_comma _) hy.endsElement heq
      exact absurd (List.append_cancel_left heq).symm (hy.ne_comma _)
  | nextMember hmember' hmore' =>
      rw [List.append_assoc] at heq
      obtain ⟨hpair, rfl⟩ := honly hmember' (endsElement_comma _) (endsElement_comma _) heq
      obtain ⟨rfl, rfl⟩ := hmore hmore' hx hy (List.cons.inj (List.append_cancel_left heq)).2
      exact ⟨congrArg (fun pair => pair :: _) hpair, rfl⟩

/-- Every text that reads as a phrase reads in no other way. -/
theorem Reads.isOnly {p : Phrase} (h : Reads p text) : IsOnly p text := by
  induction h with
  | null => exact isOnly_null
  | bool b => exact isOnly_bool b
  | number hnumber => exact isOnly_number hnumber
  | string hcharacters => exact isOnly_string hcharacters
  | noItems hgap => exact isOnly_noItems hgap
  | array hitems ih => exact isOnly_array hitems ih
  | noMembers hgap => exact isOnly_noMembers hgap
  | object hmembers ih => exact isOnly_object hmembers ih
  | element hbefore hvalue hafter ih => exact isOnly_element hbefore hvalue hafter ih
  | lastElement helement ih => exact isOnly_lastElement ih
  | nextElement helement hmore ih ihmore => exact isOnly_nextElement ih ihmore
  | member hbefore hkey hbetween helement ih => exact isOnly_member hbefore hkey hbetween ih
  | lastMember hmember ih => exact isOnly_lastMember ih
  | nextMember hmember hmore ih ihmore => exact isOnly_nextMember ih ihmore

/-- A text denotes at most one value. -/
theorem Denotes.unique (h : Denotes text v) (h' : Denotes text w) : v = w :=
  (h.isOnly h' (x := []) (y := []) nofun nofun rfl).1

end Phrases

end Json

end ResolverLog
