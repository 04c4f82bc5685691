import ResolverLog.Proofs.QueryString

/-!
# Escapes read by position

The readers of escapes as loops over a position in the text, with what they have
read so far in front of them. The reader of queries leaves the two bytes of an
escape to a reader of hexadecimal numbers of any length, which passes blanks, a
sign and a mark, and stops at the first byte that is no digit. A query is searched
for its next separator from the position on.
-/

namespace ResolverLog

open Bytes

namespace Hex

variable {b high low h l : UInt8}

/-! ## Numbers in front of a text -/

/-- The number that the digits in front of a text make up behind the number read so far. -/
def digitsFrom (n : Nat) : Bytes → Nat
  | [] => n
  | b :: rest =>
    match digit? b with
    | some d => digitsFrom (16 * n + d.toNat) rest
    | none => n

/-- A sign in front of a text, and what comes behind it. -/
def takeSign : Bytes → Bool × Bytes
  | 0x2D :: rest => (true, rest)
  | 0x2B :: rest => (false, rest)
  | text => (false, text)

/-- Passes the mark `0x` if there is a digit behind it. -/
def passMark : Bytes → Bytes
  | zero :: x :: d :: rest =>
    if zero = 0x30 ∧ (x = 0x78 ∨ x = 0x58) ∧ (digit? d).isSome then d :: rest
    else zero :: x :: d :: rest
  | text => text

/-- The nearest number of 64 bits with a sign. -/
def clamp (n : Int) : Int :=
  max (-9223372036854775808) (min n 9223372036854775807)

/-- The number in front of a text, zero if there is none. The text ends at its first NUL. -/
def leading (text : Bytes) : Int :=
  let (negative, body) := takeSign (trimLeft (beforeNul text))
  let n := digitsFrom 0 (passMark body)
  clamp (if negative then -n else n)

/-- A digit is below sixteen, and the byte it is read from ends nothing and is neither blank nor a
sign. -/
theorem digit_bounds (h : digit? b = some d) :
    d < 16 ∧ b ≠ 0 ∧ b ≠ 0x2D ∧ b ≠ 0x2B ∧ isBlank b = false := by
  grind [digit?, isBlank]

theorem clamp_of_le {n : Nat} (h : n < 256) : clamp n = n := by
  rw [clamp]
  omega

theorem takeSign_cons (hminus : b ≠ 0x2D) (hplus : b ≠ 0x2B) (rest : Bytes) :
    takeSign (b :: rest) = (false, b :: rest) := by
  rw [takeSign]
  · rintro _ heq
    exact hminus (List.cons.inj heq).1
  · rintro _ heq
    exact hplus (List.cons.inj heq).1

theorem passMark_of_length_lt {text : Bytes} (h : text.length < 3) : passMark text = text := by
  rw [passMark]
  rintro _ _ _ _ rfl
  simp only [List.length_cons] at h
  omega

theorem beforeNul_cons (hb : b ≠ 0) (rest : Bytes) :
    beforeNul (b :: rest) = b :: beforeNul rest := by
  simp [beforeNul, hb]

theorem leading_cons_of_isBlank (hb : isBlank b = true) (text : Bytes) :
    leading (b :: text) = leading text := by
  have hne : b ≠ 0 := by
    rintro rfl
    cases hb
  rw [leading, leading, beforeNul_cons hne, trimLeft, List.dropWhile_cons_of_pos hb]
  rfl

theorem leading_single (b : UInt8) : leading [b] = ((digit? b).getD 0).toNat :=
  forall_of_forall_ofNat (fun b => leading [b] = ((digit? b).getD 0).toNat) (by decide +kernel)
    b.toNat_lt

theorem leading_minus (b : UInt8) : leading [0x2D, b] = -((digit? b).getD 0).toNat :=
  forall_of_forall_ofNat (fun b => leading [0x2D, b] = -((digit? b).getD 0).toNat)
    (by decide +kernel) b.toNat_lt

theorem leading_plus (b : UInt8) : leading [0x2B, b] = ((digit? b).getD 0).toNat :=
  forall_of_forall_ofNat (fun b => leading [0x2B, b] = ((digit? b).getD 0).toNat)
    (by decide +kernel) b.toNat_lt

/-- Behind a number the digit of one more byte counts, if it is one. -/
theorem digitsFrom_beforeNul (n : Nat) (b : UInt8) :
    digitsFrom n (beforeNul [b]) =
      match digit? b with
      | some d => 16 * n + d.toNat
      | none => n := by
  by_cases hb : b = 0
  · subst hb
    rfl
  · rw [beforeNul_cons hb, digitsFrom]
    rfl

/-- In front of two bytes without a sign a number has no mark. -/
theorem leading_pair (hzero : high ≠ 0) (hminus : high ≠ 0x2D) (hplus : high ≠ 0x2B)
    (hblank : isBlank high = false) (low : UInt8) :
    leading [high, low] = clamp (digitsFrom 0 (high :: beforeNul [low])) := by
  have hle : (beforeNul [low]).length ≤ 1 := (List.takeWhile_sublist _).length_le
  have hshort : (high :: beforeNul [low]).length < 3 := by
    rw [List.length_cons]
    omega
  have htrim : trimLeft (high :: beforeNul [low]) = high :: beforeNul [low] :=
    List.dropWhile_cons_of_neg (by simp [hblank])
  rw [leading, beforeNul_cons hzero, htrim, takeSign_cons hminus hplus]
  simp only [passMark_of_length_lt hshort, Bool.false_eq_true, if_false]

/-- Two digits make up a number, and a digit in front of another byte does alone. -/
theorem leading_of_digit (hhigh : digit? high = some h) (low : UInt8) :
    leading [high, low] =
      match digit? low with
      | some l => 16 * h.toNat + l.toNat
      | none => h.toNat := by
  obtain ⟨hlt, hzero, hminus, hplus, hblank⟩ := digit_bounds hhigh
  have hh : h.toNat < 16 := hlt
  rw [leading_pair hzero hminus hplus hblank, digitsFrom, hhigh]
  simp only [Nat.mul_zero, Nat.zero_add, digitsFrom_beforeNul]
  cases hlow : digit? low with
  | none =>
      have hsmall : h.toNat < 256 := by omega
      exact clamp_of_le hsmall
  | some l =>
      have hl : l.toNat < 16 := (digit_bounds hlow).1
      dsimp only
      have hsum : 16 * h.toNat + l.toNat < 256 := by omega
      rw [clamp_of_le hsum]
      push_cast
      rfl

/-- No number begins with a byte that is neither blank nor a sign nor a digit. -/
theorem leading_of_other (hdigit : digit? high = none) (hminus : high ≠ 0x2D) (hplus : high ≠ 0x2B)
    (hblank : isBlank high = false) (low : UInt8) : leading [high, low] = 0 := by
  by_cases hzero : high = 0
  · subst hzero
    rfl
  · rw [leading_pair hzero hminus hplus hblank, digitsFrom, hdigit]
    rfl

theorem ofInt_toNat (b : UInt8) : UInt8.ofInt b.toNat = b := by
  have hmod : ((b.toNat : Int) % 2 ^ 8).toNat = b.toNat := by
    have := b.toNat_lt
    omega
  rw [UInt8.ofInt, hmod, UInt8.ofNat_toNat]

/-- Two halves of a byte are put together by adding. -/
theorem ofInt_halves (hh : h < 16) (hl : l < 16) :
    UInt8.ofInt (16 * h.toNat + l.toNat) = h <<< 4 ||| l := by
  have hall : ∀ n < 16, ∀ m < 16, UInt8.ofInt (16 * (UInt8.ofNat n).toNat + (UInt8.ofNat m).toNat)
      = UInt8.ofNat n <<< 4 ||| UInt8.ofNat m := by
    decide
  simpa only [UInt8.ofNat_toNat] using hall h.toNat hh l.toNat hl

end Hex

/-! ## Loops over a position -/

namespace Percent

/-- Reads a text on from a position, behind what has been read of it. -/
def decodeAt (text read : Bytes) (i : Nat) : Except Error Bytes :=
  if h : i < text.length then
    if text[i] ≠ 0x25 then decodeAt text (read ++ [text[i]]) (i + 1)
    else if text.length ≤ i + 2 then .error .truncated
    else
      match Hex.digit? (text.getD (i + 1) 0), Hex.digit? (text.getD (i + 2) 0) with
      | some high, some low => decodeAt text (read ++ [high <<< 4 ||| low]) (i + 3)
      | _, _ => .error .badDigits
  else .ok read
termination_by text.length - i

/-- The three bytes at a position. -/
theorem drop_three {text : Bytes} {i : Nat} (h : i + 2 < text.length) :
    text.drop i
      = text[i] :: text.getD (i + 1) 0 :: text.getD (i + 2) 0 :: text.drop (i + 3) := by
  have hfirst : i < text.length := by omega
  have hsecond : i + 1 < text.length := by omega
  rw [List.drop_eq_getElem_cons hfirst, List.drop_eq_getElem_cons hsecond,
    List.drop_eq_getElem_cons h]
  simp [List.getD_eq_getElem?_getD, hsecond, h]

theorem decodeAt_eq (text read : Bytes) (i : Nat) :
    decodeAt text read i = decodeFrom read.reverse (text.drop i) := by
  fun_induction decodeAt text read i with
  | case1 read i h hbyte ih =>
      rw [ih, List.drop_eq_getElem_cons h, decodeFrom_cons hbyte, List.reverse_concat]
  | case2 read i h hescape hcut =>
      rw [List.drop_eq_getElem_cons h, not_not.mp hescape, decodeFrom]
      rintro high low rest hrest
      have hlength := congrArg List.length hrest
      simp only [List.length_drop, List.length_cons] at hlength
      omega
  | case3 read i h hescape hcut high low hlow hhigh ih =>
      rw [ih, drop_three (Nat.lt_of_not_le hcut), not_not.mp hescape, decodeFrom, hhigh, hlow,
        List.reverse_concat]
  | case4 read i h hescape hcut hdigits =>
      rw [drop_three (Nat.lt_of_not_le hcut), not_not.mp hescape, decodeFrom]
      split
      · rename_i high low hhigh hlow
        exact absurd hlow (hdigits high low hhigh)
      · rfl
  | case5 read i h =>
      rw [List.drop_eq_nil_of_le (by omega), decodeFrom, List.reverse_reverse]

end Percent

namespace QueryString

open Hex

/-- The byte of an escape is the number in front of its two bytes, cut to a byte. -/
theorem escapeValue_eq (high low : UInt8) :
    escapeValue high low = UInt8.ofInt (leading [high, low]) := by
  rw [escapeValue]
  cases hhigh : digit? high with
  | some h =>
      rw [leading_of_digit hhigh]
      cases hlow : digit? low with
      | some l => exact (ofInt_halves (digit_bounds hhigh).1 (digit_bounds hlow).1).symm
      | none => exact (ofInt_toNat h).symm
  | none =>
      by_cases hminus : high = 0x2D
      · rw [hminus, leading_minus, UInt8.ofInt_neg, ofInt_toNat]
        simp
      by_cases hplus : high = 0x2B
      · rw [hplus, leading_plus, ofInt_toNat]
        rfl
      by_cases hblank : isBlank high = true
      · rw [leading_cons_of_isBlank hblank, leading_single, ofInt_toNat]
        simp [hminus, hblank]
      · rw [leading_of_other hhigh hminus hplus (Bool.eq_false_iff.mpr hblank)]
        simp [hminus, hplus, hblank]
        rfl

/-- Reads a text on from a position, behind what has been read of it. -/
def decodeAt (text read : Bytes) (i : Nat) : Bytes :=
  if h : i < text.length then
    if text[i] = 0x2B then decodeAt text (read ++ [0x20]) (i + 1)
    else if text[i] = 0x25 ∧ i + 2 < text.length then
      decodeAt text (read ++ [UInt8.ofInt (leading ((text.drop (i + 1)).take 2))]) (i + 3)
    else decodeAt text (read ++ [text[i]]) (i + 1)
  else read
termination_by text.length - i

theorem decodeAt_eq (text read : Bytes) (i : Nat) :
    decodeAt text read i = read ++ decode (text.drop i) := by
  fun_induction decodeAt text read i with
  | case1 read i h hplus ih =>
      rw [ih, List.drop_eq_getElem_cons h, hplus,
        decode_cons fun heq => absurd heq (by decide), List.append_assoc]
      rfl
  | case2 read i h hplus hescape ih =>
      obtain ⟨hpercent, hroom⟩ := hescape
      have hthree := Percent.drop_three hroom
      have hpair : (text.drop (i + 1)).take 2 = [text.getD (i + 1) 0, text.getD (i + 2) 0] := by
        rw [← List.tail_drop, hthree]
        rfl
      rw [ih, hthree, hpercent, decode_escape, escapeValue_eq, hpair, List.append_assoc]
      rfl
  | case3 read i h hplus hescape ih =>
      have hbyte : text[i] = 0x25 → (text.drop (i + 1)).length < 2 := by
        intro hpercent
        rw [List.length_drop]
        have := mt (And.intro hpercent) hescape
        omega
      rw [ih, List.drop_eq_getElem_cons h, decode_cons hbyte, List.append_assoc]
      simp [hplus]
  | case4 read i h =>
      rw [List.drop_eq_nil_of_le (by omega)]
      simp [decode, decodeFrom]

/-! ## Searching a query -/

/-- Where a byte stands first, from a position on. -/
def firstFrom? (b : UInt8) (text : Bytes) (i : Nat) : Option Nat :=
  ((text.drop i).findIdx? (· == b)).map (i + ·)

theorem firstFrom?_cases (b : UInt8) (text : Bytes) (i : Nat) :
    (firstFrom? b text i = none ∧ b ∉ text.drop i) ∨
      ∃ piece, firstFrom? b text i = some (i + piece.length) ∧ b ∉ piece ∧
        text.drop i = piece ++ b :: text.drop (i + piece.length + 1) := by
  by_cases hmem : b ∈ text.drop i
  · right
    obtain ⟨piece, rest, hsplit, hpiece⟩ := List.eq_append_cons_of_mem hmem
    refine ⟨piece, ?_, hpiece, ?_⟩
    · have hnone : piece.findIdx? (· == b) = none := by
        rw [List.findIdx?_eq_none_iff]
        intro c hc
        rw [beq_eq_false_iff_ne]
        rintro rfl
        exact hpiece hc
      rw [firstFrom?, hsplit, List.findIdx?_append, hnone, List.findIdx?_cons, beq_self_eq_true]
      simp
    · rw [hsplit, Nat.add_assoc, ← List.drop_drop, hsplit]
      simp
  · left
    refine ⟨?_, hmem⟩
    rw [firstFrom?, List.findIdx?_eq_none_iff.mpr]
    · rfl
    · intro c hc
      rw [beq_eq_false_iff_ne]
      rintro rfl
      exact hmem hc

/-- The value in a piece of a query, if the piece is a pair with the key. -/
def pairValue? (key piece : Bytes) : Option Bytes :=
  match firstFrom? 0x3D piece 0 with
  | some mark =>
    if decodeAt (piece.take mark) [] 0 = key then some (decodeAt (piece.drop (mark + 1)) [] 0)
    else none
  | none => none

theorem pairValue?_eq (key piece : Bytes) : pairValue? key piece = valueIn? key piece := by
  rw [pairValue?, valueIn?]
  rcases firstFrom?_cases 0x3D piece 0 with ⟨hnone, hmem⟩ | ⟨front, hsome, hfront, hsplit⟩
  · rw [List.drop_zero] at hmem
    rw [hnone, cutAt?_eq_none hmem]
  · rw [List.drop_zero, Nat.zero_add] at hsplit
    rw [Nat.zero_add] at hsome
    have hcut : cutAt? 0x3D piece = some (front, piece.drop (front.length + 1)) := by
      conv_lhs => rw [hsplit]
      exact cutAt?_append_cons hfront _
    have hkey : piece.take front.length = front := by
      rw [hsplit]
      exact List.take_left
    rw [hsome, hcut]
    simp only [decodeAt_eq, hkey, List.drop_zero, List.nil_append, beq_iff_eq]

/-- Searches a query for a key, from a position at which a piece begins. -/
def valueAt (query key : Bytes) (i : Nat) : Bytes :=
  if i < query.length then
    match _hmark : firstFrom? 0x26 query i with
    | some mark =>
      match pairValue? key ((query.drop i).take (mark - i)) with
      | some value => value
      | none => valueAt query key (mark + 1)
    | none => (pairValue? key (query.drop i)).getD []
  else []
termination_by query.length - i
decreasing_by
  obtain ⟨-, -, rfl⟩ := Option.map_eq_some_iff.mp _hmark
  omega

/-- The pieces from a position on, up to a separator and behind it. -/
theorem splitOn_drop_of_firstFrom? {query : Bytes} {i mark : Nat}
    (h : firstFrom? 0x26 query i = some mark) :
    splitOn 0x26 (query.drop i)
      = (query.drop i).take (mark - i) :: splitOn 0x26 (query.drop (mark + 1)) := by
  rcases firstFrom?_cases 0x26 query i with ⟨hnone, -⟩ | ⟨piece, hsome, hpiece, hsplit⟩
  · rw [hnone] at h
    cases h
  · obtain rfl : i + piece.length = mark := Option.some.inj (hsome.symm.trans h)
    have htake : (query.drop i).take (i + piece.length - i) = piece := by
      rw [hsplit, Nat.add_sub_cancel_left]
      exact List.take_left
    rw [htake]
    conv_lhs => rw [hsplit]
    exact splitOn_append_cons hpiece _

theorem splitOn_drop_of_firstFrom?_eq_none {query : Bytes} {i : Nat}
    (h : firstFrom? 0x26 query i = none) : splitOn 0x26 (query.drop i) = [query.drop i] := by
  rcases firstFrom?_cases 0x26 query i with ⟨-, hmem⟩ | ⟨piece, hsome, -⟩
  · rw [splitOn_eq, List.splitOn_eq_singleton hmem]
  · rw [hsome] at h
    cases h

theorem valueAt_eq (query key : Bytes) (i : Nat) :
    valueAt query key i
      = ((splitOn 0x26 (query.drop i)).findSome? (valueIn? key)).getD [] := by
  fun_induction valueAt query key i with
  | case1 i h mark hmark value hvalue =>
      rw [pairValue?_eq] at hvalue
      rw [splitOn_drop_of_firstFrom? hmark, List.findSome?_cons, hvalue]
      rfl
  | case2 i h mark hmark hvalue ih =>
      rw [pairValue?_eq] at hvalue
      rw [splitOn_drop_of_firstFrom? hmark, List.findSome?_cons, hvalue, ih]
  | case3 i h hmark =>
      rw [splitOn_drop_of_firstFrom?_eq_none hmark, pairValue?_eq, List.findSome?_singleton]
  | case4 i h =>
      rw [List.drop_eq_nil_of_le (by omega)]
      rfl

/-- Both readers read back whatever was escaped. What the reader of records accepts, the reader of
queries reads in the same way unless there is a plus sign in it. A query written from pairs tells of
every key the value of the first pair with it, and nothing without one. The loops over a position
read the same as the readers. -/
theorem readers_agree :
    (∀ text, Percent.decode (Percent.encode text) = .ok text ∧
      decode (Percent.encode text) = text) ∧
    (∀ text read, Percent.decode text = .ok read → (decode text = read ↔ 0x2B ∉ text)) ∧
    (∀ (pairs : List (Bytes × Bytes)) (key : Bytes),
      value key (ofPairs pairs) = (pairs.lookup key).getD []) ∧
    ∀ text, Percent.decodeAt text [] 0 = Percent.decode text ∧ decodeAt text [] 0 = decode text ∧
      ∀ key, valueAt text key 0 = value key text := by
  refine ⟨fun text => ?_, fun text read h => ?_, fun pairs key => ?_, fun text => ?_⟩
  · exact ⟨Percent.decode_encode text, decode_encode text⟩
  · exact decode_eq_iff (Percent.decode_eq_ok_iff.mp h)
  · rw [value, find?_ofPairs]
  · refine ⟨Percent.decodeAt_eq text [] 0, decodeAt_eq text [] 0, fun key => ?_⟩
    rw [valueAt_eq, List.drop_zero, value, find?_eq]

/-- An escaped plus sign, in small digits, between bytes that stand for themselves. -/
theorem readers_agree_escapedPlus :
    Percent.decode (ascii "1%2b1=%e2%82%AC") = .ok (ascii "1+1=" ++ [0xE2, 0x82, 0xAC]) ∧
      decode (ascii "1%2b1=%e2%82%AC") = ascii "1+1=" ++ [0xE2, 0x82, 0xAC] := by
  have hread : Percent.decode (ascii "1%2b1=%e2%82%AC")
      = .ok (ascii "1+1=" ++ [0xE2, 0x82, 0xAC]) := by decide
  exact ⟨hread, (readers_agree.2.1 _ _ hread).mpr (by decide)⟩

end QueryString

end ResolverLog
