import ResolverLog.QueryString
import ResolverLog.Proofs.Percent

/-!
# Escaped texts in records and in queries

Records and queries share their escapes but not their reader. The reader of
records refuses whatever is no escape, that of queries makes something of it and
takes a plus sign for a space. On a text that the reader of records accepts, the
plus signs are all that they read differently. A query that is written pair by
pair with escapes is therefore taken apart into the pairs it was written from.
-/

namespace ResolverLog

open Bytes

namespace Percent

variable {text value : Bytes}

/-- An escaped text and what it stands for: two hexadecimal digits come behind a percent sign, in
either letter case, and every other byte stands for itself. -/
inductive StandsFor : Bytes → Bytes → Prop
  | nil : StandsFor [] []
  | byte {b : UInt8} {text value : Bytes} (hb : b ≠ 0x25) (rest : StandsFor text value) :
      StandsFor (b :: text) (b :: value)
  | escape {high low h l : UInt8} {text value : Bytes} (hhigh : Hex.digit? high = some h)
      (hlow : Hex.digit? low = some l) (rest : StandsFor text value) :
      StandsFor (0x25 :: high :: low :: text) ((h <<< 4 ||| l) :: value)

theorem StandsFor.decodeFrom_eq (h : StandsFor text value) (done : Bytes) :
    decodeFrom done text = .ok (done.reverse ++ value) := by
  induction h generalizing done with
  | nil => simp [decodeFrom]
  | byte hb rest ih => simp [decodeFrom_cons hb, ih]
  | escape hhigh hlow rest ih => simp [decodeFrom, hhigh, hlow, ih]

theorem standsFor_of_decodeFrom {done read : Bytes} (h : decodeFrom done text = .ok read) :
    ∃ value, read = done.reverse ++ value ∧ StandsFor text value := by
  fun_induction decodeFrom done text with
  | case1 done high low rest upper lower hlow hhigh ih =>
      obtain ⟨value, rfl, hvalue⟩ := ih h
      exact ⟨(upper <<< 4 ||| lower) :: value, by simp, .escape hhigh hlow hvalue⟩
  | case2 => cases h
  | case3 => cases h
  | case4 done b rest hescape hcut ih =>
      obtain ⟨value, rfl, hvalue⟩ := ih h
      exact ⟨b :: value, by simp, .byte hcut hvalue⟩
  | case5 done =>
      cases h
      exact ⟨[], by simp, .nil⟩

/-- The reader of records accepts exactly the texts in which every percent sign begins an escape. -/
theorem decode_eq_ok_iff : decode text = .ok value ↔ StandsFor text value := by
  constructor
  · intro h
    obtain ⟨_, rfl, hvalue⟩ := standsFor_of_decodeFrom h
    exact hvalue
  · intro h
    exact h.decodeFrom_eq []

/-- A byte that is neither plain nor a percent sign is not written. -/
theorem notMem_encode {b : UInt8} (hplain : isPlain b = false) (hb : b ≠ 0x25) (text : Bytes) :
    b ∉ encode text := by
  intro hmem
  rcases isPlain_of_mem_encode hmem with h | h
  · rw [hplain] at h
    cases h
  · exact hb h

end Percent

namespace QueryString

variable {text value key : Bytes} {b : UInt8}

/-! ## The reader of queries -/

/-- What was read before stands in front of what is read later. -/
theorem decodeFrom_append (done front text : Bytes) :
    decodeFrom (done ++ front) text = front.reverse ++ decodeFrom done text := by
  fun_induction decodeFrom done text with
  | case1 done high low rest ih => exact ih
  | case2 done b rest hcut ih =>
      rw [decodeFrom]
      · exact ih
      · exact hcut
  | case3 done => rw [decodeFrom, List.reverse_append]

theorem decodeFrom_eq (done text : Bytes) : decodeFrom done text = done.reverse ++ decode text :=
  decodeFrom_append [] done text

theorem decode_escape (high low : UInt8) (rest : Bytes) :
    decode (0x25 :: high :: low :: rest) = escapeValue high low :: decode rest := by
  rw [decode, decodeFrom, decodeFrom_eq]
  rfl

/-- A byte that begins no escape is read alone, and only a plus sign is read as another one. -/
theorem decode_cons {rest : Bytes} (h : b = 0x25 → rest.length < 2) :
    decode (b :: rest) = (if b == 0x2B then 0x20 else b) :: decode rest := by
  rw [decode, decodeFrom, decodeFrom_eq]
  · rfl
  · rintro high low rest rfl rfl
    simp only [List.length_cons, forall_const] at h
    omega

/-- Of two hexadecimal digits the lenient reading makes the same byte as the strict one. -/
theorem escapeValue_of_digits {high low h l : UInt8} (hhigh : Hex.digit? high = some h)
    (hlow : Hex.digit? low = some l) : escapeValue high low = h <<< 4 ||| l := by
  rw [escapeValue, hhigh, hlow]

theorem ne_plus_of_digit? {d : UInt8} (h : Hex.digit? b = some d) : b ≠ 0x2B := by
  rintro rfl
  simp [Hex.digit?] at h

/-- Both readers read the same unless there is a plus sign, which the reader of queries takes for a
space. -/
theorem decode_eq_iff (h : Percent.StandsFor text value) :
    decode text = value ↔ 0x2B ∉ text := by
  induction h with
  | nil => simp [decode, decodeFrom]
  | @byte b text value hb rest ih =>
      rw [decode_cons fun h => absurd h hb, List.cons.injEq, ih, List.mem_cons, not_or]
      apply and_congr_left'
      by_cases hplus : b = 0x2B
      · simp [hplus]
      · simp [hplus, Ne.symm hplus]
  | @escape high low h l text value hhigh hlow rest ih =>
      have hhigh' := ne_plus_of_digit? hhigh
      have hlow' := ne_plus_of_digit? hlow
      rw [decode_escape, escapeValue_of_digits hhigh hlow, List.cons.injEq, ih]
      simp [hhigh'.symm, hlow'.symm]

theorem decode_encode (text : Bytes) : decode (Percent.encode text) = text := by
  apply (decode_eq_iff (Percent.decode_eq_ok_iff.mp (Percent.decode_encode text))).mpr
  exact Percent.notMem_encode (by decide) (by decide) text

/-! ## Queries made of pairs -/

/-- A pair as it stands between two separators. -/
def written (pair : Bytes × Bytes) : Bytes :=
  Percent.encode pair.1 ++ 0x3D :: Percent.encode pair.2

/-- The query that is written from some pairs. -/
def ofPairs (pairs : List (Bytes × Bytes)) : Bytes :=
  join [0x26] (pairs.map written)

/-- The value in a piece of a query, if the piece is a pair with the key. -/
def valueIn? (key piece : Bytes) : Option Bytes :=
  match cutAt? 0x3D piece with
  | some (k, v) => if decode k == key then some (decode v) else none
  | none => none

theorem find?_eq (key query : Bytes) :
    find? key query = (splitOn 0x26 query).findSome? (valueIn? key) := rfl

/-- The first equals sign of a written pair is the one between its key and its value. -/
theorem valueIn?_written (key : Bytes) (pair : Bytes × Bytes) :
    valueIn? key (written pair) = if pair.1 = key then some pair.2 else none := by
  have hcut : cutAt? 0x3D (written pair)
      = some (Percent.encode pair.1, Percent.encode pair.2) :=
    cutAt?_append_cons (Percent.notMem_encode (by decide) (by decide) pair.1) _
  simp only [valueIn?, hcut, decode_encode, beq_iff_eq]

theorem ampersand_notMem_written (pair : Bytes × Bytes) : (0x26 : UInt8) ∉ written pair := by
  have hkey : (0x26 : UInt8) ∉ Percent.encode pair.1 :=
    Percent.notMem_encode (by decide) (by decide) pair.1
  have hvalue : (0x26 : UInt8) ∉ Percent.encode pair.2 :=
    Percent.notMem_encode (by decide) (by decide) pair.2
  simp [written, hkey, hvalue]

theorem findSome?_map_written (key : Bytes) (pairs : List (Bytes × Bytes)) :
    (pairs.map written).findSome? (valueIn? key) = pairs.lookup key := by
  induction pairs with
  | nil => rfl
  | cons pair pairs ih =>
      obtain ⟨other, value⟩ := pair
      rw [List.map_cons, List.findSome?_cons, valueIn?_written, ih, List.lookup_cons]
      by_cases hkey : other = key
      · rw [if_pos hkey, hkey, beq_self_eq_true]
      · rw [if_neg hkey, beq_false_of_ne (Ne.symm hkey)]

/-- In a query that is written from pairs the first pair with a key is found, whatever bytes the
keys and the values are made of. -/
theorem find?_ofPairs (key : Bytes) (pairs : List (Bytes × Bytes)) :
    find? key (ofPairs pairs) = pairs.lookup key := by
  cases pairs with
  | nil => rfl
  | cons pair pairs =>
      have hsplit : splitOn 0x26 (ofPairs (pair :: pairs)) = (pair :: pairs).map written := by
        apply splitOn_join
        · simp
        · intro piece hpiece
          obtain ⟨other, -, rfl⟩ := List.mem_map.mp hpiece
          exact ampersand_notMem_written other
      rw [find?_eq, hsplit, findSome?_map_written]

example : find? (ascii "x") (ascii "hours=12&x=a%20b") = some (ascii "a b") := by
  decide

end QueryString

end ResolverLog
