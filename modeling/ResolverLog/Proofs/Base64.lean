import ResolverLog.Base64
import ResolverLog.Proofs.Bytes
import Mathlib.Tactic.IntervalCases

/-!
# Base64 payloads read back

Three bytes become four sextets and are put together from them again. What
`Base64.encode` writes comes in whole quanta, so `Base64.decode` accepts it and
gives the payload back.
-/

namespace ResolverLog

namespace Base64

open Bytes

/-! ## Sextets -/

section Sextets

variable {v : UInt8}

/-- Every character of the alphabet reads as the value it was written for. -/
theorem sextet?_symbol (h : v.toNat < 64) : sextet? (symbol v) = some v :=
  forall_of_forall_ofNat (fun v => sextet? (symbol v) = some v) (by decide) h

/-- The padding character is not in the alphabet. -/
theorem symbol_ne_pad (h : v.toNat < 64) : (symbol v == pad) = false :=
  forall_of_forall_ofNat (fun v => (symbol v == pad) = false) (by decide) h

theorem sextet_symbol (h : v.toNat < 64) : sextet (symbol v) = .ok v := by
  rw [sextet, symbol_ne_pad h, sextet?_symbol h]
  rfl

/-- A byte without its two upper bits is a sextet. -/
theorem toNat_lt_of_bits (h6 : v.toBitVec[6] = false) (h7 : v.toBitVec[7] = false) :
    v.toNat < 64 := by
  have hmask : v &&& 0x3F = v := by
    apply ext_bits
    intro i hi
    interval_cases i <;> simp [h6, h7]
  have hmod : (v &&& 0x3F).toNat = v.toNat % 64 := by
    simpa using Nat.and_two_pow_sub_one_eq_mod v.toNat 6
  rw [hmask] at hmod
  omega

end Sextets

section Quanta

variable (a b c : UInt8)

theorem first_lt : (a >>> 2).toNat < 64 :=
  toNat_lt_of_bits (by simp) (by simp)

theorem second_lt : ((a &&& 0x03) <<< 4 ||| b >>> 4).toNat < 64 :=
  toNat_lt_of_bits (by simp) (by simp)

theorem third_lt : ((b &&& 0x0F) <<< 2 ||| c >>> 6).toNat < 64 :=
  toNat_lt_of_bits (by simp) (by simp)

theorem fourth_lt : (c &&& 0x3F).toNat < 64 :=
  toNat_lt_of_bits (by simp) (by simp)

/-! ## Bytes from their sextets -/

theorem byte_of_first_second :
    a >>> 2 <<< 2 ||| ((a &&& 0x03) <<< 4 ||| b >>> 4) >>> 4 = a := by
  apply ext_bits
  intro i hi
  interval_cases i <;> simp

theorem byte_of_second_third :
    (((a &&& 0x03) <<< 4 ||| b >>> 4) &&& 0x0F) <<< 4
      ||| ((b &&& 0x0F) <<< 2 ||| c >>> 6) >>> 2 = b := by
  apply ext_bits
  intro i hi
  interval_cases i <;> simp

theorem byte_of_third_fourth :
    (((b &&& 0x0F) <<< 2 ||| c >>> 6) &&& 0x03) <<< 6 ||| c &&& 0x3F = c := by
  apply ext_bits
  intro i hi
  interval_cases i <;> simp

/-! ## Quanta -/

theorem quantum_full (last : Bool) :
    quantum last (first a) (second a b) (third b c) (fourth c) = .ok [a, b, c] := by
  rw [quantum, first, second, third, fourth, sextet_symbol (first_lt a),
    sextet_symbol (second_lt a b), sextet_symbol (third_lt b c), sextet_symbol (fourth_lt c),
    symbol_ne_pad (third_lt b c), symbol_ne_pad (fourth_lt c)]
  simp only [bind, Except.bind, pure, Except.pure, Bool.and_false, Bool.false_eq_true, if_false,
    byte_of_first_second, byte_of_second_third, byte_of_third_fourth]

theorem quantum_two : quantum true (first a) (second a b) (third b 0) pad = .ok [a, b] := by
  rw [quantum, first, second, third, sextet_symbol (first_lt a), sextet_symbol (second_lt a b),
    sextet_symbol (third_lt b 0), symbol_ne_pad (third_lt b 0)]
  simp only [bind, Except.bind, pure, Except.pure, Bool.and_false, Bool.false_eq_true, if_false,
    beq_self_eq_true, Bool.and_self, if_true, byte_of_first_second, byte_of_second_third]

theorem quantum_one : quantum true (first a) (second a 0) pad pad = .ok [a] := by
  rw [quantum, first, second, sextet_symbol (first_lt a), sextet_symbol (second_lt a 0)]
  simp only [bind, Except.bind, pure, Except.pure, beq_self_eq_true, Bool.and_self, if_true,
    byte_of_first_second]

end Quanta

/-! ## Payloads -/

theorem encodeFrom_eq : ∀ done data : Bytes, encodeFrom done data = done.reverse ++ encode data
  | done, [] => by simp [encode, encodeFrom]
  | done, [a] => by simp [encode, encodeFrom]
  | done, [a, b] => by simp [encode, encodeFrom]
  | done, a :: b :: c :: rest => by
      have hdone := encodeFrom_eq (fourth c :: third b c :: second a b :: first a :: done) rest
      have hnil := encodeFrom_eq [fourth c, third b c, second a b, first a] rest
      change encodeFrom (_ :: _ :: _ :: _ :: done) rest
        = done.reverse ++ encodeFrom [_, _, _, _] rest
      rw [hdone, hnil]
      simp

/-- Three bytes in front of a payload are four characters in front of its text. -/
theorem encode_cons (a b c : UInt8) (rest : Bytes) :
    encode (a :: b :: c :: rest)
      = first a :: second a b :: third b c :: fourth c :: encode rest := by
  rw [encode, encodeFrom, encodeFrom_eq]
  simp

theorem decodeFrom_encode :
    ∀ done data : Bytes, decodeFrom done (encode data) = .ok (done.reverse ++ data)
  | done, [] => by simp [encode, encodeFrom, decodeFrom]
  | done, [a] => by
      change decodeFrom done [first a, second a 0, pad, pad] = _
      rw [decodeFrom, List.isEmpty_nil, quantum_one]
      simp [decodeFrom]
  | done, [a, b] => by
      change decodeFrom done [first a, second a b, third b 0, pad] = _
      rw [decodeFrom, List.isEmpty_nil, quantum_two]
      simp [decodeFrom]
  | done, a :: b :: c :: rest => by
      rw [encode_cons, decodeFrom, quantum_full]
      simpa using decodeFrom_encode ([c, b, a] ++ done) rest

/-- The text of a payload has four characters for each quantum of three bytes. -/
theorem length_encode : ∀ data : Bytes, (encode data).length = 4 * ((data.length + 2) / 3)
  | [] => rfl
  | [_] => by simp [encode, encodeFrom]
  | [_, _] => by simp [encode, encodeFrom]
  | a :: b :: c :: rest => by
      rw [encode_cons]
      simp only [List.length_cons, length_encode rest]
      omega

/-- What is written reads back. -/
theorem decode_encode (data : Bytes) : decode (encode data) = .ok data := by
  have hlen : ((encode data).length % 4 == 0) = true := by
    rw [length_encode, Nat.mul_mod_right]
    rfl
  rw [decode, if_pos hlen, decodeFrom_encode]
  rfl

/-! ## The beginning of a text -/

/-- The beginning of a quantum that has whole quanta is nothing or all of it. -/
theorem eq_nil_or_of_prefix_quantum {start : Bytes} {a b c d : UInt8}
    (hp : start <+: [a, b, c, d]) (hl : start.length % 4 = 0) :
    start = [] ∨ start = [a, b, c, d] := by
  have hle : start.length ≤ 4 := hp.length_le
  rcases Nat.eq_zero_or_pos start.length with hzero | hpos
  · exact .inl (List.length_eq_zero_iff.mp hzero)
  · exact .inr (hp.eq_of_length (by simp only [List.length_cons, List.length_nil]; omega))

/-- Whole quanta at the beginning of a written text are the text of a beginning of the payload. -/
theorem exists_encode_of_prefix : ∀ {data start : Bytes}, start <+: encode data →
    start.length % 4 = 0 → ∃ front, front <+: data ∧ start = encode front
  | [], start, hp, _ => ⟨[], List.prefix_rfl, by simpa [encode, encodeFrom] using hp⟩
  | [a], start, hp, hl => by
      rcases eq_nil_or_of_prefix_quantum hp hl with rfl | rfl
      · exact ⟨[], List.nil_prefix, rfl⟩
      · exact ⟨[a], List.prefix_rfl, rfl⟩
  | [a, b], start, hp, hl => by
      rcases eq_nil_or_of_prefix_quantum hp hl with rfl | rfl
      · exact ⟨[], List.nil_prefix, rfl⟩
      · exact ⟨[a, b], List.prefix_rfl, rfl⟩
  | a :: b :: c :: rest, start, hp, hl => by
      have hsplit : encode (a :: b :: c :: rest)
          = [first a, second a b, third b c, fourth c] ++ encode rest :=
        encode_cons a b c rest
      rw [hsplit] at hp
      rcases Bytes.prefix_append_cases hp with hquantum | ⟨more, rfl, hmore⟩
      · rcases eq_nil_or_of_prefix_quantum hquantum hl with rfl | rfl
        · exact ⟨[], List.nil_prefix, rfl⟩
        · exact ⟨[a, b, c], by simp, rfl⟩
      · have hrest : more.length % 4 = 0 := by
          rw [List.length_append] at hl
          simpa using hl
        obtain ⟨front, hfront, rfl⟩ := exists_encode_of_prefix hmore hrest
        exact ⟨a :: b :: c :: front, by simpa using hfront, (encode_cons a b c front).symm⟩

/-- What is read of the beginning of a written text is a beginning of the payload. -/
theorem eq_encode_of_decode {start data value : Bytes} (hp : start <+: encode data)
    (h : decode start = .ok value) : start = encode value ∧ value <+: data := by
  rw [decode] at h
  split at h
  · rename_i hl
    obtain ⟨front, hfront, rfl⟩ := exists_encode_of_prefix hp (by simpa using hl)
    rw [decodeFrom_encode] at h
    cases h
    exact ⟨rfl, hfront⟩
  · cases h

end Base64

end ResolverLog
