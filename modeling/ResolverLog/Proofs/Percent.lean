import ResolverLog.Percent
import ResolverLog.Proofs.Bytes
import Mathlib.Tactic.IntervalCases

/-!
# Percent escapes read back

What `Percent.encode` writes is made of plain bytes and escapes only, so it has
neither separators nor line ends in it, and `Percent.decode` gives the escaped
text back.
-/

namespace ResolverLog

namespace Hex

/-- Every digit written reads as its value. -/
theorem digit?_upper {d : UInt8} (h : d.toNat < 16) : digit? (upper d) = some d :=
  Bytes.forall_of_forall_ofNat (fun d => digit? (upper d) = some d) (by decide) h

end Hex

namespace Percent

theorem isPlain_upper {d : UInt8} (h : d.toNat < 16) : isPlain (Hex.upper d) = true :=
  Bytes.forall_of_forall_ofNat (fun d => isPlain (Hex.upper d) = true) (by decide) h

/-- The upper and the lower half of a byte are values of digits. -/
theorem toNat_high_lt (b : UInt8) : (b >>> 4).toNat < 16 := by
  have hb := b.toNat_lt
  have hs : (b >>> 4).toNat = b.toNat / 16 := by
    simp [UInt8.toNat_shiftRight, Nat.shiftRight_eq_div_pow]
  omega

@[inherit_doc toNat_high_lt]
theorem toNat_low_lt (b : UInt8) : (b &&& 0x0F).toNat < 16 := by
  have hs : (b &&& 0x0F).toNat = b.toNat % 16 := by
    simpa using Nat.and_two_pow_sub_one_eq_mod b.toNat 4
  omega

/-- A byte is put together from its halves. -/
theorem halves (b : UInt8) : b >>> 4 <<< 4 ||| b &&& 0x0F = b := by
  apply Bytes.ext_bits
  intro i hi
  interval_cases i <;> simp

theorem decodeFrom_cons {b : UInt8} (h : b ≠ 0x25) (done rest : Bytes) :
    decodeFrom done (b :: rest) = decodeFrom (b :: done) rest := by
  rw [decodeFrom]
  · rintro _ _ _ rfl
    exact absurd rfl h
  · exact h

/-- One written byte reads back, whatever follows it. -/
theorem decodeFrom_encodeByte (done : Bytes) (b : UInt8) (rest : Bytes) :
    decodeFrom done (encodeByte b ++ rest) = decodeFrom (b :: done) rest := by
  by_cases hp : isPlain b = true
  · have hb : b ≠ 0x25 := by
      rintro rfl
      exact absurd hp (by decide)
    rw [encodeByte, if_pos hp, List.singleton_append]
    exact decodeFrom_cons hb done rest
  · rw [encodeByte, if_neg hp]
    simp only [List.cons_append, List.nil_append]
    rw [decodeFrom, Hex.digit?_upper (toNat_high_lt b), Hex.digit?_upper (toNat_low_lt b)]
    exact congrArg (fun c => decodeFrom (c :: done) rest) (halves b)

theorem decodeFrom_encode (done text : Bytes) :
    decodeFrom done (encode text) = .ok (done.reverse ++ text) := by
  induction text generalizing done with
  | nil => simp [encode, decodeFrom]
  | cons b rest ih =>
      change decodeFrom done (encodeByte b ++ encode rest) = _
      rw [decodeFrom_encodeByte, ih (b :: done), List.reverse_cons, List.append_assoc]
      rfl

/-- What is written reads back. -/
theorem decode_encode (text : Bytes) : decode (encode text) = .ok text :=
  decodeFrom_encode [] text

/-- Only plain bytes and percent signs are written. -/
theorem isPlain_of_mem_encode {text : Bytes} {c : UInt8} (h : c ∈ encode text) :
    isPlain c = true ∨ c = 0x25 := by
  obtain ⟨b, -, hc⟩ := List.mem_flatMap.mp h
  by_cases hp : isPlain b = true
  · rw [encodeByte, if_pos hp, List.mem_singleton] at hc
    exact Or.inl (hc ▸ hp)
  · rw [encodeByte, if_neg hp] at hc
    simp only [List.mem_cons, List.not_mem_nil, or_false] at hc
    rcases hc with rfl | rfl | rfl
    · exact Or.inr rfl
    · exact Or.inl (isPlain_upper (toNat_high_lt b))
    · exact Or.inl (isPlain_upper (toNat_low_lt b))

/-- A part of a written byte can be read when it is nothing or all of it. -/
theorem eq_nil_or_of_prefix_encodeByte {done start value : Bytes} {b : UInt8}
    (hp : start <+: encodeByte b) (h : decodeFrom done start = .ok value) :
    start = [] ∨ start = encodeByte b := by
  by_cases hb : isPlain b = true
  · rw [encodeByte, if_pos hb] at hp ⊢
    simpa [List.prefix_cons_iff, or_comm] using hp
  · rw [encodeByte, if_neg hb] at hp ⊢
    simp only [List.prefix_cons_iff, List.prefix_nil] at hp
    rcases hp with rfl | ⟨_, rfl, rfl | ⟨_, rfl, rfl | ⟨_, rfl, rfl⟩⟩⟩
    · exact .inl rfl
    · cases h
    · cases h
    · exact .inr rfl

/-- The beginning of an escaped text that can be read does not end inside an escape, so it is the
escaped form of a beginning of the text. -/
theorem exists_encode_of_prefix {done start text value : Bytes} (hp : start <+: encode text)
    (h : decodeFrom done start = .ok value) :
    ∃ front, front <+: text ∧ start = encode front := by
  induction text generalizing done start with
  | nil =>
      obtain rfl : start = [] := by simpa [encode] using hp
      exact ⟨[], List.prefix_rfl, rfl⟩
  | cons b text ih =>
      change start <+: encodeByte b ++ encode text at hp
      rcases Bytes.prefix_append_cases hp with hbyte | ⟨more, rfl, hmore⟩
      · rcases eq_nil_or_of_prefix_encodeByte hbyte h with rfl | rfl
        · exact ⟨[], List.nil_prefix, rfl⟩
        · exact ⟨[b], by simp, by simp [encode]⟩
      · rw [decodeFrom_encodeByte] at h
        obtain ⟨front, hfront, rfl⟩ := ih hmore h
        exact ⟨b :: front, by simpa using hfront, rfl⟩

/-- What is read of the beginning of an escaped text is a beginning of the text. -/
theorem eq_encode_of_decode {start text value : Bytes} (hp : start <+: encode text)
    (h : decode start = .ok value) : start = encode value ∧ value <+: text := by
  obtain ⟨front, hfront, rfl⟩ := exists_encode_of_prefix hp h
  rw [decode_encode] at h
  cases h
  exact ⟨rfl, hfront⟩

end Percent

end ResolverLog
