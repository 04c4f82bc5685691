import ResolverLog.Decimal
import ResolverLog.Proofs.Bytes
import Mathlib.Algebra.Ring.Nat
import Mathlib.Data.List.Induction

/-!
# Decimal numbers read back

The canonical text of a number is a run of digits, for a negative one behind a
minus sign. It denotes the number, and the readers of the formats take it. A
reader of the front of a text takes the number behind blanks and at most one
sign, with as many digits as there are.
-/

namespace ResolverLog

namespace Decimal

open Bytes

theorem toNat_digit {d : Nat} (h : d < 10) : (digit d).toNat = 0x30 + d := by
  have hlt : 0x30 + d < 2 ^ 8 := by omega
  simpa [digit] using Nat.mod_eq_of_lt hlt

theorem isDigit_digit {d : Nat} (h : d < 10) : isDigit (digit d) = true := by
  have hd := toNat_digit h
  simp only [isDigit, Bool.and_eq_true, decide_eq_true_eq, UInt8.le_iff_toNat_le, hd]
  exact ⟨Nat.le_add_right _ _, by simp; omega⟩

theorem all_isDigit_ofNat (n : Nat) : (ofNat n).all isDigit = true := by
  induction n using ofNat.induct with
  | case1 n h =>
      rw [ofNat, if_pos h]
      simp [isDigit_digit h]
  | case2 n h ih =>
      rw [ofNat, if_neg h, List.all_append, ih]
      simp [isDigit_digit (Nat.mod_lt n (by decide))]

/-- No digit is blank. -/
theorem isBlank_of_isDigit {b : UInt8} (h : isDigit b = true) : isBlank b = false := by
  simp only [isDigit, Bool.and_eq_true, decide_eq_true_eq, UInt8.le_iff_toNat_le] at h
  simp only [isBlank, Bool.or_eq_false_iff, Bool.and_eq_false_iff, beq_eq_false_iff_ne, ne_eq,
    decide_eq_false_iff_not, UInt8.le_iff_toNat_le, ← UInt8.toNat_inj]
  simp only [UInt8.reduceToNat] at h ⊢
  omega

theorem isBlank_of_mem_ofNat {n : Nat} {b : UInt8} (h : b ∈ ofNat n) : isBlank b = false :=
  isBlank_of_isDigit (List.all_eq_true.mp (all_isDigit_ofNat n) b h)

theorem ofNat_ne_nil (n : Nat) : ofNat n ≠ [] := by
  rw [ofNat]
  split
  · exact List.cons_ne_nil _ _
  · exact List.append_ne_nil_of_right_ne_nil _ (List.cons_ne_nil _ _)

theorem value_append_digit (digits : Bytes) (b : UInt8) :
    value (digits ++ [b]) = 10 * value digits + (b.toNat - 0x30) := by
  simp [value, List.foldl_append]

/-- So many digits denote a number below that power of ten. -/
theorem value_lt {digits : Bytes} (h : ∀ b ∈ digits, isDigit b = true) :
    value digits < 10 ^ digits.length := by
  induction digits using List.reverseRecOn with
  | nil => decide
  | append_singleton digits b ih =>
      have hfront := ih fun c hc => h c (List.mem_append_left _ hc)
      have hlast : b.toNat ≤ 0x39 := by
        have hdigit := h b (List.mem_append_right _ List.mem_cons_self)
        simp only [isDigit, Bool.and_eq_true, decide_eq_true_eq, UInt8.le_iff_toNat_le] at hdigit
        exact hdigit.2
      rw [value_append_digit, List.length_append, List.length_singleton, pow_succ]
      omega

/-- The digits of a number denote it. -/
theorem value_ofNat (n : Nat) : value (ofNat n) = n := by
  induction n using ofNat.induct with
  | case1 n h =>
      rw [ofNat, if_pos h]
      simp [value, toNat_digit h]
  | case2 n h ih =>
      rw [ofNat, if_neg h, value_append_digit, ih, toNat_digit (Nat.mod_lt n (by decide))]
      omega

theorem nat?_ofNat (n : Nat) : nat? (ofNat n) = some n := by
  have hne : (!(ofNat n).isEmpty) = true := by
    simpa using ofNat_ne_nil n
  rw [nat?, hne, all_isDigit_ofNat, value_ofNat]
  rfl

/-- The numbers below a power of ten are those of so many digits. -/
theorem length_ofNat_le_iff {n k : Nat} : (ofNat n).length ≤ k + 1 ↔ n < 10 ^ (k + 1) := by
  induction k generalizing n with
  | zero =>
      rw [ofNat]
      split
      · rename_i h
        simpa using h
      · have hne := List.length_pos_iff.mpr (ofNat_ne_nil (n / 10))
        rw [List.length_append, List.length_singleton]
        omega
  | succ k ih =>
      have hpow : 10 ^ (k + 2) = 10 ^ (k + 1) * 10 := pow_succ 10 (k + 1)
      have hpos : 0 < 10 ^ (k + 1) := Nat.pow_pos (by decide)
      rw [ofNat]
      split
      · rw [List.length_singleton]
        omega
      · rw [List.length_append, List.length_singleton, Nat.add_le_add_iff_right, ih, hpow,
          Nat.div_lt_iff_lt_mul (by decide)]

theorem upTo?_eq_some_iff {k n : Nat} {text : Bytes} : upTo? k text = some n ↔
    text ≠ [] ∧ text.length ≤ k ∧ (∀ b ∈ text, isDigit b = true) ∧ value text = n := by
  rw [upTo?, nat?]
  split
  · rename_i hle
    simp [hle, and_assoc]
  · rename_i hlt
    simp [hlt]

/-- The digits of a number are taken where there are not too many of them. -/
theorem upTo?_ofNat (k n : Nat) :
    upTo? (k + 1) (ofNat n) = if n < 10 ^ (k + 1) then some n else none := by
  rw [upTo?, nat?_ofNat]
  simp only [length_ofNat_le_iff]

/-- No canonical text of a natural number begins with a minus sign. -/
theorem ofNat_ne_minus (n : Nat) (rest : Bytes) : ofNat n ≠ 0x2D :: rest := by
  intro h
  have hall := all_isDigit_ofNat n
  rw [h, List.all_cons, Bool.and_eq_true] at hall
  exact absurd hall.1 (by decide)

theorem int64?_ofNat (n : Nat) : int64? (ofNat n) = inInt64? n := by
  rw [int64?]
  · rw [nat?_ofNat]
    rfl
  · intro digits h
    exact ofNat_ne_minus n digits h

/-- What is written of an integer in the range reads back. -/
theorem int64?_ofInt {n : Int} (low : -9223372036854775808 ≤ n) (high : n ≤ 9223372036854775807) :
    int64? (ofInt n) = some (Int64.ofInt n) := by
  have hrange : inInt64? n = some (Int64.ofInt n) := by
    rw [inInt64?, if_pos (by simp [low, high])]
  cases n with
  | ofNat n => exact (int64?_ofNat n).trans hrange
  | negSucc n =>
      rw [ofInt, int64?, nat?_ofNat, Option.bind_some, ← hrange]
      exact congrArg inInt64? (Int.negSucc_eq n).symm

theorem int64?_toInt (n : Int64) : int64? (ofInt n.toInt) = some n := by
  have low := n.le_toInt
  have high := n.toInt_lt
  rw [int64?_ofInt (by omega) (by omega), Int64.ofInt_toInt]

/-! ## Numbers in front of a text -/

/-- The signs that a number can have. -/
def signs : Bool → List Bytes
  | true => [[0x2D]]
  | false => [[], [0x2B]]

/-- A text begins with a number: blanks, one of its signs, and as many digits as there are. -/
def BeginsWith (text : Bytes) (number : Leading) : Prop :=
  ∃ blanks sign digits, text = blanks ++ (sign ++ (digits ++ number.rest)) ∧
    (∀ b ∈ blanks, isBlank b = true) ∧ sign ∈ signs number.negative ∧
    digits ≠ [] ∧ (∀ b ∈ digits, isDigit b = true) ∧
    (∀ b ∈ number.rest.head?, isDigit b = false) ∧ value digits = number.magnitude

theorem beginsWith_of_leading? {text : Bytes} {number : Leading}
    (h : leading? text = some number) : BeginsWith text number := by
  rw [leading?] at h
  split at h
  rename_i negative body hsign
  have hbody : ∃ sign ∈ signs negative, trimLeft text = sign ++ body := by
    split at hsign
    · rename_i htrim
      cases hsign
      exact ⟨[0x2D], by decide, htrim⟩
    · rename_i htrim
      cases hsign
      exact ⟨[0x2B], by decide, htrim⟩
    · cases hsign
      exact ⟨[], by decide, rfl⟩
  obtain ⟨sign, hmem, htrim⟩ := hbody
  by_cases hdigits : body.takeWhile isDigit = []
  · rw [hdigits] at h
    cases h
  · simp only [List.isEmpty_eq_false_iff.mpr hdigits, Bool.false_eq_true, if_false,
      Option.some.injEq] at h
    subst h
    refine ⟨text.takeWhile isBlank, sign, body.takeWhile isDigit, ?_,
      fun b hb => List.mem_takeWhile_imp hb, hmem, hdigits,
      fun b hb => List.mem_takeWhile_imp hb, fun b hb => ?_, rfl⟩
    · rw [List.takeWhile_append_dropWhile, ← htrim, trimLeft, List.takeWhile_append_dropWhile]
    · have hnot := List.head?_dropWhile_not isDigit body
      rw [hb] at hnot
      exact hnot

theorem leading?_of_beginsWith {text : Bytes} {number : Leading} (h : BeginsWith text number) :
    leading? text = some number := by
  obtain ⟨negative, magnitude, rest⟩ := number
  obtain ⟨blanks, sign, digits, rfl, hblanks, hsign, hne, hdigits, hrest, rfl⟩ := h
  obtain ⟨hhead, htail⟩ := takeWhile_dropWhile_append hdigits hrest
  obtain ⟨d, digits, rfl⟩ := List.exists_cons_of_ne_nil hne
  have hd : isDigit d = true := hdigits d List.mem_cons_self
  -- Neither a sign nor a digit is blank, so trimming stops in front of them.
  have htrim : ∀ b body, isBlank b = false → trimLeft (blanks ++ b :: body) = b :: body :=
    fun b body hb => (takeWhile_dropWhile_append hblanks fun c hc => by
      cases hc
      exact hb).2
  cases negative with
  | true =>
      obtain rfl := List.mem_singleton.mp hsign
      rw [leading?, List.singleton_append, htrim 0x2D _ (by decide)]
      simp only [hhead, htail]
      rfl
  | false =>
      have hsigns : sign = [] ∨ sign = [0x2B] := by simpa [signs] using hsign
      rcases hsigns with rfl | rfl
      · rw [leading?, List.nil_append, List.cons_append, htrim d _ (isBlank_of_isDigit hd)]
        split
        rename_i negative body hbody
        split at hbody
        · rename_i heq
          cases heq
          cases hd
        · rename_i heq
          cases heq
          cases hd
        · cases hbody
          rw [← List.cons_append]
          simp only [hhead, htail]
          rfl
      · rw [leading?, List.singleton_append, htrim 0x2B _ (by decide)]
        simp only [hhead, htail]
        rfl

theorem leading?_eq_some_iff {text : Bytes} {number : Leading} :
    leading? text = some number ↔ BeginsWith text number :=
  ⟨beginsWith_of_leading?, leading?_of_beginsWith⟩

/-- The canonical text of a number begins with it, and nothing follows. -/
theorem leading?_ofNat (n : Nat) : leading? (ofNat n) = some ⟨false, n, []⟩ := by
  have hdigits : ∀ b ∈ ofNat n, isDigit b = true := List.all_eq_true.mp (all_isDigit_ofNat n)
  exact leading?_of_beginsWith ⟨[], [], ofNat n, (List.append_nil _).symm, List.forall_mem_nil _,
    List.mem_cons_self, ofNat_ne_nil n, hdigits, by simp, value_ofNat n⟩

/-- The leading digits of a number make up a number again, and not zero unless it is zero. -/
theorem exists_ofNat_of_prefix {digits : Bytes} {n : Nat} (hne : digits ≠ [])
    (hp : digits <+: ofNat n) : ∃ m, digits = ofNat m ∧ (0 < n → 0 < m) := by
  induction n using ofNat.induct with
  | case1 n h =>
      rw [ofNat, if_pos h, List.prefix_cons_iff] at hp
      rcases hp with rfl | ⟨rest, rfl, hrest⟩
      · exact absurd rfl hne
      · rw [List.prefix_nil.mp hrest]
        exact ⟨n, by rw [ofNat, if_pos h], id⟩
  | case2 n h ih =>
      rw [ofNat, if_neg h, List.prefix_concat_iff] at hp
      rcases hp with rfl | hp
      · exact ⟨n, by rw [ofNat.eq_1 n, if_neg h], id⟩
      · obtain ⟨m, rfl, hm⟩ := ih hp
        exact ⟨m, rfl, fun _ => hm (by omega)⟩

theorem toInt_of_inInt64? {n : Int} {m : Int64} (h : inInt64? n = some m) : m.toInt = n := by
  rw [inInt64?] at h
  split at h
  · rename_i hrange
    simp only [Bool.and_eq_true, decide_eq_true_eq] at hrange
    cases h
    exact Int64.toInt_ofInt_of_le (by omega) (by omega)
  · cases h

/-- What is read of the beginning of a written number is written in the same way. -/
theorem eq_ofInt_of_int64? {start : Bytes} {n : Int} {m : Int64} (hp : start <+: ofInt n)
    (h : int64? start = some m) : start = ofInt m.toInt := by
  cases n with
  | ofNat n =>
      have hne : start ≠ [] := by
        rintro rfl
        cases h
      obtain ⟨k, rfl, -⟩ := exists_ofNat_of_prefix hne hp
      rw [int64?_ofNat] at h
      rw [toInt_of_inInt64? h]
      rfl
  | negSucc n =>
      rcases List.prefix_cons_iff.mp hp with rfl | ⟨digits, rfl, hdigits⟩
      · cases h
      · have hne : digits ≠ [] := by
          rintro rfl
          cases h
        obtain ⟨k, rfl, hk⟩ := exists_ofNat_of_prefix hne hdigits
        obtain ⟨k, rfl⟩ := Nat.exists_eq_succ_of_ne_zero (hk (Nat.succ_pos n)).ne'
        rw [int64?, nat?_ofNat, Option.bind_some] at h
        rw [toInt_of_inInt64? h]
        rfl

/-! ## Numbers of a fixed width -/

theorem padded_succ_succ (w n : Nat) :
    padded (w + 2) n = padded (w + 1) (n / 10) ++ [digit (n % 10)] := by
  by_cases h : n < 10
  · have hzero : ofNat (n / 10) = [0x30] := by
      rw [Nat.div_eq_of_lt h, ofNat, if_pos (by decide)]
      rfl
    have hn : ofNat n = [digit n] := by
      rw [ofNat, if_pos h]
    rw [padded, padded, hzero, hn, Nat.mod_eq_of_lt h]
    simp only [List.length_singleton, Nat.succ_sub_one]
    rw [List.replicate_succ']
  · have hlength : (ofNat n).length = (ofNat (n / 10)).length + 1 := by
      rw [ofNat.eq_1 n, if_neg h, List.length_append, List.length_singleton]
    rw [padded, padded, hlength, ofNat.eq_1 n, if_neg h, ← List.append_assoc]
    simp only [Nat.reduceSubDiff]

theorem padded_one {n : Nat} (h : n < 10) : padded 1 n = [digit n] := by
  rw [padded, ofNat, if_pos h]
  rfl

theorem length_padded {w n : Nat} (h : n < 10 ^ (w + 1)) : (padded (w + 1) n).length = w + 1 := by
  have hle := length_ofNat_le_iff.mpr h
  rw [padded, List.length_append, List.length_replicate]
  omega

theorem isDigit_of_mem_padded {w n : Nat} {b : UInt8} (h : b ∈ padded w n) : isDigit b = true := by
  rcases List.mem_append.mp h with hzero | hdigit
  · rw [List.eq_of_mem_replicate hzero]
    rfl
  · exact List.all_eq_true.mp (all_isDigit_ofNat n) b hdigit

theorem value_padded {w n : Nat} (h : n < 10 ^ (w + 1)) : value (padded (w + 1) n) = n := by
  induction w generalizing n with
  | zero =>
      rw [padded_one (by simpa using h)]
      simp [value, toNat_digit (by simpa using h)]
  | succ w ih =>
      have hdiv : n / 10 < 10 ^ (w + 1) := by
        rw [pow_succ] at h
        omega
      rw [padded_succ_succ, value_append_digit, ih hdiv, toNat_digit (Nat.mod_lt n (by decide))]
      omega

theorem digit_lt_digit {n m : Nat} (h : n < m) (hm : m < 10) : digit n < digit m := by
  rw [UInt8.lt_iff_toNat_lt, toNat_digit (h.trans hm), toNat_digit hm]
  omega

/-- Numbers of the same width compare like their texts. -/
theorem padded_lt_padded {w n m : Nat} (h : n < m) (hm : m < 10 ^ (w + 1)) :
    padded (w + 1) n < padded (w + 1) m := by
  induction w generalizing n m with
  | zero =>
      have hten : m < 10 := by simpa using hm
      rw [padded_one (h.trans hten), padded_one hten, List.cons_lt_cons_iff]
      exact .inl (digit_lt_digit h hten)
  | succ w ih =>
      have hdiv : m / 10 < 10 ^ (w + 1) := by
        rw [pow_succ] at hm
        omega
      have hlength : (padded (w + 1) (n / 10)).length = (padded (w + 1) (m / 10)).length := by
        rw [length_padded hdiv, length_padded (by omega)]
      rw [padded_succ_succ, padded_succ_succ, append_lt_append_iff hlength]
      rcases Nat.lt_or_ge (n / 10) (m / 10) with hlt | hge
      · exact .inl (ih hlt hdiv)
      · have heq : n / 10 = m / 10 := by omega
        rw [heq]
        refine .inr ⟨rfl, List.cons_lt_cons_iff.mpr (.inl ?_)⟩
        refine digit_lt_digit ?_ (Nat.mod_lt m (by decide))
        omega

end Decimal

end ResolverLog
