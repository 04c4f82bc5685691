import ResolverLog.Proofs.Base64Text

/-!
# Base64 slot by slot

Writer and reader as loops over a position. The writer packs three bytes into one
number and looks the characters of its sextets up in the alphabet. The reader goes
through the four slots of a quantum one by one, counts the padding it meets, packs
the sextets into one number and takes as many bytes off it as the padding leaves.
They write and read as `encode` and `decode` do, with the same faults.
-/

namespace ResolverLog

namespace Base64

open Bytes

variable {a b c d : UInt8} {data text done : Bytes} {last : Bool} {slot i : Nat}

/-! ## Writing -/

/-- Three bytes as one number. -/
def packed (a b c : UInt8) : UInt32 :=
  a.toUInt32 <<< 16 ||| b.toUInt32 <<< 8 ||| c.toUInt32

/-- The character for the six bits of a number from a shift on. -/
def characterAt (number shift : UInt32) : UInt8 :=
  alphabet.getD (number >>> shift &&& 0x3F).toNat 0

/-- Writes a payload on from a position, behind what has been written of it. -/
def encodeAt (data done : Bytes) (i : Nat) : Bytes :=
  if h : i + 3 ≤ data.length then
    let x := packed data[i] data[i + 1] data[i + 2]
    encodeAt data
      (done ++ [characterAt x 18, characterAt x 12, characterAt x 6, characterAt x 0]) (i + 3)
  else if h : data.length - i = 1 then
    let x := packed data[i] 0 0
    done ++ [characterAt x 18, characterAt x 12, pad, pad]
  else if h : data.length - i = 2 then
    let x := packed data[i] data[i + 1] 0
    done ++ [characterAt x 18, characterAt x 12, characterAt x 6, pad]
  else done
termination_by data.length - i

/-- The six lowest bits of a number are in its lowest byte. -/
theorem toNat_and_six (number shift : UInt32) :
    (number >>> shift &&& 0x3F).toNat = ((number >>> shift).toUInt8 &&& 0x3F).toNat := by
  have hsix (n : Nat) : n &&& 63 = n % 64 := Nat.and_two_pow_sub_one_eq_mod n 6
  calc
    (number >>> shift &&& 0x3F).toNat = (number >>> shift).toNat % 64 := hsix _
    _ = (number >>> shift).toNat % 256 % 64 := by
      rw [Nat.mod_mod_of_dvd _ (by decide)]
    _ = ((number >>> shift).toUInt8 &&& 0x3F).toNat := (hsix _).symm

theorem characterAt_eq (number shift : UInt32) :
    characterAt number shift = symbol ((number >>> shift).toUInt8 &&& 0x3F) := by
  rw [characterAt, toNat_and_six, List.getD_eq_getElem?_getD, getElem?_alphabet (fourth_lt _)]
  rfl

/-- The four characters of a packed number are those of its bytes. -/
theorem characterAt_packed (a b c : UInt8) :
    characterAt (packed a b c) 18 = first a ∧ characterAt (packed a b c) 12 = second a b ∧
      characterAt (packed a b c) 6 = third b c ∧ characterAt (packed a b c) 0 = fourth c := by
  simp only [characterAt_eq, first, second, third, fourth, packed]
  refine ⟨?_, ?_, ?_, ?_⟩
  all_goals
    apply congrArg symbol
    apply ext_bits
    intro i hi
    interval_cases i <;> simp

/-- The loop of the writer writes what is left of the payload. -/
theorem encodeAt_eq (data done : Bytes) (i : Nat) :
    encodeAt data done i = done ++ encode (data.drop i) := by
  fun_induction encodeAt data done i with
  | case1 done i h x ih =>
      obtain ⟨h18, h12, h6, h0⟩ := characterAt_packed data[i] data[i + 1] data[i + 2]
      have hdrop : data.drop i = data[i] :: data[i + 1] :: data[i + 2] :: data.drop (i + 3) := by
        rw [List.drop_eq_getElem_cons, List.drop_eq_getElem_cons, List.drop_eq_getElem_cons]
      rw [ih, hdrop, encode_cons, h18, h12, h6, h0]
      simp
  | case2 done i hshort h x =>
      obtain ⟨h18, h12, -, -⟩ := characterAt_packed data[i] 0 0
      have hdrop : data.drop i = [data[i]] := by
        rw [List.drop_eq_getElem_cons (by omega), List.drop_eq_nil_of_le (by omega)]
      rw [hdrop, h18, h12]
      rfl
  | case3 done i hshort hone h x =>
      obtain ⟨h18, h12, h6, -⟩ := characterAt_packed data[i] data[i + 1] 0
      have hdrop : data.drop i = [data[i], data[i + 1]] := by
        rw [List.drop_eq_getElem_cons (by omega), List.drop_eq_getElem_cons (by omega),
          List.drop_eq_nil_of_le (by omega)]
      rw [hdrop, h18, h12, h6]
      rfl
  | case4 done i hshort hone htwo =>
      rw [List.drop_eq_nil_of_le (by omega)]
      exact (List.append_nil done).symm

/-! ## Reading -/

/-- The values of the slots of a quantum so far, and how many of them were padding. -/
structure Slots where
  values : List UInt32
  pads : Nat

/-- Takes the character of the next slot. Padding may stand in the last two slots of the last
quantum only, and no data behind it. -/
def Slots.take (last : Bool) (s : Slots) (slot : Nat) (c : UInt8) : Except Error Slots :=
  if c = pad then
    if last = false ∨ slot < 2 then .error .misplacedPadding
    else .ok ⟨s.values ++ [0], s.pads + 1⟩
  else if 0 < s.pads then .error .dataAfterPadding
  else match sextet? c with
    | some v => .ok ⟨s.values ++ [v.toUInt32], s.pads⟩
    | none => .error .badCharacter

/-- The values of four slots as one number. -/
def Slots.number (s : Slots) : UInt32 :=
  s.values.getD 0 0 <<< 18 ||| s.values.getD 1 0 <<< 12 ||| s.values.getD 2 0 <<< 6
    ||| s.values.getD 3 0

/-- The bytes of four slots, as many as the padding leaves. -/
def Slots.bytes (s : Slots) : Bytes :=
  (s.number >>> 16).toUInt8 ::
    ((if s.pads < 2 then [(s.number >>> 8).toUInt8] else [])
      ++ if s.pads < 1 then [s.number.toUInt8] else [])

/-- The slots of the quantum at a position. -/
def slotsAt (text : Bytes) (i : Nat) : Except Error Slots :=
  (List.range 4).foldlM (fun s slot =>
    s.take (i + 4 == text.length) slot (text.getD (i + slot) 0)) ⟨[], 0⟩

/-- Reads a text on from a position, behind what has been read of it. -/
def decodeAt (text done : Bytes) (i : Nat) : Except Error Bytes :=
  if i < text.length then
    match slotsAt text i with
    | .ok s => decodeAt text (done ++ s.bytes) (i + 4)
    | .error e => .error e
  else .ok done
termination_by text.length - i

/-- The payload that a base64 text stands for, read slot by slot. -/
def decodeSlots (text : Bytes) : Except Error Bytes :=
  if text.length % 4 ≠ 0 then .error .badLength else decodeAt text [] 0

/-- A character is taken as data wherever it may not be padding. -/
theorem Slots.take_data (values : List UInt32) (h : slot < 2 ∨ (last && c == pad) = false) :
    take last ⟨values, 0⟩ slot c = (sextet c).map fun v => ⟨values ++ [v.toUInt32], 0⟩ := by
  rw [take, sextet]
  by_cases hpad : c = pad
  · have hplace : last = false ∨ slot < 2 := by
      rcases h with hslot | hlast
      · exact .inr hslot
      · exact .inl (by simpa [hpad] using hlast)
    rw [if_pos hpad, if_pos hplace, if_pos (by simpa using hpad)]
    rfl
  · rw [if_neg hpad, if_neg (Nat.lt_irrefl 0), if_neg (by simpa using hpad)]
    cases sextet? c with
    | none => rfl
    | some v => rfl

theorem Slots.take_pad (s : Slots) (h : 2 ≤ slot) :
    s.take true slot pad = .ok ⟨s.values ++ [0], s.pads + 1⟩ := by
  rw [take, if_pos rfl, if_neg (by simp; omega)]

theorem Slots.take_behind_pad {s : Slots} (hpads : 0 < s.pads) (h : c ≠ pad) :
    s.take last slot c = .error .dataAfterPadding := by
  rw [take, if_neg h, if_pos hpads]

/-- The bytes that are taken off four packed sextets are put together from them. -/
theorem Slots.bytes_eq (v w x y : UInt8) (pads : Nat) :
    bytes ⟨[v.toUInt32, w.toUInt32, x.toUInt32, y.toUInt32], pads⟩
      = byteOne v w :: ((if pads < 2 then [byteTwo w x] else [])
        ++ if pads < 1 then [byteThree x y] else []) := by
  have hbytes : let n := number ⟨[v.toUInt32, w.toUInt32, x.toUInt32, y.toUInt32], pads⟩
      (n >>> 16).toUInt8 = byteOne v w ∧ (n >>> 8).toUInt8 = byteTwo w x ∧
        n.toUInt8 = byteThree x y := by
    simp only [number, byteOne, byteTwo, byteThree]
    refine ⟨?_, ?_, ?_⟩
    all_goals
      apply ext_bits
      intro i hi
      interval_cases i <;> simp
  obtain ⟨hone, htwo, hthree⟩ := hbytes
  rw [bytes, hone, htwo, hthree]

/-- Behind padding in the third slot only padding may come. -/
theorem Slots.take_third_pad (v w d : UInt8) :
    (do
      let s ← take true ⟨[v.toUInt32, w.toUInt32], 0⟩ 2 pad
      s.take true 3 d).map bytes
      = if d == pad then .ok [byteOne v w] else .error .dataAfterPadding := by
  rw [take_pad _ (Nat.le_refl 2)]
  change (take true ⟨[v.toUInt32, w.toUInt32, 0], 1⟩ 3 d).map bytes = _
  by_cases hpad : d = pad
  · rw [hpad, take_pad _ (by omega)]
    exact congrArg Except.ok (bytes_eq v w 0 0 2)
  · rw [take_behind_pad Nat.one_pos hpad, beq_false_of_ne hpad]
    rfl

/-- Behind data in the third slot padding may come at the end, and else more data. -/
theorem Slots.take_third_data (h : (last && c == pad) = false) (v w d : UInt8) :
    (do
      let s ← take last ⟨[v.toUInt32, w.toUInt32], 0⟩ 2 c
      s.take last 3 d).map bytes
      = (do
        let x ← sextet c
        if last && d == pad then return [byteOne v w, byteTwo w x]
        let y ← sextet d
        return [byteOne v w, byteTwo w x, byteThree x y]) := by
  rw [take_data _ (.inr h)]
  cases sextet c with
  | error e => rfl
  | ok x =>
      change (take last ⟨[v.toUInt32, w.toUInt32, x.toUInt32], 0⟩ 3 d).map bytes = _
      by_cases hpad : (last && d == pad) = true
      · obtain ⟨rfl, rfl⟩ : last = true ∧ d = pad := by simpa using hpad
        rw [take_pad _ (by omega)]
        exact congrArg Except.ok (bytes_eq v w x 0 1)
      · have hdata : (last && d == pad) = false := by simpa using hpad
        rw [take_data _ (.inr hdata), hdata]
        cases sextet d with
        | error e => rfl
        | ok y => exact congrArg Except.ok (bytes_eq v w x y 0)

/-- Four slots one after the other are read as their quantum, with the same fault. -/
theorem Slots.take_four (last : Bool) (a b c d : UInt8) :
    (do
      let s ← take last ⟨[], 0⟩ 0 a
      let s ← s.take last 1 b
      let s ← s.take last 2 c
      s.take last 3 d).map bytes = quantum last a b c d := by
  rw [quantum, take_data [] (.inl (by omega))]
  cases sextet a with
  | error e => rfl
  | ok v =>
      change (do
        let s ← take last ⟨[v.toUInt32], 0⟩ 1 b
        let s ← s.take last 2 c
        s.take last 3 d).map bytes = _
      rw [take_data _ (.inl (by omega))]
      cases sextet b with
      | error e => rfl
      | ok w =>
          change (do
            let s ← take last ⟨[v.toUInt32, w.toUInt32], 0⟩ 2 c
            s.take last 3 d).map bytes = _
          by_cases hpad : (last && c == pad) = true
          · obtain ⟨rfl, rfl⟩ : last = true ∧ c = pad := by simpa using hpad
            rw [take_third_pad]
            rfl
          · have hdata : (last && c == pad) = false := by simpa using hpad
            rw [take_third_data hdata, hdata]
            rfl

/-- The slots of the quantum at a position are read as the quantum. -/
theorem slotsAt_eq {rest : Bytes} (h : text.drop i = a :: b :: c :: d :: rest) :
    (slotsAt text i).map Slots.bytes = quantum rest.isEmpty a b c d := by
  have hslot (slot : Nat) : text.getD (i + slot) 0 = (a :: b :: c :: d :: rest).getD slot 0 := by
    rw [← h, List.getD_eq_getElem?_getD, List.getD_eq_getElem?_getD, List.getElem?_drop]
  have hlast : (i + 4 == text.length) = rest.isEmpty := by
    have hlength := congrArg List.length h
    simp only [List.length_drop, List.length_cons] at hlength
    rw [Bool.eq_iff_iff, beq_iff_eq, List.isEmpty_iff_length_eq_zero]
    omega
  rw [← Slots.take_four, slotsAt]
  have hrange : List.range 4 = [0, 1, 2, 3] := rfl
  simp only [hslot, hlast, hrange, List.foldlM_cons, List.foldlM_nil, bind_pure]
  rfl

/-- Before the end of a text of whole quanta there is a whole quantum. -/
theorem exists_quantum_of_drop (h : (text.length - i) % 4 = 0) (hlt : i < text.length) :
    ∃ a b c d rest, text.drop i = a :: b :: c :: d :: rest := by
  rw [List.drop_eq_getElem_cons hlt, List.drop_eq_getElem_cons (by omega),
    List.drop_eq_getElem_cons (by omega), List.drop_eq_getElem_cons (by omega)]
  exact ⟨_, _, _, _, _, rfl⟩

/-- The loop of the reader reads what is left of the text. -/
theorem decodeAt_eq (text done : Bytes) (i : Nat) (h : (text.length - i) % 4 = 0) :
    decodeAt text done i = decodeFrom done.reverse (text.drop i) := by
  fun_induction decodeAt text done i with
  | case1 done i hlt s hs ih =>
      obtain ⟨a, b, c, d, rest, hdrop⟩ := exists_quantum_of_drop h hlt
      have hquantum := slotsAt_eq hdrop
      have hrest : text.drop (i + 4) = rest := by
        rw [← List.drop_drop, hdrop]
        rfl
      rw [hs] at hquantum
      rw [ih (by omega), hdrop, decodeFrom, ← hquantum, hrest]
      simp [Except.map]
  | case2 done i hlt e hs =>
      obtain ⟨a, b, c, d, rest, hdrop⟩ := exists_quantum_of_drop h hlt
      have hquantum := slotsAt_eq hdrop
      rw [hs] at hquantum
      rw [hdrop, decodeFrom, ← hquantum]
      rfl
  | case3 done i hend =>
      rw [List.drop_eq_nil_of_le (by omega)]
      simp [decodeFrom]

theorem decodeSlots_eq (text : Bytes) : decodeSlots text = decode text := by
  rw [decodeSlots, decode]
  by_cases hwhole : text.length % 4 = 0
  · rw [if_neg (by simpa using hwhole), if_pos (by simpa using hwhole)]
    exact decodeAt_eq text [] 0 hwhole
  · rw [if_pos hwhole, if_neg (by simpa using hwhole)]

/-! ## Base64 as a whole -/

/-- What is written reads back and is four characters long for every three bytes begun, with the
bits of the payload in it. A text is read exactly when it is a padded run in whole quanta, and
refused otherwise. What it is read as has the first bits of the run, three bytes for every quantum
but one less for every padding character. -/
theorem reads_exactly_padded :
    (∀ data, encodeAt data [] 0 = encode data ∧ decode (encode data) = .ok data ∧
      (encode data).length = 4 * ((data.length + 2) / 3) ∧
      ∃ run pads, IsPadded (encode data) run pads ∧
        sextets run = octets data ++ List.replicate (2 * pads) false) ∧
    ∀ text, decodeSlots text = decode text ∧
      ((∃ data, decode text = .ok data) ↔ ∃ run pads, IsPadded text run pads) ∧
      ((∃ e, decode text = .error e) ↔ ¬∃ run pads, IsPadded text run pads) ∧
      ∀ data, decode text = .ok data ↔ ∃ run, IsPadded text run (text.count pad) ∧
        data.length + text.count pad = 3 * text.length / 4 ∧ octets data <+: sextets run := by
  constructor
  · intro data
    exact ⟨encodeAt_eq data [] 0, decode_encode data, length_encode data,
      exists_isPadded_encode data⟩
  · intro text
    refine ⟨decodeSlots_eq text, exists_decode_iff, ?_, ?_⟩
    · rw [← exists_decode_iff]
      cases decode text with
      | ok data => simp
      | error e => simp
    · intro data
      rw [decode_eq_ok_iff]
      constructor
      · rintro ⟨run, pads, hpadded, hlength, hbits⟩
        rw [hpadded.count_pad]
        exact ⟨run, hpadded, hlength, hbits⟩
      · rintro ⟨run, hread⟩
        exact ⟨run, _, hread⟩

/-- The bits that padding leaves over are not looked at. -/
example : decode (ascii "QR==") = decode (ascii "QQ==") := by
  decide

end Base64

end ResolverLog
