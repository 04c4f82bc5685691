import ResolverLog.Proofs.Base64
import ResolverLog.Proofs.Results
import Mathlib.Data.List.Nodup

/-!
# Which texts are base64

A text is read when it is made of whole quanta and is a run of characters of the
alphabet with at most two padding characters behind it. Every character of the run
carries six bits, its place in the alphabet. The bits of the payload are those of
the run, one after the other, but for the few that padding leaves over, and in a
written text these are all zero.
-/

namespace ResolverLog

namespace Base64

open Bytes

variable {a b c d v w x y : UInt8} {text run data : Bytes} {pads : Nat}

/-! ## The alphabet -/

/-- The characters in the order of their values. -/
def alphabet : Bytes :=
  ascii "ABCDEFGHIJKLMNOPQRSTUVWXYZabcdefghijklmnopqrstuvwxyz0123456789+/"

theorem alphabet_eq : alphabet = (List.range 64).map fun n => symbol (UInt8.ofNat n) := by
  decide

theorem getElem?_alphabet (h : v.toNat < 64) : alphabet[v.toNat]? = some (symbol v) := by
  rw [alphabet_eq, List.getElem?_map, List.getElem?_range h, Option.map_some, UInt8.ofNat_toNat]

/-- A character stands for one value only, and it is the character of this value. -/
theorem symbol_of_sextet? (h : sextet? c = some v) : v.toNat < 64 ∧ symbol v = c := by
  have hall : ∀ v ∈ sextet? c, v.toNat < 64 ∧ symbol v = c :=
    forall_of_forall_ofNat (fun c => ∀ v ∈ sextet? c, v.toNat < 64 ∧ symbol v = c)
      (by decide +kernel) c.toNat_lt
  exact hall v h

theorem mem_alphabet_iff : c ∈ alphabet ↔ ∃ v, sextet? c = some v := by
  constructor
  · intro h
    rw [alphabet_eq, List.mem_map] at h
    obtain ⟨n, hn, rfl⟩ := h
    have hlt : (UInt8.ofNat n).toNat < 64 := by
      rw [List.mem_range] at hn
      simp
      omega
    exact ⟨_, sextet?_symbol hlt⟩
  · rintro ⟨v, hv⟩
    obtain ⟨hlt, rfl⟩ := symbol_of_sextet? hv
    exact List.mem_of_getElem? (getElem?_alphabet hlt)

theorem nodup_alphabet : alphabet.Nodup := by
  rw [alphabet_eq]
  apply List.Nodup.map_on _ List.nodup_range
  intro n hn m hm h
  have hvalue : ∀ n ∈ List.range 64, sextet? (symbol (UInt8.ofNat n)) = some (UInt8.ofNat n) := by
    decide
  have hbyte : UInt8.ofNat n = UInt8.ofNat m := by
    rw [← Option.some.injEq, ← hvalue n hn, ← hvalue m hm, h]
  have hnat := congrArg UInt8.toNat hbyte
  rw [List.mem_range] at hn hm
  simp at hnat
  omega

/-- The value of a character is its place in the alphabet. -/
theorem idxOf_of_sextet? (h : sextet? c = some v) : alphabet.idxOf c = v.toNat := by
  obtain ⟨hlt, rfl⟩ := symbol_of_sextet? h
  obtain ⟨hplace, hsymbol⟩ := List.getElem?_eq_some_iff.mp (getElem?_alphabet hlt)
  rw [← hsymbol]
  exact nodup_alphabet.idxOf_getElem v.toNat hplace

theorem pad_notMem_alphabet : pad ∉ alphabet := by
  rw [mem_alphabet_iff]
  rintro ⟨v, hv⟩
  cases hv

/-! ## Bits -/

/-- The lowest bits of a number, the highest of them first. -/
def bits (width n : Nat) : List Bool :=
  (List.range width).reverse.map n.testBit

/-- The bits of a payload. -/
def octets (data : Bytes) : List Bool :=
  data.flatMap fun b => bits 8 b.toNat

/-- The bits of a run of characters, six for each. -/
def sextets (run : Bytes) : List Bool :=
  run.flatMap fun c => bits 6 (alphabet.idxOf c)

/-- The bytes that are put together from two sextets one behind the other. -/
def byteOne (v w : UInt8) : UInt8 := v <<< 2 ||| w >>> 4

@[inherit_doc byteOne]
def byteTwo (w x : UInt8) : UInt8 := (w &&& 0x0F) <<< 4 ||| x >>> 2

@[inherit_doc byteOne]
def byteThree (x y : UInt8) : UInt8 := (x &&& 0x03) <<< 6 ||| y

theorem bits_toNat (width : Nat) (b : UInt8) :
    bits width b.toNat = (List.range width).reverse.map b.toBitVec.getLsbD := rfl

/-- A sextet has no bits above its six. -/
theorem upper_of_toNat_lt (h : v.toNat < 64) :
    v.toBitVec[6] = false ∧ v.toBitVec[7] = false := by
  constructor
  · have hlt : v.toNat < 2 ^ 6 := h
    exact Nat.testBit_lt_two_pow hlt
  · have hlt : v.toNat < 2 ^ 7 := by omega
    exact Nat.testBit_lt_two_pow hlt

theorem bits_byteOne (v : UInt8) (hw : w.toNat < 64) :
    bits 6 v.toNat ++ bits 6 w.toNat = bits 8 (byteOne v w).toNat ++ bits 4 w.toNat := by
  obtain ⟨h6, h7⟩ := upper_of_toNat_lt hw
  simp only [bits_toNat]
  simp [List.range_succ, byteOne, h6, h7]

theorem bits_byteTwo (w : UInt8) (hx : x.toNat < 64) :
    bits 4 w.toNat ++ bits 6 x.toNat = bits 8 (byteTwo w x).toNat ++ bits 2 x.toNat := by
  obtain ⟨h6, h7⟩ := upper_of_toNat_lt hx
  simp only [bits_toNat]
  simp [List.range_succ, byteTwo, h6, h7]

theorem bits_byteThree (x : UInt8) (hy : y.toNat < 64) :
    bits 2 x.toNat ++ bits 6 y.toNat = bits 8 (byteThree x y).toNat := by
  obtain ⟨h6, h7⟩ := upper_of_toNat_lt hy
  simp only [bits_toNat]
  simp [List.range_succ, byteThree, h6, h7]

theorem length_bits (width n : Nat) : (bits width n).length = width := by
  simp [bits]

theorem bits_inj {b c : UInt8} (h : bits 8 b.toNat = bits 8 c.toNat) : b = c := by
  have hbits : ∀ i < 8, b.toNat.testBit i = c.toNat.testBit i := by
    simpa [bits] using h
  apply ext_bits
  intro i hi
  exact hbits i hi

theorem octets_cons (b : UInt8) (data : Bytes) :
    octets (b :: data) = bits 8 b.toNat ++ octets data := rfl

theorem octets_append (data other : Bytes) :
    octets (data ++ other) = octets data ++ octets other :=
  List.flatMap_append

theorem length_octets (data : Bytes) : (octets data).length = 8 * data.length := by
  induction data with
  | nil => rfl
  | cons b data ih =>
      rw [octets_cons, List.length_append, length_bits, ih, List.length_cons]
      omega

/-- A payload is known by its bits. -/
theorem octets_inj {other : Bytes} (h : octets data = octets other) : data = other := by
  have hlength := congrArg List.length h
  rw [length_octets, length_octets] at hlength
  induction data generalizing other with
  | nil => exact (List.length_eq_zero_iff.mp (by simpa using hlength.symm)).symm
  | cons b data ih =>
      cases other with
      | nil => simp at hlength
      | cons c other =>
          rw [octets_cons, octets_cons] at h
          obtain ⟨hhead, htail⟩ := List.append_inj h (by rw [length_bits, length_bits])
          simp only [List.length_cons] at hlength
          rw [bits_inj hhead, ih htail (by omega)]

theorem sextets_cons (h : sextet? c = some v) (run : Bytes) :
    sextets (c :: run) = bits 6 v.toNat ++ sextets run := by
  rw [← idxOf_of_sextet? h]
  rfl

/-- Two sextets have the bits of one byte, and four more. -/
theorem sextets_two (ha : sextet? a = some v) (hb : sextet? b = some w) (run : Bytes) :
    sextets (a :: b :: run) = octets [byteOne v w] ++ (bits 4 w.toNat ++ sextets run) := by
  calc
    sextets (a :: b :: run) = (bits 6 v.toNat ++ bits 6 w.toNat) ++ sextets run := by
      rw [sextets_cons ha, sextets_cons hb, List.append_assoc]
    _ = octets [byteOne v w] ++ (bits 4 w.toNat ++ sextets run) := by
      rw [bits_byteOne v (symbol_of_sextet? hb).1, List.append_assoc]
      simp [octets]

/-- Three sextets have the bits of two bytes, and two more. -/
theorem sextets_three (ha : sextet? a = some v) (hb : sextet? b = some w)
    (hc : sextet? c = some x) (run : Bytes) :
    sextets (a :: b :: c :: run)
      = octets [byteOne v w, byteTwo w x] ++ (bits 2 x.toNat ++ sextets run) := by
  calc
    sextets (a :: b :: c :: run)
        = octets [byteOne v w] ++ ((bits 4 w.toNat ++ bits 6 x.toNat) ++ sextets run) := by
      rw [sextets_two ha hb, sextets_cons hc, List.append_assoc]
    _ = octets [byteOne v w, byteTwo w x] ++ (bits 2 x.toNat ++ sextets run) := by
      rw [bits_byteTwo w (symbol_of_sextet? hc).1]
      simp [octets]

/-- Four sextets have the bits of three bytes. -/
theorem sextets_four (ha : sextet? a = some v) (hb : sextet? b = some w)
    (hc : sextet? c = some x) (hd : sextet? d = some y) (run : Bytes) :
    sextets (a :: b :: c :: d :: run)
      = octets [byteOne v w, byteTwo w x, byteThree x y] ++ sextets run := by
  calc
    sextets (a :: b :: c :: d :: run)
        = octets [byteOne v w, byteTwo w x]
          ++ ((bits 2 x.toNat ++ bits 6 y.toNat) ++ sextets run) := by
      rw [sextets_three ha hb hc, sextets_cons hd, List.append_assoc]
    _ = octets [byteOne v w, byteTwo w x, byteThree x y] ++ sextets run := by
      rw [bits_byteThree x (symbol_of_sextet? hd).1]
      simp [octets]

/-! ## Quanta -/

theorem ne_pad_of_sextet? (h : sextet? c = some v) : c ≠ pad := by
  rintro rfl
  cases h

theorem sextet_eq_ok_iff : sextet c = .ok v ↔ sextet? c = some v := by
  rw [sextet]
  by_cases hpad : c = pad
  · rw [if_pos (by simpa using hpad)]
    exact iff_of_false (by simp) fun h => ne_pad_of_sextet? h hpad
  · rw [if_neg (by simpa using hpad)]
    cases sextet? c with
    | none => simp
    | some value => simp

/-- A quantum is read when its first two characters are in the alphabet and its last two are too,
or are padding at the end of the text. -/
theorem quantum_eq_ok_iff {last : Bool} {bytes : Bytes} :
    quantum last a b c d = .ok bytes ↔ ∃ v w, sextet? a = some v ∧ sextet? b = some w ∧
      ((last = true ∧ c = pad ∧ d = pad ∧ bytes = [byteOne v w]) ∨
        ∃ x, sextet? c = some x ∧
          ((last = true ∧ d = pad ∧ bytes = [byteOne v w, byteTwo w x]) ∨
            ∃ y, sextet? d = some y ∧ bytes = [byteOne v w, byteTwo w x, byteThree x y])) := by
  constructor
  · intro h
    obtain ⟨v, ha, hv⟩ := Results.bind_eq_ok_iff.mp h
    obtain ⟨w, hb, hw⟩ := Results.bind_eq_ok_iff.mp hv
    refine ⟨v, w, sextet_eq_ok_iff.mp ha, sextet_eq_ok_iff.mp hb, ?_⟩
    clear h hv
    dsimp only at hw
    split at hw
    · rename_i hthird
      obtain ⟨rfl, rfl⟩ : last = true ∧ c = pad := by simpa using hthird
      split at hw
      · rename_i hfourth
        cases hw
        exact .inl ⟨rfl, rfl, by simpa using hfourth, rfl⟩
      · cases hw
    · obtain ⟨x, hc, hx⟩ := Results.bind_eq_ok_iff.mp hw
      refine .inr ⟨x, sextet_eq_ok_iff.mp hc, ?_⟩
      clear hw
      split at hx
      · rename_i hfourth
        obtain ⟨rfl, rfl⟩ : last = true ∧ d = pad := by simpa using hfourth
        cases hx
        exact .inl ⟨rfl, rfl, rfl⟩
      · obtain ⟨y, hd, hy⟩ := Results.bind_eq_ok_iff.mp hx
        cases hy
        exact .inr ⟨y, sextet_eq_ok_iff.mp hd, rfl⟩
  · rintro ⟨v, w, ha, hb, ⟨rfl, rfl, rfl, rfl⟩ | ⟨x, hc, ⟨rfl, rfl, rfl⟩ | ⟨y, hd, rfl⟩⟩⟩
    · rw [quantum, sextet_eq_ok_iff.mpr ha, sextet_eq_ok_iff.mpr hb]
      rfl
    · have hthird : (c == pad) = false := beq_false_of_ne (ne_pad_of_sextet? hc)
      rw [quantum, sextet_eq_ok_iff.mpr ha, sextet_eq_ok_iff.mpr hb, sextet_eq_ok_iff.mpr hc,
        hthird]
      rfl
    · have hthird : (c == pad) = false := beq_false_of_ne (ne_pad_of_sextet? hc)
      have hfourth : (d == pad) = false := beq_false_of_ne (ne_pad_of_sextet? hd)
      rw [quantum, sextet_eq_ok_iff.mpr ha, sextet_eq_ok_iff.mpr hb, sextet_eq_ok_iff.mpr hc,
        sextet_eq_ok_iff.mpr hd, hthird, hfourth, Bool.and_false]
      rfl

/-- A text and the payload that its quanta make up. -/
inductive Reads : Bytes → Bytes → Prop
  | nil : Reads [] []
  | one {a b v w : UInt8} (ha : sextet? a = some v) (hb : sextet? b = some w) :
      Reads [a, b, pad, pad] [byteOne v w]
  | two {a b c v w x : UInt8} (ha : sextet? a = some v) (hb : sextet? b = some w)
      (hc : sextet? c = some x) : Reads [a, b, c, pad] [byteOne v w, byteTwo w x]
  | three {a b c d v w x y : UInt8} {text data : Bytes} (ha : sextet? a = some v)
      (hb : sextet? b = some w) (hc : sextet? c = some x) (hd : sextet? d = some y)
      (rest : Reads text data) :
      Reads (a :: b :: c :: d :: text) (byteOne v w :: byteTwo w x :: byteThree x y :: data)

theorem Reads.decodeFrom_eq (h : Reads text data) (done : Bytes) :
    decodeFrom done text = .ok (done.reverse ++ data) := by
  induction h generalizing done with
  | nil => simp [decodeFrom]
  | one ha hb =>
      have hquantum := quantum_eq_ok_iff.mpr ⟨_, _, ha, hb, .inl ⟨rfl, rfl, rfl, rfl⟩⟩
      rw [decodeFrom, List.isEmpty_nil, hquantum]
      simp [decodeFrom]
  | two ha hb hc =>
      have hquantum := quantum_eq_ok_iff.mpr
        ⟨_, _, ha, hb, .inr ⟨_, hc, .inl ⟨rfl, rfl, rfl⟩⟩⟩
      rw [decodeFrom, List.isEmpty_nil, hquantum]
      simp [decodeFrom]
  | three ha hb hc hd rest ih =>
      rw [decodeFrom, quantum_eq_ok_iff.mpr ⟨_, _, ha, hb, .inr ⟨_, hc, .inr ⟨_, hd, rfl⟩⟩⟩]
      simp [ih]

theorem reads_of_decodeFrom {done all : Bytes} (hwhole : text.length % 4 = 0)
    (h : decodeFrom done text = .ok all) :
    ∃ data, all = done.reverse ++ data ∧ Reads text data := by
  fun_induction decodeFrom done text with
  | case1 done a b c d rest bytes hquantum ih =>
      simp only [List.length_cons] at hwhole
      obtain ⟨data, rfl, hdata⟩ := ih (by omega) h
      refine ⟨bytes ++ data, by simp, ?_⟩
      obtain ⟨v, w, ha, hb, hlast | ⟨x, hc, hlast | ⟨y, hd, rfl⟩⟩⟩ :=
        quantum_eq_ok_iff.mp hquantum
      · obtain ⟨hempty, rfl, rfl, rfl⟩ := hlast
        obtain rfl := List.isEmpty_iff.mp hempty
        cases hdata
        exact .one ha hb
      · obtain ⟨hempty, rfl, rfl⟩ := hlast
        obtain rfl := List.isEmpty_iff.mp hempty
        cases hdata
        exact .two ha hb hc
      · exact .three ha hb hc hd hdata
  | case2 done a b c d rest e hquantum => cases h
  | case3 text done hshort =>
      cases h
      have hnil : text = [] := by
        rcases text with _ | ⟨a, _ | ⟨b, _ | ⟨c, _ | ⟨d, rest⟩⟩⟩⟩
        · rfl
        · simp at hwhole
        · simp at hwhole
        · simp at hwhole
        · exact absurd rfl (hshort a b c d rest)
      subst hnil
      exact ⟨[], by simp, .nil⟩

/-- A text of whole quanta is read as the payload that its quanta make up. -/
theorem decode_eq_ok_iff_reads :
    decode text = .ok data ↔ text.length % 4 = 0 ∧ Reads text data := by
  rw [decode]
  constructor
  · intro h
    split at h
    · rename_i hwhole
      have hmod : text.length % 4 = 0 := by simpa using hwhole
      obtain ⟨_, rfl, hdata⟩ := reads_of_decodeFrom hmod h
      exact ⟨hmod, hdata⟩
    · cases h
  · rintro ⟨hwhole, hdata⟩
    rw [if_pos (by simpa using hwhole)]
    exact hdata.decodeFrom_eq []

/-! ## Padded runs -/

/-- A text of whole quanta: characters of the alphabet, and at most two padding characters behind
them. -/
structure IsPadded (text run : Bytes) (pads : Nat) : Prop where
  eq : text = run ++ List.replicate pads pad
  alphabet : ∀ c ∈ run, c ∈ alphabet
  pads_le : pads ≤ 2
  whole : text.length % 4 = 0

/-- All padding characters of the text are behind the run. -/
theorem IsPadded.count_pad (h : IsPadded text run pads) : text.count pad = pads := by
  have hrun : run.count pad = 0 :=
    List.count_eq_zero.mpr fun hmem => pad_notMem_alphabet (h.alphabet pad hmem)
  rw [h.eq, List.count_append, hrun, List.count_replicate_self, Nat.zero_add]

/-- A full quantum in front of a padded run makes it longer. -/
theorem IsPadded.cons (h : IsPadded text run pads) (ha : a ∈ Base64.alphabet)
    (hb : b ∈ Base64.alphabet) (hc : c ∈ Base64.alphabet) (hd : d ∈ Base64.alphabet) :
    IsPadded (a :: b :: c :: d :: text) (a :: b :: c :: d :: run) pads where
  eq := by simp [h.eq]
  alphabet := by simpa [ha, hb, hc, hd] using h.alphabet
  pads_le := h.pads_le
  whole := by
    have := h.whole
    simp only [List.length_cons]
    omega

/-- What the quanta make up is as long as the text has room for, and has the bits of the run. -/
theorem Reads.exists_isPadded (h : Reads text data) :
    ∃ run pads, IsPadded text run pads ∧ data.length + pads = 3 * text.length / 4 ∧
      octets data <+: sextets run := by
  have hmem {c v : UInt8} (h : sextet? c = some v) : c ∈ alphabet := mem_alphabet_iff.mpr ⟨v, h⟩
  induction h with
  | nil => exact ⟨[], 0, ⟨rfl, by simp, by simp, rfl⟩, by simp, List.nil_prefix⟩
  | @one a b v w ha hb =>
      refine ⟨[a, b], 2, ⟨rfl, ?_, by simp, by simp⟩, by simp, ?_⟩
      · simp [hmem ha, hmem hb]
      · rw [sextets_two ha hb]
        exact List.prefix_append _ _
  | @two a b c v w x ha hb hc =>
      refine ⟨[a, b, c], 1, ⟨rfl, ?_, by simp, by simp⟩, by simp, ?_⟩
      · simp [hmem ha, hmem hb, hmem hc]
      · rw [sextets_three ha hb hc]
        exact List.prefix_append _ _
  | @three a b c d v w x y text data ha hb hc hd rest ih =>
      obtain ⟨run, pads, hpadded, hlength, hbits⟩ := ih
      refine ⟨a :: b :: c :: d :: run, pads,
        hpadded.cons (hmem ha) (hmem hb) (hmem hc) (hmem hd), ?_, ?_⟩
      · simp only [List.length_cons]
        omega
      · change octets ([byteOne v w, byteTwo w x, byteThree x y] ++ data) <+: _
        rw [octets_append, sextets_four ha hb hc hd]
        exact (List.prefix_append_right_inj _).mpr hbits

/-- The quanta of a padded run make up a payload. -/
theorem IsPadded.exists_reads : ∀ {run text : Bytes}, IsPadded text run pads →
    ∃ data, Reads text data
  | [], text, h => by
      obtain ⟨rfl, -, hpads, hwhole⟩ := h
      simp only [List.nil_append, List.length_replicate] at hwhole
      obtain rfl : pads = 0 := by omega
      exact ⟨[], .nil⟩
  | [a], text, h => by
      obtain ⟨rfl, -, hpads, hwhole⟩ := h
      simp only [List.length_append, List.length_replicate, List.length_singleton] at hwhole
      omega
  | [a, b], text, h => by
      obtain ⟨rfl, hmem, hpads, hwhole⟩ := h
      simp only [List.length_append, List.length_replicate, List.length_cons,
        List.length_nil] at hwhole
      obtain rfl : pads = 2 := by omega
      obtain ⟨v, ha⟩ := mem_alphabet_iff.mp (hmem a (by simp))
      obtain ⟨w, hb⟩ := mem_alphabet_iff.mp (hmem b (by simp))
      exact ⟨_, .one ha hb⟩
  | [a, b, c], text, h => by
      obtain ⟨rfl, hmem, hpads, hwhole⟩ := h
      simp only [List.length_append, List.length_replicate, List.length_cons,
        List.length_nil] at hwhole
      obtain rfl : pads = 1 := by omega
      obtain ⟨v, ha⟩ := mem_alphabet_iff.mp (hmem a (by simp))
      obtain ⟨w, hb⟩ := mem_alphabet_iff.mp (hmem b (by simp))
      obtain ⟨x, hc⟩ := mem_alphabet_iff.mp (hmem c (by simp))
      exact ⟨_, .two ha hb hc⟩
  | a :: b :: c :: d :: run, text, h => by
      obtain ⟨rfl, hmem, hpads, hwhole⟩ := h
      simp only [List.cons_append, List.length_cons] at hwhole
      obtain ⟨v, ha⟩ := mem_alphabet_iff.mp (hmem a (by simp))
      obtain ⟨w, hb⟩ := mem_alphabet_iff.mp (hmem b (by simp))
      obtain ⟨x, hc⟩ := mem_alphabet_iff.mp (hmem c (by simp))
      obtain ⟨y, hd⟩ := mem_alphabet_iff.mp (hmem d (by simp))
      have hrun : IsPadded (run ++ List.replicate pads pad) run pads :=
        ⟨rfl, fun e he => hmem e (by simp [he]), hpads, by omega⟩
      obtain ⟨data, hdata⟩ := hrun.exists_reads
      exact ⟨_, .three ha hb hc hd hdata⟩

/-- The texts that are read, and what they are read as. -/
theorem decode_eq_ok_iff : decode text = .ok data ↔
    ∃ run pads, IsPadded text run pads ∧ data.length + pads = 3 * text.length / 4 ∧
      octets data <+: sextets run := by
  constructor
  · intro h
    exact (decode_eq_ok_iff_reads.mp h).2.exists_isPadded
  · rintro ⟨run, pads, hpadded, hlength, hbits⟩
    obtain ⟨other, hother⟩ := hpadded.exists_reads
    obtain ⟨run', pads', hpadded', hlength', hbits'⟩ := hother.exists_isPadded
    obtain rfl : pads = pads' := hpadded.count_pad.symm.trans hpadded'.count_pad
    obtain rfl : run = run' := List.append_cancel_right (hpadded.eq.symm.trans hpadded'.eq)
    -- Both payloads have the first bits of the same run, and equally many.
    have hsame : (octets data).length = (octets other).length := by
      rw [length_octets, length_octets]
      omega
    have heq : octets data = octets other :=
      (List.prefix_of_prefix_length_le hbits hbits' hsame.le).eq_of_length hsame
    rw [octets_inj heq]
    exact decode_eq_ok_iff_reads.mpr ⟨hpadded.whole, hother⟩

theorem exists_decode_iff :
    (∃ data, decode text = .ok data) ↔ ∃ run pads, IsPadded text run pads := by
  constructor
  · rintro ⟨data, h⟩
    obtain ⟨run, pads, hpadded, -⟩ := decode_eq_ok_iff.mp h
    exact ⟨run, pads, hpadded⟩
  · rintro ⟨run, pads, hpadded⟩
    obtain ⟨data, hdata⟩ := hpadded.exists_reads
    exact ⟨data, decode_eq_ok_iff_reads.mpr ⟨hpadded.whole, hdata⟩⟩

/-! ## Written texts -/

/-- The values of the second and of the third character, of which each holds bits of two bytes. -/
def valueTwo (a b : UInt8) : UInt8 := (a &&& 0x03) <<< 4 ||| b >>> 4

@[inherit_doc valueTwo]
def valueThree (b c : UInt8) : UInt8 := (b &&& 0x0F) <<< 2 ||| c >>> 6

theorem sextet?_first (a : UInt8) : sextet? (first a) = some (a >>> 2) :=
  sextet?_symbol (first_lt a)

theorem sextet?_second (a b : UInt8) : sextet? (second a b) = some (valueTwo a b) :=
  sextet?_symbol (second_lt a b)

theorem sextet?_third (b c : UInt8) : sextet? (third b c) = some (valueThree b c) :=
  sextet?_symbol (third_lt b c)

theorem sextet?_fourth (c : UInt8) : sextet? (fourth c) = some (c &&& 0x3F) :=
  sextet?_symbol (fourth_lt c)

theorem byteOne_valueTwo (a b : UInt8) : byteOne (a >>> 2) (valueTwo a b) = a :=
  byte_of_first_second a b

theorem byteTwo_valueTwo (a b c : UInt8) : byteTwo (valueTwo a b) (valueThree b c) = b :=
  byte_of_second_third a b c

theorem byteThree_valueThree (b c : UInt8) : byteThree (valueThree b c) (c &&& 0x3F) = c :=
  byte_of_third_fourth b c

theorem bits_valueTwo_zero (a : UInt8) : bits 4 (valueTwo a 0).toNat = List.replicate 4 false := by
  rw [bits_toNat]
  simp [List.range_succ, valueTwo]

theorem bits_valueThree_zero (b : UInt8) :
    bits 2 (valueThree b 0).toNat = List.replicate 2 false := by
  rw [bits_toNat]
  simp [List.range_succ, valueThree]

/-- A written text is a padded run with the bits of the payload and zeros behind them. -/
theorem exists_isPadded_encode : ∀ data : Bytes, ∃ run pads, IsPadded (encode data) run pads ∧
    sextets run = octets data ++ List.replicate (2 * pads) false
  | [] => ⟨[], 0, ⟨rfl, by simp, by simp, rfl⟩, rfl⟩
  | [a] => by
      refine ⟨[first a, second a 0], 2, ⟨rfl, ?_, by simp, ?_⟩, ?_⟩
      · simp [mem_alphabet_iff, sextet?_first, sextet?_second]
      · rw [length_encode, Nat.mul_mod_right]
      · rw [sextets_two (sextet?_first a) (sextet?_second a 0), byteOne_valueTwo,
          bits_valueTwo_zero]
        rfl
  | [a, b] => by
      refine ⟨[first a, second a b, third b 0], 1, ⟨rfl, ?_, by simp, ?_⟩, ?_⟩
      · simp [mem_alphabet_iff, sextet?_first, sextet?_second, sextet?_third]
      · rw [length_encode, Nat.mul_mod_right]
      · rw [sextets_three (sextet?_first a) (sextet?_second a b) (sextet?_third b 0),
          byteOne_valueTwo, byteTwo_valueTwo, bits_valueThree_zero]
        rfl
  | a :: b :: c :: data => by
      obtain ⟨run, pads, hpadded, hbits⟩ := exists_isPadded_encode data
      refine ⟨first a :: second a b :: third b c :: fourth c :: run, pads, ?_, ?_⟩
      · rw [encode_cons]
        apply hpadded.cons
        · exact mem_alphabet_iff.mpr ⟨_, sextet?_first a⟩
        · exact mem_alphabet_iff.mpr ⟨_, sextet?_second a b⟩
        · exact mem_alphabet_iff.mpr ⟨_, sextet?_third b c⟩
        · exact mem_alphabet_iff.mpr ⟨_, sextet?_fourth c⟩
      · rw [sextets_four (sextet?_first a) (sextet?_second a b) (sextet?_third b c)
          (sextet?_fourth c), byteOne_valueTwo, byteTwo_valueTwo, byteThree_valueThree, hbits]
        rfl

end Base64

end ResolverLog
