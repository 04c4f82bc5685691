import ResolverLog.Proofs.Fields
import ResolverLog.Proofs.Record

/-!
# Records in any order

A line is read as a record when each of its fields has a key and a value in
percent escapes, no key stands twice, and the values of the known keys are right.
None of this depends on the order of the fields, and the values of other keys are
not looked at. So the fields of a record can be written in any order, and a later
format can add fields anywhere.

## Implementation notes

Which fault is reported does depend on the order, as the first one wins. What
stays is whether there is one.
-/

namespace ResolverLog

open Bytes

namespace Record

variable {found other : Fields} {piece key : Bytes} {pieces : List Bytes}
  {pair : Bytes × Bytes} {e : Entry}

/-! ## Pieces -/

/-- A piece of a line without separators and line ends. -/
def IsPiece (piece : Bytes) : Prop :=
  ∀ b ∈ piece, b ≠ 0x26 ∧ b ≠ 0x0A ∧ b ≠ 0x0D

instance (piece : Bytes) : Decidable (IsPiece piece) :=
  inferInstanceAs (Decidable (∀ b ∈ piece, _))

theorem Reads.ne_nil (h : Reads piece pair) : piece ≠ [] := by
  obtain ⟨-, -, escaped, rfl, -⟩ := h
  simp

theorem ne_nil_of_forall₂ (h : List.Forall₂ Reads pieces found) : ∀ piece ∈ pieces, piece ≠ [] := by
  induction h with
  | nil => exact List.forall_mem_nil _
  | cons hpair _ ih => exact List.forall_mem_cons.mpr ⟨hpair.ne_nil, ih⟩

/-- The keys that are read are those that the pieces have. -/
theorem mem_keys_iff (h : List.Forall₂ Reads pieces found) :
    key ∈ found.map Prod.fst ↔ ∃ piece ∈ pieces, HasKey key piece := by
  induction h with
  | nil => simp
  | @cons piece pair pieces found hpair _ ih =>
      have hkey : key = pair.1 ↔ HasKey key piece :=
        ⟨fun heq => heq ▸ hpair.hasKey, fun hkey => hkey.unique hpair.hasKey⟩
      simp only [List.map_cons, List.mem_cons, exists_eq_or_imp, ih, hkey]

/-- Pieces that are read with keys of their own have no key in common. -/
theorem pairwise_of_forall₂ (h : List.Forall₂ Reads pieces found)
    (hnodup : (found.map Prod.fst).Nodup) :
    pieces.Pairwise fun p q => ∀ key, HasKey key p → ¬ HasKey key q := by
  induction h with
  | nil => exact .nil
  | @cons piece pair pieces found hpair hread ih =>
      obtain ⟨hnew, hnodup⟩ := List.nodup_cons.mp hnodup
      refine .cons (fun q hq key hkey hkey' => hnew ?_) (ih hnodup)
      rw [← hkey.unique hpair.hasKey]
      exact (mem_keys_iff hread).mpr ⟨q, hq, hkey'⟩

/-! ## Lines -/

/-- Joined pieces are read as fields one by one, each with a key of its own. -/
theorem fields_join_eq_ok_iff (hclean : ∀ piece ∈ pieces, IsPiece piece) :
    fields (join [0x26] pieces) = .ok found ↔
      pieces ≠ [] ∧ List.Forall₂ Reads pieces found ∧ (found.map Prod.fst).Nodup := by
  have hends : ∀ b ∈ join [0x26] pieces, b ≠ 0x0A ∧ b ≠ 0x0D := by
    intro b hb
    rcases mem_join hb with rfl | ⟨piece, hpiece, hb⟩
    · decide
    · exact (hclean piece hpiece b hb).2
  have htrim : trimLineEnd (join [0x26] pieces) = join [0x26] pieces := by
    simpa using trimLineEnd_append hends (List.forall_mem_nil _)
  rw [fields, htrim]
  by_cases hempty : join [0x26] pieces = []
  · simp only [hempty, List.isEmpty_nil, if_true]
    constructor
    · intro h
      cases h
    -- The line is empty for one empty piece as well, but that does not read as a field.
    · rintro ⟨hne, hread, -⟩
      exact absurd ((join_eq_nil_iff (ne_nil_of_forall₂ hread)).mp hempty) hne
  · have hne : pieces ≠ [] := by
      rintro rfl
      exact hempty rfl
    have hsplit : splitOn 0x26 (join [0x26] pieces) = pieces :=
      splitOn_join hne fun piece hpiece hmem => (hclean piece hpiece _ hmem).1 rfl
    simp only [List.isEmpty_eq_false_iff.mpr hempty, Bool.false_eq_true, if_false, hsplit]
    rw [fieldsFrom_nil_eq_ok_iff]
    exact ⟨fun h => ⟨hne, h⟩, And.right⟩

/-- What fields describe depends on what they tell of the known keys only. -/
theorem ofFields_congr (h : ∀ key ∈ keys, found.lookup key = other.lookup key) :
    ofFields found = ofFields other := by
  simp only [ofFields, required, optional, h (ascii "v") (by decide), h (ascii "t") (by decide),
    h (ascii "q") (by decide), h (ascii "a") (by decide), h (ascii "ip") (by decide),
    h (ascii "up") (by decide), h (ascii "f") (by decide), h (ascii "reason") (by decide),
    h (ascii "rule") (by decide), h (ascii "fid") (by decide), h (ascii "el") (by decide)]

/-- Joined pieces record an entry when each of them reads as a field, no key stands twice, and the
fields describe the entry. -/
theorem decode_join_eq_ok_iff (hclean : ∀ piece ∈ pieces, IsPiece piece) :
    decode (join [0x26] pieces) = .ok e ↔
      ∃ found, List.Forall₂ Reads pieces found ∧ (found.map Prod.fst).Nodup ∧
        ofFields found = .ok e := by
  rw [decode]
  constructor
  · intro h
    cases hfields : fields (join [0x26] pieces) with
    | error fault =>
        rw [hfields] at h
        cases h
    | ok found =>
        rw [hfields] at h
        obtain ⟨-, hread, hnodup⟩ := (fields_join_eq_ok_iff hclean).mp hfields
        exact ⟨found, hread, hnodup, h⟩
  · rintro ⟨found, hread, hnodup, hentry⟩
    have hne : pieces ≠ [] := by
      rintro rfl
      cases hread
      cases hentry
    rw [(fields_join_eq_ok_iff hclean).mpr ⟨hne, hread, hnodup⟩]
    exact hentry

/-! ## Other orders and further fields -/

/-- Pieces in another order record what they recorded. -/
theorem decode_perm {pieces other : List Bytes} (hclean : ∀ piece ∈ pieces, IsPiece piece)
    (h : other.Perm pieces) (hentry : decode (join [0x26] pieces) = .ok e) :
    decode (join [0x26] other) = .ok e := by
  obtain ⟨found, hread, hnodup, hentry⟩ := (decode_join_eq_ok_iff hclean).mp hentry
  obtain ⟨found', hread', hperm⟩ := List.perm_comp_forall₂ h hread
  have hkeys : (found'.map Prod.fst).Nodup := (hperm.map Prod.fst).nodup_iff.mpr hnodup
  refine (decode_join_eq_ok_iff fun piece hpiece => hclean piece (h.mem_iff.mp hpiece)).mpr
    ⟨found', hread', hkeys, ?_⟩
  rw [← hentry]
  exact ofFields_congr fun key _ => Lookup.lookup_eq_of_perm hkeys hperm key

/-- A field with a key that is neither known nor there changes nothing. -/
theorem decode_cons_iff (hclean : ∀ p ∈ piece :: pieces, IsPiece p) (hreads : Reads piece pair)
    (hunknown : pair.1 ∉ keys) (habsent : ∀ p ∈ pieces, ¬ HasKey pair.1 p) :
    decode (join [0x26] (piece :: pieces)) = .ok e ↔ decode (join [0x26] pieces) = .ok e := by
  have hsame : ∀ found : Fields, ofFields (pair :: found) = ofFields found := fun found =>
    ofFields_congr fun key hkey => by
      have hne : key ≠ pair.1 := fun heq => hunknown (heq ▸ hkey)
      rw [List.lookup_cons, beq_false_of_ne hne]
  rw [decode_join_eq_ok_iff hclean,
    decode_join_eq_ok_iff fun p hp => hclean p (List.mem_cons_of_mem piece hp)]
  constructor
  · rintro ⟨found, hread, hnodup, hentry⟩
    cases hread with
    | cons hpair hread =>
        obtain rfl := hreads.unique hpair
        exact ⟨_, hread, (List.nodup_cons.mp hnodup).2, hsame _ ▸ hentry⟩
  · rintro ⟨found, hread, hnodup, hentry⟩
    have hnew : pair.1 ∉ found.map Prod.fst := fun hmem => by
      obtain ⟨p, hp, hkey⟩ := (mem_keys_iff hread).mp hmem
      exact habsent p hp hkey
    exact ⟨pair :: found, .cons hreads hread, List.nodup_cons.mpr ⟨hnew, hnodup⟩,
      (hsame found).trans hentry⟩

/-- A field as a key with escapes. -/
def spelled (field : Bytes × Bytes) : Bytes :=
  field.1 ++ 0x3D :: field.2

/-- Further fields for a line: each has a key, which is neither known nor there nor another one's,
and escapes that stand for a value. -/
structure Further (pieces : List Bytes) (more : List (Bytes × Bytes)) : Prop where
  isPiece : ∀ field ∈ more, IsPiece (spelled field)
  ne_nil : ∀ field ∈ more, field.1 ≠ []
  isKey : ∀ field ∈ more, 0x3D ∉ field.1
  readable : ∀ field ∈ more, ∃ value, Percent.decode field.2 = .ok value
  nodup : (more.map Prod.fst).Nodup
  unknown : ∀ field ∈ more, field.1 ∉ keys
  absent : ∀ field ∈ more, ∀ piece ∈ pieces, ¬ HasKey field.1 piece

variable {field : Bytes × Bytes} {more : List (Bytes × Bytes)}

theorem Further.tail (h : Further pieces (field :: more)) : Further pieces more where
  isPiece f hf := h.isPiece f (List.mem_cons_of_mem field hf)
  ne_nil f hf := h.ne_nil f (List.mem_cons_of_mem field hf)
  isKey f hf := h.isKey f (List.mem_cons_of_mem field hf)
  readable f hf := h.readable f (List.mem_cons_of_mem field hf)
  nodup := (List.nodup_cons.mp h.nodup).2
  unknown f hf := h.unknown f (List.mem_cons_of_mem field hf)
  absent f hf := h.absent f (List.mem_cons_of_mem field hf)

theorem hasKey_spelled (hkey : 0x3D ∉ field.1) : HasKey field.1 (spelled field) :=
  ⟨field.2, rfl, hkey⟩

theorem Further.reads_head (h : Further pieces (field :: more)) :
    ∃ value, Reads (spelled field) (field.1, value) := by
  obtain ⟨value, hvalue⟩ := h.readable field List.mem_cons_self
  exact ⟨value, h.ne_nil field List.mem_cons_self, h.isKey field List.mem_cons_self, field.2, rfl,
    hvalue⟩

theorem Further.isPiece_append (h : Further pieces more)
    (hclean : ∀ piece ∈ pieces, IsPiece piece) :
    ∀ piece ∈ more.map spelled ++ pieces, IsPiece piece := by
  intro piece hpiece
  rcases List.mem_append.mp hpiece with hmore | hpiece
  · obtain ⟨field, hfield, rfl⟩ := List.mem_map.mp hmore
    exact h.isPiece field hfield
  · exact hclean piece hpiece

/-- Further fields change nothing. -/
theorem Further.decode_iff (h : Further pieces more) (hclean : ∀ piece ∈ pieces, IsPiece piece) :
    decode (join [0x26] (more.map spelled ++ pieces)) = .ok e ↔
      decode (join [0x26] pieces) = .ok e := by
  induction more with
  | nil => rfl
  | cons field more ih =>
      obtain ⟨value, hreads⟩ := h.reads_head
      have habsent : ∀ piece ∈ more.map spelled ++ pieces, ¬ HasKey field.1 piece := by
        intro piece hpiece hkey
        rcases List.mem_append.mp hpiece with hmore | hpiece
        · obtain ⟨other, hother, rfl⟩ := List.mem_map.mp hmore
          have hsame : field.1 = other.1 := hkey.unique
            (hasKey_spelled (h.isKey other (List.mem_cons_of_mem field hother)))
          exact (List.nodup_cons.mp h.nodup).1 (hsame ▸ List.mem_map_of_mem hother)
        · exact h.absent field List.mem_cons_self piece hpiece hkey
      have hcons := decode_cons_iff (e := e) (h.isPiece_append hclean) hreads
        (h.unknown field List.mem_cons_self) habsent
      exact hcons.trans (ih h.tail)

/-- The fields of a line record the same entry, or none, in any order. Further fields anywhere
among them change nothing, and a line in which a key stands twice records nothing. -/
theorem records_in_any_order (hclean : ∀ piece ∈ pieces, IsPiece piece) :
    (∀ other : List Bytes, other.Perm pieces → ∀ e,
      decode (join [0x26] other) = .ok e ↔ decode (join [0x26] pieces) = .ok e) ∧
    (∀ more whole, Further pieces more → whole.Perm (more.map spelled ++ pieces) → ∀ e,
      decode (join [0x26] whole) = .ok e ↔ decode (join [0x26] pieces) = .ok e) ∧
    ∀ key p q, [p, q].Sublist pieces → HasKey key p → HasKey key q →
      ∃ fault, decode (join [0x26] pieces) = .error fault := by
  have hany : ∀ {pieces other : List Bytes}, (∀ piece ∈ pieces, IsPiece piece) →
      other.Perm pieces → ∀ e,
        decode (join [0x26] other) = .ok e ↔ decode (join [0x26] pieces) = .ok e :=
    fun hclean h e =>
      ⟨decode_perm (fun piece hpiece => hclean piece (h.mem_iff.mp hpiece)) h.symm,
        decode_perm hclean h⟩
  refine ⟨fun other h => hany hclean h, fun more whole hfurther h e => ?_,
    fun key p q hsub hp hq => ?_⟩
  · exact (hany (hfurther.isPiece_append hclean) h e).trans (hfurther.decode_iff hclean)
  · cases hentry : decode (join [0x26] pieces) with
    | error fault => exact ⟨fault, rfl⟩
    | ok e =>
        obtain ⟨found, hread, hnodup, -⟩ := (decode_join_eq_ok_iff hclean).mp hentry
        have hpair := (pairwise_of_forall₂ hread hnodup).sublist hsub
        exact absurd hq (List.rel_of_pairwise_cons hpair List.mem_cons_self key hp)

/-- The fields of a record without an answer, in an order of their own, one with an escape that need
not be one. -/
def shuffled : List Bytes :=
  [ascii "ip=%61", ascii "q=", ascii "t=-5", ascii "v=1"]

/-- Two fields that no format knows yet. -/
def future : List (Bytes × Bytes) :=
  [(ascii "V", ascii "2"), (ascii "x", ascii "%3d=")]

theorem further_future : Further shuffled future := by
  have habsent : ∀ field ∈ future, ∀ piece ∈ shuffled,
      (cutAt? 0x3D piece).map Prod.fst ≠ some field.1 := by
    decide
  refine ⟨by decide +kernel, by decide, by decide, fun field hfield => ?_, by decide, by decide, ?_⟩
  · have hread : ∀ field ∈ future, (Percent.decode field.2).isOk = true := by decide
    cases hvalue : Percent.decode field.2 with
    | ok value => exact ⟨value, rfl⟩
    | error cause =>
        have hok := hread field hfield
        rw [hvalue] at hok
        cases hok
  · rintro field hfield piece hpiece ⟨escaped, rfl, hkey⟩
    exact habsent field hfield _ hpiece (by rw [cutAt?_append_cons hkey]; rfl)

/-- The fields record the same entry in their usual order and with others between them, and nothing
when the time stands a second time. -/
theorem records_in_any_order_shuffled :
    let entry : Entry := ⟨-5, [], [], ascii "a", [], .pass, 0⟩
    decode (ascii "ip=%61&q=&t=-5&v=1") = .ok entry ∧
    decode (ascii "v=1&t=-5&q=&ip=%61") = .ok entry ∧
    decode (ascii "v=1&x=%3d=&t=-5&q=&V=2&ip=%61") = .ok entry ∧
    ∃ fault, decode (ascii "t=-6&ip=%61&q=&t=-5&v=1") = .error fault := by
  intro entry
  have hclean : ∀ piece ∈ shuffled, IsPiece piece := by decide +kernel
  have hentry : decode (ascii "ip=%61&q=&t=-5&v=1") = .ok entry := by decide
  have hclean' : ∀ piece ∈ ascii "t=-6" :: shuffled, IsPiece piece := by decide +kernel
  obtain ⟨hperm, hfurther, -⟩ := records_in_any_order hclean
  obtain ⟨-, -, hdouble⟩ := records_in_any_order hclean'
  refine ⟨hentry, ?_, ?_, ?_⟩
  · exact (hperm shuffled.reverse (List.reverse_perm _) entry).mpr hentry
  · exact (hfurther future [ascii "v=1", ascii "x=%3d=", ascii "t=-5", ascii "q=", ascii "V=2",
      ascii "ip=%61"] further_future (by decide) entry).mpr hentry
  · exact hdouble (ascii "t") (ascii "t=-6") (ascii "t=-5") (by decide)
      ⟨ascii "-6", rfl, by decide⟩ ⟨ascii "-5", rfl, by decide⟩

end Record

end ResolverLog
