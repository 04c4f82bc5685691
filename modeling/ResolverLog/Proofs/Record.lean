import ResolverLog.Archive
import ResolverLog.Proofs.Base64
import ResolverLog.Proofs.Decimal
import ResolverLog.Proofs.Fields
import ResolverLog.Proofs.Percent
import Mathlib.Data.List.Nodup

/-!
# Records read back

A record joins its fields by ampersands. Keys and escaped values hold neither
separators nor line ends, so a batch falls apart into the lines it was made of,
a line into its fields, and a field into its key and its value. The readers of
the values undo their writers, hence an entry within the limits of the format
is read back as it was, alone or in a batch.

## Implementation notes

The line is written field by field. `pairs` lists the same fields with plain
values, so that the argument about separators is made once for any list of
fields and not for each of the eleven.
-/

namespace ResolverLog

open Bytes

/-- The limits of the record format: both messages fit and the reason is known. -/
structure Entry.Storable (e : Entry) : Prop where
  question_le : e.question.length ≤ 65535
  answer_le : e.answer.length ≤ 65535
  reason_nonneg : 0 ≤ e.verdict.reason.code.toInt
  reason_le : e.verdict.reason.code.toInt ≤ 6

instance (e : Entry) : Decidable e.Storable :=
  decidable_of_iff
    (e.question.length ≤ 65535 ∧ e.answer.length ≤ 65535 ∧
      0 ≤ e.verdict.reason.code.toInt ∧ e.verdict.reason.code.toInt ≤ 6)
    ⟨fun ⟨hq, ha, hn, hl⟩ => ⟨hq, ha, hn, hl⟩, fun ⟨hq, ha, hn, hl⟩ => ⟨hq, ha, hn, hl⟩⟩

namespace Record

/-! ## Fields -/

/-- The keys of a record in the order of the line. -/
def keys : List Bytes :=
  [ascii "v", ascii "t", ascii "q", ascii "a", ascii "ip", ascii "up", ascii "f",
    ascii "reason", ascii "rule", ascii "fid", ascii "el"]

theorem nodup_keys : keys.Nodup := by decide

/-- The fields of an entry's record with their values before escaping. -/
def pairs (e : Entry) : Fields :=
  [(ascii "v", Decimal.ofInt version.toInt),
    (ascii "t", Decimal.ofInt e.time.toInt),
    (ascii "q", Base64.encode e.question),
    (ascii "a", Base64.encode e.answer),
    (ascii "ip", e.client),
    (ascii "up", e.resolver),
    (ascii "f", if e.verdict.filtered then ascii "1" else ascii "0"),
    (ascii "reason", Decimal.ofInt e.verdict.reason.code.toInt),
    (ascii "rule", e.verdict.rule),
    (ascii "fid", Decimal.ofInt e.verdict.listId.toInt),
    (ascii "el", Decimal.ofInt e.elapsed.toInt)]

theorem map_fst_pairs (e : Entry) : (pairs e).map Prod.fst = keys := rfl

/-- A field as it stands between two separators. -/
def written (pair : Bytes × Bytes) : Bytes :=
  pair.1 ++ 0x3D :: Percent.encode pair.2

theorem ofInt_version : Decimal.ofInt version.toInt = ascii "1" := by
  change Decimal.ofNat 1 = ascii "1"
  rw [Decimal.ofNat]
  rfl

theorem encode_version :
    Percent.encode (Decimal.ofInt version.toInt) = Decimal.ofInt version.toInt := by
  rw [ofInt_version]
  rfl

/-- A line is its fields joined by ampersands. -/
theorem line_eq_join (e : Entry) : line e = join [0x26] ((pairs e).map written) := by
  simp only [pairs, List.map_cons, List.map_nil, join, List.intercalate_cons_cons, written,
    encode_version, List.intercalate_singleton]
  simp only [line, field, List.append_assoc, List.cons_append, List.nil_append]
  rfl

/-- Every byte of a key, of a separator or of an escaped value. -/
theorem mem_written {pair : Bytes × Bytes} (hkey : pair.1 ∈ keys) {b : UInt8}
    (h : b ∈ written pair) : Percent.isPlain b = true ∨ b = 0x25 ∨ b = 0x3D := by
  have hplain : ∀ key ∈ keys, ∀ b ∈ key, Percent.isPlain b = true := by decide +kernel
  rw [written, List.mem_append, List.mem_cons] at h
  rcases h with h | h | h
  · exact Or.inl (hplain pair.1 hkey b h)
  · exact Or.inr (Or.inr h)
  · rcases Percent.isPlain_of_mem_encode h with h | h
    · exact Or.inl h
    · exact Or.inr (Or.inl h)

theorem mem_join {sep : UInt8} {pieces : List Bytes} {b : UInt8} (h : b ∈ join [sep] pieces) :
    b = sep ∨ ∃ piece ∈ pieces, b ∈ piece := by
  induction pieces with
  | nil => simp [join] at h
  | cons piece pieces ih =>
      cases pieces with
      | nil =>
          rw [join, List.intercalate_singleton] at h
          exact Or.inr ⟨piece, List.mem_cons_self, h⟩
      | cons next pieces =>
          rw [join, List.intercalate_cons_cons, List.mem_append, List.mem_append,
            List.mem_singleton] at h
          rcases h with (h | h) | h
          · exact Or.inr ⟨piece, List.mem_cons_self, h⟩
          · exact Or.inl h
          · rcases ih h with h | ⟨p, hp, hb⟩
            · exact Or.inl h
            · exact Or.inr ⟨p, List.mem_cons_of_mem piece hp, hb⟩

theorem mem_keys_of_mem_pairs {e : Entry} {pair : Bytes × Bytes} (h : pair ∈ pairs e) :
    pair.1 ∈ keys :=
  map_fst_pairs e ▸ List.mem_map_of_mem h

/-- A key is not empty and has no equals sign in it. -/
theorem isKey_of_mem_keys {key : Bytes} (h : key ∈ keys) : key ≠ [] ∧ (0x3D : UInt8) ∉ key := by
  have hkeys : ∀ key ∈ keys, key ≠ [] ∧ (0x3D : UInt8) ∉ key := by decide
  exact hkeys key h

theorem isKey_of_mem_pairs {e : Entry} {pair : Bytes × Bytes} (h : pair ∈ pairs e) :
    pair.1 ≠ [] ∧ (0x3D : UInt8) ∉ pair.1 :=
  isKey_of_mem_keys (mem_keys_of_mem_pairs h)

theorem ampersand_notMem_written {pair : Bytes × Bytes} (hkey : pair.1 ∈ keys) :
    (0x26 : UInt8) ∉ written pair :=
  fun h => absurd (mem_written hkey h) (by decide)

theorem ampersand_notMem_of_mem_map_written {e : Entry} :
    ∀ piece ∈ (pairs e).map written, (0x26 : UInt8) ∉ piece := by
  intro piece hpiece
  obtain ⟨pair, hpair, rfl⟩ := List.mem_map.mp hpiece
  exact ampersand_notMem_written (mem_keys_of_mem_pairs hpair)

theorem mem_join_written {found : Fields} (hkeys : ∀ pair ∈ found, pair.1 ∈ keys) {b : UInt8}
    (h : b ∈ join [0x26] (found.map written)) :
    Percent.isPlain b = true ∨ b = 0x25 ∨ b = 0x3D ∨ b = 0x26 := by
  rcases mem_join h with h | ⟨piece, hpiece, hb⟩
  · exact Or.inr (Or.inr (Or.inr h))
  · obtain ⟨pair, hpair, rfl⟩ := List.mem_map.mp hpiece
    rcases mem_written (hkeys pair hpair) hb with h | h | h
    · exact Or.inl h
    · exact Or.inr (Or.inl h)
    · exact Or.inr (Or.inr (Or.inl h))

/-- Joined fields have no line end in them. -/
theorem ne_of_mem_join_written {found : Fields} (hkeys : ∀ pair ∈ found, pair.1 ∈ keys)
    {b : UInt8} (h : b ∈ join [0x26] (found.map written)) : b ≠ 0x0A ∧ b ≠ 0x0D := by
  constructor
  · rintro rfl
    exact absurd (mem_join_written hkeys h) (by decide)
  · rintro rfl
    exact absurd (mem_join_written hkeys h) (by decide)

/-- A line has no line end in it. -/
theorem ne_of_mem_line {e : Entry} {b : UInt8} (h : b ∈ line e) : b ≠ 0x0A ∧ b ≠ 0x0D := by
  rw [line_eq_join] at h
  exact ne_of_mem_join_written (fun pair hpair => mem_keys_of_mem_pairs hpair) h

theorem newline_notMem_line (e : Entry) : newline ∉ line e :=
  fun h => (ne_of_mem_line h).1 rfl

theorem line_ne_nil (e : Entry) : line e ≠ [] := by
  intro h
  have hlen := congrArg List.length h
  simp [line, ascii] at hlen

/-! ## Reading a line -/

/-- A written field is read as it was. -/
theorem reads_written {pair : Bytes × Bytes} (hne : pair.1 ≠ []) (hkey : (0x3D : UInt8) ∉ pair.1) :
    Reads (written pair) pair :=
  ⟨hne, hkey, Percent.encode pair.2, rfl, Percent.decode_encode pair.2⟩

/-- Written fields are read as they were, and not otherwise. -/
theorem forall₂_written {fields read : Fields}
    (hkeys : ∀ pair ∈ fields, pair.1 ≠ [] ∧ (0x3D : UInt8) ∉ pair.1) :
    List.Forall₂ Reads (fields.map written) read ↔ read = fields := by
  induction fields generalizing read with
  | nil => exact List.forall₂_nil_left_iff
  | cons pair fields ih =>
      obtain ⟨⟨hne, hkey⟩, hrest⟩ := List.forall_mem_cons.mp hkeys
      have hreads : Reads (written pair) pair := reads_written hne hkey
      rw [List.map_cons, List.forall₂_cons_left_iff]
      constructor
      · rintro ⟨pair', read, hpair', hread, rfl⟩
        rw [hreads.unique hpair', (ih hrest).mp hread]
      · rintro rfl
        exact ⟨pair, fields, hreads, (ih hrest).mpr rfl, rfl⟩

theorem join_written_ne_nil {found : Fields} (hne : found ≠ []) :
    join [0x26] (found.map written) ≠ [] := by
  obtain ⟨pair, found, rfl⟩ := List.exists_cons_of_ne_nil hne
  intro h
  cases found with
  | nil => simp [join, written] at h
  | cons next found =>
      rw [List.map_cons, join_cons (by simp)] at h
      simp at h

/-- Joined fields are read as they were written, with or without line ends behind them. -/
theorem fields_join_written {found : Fields} (hne : found ≠ [])
    (hkeys : ∀ pair ∈ found, pair.1 ∈ keys) (hnodup : (found.map Prod.fst).Nodup) {tail : Bytes}
    (htail : ∀ b ∈ tail, b = 0x0A ∨ b = 0x0D) :
    fields (join [0x26] (found.map written) ++ tail) = .ok found := by
  have hsplit : splitOn 0x26 (join [0x26] (found.map written)) = found.map written := by
    apply splitOn_join (List.map_eq_nil_iff.not.mpr hne)
    intro piece hpiece
    obtain ⟨pair, hpair, rfl⟩ := List.mem_map.mp hpiece
    exact ampersand_notMem_written (hkeys pair hpair)
  have hempty : (join [0x26] (found.map written)).isEmpty = false :=
    List.isEmpty_eq_false_iff.mpr (join_written_ne_nil hne)
  rw [fields, trimLineEnd_append (fun b hb => ne_of_mem_join_written hkeys hb) htail]
  simp only [hempty, Bool.false_eq_true, if_false]
  rw [hsplit]
  exact fieldsFrom_nil_eq_ok_iff.mpr
    ⟨(forall₂_written fun pair hpair => isKey_of_mem_keys (hkeys pair hpair)).mpr rfl, hnodup⟩

/-- A line is read as its fields, with or without line ends behind it. -/
theorem fields_line (e : Entry) {tail : Bytes} (htail : ∀ b ∈ tail, b = 0x0A ∨ b = 0x0D) :
    fields (line e ++ tail) = .ok (pairs e) := by
  have hne : pairs e ≠ [] := List.cons_ne_nil _ _
  have hnodup : ((pairs e).map Prod.fst).Nodup := map_fst_pairs e ▸ nodup_keys
  rw [line_eq_join]
  exact fields_join_written hne (fun pair hpair => mem_keys_of_mem_pairs hpair) hnodup htail

theorem integer_ofInt (key : Bytes) (n : Int64) : integer key (Decimal.ofInt n.toInt) = .ok n := by
  rw [integer, Decimal.int64?_toInt]

theorem payload_encode (data : Bytes) : payload (Base64.encode data) = .ok data := by
  rw [payload, Base64.decode_encode]

theorem flag_text (b : Bool) : flag (if b then ascii "1" else ascii "0") = .ok b := by
  cases b with
  | false => rfl
  | true => rfl

/-- A known reason is read back from its code. -/
theorem reason_ofInt {r : Reason} (low : 0 ≤ r.code.toInt) (high : r.code.toInt ≤ 6) :
    reason (Decimal.ofInt r.code.toInt) = .ok r := by
  have hread : integer (ascii "reason") (Decimal.ofInt r.code.toInt) = .ok r.code.toInt64 := by
    rw [integer, Decimal.int64?_ofInt (by omega) (by omega), Int64.ofInt_int32ToInt]
  have hrange : (0 ≤ r.code.toInt64.toInt && r.code.toInt64.toInt ≤ Reason.last) = true := by
    rw [Int32.toInt_toInt64, Bool.and_eq_true]
    exact ⟨decide_eq_true low, decide_eq_true high⟩
  rw [reason, hread]
  simp only [bind, Except.bind, pure, Except.pure, hrange, if_true, Int32.toInt32_toInt64]

/-- Fields that have the values of an entry behind its keys describe that entry, if their version
is the right one. -/
theorem ofFields_of_lookup {found : Fields} {e : Entry} (hs : e.Storable)
    (h : ∀ key ∈ keys.tail, found.lookup key = (pairs e).lookup key) :
    ofFields found = do
      let v ← integer (ascii "v") (← required found (ascii "v"))
      if v != version then throw (.unsupportedVersion v)
      return e := by
  have ht : found.lookup (ascii "t") = some (Decimal.ofInt e.time.toInt) := h _ (by decide)
  have hq : found.lookup (ascii "q") = some (Base64.encode e.question) := h _ (by decide)
  have ha : found.lookup (ascii "a") = some (Base64.encode e.answer) := h _ (by decide)
  have hip : found.lookup (ascii "ip") = some e.client := h _ (by decide)
  have hup : found.lookup (ascii "up") = some e.resolver := h _ (by decide)
  have hf : found.lookup (ascii "f")
      = some (if e.verdict.filtered then ascii "1" else ascii "0") := h _ (by decide)
  have hreason : found.lookup (ascii "reason")
      = some (Decimal.ofInt e.verdict.reason.code.toInt) := h _ (by decide)
  have hrule : found.lookup (ascii "rule") = some e.verdict.rule := h _ (by decide)
  have hfid : found.lookup (ascii "fid") = some (Decimal.ofInt e.verdict.listId.toInt) :=
    h _ (by decide)
  have hel : found.lookup (ascii "el") = some (Decimal.ofInt e.elapsed.toInt) := h _ (by decide)
  rw [ofFields]
  simp only [required, optional, ht, hq, ha, hip, hup, hf, hreason, hrule, hfid, hel,
    integer_ofInt, payload_encode, flag_text, reason_ofInt hs.reason_nonneg hs.reason_le,
    bind, Except.bind, pure, Except.pure, Option.getD_some]

/-- The fields of a record describe its entry. -/
theorem ofFields_pairs {e : Entry} (h : e.Storable) : ofFields (pairs e) = .ok e := by
  have hv : (pairs e).lookup (ascii "v") = some (Decimal.ofInt version.toInt) := rfl
  rw [ofFields_of_lookup h fun key _ => rfl]
  simp only [required, hv, integer_ofInt, bind, Except.bind, bne_self_eq_false,
    Bool.false_eq_true, if_false]
  rfl

/-- A line decodes to its entry, with or without line ends behind it. -/
theorem decode_line {e : Entry} (h : e.Storable) {tail : Bytes}
    (htail : ∀ b ∈ tail, b = 0x0A ∨ b = 0x0D) : decode (line e ++ tail) = .ok e := by
  rw [decode, fields_line e htail]
  exact ofFields_pairs h

/-! ## Batches -/

theorem decode_line_alone {e : Entry} (h : e.Storable) : decode (line e) = .ok e := by
  simpa using decode_line h (List.forall_mem_nil _)

theorem encode_of_storable {e : Entry} (h : e.Storable) : encode e = .ok (line e) := by
  have hknown : e.verdict.reason.isKnown = true := by
    rw [Reason.isKnown, Bool.and_eq_true]
    exact ⟨decide_eq_true h.reason_nonneg, decide_eq_true h.reason_le⟩
  have hquestion : ¬ maxPayload < e.question.length := Nat.not_lt.mpr h.question_le
  have hanswer : ¬ maxPayload < e.answer.length := Nat.not_lt.mpr h.answer_le
  rw [encode, if_neg hquestion, if_neg hanswer, if_pos hknown]

theorem storable_of_encode {e : Entry} {text : Bytes} (h : encode e = .ok text) : e.Storable := by
  rw [encode] at h
  split at h
  · cases h
  · rename_i hquestion
    split at h
    · cases h
    · rename_i hanswer
      split at h
      · rename_i hknown
        rw [Reason.isKnown, Bool.and_eq_true] at hknown
        exact ⟨Nat.not_lt.mp hquestion, Nat.not_lt.mp hanswer, of_decide_eq_true hknown.1,
          of_decide_eq_true hknown.2⟩
      · cases h

/-- The entries whose records can be written are those within the limits. -/
theorem encode_eq_ok_iff {e : Entry} {text : Bytes} :
    encode e = .ok text ↔ e.Storable ∧ text = line e := by
  constructor
  · intro h
    have hs := storable_of_encode h
    rw [encode_of_storable hs] at h
    exact ⟨hs, (Except.ok.inj h).symm⟩
  · rintro ⟨hs, rfl⟩
    exact encode_of_storable hs

theorem mapM_encode_eq_ok_iff {entries : List Entry} {records : List Bytes} :
    entries.mapM encode = .ok records ↔
      (∀ e ∈ entries, e.Storable) ∧ records = entries.map line := by
  induction entries generalizing records with
  | nil =>
      simp only [List.mapM_nil, pure, Except.pure, Except.ok.injEq, List.not_mem_nil,
        false_implies, implies_true, true_and, List.map_nil]
      exact eq_comm
  | cons e entries ih =>
      rw [List.mapM_cons, List.forall_mem_cons, List.map_cons]
      constructor
      · intro h
        cases he : encode e with
        | error cause =>
            rw [he] at h
            cases h
        | ok text =>
            cases hes : entries.mapM encode with
            | error cause =>
                rw [he, hes] at h
                cases h
            | ok texts =>
                rw [he, hes] at h
                obtain ⟨hs, rfl⟩ := encode_eq_ok_iff.mp he
                obtain ⟨hall, rfl⟩ := ih.mp hes
                exact ⟨⟨hs, hall⟩, (Except.ok.inj h).symm⟩
      · rintro ⟨⟨hs, hall⟩, rfl⟩
        rw [encode_of_storable hs, ih.mpr ⟨hall, rfl⟩]
        rfl

/-- A batch can be written when all of its entries can, and then it consists of their lines. -/
theorem encodeAll_eq_ok_iff {entries : List Entry} {text : Bytes} :
    encodeAll entries = .ok text ↔
      (∀ e ∈ entries, e.Storable) ∧ text = ofLines (entries.map line) := by
  rw [encodeAll]
  cases h : entries.mapM encode with
  | error cause =>
      constructor
      · intro h
        cases h
      · rintro ⟨hall, -⟩
        rw [mapM_encode_eq_ok_iff.mpr ⟨hall, rfl⟩] at h
        cases h
  | ok records =>
      obtain ⟨hall, rfl⟩ := mapM_encode_eq_ok_iff.mp h
      constructor
      · intro h
        exact ⟨hall, (Except.ok.inj h).symm⟩
      · rintro ⟨-, rfl⟩
        rfl

theorem encodeAll_of_storable {entries : List Entry} (h : ∀ e ∈ entries, e.Storable) :
    encodeAll entries = .ok (ofLines (entries.map line)) :=
  encodeAll_eq_ok_iff.mpr ⟨h, rfl⟩

theorem newline_notMem_of_mem_map_line {entries : List Entry} :
    ∀ record ∈ entries.map line, newline ∉ record := by
  intro record h
  obtain ⟨e, -, rfl⟩ := List.mem_map.mp h
  exact newline_notMem_line e

theorem mapM_decode_lines {entries : List Entry} (h : ∀ e ∈ entries, e.Storable) :
    (entries.map line).mapM decode = .ok entries := by
  induction entries with
  | nil => rfl
  | cons e entries ih =>
      have he : decode (line e) = .ok e := decode_line_alone (h e List.mem_cons_self)
      rw [List.map_cons, List.mapM_cons, he,
        ih fun x hx => h x (List.mem_cons_of_mem e hx)]
      rfl

/-- A written batch decodes to its entries. -/
theorem decodeAll_ofLines {entries : List Entry} (h : ∀ e ∈ entries, e.Storable) :
    decodeAll (ofLines (entries.map line)) = .ok entries := by
  have hkeep : ((entries.map line).filter fun l => !l.isEmpty) = entries.map line := by
    rw [List.filter_eq_self]
    intro record hrecord
    obtain ⟨e, -, rfl⟩ := List.mem_map.mp hrecord
    simpa using line_ne_nil e
  rw [decodeAll, lines_ofLines newline_notMem_of_mem_map_line, hkeep]
  exact mapM_decode_lines h

theorem encodeAll_append {entries more : List Entry} {text rest : Bytes}
    (h : encodeAll entries = .ok text) (hm : encodeAll more = .ok rest) :
    encodeAll (entries ++ more) = .ok (text ++ rest) := by
  rw [encodeAll_eq_ok_iff] at h hm ⊢
  obtain ⟨hall, rfl⟩ := h
  obtain ⟨hmore, rfl⟩ := hm
  refine ⟨?_, by rw [List.map_append, ofLines_append]⟩
  intro e he
  rcases List.mem_append.mp he with he | he
  · exact hall e he
  · exact hmore e he

theorem decodeAll_of_encodeAll {entries : List Entry} {text : Bytes}
    (h : encodeAll entries = .ok text) : decodeAll text = .ok entries := by
  obtain ⟨hall, rfl⟩ := encodeAll_eq_ok_iff.mp h
  exact decodeAll_ofLines hall

theorem firstDifference?_self (entries : List Entry) : firstDifference? entries entries = none := by
  rw [firstDifference?, List.findIdx?_eq_none_iff]
  intro pair hpair
  have heq : pair.1 = pair.2 := by
    obtain ⟨i, hi, rfl⟩ := List.mem_iff_getElem.mp hpair
    simp
  simp [heq]

/-- A written batch passes its check. -/
theorem verify_ofLines {entries : List Entry} (h : ∀ e ∈ entries, e.Storable) :
    verify entries (ofLines (entries.map line)) = .ok () := by
  rw [verify, decodeAll_ofLines h]
  simp only [ne_eq, not_true_eq_false, if_false, firstDifference?_self]

/-- Each line of a written batch decodes alone, with or without line ends behind it. -/
theorem forall₂_decode_lines {entries : List Entry} (h : ∀ e ∈ entries, e.Storable) :
    List.Forall₂ (fun record e => ∀ tail : Bytes, (∀ b ∈ tail, b = 0x0A ∨ b = 0x0D) →
      decode (record ++ tail) = .ok e) (entries.map line) entries := by
  rw [List.forall₂_map_left_iff, List.forall₂_same]
  intro e he tail htail
  exact decode_line (h e he) htail

/-- Writing never yields a text that does not stand for the entries. -/
theorem batch_ne_consistency (entries : List Entry) (cause : ConsistencyError) :
    Archive.batch entries ≠ .error (.consistency cause) := by
  intro h
  rw [Archive.batch] at h
  cases hb : encodeAll entries with
  | error e =>
      rw [hb] at h
      cases h
  | ok text =>
      obtain ⟨hall, rfl⟩ := encodeAll_eq_ok_iff.mp hb
      rw [hb] at h
      simp only [verify_ofLines hall] at h
      cases h

/-- Batches within the limits of the format are written, line by line, and read back as they
were, so the check before a write never fails; any other batch is refused. -/
theorem encodeAll_roundTrip (entries : List Entry) :
    ((∀ e ∈ entries, e.Storable) → ∃ text, encodeAll entries = .ok text ∧
      text.count newline = entries.length ∧
      decodeAll text = .ok entries ∧
      List.Forall₂ (fun record e => ∀ tail : Bytes, (∀ b ∈ tail, b = 0x0A ∨ b = 0x0D) →
        decode (record ++ tail) = .ok e) (lines text) entries ∧
      verify entries text = .ok ()) ∧
    (∀ (archive : Archive) (files : Files) (cause : ConsistencyError),
      archive.append files entries ≠ .error (.consistency cause)) ∧
    ((∃ e ∈ entries, ¬ e.Storable) → ∃ cause, encodeAll entries = .error cause) := by
  refine ⟨fun h => ?_, ?_, ?_⟩
  · refine ⟨ofLines (entries.map line), encodeAll_of_storable h, ?_, decodeAll_ofLines h, ?_,
      verify_ofLines h⟩
    · rw [count_newline_ofLines newline_notMem_of_mem_map_line, List.length_map]
    · rw [lines_ofLines newline_notMem_of_mem_map_line]
      exact forall₂_decode_lines h
  · intro archive files cause h
    rw [Archive.append] at h
    split at h
    · cases h
    · cases hb : Archive.batch entries with
      | error e =>
          simp only [hb, Except.error.injEq] at h
          subst h
          exact batch_ne_consistency entries cause hb
      | ok text =>
          simp only [hb, Archive.put] at h
          split at h
          · cases h
          · rw [Archive.putFault] at h
            split at h
            · cases h
            · cases h
  · rintro ⟨e, he, hlimit⟩
    cases h : encodeAll entries with
    | error cause => exact ⟨cause, rfl⟩
    | ok text => exact absurd ((encodeAll_eq_ok_iff.mp h).1 e he) hlimit

/-- An entry with separators, a line end and a percent sign in its texts and the least time. -/
def awkward : Entry :=
  { time := Int64.minValue
    question := [0x00, 0xFF]
    answer := [0x26]
    client := ascii "a&b=c%41\nd"
    resolver := [0x0D, 0x00, 0xFF]
    verdict := ⟨true, ⟨6⟩, ascii "||x^&=", -1⟩
    elapsed := Int64.maxValue }

/-- The awkward entry is written and read back, and with an unknown reason it is refused. -/
theorem encodeAll_roundTrip_awkward :
    (∃ text, encodeAll [awkward] = .ok text ∧ decodeAll text = .ok [awkward]) ∧
    ∃ cause,
      encodeAll [awkward, { awkward with verdict := ⟨true, ⟨7⟩, [], 0⟩ }] = .error cause := by
  constructor
  · obtain ⟨text, htext, -, hread, -⟩ := (encodeAll_roundTrip [awkward]).1 (by decide)
    exact ⟨text, htext, hread⟩
  · exact (encodeAll_roundTrip [awkward, { awkward with verdict := ⟨true, ⟨7⟩, [], 0⟩ }]).2.2
      ⟨{ awkward with verdict := ⟨true, ⟨7⟩, [], 0⟩ }, by simp, by decide⟩

end Record

end ResolverLog
