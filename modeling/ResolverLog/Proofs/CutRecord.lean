import ResolverLog.Proofs.Replay
import ResolverLog.Proofs.Results
import ResolverLog.Proofs.Runs

/-!
# Records that are cut short

A record has no mark at its end, and a reader supplies what is missing of its
optional fields. The beginning of a record is therefore refused in most places,
but not in all: from the question on it is read wherever the field that the cut
goes through can still be read. What it is read as then is no entry that was
logged but what is left of one. The fields in front of the cut are those of the
entry, the value in the cut is a beginning of what was written, and the fields
behind the cut have their defaults.

A log that is cut off at any byte therefore delivers the entries whose records
are whole, and after them at most one that is left of the next entry.

## Implementation notes

The beginning of written fields consists of whole fields and the beginning of
one more. Each writer of values has a lemma that what is read of a beginning of
its text was written by the same writer, so that the text is in every case the
beginning of the record of what it is read as.
-/

namespace ResolverLog

open Bytes

namespace Record

open Results (bind_eq_ok_iff)

variable {found : Fields} {e x : Entry} {start key value : Bytes}

/-! ## What fields describe -/

/-- What the fields of a record say, field by field, where they describe an entry. -/
structure Describes (found : Fields) (x : Entry) : Prop where
  version : (required found (ascii "v") >>= integer (ascii "v")) = .ok version
  time : (required found (ascii "t") >>= integer (ascii "t")) = .ok x.time
  question : (required found (ascii "q") >>= payload) = .ok x.question
  answer : optional found (ascii "a") [] payload = .ok x.answer
  client : (found.lookup (ascii "ip")).getD [] = x.client
  resolver : (found.lookup (ascii "up")).getD [] = x.resolver
  filtered : optional found (ascii "f") false flag = .ok x.verdict.filtered
  reason : optional found (ascii "reason") .notFiltered reason = .ok x.verdict.reason
  rule : (found.lookup (ascii "rule")).getD [] = x.verdict.rule
  listId : optional found (ascii "fid") 0 (integer (ascii "fid")) = .ok x.verdict.listId
  elapsed : optional found (ascii "el") 0 (integer (ascii "el")) = .ok x.elapsed

/-- Fields are read as the entry that they describe. -/
theorem ofFields_eq_ok_iff : ofFields found = .ok x ↔ Describes found x := by
  constructor
  · intro h
    obtain ⟨vt, hvt, h⟩ := bind_eq_ok_iff.mp h
    obtain ⟨v, hv, h⟩ := bind_eq_ok_iff.mp h
    dsimp only at h
    split at h
    · obtain ⟨_, h, -⟩ := bind_eq_ok_iff.mp h
      cases h
    · rename_i hversion
      obtain rfl : v = version := by simpa using hversion
      obtain ⟨tt, htt, h⟩ := bind_eq_ok_iff.mp h
      obtain ⟨t, ht, h⟩ := bind_eq_ok_iff.mp h
      obtain ⟨qt, hqt, h⟩ := bind_eq_ok_iff.mp h
      obtain ⟨q, hq, h⟩ := bind_eq_ok_iff.mp h
      obtain ⟨a, ha, h⟩ := bind_eq_ok_iff.mp h
      obtain ⟨f, hf, h⟩ := bind_eq_ok_iff.mp h
      obtain ⟨r, hr, h⟩ := bind_eq_ok_iff.mp h
      obtain ⟨fid, hfid, h⟩ := bind_eq_ok_iff.mp h
      obtain ⟨el, hel, h⟩ := bind_eq_ok_iff.mp h
      cases h
      exact ⟨bind_eq_ok_iff.mpr ⟨vt, hvt, hv⟩, bind_eq_ok_iff.mpr ⟨tt, htt, ht⟩,
        bind_eq_ok_iff.mpr ⟨qt, hqt, hq⟩, ha, rfl, rfl, hf, hr, rfl, hfid, hel⟩
  · intro h
    obtain ⟨hv, ht, hq, ha, hip, hup, hf, hr, hrule, hfid, hel⟩ := h
    obtain ⟨vt, hvt, hv⟩ := bind_eq_ok_iff.mp hv
    obtain ⟨tt, htt, ht⟩ := bind_eq_ok_iff.mp ht
    obtain ⟨qt, hqt, hq⟩ := bind_eq_ok_iff.mp hq
    rw [ofFields]
    simp only [hvt, hv, htt, ht, hqt, hq, ha, hip, hup, hf, hr, hrule, hfid, hel, bind,
      Except.bind, bne_self_eq_false]
    rfl

/-! ## Values that are cut off -/

/-- The entry that a record describes with its optional fields missing, at time zero. -/
def blank : Entry :=
  ⟨0, [], [], [], [], .pass, 0⟩

/-- What is written behind a key of an entry's record, before escaping. -/
def valueOf (e : Entry) (key : Bytes) : Bytes :=
  ((pairs e).lookup key).getD []

theorem pairs_eq (e : Entry) : pairs e = keys.map fun key => (key, valueOf e key) := rfl

/-- What is read of the beginning of a number is written in the same way. -/
theorem eq_of_integer (n : Int) {m : Int64} (hp : value <+: Decimal.ofInt n)
    (h : integer key value = .ok m) : value = Decimal.ofInt m.toInt := by
  rw [integer] at h
  split at h
  · rename_i k hk
    cases h
    exact Decimal.eq_ofInt_of_int64? hp hk
  · cases h

@[inherit_doc eq_of_integer]
theorem eq_of_payload (data : Bytes) {read : Bytes} (hp : value <+: Base64.encode data)
    (h : payload value = .ok read) : value = Base64.encode read ∧ read <+: data := by
  rw [payload] at h
  split at h
  · rename_i hk
    cases h
    exact Base64.eq_encode_of_decode hp hk
  · cases h

theorem eq_of_flag {b : Bool} (h : flag value = .ok b) :
    value = if b then ascii "1" else ascii "0" := by
  rw [flag] at h
  split at h
  · rename_i hone
    cases h
    exact eq_of_beq hone
  · split at h
    · rename_i hzero
      cases h
      exact eq_of_beq hzero
    · cases h

/-- A reason that is read is known. -/
theorem eq_of_reason (n : Int) {r : Reason} (hp : value <+: Decimal.ofInt n)
    (h : reason value = .ok r) :
    value = Decimal.ofInt r.code.toInt ∧ 0 ≤ r.code.toInt ∧ r.code.toInt ≤ 6 := by
  obtain ⟨code, hcode, h⟩ := bind_eq_ok_iff.mp h
  split at h
  · rename_i hrange
    rw [Bool.and_eq_true, decide_eq_true_eq, decide_eq_true_eq, Reason.last] at hrange
    cases h
    have hsame : code.toInt32.toInt = code.toInt := by
      rw [Int64.toInt_toInt32]
      exact Int.bmod_eq_of_le (by omega) (by omega)
    rw [eq_of_integer n hp hcode, hsame]
    exact ⟨rfl, hrange⟩
  · cases h

section Fields

variable {α : Type} {read : Bytes → Except DecodeError α} (write : α → Bytes) {default y : α}

theorem exists_of_required (h : (required found key >>= read) = .ok y) :
    ∃ value, found.lookup key = some value ∧ read value = .ok y := by
  obtain ⟨value, hvalue, h⟩ := bind_eq_ok_iff.mp h
  rw [required] at hvalue
  split at hvalue
  · rename_i hlookup
    cases hvalue
    exact ⟨value, hlookup, h⟩
  · cases hvalue

theorem cases_of_optional (h : optional found key default read = .ok y) :
    (∃ value, found.lookup key = some value ∧ read value = .ok y) ∨
      found.lookup key = none ∧ y = default := by
  rw [optional] at h
  split at h
  · rename_i value hlookup
    exact .inl ⟨value, hlookup, h⟩
  · rename_i hlookup
    cases h
    exact .inr ⟨hlookup, rfl⟩

theorem lookup_of_required (h : (required found key >>= read) = .ok y)
    (hread : ∀ value, found.lookup key = some value → read value = .ok y → value = write y) :
    found.lookup key = some (write y) := by
  obtain ⟨value, hlookup, h⟩ := exists_of_required h
  rw [hlookup, hread value hlookup h]

theorem getD_of_optional (h : optional found key default read = .ok y)
    (hread : ∀ value, found.lookup key = some value → read value = .ok y → value = write y) :
    (found.lookup key).getD (write default) = write y := by
  rcases cases_of_optional h with ⟨value, hlookup, h⟩ | ⟨hlookup, rfl⟩
  · rw [hlookup, Option.getD_some, hread value hlookup h]
  · rw [hlookup, Option.getD_none]

theorem required_of_lookup (h : found.lookup key = some (write y))
    (hback : read (write y) = .ok y) : (required found key >>= read) = .ok y := by
  apply bind_eq_ok_iff.mpr
  refine ⟨write y, ?_, hback⟩
  rw [required, h]

theorem optional_of_getD (h : (found.lookup key).getD (write default) = write y)
    (hback : read (write y) = .ok y) (hdefault : read (write default) = .ok default) :
    optional found key default read = .ok y := by
  rw [optional]
  cases hlookup : found.lookup key with
  | some value =>
      rw [hlookup, Option.getD_some] at h
      rw [h]
      exact hback
  | none =>
      rw [hlookup, Option.getD_none] at h
      rw [← h, hdefault] at hback
      exact hback

end Fields

/-- Numbers, flags and reasons as they are written. -/
def numberText (n : Int64) : Bytes := Decimal.ofInt n.toInt

@[inherit_doc numberText]
def flagText (b : Bool) : Bytes := if b then ascii "1" else ascii "0"

@[inherit_doc numberText]
def reasonText (r : Reason) : Bytes := Decimal.ofInt r.code.toInt

/-- What beginnings of the values of an entry that can be stored describe can be stored. -/
theorem Describes.storable (h : Describes found x) (he : e.Storable)
    (hfound : ∀ key value, found.lookup key = some value → value <+: valueOf e key) :
    x.Storable := by
  have hreason : 0 ≤ x.verdict.reason.code.toInt ∧ x.verdict.reason.code.toInt ≤ 6 := by
    rcases cases_of_optional h.reason with ⟨value, hlookup, hread⟩ | ⟨-, hdefault⟩
    · exact (eq_of_reason e.verdict.reason.code.toInt (hfound _ value hlookup) hread).2
    · rw [hdefault]
      decide
  refine ⟨?_, ?_, hreason.1, hreason.2⟩
  · obtain ⟨value, hlookup, hread⟩ := exists_of_required h.question
    have hp := (eq_of_payload e.question (hfound _ value hlookup) hread).2
    exact hp.length_le.trans he.question_le
  · rcases cases_of_optional h.answer with ⟨value, hlookup, hread⟩ | ⟨-, hdefault⟩
    · have hp := (eq_of_payload e.answer (hfound _ value hlookup) hread).2
      exact hp.length_le.trans he.answer_le
    · rw [hdefault]
      exact Nat.zero_le _

/-- The values of what beginnings of values describe are these beginnings, or defaults. -/
theorem Describes.values (h : Describes found x)
    (hfound : ∀ key value, found.lookup key = some value → value <+: valueOf e key) :
    (∀ key ∈ keys.take 3, found.lookup key = some (valueOf x key)) ∧
      ∀ key ∈ keys, valueOf x key = (found.lookup key).getD (valueOf blank key) := by
  have number (key : Bytes) (m : Int64) (n : Int) (hn : valueOf e key = Decimal.ofInt n)
      (value : Bytes) (hlookup : found.lookup key = some value)
      (hread : integer key value = .ok m) : value = numberText m :=
    eq_of_integer n (hn ▸ hfound key value hlookup) hread
  have hv := lookup_of_required numberText h.version (number _ _ Record.version.toInt rfl)
  have ht := lookup_of_required numberText h.time (number _ _ e.time.toInt rfl)
  have hq := lookup_of_required Base64.encode h.question fun value hlookup hread =>
    (eq_of_payload e.question (hfound _ value hlookup) hread).1
  have ha := getD_of_optional Base64.encode h.answer fun value hlookup hread =>
    (eq_of_payload e.answer (hfound _ value hlookup) hread).1
  have hf := getD_of_optional flagText h.filtered fun value _ hread => eq_of_flag hread
  have hreason := getD_of_optional reasonText h.reason fun value hlookup hread =>
    (eq_of_reason e.verdict.reason.code.toInt (hfound _ value hlookup) hread).1
  have hfid := getD_of_optional numberText h.listId (number _ _ e.verdict.listId.toInt rfl)
  have hel := getD_of_optional numberText h.elapsed (number _ _ e.elapsed.toInt rfl)
  have hrequired : ∀ key ∈ keys.take 3, found.lookup key = some (valueOf x key) := by
    simp only [keys, List.take_succ_cons, List.take_zero, List.forall_mem_cons]
    exact ⟨hv, ht, hq, List.forall_mem_nil _⟩
  refine ⟨hrequired, ?_⟩
  simp only [keys, List.forall_mem_cons]
  refine ⟨?_, ?_, ?_, ha.symm, h.client.symm, h.resolver.symm, hf.symm, hreason.symm,
    h.rule.symm, hfid.symm, hel.symm, List.forall_mem_nil _⟩
  · rw [hrequired _ (by decide), Option.getD_some]
  · rw [hrequired _ (by decide), Option.getD_some]
  · rw [hrequired _ (by decide), Option.getD_some]

/-- An entry is described by its own values, where those that are missing have defaults. -/
theorem describes_of_values (hs : x.Storable)
    (hrequired : ∀ key ∈ keys.take 3, found.lookup key = some (valueOf x key))
    (hvalue : ∀ key ∈ keys, valueOf x key = (found.lookup key).getD (valueOf blank key)) :
    Describes found x where
  version := required_of_lookup numberText (hrequired _ (by decide)) (integer_ofInt _ _)
  time := required_of_lookup numberText (hrequired _ (by decide)) (integer_ofInt _ _)
  question := required_of_lookup Base64.encode (hrequired _ (by decide)) (payload_encode _)
  answer := optional_of_getD Base64.encode (hvalue _ (by decide)).symm (payload_encode _)
    (payload_encode _)
  client := (hvalue (ascii "ip") (by decide)).symm
  resolver := (hvalue (ascii "up") (by decide)).symm
  filtered := optional_of_getD flagText (hvalue _ (by decide)).symm (flag_text _) (flag_text _)
  reason := optional_of_getD reasonText (hvalue _ (by decide)).symm
    (reason_ofInt hs.reason_nonneg hs.reason_le) (reason_ofInt (by decide) (by decide))
  rule := (hvalue (ascii "rule") (by decide)).symm
  listId := optional_of_getD numberText (hvalue _ (by decide)).symm (integer_ofInt _ _)
    (integer_ofInt _ _)
  elapsed := optional_of_getD numberText (hvalue _ (by decide)).symm (integer_ofInt _ _)
    (integer_ofInt _ _)

/-! ## The beginning of a record -/

/-- The fields of an entry's record in front of a cut, the value of the last one cut off. -/
def IsFront (e : Entry) (found : Fields) : Prop :=
  ∃ front key whole behind value, pairs e = front ++ (key, whole) :: behind ∧ value <+: whole ∧
    found = front ++ [(key, value)]

theorem IsFront.keys_eq (h : IsFront e found) :
    keys = found.map Prod.fst ++ keys.drop found.length := by
  obtain ⟨front, key, whole, behind, value, hpairs, -, rfl⟩ := h
  have hprefix : (front ++ [(key, value)]).map Prod.fst <+: keys := by
    refine ⟨behind.map Prod.fst, ?_⟩
    rw [← map_fst_pairs e, hpairs]
    simp
  simpa using (List.prefix_iff_eq_append.mp hprefix).symm

theorem IsFront.mem_keys (h : IsFront e found) {pair : Bytes × Bytes} (hp : pair ∈ found) :
    pair.1 ∈ keys := by
  rw [h.keys_eq]
  exact List.mem_append_left _ (List.mem_map_of_mem hp)

theorem IsFront.nodup (h : IsFront e found) : (found.map Prod.fst).Nodup := by
  have hkeys := nodup_keys
  rw [h.keys_eq] at hkeys
  exact hkeys.of_append_left

theorem IsFront.isSome_lookup_iff (h : IsFront e found) :
    (found.lookup key).isSome ↔ key ∈ keys.take found.length := by
  have hkeys : keys.take found.length = found.map Prod.fst := by
    conv_lhs => rw [h.keys_eq]
    exact List.take_left' (List.length_map _)
  rw [hkeys, ← not_iff_not, Option.not_isSome_iff_eq_none, Lookup.lookup_eq_none_iff_notMem]

theorem IsFront.ne_nil (h : IsFront e found) : found ≠ [] := by
  obtain ⟨front, key, whole, behind, value, -, -, rfl⟩ := h
  simp

/-- Each value in front of the cut is a beginning of what the entry has there. -/
theorem IsFront.prefix_valueOf (h : IsFront e found) (hlookup : found.lookup key = some value) :
    value <+: valueOf e key := by
  have hmem : (key, value) ∈ found := Lookup.mem_of_lookup hlookup
  have hwhole : ∃ whole, (key, whole) ∈ pairs e ∧ value <+: whole := by
    obtain ⟨front, key', whole, behind, value', hpairs, hprefix, rfl⟩ := h
    rcases List.mem_append.mp hmem with hmem | hmem
    · exact ⟨value, hpairs ▸ List.mem_append_left _ hmem, List.prefix_rfl⟩
    · cases List.mem_singleton.mp hmem
      exact ⟨whole, hpairs ▸ List.mem_append_right _ List.mem_cons_self, hprefix⟩
  obtain ⟨whole, hpair, hprefix⟩ := hwhole
  rw [pairs_eq] at hpair
  obtain ⟨key', -, heq⟩ := List.mem_map.mp hpair
  cases heq
  exact hprefix

/-- Values that are filled in from others where they are missing. -/
theorem map_getD_lookup (fill : Bytes → Bytes) (found : Fields) {rest : List Bytes}
    (h : (found.map Prod.fst ++ rest).Nodup) :
    ((found.map Prod.fst ++ rest).map fun key => (key, (found.lookup key).getD (fill key)))
      = found ++ rest.map fun key => (key, fill key) := by
  induction found with
  | nil => rfl
  | cons pair found ih =>
      obtain ⟨key, value⟩ := pair
      rw [List.map_cons, List.cons_append, List.nodup_cons] at h
      rw [List.map_cons, List.cons_append, List.map_cons, List.lookup_cons_self,
        Option.getD_some, List.cons_append, ← ih h.2]
      congr 1
      apply List.map_congr_left
      intro other hother
      have hne : (other == key) = false := by
        rw [beq_eq_false_iff_ne]
        rintro rfl
        exact h.1 hother
      rw [List.lookup_cons, hne]

/-- The fields in front of a cut describe an entry exactly if its record has just these fields
there and defaults behind them, and if the question is among them. -/
theorem IsFront.describes_iff (h : IsFront e found) (he : e.Storable) :
    Describes found x ↔
      x.Storable ∧ 3 ≤ found.length ∧ pairs x = found ++ (pairs blank).drop found.length := by
  have hnodup : (found.map Prod.fst ++ keys.drop found.length).Nodup := h.keys_eq ▸ nodup_keys
  have hfilled : (keys.map fun key => (key, (found.lookup key).getD (valueOf blank key)))
      = found ++ (pairs blank).drop found.length := by
    conv_lhs => rw [h.keys_eq]
    rw [map_getD_lookup _ _ hnodup, pairs_eq blank, List.map_drop]
  have hvalues : (∀ key ∈ keys, valueOf x key = (found.lookup key).getD (valueOf blank key)) ↔
      pairs x = found ++ (pairs blank).drop found.length := by
    rw [← hfilled, pairs_eq x, List.map_inj_left]
    simp
  constructor
  · intro hd
    obtain ⟨hrequired, hvalue⟩ := hd.values fun key value => h.prefix_valueOf
    refine ⟨hd.storable he fun key value => h.prefix_valueOf, ?_, hvalues.mp hvalue⟩
    by_contra hlt
    have hq : (found.lookup (ascii "q")).isSome := by
      rw [hrequired _ (by decide)]
      rfl
    have hmem : ascii "q" ∈ keys.take 2 := by
      apply List.take_subset_take_left keys (by omega : found.length ≤ 2)
      exact h.isSome_lookup_iff.mp hq
    exact absurd hmem (by decide)
  · rintro ⟨hs, hlength, hpairs⟩
    have hvalue := hvalues.mpr hpairs
    refine describes_of_values hs ?_ hvalue
    intro key hkey
    have hsome : (found.lookup key).isSome :=
      h.isSome_lookup_iff.mpr (List.take_subset_take_left keys hlength hkey)
    obtain ⟨value, hlookup⟩ := Option.isSome_iff_exists.mp hsome
    rw [hvalue key (List.mem_of_mem_take hkey), hlookup, Option.getD_some]

/-- The beginning of a written field is a field when it reaches behind the equals sign and does not
end inside an escape, and then it is written with a beginning of the value. -/
theorem reads_of_prefix_written {piece whole : Bytes} {pair : Bytes × Bytes}
    (hkey : (0x3D : UInt8) ∉ key) (hp : piece <+: written (key, whole)) (h : Reads piece pair) :
    ∃ value, value <+: whole ∧ piece = written (key, value) ∧ pair = (key, value) := by
  obtain ⟨name, value⟩ := pair
  obtain ⟨-, hname, escaped, rfl, hvalue⟩ := h
  have hsame : name = key ∧ escaped <+: Percent.encode whole := by
    obtain ⟨behind, hbehind⟩ := hp
    have hcuts : cutAt? 0x3D (name ++ 0x3D :: (escaped ++ behind))
        = cutAt? 0x3D (key ++ 0x3D :: Percent.encode whole) := by
      apply congrArg
      simpa [written] using hbehind
    rw [cutAt?_append_cons hname, cutAt?_append_cons hkey] at hcuts
    obtain ⟨hkeys, hvalues⟩ := Prod.mk.inj (Option.some.inj hcuts)
    exact ⟨hkeys, behind, hvalues⟩
  obtain ⟨rfl, hescaped⟩ := hsame
  obtain ⟨rfl, hprefix⟩ := Percent.eq_encode_of_decode hescaped hvalue
  exact ⟨value, hprefix, rfl, rfl⟩

/-- The beginning of a record that falls into fields is the text of those in front of a cut. -/
theorem isFront_of_fields (hp : start <+: line e) (h : fields start = .ok found) :
    IsFront e found ∧ start = join [0x26] (found.map written) := by
  have htrim : trimLineEnd start = start := by
    have hends : trimLineEnd (start ++ []) = start :=
      trimLineEnd_append (fun b hb => ne_of_mem_line (hp.subset hb)) (List.forall_mem_nil _)
    rwa [List.append_nil] at hends
  rw [fields, htrim] at h
  split at h
  · cases h
  · rw [line_eq_join] at hp
    obtain ⟨before, whole, behind, piece, hpieces, hpiece, rfl⟩ :=
      prefix_join (by simp [pairs]) hp
    obtain ⟨front, rest, hpairs, rfl, hrest⟩ := List.map_eq_append_iff.mp hpieces
    obtain ⟨⟨key, value⟩, behind, rfl, rfl, rfl⟩ := List.map_eq_cons_iff.mp hrest
    have hwhole : IsFront e (front ++ [(key, value)]) :=
      ⟨front, key, value, behind, value, hpairs, List.prefix_rfl, rfl⟩
    have hfront : ∀ pair ∈ front, pair.1 ∈ keys := fun pair hpair =>
      hwhole.mem_keys (List.mem_append_left _ hpair)
    have hkey : key ∈ keys := hwhole.mem_keys (List.mem_append_right front List.mem_cons_self)
    have hsplit : splitOn 0x26 (join [0x26] (front.map written ++ [piece]))
        = front.map written ++ [piece] := by
      apply splitOn_join (by simp)
      intro field hfield
      rcases List.mem_append.mp hfield with hfield | hfield
      · obtain ⟨pair, hpair, rfl⟩ := List.mem_map.mp hfield
        exact ampersand_notMem_written (hfront pair hpair)
      · rw [List.mem_singleton.mp hfield]
        exact fun hamp => ampersand_notMem_written hkey (hpiece.subset hamp)
    rw [hsplit, fieldsFrom_nil_eq_ok_iff] at h
    obtain ⟨before, last, hbefore, hlast, rfl⟩ := forall₂_append_iff.mp h.1
    have hkeys : ∀ pair ∈ front, pair.1 ≠ [] ∧ (0x3D : UInt8) ∉ pair.1 := fun pair hpair =>
      isKey_of_mem_keys (hfront pair hpair)
    obtain rfl := (forall₂_written hkeys).mp hbefore
    obtain ⟨pair, none, hpair, hnone, rfl⟩ := List.forall₂_cons_left_iff.mp hlast
    obtain rfl := List.forall₂_nil_left_iff.mp hnone
    obtain ⟨cut, hcut, rfl, rfl⟩ := reads_of_prefix_written (isKey_of_mem_keys hkey).2 hpiece hpair
    constructor
    · exact ⟨before, key, value, behind, cut, hpairs, hcut, rfl⟩
    · simp

/-- What is left of an entry in the beginning of its record, which has the fields `found`: `x` has
these fields, of which the last may be cut off, and defaults for the others. -/
structure Remnant (e x : Entry) (found : Fields) : Prop where
  storable : x.Storable
  front : IsFront e found
  question : 3 ≤ found.length
  pairs_eq : pairs x = found ++ (pairs blank).drop found.length

/-- The beginning of a record is read as an entry exactly if it is the text of the fields that it
has of what is left of the recorded one. -/
theorem decode_prefix_iff (he : e.Storable) (hp : start <+: line e) :
    decode start = .ok x ↔
      ∃ found, Remnant e x found ∧ start = join [0x26] (found.map written) := by
  constructor
  · intro h
    obtain ⟨found, hfields, h⟩ := bind_eq_ok_iff.mp h
    obtain ⟨hfront, hstart⟩ := isFront_of_fields hp hfields
    obtain ⟨hs, hquestion, hpairs⟩ := (hfront.describes_iff he).mp (ofFields_eq_ok_iff.mp h)
    exact ⟨found, ⟨hs, hfront, hquestion, hpairs⟩, hstart⟩
  · rintro ⟨found, ⟨hs, hfront, hquestion, hpairs⟩, rfl⟩
    have hfields := fields_join_written hfront.ne_nil (fun _ => hfront.mem_keys) hfront.nodup
      (List.forall_mem_nil _)
    rw [List.append_nil] at hfields
    apply bind_eq_ok_iff.mpr
    refine ⟨found, hfields, ?_⟩
    exact ofFields_eq_ok_iff.mpr ((hfront.describes_iff he).mpr ⟨hs, hquestion, hpairs⟩)

/-! ## The beginning of a log -/

/-- The entries whose records, newlines aside, lie within the first `n` bytes of a log. -/
def whole : List Entry → Nat → List Entry
  | [], _ => []
  | e :: rest, n =>
    if (line e).length ≤ n then e :: whole rest (n - (line e).length - 1) else []

/-- What the first `n` bytes of a log hold of the record behind the whole ones. -/
def torn : List Entry → Nat → Bytes
  | [], _ => []
  | e :: rest, n =>
    if (line e).length ≤ n then torn rest (n - (line e).length - 1) else (line e).take n

/-- What a reader makes of that. -/
def remnant? (entries : List Entry) (n : Nat) : Option Entry :=
  (decode (torn entries n)).toOption

/-- Behind the whole records there is nothing, or there is the next record, cut short. -/
theorem torn_cases (entries : List Entry) (n : Nat) :
    torn entries n = [] ∨ ∃ e behind k, entries = whole entries n ++ e :: behind ∧
      k < (line e).length ∧ torn entries n = (line e).take k := by
  induction entries generalizing n with
  | nil => exact .inl rfl
  | cons e rest ih =>
      by_cases hn : (line e).length ≤ n
      · rw [whole, torn, if_pos hn, if_pos hn]
        rcases ih (n - (line e).length - 1) with hnil | ⟨next, behind, k, hrest, hk, htorn⟩
        · exact .inl hnil
        · exact .inr ⟨next, behind, k, congrArg (e :: ·) hrest, hk, htorn⟩
      · rw [whole, torn, if_neg hn, if_neg hn]
        exact .inr ⟨e, rest, n, rfl, Nat.not_le.mp hn, rfl⟩

theorem prefix_whole (entries : List Entry) (n : Nat) : whole entries n <+: entries := by
  induction entries generalizing n with
  | nil => exact List.prefix_rfl
  | cons e rest ih =>
      rw [whole]
      split
      · exact (List.prefix_cons_inj e).mpr (ih _)
      · exact List.nil_prefix

/-- The lines of a log that is cut off are its whole records and what is left of the next one. -/
theorem lines_take (entries : List Entry) (n : Nat) :
    lines ((ofLines (entries.map line)).take n)
      = (whole entries n).map line ++ [torn entries n].filter (· ≠ []) := by
  induction entries generalizing n with
  | nil => simp [ofLines, whole, torn, lines, terminated_nil]
  | cons e rest ih =>
      rw [List.map_cons, ofLines_cons, List.take_append]
      by_cases hn : (line e).length ≤ n
      · rw [List.take_of_length_le hn, whole, torn, if_pos hn, if_pos hn, List.map_cons,
          List.cons_append, ← ih]
        cases n - (line e).length with
        | zero =>
            rw [List.take_zero, List.append_nil, lines_of_notMem (newline_notMem_line e)]
            simp [line_ne_nil, lines, terminated_nil]
        | succ k =>
            rw [List.take_succ_cons, Nat.add_sub_cancel]
            exact terminated_append_cons (newline_notMem_line e) _
      · rw [whole, torn, if_neg hn, if_neg hn, Nat.sub_eq_zero_of_le (Nat.le_of_not_le hn),
          List.take_zero, List.append_nil, List.map_nil, List.nil_append]
        apply lines_of_notMem
        exact fun hmem => newline_notMem_line e (List.mem_of_mem_take hmem)

end Record

namespace Archive

open Record

variable {archive : Archive} {files : Files} {active backup entries : List Entry} {n m : Nat}

theorem deliverable?_eq_filter (window : Int) (now : Int64) (text : Bytes) :
    (deliverable? window now text).toList
      = (decode text).toOption.toList.filter fun e => e.age now ≤ window := by
  by_cases hne : text = []
  · subst hne
    rfl
  · rw [deliverable?, List.isEmpty_eq_false_iff.mpr hne]
    cases decode text with
    | error cause => rfl
    | ok e =>
        by_cases hage : e.age now ≤ window
        · simp [Except.toOption, hage]
        · simp [Except.toOption, hage]

/-- A file that holds the beginning of a log delivers the entries whose records are whole and
what is left of the next one, if these are not too old. -/
theorem delivery_take {path : Bytes} (hs : ∀ e ∈ entries, e.Storable)
    (h : files.contents path = (ofLines (entries.map line)).take n) (window : Int) (now : Int64) :
    delivery files window now path
      = (whole entries n ++ (remnant? entries n).toList).filter fun e => e.age now ≤ window := by
  have hwhole : ∀ e ∈ whole entries n, e.Storable := fun e he =>
    hs e ((prefix_whole entries n).subset he)
  have htorn : ([torn entries n].filter (· ≠ [])).filterMap (deliverable? window now)
      = (deliverable? window now (torn entries n)).toList := by
    by_cases hnil : torn entries n = []
    · simp [hnil, deliverable?]
    · rw [List.filter_cons_of_pos (by simpa using hnil), List.filter_nil]
      cases hd : deliverable? window now (torn entries n) with
      | none => rw [List.filterMap_cons_none hd]; rfl
      | some x => rw [List.filterMap_cons_some hd]; rfl
  rw [delivery, h, lines_take, List.filterMap_append, filterMap_deliverable?_lines hwhole, htorn,
    deliverable?_eq_filter, remnant?, List.filter_append]

/-- What is left of a record at the end of a log is read as what is left of its entry. -/
theorem remnant?_eq_some_iff {x : Entry} (hs : ∀ e ∈ entries, e.Storable) :
    remnant? entries n = some x ↔
      ∃ e behind found, entries = whole entries n ++ e :: behind ∧ Remnant e x found ∧
        torn entries n = join [0x26] (found.map written) := by
  have hread : remnant? entries n = some x ↔ decode (torn entries n) = .ok x := by
    rw [remnant?]
    cases decode (torn entries n) with
    | error cause => simp [Except.toOption]
    | ok y => simp [Except.toOption]
  rw [hread]
  rcases torn_cases entries n with hnil | ⟨e, behind, k, hentries, -, htorn⟩
  · rw [hnil]
    constructor
    · intro h
      cases h
    · rintro ⟨e, behind, found, -, hleft, hfound⟩
      exact absurd hfound.symm (join_written_ne_nil hleft.front.ne_nil)
  · have he : e.Storable := hs e (hentries ▸ List.mem_append_right _ List.mem_cons_self)
    rw [htorn, decode_prefix_iff he (List.take_prefix k _)]
    constructor
    · rintro ⟨found, hleft, hfound⟩
      exact ⟨e, behind, found, hentries, hleft, hfound⟩
    · rintro ⟨other, behind', found, hother, hleft, hfound⟩
      have hsame := List.append_cancel_left (hentries.symm.trans hother)
      obtain ⟨rfl, -⟩ := List.cons.inj hsame
      exact ⟨found, hleft, hfound⟩

/-- The beginning of a record is refused, or it is what is left of the entry: its fields in front of
the cut, the question among them and the last one cut off, with defaults for the others. Files that
hold the beginnings of logs, cut off at any bytes, deliver the entries whose records are whole and
behind them, for each file, at most what is left of the next entry, as far as these are not too
old. -/
theorem replay_take (hactive : ∀ e ∈ active, e.Storable) (hbackup : ∀ e ∈ backup, e.Storable)
    (ha : files.contents archive.path = (ofLines (active.map line)).take n)
    (hb : files.contents archive.backupPath = (ofLines (backup.map line)).take m)
    (window : Int) (now : Int64) :
    archive.replay files window now
      = ((whole active n ++ (remnant? active n).toList)
        ++ (whole backup m ++ (remnant? backup m).toList)).filter (fun e => e.age now ≤ window) ∧
    (∀ entries k x, (∀ e ∈ entries, e.Storable) →
      (remnant? entries k = some x ↔
        ∃ e behind found, entries = whole entries k ++ e :: behind ∧ Remnant e x found ∧
          torn entries k = join [0x26] (found.map written))) ∧
    ∀ e : Entry, e.Storable → ∀ k x, (decode ((line e).take k) = .ok x ↔
      ∃ found, Remnant e x found ∧ (line e).take k = join [0x26] (found.map written)) := by
  refine ⟨?_, ?_, ?_⟩
  · rw [replay_eq, delivery_take hactive ha, delivery_take hbackup hb]
    exact (List.filter_append _ _).symm
  · intro entries k x hs
    exact remnant?_eq_some_iff hs
  · intro e he k x
    exact decode_prefix_iff he (List.take_prefix k _)

/-- An entry of a client whose address begins like that of another one. -/
def askedFar (time : Int64) : Entry :=
  { Entry.asking time with client := ascii "10.0.0.12" }

/-- A log of two records that is cut off inside the second, behind `&ip=10.0.0.1`. -/
def cutLog : Files :=
  (Files.empty.append? (ascii "q.log")
    ((ofLines ([askedFar 1, askedFar 5].map line)).take 150)).getD .empty

/-- The torn record is delivered as an entry of the other client. -/
theorem replay_take_insideClient :
    Archive.replay ⟨ascii "q.log"⟩ cutLog 10 8
      = [askedFar 1, { Entry.asking 5 with client := ascii "10.0.0.1" }] := by
  have ha : cutLog.contents (Archive.path ⟨ascii "q.log"⟩)
      = (ofLines ([askedFar 1, askedFar 5].map line)).take 150 := by
    decide +kernel
  have hb : cutLog.contents (Archive.backupPath ⟨ascii "q.log"⟩)
      = (ofLines (([] : List Entry).map line)).take 0 := by
    decide
  have hactive : ∀ e ∈ [askedFar 1, askedFar 5], e.Storable := by decide
  have hbackup : ∀ e ∈ ([] : List Entry), e.Storable := List.forall_mem_nil _
  rw [(replay_take hactive hbackup ha hb 10 8).1]
  decide +kernel

/-- Not every record that is cut short is refused. -/
theorem not_decode_take_eq_error :
    ¬ ∀ (e : Entry) (k : Nat), e.Storable → k < (line e).length →
      ∃ cause, decode ((line e).take k) = .error cause := by
  intro h
  obtain ⟨cause, hcause⟩ := h (askedFar 5) 57 (by decide) (by decide +kernel)
  have hread : decode ((line (askedFar 5)).take 57)
      = .ok { Entry.asking 5 with client := ascii "10.0.0.1" } := by
    decide +kernel
  rw [hread] at hcause
  cases hcause

end Archive

end ResolverLog
