import ResolverLog.Proofs.Replay
import ResolverLog.Proofs.Runs

/-!
# Appending behind a torn line

A crash in the middle of a write leaves a line without its newline at the end of
the active file. The next batch is written right behind it, so its first record
becomes one line with what is left there. All whole lines before it and all
further records of the batch are read as ever. The joined line is read as the
record that was appended, or not at all: not if the torn record has got as far
as its time, because then a key stands twice.

## Implementation notes

No line with a key that stands twice is a record. Both facts about the joined
line come from this: what is left of the torn record can only have put unknown
fields, or the version, in front of the fields of the new one.
-/

namespace ResolverLog

open Bytes

namespace Bytes

/-- The lines of a text that a newline ends. -/
def wholeLines (text : Bytes) : List Bytes :=
  (splitOn newline text).dropLast

/-- What stands behind the last newline of a text. -/
def tornLine (text : Bytes) : Bytes :=
  (splitOn newline text).getLast (splitOn_ne_nil newline text)

/-- The first of the records on lines of their own that follow a text goes to its torn line. -/
theorem lines_append_ofLines (text : Bytes) {record : Bytes} {records : List Bytes}
    (h : ∀ r ∈ record :: records, newline ∉ r) :
    lines (text ++ ofLines (record :: records))
      = wholeLines text ++ (tornLine text ++ record) :: records := by
  obtain ⟨hrecord, hrecords⟩ := List.forall_mem_cons.mp h
  obtain ⟨pieces, last, hp, -, hr⟩ := splitOn_append newline text
  have hwhole : wholeLines text = pieces := by
    simp only [wholeLines, hp, List.dropLast_concat]
  have htorn : tornLine text = last := by
    simp only [tornLine, hp, List.getLast_concat]
  calc lines (text ++ ofLines (record :: records))
      = terminated newline ((text ++ record) ++ newline :: ofLines records) := by
        rw [ofLines_cons, lines, List.append_assoc]
    _ = splitOn newline (text ++ record) ++ lines (ofLines records) :=
        terminated_append_sep newline (text ++ record) (ofLines records)
    _ = (pieces ++ [last ++ record]) ++ records := by
        rw [hr record hrecord, lines_ofLines hrecords]
    _ = wholeLines text ++ (tornLine text ++ record) :: records := by
        rw [hwhole, htorn, List.append_assoc, List.singleton_append]

/-- Records on lines of their own leave no torn line behind whole lines. -/
theorem tornLine_append_ofLines {text : Bytes} (h : tornLine text = []) (records : List Bytes) :
    tornLine (text ++ ofLines records) = [] := by
  rcases List.eq_nil_or_concat' records with rfl | ⟨before, last, rfl⟩
  · rw [ofLines, List.flatMap_nil, List.append_nil]
    exact h
  · have hend : text ++ ofLines (before ++ [last])
        = (text ++ ofLines before ++ last) ++ newline :: [] := by
      simp [ofLines]
    have hsplit := List.splitOn_append_cons_self (a := newline) (text ++ ofLines before ++ last) []
    have hnil : splitOn newline [] = [[]] := rfl
    rw [← splitOn_eq, ← hend, ← splitOn_eq, ← splitOn_eq, hnil] at hsplit
    simp only [tornLine, hsplit, List.getLast_concat]

/-- Text without the separator goes to the first piece of the text that it precedes. -/
theorem splitOn_append_of_notMem {sep : UInt8} {front : Bytes} (h : sep ∉ front) (rest : Bytes) :
    ∃ piece pieces, splitOn sep (front ++ rest) = (front ++ piece) :: pieces := by
  induction front with
  | nil => exact List.exists_cons_of_ne_nil (splitOn_ne_nil sep rest)
  | cons b front ih =>
      rw [List.mem_cons, not_or] at h
      obtain ⟨piece, pieces, hsplit⟩ := ih h.2
      refine ⟨piece, pieces, ?_⟩
      rw [splitOn] at hsplit ⊢
      rw [List.cons_append, splitWhere_cons hsplit, if_neg (by simpa using Ne.symm h.1),
        List.cons_append]

end Bytes

namespace Record

variable {found : Fields} {pieces : List Bytes}

/-! ## Keys that stand twice -/

/-- What stands before the first equals sign of a field. -/
def keyOf (piece : Bytes) : Bytes :=
  piece.takeWhile (· != 0x3D)

theorem keyOf_append {key : Bytes} (h : (0x3D : UInt8) ∉ key) (value : Bytes) :
    keyOf (key ++ 0x3D :: value) = key := by
  have hne : ∀ b ∈ key, (b != 0x3D) = true := by
    intro b hb
    rw [bne_iff_ne]
    rintro rfl
    exact h hb
  rw [keyOf, List.takeWhile_append_of_pos hne]
  simp

theorem map_keyOf_written {fields : Fields} (h : ∀ pair ∈ fields, (0x3D : UInt8) ∉ pair.1) :
    (fields.map written).map keyOf = fields.map Prod.fst := by
  rw [List.map_map, List.map_congr_left]
  intro pair hpair
  exact keyOf_append (h pair hpair) _

/-- The keys that are read are those of the pieces. -/
theorem map_keyOf_of_forall₂ (h : List.Forall₂ Reads pieces found) :
    pieces.map keyOf = found.map Prod.fst := by
  induction h with
  | nil => rfl
  | cons hpair _ ih =>
      obtain ⟨-, hkey, escaped, rfl, -⟩ := hpair
      rw [List.map_cons, List.map_cons, ih, keyOf_append hkey]

/-! ## The joined line -/

/-- The fields of a record behind the version. -/
def laterPairs (e : Entry) : Fields :=
  (pairs e).tail

theorem isKey_of_mem_laterPairs {e : Entry} {pair : Bytes × Bytes} (h : pair ∈ laterPairs e) :
    pair.1 ≠ [] ∧ (0x3D : UInt8) ∉ pair.1 :=
  isKey_of_mem_pairs (List.mem_of_mem_tail h)

/-- Behind torn text only the version of a record is not a field of its own. -/
theorem splitOn_append_line (torn : Bytes) (e : Entry) :
    splitOn 0x26 (torn ++ line e)
      = splitOn 0x26 (torn ++ ascii "v=1") ++ (laterPairs e).map written := by
  have hline : line e = ascii "v=1" ++ 0x26 :: join [0x26] ((laterPairs e).map written) := by
    rw [line_eq_join, pairs, List.map_cons, List.map_cons, join, List.intercalate_cons_cons,
      written, encode_version, ofInt_version]
    rfl
  have hsep : ∀ piece ∈ (laterPairs e).map written, (0x26 : UInt8) ∉ piece := fun piece hp =>
    ampersand_notMem_of_mem_map_written piece (List.mem_of_mem_tail (List.map_tail ▸ hp))
  have hjoin : splitOn 0x26 (join [0x26] ((laterPairs e).map written))
      = (laterPairs e).map written :=
    splitOn_join (List.cons_ne_nil _ _) hsep
  rw [hline, ← List.append_assoc, splitOn_eq, List.splitOn_append_cons_self, ← splitOn_eq,
    ← splitOn_eq, hjoin]

/-- A torn text with a record behind it is read as its fields behind others, and no key stands
twice. -/
theorem fields_append_line {torn : Bytes} {e : Entry} (h : fields (torn ++ line e) = .ok found) :
    (∃ before, found = before ++ laterPairs e) ∧
    found.map Prod.fst
      = (splitOn 0x26 (torn ++ ascii "v=1")).map keyOf ++ (laterPairs e).map Prod.fst ∧
    (found.map Prod.fst).Nodup := by
  have hempty : (torn ++ line e).isEmpty = false := by
    simp [line_ne_nil e]
  rw [fields, trimLineEnd_append_of_ne_nil torn (line_ne_nil e) fun b hb => ne_of_mem_line hb]
    at h
  simp only [hempty, Bool.false_eq_true, if_false] at h
  rw [splitOn_append_line] at h
  obtain ⟨hread, hnodup⟩ := fieldsFrom_nil_eq_ok_iff.mp h
  have hkeys := map_keyOf_of_forall₂ hread
  rw [List.map_append, map_keyOf_written fun pair hp => (isKey_of_mem_laterPairs hp).2] at hkeys
  obtain ⟨before, later, -, hlater, rfl⟩ := forall₂_append_iff.mp hread
  obtain rfl := (forall₂_written fun pair hp => isKey_of_mem_laterPairs hp).mp hlater
  exact ⟨⟨before, rfl⟩, hkeys.symm, hnodup⟩

theorem map_fst_laterPairs (e : Entry) : (laterPairs e).map Prod.fst = keys.tail := rfl

/-- Fields that end in those of an entry's record, with no key twice, describe that entry if they
describe any. -/
theorem ofFields_append_laterPairs {before : Fields} {e x : Entry} (hs : e.Storable)
    (hn : ((before ++ laterPairs e).map Prod.fst).Nodup)
    (h : ofFields (before ++ laterPairs e) = .ok x) : x = e := by
  have hlookup : ∀ key ∈ keys.tail,
      (before ++ laterPairs e).lookup key = (pairs e).lookup key := by
    intro key hkey
    have hbefore : key ∉ before.map Prod.fst := by
      rw [List.map_append, map_fst_laterPairs] at hn
      exact fun hmem => (List.nodup_append.mp hn).2.2 key hmem key hkey rfl
    have hversion : (key == ascii "v") = false :=
      (by decide : ∀ key ∈ keys.tail, (key == ascii "v") = false) key hkey
    rw [Lookup.lookup_append_of_notMem hbefore, pairs, List.lookup_cons, hversion]
    rfl
  rw [ofFields_of_lookup hs hlookup] at h
  cases hv : required (before ++ laterPairs e) (ascii "v") with
  | error cause =>
      rw [hv] at h
      cases h
  | ok value =>
      cases hi : integer (ascii "v") value with
      | error cause =>
          simp only [hv, hi, bind, Except.bind] at h
          cases h
      | ok v =>
          simp only [hv, hi, bind, Except.bind] at h
          split at h
          · cases h
          · exact (Except.ok.inj h).symm

/-- Whatever is left in front of a record, it is read as its entry or not at all. -/
theorem eq_of_decode_append_line {torn : Bytes} {e x : Entry} (hs : e.Storable)
    (h : decode (torn ++ line e) = .ok x) : x = e := by
  rw [decode] at h
  cases hf : fields (torn ++ line e) with
  | error cause =>
      rw [hf] at h
      cases h
  | ok found =>
      rw [hf] at h
      obtain ⟨⟨before, rfl⟩, -, hnodup⟩ := fields_append_line hf
      exact ofFields_append_laterPairs hs hnodup h

/-- The start of a record up to the equals sign of its time. -/
def upToTime : Bytes :=
  ascii "v=1&t="

/-- A record of which more than the key of its time is left is lost, and so is the one behind
it. -/
theorem decode_upToTime_append_line (more : Bytes) (e x : Entry) :
    decode (upToTime ++ more ++ line e) ≠ .ok x := by
  intro h
  rw [decode] at h
  cases hf : fields (upToTime ++ more ++ line e) with
  | error cause =>
      rw [hf] at h
      cases h
  | ok found =>
      obtain ⟨-, hkeys, hnodup⟩ := fields_append_line hf
      obtain ⟨value, pieces, hsplit⟩ :=
        splitOn_append_of_notMem (by decide : (0x26 : UInt8) ∉ ascii "t=") (more ++ ascii "v=1")
      have hpieces : splitOn 0x26 (upToTime ++ more ++ ascii "v=1")
          = ascii "v=1" :: (ascii "t" ++ 0x3D :: value) :: pieces := by
        calc splitOn 0x26 (upToTime ++ more ++ ascii "v=1")
            = splitOn 0x26 (ascii "v=1" ++ 0x26 :: (ascii "t=" ++ (more ++ ascii "v=1"))) := by
              rw [List.append_assoc]
              rfl
          _ = ascii "v=1" :: splitOn 0x26 (ascii "t=" ++ (more ++ ascii "v=1")) :=
              splitOn_append_cons (by decide) _
          _ = ascii "v=1" :: (ascii "t" ++ 0x3D :: value) :: pieces := by
              rw [hsplit]
              rfl
      rw [hkeys, hpieces, List.map_cons, List.map_cons, keyOf_append (by decide),
        map_fst_laterPairs] at hnodup
      exact (List.nodup_append.mp hnodup).2.2 (ascii "t") (by simp) (ascii "t") (by decide) rfl

/-- What a crash leaves of a record. -/
theorem take_line {n : Nat} (older : Entry) (hn : upToTime.length ≤ n) :
    ∃ more, (line older).take n = upToTime ++ more := by
  have hline : ∃ rest, line older = upToTime ++ rest := by
    simp only [line, field, ofInt_version, List.append_assoc, List.cons_append]
    exact ⟨_, rfl⟩
  obtain ⟨rest, hline⟩ := hline
  rw [hline, List.take_append, List.take_of_length_le hn]
  exact ⟨_, rfl⟩

end Record

namespace Archive

variable {archive : Archive} {files files' : Files} {window : Int} {now : Int64}

/-- The line that the first record of a batch becomes behind the text of the active file. -/
def joinedLine (archive : Archive) (files : Files) (e : Entry) : Bytes :=
  tornLine (files.contents archive.path) ++ Record.line e

theorem deliverable?_eq_some {line : Bytes} {e : Entry}
    (h : deliverable? window now line = some e) :
    Record.decode line = .ok e ∧ e.age now ≤ window := by
  rw [deliverable?] at h
  split at h
  · cases h
  · split at h
    · rename_i hdecode
      split at h
      · cases h
      · rename_i hage
        cases h
        exact ⟨hdecode, Int.not_lt.mp hage⟩
    · cases h

/-- A batch stands behind the old text, one record to a line. -/
theorem contents_append {entries : List Entry}
    (h : archive.append files entries = .ok files') (hne : entries ≠ []) :
    (∀ e ∈ entries, e.Storable) ∧
      files'.contents archive.path
        = files.contents archive.path ++ ofLines (entries.map Record.line) := by
  rw [append, List.isEmpty_eq_false_iff.mpr hne] at h
  cases hb : batch entries with
  | error cause =>
      simp only [hb] at h
      cases h
  | ok text =>
      simp only [hb] at h
      obtain ⟨hall, rfl⟩ := Record.encodeAll_eq_ok_iff.mp (encodeAll_of_batch hb)
      exact ⟨hall, (contents_put h).1⟩

/-- What is appended to an archive is delivered by a replay behind the whole lines that the active
file held before, but for the first record: behind a torn line that is delivered as it is or not
at all, and not at all if the crash came behind the sixth byte of the torn record. -/
theorem replay_append {e : Entry} {rest : List Entry}
    (h : archive.append files (e :: rest) = .ok files') (window : Int) (now : Int64) :
    archive.replay files' window now
      = (wholeLines (files.contents archive.path)).filterMap (deliverable? window now)
        ++ (deliverable? window now (archive.joinedLine files e)).toList
        ++ rest.filter (fun x => x.age now ≤ window)
        ++ delivery files' window now archive.backupPath ∧
    (tornLine (files.contents archive.path) = [] →
      deliverable? window now (archive.joinedLine files e)
        = if e.age now ≤ window then some e else none) ∧
    (∀ x, deliverable? window now (archive.joinedLine files e) = some x →
      x = e ∧ e.age now ≤ window) ∧
    ∀ older n, 6 ≤ n → tornLine (files.contents archive.path) = (Record.line older).take n →
      deliverable? window now (archive.joinedLine files e) = none := by
  obtain ⟨hall, htext⟩ := contents_append h (List.cons_ne_nil e rest)
  obtain ⟨he, hrest⟩ := List.forall_mem_cons.mp hall
  have hnewline : ∀ record ∈ (e :: rest).map Record.line, newline ∉ record :=
    Record.newline_notMem_of_mem_map_line
  have hlines : lines (files'.contents archive.path)
      = wholeLines (files.contents archive.path) ++ archive.joinedLine files e ::
        rest.map Record.line := by
    rw [htext]
    exact lines_append_ofLines _ hnewline
  refine ⟨?_, ?_, ?_, ?_⟩
  · have hjoined : (archive.joinedLine files e :: rest.map Record.line).filterMap
          (deliverable? window now)
        = (deliverable? window now (archive.joinedLine files e)).toList
          ++ rest.filter (fun x => x.age now ≤ window) := by
      rw [← filterMap_deliverable?_lines hrest window now]
      cases hd : deliverable? window now (archive.joinedLine files e) with
      | none => rw [List.filterMap_cons_none hd]; rfl
      | some x => rw [List.filterMap_cons_some hd]; rfl
    rw [replay_eq, delivery, hlines, List.filterMap_append, hjoined, ← List.append_assoc]
  · intro htorn
    rw [joinedLine, htorn]
    exact deliverable?_line he window now
  · intro x hx
    obtain ⟨hdecode, hage⟩ := deliverable?_eq_some hx
    obtain rfl := Record.eq_of_decode_append_line he hdecode
    exact ⟨rfl, hage⟩
  · intro older n hn htorn
    obtain ⟨more, htake⟩ := Record.take_line older hn
    cases hd : deliverable? window now (archive.joinedLine files e) with
    | none => rfl
    | some x =>
        obtain ⟨hdecode, -⟩ := deliverable?_eq_some hd
        rw [joinedLine, htorn, htake] at hdecode
        exact absurd hdecode (Record.decode_upToTime_append_line more e x)

/-- An active file with a record and what a crash has left of another one, `v=1&t=5`. -/
def tornOnce : Files :=
  ((Files.empty.append? (ascii "q.log") (ofLines [Record.line (.asking 1)])).bind
    (·.append? (ascii "q.log") ((Record.line (.asking 5)).take 7))).getD .empty

/-- The files after a batch of two has been appended behind the torn record. -/
def appendedToTorn : Files :=
  (Archive.append ⟨ascii "q.log"⟩ tornOnce [.asking 6, .asking 7]).toOption.getD .empty

theorem appendedToTorn_spec :
    Archive.append ⟨ascii "q.log"⟩ tornOnce [.asking 6, .asking 7] = .ok appendedToTorn ∧
      tornLine (tornOnce.contents (ascii "q.log")) = (Record.line (.asking 5)).take 7 ∧
      (wholeLines (tornOnce.contents (ascii "q.log"))).filterMap (deliverable? 10 8)
        = [.asking 1] ∧
      delivery appendedToTorn 10 8 (ascii "q.log.1") = [] := by
  decide +kernel

/-- The first record of the batch goes down with the torn one. -/
theorem replay_append_tornOnce :
    Archive.replay ⟨ascii "q.log"⟩ appendedToTorn 10 8 = [.asking 1, .asking 7] := by
  obtain ⟨happend, htorn, hwhole, hbackup⟩ := appendedToTorn_spec
  obtain ⟨hreplay, -, -, hlost⟩ := replay_append happend 10 8
  have hjoined := hlost (.asking 5) 7 (by decide) htorn
  rw [hreplay, hjoined, hwhole]
  exact congrArg ([Entry.asking 1, Entry.asking 7] ++ ·) hbackup

/-- Not all that is appended is delivered. -/
theorem not_mem_replay_append :
    ¬ ∀ (archive : Archive) (files files' : Files) (entries : List Entry) (window : Int)
        (now : Int64), archive.append files entries = .ok files' →
      ∀ e ∈ entries, e.age now ≤ window → e ∈ archive.replay files' window now := by
  intro h
  have hmem := h ⟨ascii "q.log"⟩ tornOnce appendedToTorn [.asking 6, .asking 7] 10 8
    appendedToTorn_spec.1 (.asking 6) List.mem_cons_self (by decide)
  exact absurd hmem (by decide +kernel)

end Archive

end ResolverLog
