import ResolverLog.Bytes
import Mathlib.Data.List.Basic
import Mathlib.Data.List.TakeWhile

/-!
# Cutting and joining byte strings

The cuts of byte strings undo the ways in which the formats put them together:
pieces joined by a separator, lines ended by newlines, a key in front of its
value. A cut at one byte is the split of the standard library, so its theory
carries over.
-/

namespace ResolverLog

namespace Bytes

variable {sep b : UInt8} {text rest piece : Bytes}

/-! ## Bytes -/

/-- Bytes are equal when their bits are. -/
theorem ext_bits {b c : UInt8} (h : ∀ i (hi : i < 8), b.toBitVec[i] = c.toBitVec[i]) : b = c :=
  UInt8.toBitVec_inj.1 (BitVec.eq_of_getElem_eq h)

/-- What holds of the small numbers as bytes holds of the small bytes. -/
theorem forall_of_forall_ofNat {bound : Nat} (P : UInt8 → Prop)
    (h : ∀ n < bound, P (UInt8.ofNat n)) {v : UInt8} (hv : v.toNat < bound) : P v := by
  simpa only [UInt8.ofNat_toNat] using h v.toNat hv

/-! ## Cuts -/

/-- The newline, which ends a record. -/
abbrev newline : UInt8 := 0x0A

theorem splitWhere_cons (h : splitWhere p rest = piece :: pieces) :
    splitWhere p (b :: rest) =
      if p b then [] :: piece :: pieces else (b :: piece) :: pieces := by
  rw [splitWhere] at h ⊢
  rw [List.foldr_cons, h]

/-- The right fold is the split of the standard library. -/
theorem splitWhere_eq_splitOnP (p : UInt8 → Bool) (text : Bytes) :
    splitWhere p text = text.splitOnP p := by
  induction text with
  | nil => rfl
  | cons b rest ih =>
      rw [List.splitOnP_cons_eq_if_modifyHead, ← ih]
      have hne : splitWhere p rest ≠ [] := by
        rw [ih]
        exact List.splitOnP_ne_nil p rest
      obtain ⟨piece, pieces, h⟩ := List.exists_cons_of_ne_nil hne
      rw [splitWhere_cons h, h, List.modifyHead_cons]

theorem splitOn_eq (sep : UInt8) (text : Bytes) : splitOn sep text = List.splitOn sep text := by
  rw [splitOn, splitWhere_eq_splitOnP, List.splitOn_eq_splitOnP]

theorem splitOn_ne_nil (sep : UInt8) (text : Bytes) : splitOn sep text ≠ [] := by
  rw [splitOn_eq]
  exact List.splitOn_ne_nil sep text

/-- A piece without the separator comes off in front of a separator. -/
theorem splitOn_append_cons (h : sep ∉ piece) (rest : Bytes) :
    splitOn sep (piece ++ sep :: rest) = piece :: splitOn sep rest := by
  rw [splitOn_eq, splitOn_eq, List.splitOn_append_cons_self, List.splitOn_eq_singleton h,
    List.singleton_append]

/-- Splitting undoes joining when no piece has the separator. -/
theorem splitOn_join {pieces : List Bytes} (hne : pieces ≠ [])
    (h : ∀ piece ∈ pieces, sep ∉ piece) : splitOn sep (join [sep] pieces) = pieces := by
  rw [splitOn_eq, join]
  exact List.splitOn_intercalate sep h hne

/-- Text without the separator that follows another text goes to its last piece. -/
theorem splitOn_append (sep : UInt8) (text : Bytes) :
    ∃ pieces last, splitOn sep text = pieces ++ [last] ∧ (pieces = [] → last = text) ∧
      ∀ rest, sep ∉ rest → splitOn sep (text ++ rest) = pieces ++ [last ++ rest] := by
  induction text with
  | nil =>
      refine ⟨[], [], rfl, fun _ => rfl, ?_⟩
      intro rest h
      rw [splitOn_eq, List.nil_append, List.splitOn_eq_singleton h]
      rfl
  | cons b text ih =>
      obtain ⟨pieces, last, hp, hl, hr⟩ := ih
      simp only [splitOn_eq, List.cons_append, List.splitOn_cons_eq_if_modifyHead] at hp hr ⊢
      rw [hp]
      by_cases hb : (b == sep) = true
      · refine ⟨[] :: pieces, last, by rw [if_pos hb, List.cons_append], by simp, ?_⟩
        intro rest h
        rw [if_pos hb, hr rest h, List.cons_append]
      · cases pieces with
        | nil =>
            refine ⟨[], b :: last, by rw [if_neg hb]; rfl, ?_, ?_⟩
            · intro _
              rw [hl rfl]
            · intro rest h
              rw [if_neg hb, hr rest h]
              rfl
        | cons piece pieces =>
            refine ⟨(b :: piece) :: pieces, last, by rw [if_neg hb]; rfl, by simp, ?_⟩
            intro rest h
            rw [if_neg hb, hr rest h]
            rfl

theorem terminated_nil (sep : UInt8) : terminated sep [] = [] := rfl

/-- What is before a separator is cut into all of its pieces, whatever follows. -/
theorem terminated_append_sep (sep : UInt8) (text rest : Bytes) :
    terminated sep (text ++ sep :: rest) = splitOn sep text ++ terminated sep rest := by
  have hne := splitOn_ne_nil sep rest
  have hsplit : splitOn sep (text ++ sep :: rest) = splitOn sep text ++ splitOn sep rest := by
    rw [splitOn_eq, splitOn_eq, splitOn_eq, List.splitOn_append_cons_self]
  rw [terminated, terminated, hsplit, List.getLast?_append_of_ne_nil _ hne,
    List.dropLast_append_of_ne_nil hne]
  split
  · rfl
  · rfl

/-- No piece holds a byte at which the text is split. -/
theorem eq_false_of_mem_splitWhere {p : UInt8 → Bool} (h : piece ∈ splitWhere p text)
    (hb : b ∈ piece) : p b = false := by
  induction text generalizing piece with
  | nil =>
      rw [List.mem_singleton.mp h] at hb
      cases hb
  | cons c rest ih =>
      have hne : splitWhere p rest ≠ [] := by
        rw [splitWhere_eq_splitOnP]
        exact List.splitOnP_ne_nil p rest
      obtain ⟨first, pieces, hsplit⟩ := List.exists_cons_of_ne_nil hne
      rw [splitWhere_cons hsplit] at h
      split at h
      · rcases List.mem_cons.mp h with rfl | h
        · cases hb
        · exact ih (hsplit ▸ h) hb
      · rename_i hc
        rcases List.mem_cons.mp h with rfl | h
        · rcases List.mem_cons.mp hb with rfl | hb
          · exact Bool.eq_false_iff.mpr hc
          · exact ih (hsplit ▸ List.mem_cons_self) hb
        · exact ih (hsplit ▸ List.mem_cons_of_mem first h) hb

theorem join_cons (hne : pieces ≠ []) (piece : Bytes) :
    join [sep] (piece :: pieces) = piece ++ sep :: join [sep] pieces := by
  rw [join, List.intercalate_cons_of_ne_nil hne, List.append_assoc]
  rfl

theorem join_append {pieces more : List Bytes} (hne : pieces ≠ []) (hmore : more ≠ []) :
    join [sep] (pieces ++ more) = join [sep] pieces ++ sep :: join [sep] more := by
  induction pieces with
  | nil => exact absurd rfl hne
  | cons piece pieces ih =>
      by_cases hnil : pieces = []
      · subst hnil
        rw [List.singleton_append, join_cons hmore, join, join, List.intercalate_singleton]
      · rw [List.cons_append, join_cons (List.append_ne_nil_of_left_ne_nil hnil _), ih hnil,
          join_cons hnil, List.append_assoc, List.cons_append]

theorem join_concat {pieces : List Bytes} (hne : pieces ≠ []) (last : Bytes) :
    join [sep] (pieces ++ [last]) = join [sep] pieces ++ sep :: last := by
  rw [join_append hne (List.cons_ne_nil _ _), join, join, List.intercalate_singleton]

/-- Pieces that are not empty join to nothing only when there are none. -/
theorem join_eq_nil_iff {pieces : List Bytes} (h : ∀ piece ∈ pieces, piece ≠ []) :
    join [sep] pieces = [] ↔ pieces = [] := by
  constructor
  · intro hnil
    cases pieces with
    | nil => rfl
    | cons piece pieces =>
        have hne := h piece List.mem_cons_self
        by_cases hpieces : pieces = []
        · subst hpieces
          rw [join, List.intercalate_singleton] at hnil
          exact absurd hnil hne
        · rw [join_cons hpieces] at hnil
          exact absurd (List.append_eq_nil_iff.mp hnil).1 hne
  · rintro rfl
    rfl

/-- The beginning of two texts one behind the other ends in the first of them or behind it. -/
theorem prefix_append_cases {start text rest : Bytes} (h : start <+: text ++ rest) :
    start <+: text ∨ ∃ more, start = text ++ more ∧ more <+: rest := by
  obtain ⟨behind, hbehind⟩ := h
  rcases List.append_eq_append_iff.mp hbehind with ⟨between, htext, -⟩ | ⟨more, hstart, hrest⟩
  · exact .inl ⟨between, htext.symm⟩
  · exact .inr ⟨more, hstart, behind, hrest.symm⟩

/-- The beginning of joined pieces is made of whole pieces and the beginning of one more. -/
theorem prefix_join {sep : UInt8} {pieces : List Bytes} {start : Bytes} (hne : pieces ≠ [])
    (h : start <+: join [sep] pieces) :
    ∃ before whole behind piece, pieces = before ++ whole :: behind ∧ piece <+: whole ∧
      start = join [sep] (before ++ [piece]) := by
  induction pieces generalizing start with
  | nil => exact absurd rfl hne
  | cons first pieces ih =>
      by_cases hlast : pieces = []
      · subst hlast
        exact ⟨[], first, [], start, rfl, by simpa [join] using h, by simp [join]⟩
      · rw [join_cons hlast] at h
        rcases prefix_append_cases h with hfirst | ⟨more, rfl, hmore⟩
        · exact ⟨[], first, pieces, start, rfl, hfirst, by simp [join]⟩
        · rcases List.prefix_cons_iff.mp hmore with rfl | ⟨start, rfl, hstart⟩
          · exact ⟨[], first, pieces, first, rfl, List.prefix_rfl, by simp [join]⟩
          · obtain ⟨before, whole, behind, piece, rfl, hpiece, rfl⟩ := ih hlast hstart
            refine ⟨first :: before, whole, behind, piece, rfl, hpiece, ?_⟩
            rw [List.cons_append, join_cons (by simp)]

/-- The pieces joined again are the text, or all of it but a separator at its end. -/
theorem eq_join_terminated (sep : UInt8) (text : Bytes) :
    text = join [sep] (terminated sep text) ∨
      text = join [sep] (terminated sep text) ++ [sep] := by
  have hjoin : join [sep] (splitOn sep text) = text := by
    rw [splitOn_eq, join, List.intercalate_splitOn]
  rw [terminated]
  split
  · rename_i hlast
    obtain ⟨front, hfront⟩ := List.getLast?_eq_some_iff.mp hlast
    rw [hfront, List.dropLast_concat]
    rw [hfront] at hjoin
    by_cases hne : front = []
    · subst hne
      exact .inl hjoin.symm
    · rw [join_concat hne] at hjoin
      exact .inr hjoin.symm
  · exact .inl hjoin.symm

theorem length_join_terminated_le (sep : UInt8) (text : Bytes) :
    (join [sep] (terminated sep text)).length ≤ text.length := by
  rcases eq_join_terminated sep text with heq | heq
  · rw [← heq]
  · have hlen := congrArg List.length heq
    rw [List.length_append] at hlen
    omega

/-- A text is cut at the same places when its bytes are changed, if the bytes at which it is cut
are those that were. -/
theorem splitWhere_map {p : UInt8 → Bool} {change : UInt8 → UInt8} (h : ∀ b, p (change b) = p b)
    (text : Bytes) :
    splitWhere p (text.map change) = (splitWhere p text).map (List.map change) := by
  induction text with
  | nil => rfl
  | cons b rest ih =>
      have hne : splitWhere p rest ≠ [] := by
        rw [splitWhere_eq_splitOnP]
        exact List.splitOnP_ne_nil p rest
      obtain ⟨piece, pieces, hsplit⟩ := List.exists_cons_of_ne_nil hne
      rw [hsplit, List.map_cons] at ih
      rw [List.map_cons, splitWhere_cons ih, splitWhere_cons hsplit, h]
      split
      · rfl
      · rfl

theorem terminated_map {change : UInt8 → UInt8} (h : ∀ b, change b = sep ↔ b = sep)
    (text : Bytes) :
    terminated sep (text.map change) = (terminated sep text).map (List.map change) := by
  have hp : ∀ b, (change b == sep) = (b == sep) := by
    intro b
    rw [Bool.eq_iff_iff, beq_iff_eq, beq_iff_eq]
    exact h b
  have hlast : (splitOn sep (text.map change)).getLast? = some []
      ↔ (splitOn sep text).getLast? = some [] := by
    rw [splitOn, splitWhere_map hp, List.getLast?_map, Option.map_eq_some_iff]
    simp only [List.map_eq_nil_iff, exists_eq_right]
    rfl
  rw [terminated, terminated]
  by_cases hempty : (splitOn sep text).getLast? = some []
  · rw [if_pos hempty, if_pos (hlast.mpr hempty), splitOn, splitWhere_map hp, List.map_dropLast]
    rfl
  · rw [if_neg hempty, if_neg (mt hlast.mp hempty), splitOn, splitWhere_map hp]
    rfl

theorem dropFinal_map {change : UInt8 → UInt8} (h : ∀ b, change b = sep ↔ b = sep)
    (text : Bytes) : dropFinal sep (text.map change) = (dropFinal sep text).map change := by
  have hlast : (text.map change).getLast? = some sep ↔ text.getLast? = some sep := by
    rw [List.getLast?_map, Option.map_eq_some_iff]
    simp only [h, exists_eq_right]
  rw [dropFinal, dropFinal]
  by_cases hsep : text.getLast? = some sep
  · rw [if_pos hsep, if_pos (hlast.mpr hsep), List.map_dropLast]
  · rw [if_neg hsep, if_neg (mt hlast.mp hsep)]

/-- The one byte that is dropped is the one at the end. -/
theorem dropFinal_concat (b : UInt8) (text : Bytes) : dropFinal b (text ++ [b]) = text := by
  rw [dropFinal, if_pos List.getLast?_concat, List.dropLast_concat]

/-- Only the empty text has no pieces. -/
theorem eq_nil_of_terminated_eq_nil {sep : UInt8} {text : Bytes} (h : terminated sep text = []) :
    text = [] := by
  rcases eq_join_terminated sep text with heq | heq
  · rw [heq, h]
    rfl
  · rw [h] at heq
    rw [heq] at h
    simp [terminated, splitOn, splitWhere, join] at h

/-- What is dropped is one byte at the end at most. -/
theorem eq_dropFinal_append (b : UInt8) (text : Bytes) :
    ∃ dropped, text = dropFinal b text ++ dropped ∧ (dropped = [] ∨ dropped = [b]) := by
  rw [dropFinal]
  split
  · rename_i hlast
    obtain ⟨front, rfl⟩ := List.getLast?_eq_some_iff.mp hlast
    exact ⟨[b], by rw [List.dropLast_concat], .inr rfl⟩
  · exact ⟨[], by rw [List.append_nil], .inl rfl⟩

theorem eq_dropFinal_concat {b : UInt8} {text : Bytes} (h : dropFinal b text ≠ text) :
    text = dropFinal b text ++ [b] := by
  obtain ⟨dropped, htext, rfl | rfl⟩ := eq_dropFinal_append b text
  · rw [List.append_nil] at htext
    exact absurd htext.symm h
  · exact htext

theorem terminated_subset_splitOn (sep : UInt8) (text : Bytes) :
    terminated sep text ⊆ splitOn sep text := by
  rw [terminated]
  split
  · exact List.dropLast_subset _
  · exact List.Subset.refl _

/-- A terminated piece comes off in front of whatever follows. -/
theorem terminated_append_cons (h : sep ∉ piece) (rest : Bytes) :
    terminated sep (piece ++ sep :: rest) = piece :: terminated sep rest := by
  rw [terminated_append_sep, splitOn_eq, List.splitOn_eq_singleton h, List.singleton_append]

/-- A text without newlines is one line, or none. -/
theorem lines_of_notMem (h : newline ∉ text) : lines text = [text].filter (· ≠ []) := by
  rw [lines, terminated, splitOn_eq, List.splitOn_eq_singleton h]
  by_cases hnil : text = []
  · simp [hnil]
  · simp [hnil]

/-- The lines behind a newline are lines of the whole text. -/
theorem lines_subset_lines_append_newline (text rest : Bytes) :
    lines rest ⊆ lines (text ++ newline :: rest) := by
  rw [lines, lines, terminated_append_sep]
  exact List.subset_append_right _ _

/-- Records on lines of their own. -/
def ofLines (records : List Bytes) : Bytes :=
  records.flatMap fun record => record ++ [newline]

@[simp] theorem ofLines_cons (record : Bytes) (records : List Bytes) :
    ofLines (record :: records) = record ++ newline :: ofLines records := by
  simp [ofLines]

@[simp] theorem ofLines_append (records more : List Bytes) :
    ofLines (records ++ more) = ofLines records ++ ofLines more :=
  List.flatMap_append

/-- Whole lines come off one by one in front of whatever follows. -/
theorem lines_ofLines_append {records : List Bytes} (h : ∀ record ∈ records, newline ∉ record)
    (rest : Bytes) : lines (ofLines records ++ rest) = records ++ lines rest := by
  induction records with
  | nil => rfl
  | cons record records ih =>
      rw [ofLines_cons, List.append_assoc, List.cons_append, lines,
        terminated_append_cons (h record List.mem_cons_self), List.cons_append]
      exact congrArg (record :: ·) (ih fun r hr => h r (List.mem_cons_of_mem record hr))

theorem lines_ofLines {records : List Bytes} (h : ∀ record ∈ records, newline ∉ record) :
    lines (ofLines records) = records := by
  simpa [lines, terminated_nil] using lines_ofLines_append h []

/-- Every text is made of whole lines and what is behind the last newline. -/
theorem exists_eq_ofLines_append (text : Bytes) : ∃ whole last, text = ofLines whole ++ last ∧
    (∀ line ∈ whole, newline ∉ line) ∧ newline ∉ last := by
  induction text with
  | nil => exact ⟨[], [], rfl, List.forall_mem_nil _, List.not_mem_nil⟩
  | cons b rest ih =>
      obtain ⟨whole, last, rfl, hwhole, hlast⟩ := ih
      by_cases hb : b = newline
      · refine ⟨[] :: whole, last, by simp [hb], ?_, hlast⟩
        exact List.forall_mem_cons.mpr ⟨List.not_mem_nil, hwhole⟩
      · cases whole with
        | nil =>
            refine ⟨[], b :: last, rfl, List.forall_mem_nil _, ?_⟩
            exact List.not_mem_cons_of_ne_of_not_mem (Ne.symm hb) hlast
        | cons line whole =>
            obtain ⟨hline, hmore⟩ := List.forall_mem_cons.mp hwhole
            refine ⟨(b :: line) :: whole, last, by simp, ?_, hlast⟩
            exact List.forall_mem_cons.mpr
              ⟨List.not_mem_cons_of_ne_of_not_mem (Ne.symm hb) hline, hmore⟩

/-- There is exactly one newline for each record. -/
theorem count_newline_ofLines {records : List Bytes} (h : ∀ record ∈ records, newline ∉ record) :
    (ofLines records).count newline = records.length := by
  induction records with
  | nil => rfl
  | cons record records ih =>
      have hhead : record.count newline = 0 := List.count_eq_zero.mpr (h record List.mem_cons_self)
      have htail := ih fun r hr => h r (List.mem_cons_of_mem record hr)
      rw [ofLines_cons, List.count_append, List.count_cons_self, hhead, htail, List.length_cons]
      omega

/-- The first separator parts a key without it from the rest. -/
theorem cutAt?_append_cons (h : sep ∉ piece) (rest : Bytes) :
    cutAt? sep (piece ++ sep :: rest) = some (piece, rest) := by
  have hne : ∀ b ∈ piece, (b != sep) = true := by
    intro b hb
    have : b ≠ sep := fun heq => h (heq ▸ hb)
    simpa using this
  have htake : (piece ++ sep :: rest).takeWhile (· != sep) = piece := by
    rw [List.takeWhile_append_of_pos hne]
    simp
  have hdrop : (piece ++ sep :: rest).dropWhile (· != sep) = sep :: rest := by
    rw [List.dropWhile_append_of_pos hne]
    simp
  rw [cutAt?, hdrop, htake]

/-- A text is not cut at a byte that it does not have. -/
theorem cutAt?_eq_none (h : sep ∉ text) : cutAt? sep text = none := by
  have hne : ∀ b ∈ text, (b != sep) = true := by
    intro b hb
    rw [bne_iff_ne]
    rintro rfl
    exact h hb
  rw [cutAt?, List.dropWhile_eq_nil_iff.mpr hne]

/-- A cut is at the first separator. -/
theorem cutAt?_eq_some_iff : cutAt? sep text = some (piece, rest) ↔
    text = piece ++ sep :: rest ∧ sep ∉ piece := by
  constructor
  · intro h
    have hmem : sep ∈ text := by
      by_contra hnot
      rw [cutAt?_eq_none hnot] at h
      cases h
    obtain ⟨front, tail, rfl, hfront⟩ := List.eq_append_cons_of_mem hmem
    rw [cutAt?_append_cons hfront] at h
    cases h
    exact ⟨rfl, hfront⟩
  · rintro ⟨rfl, h⟩
    exact cutAt?_append_cons h rest

/-- A first word comes off at the first blank behind it. -/
theorem takeWord?_append_cons (hne : text ≠ []) (h : ∀ b ∈ text, isBlank b = false)
    (hb : isBlank b = true) (rest : Bytes) :
    takeWord? (text ++ b :: rest) = some (text, b :: rest) := by
  have hword : ∀ b ∈ text, (!isBlank b) = true := by
    intro b hb
    rw [h b hb]
    rfl
  obtain ⟨first, word, rfl⟩ := List.exists_cons_of_ne_nil hne
  have htrim : trimLeft (first :: word ++ b :: rest) = first :: word ++ b :: rest :=
    List.dropWhile_cons_of_neg (by simp [h first List.mem_cons_self])
  rw [takeWord?, htrim, List.takeWhile_append_of_pos hword, List.dropWhile_append_of_pos hword]
  simp [hb]

/-- Blanks in front of a word are passed over. -/
theorem takeWord?_cons (hb : isBlank b = true) (text : Bytes) :
    takeWord? (b :: text) = takeWord? text := by
  rw [takeWord?, takeWord?, trimLeft, List.dropWhile_cons_of_pos hb, trimLeft]

/-- What follows a word is the end of the text. -/
theorem suffix_of_takeWord? (h : takeWord? text = some (piece, rest)) : rest <:+ text := by
  rw [takeWord?] at h
  split at h
  · cases h
  · cases h
    exact (List.dropWhile_suffix _).trans (List.dropWhile_suffix _)

/-- Only the bytes of a line end are trimmed from a text that has none of them. -/
theorem trimLineEnd_append {tail : Bytes} (h : ∀ b ∈ text, b ≠ 0x0A ∧ b ≠ 0x0D)
    (htail : ∀ b ∈ tail, b = 0x0A ∨ b = 0x0D) : trimLineEnd (text ++ tail) = text := by
  have hpos : ∀ b ∈ tail.reverse, (b == 0x0A || b == 0x0D) = true := by
    intro b hb
    simpa using htail b (List.mem_reverse.mp hb)
  have hneg : ∀ b ∈ text.reverse, (b == 0x0A || b == 0x0D) = false := by
    intro b hb
    simpa using h b (List.mem_reverse.mp hb)
  rw [trimLineEnd, List.reverse_append, List.dropWhile_append_of_pos hpos]
  have hkeep : (text.reverse).dropWhile (fun b => b == 0x0A || b == 0x0D) = text.reverse := by
    cases hr : text.reverse with
    | nil => rfl
    | cons b bs =>
        rw [hr] at hneg
        exact List.dropWhile_cons_of_neg (by simp [hneg b List.mem_cons_self])
  rw [hkeep, List.reverse_reverse]

/-- A text that ends in no line end is not trimmed. -/
theorem trimLineEnd_append_of_ne_nil (before : Bytes) (hne : text ≠ [])
    (h : ∀ b ∈ text, b ≠ 0x0A ∧ b ≠ 0x0D) : trimLineEnd (before ++ text) = before ++ text := by
  obtain ⟨front, last, rfl⟩ := (List.eq_nil_or_concat' text).resolve_left hne
  obtain ⟨hn, hr⟩ := h last (by simp)
  rw [trimLineEnd, ← List.append_assoc, List.reverse_concat,
    List.dropWhile_cons_of_neg (by simp [hn, hr]), List.reverse_cons, List.reverse_reverse]

/-- A run of bytes of a class ends where one comes that is not. -/
theorem takeWhile_dropWhile_append {p : UInt8 → Bool} (h : ∀ b ∈ text, p b = true)
    (hrest : ∀ b ∈ rest.head?, p b = false) :
    (text ++ rest).takeWhile p = text ∧ (text ++ rest).dropWhile p = rest := by
  rw [List.takeWhile_append_of_pos h, List.dropWhile_append_of_pos h]
  cases rest with
  | nil => simp
  | cons b rest => simp [hrest b rfl]

/-! ## Words -/

section Words

variable {word blanks : Bytes} {more : List Bytes}

/-- Some bytes without blanks among them. -/
def IsWord (word : Bytes) : Prop :=
  word ≠ [] ∧ ∀ b ∈ word, isBlank b = false

/-- A blank comes first, or there is nothing. -/
def Breaks (rest : Bytes) : Prop :=
  ∀ b ∈ rest.head?, isBlank b = true

theorem exists_splitWhere_eq_cons (p : UInt8 → Bool) (text : Bytes) :
    ∃ piece pieces, splitWhere p text = piece :: pieces := by
  rw [splitWhere_eq_splitOnP]
  exact List.exists_cons_of_ne_nil (List.splitOnP_ne_nil p text)

theorem splitWhere_append {p : UInt8 → Bool} {pieces : List Bytes} (h : ∀ b ∈ word, p b = false)
    (hrest : splitWhere p rest = piece :: pieces) :
    splitWhere p (word ++ rest) = (word ++ piece) :: pieces := by
  induction word with
  | nil => exact hrest
  | cons b word ih =>
      rw [List.forall_mem_cons] at h
      rw [List.cons_append, splitWhere_cons (ih h.2), h.1]
      rfl

theorem words_cons (hb : isBlank b = true) (text : Bytes) : words (b :: text) = words text := by
  obtain ⟨piece, pieces, hsplit⟩ := exists_splitWhere_eq_cons isBlank text
  rw [words, words, splitWhere_cons hsplit, if_pos hb, hsplit]
  rfl

theorem words_blanks_append (h : ∀ b ∈ blanks, isBlank b = true) (text : Bytes) :
    words (blanks ++ text) = words text := by
  induction blanks with
  | nil => rfl
  | cons b blanks ih =>
      rw [List.forall_mem_cons] at h
      rw [List.cons_append, words_cons h.1, ih h.2]

/-- A word ends at the first blank. -/
theorem words_append (hword : IsWord word) (hrest : Breaks rest) :
    words (word ++ rest) = word :: words rest := by
  obtain ⟨hne, hsolid⟩ := hword
  have hkeep : (!word.isEmpty) = true := by simpa using hne
  cases rest with
  | nil =>
      have hsplit : splitWhere isBlank [] = [[]] := rfl
      rw [words, splitWhere_append hsolid hsplit, List.append_nil, List.filter_cons, if_pos hkeep]
      rfl
  | cons b rest =>
      have hb : isBlank b = true := hrest b rfl
      obtain ⟨piece, pieces, hsplit⟩ := exists_splitWhere_eq_cons isBlank rest
      have hcons : splitWhere isBlank (b :: rest) = [] :: piece :: pieces := by
        rw [splitWhere_cons hsplit, if_pos hb]
      rw [words, splitWhere_append hsolid hcons, List.append_nil, List.filter_cons, if_pos hkeep,
        words_cons hb, words, hsplit]

/-- A text has no words, or a first one between blanks and what comes behind. -/
theorem words_cases (text : Bytes) :
    (words text = [] ∧ ∀ b ∈ text, isBlank b = true) ∨
      ∃ blanks word rest, (∀ b ∈ blanks, isBlank b = true) ∧ IsWord word ∧ Breaks rest ∧
        text = blanks ++ (word ++ rest) ∧ words text = word :: words rest := by
  by_cases hblank : ∀ b ∈ text, isBlank b = true
  · left
    refine ⟨?_, hblank⟩
    rw [← List.append_nil text, words_blanks_append hblank]
    rfl
  · right
    have hsolidNe : text.dropWhile isBlank ≠ [] := mt List.dropWhile_eq_nil_iff.mp hblank
    obtain ⟨first, tail, htail⟩ := List.exists_cons_of_ne_nil hsolidNe
    have hfirst : isBlank first = false := by
      have hhead := List.head?_dropWhile_not isBlank text
      rw [htail] at hhead
      simpa using hhead
    have hblanks : ∀ b ∈ text.takeWhile isBlank, isBlank b = true :=
      fun b hb => List.mem_takeWhile_imp hb
    have hword : IsWord ((first :: tail).takeWhile fun b => !isBlank b) := by
      constructor
      · rw [List.takeWhile_cons_of_pos (by simpa using hfirst)]
        exact List.cons_ne_nil _ _
      · intro b hb
        simpa using List.mem_takeWhile_imp hb
    have hrest : Breaks ((first :: tail).dropWhile fun b => !isBlank b) := by
      intro b hb
      have hhead := List.head?_dropWhile_not (fun b => !isBlank b) (first :: tail)
      rw [hb] at hhead
      simpa using hhead
    have htext : text = text.takeWhile isBlank
        ++ ((first :: tail).takeWhile (fun b => !isBlank b)
          ++ (first :: tail).dropWhile fun b => !isBlank b) := by
      rw [List.takeWhile_append_dropWhile, ← htail, List.takeWhile_append_dropWhile]
    refine ⟨_, _, _, hblanks, hword, hrest, htext, ?_⟩
    rw [← words_append hword hrest]
    conv_lhs => rw [htext]
    exact words_blanks_append hblanks _

theorem words_eq_nil_iff : words text = [] ↔ ∀ b ∈ text, isBlank b = true := by
  rcases words_cases text with ⟨hnil, hblank⟩ | ⟨blanks, word, rest, -, hword, -, htext, hcons⟩
  · exact iff_of_true hnil hblank
  · refine iff_of_false (by simp [hcons]) fun hblank => ?_
    obtain ⟨b, more, rfl⟩ := List.exists_cons_of_ne_nil hword.1
    have htrue := hblank b (by simp [htext])
    rw [hword.2 b List.mem_cons_self] at htrue
    cases htrue

/-- Where the first word stands. -/
theorem words_eq_cons_iff : words text = word :: more ↔
    ∃ blanks rest, (∀ b ∈ blanks, isBlank b = true) ∧ IsWord word ∧ Breaks rest ∧
      text = blanks ++ (word ++ rest) ∧ words rest = more := by
  constructor
  · intro h
    rcases words_cases text with
      ⟨hnil, -⟩ | ⟨blanks, first, rest, hblanks, hword, hrest, htext, hcons⟩
    · rw [hnil] at h
      cases h
    · rw [hcons] at h
      cases h
      exact ⟨blanks, rest, hblanks, hword, hrest, htext, rfl⟩
  · rintro ⟨blanks, rest, hblanks, hword, hrest, rfl, rfl⟩
    rw [words_blanks_append hblanks, words_append hword hrest]

theorem isWord_of_mem_words (h : word ∈ words text) : IsWord word := by
  obtain ⟨hpiece, hne⟩ := List.mem_filter.mp h
  exact ⟨by simpa using hne, fun b hb => eq_false_of_mem_splitWhere hpiece hb⟩

end Words

/-! ## Cuts at a marker -/

variable {mark before after : Bytes}

/-- The bytes passed only stand in front of what the walk finds. -/
theorem cutAtMarkFrom_eq (mark passed text : Bytes) :
    cutAtMarkFrom mark passed text =
      (cutAtMark? mark text).map (Prod.map (passed.reverse ++ ·) id) := by
  rw [cutAtMark?]
  induction text generalizing passed with
  | nil =>
      rw [cutAtMarkFrom, cutAtMarkFrom]
      split
      · simp
      · rfl
  | cons b rest ih =>
      rw [cutAtMarkFrom, cutAtMarkFrom]
      split
      · simp
      · rw [ih (b :: passed), ih [b], Option.map_map]
        congr 1
        funext ⟨front, tail⟩
        simp

theorem cutAtMark?_append (mark rest : Bytes) :
    cutAtMark? mark (mark ++ rest) = some ([], rest) := by
  cases mark with
  | nil =>
      cases rest with
      | nil => rfl
      | cons b rest => rfl
  | cons b mark =>
      have hpre : (b :: mark).isPrefixOf (b :: (mark ++ rest)) = true :=
        List.isPrefixOf_iff_prefix.mpr ⟨rest, rfl⟩
      rw [cutAtMark?, List.cons_append, cutAtMarkFrom, if_pos hpre, ← List.cons_append,
        List.drop_left]
      rfl

/-- A byte at which the marker does not stand goes to the part before it. -/
theorem cutAtMark?_cons (h : ¬ mark <+: b :: rest) :
    cutAtMark? mark (b :: rest) = (cutAtMark? mark rest).map (Prod.map (b :: ·) id) := by
  have hpre : ¬ mark.isPrefixOf (b :: rest) = true := by
    rwa [List.isPrefixOf_iff_prefix]
  rw [cutAtMark?, cutAtMarkFrom, if_neg hpre, cutAtMarkFrom_eq]
  rfl

/-- A text without the first byte of the marker goes to the part before it. -/
theorem cutAtMark?_append_of_notMem (h : b ∉ piece) (rest : Bytes) :
    cutAtMark? (b :: mark) (piece ++ rest) =
      (cutAtMark? (b :: mark) rest).map (Prod.map (piece ++ ·) id) := by
  induction piece with
  | nil =>
      have hid : Prod.map (([] : Bytes) ++ ·) id = (id : Bytes × Bytes → Bytes × Bytes) := rfl
      rw [hid, Option.map_id]
      rfl
  | cons first piece ih =>
      have hpre : ¬ b :: mark <+: first :: (piece ++ rest) := fun hpre =>
        h (List.mem_cons.mpr (.inl (List.cons_prefix_cons.mp hpre).1))
      rw [List.cons_append, cutAtMark?_cons hpre,
        ih fun hmem => h (List.mem_cons_of_mem first hmem), Option.map_map]
      rfl

/-- A cut is at the first byte, or it is a cut of the bytes behind it. -/
theorem cutAtMark?_cons_eq_some (h : cutAtMark? mark (b :: rest) = some (before, after)) :
    (before = [] ∧ b :: rest = mark ++ after) ∨
      (¬ mark <+: b :: rest ∧
        ∃ front, before = b :: front ∧ cutAtMark? mark rest = some (front, after)) := by
  by_cases hpre : mark <+: b :: rest
  · obtain ⟨tail, htail⟩ := hpre
    rw [← htail, cutAtMark?_append] at h
    obtain ⟨rfl, rfl⟩ : [] = before ∧ tail = after := by
      simpa using h
    exact .inl ⟨rfl, htail.symm⟩
  · rw [cutAtMark?_cons hpre, Option.map_eq_some_iff] at h
    obtain ⟨⟨front, tail⟩, hcut, heq⟩ := h
    obtain ⟨rfl, rfl⟩ : b :: front = before ∧ tail = after := by
      simpa using heq
    exact .inr ⟨hpre, front, rfl, hcut⟩

/-- The parts of a cut are those around the marker. -/
theorem eq_of_cutAtMark? (h : cutAtMark? mark text = some (before, after)) :
    text = before ++ mark ++ after := by
  induction text generalizing before with
  | nil =>
      cases mark with
      | nil =>
          obtain ⟨rfl, rfl⟩ : [] = before ∧ [] = after := by
            simpa [cutAtMark?, cutAtMarkFrom] using h
          rfl
      | cons b mark => simp [cutAtMark?, cutAtMarkFrom] at h
  | cons b rest ih =>
      obtain ⟨rfl, heq⟩ | ⟨-, front, rfl, hcut⟩ := cutAtMark?_cons_eq_some h
      · rw [heq, List.nil_append]
      · rw [ih hcut, List.cons_append, List.cons_append]

/-- Where a marker was found, it is found whatever follows. -/
theorem cutAtMark?_append_of_eq_some (h : cutAtMark? mark text = some (before, after))
    (more : Bytes) : cutAtMark? mark (text ++ more) = some (before, after ++ more) := by
  induction text generalizing before with
  | nil =>
      obtain ⟨rfl, rfl, rfl⟩ : before = [] ∧ mark = [] ∧ after = [] := by
        simpa using eq_of_cutAtMark? h
      exact cutAtMark?_append [] more
  | cons b rest ih =>
      obtain ⟨rfl, heq⟩ | ⟨hpre, front, rfl, hcut⟩ := cutAtMark?_cons_eq_some h
      · rw [heq, List.append_assoc, cutAtMark?_append]
      · have hlong : mark.length ≤ (b :: rest).length := by
          have hlen := congrArg List.length (eq_of_cutAtMark? hcut)
          simp only [List.length_append, List.length_cons] at hlen ⊢
          omega
        have hpre' : ¬ mark <+: b :: (rest ++ more) := fun hmore =>
          hpre (List.prefix_of_prefix_length_le hmore (List.prefix_append (b :: rest) more) hlong)
        rw [List.cons_append, cutAtMark?_cons hpre', ih hcut]
        rfl

/-- Where no marker is found the text has none. -/
theorem cutAtMark?_eq_none_iff : cutAtMark? mark text = none ↔ ¬ mark <:+: text := by
  induction text with
  | nil =>
      cases mark with
      | nil => simp [cutAtMark?, cutAtMarkFrom]
      | cons b mark => simp [cutAtMark?, cutAtMarkFrom]
  | cons b rest ih =>
      rw [List.infix_cons_iff]
      by_cases hpre : mark <+: b :: rest
      · obtain ⟨tail, htail⟩ := hpre
        simp [← htail, cutAtMark?_append]
      · simp [cutAtMark?_cons hpre, ih, hpre]

/-- The parts of a text around the first place where a marker stands. -/
structure IsFirstCut (mark text before after : Bytes) : Prop where
  eq : text = before ++ mark ++ after
  length_le : ∀ front back, text = front ++ mark ++ back → before.length ≤ front.length

/-- No cut is in front of the one that is found. -/
theorem length_le_of_cutAtMark? (h : cutAtMark? mark text = some (before, after))
    {front back : Bytes} (htext : text = front ++ mark ++ back) :
    before.length ≤ front.length := by
  induction text generalizing before front with
  | nil =>
      have hnil := eq_of_cutAtMark? h
      simp only [List.nil_eq, List.append_eq_nil_iff] at hnil
      simp [hnil.1.1]
  | cons b rest ih =>
      obtain ⟨rfl, -⟩ | ⟨hpre, tail, rfl, hcut⟩ := cutAtMark?_cons_eq_some h
      · exact Nat.zero_le _
      · cases front with
        | nil => exact absurd ⟨back, htext.symm⟩ hpre
        | cons c front =>
            have hle := ih hcut (List.cons.inj htext).2
            simpa using hle

/-- A cut is at the first place where the marker stands. -/
theorem cutAtMark?_eq_some_iff :
    cutAtMark? mark text = some (before, after) ↔ IsFirstCut mark text before after := by
  constructor
  · intro h
    exact ⟨eq_of_cutAtMark? h, fun _ _ => length_le_of_cutAtMark? h⟩
  · rintro ⟨heq, hle⟩
    cases hcut : cutAtMark? mark text with
    | none => exact absurd ⟨before, after, heq.symm⟩ (cutAtMark?_eq_none_iff.mp hcut)
    | some cut =>
        obtain ⟨front, back⟩ := cut
        have htext := eq_of_cutAtMark? hcut
        have hlen : front.length = before.length :=
          Nat.le_antisymm (length_le_of_cutAtMark? hcut heq) (hle front back htext)
        have hparts := htext.symm.trans heq
        rw [List.append_assoc, List.append_assoc] at hparts
        obtain ⟨rfl, hrest⟩ := List.append_inj hparts hlen
        rw [List.append_cancel_left hrest]

/-- The beginning of a text has the marker as soon as it reaches behind the first one. -/
theorem IsFirstCut.infix_iff (h : IsFirstCut mark text before after) {front : Bytes}
    (hfront : front <+: text) : mark <:+: front ↔ before.length + mark.length ≤ front.length := by
  obtain ⟨more, rfl⟩ := hfront
  constructor
  · rintro ⟨start, behind, rfl⟩
    have hle := h.length_le start (behind ++ more) (by simp)
    simp only [List.length_append]
    omega
  · intro hle
    have hpre : before ++ mark <+: front :=
      List.prefix_of_prefix_length_le ⟨after, h.eq.symm⟩ (List.prefix_append front more)
        (by rwa [List.length_append])
    exact (List.suffix_append before mark).isInfix.trans hpre.isInfix

theorem IsFirstCut.occurs (h : IsFirstCut mark text before after) : mark <:+: text :=
  ⟨before, after, h.eq.symm⟩

/-! ## Reads -/

/-- Nothing is lost between two reads. -/
theorem flatten_reads (size : Nat) (text : Bytes) : (reads size text).flatten = text := by
  induction text using reads.induct size with
  | case1 => rw [reads, List.flatten_nil]
  | case2 b rest ih =>
      rw [reads, List.flatten_cons, ih, List.cons_append, List.take_append_drop]

theorem ne_nil_of_mem_reads {size : Nat} {read : Bytes} (h : read ∈ reads size text) :
    read ≠ [] := by
  induction text using reads.induct size with
  | case1 =>
      rw [reads] at h
      cases h
  | case2 b rest ih =>
      rw [reads] at h
      rcases List.mem_cons.mp h with rfl | h
      · exact List.cons_ne_nil _ _
      · exact ih h

theorem length_le_of_mem_reads {size : Nat} {read : Bytes} (hsize : 0 < size)
    (h : read ∈ reads size text) : read.length ≤ size := by
  induction text using reads.induct size with
  | case1 =>
      rw [reads] at h
      cases h
  | case2 b rest ih =>
      rw [reads] at h
      rcases List.mem_cons.mp h with rfl | h
      · have := List.length_take_le (size - 1) rest
        rw [List.length_cons]
        omega
      · exact ih h

/-- The first reads are whole reads, unless they are all. -/
theorem dvd_length_of_prefix_reads {size : Nat} {front : List Bytes} (hsize : 0 < size)
    (h : front <+: reads size text) : front.flatten = text ∨ size ∣ front.flatten.length := by
  induction text using reads.induct size generalizing front with
  | case1 =>
      rw [reads, List.prefix_nil] at h
      exact .inl (by rw [h, List.flatten_nil])
  | case2 b rest ih =>
      rw [reads, List.prefix_cons_iff] at h
      obtain rfl | ⟨more, rfl, hmore⟩ := h
      · exact .inr (Nat.dvd_zero _)
      · have hcut : b :: rest = (b :: rest.take (size - 1)) ++ rest.drop (size - 1) := by simp
        rw [List.flatten_cons]
        rcases ih hmore with hall | hdvd
        · exact .inl (by rw [hall, ← hcut])
        · by_cases hshort : rest.length < size - 1
          · rw [List.drop_of_length_le (by omega), reads, List.prefix_nil] at hmore
            refine .inl ?_
            rw [hmore, List.take_of_length_le (by omega), List.flatten_nil, List.append_nil]
          · refine .inr ?_
            have hwhole : (b :: rest.take (size - 1)).length = size := by
              rw [List.length_cons, List.length_take]
              omega
            rw [List.length_append, hwhole]
            exact Nat.dvd_add (Nat.dvd_refl size) hdvd

/-! ## Order -/

/-- Texts of the same length compare by their fronts first. -/
theorem append_lt_append_iff {a b r s : Bytes} (h : a.length = b.length) :
    a ++ r < b ++ s ↔ a < b ∨ a = b ∧ r < s := by
  induction a generalizing b with
  | nil =>
      obtain rfl : b = [] := List.length_eq_zero_iff.mp h.symm
      simp
  | cons x a ih =>
      cases b with
      | nil => cases h
      | cons y b =>
          rw [List.cons_append, List.cons_append, List.cons_lt_cons_iff, List.cons_lt_cons_iff,
            ih (Nat.succ.inj h), List.cons.injEq]
          constructor
          · rintro (hlt | ⟨rfl, hlt | ⟨rfl, hlt⟩⟩)
            · exact .inl (.inl hlt)
            · exact .inl (.inr ⟨rfl, hlt⟩)
            · exact .inr ⟨⟨rfl, rfl⟩, hlt⟩
          · rintro ((hlt | ⟨rfl, hlt⟩) | ⟨⟨rfl, rfl⟩, hlt⟩)
            · exact .inl hlt
            · exact .inr ⟨rfl, .inl hlt⟩
            · exact .inr ⟨rfl, .inr ⟨rfl, hlt⟩⟩

end Bytes

end ResolverLog
