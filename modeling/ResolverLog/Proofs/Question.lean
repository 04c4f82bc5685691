import ResolverLog.Question
import ResolverLog.Proofs.Bytes

/-!
# Questions read back

A query that was written for a name is read as a question for that name, in
lower case and without the dots at its end. The labels written on the wire are
the pieces of the name, none of which holds a dot, so joining them again gives
the name up to those dots.
-/

namespace ResolverLog

namespace Question

open Bytes

variable {labels : List Bytes} {name text message : Bytes} {kind : RecordType} {id : UInt16}

/-! ## Numbers -/

theorem word_wordBytes (n : UInt16) : word (n >>> 8).toUInt8 n.toUInt8 = n := by
  have hlow : n.toNat % 256 < 2 ^ 8 := Nat.mod_lt _ (by decide)
  have hn := n.toNat_lt
  have hhigh : (n.toNat >>> 8 % 256) <<< 8 % 65536 = (n.toNat / 256) <<< 8 := by
    rw [Nat.shiftRight_eq_div_pow, Nat.shiftLeft_eq, Nat.shiftLeft_eq]
    omega
  rw [word, ← UInt16.toNat_inj, UInt16.toNat_or, UInt16.toNat_shiftLeft]
  simp only [UInt8.toNat_toUInt16, UInt16.toNat_toUInt8, UInt16.toNat_shiftRight,
    UInt16.reduceToNat, Nat.reducePow, Nat.reduceMod]
  rw [hhigh, ← Nat.shiftLeft_add_eq_or_of_lt hlow, Nat.shiftLeft_eq]
  omega

/-! ## Labels on the wire -/

/-- The length of a label is written in one byte below those of the pointers. -/
theorem toNat_length (h : isLabel text = true) :
    text.length.toUInt8.toNat = text.length ∧ 0 < text.length ∧ text.length ≤ maxLabelLength := by
  simp only [isLabel, Bool.and_eq_true, Bool.not_eq_true', List.isEmpty_eq_false_iff,
    decide_eq_true_eq] at h
  obtain ⟨hne, hle⟩ := h
  refine ⟨?_, List.length_pos_iff.mpr hne, hle⟩
  rw [maxLabelLength] at hle
  simp
  omega

theorem labelRun_zero (done : List Bytes) (rest : Bytes) :
    labelRun done (0 :: rest) = some ⟨done.reverse, .root, rest⟩ := by
  rw [labelRun.eq_def]
  rfl

theorem labelRun_label (done : List Bytes) (h : isLabel text = true) (rest : Bytes) :
    labelRun done (text.length.toUInt8 :: (text ++ rest)) = labelRun (text :: done) rest := by
  obtain ⟨hlen, hpos, hle⟩ := toNat_length h
  rw [maxLabelLength] at hle
  have hzero : ¬ (text.length.toUInt8 == 0) = true := by
    rw [beq_iff_eq, ← UInt8.toNat_inj, hlen, UInt8.toNat_zero]
    omega
  have hpointer : ¬ 0xC0 ≤ text.length.toUInt8 := by
    rw [UInt8.le_iff_toNat_le, hlen]
    simp only [UInt8.reduceToNat]
    omega
  have hlong : ¬ 0x40 ≤ text.length.toUInt8 := by
    rw [UInt8.le_iff_toNat_le, hlen]
    simp only [UInt8.reduceToNat]
    omega
  rw [labelRun.eq_def]
  simp only [if_neg hzero, if_neg hpointer, if_neg hlong, hlen, List.take_left, List.drop_left,
    if_true]

/-- Labels are read as they were written, whatever stands behind them. -/
theorem labelRun_labelBytes (done : List Bytes) (h : ∀ label ∈ labels, isLabel label = true)
    (rest : Bytes) :
    labelRun done (labelBytes labels ++ rest) = some ⟨done.reverse ++ labels, .root, rest⟩ := by
  induction labels generalizing done with
  | nil =>
      rw [labelBytes, List.flatMap_nil, List.nil_append, List.singleton_append, labelRun_zero,
        List.append_nil]
  | cons label labels ih =>
      have hwire : labelBytes (label :: labels) ++ rest
          = label.length.toUInt8 :: (label ++ (labelBytes labels ++ rest)) := by
        simp [labelBytes]
      rw [hwire, labelRun_label done (h label List.mem_cons_self),
        ih (label :: done) fun l hl => h l (List.mem_cons_of_mem label hl), List.reverse_cons,
        List.append_assoc, List.singleton_append]

/-! ## Names -/

theorem lower_eq_dot_iff {b : UInt8} : lower b = 0x2E ↔ b = 0x2E := by
  constructor
  · intro h
    rw [lower] at h
    split at h
    · rename_i hupper
      simp only [Bool.and_eq_true, decide_eq_true_eq, UInt8.le_iff_toNat_le] at hupper
      rw [← UInt8.toNat_inj, UInt8.toNat_add] at h
      simp at h hupper
      omega
    · exact h
  · rintro rfl
    rfl

/-- Only dots at the end are taken off a name. -/
theorem trimDots_append {dots : Bytes} (h : text.getLast? ≠ some 0x2E)
    (hdots : ∀ b ∈ dots, b = 0x2E) : trimDots (text ++ dots) = text := by
  have hpos : ∀ b ∈ dots.reverse, (b == 0x2E) = true := by
    intro b hb
    rw [beq_iff_eq]
    exact hdots b (List.mem_reverse.mp hb)
  rw [trimDots, List.reverse_append, List.dropWhile_append_of_pos hpos]
  rcases List.eq_nil_or_concat' text with rfl | ⟨front, last, rfl⟩
  · rfl
  · have hlast : last ≠ 0x2E := by
      simpa using h
    rw [List.reverse_concat, List.dropWhile_cons_of_neg (by simp [hlast]), List.reverse_cons,
      List.reverse_reverse]

/-- The dots at the end stay dots in lower case. -/
theorem trimDots_lower (name : Bytes) : trimDots (name.map lower) = (trimDots name).map lower := by
  have hdots : ((· == 0x2E) ∘ lower) = fun b : UInt8 => b == 0x2E := by
    funext b
    rw [Function.comp_apply, Bool.eq_iff_iff, beq_iff_eq, beq_iff_eq, lower_eq_dot_iff]
  rw [trimDots, trimDots, ← List.map_reverse, List.dropWhile_map, hdots, List.map_reverse]

/-- One more dot at the end makes no difference. -/
theorem trimDots_concat (name : Bytes) : trimDots (name ++ [0x2E]) = trimDots name := by
  rw [trimDots, List.reverse_concat, List.dropWhile_cons_of_pos rfl, trimDots]

/-- The names that a query can carry, and their labels. -/
theorem labelsOfName_eq_ok_iff : labelsOfName name = .ok labels ↔
    (dropFinal 0x2E name).length ≤ maxNameLength - 2 ∧
      terminated 0x2E (dropFinal 0x2E name) = labels ∧ ∀ label ∈ labels, isLabel label = true := by
  rw [labelsOfName]
  simp only
  constructor
  · intro h
    split at h
    · cases h
    rename_i hlen
    split at h
    · rename_i hall
      cases h
      exact ⟨Nat.not_lt.mp hlen, rfl, List.all_eq_true.mp hall⟩
    · cases h
  · rintro ⟨hlen, rfl, hall⟩
    rw [if_neg (Nat.not_lt.mpr hlen), if_pos (List.all_eq_true.mpr hall)]

/-- What the labels of a name are: pieces without dots that give the name when they are joined, up
to dots at its end. -/
structure LabelsOf (name : Bytes) (labels : List Bytes) : Prop where
  isLabel_of_mem : ∀ label ∈ labels, isLabel label = true
  dot_notMem : ∀ label ∈ labels, (0x2E : UInt8) ∉ label
  eq_append : ∃ dots, name = join [0x2E] labels ++ dots ∧ ∀ b ∈ dots, b = 0x2E
  length_le : (join [0x2E] labels).length ≤ maxNameLength - 2
  eq_root_of_nil : labels = [] → name = [] ∨ name = [0x2E]

theorem labelsOf_of_ok (h : labelsOfName name = .ok labels) : LabelsOf name labels := by
  obtain ⟨hlen, rfl, hall⟩ := labelsOfName_eq_ok_iff.mp h
  obtain ⟨dots, hname, hcases⟩ := eq_dropFinal_append 0x2E name
  have hdots : ∀ b ∈ dots, b = 0x2E := by
    rcases hcases with rfl | rfl
    · exact List.forall_mem_nil _
    · simp
  generalize dropFinal 0x2E name = stem at *
  refine ⟨hall, ?_, ?_, (length_join_terminated_le _ _).trans hlen, ?_⟩
  · intro label hlabel hmem
    have hdot := eq_false_of_mem_splitWhere (terminated_subset_splitOn _ _ hlabel) hmem
    exact absurd hdot (by decide)
  · rcases eq_join_terminated 0x2E stem with heq | heq
    · exact ⟨dots, by rw [← heq, hname], hdots⟩
    · refine ⟨[0x2E] ++ dots, ?_, by simpa using hdots⟩
      rw [← List.append_assoc]
      exact hname.trans (congrArg (· ++ dots) heq)
  · intro hnil
    rw [hname, eq_nil_of_terminated_eq_nil hnil]
    exact hcases

/-- Whether a query can carry a name does not depend on the case of its letters. -/
theorem exists_labelsOfName_lower_iff (name : Bytes) :
    (∃ labels, labelsOfName (name.map lower) = .ok labels) ↔
      ∃ labels, labelsOfName name = .ok labels := by
  have hisLabel : ∀ label, isLabel (label.map lower) = isLabel label := by
    intro label
    rw [isLabel, isLabel, List.isEmpty_map, List.length_map]
  have hstem : terminated 0x2E (dropFinal 0x2E (name.map lower))
      = (terminated 0x2E (dropFinal 0x2E name)).map (List.map lower) := by
    rw [dropFinal_map fun _ => lower_eq_dot_iff, terminated_map fun _ => lower_eq_dot_iff]
  have hlen : (dropFinal 0x2E (name.map lower)).length = (dropFinal 0x2E name).length := by
    rw [dropFinal_map fun _ => lower_eq_dot_iff, List.length_map]
  simp only [labelsOfName_eq_ok_iff, hlen, hstem]
  constructor
  · rintro ⟨_, hle, rfl, hall⟩
    refine ⟨_, hle, rfl, ?_⟩
    intro label hlabel
    rw [← hisLabel]
    exact hall _ (List.mem_map_of_mem hlabel)
  · rintro ⟨_, hle, rfl, hall⟩
    refine ⟨_, hle, rfl, ?_⟩
    intro label hlabel
    obtain ⟨piece, hpiece, rfl⟩ := List.mem_map.mp hlabel
    rw [hisLabel]
    exact hall piece hpiece

/-- Joined labels do not end in a dot. -/
theorem getLast?_join (hlabel : ∀ label ∈ labels, isLabel label = true)
    (hdot : ∀ label ∈ labels, (0x2E : UInt8) ∉ label) :
    (join [0x2E] labels).getLast? ≠ some 0x2E := by
  rcases List.eq_nil_or_concat' labels with rfl | ⟨front, last, rfl⟩
  · intro hlast
    cases hlast
  · have hmem : last ∈ front ++ [last] := List.mem_append_right _ (List.mem_singleton_self last)
    have hne : last ≠ [] := by
      rintro rfl
      exact absurd (hlabel _ hmem) (by decide)
    have htail : ∃ before, join [0x2E] (front ++ [last]) = before ++ last := by
      by_cases hfront : front = []
      · subst hfront
        exact ⟨[], by rw [List.nil_append, join, List.intercalate_singleton, List.nil_append]⟩
      · exact ⟨join [0x2E] front ++ [0x2E], by
          rw [join_concat hfront, List.append_assoc, List.singleton_append]⟩
    obtain ⟨before, hbefore⟩ := htail
    rw [hbefore, List.getLast?_append_of_ne_nil _ hne]
    intro hlast
    exact hdot last hmem (List.mem_of_getLast? hlast)

theorem LabelsOf.getLast?_join (h : LabelsOf name labels) :
    (join [0x2E] labels).getLast? ≠ some 0x2E :=
  Question.getLast?_join h.isLabel_of_mem h.dot_notMem

theorem LabelsOf.trimDots_eq (h : LabelsOf name labels) : trimDots name = join [0x2E] labels := by
  obtain ⟨dots, rfl, hdots⟩ := h.eq_append
  exact trimDots_append h.getLast?_join hdots

theorem LabelsOf.trimDots_lower (h : LabelsOf name labels) :
    trimDots ((join [0x2E] labels).map lower) = (join [0x2E] labels).map lower := by
  have hlast : ((join [0x2E] labels).map lower).getLast? ≠ some 0x2E := by
    rw [List.getLast?_map]
    intro hlast
    obtain ⟨b, hb, hlower⟩ := Option.map_eq_some_iff.mp hlast
    rw [lower_eq_dot_iff.mp hlower] at hb
    exact h.getLast?_join hb
  simpa using trimDots_append hlast (List.forall_mem_nil _)

theorem LabelsOf.join_eq_nil_iff (h : LabelsOf name labels) :
    join [0x2E] labels = [] ↔ labels = [] := by
  refine Bytes.join_eq_nil_iff ?_
  rintro label hlabel rfl
  exact absurd (h.isLabel_of_mem [] hlabel) (by decide)

/-! ## Messages -/

/-- What a query is written from: the header with one question, the labels, the type and the
class. -/
theorem labelsOf_of_message (h : Question.message name kind id = .ok message) :
    ∃ labels, LabelsOf name labels ∧ message =
      (id >>> 8).toUInt8 :: id.toUInt8 :: 0x01 :: 0x00 :: 0x00 :: 0x01 :: 0x00 :: 0x00 :: 0x00
        :: 0x00 :: 0x00 :: 0x00
        :: (labelBytes labels ++ [(kind.code >>> 8).toUInt8, kind.code.toUInt8, 0x00, 0x01]) := by
  rw [Question.message] at h
  cases hlabels : labelsOfName name with
  | error e =>
      rw [hlabels] at h
      cases h
  | ok labels =>
      rw [hlabels] at h
      cases h
      refine ⟨labels, labelsOf_of_ok hlabels, ?_⟩
      simp only [wordBytes, List.append_assoc, List.cons_append, List.nil_append]
      rfl

/-- What a guard in front of a computation does. -/
theorem bind_guard {α : Type} (p : Prop) [Decidable p] (next : Unit → Option α) :
    (guard p >>= next) = if p then next () else none := by
  by_cases h : p
  · rw [guard, if_pos h, if_pos h]
    rfl
  · rw [guard, if_neg h, if_neg h]
    rfl

theorem bind_guard_eq_some_iff {α : Type} {p : Prop} [Decidable p] {next : Unit → Option α}
    {a : α} : (guard p >>= next) = some a ↔ p ∧ next () = some a := by
  rw [bind_guard]
  by_cases h : p
  · rw [if_pos h, and_iff_right h]
  · rw [if_neg h]
    constructor
    · intro hnone
      cases hnone
    · intro hp
      exact absurd hp.1 h

/-- A query that was written is read as a question for its name, unless that is the root. -/
theorem ofMessage?_message (h : Question.message name kind id = .ok message) :
    ofMessage? message =
      if trimDots name = [] then none else some ⟨(trimDots name).map lower, kind, 1⟩ := by
  obtain ⟨labels, hlabels, hmessage⟩ := labelsOf_of_message h
  have hcount : count? message = some 1 := by
    rw [hmessage, count?, if_neg (by simp [headerSize])]
    rfl
  have hlabelsAt : labelsAt message maxJumps headerSize
      = some (labels, [(kind.code >>> 8).toUInt8, kind.code.toUInt8, 0x00, 0x01]) := by
    have hdrop : message.drop headerSize
        = labelBytes labels ++ [(kind.code >>> 8).toUInt8, kind.code.toUInt8, 0x00, 0x01] := by
      rw [hmessage]
      rfl
    rw [maxJumps, labelsAt, hdrop, labelRun_labelBytes [] hlabels.isLabel_of_mem]
    rfl
  have hlen : (join [0x2E] labels).length ≤ maxNameLength :=
    hlabels.length_le.trans (Nat.sub_le _ _)
  have hclass : word 0x00 0x01 = 1 := rfl
  rw [ofMessage?, bind_guard, hcount, if_pos (beq_self_eq_true _), hlabelsAt,
    Option.bind_eq_bind, Option.bind_some, hlabels.trimDots_eq]
  dsimp only
  rw [bind_guard, if_pos hlen, hlabels.trimDots_lower, word_wordBytes, hclass, bind_guard]
  by_cases hempty : join [0x2E] labels = []
  · rw [if_pos hempty, hempty]
    rfl
  · rw [if_neg hempty, if_pos (by simpa using hempty)]
    rfl

/-- Whether a query can be written depends on its name alone. -/
theorem exists_message_iff :
    (∃ message, Question.message name kind id = .ok message) ↔
      ∃ labels, labelsOfName name = .ok labels := by
  rw [Question.message]
  cases labelsOfName name with
  | error e => exact iff_of_false (by rintro ⟨_, ⟨⟩⟩) (by rintro ⟨_, ⟨⟩⟩)
  | ok labels => exact iff_of_true ⟨_, rfl⟩ ⟨labels, rfl⟩

/-- A query for a name without a dot at its end may as well be written with one. -/
theorem message_concat (h : Question.message name kind id = .ok message)
    (hdot : name.getLast? ≠ some 0x2E) :
    Question.message (name ++ [0x2E]) kind id = .ok message := by
  have hstem : dropFinal 0x2E (name ++ [0x2E]) = dropFinal 0x2E name := by
    rw [dropFinal_concat, dropFinal, if_neg hdot]
  rw [Question.message] at h ⊢
  cases hlabels : labelsOfName name with
  | error e =>
      rw [hlabels] at h
      cases h
  | ok labels =>
      have hconcat : labelsOfName (name ++ [0x2E]) = .ok labels := by
        rw [labelsOfName_eq_ok_iff, hstem, ← labelsOfName_eq_ok_iff]
        exact hlabels
      rw [hlabels] at h
      rw [hconcat]
      exact h

/-- Queries for names that are the same in lower case and without dots at the end are read as
questions for one name. -/
theorem name_ofMessage?_of_trimDots_eq {other : Bytes} {kind' : RecordType} {id' : UInt16}
    {message' : Bytes} (h : Question.message name kind id = .ok message)
    (h' : Question.message other kind' id' = .ok message')
    (hsame : trimDots (other.map lower) = trimDots (name.map lower)) :
    (ofMessage? message').map (·.name) = (ofMessage? message).map (·.name) := by
  have hnil : trimDots other = [] ↔ trimDots name = [] := by
    rw [← List.map_eq_nil_iff (f := lower), ← trimDots_lower, hsame, trimDots_lower,
      List.map_eq_nil_iff]
  rw [ofMessage?_message h, ofMessage?_message h']
  by_cases hempty : trimDots name = []
  · rw [if_pos hempty, if_pos (hnil.mpr hempty)]
  · rw [if_neg hempty, if_neg (mt hnil.mp hempty), Option.map_some, Option.map_some,
      ← trimDots_lower, hsame, trimDots_lower]

/-- Of the names that can be written only that of the root has nothing but dots. -/
theorem trimDots_eq_nil_iff (h : Question.message name kind id = .ok message) :
    trimDots name = [] ↔ name = [] ∨ name = [0x2E] := by
  obtain ⟨labels, hlabels, -⟩ := labelsOf_of_message h
  constructor
  · intro hnil
    rw [hlabels.trimDots_eq, hlabels.join_eq_nil_iff] at hnil
    exact hlabels.eq_root_of_nil hnil
  · rintro (rfl | rfl)
    · rfl
    · rfl

theorem length_labelBytes_le (labels : List Bytes) :
    (labelBytes labels).length ≤ (join [0x2E] labels).length + 2 := by
  rw [labelBytes, List.length_append, List.length_singleton]
  induction labels with
  | nil => decide
  | cons label labels ih =>
      rw [List.flatMap_cons, List.length_append, List.length_cons]
      by_cases hnil : labels = []
      · subst hnil
        rw [join, List.intercalate_singleton, List.flatMap_nil, List.length_nil]
      · rw [join_cons hnil, List.length_append, List.length_cons]
        omega

/-- A query is short, since its name is. -/
theorem length_message_le (h : Question.message name kind id = .ok message) :
    message.length ≤ 512 := by
  obtain ⟨labels, hlabels, rfl⟩ := labelsOf_of_message h
  have hbytes := length_labelBytes_le labels
  have hjoined := hlabels.length_le
  rw [maxNameLength] at hjoined
  simp only [List.length_cons, List.length_append, List.length_nil]
  omega

/-- A query is read as the question that it was written for: the name in lower case and without
the dots at its end, the type, and the class of the Internet. Only a query for the root is read as
none. So neither the case of the letters of a name nor a dot behind it changes what is read, and a
name can be written in any case, and with a dot behind it if it had none. -/
theorem ofMessage?_readsBack (h : Question.message name kind id = .ok message) :
    (trimDots (name.map lower) ≠ [] →
        ofMessage? message = some ⟨trimDots (name.map lower), kind, 1⟩) ∧
      (ofMessage? message = none ↔ trimDots (name.map lower) = []) ∧
      (∀ other kind' id', other.map lower = name.map lower →
        ∃ message', Question.message other kind' id' = .ok message' ∧
          (ofMessage? message').map (·.name) = (ofMessage? message).map (·.name)) ∧
      (name.getLast? ≠ some 0x2E → Question.message (name ++ [0x2E]) kind id = .ok message) ∧
      (∀ kind' id' message', Question.message (name ++ [0x2E]) kind' id' = .ok message' →
        (ofMessage? message').map (·.name) = (ofMessage? message).map (·.name)) := by
  have hread := ofMessage?_message h
  have hnil : trimDots (name.map lower) = [] ↔ trimDots name = [] := by
    rw [trimDots_lower, List.map_eq_nil_iff]
  refine ⟨?_, ?_, ?_, message_concat h, ?_⟩
  · intro hne
    rw [hread, if_neg (mt hnil.mpr hne), trimDots_lower]
  · rw [hread, hnil]
    by_cases hempty : trimDots name = []
    · rw [if_pos hempty]
      exact iff_of_true rfl hempty
    · rw [if_neg hempty]
      exact iff_of_false (Option.some_ne_none _) hempty
  · intro other kind' id' hcase
    have hlabels := (exists_labelsOfName_lower_iff name).mpr (exists_message_iff.mp ⟨message, h⟩)
    rw [← hcase] at hlabels
    obtain ⟨message', h'⟩ :=
      exists_message_iff.mpr ((exists_labelsOfName_lower_iff other).mp hlabels)
    exact ⟨message', h', name_ofMessage?_of_trimDots_eq h h' (by rw [hcase])⟩
  · intro kind' id' message' h'
    refine name_ofMessage?_of_trimDots_eq h h' ?_
    rw [trimDots_lower, trimDots_concat, ← trimDots_lower]

/-- A query for `A.b` is read as one for `a.b`, and so are those for `a.B` and for `A.b.`. -/
theorem ofMessage?_readsBack_mixedCase :
    ∃ message, Question.message (ascii "A.b") ⟨28⟩ 7 = .ok message ∧
      ofMessage? message = some ⟨ascii "a.b", ⟨28⟩, 1⟩ ∧
      (∃ other, Question.message (ascii "a.B") ⟨1⟩ 0 = .ok other ∧
        (ofMessage? other).map (·.name) = some (ascii "a.b")) ∧
      Question.message (ascii "A.b.") ⟨28⟩ 7 = .ok message := by
  obtain ⟨message, h⟩ : ∃ message, Question.message (ascii "A.b") ⟨28⟩ 7 = .ok message :=
    ⟨_, rfl⟩
  obtain ⟨hread, -, hcase, hdot, -⟩ := ofMessage?_readsBack h
  have hname : ofMessage? message = some ⟨ascii "a.b", ⟨28⟩, 1⟩ := hread (by decide)
  obtain ⟨other, hother, heq⟩ := hcase (ascii "a.B") ⟨1⟩ 0 rfl
  exact ⟨message, h, hname, ⟨other, hother, by rw [heq, hname]; rfl⟩, hdot (by decide)⟩

end Question

end ResolverLog
