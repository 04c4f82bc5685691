import ResolverLog.Proofs.Question

/-!
# The names that a query can carry

A name is written label by label, without one dot at its end. What is left may
be empty, or it is made of labels of one to 63 bytes parted by dots. A label
ends with its dot, so that nothing is left to be looked at behind a dot at the
end: a second dot there is passed over like the first, and only there is an
empty label not refused.
-/

namespace ResolverLog

namespace Question

open Bytes

variable {labels : List Bytes} {name text stem : Bytes}

/-- The text is made of labels of one to 63 bytes, parted by dots. -/
def IsDotted (text : Bytes) : Prop :=
  ∃ labels : List Bytes, labels ≠ [] ∧
    (∀ label ∈ labels, 0 < label.length ∧ label.length ≤ 63 ∧ (0x2E : UInt8) ∉ label) ∧
    text = join [0x2E] labels

theorem isLabel_iff : isLabel text = true ↔ 0 < text.length ∧ text.length ≤ 63 := by
  rw [isLabel, maxLabelLength, Bool.and_eq_true, decide_eq_true_eq, Bool.not_eq_true',
    List.isEmpty_eq_false_iff, List.length_pos_iff]

theorem isDotted_iff : IsDotted text ↔ ∃ labels : List Bytes, labels ≠ [] ∧
    (∀ label ∈ labels, isLabel label = true) ∧ (∀ label ∈ labels, (0x2E : UInt8) ∉ label) ∧
    text = join [0x2E] labels := by
  constructor
  · rintro ⟨labels, hne, hall, htext⟩
    refine ⟨labels, hne, ?_, (fun label hlabel => (hall label hlabel).2.2), htext⟩
    intro label hlabel
    exact isLabel_iff.mpr ⟨(hall label hlabel).1, (hall label hlabel).2.1⟩
  · rintro ⟨labels, hne, hall, hdot, htext⟩
    refine ⟨labels, hne, ?_, htext⟩
    intro label hlabel
    obtain ⟨hpos, hle⟩ := isLabel_iff.mp (hall label hlabel)
    exact ⟨hpos, hle, hdot label hlabel⟩

/-- There is no dot at the end of a dotted text. -/
theorem IsDotted.getLast?_ne (h : IsDotted text) : text.getLast? ≠ some 0x2E := by
  obtain ⟨labels, -, hall, hdot, rfl⟩ := isDotted_iff.mp h
  exact getLast?_join hall hdot

/-! ## Labels from a text and back -/

/-- The labels of a dotted text are found again, also with a dot behind it. -/
theorem terminated_join_append {dots : Bytes} (hne : labels ≠ [])
    (hall : ∀ label ∈ labels, isLabel label = true)
    (hdot : ∀ label ∈ labels, (0x2E : UInt8) ∉ label) (hdots : dots = [] ∨ dots = [0x2E]) :
    terminated 0x2E (join [0x2E] labels ++ dots) = labels := by
  have hsplit : splitOn 0x2E (join [0x2E] labels) = labels := splitOn_join hne hdot
  rcases hdots with rfl | rfl
  · have hlast : labels.getLast? ≠ some [] := by
      intro hlast
      exact absurd (hall [] (List.mem_of_getLast? hlast)) (by decide)
    rw [List.append_nil, terminated, hsplit, if_neg hlast]
  · rw [terminated_append_sep, hsplit, terminated_nil, List.append_nil]

/-- The labels of a text are all right when there are none, or when the text without one dot at its
end is dotted. -/
theorem isLabel_terminated_iff (stem : Bytes) :
    (∀ label ∈ terminated 0x2E stem, isLabel label = true) ↔
      stem = [] ∨ IsDotted (dropFinal 0x2E stem) := by
  constructor
  · intro hall
    by_cases hnil : terminated 0x2E stem = []
    · exact .inl (eq_nil_of_terminated_eq_nil hnil)
    · have hdot : ∀ label ∈ terminated 0x2E stem, (0x2E : UInt8) ∉ label := by
        intro label hlabel hmem
        exact absurd (eq_false_of_mem_splitWhere (terminated_subset_splitOn _ _ hlabel) hmem)
          (by decide)
      have hstem : dropFinal 0x2E stem = join [0x2E] (terminated 0x2E stem) := by
        rcases eq_join_terminated 0x2E stem with heq | heq
        · have hlast : stem.getLast? ≠ some 0x2E := by
            rw [heq]
            exact getLast?_join hall hdot
          rw [dropFinal, if_neg hlast]
          exact heq
        · exact (congrArg (dropFinal 0x2E) heq).trans (dropFinal_concat _ _)
      exact .inr (isDotted_iff.mpr ⟨_, hnil, hall, hdot, hstem⟩)
  · rintro (rfl | h)
    · rw [terminated_nil]
      exact List.forall_mem_nil _
    · obtain ⟨labels, hne, hall, hdot, hstem⟩ := isDotted_iff.mp h
      obtain ⟨dots, heq, hdots⟩ := eq_dropFinal_append 0x2E stem
      rw [heq, hstem, terminated_join_append hne hall hdot hdots]
      exact hall

/-! ## Acceptance and refusal -/

/-- A query is written for a name, or the name is refused for its length or for a label. -/
theorem message_cases (name : Bytes) (kind : RecordType) (id : UInt16) :
    (253 < (dropFinal 0x2E name).length ∧
      Question.message name kind id = .error (.tooLong name)) ∨
    ((dropFinal 0x2E name).length ≤ 253 ∧
      (dropFinal 0x2E name = [] ∨ IsDotted (dropFinal 0x2E (dropFinal 0x2E name))) ∧
      ∃ message, Question.message name kind id = .ok message) ∨
    ((dropFinal 0x2E name).length ≤ 253 ∧
      ¬ (dropFinal 0x2E name = [] ∨ IsDotted (dropFinal 0x2E (dropFinal 0x2E name))) ∧
      Question.message name kind id = .error (.badLabel name)) := by
  rw [Question.message, labelsOfName, ← isLabel_terminated_iff, ← List.all_eq_true]
  by_cases hlen : maxNameLength - 2 < (dropFinal 0x2E name).length
  · simp only [if_pos hlen]
    exact .inl ⟨hlen, rfl⟩
  · simp only [if_neg hlen]
    by_cases hall : (terminated 0x2E (dropFinal 0x2E name)).all isLabel = true
    · rw [if_pos hall]
      exact .inr (.inl ⟨Nat.not_lt.mp hlen, hall, _, rfl⟩)
    · rw [if_neg hall]
      exact .inr (.inr ⟨Nat.not_lt.mp hlen, hall, rfl⟩)

theorem dropFinal_two (b : UInt8) (text : Bytes) : dropFinal b (text ++ [b, b]) = text ++ [b] := by
  rw [← List.singleton_append, ← List.append_assoc, dropFinal_concat]

/-- A text is dotted without the two dots at its end, but not without only one of them. -/
theorem isDotted_dropFinal_dropFinal_iff (name : Bytes) :
    IsDotted (dropFinal 0x2E (dropFinal 0x2E name)) ∧ ¬ IsDotted (dropFinal 0x2E name) ↔
      ∃ text, IsDotted text ∧ name = text ++ [0x2E, 0x2E] := by
  constructor
  · rintro ⟨htext, hstem⟩
    have hne : dropFinal 0x2E (dropFinal 0x2E name) ≠ dropFinal 0x2E name := by
      intro heq
      rw [heq] at htext
      exact hstem htext
    have hne' : dropFinal 0x2E name ≠ name := fun heq => hne (congrArg (dropFinal 0x2E) heq)
    refine ⟨_, htext, ?_⟩
    calc name = dropFinal 0x2E name ++ [0x2E] := eq_dropFinal_concat hne'
      _ = dropFinal 0x2E (dropFinal 0x2E name) ++ [0x2E] ++ [0x2E] :=
          congrArg (· ++ _) (eq_dropFinal_concat hne)
      _ = dropFinal 0x2E (dropFinal 0x2E name) ++ [0x2E, 0x2E] := List.append_assoc _ _ _
  · rintro ⟨text, htext, rfl⟩
    rw [dropFinal_two, dropFinal_concat]
    exact ⟨htext, fun h => h.getLast?_ne List.getLast?_concat⟩

/-- A name can be carried when without one dot at its end it has at most 253 bytes and is empty or,
again without one dot at its end, dotted; whatever the type and the number of the query. Any other
name is refused, for its length or else for a label. So the names that are carried although they are
not dotted without one dot at the end are those with two dots behind a dotted text. -/
theorem message_carries_iff (name : Bytes) (kind : RecordType) (id : UInt16) :
    ((∃ message, Question.message name kind id = .ok message) ↔
      (dropFinal 0x2E name).length ≤ 253 ∧
        (dropFinal 0x2E name = [] ∨ IsDotted (dropFinal 0x2E (dropFinal 0x2E name)))) ∧
    (Question.message name kind id = .error (.tooLong name) ↔
      253 < (dropFinal 0x2E name).length) ∧
    (Question.message name kind id = .error (.badLabel name) ↔
      (dropFinal 0x2E name).length ≤ 253 ∧
        ¬ (dropFinal 0x2E name = [] ∨ IsDotted (dropFinal 0x2E (dropFinal 0x2E name)))) ∧
    ((∃ message, Question.message name kind id = .ok message) ∧
        ¬ (dropFinal 0x2E name = [] ∨ IsDotted (dropFinal 0x2E name)) ↔
      ∃ text, IsDotted text ∧ text.length ≤ 252 ∧ name = text ++ [0x2E, 0x2E]) := by
  have haccepted : (∃ message, Question.message name kind id = .ok message) ↔
      (dropFinal 0x2E name).length ≤ 253 ∧
        (dropFinal 0x2E name = [] ∨ IsDotted (dropFinal 0x2E (dropFinal 0x2E name))) := by
    rcases message_cases name kind id with ⟨hlen, hm⟩ | ⟨hlen, hfits, hm⟩ | ⟨-, hfits, hm⟩
    · exact iff_of_false (by rw [hm]; rintro ⟨_, ⟨⟩⟩) fun h => absurd h.1 (Nat.not_le.mpr hlen)
    · exact iff_of_true hm ⟨hlen, hfits⟩
    · exact iff_of_false (by rw [hm]; rintro ⟨_, ⟨⟩⟩) fun h => hfits h.2
  refine ⟨haccepted, ?_, ?_, ?_⟩
  · rcases message_cases name kind id with ⟨hlen, hm⟩ | ⟨hlen, -, _, hm⟩ | ⟨hlen, -, hm⟩
    · exact iff_of_true hm hlen
    · exact iff_of_false (by rw [hm]; rintro ⟨⟩) (Nat.not_lt.mpr hlen)
    · exact iff_of_false (by rw [hm]; rintro ⟨⟩) (Nat.not_lt.mpr hlen)
  · rcases message_cases name kind id with ⟨hlen, hm⟩ | ⟨-, hfits, _, hm⟩ | ⟨hlen, hfits, hm⟩
    · exact iff_of_false (by rw [hm]; rintro ⟨⟩) fun h => absurd h.1 (Nat.not_le.mpr hlen)
    · exact iff_of_false (by rw [hm]; rintro ⟨⟩) fun h => h.2 hfits
    · exact iff_of_true hm ⟨hlen, hfits⟩
  · constructor
    · rintro ⟨hcarried, hrule⟩
      obtain ⟨hlen, hfits⟩ := haccepted.mp hcarried
      obtain ⟨hnil, hstem⟩ := not_or.mp hrule
      obtain ⟨text, htext, rfl⟩ :=
        (isDotted_dropFinal_dropFinal_iff name).mp ⟨hfits.resolve_left hnil, hstem⟩
      rw [dropFinal_two, List.length_append, List.length_singleton] at hlen
      exact ⟨text, htext, Nat.le_of_succ_le_succ hlen, rfl⟩
    · rintro ⟨text, htext, hlen, rfl⟩
      obtain ⟨hfits, hstem⟩ := (isDotted_dropFinal_dropFinal_iff _).mpr ⟨text, htext, rfl⟩
      rw [haccepted]
      refine ⟨⟨?_, .inr hfits⟩, not_or.mpr ⟨?_, hstem⟩⟩
      · rw [dropFinal_two, List.length_append, List.length_singleton]
        exact Nat.succ_le_succ hlen
      · rw [dropFinal_two]
        exact List.append_ne_nil_of_right_ne_nil _ (List.cons_ne_nil _ _)

/-- The name `a..` can be carried, though without one dot it is `a.`, whose last label is empty. -/
theorem not_message_carries_iff :
    ¬ ∀ (name : Bytes) (kind : RecordType) (id : UInt16),
      (∃ message, Question.message name kind id = .ok message) ↔
        (dropFinal 0x2E name).length ≤ 253 ∧
          (dropFinal 0x2E name = [] ∨ IsDotted (dropFinal 0x2E name)) := by
  intro h
  obtain ⟨-, hnil | hstem⟩ := (h (ascii "a..") ⟨1⟩ 0).mp ⟨_, rfl⟩
  · exact absurd hnil (by decide)
  · exact hstem.getLast?_ne (by decide)

end Question

end ResolverLog
