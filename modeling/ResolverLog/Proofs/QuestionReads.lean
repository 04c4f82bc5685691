import ResolverLog.Proofs.QuestionGrammar

/-!
# Questions read by position

A message is a block of memory, and a reader that keeps a position in it must
look at the length before each read. `questionAt` is such a reader: it follows
a name byte by byte, collects the text of the name on the way, and every read
is checked, so that a read outside the message would show as an error of its
own. It never shows: the reader gives the question of the message or refuses
the message, exactly as `ofMessage?` does.

## Implementation notes

The length of the text is looked at whenever the text grows, and again behind
each pointer. Since the text only grows, this refuses exactly the names whose
whole text is too long, which is the one check of `ofMessage?`.
-/

namespace ResolverLog

namespace Question

open Bytes

variable {message name more : Bytes} {labels done : List Bytes} {position : Nat}

/-- Why a reader that keeps a position stops without a question. -/
inductive ReadError
  /-- The message asks no question that is read. -/
  | refused
  /-- The read of a byte that the message does not have. -/
  | outside (position : Nat)
  deriving DecidableEq, Repr

/-! ## Checked reads -/

/-- The byte at a position. -/
def byteAt (message : Bytes) (position : Nat) : Except ReadError UInt8 :=
  match message[position]? with
  | some b => .ok b
  | none => .error (.outside position)

/-- The 16-bit number at a position. -/
def wordAt (message : Bytes) (position : Nat) : Except ReadError UInt16 := do
  let high ← byteAt message position
  let low ← byteAt message (position + 1)
  return word high low

/-- So many bytes from a position on, read one by one. -/
def bytesAt (message : Bytes) (position : Nat) : Nat → Except ReadError Bytes
  | 0 => .ok []
  | size + 1 => do
    let b ← byteAt message position
    let rest ← bytesAt message (position + 1) size
    return b :: rest

theorem byteAt_eq {b : UInt8} (h : message[position]? = some b) :
    byteAt message position = .ok b := by
  rw [byteAt, h]

theorem wordAt_eq {high low : UInt8} {rest : Bytes}
    (h : message.drop position = high :: low :: rest) :
    wordAt message position = .ok (word high low) := by
  have hhigh : message[position]? = some high := by
    rw [← Nat.add_zero position, ← List.getElem?_drop, h]
    rfl
  have hlow : message[position + 1]? = some low := by
    rw [← List.getElem?_drop, h]
    rfl
  rw [wordAt, byteAt_eq hhigh, byteAt_eq hlow]
  rfl

theorem bytesAt_eq {size : Nat} (h : position + size ≤ message.length) :
    bytesAt message position size = .ok ((message.drop position).take size) := by
  induction size generalizing position with
  | zero => rfl
  | succ size ih =>
      have here : message[position]? = some message[position] :=
        List.getElem?_eq_getElem (by omega)
      rw [bytesAt, byteAt_eq here, ih (by omega), drop_eq_cons here, List.take_succ_cons]
      rfl

/-! ## Names -/

/-- One text behind another, with a dot between them when neither is empty. -/
def dotted (name more : Bytes) : Bytes :=
  if name.isEmpty || more.isEmpty then name ++ more else name ++ 0x2E :: more

/-- Follows the name at a position, behind the text `name` of the labels met before. Gives the
text, if it is not too long, and the position behind the name's own end. -/
def nameAt (message : Bytes) (jumps position : Nat) (name : Bytes) :
    Except ReadError (Bytes × Nat) :=
  if message.length ≤ position then .error .refused
  else do
    let size ← byteAt message position
    if size &&& 0xC0 = 0xC0 then
      if message.length ≤ position + 1 then .error .refused
      else
        let low ← byteAt message (position + 1)
        let target := (size &&& 0x3F).toNat * 256 + low.toNat
        if message.length ≤ target then .error .refused
        else match jumps with
          | 0 => .error .refused
          | jumps + 1 =>
            let (rest, _) ← nameAt message jumps target []
            if maxNameLength < (dotted name rest).length then .error .refused
            else return (dotted name rest, position + 2)
    else if size &&& 0xC0 ≠ 0 then .error .refused
    else if size = 0 then
      if maxNameLength < name.length then .error .refused else return (name, position + 1)
    else if message.length < position + 1 + size.toNat then .error .refused
    else if maxNameLength < name.length + size.toNat + (if name.isEmpty then 0 else 1) then
      .error .refused
    else
      let label ← bytesAt message (position + 1) size.toNat
      nameAt message jumps (position + 1 + size.toNat) (dotted name label)
termination_by (jumps, message.length - position)

/-- Joined labels grow by a dot and the labels behind it. -/
theorem dotted_join (hdone : ∀ label ∈ done, label ≠ []) (hlabels : ∀ label ∈ labels, label ≠ []) :
    dotted (join [0x2E] done) (join [0x2E] labels) = join [0x2E] (done ++ labels) := by
  have hnil : ∀ labels : List Bytes, (∀ label ∈ labels, label ≠ []) →
      ((join [0x2E] labels).isEmpty = true ↔ labels = []) := by
    intro labels h
    rw [List.isEmpty_iff]
    exact join_eq_nil_iff h
  rw [dotted]
  by_cases hd : done = []
  · subst hd
    rfl
  by_cases hl : labels = []
  · subst hl
    rw [List.append_nil, join, join, List.intercalate_nil, List.append_nil]
    simp
  rw [join_append hd hl, if_neg]
  rw [Bool.or_eq_true, hnil done hdone, hnil labels hlabels]
  exact not_or.mpr ⟨hd, hl⟩

theorem length_join_le (done labels : List Bytes) :
    (join [0x2E] labels).length ≤ (join [0x2E] (done ++ labels)).length ∧
      (join [0x2E] done).length ≤ (join [0x2E] (done ++ labels)).length := by
  by_cases hd : done = []
  · subst hd
    exact ⟨le_rfl, Nat.zero_le _⟩
  by_cases hl : labels = []
  · subst hl
    rw [List.append_nil]
    exact ⟨Nat.zero_le _, le_rfl⟩
  rw [join_append hd hl, List.length_append, List.length_cons]
  omega

/-- A label in which there is something comes behind the others. -/
theorem dotted_label {label : Bytes} (hdone : ∀ label ∈ done, label ≠ []) (hne : label ≠ []) :
    dotted (join [0x2E] done) label = join [0x2E] (done ++ [label]) := by
  have hsingle : join [0x2E] [label] = label := by
    rw [join, List.intercalate_singleton]
  rw [← dotted_join hdone (by simpa using hne), hsingle]

theorem length_label {label : Bytes} (hdone : ∀ label ∈ done, label ≠ []) (hne : label ≠ []) :
    (join [0x2E] done).length + label.length + (if (join [0x2E] done).isEmpty then 0 else 1)
      = (join [0x2E] (done ++ [label])).length := by
  rw [← dotted_label hdone hne, dotted, List.isEmpty_eq_false_iff.mpr hne, Bool.or_false]
  split
  · rw [List.length_append, Nat.add_zero]
  · rw [List.length_append, List.length_cons, Nat.add_assoc]

/-- What follows from the labels at a position for a reader that met `done` before: the name with
its dots, unless it is too long, and where it ends. -/
def spelled (message : Bytes) (done : List Bytes) :
    Option (List Bytes × Bytes) → Except ReadError (Bytes × Nat)
  | none => .error .refused
  | some (labels, rest) =>
    if maxNameLength < (join [0x2E] (done ++ labels)).length then .error .refused
    else .ok (join [0x2E] (done ++ labels), message.length - rest.length)

/-- Labels may be met one by one. -/
theorem spelled_label (message : Bytes) (done : List Bytes) (label : Bytes)
    (found : Option (List Bytes × Bytes)) :
    spelled message (done ++ [label]) found
      = spelled message done (found.map fun (more, rest) => (label :: more, rest)) := by
  cases found with
  | none => rfl
  | some found => rw [spelled, Option.map_some, spelled, List.append_assoc, List.singleton_append]

/-- A text that is too long does not get shorter. -/
theorem spelled_of_lt {label : Bytes} (h : maxNameLength < (join [0x2E] (done ++ [label])).length)
    (found : Option (List Bytes × Bytes)) :
    spelled message (done ++ [label]) found = .error .refused := by
  cases found with
  | none => rfl
  | some found =>
      rw [spelled, if_pos]
      exact h.trans_le (length_join_le (done ++ [label]) found.1).2

/-- Behind a pointer the rest of the name is spelled on its own and put behind what was met. -/
theorem spelled_pointer {jumps target : Nat} (hnext : position + 2 ≤ message.length)
    (hdone : ∀ label ∈ done, label ≠ []) :
    (match spelled message [] (labelsAt message jumps target) with
      | .error e => .error e
      | .ok (rest, _) =>
        if maxNameLength < (dotted (join [0x2E] done) rest).length then .error .refused
        else .ok (dotted (join [0x2E] done) rest, position + 2)) =
      spelled message done ((labelsAt message jumps target).map fun (more, _) =>
        (more, message.drop (position + 2))) := by
  cases hfound : labelsAt message jumps target with
  | none => rfl
  | some found =>
      obtain ⟨labels, rest⟩ := found
      obtain ⟨_, _, hwalk, -, -⟩ := walk_of_labelsAt hfound
      have hback : message.length - (message.drop (position + 2)).length = position + 2 := by
        rw [List.length_drop]
        omega
      rw [Option.map_some, spelled, spelled, hback, List.nil_append]
      by_cases hlen : maxNameLength < (join [0x2E] labels).length
      · rw [if_pos hlen, if_pos (hlen.trans_le (length_join_le done labels).1)]
      · rw [if_neg hlen]
        dsimp only
        rw [dotted_join hdone hwalk.ne_nil_of_mem]

theorem and_eq_iff (size : UInt8) :
    (size &&& 0xC0 = 0xC0 ↔ 0xC0 ≤ size) ∧ (size &&& 0xC0 = 0 ↔ ¬ 0x40 ≤ size) :=
  forall_of_forall_ofNat
    (fun b => (b &&& 0xC0 = 0xC0 ↔ 0xC0 ≤ b) ∧ (b &&& 0xC0 = 0 ↔ ¬ 0x40 ≤ b))
    (by decide +kernel) size.toNat_lt

/-- A reader that checks its reads spells the labels at a position. -/
theorem nameAt_eq (message : Bytes) (jumps position : Nat) (done : List Bytes)
    (hdone : ∀ label ∈ done, label ≠ []) :
    nameAt message jumps position (join [0x2E] done)
      = spelled message done (labelsAt message jumps position) := by
  rw [nameAt]
  by_cases hposition : message.length ≤ position
  · rw [if_pos hposition, labelsAt_of_length_le hposition]
    rfl
  obtain ⟨size, here⟩ := exists_getElem? hposition
  obtain ⟨hmask, hplain⟩ := and_eq_iff size
  rw [if_neg hposition, labelsAt_eq, here, byteAt_eq here]
  dsimp only [bind, Except.bind, pure, Except.pure]
  by_cases hpointer : 0xC0 ≤ size
  · have hzero : size ≠ 0 := by
      rintro rfl
      exact absurd hpointer (by decide)
    rw [if_pos (hmask.mpr hpointer), if_neg hzero, if_pos hpointer]
    by_cases hlow : message.length ≤ position + 1
    · rw [if_pos hlow, List.getElem?_eq_none hlow]
      cases jumps with
      | zero => rfl
      | succ jumps => rfl
    obtain ⟨low, behind⟩ := exists_getElem? hlow
    have htarget : (size &&& 0x3F).toNat * 256 + low.toNat = target size low := by
      rw [toNat_and_of_le hpointer, target]
    rw [if_neg hlow, behind, byteAt_eq behind]
    dsimp only
    rw [htarget]
    cases jumps with
    | zero =>
        split
        · rfl
        · rfl
    | succ jumps =>
        have ih : nameAt message jumps (target size low) []
            = spelled message [] (labelsAt message jumps (target size low)) :=
          nameAt_eq message jumps (target size low) [] (List.forall_mem_nil _)
        by_cases hinside : message.length ≤ target size low
        · dsimp only
          rw [if_pos hinside, labelsAt_of_length_le hinside]
          rfl
        · dsimp only
          rw [if_neg hinside, ← spelled_pointer (by omega) hdone, ← ih]
          cases nameAt message jumps (target size low) [] with
          | error e => rfl
          | ok found => rfl
  · rw [if_neg (mt hmask.mp hpointer), if_neg hpointer]
    by_cases hlong : 0x40 ≤ size
    · have hzero : size ≠ 0 := by
        rintro rfl
        exact absurd hlong (by decide)
      rw [if_pos (mt hplain.mp (not_not.mpr hlong)), if_neg hzero, if_pos (.inl hlong)]
      rfl
    rw [if_neg (not_not.mpr (hplain.mpr hlong))]
    by_cases hzero : size = 0
    · rw [if_pos hzero, if_pos hzero, spelled, List.append_nil, List.length_drop]
      have hnext : message.length - (message.length - (position + 1)) = position + 1 := by
        omega
      rw [hnext]
    · rw [if_neg hzero, if_neg hzero]
      by_cases houtside : message.length < position + 1 + size.toNat
      · rw [if_pos houtside, if_pos (.inr houtside)]
        rfl
      · have hlabel : ((message.drop (position + 1)).take size.toNat).length = size.toNat := by
          rw [List.length_take, List.length_drop]
          omega
        rw [if_neg houtside, if_neg (not_or.mpr ⟨hlong, houtside⟩), ← spelled_label,
          bytesAt_eq (Nat.not_lt.mp houtside)]
        have ih := nameAt_eq message jumps (position + 1 + size.toNat)
          (done ++ [(message.drop (position + 1)).take size.toNat])
        generalize (message.drop (position + 1)).take size.toNat = label at *
        have hne : label ≠ [] := by
          rintro rfl
          exact hzero (UInt8.toNat_inj.mp hlabel.symm)
        have hall : ∀ piece ∈ done ++ [label], piece ≠ [] := by
          simpa [or_imp, forall_and] using ⟨hdone, hne⟩
        have hsize : (join [0x2E] done).length + size.toNat
            + (if (join [0x2E] done).isEmpty then 0 else 1)
              = (join [0x2E] (done ++ [label])).length := by
          rw [← hlabel]
          exact length_label hdone hne
        dsimp only
        rw [hsize, dotted_label hdone hne]
        by_cases hlen : maxNameLength < (join [0x2E] (done ++ [label])).length
        · rw [if_pos hlen, spelled_of_lt hlen]
        · rw [if_neg hlen, ih hall]
termination_by (jumps, message.length - position)

/-- The question of a message, read by position. -/
def questionAt (message : Bytes) : Except ReadError Question :=
  if message.length < headerSize then .error .refused
  else do
    let count ← wordAt message 4
    if count ≠ 1 then .error .refused
    else
      let (name, next) ← nameAt message maxJumps headerSize []
      if message.length < next + 4 then .error .refused
      else
        let kind ← wordAt message next
        let qclass ← wordAt message (next + 2)
        let name := trimDots (name.map lower)
        if name.isEmpty then .error .refused else return ⟨name, ⟨kind⟩, qclass⟩

theorem exists_drop_eq {message : Bytes} (position : Nat) (h : position + 2 ≤ message.length) :
    ∃ high low, message.drop position = high :: low :: message.drop (position + 2) := by
  have hposition : ¬ message.length ≤ position := by omega
  have hnext : ¬ message.length ≤ position + 1 := by omega
  obtain ⟨high, hhigh⟩ := exists_getElem? hposition
  obtain ⟨low, hlow⟩ := exists_getElem? hnext
  exact ⟨high, low, by rw [drop_eq_cons hhigh, drop_eq_cons hlow]⟩

/-- The reader that checks its reads gives the question of the message or refuses the message, and
no read of it is outside the message. -/
theorem questionAt_eq (message : Bytes) : questionAt message =
    match ofMessage? message with
    | some question => .ok question
    | none => .error .refused := by
  rw [questionAt]
  by_cases hshort : message.length < headerSize
  · rw [if_pos hshort, ofMessage?, bind_guard, count?, if_pos hshort]
    rfl
  rw [headerSize] at hshort
  have htwo : 4 + 2 ≤ message.length := by omega
  obtain ⟨high, low, hheader⟩ := exists_drop_eq 4 htwo
  have hcount : count? message = some (word high low) := by
    rw [count?, headerSize, if_neg hshort, hheader]
  rw [headerSize, if_neg hshort, wordAt_eq hheader, ofMessage?, bind_guard, hcount]
  dsimp only [bind, Except.bind, pure, Except.pure]
  by_cases hone : word high low = 1
  · have hname : nameAt message maxJumps headerSize []
        = spelled message [] (labelsAt message maxJumps headerSize) :=
      nameAt_eq message maxJumps headerSize [] (List.forall_mem_nil _)
    rw [if_neg (not_not.mpr hone), hone, if_pos (beq_self_eq_true _)]
    rw [headerSize] at hname ⊢
    rw [hname]
    cases hfound : labelsAt message maxJumps 12 with
    | none => rfl
    | some found =>
        obtain ⟨labels, rest⟩ := found
        obtain ⟨_, _, -, -, hrest⟩ := walk_of_labelsAt hfound
        have hsuffix : rest <:+ message := hrest ▸ List.drop_suffix _ _
        have hlength := hsuffix.length_le
        have hdrop := List.suffix_iff_eq_drop.mp hsuffix
        rw [spelled, List.nil_append, Option.bind_some]
        dsimp only
        rw [← Option.bind_eq_bind, bind_guard]
        by_cases hlen : maxNameLength < (join [0x2E] labels).length
        · rw [if_pos hlen, if_neg (Nat.not_le.mpr hlen)]
        rw [if_neg hlen, if_pos (Nat.not_lt.mp hlen)]
        dsimp only
        by_cases hroom : message.length < message.length - rest.length + 4
        · rw [if_pos hroom]
          rcases rest with _ | ⟨t₁, _ | ⟨t₀, _ | ⟨c₁, _ | ⟨c₀, behind⟩⟩⟩⟩
          · rfl
          · rfl
          · rfl
          · rfl
          · simp only [List.length_cons] at hroom hlength
            omega
        · have hfour : message.length - rest.length + 2 + 2 ≤ message.length := by omega
          obtain ⟨t₁, t₀, hkind⟩ := exists_drop_eq (message.length - rest.length)
            (Nat.le_of_add_right_le hfour)
          obtain ⟨c₁, c₀, hclass⟩ := exists_drop_eq (message.length - rest.length + 2) hfour
          rw [if_neg hroom, wordAt_eq hkind, wordAt_eq hclass, hdrop, hkind, hclass]
          dsimp only
          rw [bind_guard]
          cases trimDots ((join [0x2E] labels).map lower) with
          | nil => rfl
          | cons b name => rfl
  · rw [if_pos hone, if_neg (by simpa using hone)]

/-- No read is outside the message, and exactly the messages that ask a question are read as one,
as the question that they ask. -/
theorem reads_exactly_asked (message : Bytes) :
    (∀ position, questionAt message ≠ .error (.outside position)) ∧
      (∀ question, questionAt message = .ok question ↔ ofMessage? message = some question) ∧
      ∀ question, ofMessage? message = some question ↔
        ∃ labels jumps next, Asks message labels jumps next question := by
  have heq := questionAt_eq message
  refine ⟨?_, ?_, fun question => ofMessage?_eq_some_iff⟩
  · intro position houtside
    rw [houtside] at heq
    cases hread : ofMessage? message with
    | none =>
        rw [hread] at heq
        cases heq
    | some question =>
        rw [hread] at heq
        cases heq
  · intro question
    rw [heq]
    cases ofMessage? message with
    | none => exact iff_of_false (by rintro ⟨⟩) (by rintro ⟨⟩)
    | some asked => rw [Except.ok.injEq, Option.some.injEq]

end Question

end ResolverLog
