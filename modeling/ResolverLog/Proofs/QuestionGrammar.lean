import ResolverLog.Proofs.Question

/-!
# The messages that ask a question

A message asks a question when its header announces one, a walk over labels and
pointers from behind the header spells a name, and a type and a class stand
behind the name's own end. The walk is a relation over positions of the message
and says nothing about how it is found; reading finds it exactly when there is
one, so the relation is the grammar of the messages that are accepted.

## Implementation notes

`labelsAt` reads a whole run of labels before it looks at what ended it.
`labelsAt_eq` is its equation for one byte at a position, and the rest of the
module knows `labelsAt` by this equation only.
-/

namespace ResolverLog

namespace Question

open Bytes

variable {message : Bytes} {labels : List Bytes} {jumps bound position next : Nat}

/-! ## Bytes at positions -/

/-- A message from a position on begins with the byte there. -/
theorem drop_eq_cons {b : UInt8} (h : message[position]? = some b) :
    message.drop position = b :: message.drop (position + 1) := by
  obtain ⟨hlt, rfl⟩ := List.getElem?_eq_some_iff.mp h
  exact List.drop_eq_getElem_cons hlt

theorem exists_getElem? (h : ¬ message.length ≤ position) : ∃ b, message[position]? = some b :=
  ⟨_, List.getElem?_eq_getElem (Nat.not_le.mp h)⟩

/-- The length byte of a pointer carries the high part of an offset behind two set bits. -/
theorem toNat_and_of_le {size : UInt8} (h : 0xC0 ≤ size) :
    (size &&& 0x3F).toNat = size.toNat - 192 := by
  have hall : 0xC0 ≤ size → (size &&& 0x3F).toNat = size.toNat - 192 :=
    forall_of_forall_ofNat (fun b => 0xC0 ≤ b → (b &&& 0x3F).toNat = b.toNat - 192)
      (by decide +kernel) size.toNat_lt
  exact hall h

theorem toNat_word (high low : UInt8) : (word high low).toNat = high.toNat * 256 + low.toNat := by
  have hhigh := high.toNat_lt
  have hlow : low.toNat < 2 ^ 8 := low.toNat_lt
  have hshift : high.toNat <<< 8 % 65536 = high.toNat <<< 8 := by
    rw [Nat.shiftLeft_eq]
    omega
  rw [word, UInt16.toNat_or, UInt16.toNat_shiftLeft]
  simp only [UInt8.toNat_toUInt16, UInt16.reduceToNat, Nat.reducePow, Nat.reduceMod]
  rw [hshift, ← Nat.shiftLeft_add_eq_or_of_lt hlow, Nat.shiftLeft_eq]

/-- A number of two bytes, the high one first, stands at a position. -/
def IsWordAt (message : Bytes) (position : Nat) (n : UInt16) : Prop :=
  ∃ high low, message[position]? = some high ∧ message[position + 1]? = some low ∧
    n.toNat = high.toNat * 256 + low.toNat

theorem isWordAt_iff {n : UInt16} : IsWordAt message position n ↔
    ∃ high low rest, message.drop position = high :: low :: rest ∧ n = word high low := by
  constructor
  · rintro ⟨high, low, hhigh, hlow, hn⟩
    refine ⟨high, low, message.drop (position + 1 + 1), ?_, ?_⟩
    · rw [drop_eq_cons hhigh, drop_eq_cons hlow]
    · rw [← UInt16.toNat_inj, toNat_word, hn]
  · rintro ⟨high, low, rest, hdrop, rfl⟩
    refine ⟨high, low, ?_, ?_, toNat_word high low⟩
    · rw [← Nat.add_zero position, ← List.getElem?_drop, hdrop]
      rfl
    · rw [← List.getElem?_drop, hdrop]
      rfl

/-! ## Labels at a position -/

/-- The labels read before stand in front of those that are read. -/
theorem labelRun_eq_map (done : List Bytes) (wire : Bytes) :
    labelRun done wire =
      (labelRun [] wire).map fun run => ⟨done.reverse ++ run.labels, run.ending, run.rest⟩ := by
  induction hn : wire.length using Nat.strong_induction_on generalizing done wire with
  | _ n ih =>
      subst hn
      rw [labelRun.eq_def done, labelRun.eq_def []]
      cases wire with
      | nil => rfl
      | cons size rest =>
          dsimp only
          split
          · rw [Option.map_some, List.reverse_nil, List.append_nil]
          · split
            · cases rest with
              | nil => rfl
              | cons low rest => rw [Option.map_some, List.reverse_nil, List.append_nil]
            · split
              · rfl
              · split
                · have hlt : (rest.drop size.toNat).length < (size :: rest).length := by
                    rw [List.length_drop, List.length_cons]
                    omega
                  rw [ih _ hlt (rest.take size.toNat :: done) _ rfl,
                    ih _ hlt [rest.take size.toNat] _ rfl, Option.map_map]
                  congr 1
                  funext run
                  simp
                · rfl

/-- Where the rest of a name stands according to the two bytes of a pointer. -/
def target (high low : UInt8) : Nat :=
  (high.toNat - 192) * 256 + low.toNat

/-- The labels at a position, by the byte that stands there. -/
theorem labelsAt_eq (message : Bytes) (jumps position : Nat) :
    labelsAt message jumps position =
      match message[position]? with
      | none => none
      | some size =>
        if size = 0 then some ([], message.drop (position + 1))
        else if 0xC0 ≤ size then
          match jumps, message[position + 1]? with
          | jumps + 1, some low =>
            (labelsAt message jumps (target size low)).map fun (more, _) =>
              (more, message.drop (position + 2))
          | _, _ => none
        else if 0x40 ≤ size ∨ message.length < position + 1 + size.toNat then none
        else
          (labelsAt message jumps (position + 1 + size.toNat)).map fun (more, rest) =>
            ((message.drop (position + 1)).take size.toNat :: more, rest) := by
  cases hsize : message[position]? with
  | none =>
      rw [labelsAt, List.drop_eq_nil_iff.mpr (List.getElem?_eq_none_iff.mp hsize), labelRun.eq_def]
  | some size =>
      rw [labelsAt, drop_eq_cons hsize, labelRun.eq_def]
      dsimp only
      by_cases hzero : size = 0
      · rw [if_pos hzero, if_pos (beq_iff_eq.mpr hzero)]
        rfl
      rw [if_neg hzero, if_neg (mt beq_iff_eq.mp hzero)]
      by_cases hpointer : 0xC0 ≤ size
      · rw [if_pos hpointer, if_pos hpointer]
        cases hlow : message[position + 1]? with
        | none =>
            rw [List.drop_eq_nil_iff.mpr (List.getElem?_eq_none_iff.mp hlow)]
            cases jumps with
            | zero => rfl
            | succ jumps => rfl
        | some low =>
            rw [drop_eq_cons hlow]
            dsimp only
            rw [toNat_and_of_le hpointer]
            cases jumps with
            | zero => rfl
            | succ jumps => rfl
      · rw [if_neg hpointer, if_neg hpointer]
        by_cases hlong : 0x40 ≤ size
        · rw [if_pos hlong, if_pos (.inl hlong)]
        rw [if_neg hlong]
        have hlt := (List.getElem?_eq_some_iff.mp hsize).1
        by_cases hinside : message.length < position + 1 + size.toNat
        · have hshort : ((message.drop (position + 1)).take size.toNat).length ≠ size.toNat := by
            rw [List.length_take, List.length_drop]
            omega
          rw [if_neg hshort, if_pos (.inr hinside)]
        · have hwhole : ((message.drop (position + 1)).take size.toNat).length = size.toNat := by
            rw [List.length_take, List.length_drop]
            omega
          rw [if_pos hwhole, if_neg (not_or.mpr ⟨hlong, hinside⟩), labelRun_eq_map,
            List.drop_drop, labelsAt]
          cases labelRun [] (message.drop (position + 1 + size.toNat)) with
          | none => rfl
          | some run =>
              obtain ⟨labels, ending, rest⟩ := run
              cases ending with
              | root => rfl
              | pointer target =>
                  cases jumps with
                  | zero => rfl
                  | succ jumps =>
                      rw [Option.map_some]
                      dsimp only
                      rw [Option.map_map]
                      rfl

theorem labelsAt_of_length_le (h : message.length ≤ position) :
    labelsAt message jumps position = none := by
  rw [labelsAt_eq, List.getElem?_eq_none h]

/-! ## Walks -/

/-- `Walk message position jumps labels next` says that the labels from `position` on are
`labels`, that `jumps` pointers are followed on the way to the zero byte behind the last of them,
and that `next` stands behind that zero byte or behind the first pointer, if there is one. -/
inductive Walk (message : Bytes) : Nat → Nat → List Bytes → Nat → Prop
  /-- The name ends. -/
  | root {position : Nat} (here : message[position]? = some 0) :
      Walk message position 0 [] (position + 1)
  /-- A label of up to 63 bytes is all inside the message, and the name goes on behind it. -/
  | label {position jumps next : Nat} {labels : List Bytes} {size : UInt8}
      (here : message[position]? = some size) (pos : 0 < size.toNat) (lt : size.toNat < 64)
      (inside : position + 1 + size.toNat ≤ message.length)
      (more : Walk message (position + 1 + size.toNat) jumps labels next) :
      Walk message position jumps
        ((message.drop (position + 1)).take size.toNat :: labels) next
  /-- The name goes on at another place of the message. -/
  | pointer {position jumps next : Nat} {labels : List Bytes} {high low : UInt8}
      (here : message[position]? = some high) (behind : message[position + 1]? = some low)
      (le : 192 ≤ high.toNat) (inside : target high low < message.length)
      (more : Walk message (target high low) jumps labels next) :
      Walk message position (jumps + 1) labels (position + 2)

theorem Walk.ne_nil_of_mem (h : Walk message position jumps labels next) :
    ∀ label ∈ labels, label ≠ [] := by
  induction h with
  | root here => exact List.forall_mem_nil _
  | label here pos lt inside more ih =>
      rintro label (_ | ⟨_, hlabel⟩)
      · intro hnil
        have hlen := congrArg List.length hnil
        rw [List.length_take, List.length_drop, List.length_nil] at hlen
        omega
      · exact ih label hlabel
  | pointer here behind le inside more ih => exact ih

/-- A walk is found when it does not follow too many pointers. -/
theorem Walk.labelsAt_eq_some (h : Walk message position jumps labels next)
    (hle : jumps ≤ bound) :
    labelsAt message bound position = some (labels, message.drop next) := by
  induction h generalizing bound with
  | root here => rw [labelsAt_eq, here]; rfl
  | label here pos lt inside more ih =>
      rename_i size
      have hzero : ¬ size = 0 := by
        rintro rfl
        exact absurd pos (by decide)
      have hpointer : ¬ 0xC0 ≤ size := by
        simp only [UInt8.le_iff_toNat_le, UInt8.reduceToNat]
        omega
      have hlong : ¬ 0x40 ≤ size := by
        simp only [UInt8.le_iff_toNat_le, UInt8.reduceToNat]
        omega
      rw [labelsAt_eq, here]
      dsimp only
      rw [if_neg hzero, if_neg hpointer, if_neg (not_or.mpr ⟨hlong, Nat.not_lt.mpr inside⟩),
        ih hle, Option.map_some]
  | pointer here behind le inside more ih =>
      rename_i high low
      obtain ⟨bound, rfl⟩ := Nat.exists_eq_add_of_lt (Nat.lt_of_lt_of_le (Nat.succ_pos _) hle)
      have hzero : ¬ high = 0 := by
        rintro rfl
        exact absurd le (by decide)
      have hpointer : 0xC0 ≤ high := by
        simp only [UInt8.le_iff_toNat_le, UInt8.reduceToNat]
        exact le
      rw [labelsAt_eq, here]
      dsimp only
      rw [if_neg hzero, if_pos hpointer, behind]
      dsimp only
      rw [ih (by omega), Option.map_some]

/-- What is found is the end of a walk. -/
theorem walk_of_labelsAt {bound position : Nat} {labels : List Bytes} {rest : Bytes}
    (h : labelsAt message bound position = some (labels, rest)) :
    ∃ jumps next, Walk message position jumps labels next ∧ jumps ≤ bound ∧
      rest = message.drop next := by
  rw [labelsAt_eq] at h
  split at h
  · cases h
  rename_i size here
  have hposition := (List.getElem?_eq_some_iff.mp here).1
  split at h
  · rename_i hzero
    subst hzero
    cases h
    exact ⟨0, position + 1, .root here, Nat.zero_le _, rfl⟩
  rename_i hzero
  split at h
  · rename_i hpointer
    split at h
    · rename_i bound low behind
      obtain ⟨⟨more, passed⟩, hmore, heq⟩ := Option.map_eq_some_iff.mp h
      cases heq
      have hinside : target size low < message.length := by
        by_contra hout
        rw [labelsAt_of_length_le (Nat.not_lt.mp hout)] at hmore
        cases hmore
      obtain ⟨jumps, next, hwalk, hle, -⟩ := walk_of_labelsAt hmore
      simp only [UInt8.le_iff_toNat_le, UInt8.reduceToNat] at hpointer
      exact ⟨jumps + 1, position + 2, .pointer here behind hpointer hinside hwalk,
        Nat.succ_le_succ hle, rfl⟩
    · cases h
  rename_i hpointer
  split at h
  · cases h
  rename_i hlabel
  obtain ⟨hlong, hinside⟩ := not_or.mp hlabel
  obtain ⟨⟨more, passed⟩, hmore, heq⟩ := Option.map_eq_some_iff.mp h
  cases heq
  obtain ⟨jumps, next, hwalk, hle, hrest⟩ := walk_of_labelsAt hmore
  have hpos : 0 < size.toNat := by
    refine Nat.pos_of_ne_zero fun heq => hzero ?_
    rw [← UInt8.toNat_inj, heq, UInt8.toNat_zero]
  have hlt : size.toNat < 64 := by
    simp only [UInt8.le_iff_toNat_le, UInt8.reduceToNat] at hlong
    exact Nat.not_le.mp hlong
  exact ⟨jumps, next, .label here hpos hlt (Nat.not_lt.mp hinside) hwalk, hle, hrest⟩
termination_by (bound, message.length - position)
decreasing_by
  · exact Prod.Lex.right _ (by omega)
  · exact Prod.Lex.left _ _ (by omega)

/-! ## Questions -/

/-- `Asks message labels jumps next question` says that the message asks the question, by a name
with these labels that follows so many pointers and stands before `next`. -/
structure Asks (message : Bytes) (labels : List Bytes) (jumps next : Nat) (question : Question) :
    Prop where
  headerSize_le : headerSize ≤ message.length
  /-- The header announces one question. -/
  count_eq : IsWordAt message 4 1
  walk : Walk message headerSize jumps labels next
  jumps_le : jumps ≤ maxJumps
  length_le : (join [0x2E] labels).length ≤ maxNameLength
  /-- The name is more than dots. -/
  trimDots_ne_nil : trimDots (join [0x2E] labels) ≠ []
  /-- There is room for the type and the class. -/
  next_add_le : next + 4 ≤ message.length
  name_eq : question.name = (trimDots (join [0x2E] labels)).map lower
  kind_eq : IsWordAt message next question.kind.code
  qclass_eq : IsWordAt message (next + 2) question.qclass

theorem count?_eq_one_iff :
    count? message = some 1 ↔ headerSize ≤ message.length ∧ IsWordAt message 4 1 := by
  rw [count?, isWordAt_iff]
  split
  · rename_i hshort
    exact iff_of_false (Option.some_ne_none _).symm fun h => absurd hshort (Nat.not_lt.mpr h.1)
  · rename_i hsize
    split
    · rename_i high low rest hdrop
      constructor
      · intro h
        exact ⟨Nat.not_lt.mp hsize, high, low, rest, hdrop, (Option.some.inj h).symm⟩
      · rintro ⟨-, high', low', rest', hdrop', hone⟩
        cases hdrop.symm.trans hdrop'
        rw [hone]
    · rename_i hshort
      refine iff_of_false (Option.some_ne_none _).symm ?_
      rintro ⟨-, high, low, rest, hdrop, -⟩
      exact hshort high low rest hdrop

/-- The two numbers behind a name, and what it takes for them to be there. -/
theorem isWordAt_isWordAt_iff {kind qclass : UInt16} :
    IsWordAt message next kind ∧ IsWordAt message (next + 2) qclass ↔
      ∃ t₁ t₀ c₁ c₀ rest, message.drop next = t₁ :: t₀ :: c₁ :: c₀ :: rest ∧
        kind = word t₁ t₀ ∧ qclass = word c₁ c₀ := by
  rw [isWordAt_iff, isWordAt_iff, ← List.drop_drop]
  constructor
  · rintro ⟨⟨t₁, t₀, rest, hkind, hk⟩, c₁, c₀, rest', hclass, hc⟩
    rw [hkind] at hclass ⊢
    exact ⟨t₁, t₀, c₁, c₀, rest', congrArg (t₁ :: t₀ :: ·) hclass, hk, hc⟩
  · rintro ⟨t₁, t₀, c₁, c₀, rest, hdrop, hk, hc⟩
    rw [hdrop]
    exact ⟨⟨t₁, t₀, _, rfl, hk⟩, c₁, c₀, rest, rfl, hc⟩

/-- Exactly the messages that ask a question are read, as that question. -/
theorem ofMessage?_eq_some_iff {question : Question} : ofMessage? message = some question ↔
    ∃ labels jumps next, Asks message labels jumps next question := by
  constructor
  · intro h
    rw [ofMessage?, bind_guard_eq_some_iff] at h
    obtain ⟨hcount, h⟩ := h
    obtain ⟨hsize, hone⟩ := count?_eq_one_iff.mp (beq_iff_eq.mp hcount)
    obtain ⟨⟨labels, rest⟩, hlabels, h⟩ := Option.bind_eq_some_iff.mp h
    obtain ⟨jumps, next, hwalk, hjumps, hrest⟩ := walk_of_labelsAt hlabels
    obtain ⟨hlen, h⟩ := bind_guard_eq_some_iff.mp h
    rcases rest with _ | ⟨t₁, _ | ⟨t₀, _ | ⟨c₁, _ | ⟨c₀, behind⟩⟩⟩⟩
    · cases h
    · cases h
    · cases h
    · cases h
    · obtain ⟨hne, h⟩ := bind_guard_eq_some_iff.mp h
      rw [trimDots_lower] at hne h
      cases h
      have hroom := congrArg List.length hrest
      simp only [List.length_cons, List.length_drop] at hroom
      obtain ⟨hkind, hclass⟩ :=
        isWordAt_isWordAt_iff.mpr ⟨t₁, t₀, c₁, c₀, behind, hrest.symm, rfl, rfl⟩
      exact ⟨labels, jumps, next, hsize, hone, hwalk, hjumps, hlen, by simpa using hne,
        by omega, rfl, hkind, hclass⟩
  · rintro ⟨labels, jumps, next, h⟩
    obtain ⟨t₁, t₀, c₁, c₀, rest, hrest, hkind, hclass⟩ :=
      isWordAt_isWordAt_iff.mp ⟨h.kind_eq, h.qclass_eq⟩
    have hcount := count?_eq_one_iff.mpr ⟨h.headerSize_le, h.count_eq⟩
    have hne : (!((trimDots (join [0x2E] labels)).map lower).isEmpty) = true := by
      simpa using h.trimDots_ne_nil
    rw [ofMessage?, bind_guard, hcount, if_pos (beq_self_eq_true _),
      h.walk.labelsAt_eq_some h.jumps_le, Option.bind_eq_bind, Option.bind_some]
    dsimp only
    rw [bind_guard, if_pos h.length_le, hrest]
    dsimp only
    rw [bind_guard, trimDots_lower, if_pos hne]
    obtain ⟨name, ⟨code⟩, qclass⟩ := question
    cases h.name_eq
    cases hkind
    cases hclass
    rfl

end Question

end ResolverLog
