import ResolverLog.Proofs.EventLine
import ResolverLog.Proofs.Lookup

/-!
# The grammar of event lines

The words of a line stand for a query when they are a client and a name, then
one of the named types or nothing, then a verdict or nothing, then a duration or
nothing, and the name can be asked for. No word can be taken for another kind of
word, so it does not matter in which way they are told apart.
-/

namespace ResolverLog

namespace EventLine

open Bytes

variable {line word digits : Bytes} {tokens rest types verdicts durations : List Bytes}
  {e : Entry} {now elapsed : Int64} {kind : RecordType} {verdict : Verdict}

/-! ## The parts of a line -/

/-- The type asked for, an address unless it is said. -/
inductive IsType : List Bytes → RecordType → Prop
  | unsaid : IsType [] .a
  | named {word : Bytes} {kind : RecordType} (h : (word, kind) ∈ RecordType.table) :
      IsType [word] kind

/-- The verdict, a pass unless it is said. A block may name its rule. -/
inductive IsVerdict : List Bytes → Verdict → Prop
  | unsaid : IsVerdict [] .pass
  | ok : IsVerdict [ascii "ok"] .pass
  | blocked : IsVerdict [ascii "blocked"] ⟨true, .blockList, [], 0⟩
  | blockedBy {rule : Bytes} (hne : rule ≠ []) :
      IsVerdict [ascii "blocked:" ++ rule] ⟨true, .blockList, rule, 0⟩

/-- The duration: microseconds in one to twelve digits, none unless it is said. -/
inductive IsDuration : List Bytes → Int64 → Prop
  | unsaid : IsDuration [] 0
  | said {digits : Bytes} {elapsed : Int64} (hpos : 1 ≤ digits.length) (hle : digits.length ≤ 12)
      (hdigits : ∀ b ∈ digits, isDigit b = true)
      (helapsed : elapsed.toInt = 1000 * Decimal.value digits) : IsDuration [digits] elapsed

/-- Words that stand for a query, and the entry for it as of a time. -/
inductive IsEvent (now : Int64) : List Bytes → Entry → Prop
  | intro (client name : Bytes) {types verdicts durations : List Bytes} {kind : RecordType}
      {question : Bytes} {verdict : Verdict} {elapsed : Int64} (htype : IsType types kind)
      (hverdict : IsVerdict verdicts verdict) (hduration : IsDuration durations elapsed)
      (hquestion : Question.message name kind 0 = .ok question) :
      IsEvent now (client :: name :: (types ++ (verdicts ++ durations)))
        ⟨now, question, [], client, [], verdict, elapsed⟩

/-! ## Bytes of words -/

theorem isLetter_of_isDigit {b : UInt8} (h : isDigit b = true) : isLetter b = false := by
  grind [isDigit, isLetter]

/-! ## Types -/

theorem named?_eq_some_iff :
    RecordType.named? word = some kind ↔ (word, kind) ∈ RecordType.table := by
  constructor
  · exact Lookup.mem_of_lookup
  · intro h
    have hall : ∀ entry ∈ RecordType.table, RecordType.named? entry.1 = some entry.2 := by decide
    exact hall _ h

theorem isTypeWord_of_mem (h : (word, kind) ∈ RecordType.table) : isTypeWord word = true := by
  have hall : ∀ entry ∈ RecordType.table, isTypeWord entry.1 = true := by decide
  exact hall _ h

/-- Words of types are letters and digits, the first one a letter, and no verdicts. -/
theorem isTypeWord_iff : isTypeWord word = true ↔
    (∃ b rest, word = b :: rest ∧ isLetter b = true ∧
      ∀ c ∈ rest, (isLetter c || isDigit c) = true) ∧
      word ≠ ascii "ok" ∧ word ≠ ascii "blocked" := by
  cases word with
  | nil => simp [isTypeWord]
  | cons b rest => simp [isTypeWord, and_assoc]

theorem isTypeWord_of_colon_mem (h : 0x3A ∈ word) : isTypeWord word = false := by
  rw [Bool.eq_false_iff]
  intro htype
  obtain ⟨⟨b, rest, rfl, hb, hrest⟩, -⟩ := isTypeWord_iff.mp htype
  rcases List.mem_cons.mp h with rfl | hmem
  · exact absurd hb (by decide)
  · exact absurd (hrest _ hmem) (by decide)

theorem takeType_of_isTypeWord (h : isTypeWord word = true) (rest : List Bytes) :
    takeType (word :: rest) = (RecordType.named? word).map fun kind => (kind, rest) := by
  rw [takeType, if_pos h]

theorem takeType_of_head? (h : ∀ word ∈ tokens.head?, isTypeWord word = false) :
    takeType tokens = some (.a, tokens) := by
  cases tokens with
  | nil => rfl
  | cons word rest =>
      rw [takeType, h word rfl]
      rfl

theorem exists_of_takeType (h : takeType tokens = some (kind, rest)) :
    ∃ types, IsType types kind ∧ tokens = types ++ rest := by
  cases tokens with
  | nil =>
      cases h
      exact ⟨[], .unsaid, rfl⟩
  | cons word tokens =>
      rw [takeType] at h
      split at h
      · obtain ⟨kind, hkind, ⟨⟩⟩ := Option.map_eq_some_iff.mp h
        exact ⟨[word], .named (named?_eq_some_iff.mp hkind), rfl⟩
      · cases h
        exact ⟨[], .unsaid, rfl⟩

/-! ## Verdicts -/

theorem verdictOf?_eq_some_iff : verdictOf? word = some verdict ↔ IsVerdict [word] verdict := by
  constructor
  · intro h
    rw [verdictOf?] at h
    split at h
    · rename_i hok
      rw [beq_iff_eq] at hok
      cases h
      rw [hok]
      exact .ok
    · split at h
      · rename_i hblocked
        rw [beq_iff_eq] at hblocked
        cases h
        rw [hblocked]
        exact .blocked
      · split at h
        · rename_i b rule hcut
          cases h
          rw [eq_of_cutAtMark? hcut, List.nil_append]
          exact .blockedBy (List.cons_ne_nil _ _)
        · cases h
  · rintro ⟨⟩
    · rfl
    · rfl
    · rename_i rule hne
      obtain ⟨b, rest, rfl⟩ := List.exists_cons_of_ne_nil hne
      have hok : ascii "blocked:" ++ b :: rest ≠ ascii "ok" :=
        fun h => absurd (List.cons.inj h).1 (by decide)
      have hblocked : ascii "blocked:" ++ b :: rest ≠ ascii "blocked" := by
        intro h
        have hlength := congrArg List.length h
        simp [ascii] at hlength
      rw [verdictOf?, if_neg (by simpa using hok), if_neg (by simpa using hblocked),
        cutAtMark?_append]

theorem takeVerdict_of_verdictOf? (h : verdictOf? word = some verdict) (rest : List Bytes) :
    takeVerdict (word :: rest) = (verdict, rest) := by
  rw [takeVerdict, h]

theorem takeVerdict_of_head? (h : ∀ word ∈ tokens.head?, verdictOf? word = none) :
    takeVerdict tokens = (.pass, tokens) := by
  cases tokens with
  | nil => rfl
  | cons word rest => rw [takeVerdict, h word rfl]

theorem exists_of_takeVerdict (h : takeVerdict tokens = (verdict, rest)) :
    ∃ verdicts, IsVerdict verdicts verdict ∧ tokens = verdicts ++ rest := by
  cases tokens with
  | nil =>
      cases h
      exact ⟨[], .unsaid, rfl⟩
  | cons word tokens =>
      rw [takeVerdict] at h
      split at h
      · rename_i said hverdict
        cases h
        exact ⟨[word], verdictOf?_eq_some_iff.mp hverdict, rfl⟩
      · cases h
        exact ⟨[], .unsaid, rfl⟩

/-- No verdict is a word of a type: the two without a rule are left out, and a rule stands behind
a colon. -/
theorem isTypeWord_of_verdictOf? (h : verdictOf? word = some verdict) :
    isTypeWord word = false := by
  cases verdictOf?_eq_some_iff.mp h with
  | ok => decide
  | blocked => decide
  | blockedBy hne =>
      refine isTypeWord_of_colon_mem (List.mem_append_left _ ?_)
      decide

theorem exists_isLetter_of_verdictOf? (h : verdictOf? word = some verdict) :
    ∃ b rest, word = b :: rest ∧ isLetter b = true := by
  cases verdictOf?_eq_some_iff.mp h with
  | ok => exact ⟨_, _, rfl, by decide⟩
  | blocked => exact ⟨_, _, rfl, by decide⟩
  | blockedBy hne => exact ⟨_, _, rfl, by decide⟩

/-! ## Durations -/

/-- So few digits of microseconds are a number of nanoseconds. -/
theorem toInt_micros (hle : digits.length ≤ 12) (hdigits : ∀ b ∈ digits, isDigit b = true) :
    (Int64.ofNat (Decimal.value digits * 1000)).toInt = 1000 * Decimal.value digits := by
  have hpow : 10 ^ digits.length ≤ 10 ^ 12 := Nat.pow_le_pow_right (by decide) hle
  have hlt := (Decimal.value_lt hdigits).trans_le hpow
  rw [Int64.toInt_ofNat_of_lt (by omega)]
  push_cast
  omega

theorem elapsedOf?_eq_some_iff : (elapsedOf? durations).map Int64.ofNat = some elapsed ↔
    IsDuration durations elapsed := by
  match durations with
  | [] =>
      constructor
      · rintro ⟨⟩
        exact .unsaid
      · rintro ⟨⟩
        rfl
  | [word] =>
      rw [elapsedOf?, Option.map_map, Option.map_eq_some_iff]
      constructor
      · rintro ⟨n, hn, rfl⟩
        obtain ⟨hne, hle, hdigits, rfl⟩ := Decimal.upTo?_eq_some_iff.mp hn
        exact .said (List.length_pos_iff.mpr hne) hle hdigits (toInt_micros hle hdigits)
      · rintro ⟨⟩
        rename_i hpos hle hdigits helapsed
        refine ⟨Decimal.value word, Decimal.upTo?_eq_some_iff.mpr
          ⟨List.length_pos_iff.mp hpos, hle, hdigits, rfl⟩, ?_⟩
        rw [← Int64.toInt_inj, helapsed]
        exact toInt_micros hle hdigits
  | word :: next :: rest =>
      constructor
      · rintro ⟨⟩
      · rintro ⟨⟩

/-- Digits are neither words of types nor verdicts, which begin with letters. -/
theorem of_isDigit (hdigits : ∀ b ∈ digits, isDigit b = true) :
    isTypeWord digits = false ∧ verdictOf? digits = none := by
  have hletter : ∀ b rest, digits = b :: rest → isLetter b = false := by
    rintro b rest rfl
    exact isLetter_of_isDigit (hdigits b List.mem_cons_self)
  constructor
  · rw [Bool.eq_false_iff]
    intro htype
    obtain ⟨⟨b, rest, hcons, hb, -⟩, -⟩ := isTypeWord_iff.mp htype
    rw [hletter b rest hcons] at hb
    cases hb
  · rw [Option.eq_none_iff_forall_ne_some]
    intro verdict hverdict
    obtain ⟨b, rest, hcons, hb⟩ := exists_isLetter_of_verdictOf? hverdict
    rw [hletter b rest hcons] at hb
    cases hb

/-! ## Lines -/

theorem parse_of_words {client name : Bytes} (h : words line = client :: name :: tokens) :
    parse line now = (takeType tokens).bind fun typed =>
      ((elapsedOf? (takeVerdict typed.2).2).map Int64.ofNat).bind fun elapsed =>
        match Question.message name typed.1 0 with
        | .ok question =>
          some ⟨now, question, [], client, [], (takeVerdict typed.2).1, elapsed⟩
        | .error _ => none := by
  simp only [parse, h, Option.bind_eq_bind]
  cases takeType tokens with
  | none => rfl
  | some typed =>
      simp only [Option.bind_some]
      cases elapsedOf? (takeVerdict typed.2).2 with
      | none => rfl
      | some elapsed => rfl

theorem head?_durations (h : IsDuration durations elapsed) :
    ∀ word ∈ durations.head?, isTypeWord word = false ∧ verdictOf? word = none := by
  intro word hword
  cases h with
  | unsaid => cases hword
  | said hpos hle hdigits helapsed =>
      cases hword
      exact of_isDigit hdigits

theorem head?_verdicts (h : IsVerdict verdicts verdict)
    (hdurations : IsDuration durations elapsed) :
    ∀ word ∈ (verdicts ++ durations).head?, isTypeWord word = false := by
  intro word hword
  cases verdicts with
  | nil => exact (head?_durations hdurations word hword).1
  | cons first more =>
      cases hword
      cases more with
      | nil => exact isTypeWord_of_verdictOf? (verdictOf?_eq_some_iff.mpr h)
      | cons _ _ => cases h

/-- The type comes off in front of what is no type. -/
theorem takeType_append (h : IsType types kind)
    (hrest : ∀ word ∈ rest.head?, isTypeWord word = false) :
    takeType (types ++ rest) = some (kind, rest) := by
  cases h with
  | unsaid => exact takeType_of_head? hrest
  | named hmem =>
      rw [List.singleton_append, takeType_of_isTypeWord (isTypeWord_of_mem hmem),
        named?_eq_some_iff.mpr hmem]
      rfl

/-- The verdict comes off in front of what is no verdict. -/
theorem takeVerdict_append (h : IsVerdict verdicts verdict)
    (hrest : ∀ word ∈ rest.head?, verdictOf? word = none) :
    takeVerdict (verdicts ++ rest) = (verdict, rest) := by
  cases verdicts with
  | nil =>
      cases h
      exact takeVerdict_of_head? hrest
  | cons word more =>
      cases more with
      | nil => exact takeVerdict_of_verdictOf? (verdictOf?_eq_some_iff.mpr h) rest
      | cons _ _ => cases h

/-- A line is read as an entry when its words stand for that entry. -/
theorem parse_eq_some_iff : parse line now = some e ↔ IsEvent now (words line) e := by
  constructor
  · intro h
    obtain ⟨client, name, tokens, -, hwords, -⟩ := parse_cases h
    rw [parse_of_words hwords] at h
    rw [hwords]
    obtain ⟨⟨kind, rest⟩, htype, hrest⟩ := Option.bind_eq_some_iff.mp h
    obtain ⟨elapsed, helapsed, hentry⟩ := Option.bind_eq_some_iff.mp hrest
    obtain ⟨types, htypes, rfl⟩ := exists_of_takeType htype
    have htake : takeVerdict rest = ((takeVerdict rest).1, (takeVerdict rest).2) := rfl
    obtain ⟨verdicts, hverdicts, hdurations⟩ := exists_of_takeVerdict htake
    simp only at helapsed hentry
    split at hentry
    · rename_i question hquestion
      cases hentry
      have hevent : IsEvent now _ _ := .intro client name htypes hverdicts
        (elapsedOf?_eq_some_iff.mp helapsed) hquestion
      rw [← hdurations] at hevent
      exact hevent
    · cases hentry
  · intro h
    generalize hwords : words line = tokens at h
    cases h with
    | intro client name htype hverdict hduration hquestion =>
        rw [parse_of_words hwords, takeType_append htype (head?_verdicts hverdict hduration)]
        simp only [Option.bind_some]
        rw [takeVerdict_append hverdict fun word hword => (head?_durations hduration word hword).2,
          elapsedOf?_eq_some_iff.mpr hduration]
        simp only [Option.bind_some, hquestion]

end EventLine

end ResolverLog
