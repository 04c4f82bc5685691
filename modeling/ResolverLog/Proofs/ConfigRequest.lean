import ResolverLog.ConfigRequest
import ResolverLog.Settings
import ResolverLog.Proofs.Decimal
import ResolverLog.Proofs.Json
import ResolverLog.Proofs.Results
import Mathlib.Data.List.Induction

/-!
# Which bodies are requests

A body is a request when it is one flat object in which every `enabled` is a
boolean, every `interval` is a number of one to nine digits, and both occur. The
last of each is what it asks for; other members do not matter.

Keys count as they are read, and a key with a newline, a carriage return or a
tab is read as one with an `n`, an `r` or a `t` in that place. So a member whose
key is written as such can pass for `enabled` or `interval`.
-/

namespace ResolverLog

namespace ConfigRequest

open Bytes Json

variable {found found' : Found} {key text rest middle : Bytes} {value : Scalar}
  {given : List (Bytes × Scalar)} {request : ConfigRequest} {enabled : Bool} {interval : UInt32}

/-! ## Values -/

theorem readEnabled_eq_ok_iff :
    readEnabled value = .ok enabled ↔ value = .bare (Settings.boolText enabled) := by
  cases value with
  | quoted text => simp [readEnabled]
  | bare text =>
      rw [readEnabled]
      split
      · rename_i htrue
        rw [beq_iff_eq] at htrue
        subst htrue
        cases enabled
        · decide
        · decide
      · rename_i hnot
        rw [beq_iff_eq] at hnot
        split
        · rename_i hfalse
          rw [beq_iff_eq] at hfalse
          subst hfalse
          cases enabled
          · decide
          · decide
        · rename_i hneither
          rw [beq_iff_eq] at hneither
          cases enabled
          · simpa [Settings.boolText] using hneither
          · simpa [Settings.boolText] using hnot

/-- One to nine digits, and the number that they denote. -/
def IsInterval (value : Scalar) (interval : UInt32) : Prop :=
  ∃ digits, value = .bare digits ∧ 1 ≤ digits.length ∧ digits.length ≤ 9 ∧
    (∀ b ∈ digits, isDigit b = true) ∧ interval.toNat = Decimal.value digits

theorem readInterval_eq_ok_iff :
    readInterval value = .ok interval ↔ IsInterval value interval := by
  cases value with
  | quoted text => simp [readInterval, IsInterval]
  | bare text =>
      rw [readInterval, IsInterval]
      constructor
      · intro h
        split at h
        · rename_i n hn
          obtain ⟨hne, hlength, hdigits, rfl⟩ := Decimal.upTo?_eq_some_iff.mp hn
          cases h
          refine ⟨text, rfl, List.length_pos_iff.mpr hne, hlength, hdigits, ?_⟩
          have hpow : 10 ^ text.length ≤ 10 ^ 9 := Nat.pow_le_pow_right (by decide) hlength
          have hlt := (Decimal.value_lt hdigits).trans_le hpow
          rw [UInt32.toNat_ofNat', Nat.mod_eq_of_lt (hlt.trans (by decide))]
        · cases h
      · rintro ⟨digits, ⟨⟩, hpos, hlength, hdigits, hvalue⟩
        rw [Decimal.upTo?_eq_some_iff.mpr
          ⟨List.length_pos_iff.mp hpos, hlength, hdigits, hvalue.symm⟩]
        simp

/-! ## Members -/

/-- The marks that follow a value do not prolong it. -/
theorem stops_of_spaced {mark : UInt8} {tokens : List Bytes}
    (h : Spaced rest ([mark] :: tokens) text) (hmark : isBare mark = false) (value : Scalar) :
    value.Stops text := by
  cases value with
  | quoted _ => trivial
  | bare _ =>
      intro b hb
      cases h with
      | cons hblanks _ _ =>
          rename_i blanks tail _
          cases blanks with
          | nil =>
              cases hb
              exact hmark
          | cons c blanks =>
              cases hb
              have hblank := hblanks b List.mem_cons_self
              by_contra hbare
              rw [(not_isBlank_of_isBare (by simpa using hbare)).1] at hblank
              cases hblank

/-- What follows one member, once its value is taken in. -/
def afterMember (text : Bytes) (found : Found) : Except Error (Found × Bytes) :=
  match readMark? 0x2C text with
  | some rest => members found rest
  | none =>
    match readMark? 0x7D text with
    | some rest => .ok (found, rest)
    | none => .error .expectedCommaOrEnd

theorem members_eq (found : Found) (text : Bytes) :
    members found text =
      match readString? text with
      | none => .error .expectedKey
      | some (key, afterKey) =>
        match readMark? 0x3A afterKey with
        | none => .error .expectedColon
        | some afterColon =>
          match readScalar? afterColon with
          | none => .error (.badValue key)
          | some (value, afterValue) => found.add key value >>= afterMember afterValue := by
  rw [members]
  split
  · rename_i hkey
    rw [hkey]
  · rename_i hkey
    rw [hkey]
    simp only
    split
    · rename_i hcolon
      rw [hcolon]
    · rename_i hcolon
      rw [hcolon]
      simp only
      split
      · rename_i hvalue
        rw [hvalue]
      · rename_i hvalue
        rw [hvalue]
        simp only
        split
        · rename_i hadd
          rw [hadd]
          rfl
        · rename_i hadd
          rw [hadd]
          change _ = afterMember _ _
          rw [afterMember]
          split
          · rename_i hcomma
            rw [hcomma]
          · rename_i hcomma
            rewrite [hcomma]
            rfl

/-- A member is taken in, and then comes another or the end. -/
theorem members_of_isMember {part : List Bytes} (h : IsMember (key, value) part)
    (hspaced : Spaced middle part text) (hstops : value.Stops middle) :
    members found text = found.add key value >>= afterMember middle := by
  obtain ⟨hkey, hvalue⟩ := h
  obtain ⟨afterKey, hspacedKey, hspaced⟩ := spaced_cons_iff.mp hspaced
  obtain ⟨afterColon, hspacedColon, hspacedValue⟩ := spaced_cons_iff.mp hspaced
  have hreadKey := readString?_eq_some_iff.mpr ⟨_, hkey, hspacedKey⟩
  have hreadColon := (readMark?_eq_some_iff (by decide)).mpr hspacedColon
  have hreadValue := readScalar?_eq_some_iff.mpr ⟨_, hvalue, hspacedValue, hstops⟩
  rw [members_eq, hreadKey]
  simp only [hreadColon, hreadValue]

theorem afterMember_of_comma (h : Spaced rest [[0x2C]] text) :
    afterMember text found = members found rest := by
  rw [afterMember, (readMark?_eq_some_iff (by decide)).mpr h]

theorem afterMember_of_brace (h : Spaced rest [[0x7D]] text) :
    afterMember text found = .ok (found, rest) := by
  rw [afterMember, readMark?_eq_none h (by decide) (by decide),
    (readMark?_eq_some_iff (by decide)).mpr h]

/-- Members taken in one after the other. -/
def Found.addAll (found : Found) (given : List (Bytes × Scalar)) : Except Error Found :=
  given.foldlM (fun found member => found.add member.1 member.2) found

/-- Members with commas between them and a brace behind them are taken in one after the other. -/
theorem members_of_forall₂ {parts : List (List Bytes)} (h : List.Forall₂ IsMember given parts)
    (hne : given ≠ []) (hspaced : Spaced rest ([[0x2C]].intercalate parts ++ [[0x7D]]) text) :
    members found text = (found.addAll given).map fun found => (found, rest) := by
  induction h generalizing found text with
  | nil => exact absurd rfl hne
  | @cons member part given parts hmember hmore ih =>
      rw [Found.addAll, List.foldlM_cons]
      by_cases hlast : given = []
      · subst hlast
        cases hmore
        rw [List.intercalate_singleton] at hspaced
        obtain ⟨middle, hpart, hbrace⟩ := spaced_append_iff.mp hspaced
        rw [members_of_isMember hmember hpart (stops_of_spaced hbrace (by decide) _)]
        cases found.add member.1 member.2 with
        | error e => rfl
        | ok found => exact afterMember_of_brace hbrace
      · have hparts : parts ≠ [] := by
          rintro rfl
          cases hmore
          exact hlast rfl
        rw [List.intercalate_cons_of_ne_nil hparts, List.append_assoc, List.append_assoc] at hspaced
        obtain ⟨middle, hpart, hmiddle⟩ := spaced_append_iff.mp hspaced
        obtain ⟨next, hcomma, hnext⟩ := spaced_append_iff.mp hmiddle
        rw [members_of_isMember hmember hpart (stops_of_spaced hmiddle (by decide) _)]
        cases found.add member.1 member.2 with
        | error e => rfl
        | ok found =>
            change afterMember middle found = _
            rw [afterMember_of_comma hcomma]
            exact ih hlast hnext

/-- A key, a colon and a value are a member. -/
theorem exists_isMember {afterKey afterColon : Bytes}
    (hkey : readString? text = some (key, afterKey))
    (hcolon : readMark? 0x3A afterKey = some afterColon)
    (hvalue : readScalar? afterColon = some (value, rest)) :
    ∃ part, IsMember (key, value) part ∧ Spaced rest part text := by
  obtain ⟨written, hspells, hspacedKey⟩ := readString?_eq_some_iff.mp hkey
  have hspacedColon := (readMark?_eq_some_iff (by decide)).mp hcolon
  obtain ⟨token, hwritten, hspacedValue, -⟩ := readScalar?_eq_some_iff.mp hvalue
  refine ⟨_, .intro hspells hwritten, ?_⟩
  exact spaced_cons_iff.mpr ⟨afterKey, hspacedKey, spaced_cons_iff.mpr
    ⟨afterColon, hspacedColon, hspacedValue⟩⟩

/-- What has been taken in are the members of a text with commas between them. -/
theorem exists_of_members (h : members found text = .ok (found', rest)) :
    ∃ given parts, given ≠ [] ∧ List.Forall₂ IsMember given parts ∧
      Spaced rest ([[0x2C]].intercalate parts ++ [[0x7D]]) text := by
  fun_induction members found text with
  | case1 | case2 | case3 | case4 | case7 => cases h
  | case5 found text key afterKey hkey afterColon hcolon value afterValue hvalue added hadd next
      hcomma ih =>
      obtain ⟨given, parts, hne, hparts, hspaced⟩ := ih h
      obtain ⟨part, hpart, hspacedPart⟩ := exists_isMember hkey hcolon hvalue
      have hpartsne : parts ≠ [] := by
        rintro rfl
        cases hparts
        exact hne rfl
      refine ⟨(key, value) :: given, part :: parts, List.cons_ne_nil _ _, .cons hpart hparts, ?_⟩
      rw [List.intercalate_cons_of_ne_nil hpartsne, List.append_assoc, List.append_assoc]
      exact spaced_append_iff.mpr ⟨afterValue, hspacedPart, spaced_append_iff.mpr
        ⟨next, (readMark?_eq_some_iff (by decide)).mp hcomma, hspaced⟩⟩
  | case6 found text key afterKey hkey afterColon hcolon value afterValue hvalue added hadd
      hcomma next hbrace =>
      cases h
      obtain ⟨part, hpart, hspacedPart⟩ := exists_isMember hkey hcolon hvalue
      refine ⟨[(key, value)], [part], List.cons_ne_nil _ _, .cons hpart .nil, ?_⟩
      rw [List.intercalate_singleton]
      exact spaced_append_iff.mpr
        ⟨afterValue, hspacedPart, (readMark?_eq_some_iff (by decide)).mp hbrace⟩

/-! ## The last of each -/

/-- The value of the last member with a key. -/
def last? (key : Bytes) (given : List (Bytes × Scalar)) : Option Scalar :=
  given.reverse.lookup key

theorem last?_concat (key : Bytes) (given : List (Bytes × Scalar)) (member : Bytes × Scalar) :
    last? key (given ++ [member])
      = if member.1 = key then some member.2 else last? key given := by
  obtain ⟨name, value⟩ := member
  rw [last?, List.reverse_concat, List.lookup_cons, last?]
  split
  · rename_i heq
    rw [beq_iff_eq] at heq
    rw [if_pos heq.symm]
  · rename_i hne
    rw [beq_eq_false_iff_ne] at hne
    rw [if_neg hne.symm]

theorem last?_map (key : Bytes) (change : Scalar → Scalar) (given : List (Bytes × Scalar)) :
    last? key (given.map fun member => (member.1, change member.2))
      = (last? key given).map change := by
  induction given using List.reverseRecOn with
  | nil => rfl
  | append_singleton given member ih =>
      rw [List.map_append, List.map_singleton, last?_concat, last?_concat, ih]
      split
      · rfl
      · rfl

/-- All members with the key can be read, and the last of them, if there is one, gives `latest`. -/
structure Follows {α : Type} (key : Bytes) (read : Scalar → Except Error α)
    (given : List (Bytes × Scalar)) (latest : Option α) : Prop where
  reads : ∀ value, (key, value) ∈ given → ∃ a, read value = .ok a
  latest : Option.Rel (fun value a => read value = .ok a) (last? key given) latest

namespace Follows

variable {α : Type} {read : Scalar → Except Error α} {latest other : Option α}

theorem some_iff {a : α} : Follows key read given (some a) ↔
    (∀ value, (key, value) ∈ given → ∃ a, read value = .ok a) ∧
      ∃ value, last? key given = some value ∧ read value = .ok a := by
  constructor
  · rintro ⟨hreads, hlatest⟩
    refine ⟨hreads, ?_⟩
    cases hlast : last? key given with
    | none =>
        rw [hlast] at hlatest
        cases hlatest
    | some value =>
        rw [hlast] at hlatest
        cases hlatest with
        | some hread => exact ⟨value, rfl, hread⟩
  · rintro ⟨hreads, value, hlast, hread⟩
    exact ⟨hreads, hlast ▸ .some hread⟩

theorem nil (key : Bytes) (read : Scalar → Except Error α) : Follows key read [] none :=
  ⟨by simp, .none⟩

theorem concat (h : Follows key read given latest) {a : α} (hread : read value = .ok a) :
    Follows key read (given ++ [(key, value)]) (some a) := by
  constructor
  · intro value' hmem
    rcases List.mem_append.mp hmem with hmem | hmem
    · exact h.reads value' hmem
    · cases List.mem_singleton.mp hmem
      exact ⟨a, hread⟩
  · rw [last?_concat, if_pos rfl]
    exact .some hread

theorem concat_of_ne (h : Follows key read given latest) {member : Bytes × Scalar}
    (hne : member.1 ≠ key) : Follows key read (given ++ [member]) latest := by
  constructor
  · intro value hmem
    rcases List.mem_append.mp hmem with hmem | hmem
    · exact h.reads value hmem
    · cases List.mem_singleton.mp hmem
      exact absurd rfl hne
  · rw [last?_concat, if_neg hne]
    exact h.latest

theorem unique (h : Follows key read given latest) (h' : Follows key read given other) :
    latest = other := by
  have hlatest := h.latest
  have hother := h'.latest
  cases hlast : last? key given with
  | none =>
      rw [hlast] at hlatest hother
      cases hlatest
      cases hother
      rfl
  | some value =>
      rw [hlast] at hlatest hother
      cases hlatest with
      | some hread =>
          cases hother with
          | some hread' => rw [Except.ok.inj (hread.symm.trans hread')]

end Follows

/-- Taking a member in changes what its key names, and nothing under any other key. -/
theorem add_cases (h : found.add key value = .ok found') :
    (key = ascii "enabled" ∧ ∃ enabled, readEnabled value = .ok enabled ∧
        found' = { found with enabled := some enabled }) ∨
      (key = ascii "interval" ∧ ∃ interval, readInterval value = .ok interval ∧
        found' = { found with interval := some interval }) ∨
      (key ≠ ascii "enabled" ∧ key ≠ ascii "interval" ∧ found' = found) := by
  rw [Found.add] at h
  split at h
  · rename_i hkey
    obtain ⟨enabled, hread, rfl⟩ := Results.map_eq_ok_iff.mp h
    exact .inl ⟨by simpa using hkey, enabled, hread, rfl⟩
  · rename_i henabled
    split at h
    · rename_i hkey
      obtain ⟨interval, hread, rfl⟩ := Results.map_eq_ok_iff.mp h
      exact .inr (.inl ⟨by simpa using hkey, interval, hread, rfl⟩)
    · rename_i hinterval
      cases h
      exact .inr (.inr ⟨by simpa using henabled, by simpa using hinterval, rfl⟩)

/-- What is found along the way is what the last members said. -/
theorem follows_of_addAll (h : Found.addAll ⟨none, none⟩ given = .ok found) :
    Follows (ascii "enabled") readEnabled given found.enabled ∧
      Follows (ascii "interval") readInterval given found.interval := by
  induction given using List.reverseRecOn generalizing found with
  | nil =>
      cases h
      exact ⟨.nil _ _, .nil _ _⟩
  | append_singleton given member ih =>
      obtain ⟨key, value⟩ := member
      rw [Found.addAll, List.foldlM_append] at h
      cases hbefore : Found.addAll ⟨none, none⟩ given with
      | error e =>
          rw [Found.addAll] at hbefore
          rw [hbefore] at h
          cases h
      | ok before =>
          obtain ⟨henabled, hinterval⟩ := ih hbefore
          rw [Found.addAll] at hbefore
          rw [hbefore] at h
          change before.add key value >>= pure = .ok found at h
          rw [bind_pure] at h
          have hkeys : ascii "enabled" ≠ ascii "interval" := by decide
          rcases add_cases h with ⟨rfl, enabled, hread, rfl⟩ | ⟨rfl, interval, hread, rfl⟩ |
            ⟨hnotEnabled, hnotInterval, rfl⟩
          · exact ⟨henabled.concat hread, hinterval.concat_of_ne hkeys⟩
          · exact ⟨henabled.concat_of_ne hkeys.symm, hinterval.concat hread⟩
          · exact ⟨henabled.concat_of_ne hnotEnabled, hinterval.concat_of_ne hnotInterval⟩

/-- Members can be taken in when those that count can be read. -/
theorem exists_addAll (found : Found)
    (henabled : ∀ value, (ascii "enabled", value) ∈ given → ∃ b, readEnabled value = .ok b)
    (hinterval : ∀ value, (ascii "interval", value) ∈ given → ∃ n, readInterval value = .ok n) :
    ∃ found', found.addAll given = .ok found' := by
  induction given generalizing found with
  | nil => exact ⟨found, rfl⟩
  | cons member given ih =>
      obtain ⟨key, value⟩ := member
      obtain ⟨next, hnext⟩ : ∃ next, found.add key value = .ok next := by
        rw [Found.add]
        split
        · rename_i hkey
          rw [beq_iff_eq] at hkey
          subst hkey
          obtain ⟨b, hread⟩ := henabled value List.mem_cons_self
          exact ⟨_, Results.map_eq_ok_iff.mpr ⟨b, hread, rfl⟩⟩
        · split
          · rename_i hkey
            rw [beq_iff_eq] at hkey
            subst hkey
            obtain ⟨n, hread⟩ := hinterval value List.mem_cons_self
            exact ⟨_, Results.map_eq_ok_iff.mpr ⟨n, hread, rfl⟩⟩
          · exact ⟨found, rfl⟩
      obtain ⟨found', haddAll⟩ := ih next
        (fun value hmem => henabled value (List.mem_cons_of_mem _ hmem))
        (fun value hmem => hinterval value (List.mem_cons_of_mem _ hmem))
      refine ⟨found', ?_⟩
      rw [Found.addAll, List.foldlM_cons, hnext]
      exact haddAll

/-! ## Objects -/

/-- The first token of the first part comes first. -/
theorem exists_intercalate_cons (token : Bytes) (part : List Bytes) (parts : List (List Bytes))
    (behind : List Bytes) : ∃ tokens,
      [[0x2C]].intercalate ((token :: part) :: parts) ++ behind = token :: tokens := by
  by_cases hlast : parts = []
  · subst hlast
    exact ⟨part ++ behind, by rw [List.intercalate_singleton, List.cons_append]⟩
  · rw [List.intercalate_cons_of_ne_nil hlast]
    exact ⟨_, rfl⟩

theorem object_of_forall₂ {parts : List (List Bytes)} (h : List.Forall₂ IsMember given parts)
    (hspaced : Spaced rest ([[0x2C]].intercalate parts ++ [[0x7D]]) text) :
    object text = (Found.addAll ⟨none, none⟩ given).map fun found => (found, rest) := by
  by_cases hempty : given = []
  · subst hempty
    cases h
    rw [object, (readMark?_eq_some_iff (by decide)).mpr hspaced]
    rfl
  · have hbrace : readMark? 0x7D text = none := by
      cases h with
      | nil => exact absurd rfl hempty
      | cons hmember hmore =>
          obtain ⟨hkey, hvalue⟩ := hmember
          obtain ⟨tokens, htokens⟩ := exists_intercalate_cons _ _ _ _
          rw [htokens] at hspaced
          obtain ⟨middle, hquoted, -⟩ := spaced_cons_iff.mp hspaced
          exact readMark?_eq_none_of_quoted hquoted (by decide)
    rw [object, hbrace]
    exact members_of_forall₂ h hempty hspaced

theorem exists_of_object (h : object text = .ok (found, rest)) :
    ∃ given parts, List.Forall₂ IsMember given parts ∧
      Spaced rest ([[0x2C]].intercalate parts ++ [[0x7D]]) text := by
  rw [object] at h
  split at h
  · rename_i hbrace
    cases h
    exact ⟨[], [], .nil, (readMark?_eq_some_iff (by decide)).mp hbrace⟩
  · obtain ⟨given, parts, -, hparts, hspaced⟩ := exists_of_members h
    exact ⟨given, parts, hparts, hspaced⟩

theorem exists_isObject_of_parse {body : Bytes} (h : parse body = .ok request) :
    ∃ given, IsObject given body := by
  rw [parse] at h
  split at h
  · cases h
  · rename_i text hbrace
    split at h
    · cases h
    · rename_i found rest hobject
      split at h
      · cases h
      · rename_i hblank
        obtain ⟨given, parts, hparts, hspaced⟩ := exists_of_object hobject
        refine ⟨given, parts, rest, hparts, ?_, ?_⟩
        · simpa [trimLeft] using hblank
        · exact spaced_cons_iff.mpr
            ⟨text, (readMark?_eq_some_iff (by decide)).mp hbrace, hspaced⟩

/-- Members that ask for a configuration: every `enabled` is a boolean and every `interval` a
number of hours, both are there, and the last of each has the value asked for. -/
structure Asks (given : List (Bytes × Scalar)) (request : ConfigRequest) : Prop where
  bool : ∀ value, (ascii "enabled", value) ∈ given →
    value = .bare (ascii "true") ∨ value = .bare (ascii "false")
  number : ∀ value, (ascii "interval", value) ∈ given → ∃ interval, IsInterval value interval
  enabled : last? (ascii "enabled") given = some (.bare (Settings.boolText request.enabled))
  interval : ∃ value, last? (ascii "interval") given = some value ∧
    IsInterval value request.interval

theorem asks_iff : Asks given request ↔
    Follows (ascii "enabled") readEnabled given (some request.enabled) ∧
      Follows (ascii "interval") readInterval given (some request.interval) := by
  have hbool : ∀ value : Scalar, (∃ enabled, value = .bare (Settings.boolText enabled)) ↔
      value = .bare (ascii "true") ∨ value = .bare (ascii "false") := by
    intro value
    rw [Bool.exists_bool]
    exact or_comm
  rw [Follows.some_iff, Follows.some_iff]
  simp only [readEnabled_eq_ok_iff, readInterval_eq_ok_iff, exists_eq_right, hbool]
  constructor
  · rintro ⟨hbool, hnumber, henabled, hinterval⟩
    exact ⟨⟨hbool, henabled⟩, hnumber, hinterval⟩
  · rintro ⟨⟨hbool, henabled⟩, hnumber, hinterval⟩
    exact ⟨hbool, hnumber, henabled, hinterval⟩

/-- An object asks for what its members ask for. -/
theorem parse_of_isObject {body : Bytes} (h : IsObject given body) :
    parse body = .ok request ↔ Asks given request := by
  obtain ⟨parts, blanks, hparts, hblanks, hspaced⟩ := h
  obtain ⟨text, hbrace, hspaced⟩ := spaced_cons_iff.mp hspaced
  have hend : trimLeft blanks = [] := List.dropWhile_eq_nil_iff.mpr hblanks
  rw [asks_iff, parse, (readMark?_eq_some_iff (by decide)).mpr hbrace]
  simp only [object_of_forall₂ hparts hspaced]
  cases hadd : Found.addAll ⟨none, none⟩ given with
  | error e =>
      refine iff_of_false (fun h => by cases h) ?_
      rintro ⟨henabled, hinterval⟩
      obtain ⟨found, hfound⟩ := exists_addAll ⟨none, none⟩ henabled.reads hinterval.reads
      rw [hadd] at hfound
      cases hfound
  | ok found =>
      obtain ⟨henabled, hinterval⟩ := follows_of_addAll hadd
      have hasks : (Follows (ascii "enabled") readEnabled given (some request.enabled) ∧
          Follows (ascii "interval") readInterval given (some request.interval)) ↔
          found.enabled = some request.enabled ∧ found.interval = some request.interval := by
        constructor
        · rintro ⟨henabled', hinterval'⟩
          exact ⟨henabled.unique henabled', hinterval.unique hinterval'⟩
        · rintro ⟨henabled', hinterval'⟩
          exact ⟨henabled' ▸ henabled, hinterval' ▸ hinterval⟩
      rw [hasks]
      obtain ⟨enabled, interval⟩ := found
      obtain ⟨enabled', interval'⟩ := request
      cases enabled with
      | none => simp [Except.map, hend]
      | some enabled =>
          cases interval with
          | none => simp [Except.map, hend]
          | some interval => simp [Except.map, hend]

/-- A body is a request when it is one flat object whose members ask for a configuration. -/
theorem parse_eq_ok_iff {body : Bytes} :
    parse body = .ok request ↔ ∃ given, IsObject given body ∧ Asks given request := by
  constructor
  · intro h
    obtain ⟨given, hobject⟩ := exists_isObject_of_parse h
    exact ⟨given, hobject, (parse_of_isObject hobject).mp h⟩
  · rintro ⟨given, hobject, hasks⟩
    exact (parse_of_isObject hobject).mpr hasks

/-! ## Objects as they are written -/

theorem readBack_eq_bare_iff : value.readBack = .bare text ↔ value = .bare text := by
  cases value with
  | quoted _ => simp [Scalar.readBack]
  | bare _ => simp [Scalar.readBack]

theorem isInterval_readBack_iff :
    IsInterval value.readBack interval ↔ IsInterval value interval := by
  simp only [IsInterval, readBack_eq_bare_iff]

/-- Members as they come back when their keys do. -/
theorem map_readBack (h : ∀ member ∈ given, ∀ b ∈ member.1, 0x20 ≤ b) :
    given.map readBack = given.map fun member => (member.1, member.2.readBack) := by
  refine List.map_congr_left fun member hmem => ?_
  rw [readBack, flatMap_readsAs_eq_self_iff.mpr (h member hmem)]

/-- Strings are nothing that members ask for, so it does not matter how they come back. -/
theorem asks_map_readBack_iff :
    Asks (given.map fun member => (member.1, member.2.readBack)) request ↔ Asks given request := by
  have hmem : ∀ (key : Bytes) (P : Scalar → Prop),
      (∀ value, (key, value) ∈ given.map (fun m => (m.1, m.2.readBack)) → P value) ↔
        ∀ value, (key, value) ∈ given → P value.readBack := by
    intro key P
    constructor
    · intro h value hvalue
      exact h _ (List.mem_map.mpr ⟨(key, value), hvalue, rfl⟩)
    · intro h value hvalue
      obtain ⟨member, hmember, heq⟩ := List.mem_map.mp hvalue
      cases heq
      exact h member.2 hmember
  have hvalues := hmem (ascii "enabled")
    fun value => value = .bare (ascii "true") ∨ value = .bare (ascii "false")
  have hnumbers := hmem (ascii "interval") fun value => ∃ interval, IsInterval value interval
  simp only [readBack_eq_bare_iff] at hvalues
  simp only [isInterval_readBack_iff] at hnumbers
  have henabled : last? (ascii "enabled") (given.map fun m => (m.1, m.2.readBack))
        = some (.bare (Settings.boolText request.enabled)) ↔
      last? (ascii "enabled") given = some (.bare (Settings.boolText request.enabled)) := by
    simp [last?_map, readBack_eq_bare_iff]
  have hinterval : (∃ value, last? (ascii "interval") (given.map fun m => (m.1, m.2.readBack))
        = some value ∧ IsInterval value request.interval) ↔
      ∃ value, last? (ascii "interval") given = some value ∧
        IsInterval value request.interval := by
    simp [last?_map, isInterval_readBack_iff]
  constructor
  · rintro ⟨hbool, hnumber, hlastEnabled, hlastInterval⟩
    exact ⟨hvalues.mp hbool, hnumbers.mp hnumber, henabled.mp hlastEnabled,
      hinterval.mp hlastInterval⟩
  · rintro ⟨hbool, hnumber, hlastEnabled, hlastInterval⟩
    exact ⟨hvalues.mpr hbool, hnumbers.mpr hnumber, henabled.mpr hlastEnabled,
      hinterval.mpr hlastInterval⟩

/-- Which keys pass for one of the two that count: those with the bytes of the word, or in place
of an `n`, an `r` or a `t` the control byte whose escape ends in that character. -/
theorem reads_key_iff {word : Bytes} (hword : word = ascii "enabled" ∨ word = ascii "interval") :
    text.flatMap readsAs = word ↔
      List.Forall₂ (fun b c => b = c ∨ (b, c) ∈ shortEscapes) text word := by
  refine flatMap_readsAs_eq_iff (List.all_iff_forall_prop.mp ?_)
  rcases hword with rfl | rfl
  · decide
  · decide

/-- What is read of what is written. A string is read to its end, but only without control bytes
as it was. So members ask for what those ask for that come back; with keys without control bytes
these are the members themselves, but a key with a newline in place of the `n` of `enabled` passes
for `enabled`. -/
theorem written_read_back (text rest : Bytes) (given : List (Bytes × Scalar))
    (request : ConfigRequest) (hgiven : ∀ member ∈ given, member.2.IsLegible) :
    readString? (string text ++ rest) = some (text.flatMap readsAs, rest) ∧
    (readString? (string text) = some (text, []) ↔ ∀ b ∈ text, 0x20 ≤ b) ∧
    (parse (Json.object (given.map fun m => member m.1 m.2.write)) = .ok request ↔
      Asks (given.map readBack) request) ∧
    ((∀ member ∈ given, ∀ b ∈ member.1, 0x20 ≤ b) →
      (parse (Json.object (given.map fun m => member m.1 m.2.write)) = .ok request ↔
        Asks given request)) ∧
    ∀ word, word = ascii "enabled" ∨ word = ascii "interval" →
      (text.flatMap readsAs = word ↔
        List.Forall₂ (fun b c => b = c ∨ (b, c) ∈ shortEscapes) text word) := by
  have hread := readString?_string text []
  rw [List.append_nil] at hread
  refine ⟨readString?_string text rest, ?_, parse_of_isObject (isObject_object hgiven), ?_,
    fun word => reads_key_iff⟩
  · rw [hread, Option.some.injEq, Prod.mk.injEq, and_iff_left rfl]
    exact flatMap_readsAs_eq_self_iff
  · intro hkeys
    rw [parse_of_isObject (isObject_object hgiven), map_readBack hkeys]
    exact asks_map_readBack_iff

/-- Members without the key `enabled`: the first has a newline in place of the `n`. -/
def disguised : List (Bytes × Scalar) :=
  [(ascii "e\nabled", .bare (ascii "true")), (ascii "interval", .bare (ascii "24"))]

theorem isLegible_disguised : ∀ member ∈ disguised, member.2.IsLegible := by
  intro member hmem
  simp only [disguised, List.mem_cons, List.not_mem_nil, or_false] at hmem
  rcases hmem with rfl | rfl
  · exact ⟨by decide, List.all_eq_true.mp (by decide)⟩
  · exact ⟨by decide, List.all_eq_true.mp (by decide)⟩

theorem asks_map_readBack_disguised : Asks (disguised.map readBack) ⟨true, 24⟩ := by
  have hread : disguised.map readBack
      = [(ascii "enabled", .bare (ascii "true")), (ascii "interval", .bare (ascii "24"))] := by
    decide
  have hinterval : IsInterval (.bare (ascii "24")) 24 :=
    ⟨ascii "24", rfl, by decide, by decide, List.all_eq_true.mp (by decide), by decide⟩
  have hkeys : ascii "enabled" ≠ ascii "interval" := by decide
  rw [hread]
  refine ⟨?_, ?_, by decide, ⟨_, by decide, hinterval⟩⟩
  · intro value hmem
    simp only [List.mem_cons, Prod.mk.injEq, hkeys, false_and, List.not_mem_nil, or_false,
      true_and] at hmem
    exact .inl hmem
  · intro value hmem
    simp only [List.mem_cons, Prod.mk.injEq, hkeys.symm, false_and, List.not_mem_nil, or_false,
      true_and, false_or] at hmem
    exact ⟨24, hmem ▸ hinterval⟩

theorem not_asks_disguised (request : ConfigRequest) : ¬ Asks disguised request := by
  intro h
  have hnone : last? (ascii "enabled") disguised = none := by decide
  have hlast := h.enabled
  rw [hnone] at hlast
  cases hlast

/-- The disguised members are written, read and taken for a request. -/
theorem written_read_back_disguised :
    readString? (string (ascii "e\nabled")) = some (ascii "enabled", []) ∧
    parse (Json.object (disguised.map fun m => member m.1 m.2.write)) = .ok ⟨true, 24⟩ := by
  obtain ⟨hstring, -, hobject, -, -⟩ :=
    written_read_back (ascii "e\nabled") [] disguised ⟨true, 24⟩ isLegible_disguised
  rw [List.append_nil] at hstring
  exact ⟨hstring.trans (by decide), hobject.mpr asks_map_readBack_disguised⟩

/-- Not every string comes back as it was, nor do members count by their keys as written. -/
theorem not_written_read_back :
    (¬ ∀ text, readString? (string text) = some (text, [])) ∧
    ¬ ∀ given request, (∀ member ∈ given, member.2.IsLegible) →
      parse (Json.object (given.map fun m => member m.1 m.2.write)) = .ok request →
      Asks given request := by
  constructor
  · intro h
    have hnewline := h [0x0A]
    revert hnewline
    decide
  · intro h
    have hobject := (parse_of_isObject (isObject_object isLegible_disguised)).mpr
      asks_map_readBack_disguised
    exact not_asks_disguised _ (h _ _ isLegible_disguised hobject)

end ConfigRequest

end ResolverLog
