import ResolverLog.Proofs.ConfigRequest
import Mathlib.Data.List.DropRight

/-!
# Requests read by position

A reader of requests that keeps one position in the body and moves it token by
token, with a flag and a variable for each of the two members, and with the
variables of its caller, which it sets when all is well and only then. It takes
the bodies that are requests and tells the same faults.

## Implementation notes

Where a mark is missing, the position still moves over the blanks in front of
it. The reader goes on from there with the next mark or with a key, so what
counts is the text behind the blanks, which is the same.
-/

namespace ResolverLog

namespace ConfigRequest

open Bytes Json

namespace Scan

variable {text : Bytes} {i j : Nat}

/-! ## Tokens at a position -/

/-- The position behind the blanks. -/
def blanksEnd (text : Bytes) (i : Nat) : Nat :=
  if h : i < text.length then if isBlank text[i] then blanksEnd text (i + 1) else i else i
termination_by text.length - i

/-- Passes the blanks, and the mark behind them if it is there. -/
def eat (text : Bytes) (mark : UInt8) (i : Nat) : Bool × Nat :=
  let i := blanksEnd text i
  if text[i]? = some mark then (true, i + 1) else (false, i)

/-- The rest of a string behind what has been read of it, and the position behind its quote. -/
def stringFrom? (text read : Bytes) (i : Nat) : Option (Bytes × Nat) :=
  if h : i < text.length then
    if text[i] = 0x22 then some (read, i + 1)
    else if text[i] = 0x5C then
      if h : i + 1 < text.length then stringFrom? text (read ++ [text[i + 1]]) (i + 2) else none
    else stringFrom? text (read ++ [text[i]]) (i + 1)
  else none
termination_by text.length - i

/-- A string, and the position behind it. -/
def string? (text : Bytes) (i : Nat) : Option (Bytes × Nat) :=
  let i := blanksEnd text i
  if text[i]? = some 0x22 then stringFrom? text [] (i + 1) else none

/-- The rest of a bare value behind what has been read of it, and the position behind it. -/
def bareFrom (text read : Bytes) (i : Nat) : Bytes × Nat :=
  if h : i < text.length then
    if isBare text[i] then bareFrom text (read ++ [text[i]]) (i + 1) else (read, i)
  else (read, i)
termination_by text.length - i

/-- A scalar and the position behind it. -/
def scalar? (text : Bytes) (i : Nat) : Option (Scalar × Nat) :=
  let i := blanksEnd text i
  if text[i]? = some 0x22 then (string? text i).map fun (value, i) => (.quoted value, i)
  else
    let (value, i) := bareFrom text [] i
    if value.isEmpty then none else some (.bare value, i)

theorem drop_blanksEnd (text : Bytes) (i : Nat) :
    text.drop (blanksEnd text i) = trimLeft (text.drop i) := by
  fun_induction blanksEnd text i with
  | case1 i h hblank ih =>
      rw [ih, List.drop_eq_getElem_cons h, trimLeft, trimLeft, List.dropWhile_cons_of_pos hblank]
  | case2 i h hblank =>
      rw [List.drop_eq_getElem_cons h, trimLeft, List.dropWhile_cons_of_neg hblank]
  | case3 i h =>
      rw [List.drop_eq_nil_of_le (by omega)]
      rfl

theorem blanksEnd_le (hi : i ≤ text.length) : blanksEnd text i ≤ text.length := by
  fun_induction blanksEnd text i with
  | case1 i h hblank ih => exact ih h
  | case2 i h hblank => exact hi
  | case3 => exact hi

theorem trimLeft_trimLeft (text : Bytes) : trimLeft (trimLeft text) = trimLeft text :=
  List.dropWhile_idempotent isBlank text

/-- What stands behind the blanks at a position. -/
theorem trimLeft_drop (text : Bytes) (i : Nat) :
    trimLeft (text.drop i) =
      match text[blanksEnd text i]? with
      | some b => b :: text.drop (blanksEnd text i + 1)
      | none => [] := by
  rw [← drop_blanksEnd]
  split
  · rename_i b hb
    obtain ⟨hlt, rfl⟩ := List.getElem?_eq_some_iff.mp hb
    exact List.drop_eq_getElem_cons hlt
  · rename_i hnone
    rw [List.getElem?_eq_none_iff] at hnone
    exact List.drop_eq_nil_of_le hnone

/-- The position moves over the blanks, and over the mark if it stands behind them. -/
theorem eat_cases (text : Bytes) (mark : UInt8) (i : Nat) :
    (∃ j, eat text mark i = (true, j) ∧ j ≤ text.length ∧
        readMark? mark (text.drop i) = some (text.drop j)) ∨
      ∃ j, eat text mark i = (false, j) ∧ readMark? mark (text.drop i) = none ∧
        trimLeft (text.drop j) = trimLeft (text.drop i) := by
  rw [eat, readMark?, trimLeft_drop text i]
  split
  · rename_i hmark
    left
    obtain ⟨hlt, -⟩ := List.getElem?_eq_some_iff.mp hmark
    exact ⟨_, rfl, hlt, by rw [hmark]; simp⟩
  · rename_i hmark
    right
    refine ⟨_, rfl, ?_, ?_⟩
    · cases hb : text[blanksEnd text i]? with
      | none => rfl
      | some b =>
          rw [hb, Option.some.injEq] at hmark
          simpa using hmark
    · rw [drop_blanksEnd, ← trimLeft_drop, trimLeft_trimLeft]

theorem map_stringFrom? (text read : Bytes) (i : Nat) :
    (stringFrom? text read i).map (fun (value, j) => (value, text.drop j))
      = readStringFrom read.reverse (text.drop i) := by
  fun_induction stringFrom? text read i with
  | case1 read i h hquote =>
      rw [List.drop_eq_getElem_cons h, hquote]
      simp [readStringFrom]
  | case2 read i h hquote hescape hnext ih =>
      rw [List.drop_eq_getElem_cons h, List.drop_eq_getElem_cons hnext, hescape, readStringFrom, ih,
        List.reverse_concat]
  | case3 read i h hquote hescape hlast =>
      rw [List.drop_eq_getElem_cons h, List.drop_eq_nil_of_le (by omega), hescape]
      rfl
  | case4 read i h hquote hescape ih =>
      rw [List.drop_eq_getElem_cons h, readStringFrom, ih, List.reverse_concat]
      · intro _ _ heq
        exact absurd heq hescape
      · intro heq
        exact absurd heq hescape
      · exact hquote
  | case5 read i h =>
      rw [List.drop_eq_nil_of_le (by omega)]
      rfl

/-- Behind the blanks there is a quote where the position is at one. -/
theorem trimLeft_ne_quote (h : text[blanksEnd text i]? ≠ some 0x22) (rest : Bytes) :
    trimLeft (text.drop i) ≠ 0x22 :: rest := by
  rw [trimLeft_drop]
  cases hb : text[blanksEnd text i]? with
  | none => exact (List.cons_ne_nil _ _).symm
  | some b =>
      rw [hb] at h
      intro heq
      exact h (congrArg some (List.cons.inj heq).1)

theorem map_string? (text : Bytes) (i : Nat) :
    (string? text i).map (fun (value, j) => (value, text.drop j)) = readString? (text.drop i) := by
  rw [string?, readString?]
  split
  · rename_i hquote
    rw [trimLeft_drop, hquote, map_stringFrom?]
    rfl
  · rename_i hquote
    split
    · rename_i rest htrim
      exact absurd htrim (trimLeft_ne_quote hquote rest)
    · rfl

theorem bareFrom_eq (text read : Bytes) (i : Nat) :
    ∃ j, bareFrom text read i = (read ++ (text.drop i).takeWhile isBare, j) ∧
      text.drop j = (text.drop i).dropWhile isBare := by
  fun_induction bareFrom text read i with
  | case1 read i h hbare ih =>
      obtain ⟨j, hread, hdrop⟩ := ih
      refine ⟨j, ?_, ?_⟩
      · rw [hread, List.drop_eq_getElem_cons h, List.takeWhile_cons_of_pos hbare]
        simp
      · rw [hdrop, List.drop_eq_getElem_cons h, List.dropWhile_cons_of_pos hbare]
  | case2 read i h hbare =>
      refine ⟨i, ?_, ?_⟩
      · rw [List.drop_eq_getElem_cons h, List.takeWhile_cons_of_neg hbare, List.append_nil]
      · rw [List.drop_eq_getElem_cons h, List.dropWhile_cons_of_neg hbare]
  | case3 read i h =>
      rw [List.drop_eq_nil_of_le (by omega)]
      exact ⟨i, by simp, List.drop_eq_nil_of_le (by omega)⟩

theorem readScalar?_of_ne_quote (h : ∀ rest, trimLeft text ≠ 0x22 :: rest) :
    readScalar? text =
      if ((trimLeft text).takeWhile isBare).isEmpty then none
      else some (.bare ((trimLeft text).takeWhile isBare), (trimLeft text).dropWhile isBare) := by
  rw [readScalar?]
  split
  · rename_i rest htrim
    exact absurd htrim (h rest)
  · rfl

theorem map_scalar? (text : Bytes) (i : Nat) :
    (scalar? text i).map (fun (value, j) => (value, text.drop j)) = readScalar? (text.drop i) := by
  rw [scalar?]
  split
  · rename_i hquote
    have hstring := map_string? text (blanksEnd text i)
    rw [drop_blanksEnd, readString?, trimLeft_trimLeft, trimLeft_drop, hquote] at hstring
    rw [readScalar?, trimLeft_drop, hquote]
    simp only at hstring ⊢
    rw [← hstring, Option.map_map, Option.map_map]
    rfl
  · rename_i hquote
    obtain ⟨j, hbare, hdrop⟩ := bareFrom_eq text [] (blanksEnd text i)
    rw [drop_blanksEnd] at hbare hdrop
    rw [readScalar?_of_ne_quote (trimLeft_ne_quote hquote), hbare, List.nil_append]
    simp only
    split
    · rfl
    · rw [← hdrop]
      rfl

theorem readMark?_of_eat {mark : UInt8} (h : eat text mark i = (true, j)) :
    readMark? mark (text.drop i) = some (text.drop j) ∧ j ≤ text.length := by
  rcases eat_cases text mark i with ⟨k, heat, hle, hread⟩ | ⟨k, heat, -, -⟩
  · cases h.symm.trans heat
    exact ⟨hread, hle⟩
  · cases h.symm.trans heat

theorem readMark?_of_not_eat {mark : UInt8} (h : eat text mark i = (false, j)) :
    readMark? mark (text.drop i) = none ∧ trimLeft (text.drop j) = trimLeft (text.drop i) := by
  rcases eat_cases text mark i with ⟨k, heat, -, -⟩ | ⟨k, heat, hread, htrim⟩
  · cases h.symm.trans heat
  · cases h.symm.trans heat
    exact ⟨hread, htrim⟩

theorem readString?_of_string? {value : Bytes} (h : string? text i = some (value, j)) :
    readString? (text.drop i) = some (value, text.drop j) := by
  rw [← map_string?, h]
  rfl

theorem readScalar?_of_scalar? {value : Scalar} (h : scalar? text i = some (value, j)) :
    readScalar? (text.drop i) = some (value, text.drop j) := by
  rw [← map_scalar?, h]
  rfl

/-! ## Members -/

/-- A string rather than a bare value. -/
def isQuoted : Scalar → Bool
  | .quoted _ => true
  | .bare _ => false

/-- The characters of a scalar. -/
def characters : Scalar → Bytes
  | .quoted text => text
  | .bare text => text

/-- What `enabled` must not be. -/
def isBadEnabled (value : Scalar) : Bool :=
  isQuoted value || (characters value != ascii "true" && characters value != ascii "false")

/-- What `interval` must not be. -/
def isBadInterval (value : Scalar) : Bool :=
  isQuoted value || (characters value).isEmpty || 9 < (characters value).length
    || (characters value).any (!isDigit ·)

theorem readEnabled_eq (value : Scalar) : readEnabled value =
    if isBadEnabled value then .error .enabledNotBool
    else .ok (characters value == ascii "true") := by
  cases value with
  | quoted text => rfl
  | bare text =>
      rw [readEnabled, isBadEnabled, isQuoted, characters, Bool.false_or]
      by_cases htrue : text = ascii "true"
      · simp [htrue]
      · by_cases hfalse : text = ascii "false"
        · subst hfalse
          rfl
        · simp [htrue, hfalse]

theorem readInterval_eq (value : Scalar) : readInterval value =
    if isBadInterval value then .error .intervalNotNumber
    else .ok (Decimal.value (characters value)).toUInt32 := by
  cases value with
  | quoted text => rfl
  | bare text =>
      rw [readInterval, isBadInterval, isQuoted, characters, Bool.false_or, Decimal.upTo?,
        Decimal.nat?]
      have hdigits : text.any (!isDigit ·) = !text.all isDigit := List.not_all_eq_any_not.symm
      rw [hdigits]
      by_cases hlength : text.length ≤ 9
      · rw [if_pos hlength, decide_eq_false (Nat.not_lt.mpr hlength), Bool.or_false]
        cases text.isEmpty
        · cases text.all isDigit
          · rfl
          · rfl
        · rfl
      · rw [if_neg hlength, decide_eq_true (Nat.lt_of_not_le hlength), Bool.or_true, Bool.true_or]
        rfl

/-- What a reader has found of the two members that count. -/
structure Locals where
  haveEnabled : Bool
  haveInterval : Bool
  enabled : Bool
  interval : UInt32
  deriving DecidableEq, Repr

namespace Locals

/-- Nothing yet. -/
def initial : Locals := ⟨false, false, false, 0⟩

/-- The members found. -/
def found (l : Locals) : Found :=
  ⟨if l.haveEnabled then some l.enabled else none,
    if l.haveInterval then some l.interval else none⟩

/-- Takes a member in. -/
def take (l : Locals) (key : Bytes) (value : Scalar) : Except Error Locals :=
  if key == ascii "enabled" then
    if isBadEnabled value then .error .enabledNotBool
    else .ok { l with enabled := characters value == ascii "true", haveEnabled := true }
  else if key == ascii "interval" then
    if isBadInterval value then .error .intervalNotNumber
    else .ok { l with
      interval := (Decimal.value (characters value)).toUInt32
      haveInterval := true }
  else .ok l

theorem map_take (l : Locals) (key : Bytes) (value : Scalar) :
    (l.take key value).map found = l.found.add key value := by
  rw [take, Found.add, readEnabled_eq, readInterval_eq]
  split
  · split
    · rfl
    · rfl
  · split
    · split
      · rfl
      · rfl
    · rfl

end Locals

/-- The members that are left, the closing brace, and the position behind it. -/
def turns (text : Bytes) (l : Locals) (i : Nat) : Except Error (Locals × Nat) :=
  match _hKey : string? text i with
  | none => .error .expectedKey
  | some (key, afterKey) =>
    match _hColon : eat text 0x3A afterKey with
    | (false, _) => .error .expectedColon
    | (true, afterColon) =>
      match _hValue : scalar? text afterColon with
      | none => .error (.badValue key)
      | some (value, afterValue) =>
        match l.take key value with
        | .error e => .error e
        | .ok l =>
          match _hComma : eat text 0x2C afterValue with
          | (true, next) => turns text l next
          | (false, atEnd) =>
            match eat text 0x7D atEnd with
            | (true, next) => .ok (l, next)
            | (false, _) => .error .expectedCommaOrEnd
termination_by text.length - i
decreasing_by
  have hkey := readString?_length_lt (readString?_of_string? _hKey)
  have hcolon := readMark?_length_lt (readMark?_of_eat _hColon).1
  have hvalue := readScalar?_length_le (readScalar?_of_scalar? _hValue)
  have hcomma := readMark?_length_lt (readMark?_of_eat _hComma).1
  simp only [List.length_drop] at hkey hcolon hvalue hcomma
  omega

theorem readMark?_congr {other : Bytes} (h : trimLeft text = trimLeft other) (mark : UInt8) :
    readMark? mark text = readMark? mark other := by
  rw [readMark?, readMark?, h]

/-- One member at a position, and what comes after it. -/
theorem members_drop {l : Locals} {key : Bytes} {value : Scalar}
    {afterKey afterColon afterValue : Nat}
    (hkey : string? text i = some (key, afterKey))
    (hcolon : eat text 0x3A afterKey = (true, afterColon))
    (hvalue : scalar? text afterColon = some (value, afterValue)) :
    members l.found (text.drop i)
      = (l.take key value).map Locals.found >>= afterMember (text.drop afterValue) := by
  rw [members_eq, readString?_of_string? hkey, Locals.map_take]
  simp only [(readMark?_of_eat hcolon).1, readScalar?_of_scalar? hvalue]

/-- Position by position the reader takes in what the text in front of it holds. -/
theorem map_turns (text : Bytes) (l : Locals) (i : Nat) :
    (turns text l i).map (fun (l, j) => (l.found, text.drop j))
      = members l.found (text.drop i) := by
  fun_induction turns text l i with
  | case1 l i hkey =>
      rw [members_eq, ← map_string?, hkey]
      rfl
  | case2 l i key afterKey hkey afterColon hcolon =>
      rw [members_eq, readString?_of_string? hkey]
      simp only [(readMark?_of_not_eat hcolon).1]
      rfl
  | case3 l i key afterKey hkey afterColon hcolon hvalue =>
      rw [members_eq, readString?_of_string? hkey]
      simp only [(readMark?_of_eat hcolon).1, ← map_scalar?, hvalue]
      rfl
  | case4 l i key afterKey hkey afterColon hcolon value afterValue hvalue e hadd =>
      rw [members_drop hkey hcolon hvalue, hadd]
      rfl
  | case5 l i key afterKey hkey afterColon hcolon value afterValue hvalue taken hadd next hcomma
      ih =>
      rw [members_drop hkey hcolon hvalue, hadd]
      change _ = afterMember (text.drop afterValue) taken.found
      rw [afterMember, (readMark?_of_eat hcomma).1]
      exact ih
  | case6 l i key afterKey hkey afterColon hcolon value afterValue hvalue taken hadd atEnd hcomma
      next hbrace =>
      obtain ⟨hnone, htrim⟩ := readMark?_of_not_eat hcomma
      rw [members_drop hkey hcolon hvalue, hadd]
      change _ = afterMember (text.drop afterValue) taken.found
      rw [afterMember, hnone, ← readMark?_congr htrim, (readMark?_of_eat hbrace).1]
      rfl
  | case7 l i key afterKey hkey afterColon hcolon value afterValue hvalue taken hadd atEnd hcomma
      behind hbrace =>
      obtain ⟨hnone, htrim⟩ := readMark?_of_not_eat hcomma
      rw [members_drop hkey hcolon hvalue, hadd]
      change _ = afterMember (text.drop afterValue) taken.found
      rw [afterMember, hnone, ← readMark?_congr htrim, (readMark?_of_not_eat hbrace).1]
      rfl

theorem le_of_turns {l taken : Locals} (h : turns text l i = .ok (taken, j)) : j ≤ text.length := by
  fun_induction turns text l i with
  | case1 | case2 | case3 | case4 | case7 => cases h
  | case5 l i key afterKey hkey afterColon hcolon value afterValue hvalue l' hadd next hcomma ih =>
      exact ih h
  | case6 l i key afterKey hkey afterColon hcolon value afterValue hvalue l' hadd atEnd hcomma next
      hbrace =>
      cases h
      exact (readMark?_of_eat hbrace).2

/-! ## Bodies -/

/-- The variables that a caller hands over. -/
structure Outputs where
  enabled : Bool
  interval : UInt32
  message : Bytes
  deriving DecidableEq, Repr

/-- The members of an object behind its opening brace. -/
def objectAt (text : Bytes) (i : Nat) : Except Error (Locals × Nat) :=
  match eat text 0x7D i with
  | (true, next) => .ok (.initial, next)
  | (false, behind) => turns text .initial behind

/-- Reads a body. Tells whether it is a request, and leaves the caller its members or else an
explanation. -/
def run (body : Bytes) (out : Outputs) : Bool × Outputs :=
  let fail (e : Error) : Bool × Outputs := (false, { out with message := e.message })
  match eat body 0x7B 0 with
  | (false, _) => fail .expectedObject
  | (true, i) =>
    match objectAt body i with
    | .error e => fail e
    | .ok (l, i) =>
      if blanksEnd body i ≠ body.length then fail .trailingData
      else if !l.haveEnabled || !l.haveInterval then fail .missingMember
      else (true, { out with enabled := l.enabled, interval := l.interval })

theorem members_congr {other : Bytes} (h : trimLeft text = trimLeft other) (found : Found) :
    members found text = members found other := by
  rw [members_eq, members_eq, readString?, readString?, h]

theorem map_objectAt (text : Bytes) (i : Nat) :
    (objectAt text i).map (fun (l, j) => (l.found, text.drop j)) = object (text.drop i) := by
  rw [objectAt, object]
  split
  · rename_i next hbrace
    rw [(readMark?_of_eat hbrace).1]
    rfl
  · rename_i behind hbrace
    obtain ⟨hnone, htrim⟩ := readMark?_of_not_eat hbrace
    rw [hnone, map_turns]
    exact members_congr htrim _

theorem le_of_objectAt {l : Locals} (h : objectAt text i = .ok (l, j)) : j ≤ text.length := by
  rw [objectAt] at h
  split at h
  · rename_i next hbrace
    cases h
    exact (readMark?_of_eat hbrace).2
  · exact le_of_turns h

/-- Behind the blanks the text ends where nothing but blanks is left. -/
theorem blanksEnd_eq_length_iff (h : i ≤ text.length) :
    blanksEnd text i = text.length ↔ trimLeft (text.drop i) = [] := by
  have hle := blanksEnd_le h
  rw [← drop_blanksEnd, List.drop_eq_nil_iff]
  omega

/-- The reader tells what the body is, and its caller keeps what it had unless the body is a
request. -/
theorem run_eq (body : Bytes) (out : Outputs) :
    run body out = match parse body with
      | .ok request => (true, { out with enabled := request.enabled, interval := request.interval })
      | .error e => (false, { out with message := e.message }) := by
  rw [run, parse]
  cases hbrace : eat body 0x7B 0 with
  | mk isObject i =>
      cases isObject with
      | false =>
          have hnone := (readMark?_of_not_eat hbrace).1
          rw [List.drop_zero] at hnone
          rw [hnone]
      | true =>
          have hsome := (readMark?_of_eat hbrace).1
          rw [List.drop_zero] at hsome
          rw [hsome]
          simp only
          rw [← map_objectAt]
          cases hobject : objectAt body i with
          | error e => rfl
          | ok found =>
              obtain ⟨l, j⟩ := found
              have hend := blanksEnd_eq_length_iff (le_of_objectAt hobject)
              simp only [Except.map]
              by_cases hrest : trimLeft (body.drop j) = []
              · rw [if_neg (not_not.mpr (hend.mpr hrest)), hrest]
                obtain ⟨haveEnabled, haveInterval, enabled, interval⟩ := l
                cases haveEnabled
                · rfl
                · cases haveInterval
                  · rfl
                  · rfl
              · rw [if_pos (mt hend.mp hrest), if_pos (by simpa using hrest)]

end Scan

/-- A body is read as a request when it is one flat object, up to blanks between its tokens, whose
members ask for a configuration. Then the caller gets that configuration, and otherwise keeps what
it had and gets an explanation. -/
theorem reads_exactly_requests (body : Bytes) (out : Scan.Outputs) :
    ((Scan.run body out).1 = true ↔ ∃ given request, IsObject given body ∧ Asks given request) ∧
    (∀ request, parse body = .ok request ↔ ∃ given, IsObject given body ∧ Asks given request) ∧
    Scan.run body out = match parse body with
      | .ok request => (true, { out with enabled := request.enabled, interval := request.interval })
      | .error e => (false, { out with message := e.message }) := by
  refine ⟨?_, fun request => parse_eq_ok_iff, Scan.run_eq body out⟩
  rw [Scan.run_eq]
  constructor
  · intro h
    cases hparse : parse body with
    | error e =>
        rw [hparse] at h
        cases h
    | ok request =>
        obtain ⟨given, hobject, hasks⟩ := parse_eq_ok_iff.mp hparse
        exact ⟨given, request, hobject, hasks⟩
  · rintro ⟨given, request, hobject, hasks⟩
    rw [parse_eq_ok_iff.mpr ⟨given, hobject, hasks⟩]

end ConfigRequest

end ResolverLog
