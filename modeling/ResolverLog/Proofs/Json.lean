import ResolverLog.Json
import ResolverLog.Proofs.Bytes
import Mathlib.Data.Bool.AllAny
import Mathlib.Data.List.Forall2
import Mathlib.Data.List.Nodup
import Mathlib.Tactic.SplitIfs

/-!
# The tokens of flat JSON objects

A flat object is a row of tokens, the marks, the strings and the bare values,
with blanks in front of each. Every reader takes the blanks in front of one
token and that token, and leaves what follows; nothing else makes it succeed.

Strings are written with more escapes than are read: behind a backslash the
reader takes any byte for itself. So quotes and backslashes come back, and a
control byte comes back as the characters of its escape.
-/

namespace ResolverLog

namespace Json

open Bytes

variable {text rest written value token : Bytes} {tokens more : List Bytes} {mark b : UInt8}

/-! ## Strings -/

/-- What stands between the quotes of a string, and the text it is read as: a backslash stands for
the byte behind it, whatever that is, and a quote does not stand alone. -/
inductive Spells : Bytes → Bytes → Prop
  | done : Spells [] []
  | escaped (b : UInt8) {written text : Bytes} :
      Spells written text → Spells (0x5C :: b :: written) (b :: text)
  | plain {b : UInt8} {written text : Bytes} (quote : b ≠ 0x22) (backslash : b ≠ 0x5C) :
      Spells written text → Spells (b :: written) (b :: text)

theorem Spells.append {more moreText : Bytes} (h : Spells written text)
    (hmore : Spells more moreText) : Spells (written ++ more) (text ++ moreText) := by
  induction h with
  | done => exact hmore
  | escaped b h ih => exact .escaped b ih
  | plain quote backslash h ih => exact .plain quote backslash ih

theorem readStringFrom_append (h : Spells written text) (passed rest : Bytes) :
    readStringFrom passed (written ++ 0x22 :: rest) = some (passed.reverse ++ text, rest) := by
  induction h generalizing passed with
  | done => simp [readStringFrom]
  | escaped b h ih =>
      rw [List.cons_append, List.cons_append, readStringFrom, ih, List.reverse_cons,
        List.append_assoc, List.singleton_append]
  | plain quote backslash h ih =>
      rw [List.cons_append, readStringFrom, ih, List.reverse_cons, List.append_assoc,
        List.singleton_append]
      · intro _ _ heq
        exact absurd heq backslash
      · intro heq
        exact absurd heq backslash
      · exact quote

theorem exists_spells {passed : Bytes} (h : readStringFrom passed text = some (value, rest)) :
    ∃ written read, Spells written read ∧ text = written ++ 0x22 :: rest ∧
      value = passed.reverse ++ read := by
  fun_induction readStringFrom passed text with
  | case1 passed b tail ih =>
      obtain ⟨written, read, hspells, rfl, rfl⟩ := ih h
      exact ⟨0x5C :: b :: written, b :: read, .escaped b hspells, rfl, by simp⟩
  | case2 => cases h
  | case3 passed tail =>
      cases h
      exact ⟨[], [], .done, rfl, by simp⟩
  | case4 passed b tail hescape hlast hquote ih =>
      obtain ⟨written, read, hspells, rfl, rfl⟩ := ih h
      have hbackslash : b ≠ 0x5C := by
        rintro rfl
        cases written with
        | nil => exact hescape _ _ rfl rfl
        | cons c written => exact hescape _ _ rfl rfl
      exact ⟨b :: written, b :: read, .plain (fun hb => hquote hb) hbackslash hspells, rfl, by simp⟩
  | case5 => cases h

/-- A string ends at the first quote that no backslash escapes. -/
theorem readStringFrom_eq_some_iff :
    readStringFrom [] text = some (value, rest) ↔
      ∃ written, Spells written value ∧ text = written ++ 0x22 :: rest := by
  constructor
  · intro h
    obtain ⟨written, read, hspells, htext, rfl⟩ := exists_spells h
    exact ⟨written, hspells, htext⟩
  · rintro ⟨written, hspells, rfl⟩
    exact readStringFrom_append hspells [] rest

/-! ## Strings as they are written -/

/-- What the reader takes for a byte as it is written: the characters of its escape behind the
backslash, or the byte itself. -/
def readsAs (b : UInt8) : Bytes :=
  match escapeByte b with
  | 0x5C :: characters => characters
  | plain => plain

theorem lower_ne_mark {d : UInt8} (h : d < 0x10) : Hex.lower d ≠ 0x22 ∧ Hex.lower d ≠ 0x5C := by
  grind [Hex.lower]

theorem high_lt (b : UInt8) : b >>> 4 < 0x10 := by
  have hb := b.toNat_lt
  have hshift : (b >>> 4).toNat = b.toNat / 16 := Nat.shiftRight_eq_div_pow _ 4
  rw [UInt8.lt_iff_toNat_lt, hshift]
  exact Nat.div_lt_of_lt_mul hb

theorem low_lt (b : UInt8) : b &&& 0x0F < 0x10 := by
  rw [UInt8.lt_iff_toNat_lt, UInt8.toNat_and]
  exact Nat.lt_of_le_of_lt Nat.and_le_right (by decide)

theorem spells_escapeByte (b : UInt8) : Spells (escapeByte b) (readsAs b) := by
  rw [readsAs, escapeByte]
  split_ifs with hquote hbackslash hnewline hreturn htab hcontrol
  · exact .escaped _ .done
  · exact .escaped _ .done
  · exact .escaped _ .done
  · exact .escaped _ .done
  · exact .escaped _ .done
  · obtain ⟨hhigh, hhigh'⟩ := lower_ne_mark (high_lt b)
    obtain ⟨hlow, hlow'⟩ := lower_ne_mark (low_lt b)
    exact .escaped _ (.plain (by decide) (by decide) (.plain (by decide) (by decide)
      (.plain hhigh hhigh' (.plain hlow hlow' .done))))
  · rw [beq_iff_eq] at hquote hbackslash
    split
    · rename_i heq
      exact absurd (List.cons.inj heq).1 hbackslash
    · exact .plain hquote hbackslash .done

theorem spells_escape (text : Bytes) : Spells (escape text) (text.flatMap readsAs) := by
  induction text with
  | nil => exact .done
  | cons b text ih =>
      rw [escape, List.flatMap_cons, List.flatMap_cons]
      exact (spells_escapeByte b).append ih

/-- A written string is read to its end, byte by byte. -/
theorem readString?_string (text rest : Bytes) :
    readString? (string text ++ rest) = some (text.flatMap readsAs, rest) := by
  have hquote : string text ++ rest = 0x22 :: (escape text ++ 0x22 :: rest) := by
    simp [string, quoted]
  have htrim : trimLeft (string text ++ rest) = string text ++ rest := by
    rw [hquote, trimLeft, List.dropWhile_cons_of_neg (by decide)]
  rw [readString?, htrim, hquote]
  exact readStringFrom_append (spells_escape text) [] rest

theorem readsAs_of_le (h : 0x20 ≤ b) : readsAs b = [b] := by
  grind [readsAs, escapeByte]

/-- The control bytes with an escape of one character, and that character. -/
def shortEscapes : List (UInt8 × UInt8) :=
  [(0x0A, 0x6E), (0x0D, 0x72), (0x09, 0x74)]

/-- A control byte comes back as the character of its escape, or as the `u` and the digits of a
numbered one. -/
theorem readsAs_of_lt (h : b < 0x20) :
    (∃ escape ∈ shortEscapes, escape.1 = b ∧ readsAs b = [escape.2]) ∨
      (∀ escape ∈ shortEscapes, escape.1 ≠ b) ∧ ∃ digits, readsAs b = 0x75 :: 0x30 :: digits := by
  by_cases hshort : ∃ escape ∈ shortEscapes, escape.1 = b
  · obtain ⟨escape, hmem, rfl⟩ := hshort
    have hreads : ∀ escape ∈ shortEscapes, readsAs escape.1 = [escape.2] :=
      List.all_iff_forall_prop.mp (by decide)
    exact .inl ⟨escape, hmem, rfl, hreads escape hmem⟩
  · have hnone : ∀ escape ∈ shortEscapes, escape.1 ≠ b := fun e hmem heq => hshort ⟨e, hmem, heq⟩
    have hne : b ≠ 0x0A ∧ b ≠ 0x0D ∧ b ≠ 0x09 := by
      simpa [shortEscapes, eq_comm] using hnone
    refine .inr ⟨hnone, [0x30, Hex.lower (b >>> 4), Hex.lower (b &&& 0x0F)], ?_⟩
    grind [readsAs, escapeByte]

/-- So it comes back as something else. -/
theorem exists_readsAs_of_lt (h : b < 0x20) : ∃ c more, readsAs b = c :: more ∧ c ≠ b := by
  rcases readsAs_of_lt h with ⟨escape, hmem, rfl, hread⟩ | ⟨-, digits, hread⟩
  · have hne : ∀ escape ∈ shortEscapes, escape.2 ≠ escape.1 :=
      List.all_iff_forall_prop.mp (by decide)
    exact ⟨_, _, hread, hne escape hmem⟩
  · refine ⟨_, _, hread, ?_⟩
    rintro rfl
    exact absurd h (by decide)

/-- A text comes back as it was exactly when it has no control bytes. -/
theorem flatMap_readsAs_eq_self_iff : text.flatMap readsAs = text ↔ ∀ b ∈ text, 0x20 ≤ b := by
  induction text with
  | nil => simp
  | cons b text ih =>
      rw [List.flatMap_cons, List.forall_mem_cons]
      by_cases hb : 0x20 ≤ b
      · rw [readsAs_of_le hb, ← ih]
        simp [hb]
      · obtain ⟨c, more, hreads, hne⟩ := exists_readsAs_of_lt (UInt8.not_le.mp hb)
        rw [hreads]
        refine iff_of_false ?_ fun h => hb h.1
        intro heq
        exact hne (List.cons.inj heq).1

/-- A byte is read as one character, or as the characters of a numbered escape. -/
theorem readsAs_cases (b : UInt8) :
    (∃ c, readsAs b = [c]) ∨ (readsAs b).head? = some 0x75 := by
  by_cases hb : 0x20 ≤ b
  · exact .inl ⟨b, readsAs_of_le hb⟩
  · rcases readsAs_of_lt (UInt8.not_le.mp hb) with ⟨escape, -, -, hread⟩ | ⟨-, digits, hread⟩
    · exact .inl ⟨_, hread⟩
    · exact .inr (congrArg List.head? hread)

/-- Apart from itself, a character can come back from a newline, a carriage return or a tab. -/
theorem readsAs_eq_singleton_iff {c : UInt8} (hc : 0x20 ≤ c) :
    readsAs b = [c] ↔ b = c ∨ (b, c) ∈ shortEscapes := by
  by_cases hb : 0x20 ≤ b
  · have hnone : (b, c) ∉ shortEscapes := by
      intro hmem
      have hlt : ∀ escape ∈ shortEscapes, escape.1 < 0x20 :=
        List.all_iff_forall_prop.mp (by decide)
      exact UInt8.not_le.mpr (hlt _ hmem) hb
    rw [readsAs_of_le hb, List.singleton_inj, or_iff_left hnone]
  · have hne : b ≠ c := by
      rintro rfl
      exact hb hc
    rw [or_iff_right hne]
    have hnodup : (shortEscapes.map Prod.fst).Nodup := by decide
    rcases readsAs_of_lt (UInt8.not_le.mp hb) with
      ⟨escape, hmem, rfl, hread⟩ | ⟨hnone, digits, hread⟩
    · rw [hread, List.singleton_inj]
      constructor
      · rintro rfl
        exact hmem
      · intro hmem'
        exact congrArg Prod.snd (List.inj_on_of_nodup_map hnodup hmem hmem' rfl)
    · refine iff_of_false ?_ fun hmem => hnone _ hmem rfl
      rw [hread]
      exact fun h => List.cons_ne_nil _ _ (List.cons.inj h).2

/-- Which texts come back as a word without control bytes and without a `u`: byte by byte its
characters, or control bytes whose escapes end in them. -/
theorem flatMap_readsAs_eq_iff {word : Bytes} (hword : ∀ c ∈ word, 0x20 ≤ c ∧ c ≠ 0x75) :
    text.flatMap readsAs = word ↔
      List.Forall₂ (fun b c => b = c ∨ (b, c) ∈ shortEscapes) text word := by
  constructor
  · intro h
    induction text generalizing word with
    | nil =>
        subst h
        exact .nil
    | cons b text ih =>
        rw [List.flatMap_cons] at h
        rcases readsAs_cases b with ⟨c, hread⟩ | hnumbered
        · subst h
          rw [hread, List.singleton_append, List.forall_mem_cons] at hword
          rw [hread]
          exact .cons ((readsAs_eq_singleton_iff hword.1.1).mp hread) (ih hword.2 rfl)
        · have hmem : (0x75 : UInt8) ∈ word := by
            rw [← h]
            exact List.mem_append_left _ (List.mem_of_mem_head? hnumbered)
          exact absurd rfl (hword _ hmem).2
  · intro h
    induction h with
    | nil => rfl
    | cons hread _ ih =>
        rw [List.forall_mem_cons] at hword
        rw [List.flatMap_cons, (readsAs_eq_singleton_iff hword.1.1).mpr hread, ih hword.2]
        rfl

/-! ## Tokens -/

/-- Tokens one behind the other, each with blanks in front of it, and then what follows. -/
inductive Spaced (rest : Bytes) : List Bytes → Bytes → Prop
  | nil : Spaced rest [] rest
  | cons {blanks : Bytes} (hblanks : ∀ b ∈ blanks, isBlank b = true) (token : Bytes)
      {tokens : List Bytes} {text : Bytes} :
      Spaced rest tokens text → Spaced rest (token :: tokens) (blanks ++ (token ++ text))

theorem spaced_singleton_iff : Spaced rest [token] text ↔
    ∃ blanks, (∀ b ∈ blanks, isBlank b = true) ∧ text = blanks ++ (token ++ rest) := by
  constructor
  · rintro ⟨⟩
    rename_i blanks hblanks tail htail
    cases htail
    exact ⟨blanks, hblanks, rfl⟩
  · rintro ⟨blanks, hblanks, rfl⟩
    exact .cons hblanks token .nil

theorem spaced_append_iff : Spaced rest (tokens ++ more) text ↔
    ∃ middle, Spaced middle tokens text ∧ Spaced rest more middle := by
  constructor
  · intro h
    induction tokens generalizing text with
    | nil => exact ⟨text, .nil, h⟩
    | cons token tokens ih =>
        cases h with
        | cons hblanks _ htail =>
            obtain ⟨middle, hmiddle, hrest⟩ := ih htail
            exact ⟨middle, .cons hblanks token hmiddle, hrest⟩
  · rintro ⟨middle, hmiddle, hrest⟩
    induction hmiddle with
    | nil => exact hrest
    | cons hblanks token _ ih => exact .cons hblanks token ih

theorem spaced_cons_iff : Spaced rest (token :: tokens) text ↔
    ∃ middle, Spaced middle [token] text ∧ Spaced rest tokens middle := by
  rw [← List.singleton_append]
  exact spaced_append_iff

/-- What is left of a text that has something else than blanks begins with that. -/
theorem trimLeft_eq_cons_iff (hb : isBlank b = false) :
    trimLeft text = b :: rest ↔ Spaced rest [[b]] text := by
  rw [spaced_singleton_iff, trimLeft]
  constructor
  · intro h
    refine ⟨text.takeWhile isBlank, fun c hc => List.mem_takeWhile_imp hc, ?_⟩
    rw [List.singleton_append, ← h, List.takeWhile_append_dropWhile]
  · rintro ⟨blanks, hblanks, rfl⟩
    rw [List.dropWhile_append_of_pos hblanks]
    exact List.dropWhile_cons_of_neg (by simp [hb])

/-- A mark is taken with the blanks in front of it. -/
theorem readMark?_eq_some_iff (hmark : isBlank mark = false) :
    readMark? mark text = some rest ↔ Spaced rest [[mark]] text := by
  rw [← trimLeft_eq_cons_iff hmark, readMark?]
  split
  · rename_i b tail htrim
    rw [htrim, List.cons.injEq]
    split
    · rename_i heq
      rw [beq_iff_eq] at heq
      simp [heq]
    · rename_i hne
      rw [beq_iff_eq] at hne
      simp [hne]
  · rename_i htrim
    simp [htrim]

/-- Where another mark stands, none is taken. -/
theorem readMark?_eq_none {other : UInt8} (h : Spaced rest [[other]] text)
    (hother : isBlank other = false) (hne : other ≠ mark) : readMark? mark text = none := by
  rw [readMark?, (trimLeft_eq_cons_iff hother).mpr h]
  exact if_neg (by simpa using hne)

theorem spaced_quoted_iff : Spaced rest [quoted written] text ↔
    trimLeft text = 0x22 :: (written ++ 0x22 :: rest) := by
  rw [trimLeft_eq_cons_iff (by decide), spaced_singleton_iff, spaced_singleton_iff]
  simp [quoted]

/-- Where a string stands, no mark is taken. -/
theorem readMark?_eq_none_of_quoted (h : Spaced rest [quoted written] text) (hne : mark ≠ 0x22) :
    readMark? mark text = none := by
  rw [readMark?, spaced_quoted_iff.mp h]
  exact if_neg (by simpa using hne.symm)

/-- A string is taken with the blanks in front of it. -/
theorem readString?_eq_some_iff : readString? text = some (value, rest) ↔
    ∃ written, Spells written value ∧ Spaced rest [quoted written] text := by
  simp only [spaced_quoted_iff]
  rw [readString?]
  split
  · rename_i tail htrim
    rw [htrim, readStringFrom_eq_some_iff]
    simp
  · rename_i hnone
    constructor
    · intro h
      cases h
    · rintro ⟨written, -, htrim⟩
      exact absurd htrim (hnone _)

/-! ## Scalars -/

/-- The forms in which a scalar is written: a string in any of its spellings, a bare value as it
is. -/
inductive Scalar.IsWritten : Scalar → Bytes → Prop
  | quoted {written text : Bytes} :
      Spells written text → IsWritten (.quoted text) (Bytes.quoted written)
  | bare {text : Bytes} (hne : text ≠ []) (hbare : ∀ b ∈ text, isBare b = true) :
      IsWritten (.bare text) text

/-- What follows does not prolong the scalar. -/
def Scalar.Stops (rest : Bytes) : Scalar → Prop
  | .quoted _ => True
  | .bare _ => ∀ b ∈ rest.head?, isBare b = false

/-- A bare value begins neither with a blank nor like a string. -/
theorem not_isBlank_of_isBare (h : isBare b = true) : isBlank b = false ∧ b ≠ 0x22 := by
  grind [isBare, isLetter, isDigit, isBlank]

theorem readScalar?_eq_quoted_iff :
    readScalar? text = some (.quoted value, rest) ↔ readString? text = some (value, rest) := by
  rw [readScalar?, readString?]
  split
  · simp
  · simp only [reduceCtorEq, iff_false]
    split
    · simp
    · simp

theorem readScalar?_eq_bare_iff : readScalar? text = some (.bare value, rest) ↔
    value ≠ [] ∧ (∀ b ∈ value, isBare b = true) ∧ Spaced rest [value] text ∧
      ∀ b ∈ rest.head?, isBare b = false := by
  constructor
  · intro h
    rw [readScalar?] at h
    split at h
    · obtain ⟨read, -, ⟨⟩⟩ := Option.map_eq_some_iff.mp h
    · simp only at h
      split at h
      · cases h
      · rename_i hne
        cases h
        refine ⟨by simpa using hne, fun b hb => List.mem_takeWhile_imp hb, ?_, ?_⟩
        · rw [spaced_singleton_iff]
          refine ⟨text.takeWhile isBlank, fun b hb => List.mem_takeWhile_imp hb, ?_⟩
          rw [List.takeWhile_append_dropWhile, trimLeft, List.takeWhile_append_dropWhile]
        · intro b hb
          have hhead := List.head?_dropWhile_not isBare (trimLeft text)
          rw [hb] at hhead
          exact hhead
  · rintro ⟨hne, hbare, hspaced, hstops⟩
    obtain ⟨htake, hdrop⟩ := takeWhile_dropWhile_append hbare hstops
    obtain ⟨b, more, rfl⟩ := List.exists_cons_of_ne_nil hne
    obtain ⟨hblank, hquote⟩ := not_isBlank_of_isBare (hbare b List.mem_cons_self)
    have htrim : trimLeft text = b :: more ++ rest := by
      rw [List.cons_append, trimLeft_eq_cons_iff hblank, spaced_singleton_iff]
      simpa using spaced_singleton_iff.mp hspaced
    rw [readScalar?, htrim]
    split
    · rename_i tail heq
      exact absurd (List.cons.inj heq).1 hquote
    · simp only [htake, hdrop]
      rfl

/-- A scalar is taken with the blanks in front of it, and a bare one up to its end. -/
theorem readScalar?_eq_some_iff {value : Scalar} : readScalar? text = some (value, rest) ↔
    ∃ token, value.IsWritten token ∧ Spaced rest [token] text ∧ value.Stops rest := by
  cases value with
  | quoted value =>
      rw [readScalar?_eq_quoted_iff, readString?_eq_some_iff]
      constructor
      · rintro ⟨written, hspells, hspaced⟩
        exact ⟨_, .quoted hspells, hspaced, trivial⟩
      · rintro ⟨_, ⟨hspells⟩, hspaced, -⟩
        exact ⟨_, hspells, hspaced⟩
  | bare value =>
      rw [readScalar?_eq_bare_iff]
      constructor
      · rintro ⟨hne, hbare, hspaced, hstops⟩
        exact ⟨value, .bare hne hbare, hspaced, hstops⟩
      · rintro ⟨_, ⟨⟩ | ⟨hne, hbare⟩, hspaced, hstops⟩
        exact ⟨hne, hbare, hspaced, hstops⟩

/-! ## Objects -/

/-- The tokens of a member, a key and its value. -/
inductive IsMember : Bytes × Scalar → List Bytes → Prop
  | intro {written key token : Bytes} {value : Scalar} (hkey : Spells written key)
      (hvalue : value.IsWritten token) : IsMember (key, value) [quoted written, [0x3A], token]

/-- An object with the given members in their order: between braces, with commas between them and
blanks wherever tokens meet, and nothing else. -/
def IsObject (members : List (Bytes × Scalar)) (text : Bytes) : Prop :=
  ∃ parts blanks, List.Forall₂ IsMember members parts ∧ (∀ b ∈ blanks, isBlank b = true) ∧
    Spaced blanks ([0x7B] :: [[0x2C]].intercalate parts ++ [[0x7D]]) text

/-! ## Objects as they are written -/

/-- A scalar as it is written. -/
def Scalar.write : Scalar → Bytes
  | .quoted text => string text
  | .bare text => text

/-- What is read of a written scalar. -/
def Scalar.readBack : Scalar → Scalar
  | .quoted text => .quoted (text.flatMap readsAs)
  | .bare text => .bare text

/-- A bare value has characters, and only such as bare values have. -/
def Scalar.IsLegible : Scalar → Prop
  | .quoted _ => True
  | .bare text => text ≠ [] ∧ ∀ b ∈ text, isBare b = true

/-- What is read of a written member. -/
def readBack (given : Bytes × Scalar) : Bytes × Scalar :=
  (given.1.flatMap readsAs, given.2.readBack)

/-- The tokens of a member as it is written. -/
def tokensOf (given : Bytes × Scalar) : List Bytes :=
  [string given.1, [0x3A], given.2.write]

theorem isMember_tokensOf {given : Bytes × Scalar} (h : given.2.IsLegible) :
    IsMember (readBack given) (tokensOf given) := by
  obtain ⟨key, value⟩ := given
  cases value with
  | quoted text => exact .intro (spells_escape key) (.quoted (spells_escape text))
  | bare text => exact .intro (spells_escape key) (.bare h.1 h.2)

/-- Tokens without blanks between them. -/
theorem spaced_flatten (tokens : List Bytes) (rest : Bytes) :
    Spaced rest tokens (tokens.flatten ++ rest) := by
  induction tokens with
  | nil => exact .nil
  | cons token tokens ih =>
      rw [List.flatten_cons, List.append_assoc]
      exact .cons (List.forall_mem_nil _) token ih

theorem flatten_intercalate (parts : List (List Bytes)) :
    ([[0x2C]].intercalate parts).flatten = join [0x2C] (parts.map List.flatten) := by
  induction parts with
  | nil => rfl
  | cons part parts ih =>
      by_cases hlast : parts = []
      · subst hlast
        simp [join]
      · rw [List.intercalate_cons_of_ne_nil hlast, List.map_cons,
          join_cons (by simpa using hlast), List.flatten_append, List.flatten_append, ih,
          List.append_assoc]
        rfl

/-- A written object is an object with the members that are read of those written. -/
theorem isObject_object {given : List (Bytes × Scalar)}
    (h : ∀ member ∈ given, member.2.IsLegible) :
    IsObject (given.map readBack) (object (given.map fun m => member m.1 m.2.write)) := by
  have htext : object (given.map fun m => member m.1 m.2.write)
      = ([0x7B] :: [[0x2C]].intercalate (given.map tokensOf) ++ [[0x7D]]).flatten ++ [] := by
    have hmembers : (given.map tokensOf).map List.flatten
        = given.map fun m => member m.1 m.2.write := by
      rw [List.map_map]
      refine List.map_congr_left fun m _ => ?_
      simp [tokensOf, member]
    rw [List.append_nil, List.cons_append, List.flatten_cons, List.flatten_append,
      flatten_intercalate, hmembers, object]
    rfl
  refine ⟨given.map tokensOf, [], ?_, List.forall_mem_nil _, ?_⟩
  · rw [List.forall₂_map_left_iff, List.forall₂_map_right_iff, List.forall₂_same]
    intro m hm
    exact isMember_tokensOf (h m hm)
  · rw [htext]
    exact spaced_flatten _ []

end Json

end ResolverLog
