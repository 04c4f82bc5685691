import ResolverLog.Proofs.Decimal
import ResolverLog.Proofs.JsonGrammar
import ResolverLog.Proofs.Lookup
import Mathlib.Data.Bool.AllAny
import Mathlib.Data.List.Forall2

/-!
# JSON texts as they are written

What is written is JSON without control bytes and denotes what was to be
written: strings with any bytes in them by way of their escapes, numbers, and
arrays and objects with one phrase for each item, in their order. A string of
plain characters needs no escapes.
-/

namespace ResolverLog

namespace Json

open Bytes

/-- The text reads as the phrase and has no control bytes. -/
structure Writes (p : Phrase) (text : Bytes) : Prop where
  reads : Reads p text
  printable : ∀ b ∈ text, 0x20 ≤ b

variable {text : Bytes} {v : Value}

/-! ## Strings -/

/-- A control byte is the character that its four digits number. -/
theorem unit?_control {b : UInt8} (h : b.toNat < 32) :
    unit? [0x30, 0x30, Hex.lower (b >>> 4), Hex.lower (b &&& 0x0F)]
        = some (Char.ofNat b.toNat).toNat ∧
      String.utf8EncodeChar (Char.ofNat b.toNat) = [b] :=
  forall_of_forall_ofNat (fun b => unit? [0x30, 0x30, Hex.lower (b >>> 4), Hex.lower (b &&& 0x0F)]
      = some (Char.ofNat b.toNat).toNat ∧
    String.utf8EncodeChar (Char.ofNat b.toNat) = [b]) (by decide) h

theorem character_escapeByte (b : UInt8) : Character (escapeByte b) [b] := by
  rw [escapeByte]
  split_ifs with hquote hbackslash hnewline hreturn htab hcontrol
  all_goals simp only [beq_iff_eq] at *
  · exact .short (by rw [hquote]; decide)
  · exact .short (by rw [hbackslash]; decide)
  · exact .short (by rw [hnewline]; decide)
  · exact .short (by rw [hreturn]; decide)
  · exact .short (by rw [htab]; decide)
  · obtain ⟨hunit, hbytes⟩ := unit?_control (UInt8.lt_iff_toNat_lt.mp hcontrol)
    rw [← hbytes]
    exact .unit hunit
  · exact .plain (UInt8.not_lt.mp hcontrol) hquote hbackslash

theorem characters_escape (text : Bytes) : Characters (escape text) text := by
  induction text with
  | nil => exact .nil
  | cons b text ih =>
      rw [escape, List.flatMap_cons]
      exact .cons (character_escapeByte b) ih

/-- The characters of strings that need no escape. -/
def isPlain (b : UInt8) : Bool :=
  0x20 ≤ b && b != 0x22 && b != 0x5C

theorem characters_of_isPlain (h : ∀ b ∈ text, isPlain b = true) : Characters text text := by
  induction text with
  | nil => exact .nil
  | cons b text ih =>
      rw [List.forall_mem_cons] at h
      obtain ⟨hb, htext⟩ := h
      simp only [isPlain, Bool.and_eq_true, decide_eq_true_eq, bne_iff_ne] at hb
      exact .cons (.plain hb.1.1 hb.1.2 hb.2) (ih htext)

theorem le_of_digit? {b d : UInt8} (h : Hex.digit? b = some d) : 0x20 ≤ b := by
  grind [Hex.digit?]

theorem printable_of_unit? {digits : Bytes} {n : Nat} (h : unit? digits = some n) :
    ∀ b ∈ digits, 0x20 ≤ b := by
  match digits with
  | [] | [_] | [_, _] | [_, _, _] | _ :: _ :: _ :: _ :: _ :: _ => cases h
  | [a, b, c, d] =>
      simp only [unit?, Option.bind_eq_bind, Option.bind_eq_some_iff] at h
      obtain ⟨_, ha, _, hb, _, hc, _, hd, -⟩ := h
      simp only [List.forall_mem_cons]
      exact ⟨le_of_digit? ha, le_of_digit? hb, le_of_digit? hc, le_of_digit? hd, nofun⟩

theorem Character.printable {written : Bytes} (h : Character written text) :
    ∀ b ∈ written, 0x20 ≤ b := by
  cases h with
  | plain control => simpa using control
  | @short mark b hescape =>
      have hmem : (mark, b) ∈ escapes := Lookup.mem_of_lookup hescape
      have hmarks : ∀ escape ∈ escapes, 0x20 ≤ escape.1 :=
        List.all_iff_forall_prop.mp (by decide)
      simp only [List.forall_mem_cons]
      exact ⟨by decide, hmarks _ hmem, nofun⟩
  | unit hunit =>
      simp only [List.forall_mem_cons]
      exact ⟨by decide, by decide, printable_of_unit? hunit⟩
  | pair hhigh hlow =>
      simp only [List.forall_mem_cons, List.forall_mem_append]
      exact ⟨by decide, by decide, printable_of_unit? hhigh, by decide, by decide,
        printable_of_unit? hlow⟩

/-- Nothing that stands between the quotes of a string is a control byte. -/
theorem Characters.printable {written : Bytes} (h : Characters written text) :
    ∀ b ∈ written, 0x20 ≤ b := by
  induction h with
  | nil => exact nofun
  | cons hcharacter _ ih => exact List.forall_mem_append.mpr ⟨hcharacter.printable, ih⟩

/-- A string between its quotes. -/
theorem Writes.string {written : Bytes} (h : Characters written text) :
    Writes (.value (.string text)) (quoted written) := by
  refine ⟨.string h, ?_⟩
  simp only [quoted, List.cons_append, List.forall_mem_cons, List.forall_mem_append]
  exact ⟨by decide, h.printable, by decide, nofun⟩

theorem writes_string (text : Bytes) : Writes (.value (.string text)) (string text) :=
  .string (characters_escape text)

theorem writes_quoted (h : ∀ b ∈ text, isPlain b = true) :
    Writes (.value (.string text)) (quoted text) :=
  .string (characters_of_isPlain h)

/-! ## Numbers -/

theorem head?_ofNat_ne {n : Nat} (h : n ≠ 0) : (Decimal.ofNat n).head? ≠ some 0x30 := by
  fun_induction Decimal.ofNat n with
  | case1 n hlt =>
      intro hhead
      have hdigit := congrArg UInt8.toNat (Option.some.inj hhead)
      rw [Decimal.toNat_digit hlt] at hdigit
      exact h (by simpa using hdigit)
  | case2 n hlt ih =>
      rw [List.head?_append_of_ne_nil _ (Decimal.ofNat_ne_nil _)]
      exact ih (by omega)

theorem isWhole_ofNat (n : Nat) : IsWhole (Decimal.ofNat n) := by
  by_cases hn : n = 0
  · rw [hn, Decimal.ofNat, if_pos (by decide)]
    exact .zero
  · obtain ⟨first, rest, hcons⟩ := List.exists_cons_of_ne_nil (Decimal.ofNat_ne_nil n)
    have hdigits : IsDigits (Decimal.ofNat n) :=
      ⟨Decimal.ofNat_ne_nil n, List.all_eq_true.mp (Decimal.all_isDigit_ofNat n)⟩
    have hfirst := head?_ofNat_ne hn
    rw [hcons] at hdigits hfirst ⊢
    exact .digits hdigits fun heq => hfirst (congrArg some heq)

theorem isNumber_ofInt (n : Int) : IsNumber (Decimal.ofInt n) := by
  cases n with
  | ofNat n =>
      have hnumber := @IsNumber.mk [] _ _ _ (by decide) (isWhole_ofNat n) .none .none
      simpa [Decimal.ofInt] using hnumber
  | negSucc n =>
      have hnumber := @IsNumber.mk [0x2D] _ _ _ (by decide) (isWhole_ofNat (n + 1)) .none .none
      simpa [Decimal.ofInt] using hnumber

/-- The characters of numbers are not control bytes. -/
theorem printable_of_isNumeric {b : UInt8} (h : isNumeric b = true) : 0x20 ≤ b := by
  grind [isNumeric, isDigit]

theorem writes_number (h : IsNumber text) : Writes (.value (.number text)) text :=
  ⟨.number h, fun b hb => printable_of_isNumeric (h.isNumeric b hb)⟩

theorem writes_ofInt (n : Int) : Writes (.value (.number (Decimal.ofInt n))) (Decimal.ofInt n) :=
  writes_number (isNumber_ofInt n)

/-! ## Arrays and objects -/

theorem Writes.element (h : Writes (.value v) text) : Writes (.element v) text := by
  refine ⟨?_, h.printable⟩
  have helement := @Reads.element _ [] _ [] nofun h.reads nofun
  simpa using helement

theorem Writes.member (h : Writes (.value v) text) (key : Bytes) :
    Writes (.member key v) (member key text) := by
  constructor
  · have hmember := @Reads.member _ [] _ [] _ _ nofun (characters_escape key) nofun h.element.reads
    simpa [Json.member, Json.string, quoted] using hmember
  · rw [Json.member, List.forall_mem_append, List.forall_mem_cons]
    exact ⟨(writes_string key).printable, by decide, h.printable⟩

/-- Phrases joined with commas are a row of them, given how a row is built up. -/
theorem writes_join {α : Type} {phrase : α → Phrase} {row : List α → Phrase}
    (hlast : ∀ a text, Reads (phrase a) text → Reads (row [a]) text)
    (hnext : ∀ a more text rest, Reads (phrase a) text → Reads (row more) rest →
      Reads (row (a :: more)) (text ++ 0x2C :: rest))
    {items : List α} {texts : List Bytes}
    (h : List.Forall₂ (fun a text => Writes (phrase a) text) items texts) (hne : items ≠ []) :
    Writes (row items) (join [0x2C] texts) := by
  induction h with
  | nil => exact absurd rfl hne
  | @cons a text items texts hitem hmore ih =>
      cases hmore with
      | nil =>
          rw [join, List.intercalate_singleton]
          exact ⟨hlast a text hitem.reads, hitem.printable⟩
      | cons hsecond hothers =>
          have hrest := ih (List.cons_ne_nil _ _)
          rw [join_cons (List.cons_ne_nil _ _)]
          refine ⟨hnext a _ text _ hitem.reads hrest.reads, ?_⟩
          rw [List.forall_mem_append, List.forall_mem_cons]
          exact ⟨hitem.printable, by decide, hrest.printable⟩

/-- The texts of values, in their order, are an array of them. -/
theorem writes_array {items : List Value} {texts : List Bytes}
    (h : List.Forall₂ (fun v text => Writes (.value v) text) items texts) :
    Writes (.value (.array items)) (array texts) := by
  cases items with
  | nil =>
      cases h
      exact ⟨@Reads.noItems [] nofun, by decide +kernel⟩
  | cons v items =>
      have hitems := writes_join (fun _ _ => .lastElement) (fun _ _ _ _ => .nextElement)
        (h.imp fun _ _ hvalue => hvalue.element) (List.cons_ne_nil v items)
      refine ⟨.array hitems.reads, ?_⟩
      simp only [array, List.cons_append, List.forall_mem_cons, List.forall_mem_append]
      exact ⟨by decide, hitems.printable, by decide, nofun⟩

/-- The texts of members, in their order, are an object with these members. -/
theorem writes_object {members : List (Bytes × Value)} {texts : List Bytes}
    (h : List.Forall₂ (fun m text => Writes (.member m.1 m.2) text) members texts) :
    Writes (.value (.object members)) (object texts) := by
  cases members with
  | nil =>
      cases h
      exact ⟨@Reads.noMembers [] nofun, by decide +kernel⟩
  | cons m members =>
      have hmembers := writes_join (fun _ _ => .lastMember) (fun _ _ _ _ => .nextMember) h
        (List.cons_ne_nil m members)
      refine ⟨.object hmembers.reads, ?_⟩
      simp only [object, List.cons_append, List.forall_mem_cons, List.forall_mem_append]
      exact ⟨by decide, hmembers.printable, by decide, nofun⟩

/-- What is written for a value denotes it and nothing else. -/
theorem Writes.denotes_iff (h : Writes (.value v) text) {w : Value} :
    Denotes text w ↔ w = v := by
  constructor
  · intro hdenotes
    exact Denotes.unique hdenotes h.element.reads
  · rintro rfl
    exact h.element.reads

end Json

end ResolverLog
