import ResolverLog.Bytes
import Mathlib.Data.List.TakeWhile

/-!
# Patterns with groups

A pattern is searched for with all the ways in which it can go on, the preferred
one first: what may stay away is taken if it can be, and a repetition goes on as
long as it can. The first way that reaches the end is the match, and what stood
at its groups is what the match is asked for.

The order of the ways matters only where several of them get through. So the
lemmas say which there are, and not in which order.
-/

namespace ResolverLog

open Bytes

/-- A pattern over bytes. -/
inductive Pattern
  /-- These bytes. -/
  | text (bytes : Bytes)
  /-- One byte of a class. -/
  | one (p : UInt8 → Bool)
  /-- As many bytes of a class as possible within the bounds. -/
  | many (p : UInt8 → Bool) (least : Nat) (most : Option Nat)
  /-- One behind the other. -/
  | seq (first second : Pattern)
  /-- The first, or else the second. -/
  | either (first second : Pattern)
  /-- The part, or else nothing. -/
  | maybe (part : Pattern)
  /-- The part, and what it stands at is remembered. -/
  | group (i : Nat) (part : Pattern)
  /-- Nothing, at a place where the part does not stand ahead. -/
  | notAhead (part : Pattern)
  /-- Nothing, between a byte of a word and one that is not or an end. -/
  | wordEdge
  /-- Nothing, at the start. -/
  | atStart
  /-- Nothing, at the end. -/
  | atEnd

/-- How far a search has come. -/
structure Walk where
  /-- The bytes behind, in reverse. -/
  passed : Bytes
  /-- The bytes ahead. -/
  rest : Bytes
  /-- What the groups stood at, the latest first. -/
  groups : List (Nat × Bytes)
  deriving DecidableEq, Repr

namespace Walk

variable {w w' : Walk} {run rest text : Bytes}

/-- At the start of a text. -/
def start (text : Bytes) : Walk := ⟨[], text, []⟩

/-- Beyond some more bytes. -/
def past (w : Walk) (run rest : Bytes) : Walk := ⟨run.reverse ++ w.passed, rest, w.groups⟩

@[simp] theorem rest_past (w : Walk) (run rest : Bytes) : (w.past run rest).rest = rest := rfl

@[simp] theorem groups_past (w : Walk) (run rest : Bytes) :
    (w.past run rest).groups = w.groups := rfl

theorem past_past (w : Walk) (run run' rest rest' : Bytes) :
    (w.past run rest).past run' rest' = w.past (run ++ run') rest' := by
  simp [past]

/-- With one more group. -/
def remember (w : Walk) (i : Nat) (text : Bytes) : Walk :=
  { w with groups := (i, text) :: w.groups }

@[simp] theorem rest_remember (w : Walk) (i : Nat) (text : Bytes) :
    (w.remember i text).rest = w.rest := rfl

@[simp] theorem groups_remember (w : Walk) (i : Nat) (text : Bytes) :
    (w.remember i text).groups = (i, text) :: w.groups := rfl

/-- What a group stood at, if it took part. -/
def group? (w : Walk) (i : Nat) : Option Bytes :=
  w.groups.lookup i

/-- Letters, digits and the underscore make words. -/
def isWordByte (b : UInt8) : Bool :=
  isLetter b || isDigit b || b == 0x5F

/-- A word begins or ends here. -/
def atWordEdge (w : Walk) : Bool :=
  w.passed.head?.any isWordByte != w.rest.head?.any isWordByte

end Walk

namespace Pattern

variable {w w' : Walk} {p : UInt8 → Bool} {least i : Nat} {most : Option Nat}
  {first second part : Pattern}

/-- How many bytes of a class can be taken, the most first. -/
def lengths (p : UInt8 → Bool) (least : Nat) (most : Option Nat) (text : Bytes) : List Nat :=
  let all := (text.takeWhile p).length
  let longest := match most with
    | some most => min most all
    | none => all
  (List.range (longest + 1)).reverse.filter (least ≤ ·)

/-- The ways in which a search can go on behind a pattern, the preferred first. -/
def runs : Pattern → Walk → List Walk
  | text bytes, w =>
    if bytes.isPrefixOf w.rest then [w.past bytes (w.rest.drop bytes.length)] else []
  | one p, w =>
    match w.rest with
    | b :: rest => if p b then [w.past [b] rest] else []
    | [] => []
  | many p least most, w =>
    (lengths p least most w.rest).map fun n => w.past (w.rest.take n) (w.rest.drop n)
  | seq first second, w => (first.runs w).flatMap second.runs
  | either first second, w => first.runs w ++ second.runs w
  | maybe part, w => part.runs w ++ [w]
  | group i part, w =>
    (part.runs w).map fun w' => w'.remember i (w.rest.take (w.rest.length - w'.rest.length))
  | notAhead part, w => if (part.runs w).isEmpty then [w] else []
  | wordEdge, w => if w.atWordEdge then [w] else []
  | atStart, w => if w.passed.isEmpty then [w] else []
  | atEnd, w => if w.rest.isEmpty then [w] else []

/-- The way in which a pattern matches a text, if it does. -/
def match? (pattern : Pattern) (text : Bytes) : Option Walk :=
  (pattern.runs (.start text)).head?

/-- The pattern stands at these runs of bytes, whatever there is around them. -/
def Reads (part : Pattern) (IsRun : Bytes → Prop) : Prop :=
  ∀ w w' : Walk, w' ∈ part.runs w ↔
    ∃ run, IsRun run ∧ w.rest = run ++ w'.rest ∧ w' = w.past run w'.rest

theorem reads_text (bytes : Bytes) : Reads (text bytes) (· = bytes) := by
  intro w w'
  refine List.mem_ite_nil_right.trans ?_
  rw [List.isPrefixOf_iff_prefix, List.mem_singleton]
  constructor
  · rintro ⟨⟨rest, hrest⟩, rfl⟩
    rw [← hrest, List.drop_left]
    exact ⟨bytes, rfl, rfl, rfl⟩
  · rintro ⟨_, rfl, hrest, hpast⟩
    rw [hrest, List.drop_left]
    exact ⟨List.prefix_append _ _, hpast⟩

theorem reads_one (p : UInt8 → Bool) : Reads (one p) fun run => ∃ b, p b = true ∧ run = [b] := by
  intro w w'
  rw [runs]
  split
  · rename_i b rest hrest
    rw [hrest]
    split
    · rename_i hp
      rw [List.mem_singleton]
      constructor
      · rintro rfl
        exact ⟨[b], ⟨b, hp, rfl⟩, rfl, rfl⟩
      · rintro ⟨_, ⟨c, -, rfl⟩, hcons, hpast⟩
        cases hcons
        exact hpast
    · rename_i hp
      refine iff_of_false List.not_mem_nil ?_
      rintro ⟨_, ⟨c, hc, rfl⟩, hcons, -⟩
      cases hcons
      exact hp hc
  · rename_i hrest
    refine iff_of_false List.not_mem_nil ?_
    rintro ⟨_, ⟨c, -, rfl⟩, hcons, -⟩
    rw [hrest] at hcons
    cases hcons

theorem mem_lengths {n : Nat} {text : Bytes} : n ∈ lengths p least most text ↔
    least ≤ n ∧ (∀ bound ∈ most, n ≤ bound) ∧ n ≤ (text.takeWhile p).length := by
  cases most with
  | none =>
      simp only [lengths, List.mem_filter, List.mem_reverse, List.mem_range, decide_eq_true_eq,
        Option.mem_def, reduceCtorEq, IsEmpty.forall_iff, implies_true, true_and]
      omega
  | some bound =>
      simp only [lengths, List.mem_filter, List.mem_reverse, List.mem_range, decide_eq_true_eq,
        Option.mem_def, Option.some.injEq, forall_eq']
      omega

theorem reads_many (p : UInt8 → Bool) (least : Nat) (most : Option Nat) :
    Reads (many p least most) fun run => (∀ b ∈ run, p b = true) ∧ least ≤ run.length ∧
      ∀ bound ∈ most, run.length ≤ bound := by
  intro w w'
  refine List.mem_map.trans ?_
  constructor
  · rintro ⟨n, hn, rfl⟩
    obtain ⟨hleast, hmost, hall⟩ := mem_lengths.mp hn
    have hrun : w.rest.takeWhile p <+: w.rest := List.takeWhile_prefix p
    have htaken : w.rest.take n <+: w.rest := List.take_prefix n w.rest
    have hlength : (w.rest.take n).length = n :=
      List.length_take_of_le (Nat.le_trans hall hrun.length_le)
    have hinside : w.rest.take n <+: w.rest.takeWhile p :=
      List.prefix_of_prefix_length_le htaken hrun (by rwa [hlength])
    refine ⟨w.rest.take n, ⟨?_, by rwa [hlength], by rwa [hlength]⟩, ?_, rfl⟩
    · intro b hb
      exact List.mem_takeWhile_imp (hinside.subset hb)
    · exact (List.take_append_drop n w.rest).symm
  · rintro ⟨run, ⟨hrun, hleast, hmost⟩, hrest, hpast⟩
    refine ⟨run.length, mem_lengths.mpr ⟨hleast, hmost, ?_⟩, ?_⟩
    · rw [hrest, List.takeWhile_append_of_pos hrun, List.length_append]
      exact Nat.le_add_right _ _
    · rw [hrest, List.take_left, List.drop_left]
      exact hpast.symm

theorem mem_runs_seq : w' ∈ (seq first second).runs w ↔
    ∃ middle ∈ first.runs w, w' ∈ second.runs middle :=
  List.mem_flatMap

theorem mem_runs_either : w' ∈ (either first second).runs w ↔
    w' ∈ first.runs w ∨ w' ∈ second.runs w :=
  List.mem_append

theorem mem_runs_maybe : w' ∈ (maybe part).runs w ↔ w' ∈ part.runs w ∨ w' = w :=
  List.mem_append.trans (or_congr_right List.mem_singleton)

theorem mem_runs_notAhead : w' ∈ (notAhead part).runs w ↔ part.runs w = [] ∧ w' = w :=
  List.mem_ite_nil_right.trans (and_congr List.isEmpty_iff List.mem_singleton)

theorem mem_runs_wordEdge : w' ∈ wordEdge.runs w ↔ w.atWordEdge = true ∧ w' = w :=
  List.mem_ite_nil_right.trans (and_congr_right' List.mem_singleton)

theorem mem_runs_atStart : w' ∈ atStart.runs w ↔ w.passed = [] ∧ w' = w :=
  List.mem_ite_nil_right.trans (and_congr List.isEmpty_iff List.mem_singleton)

theorem mem_runs_atEnd : w' ∈ atEnd.runs w ↔ w.rest = [] ∧ w' = w :=
  List.mem_ite_nil_right.trans (and_congr List.isEmpty_iff List.mem_singleton)

/-- Every pattern stands at a run of bytes, none if it looks around only. -/
theorem exists_run (part : Pattern) : ∀ {w w' : Walk}, w' ∈ part.runs w →
    ∃ run, w.rest = run ++ w'.rest := by
  induction part with
  | text bytes =>
      intro w w' h
      obtain ⟨run, -, hrest, -⟩ := (reads_text bytes w w').mp h
      exact ⟨run, hrest⟩
  | one p =>
      intro w w' h
      obtain ⟨run, -, hrest, -⟩ := (reads_one p w w').mp h
      exact ⟨run, hrest⟩
  | many p least most =>
      intro w w' h
      obtain ⟨run, -, hrest, -⟩ := (reads_many p least most w w').mp h
      exact ⟨run, hrest⟩
  | seq first second ihFirst ihSecond =>
      intro w w' h
      obtain ⟨middle, hfirst, hsecond⟩ := mem_runs_seq.mp h
      obtain ⟨run, hrun⟩ := ihFirst hfirst
      obtain ⟨more, hmore⟩ := ihSecond hsecond
      exact ⟨run ++ more, by rw [hrun, hmore, List.append_assoc]⟩
  | either first second ihFirst ihSecond =>
      intro w w' h
      rcases mem_runs_either.mp h with h | h
      · exact ihFirst h
      · exact ihSecond h
  | maybe part ih =>
      intro w w' h
      rcases mem_runs_maybe.mp h with h | rfl
      · exact ih h
      · exact ⟨[], rfl⟩
  | group i part ih =>
      intro w w' h
      obtain ⟨inner, hinner, rfl⟩ := List.mem_map.mp h
      obtain ⟨run, hrest⟩ := ih hinner
      exact ⟨run, hrest⟩
  | notAhead part ih =>
      intro w w' h
      obtain ⟨-, rfl⟩ := mem_runs_notAhead.mp h
      exact ⟨[], rfl⟩
  | wordEdge =>
      intro w w' h
      obtain ⟨-, rfl⟩ := mem_runs_wordEdge.mp h
      exact ⟨[], rfl⟩
  | atStart =>
      intro w w' h
      obtain ⟨-, rfl⟩ := mem_runs_atStart.mp h
      exact ⟨[], rfl⟩
  | atEnd =>
      intro w w' h
      obtain ⟨-, rfl⟩ := mem_runs_atEnd.mp h
      exact ⟨[], rfl⟩

/-- A group remembers the run of bytes that its part stands at. -/
theorem mem_runs_group : w' ∈ (group i part).runs w ↔
    ∃ run, ∃ inner ∈ part.runs w, w.rest = run ++ inner.rest ∧ w' = inner.remember i run := by
  have htext : ∀ {run : Bytes} {inner : Walk}, w.rest = run ++ inner.rest →
      w.rest.take (w.rest.length - inner.rest.length) = run := by
    intro run inner hrest
    rw [hrest, List.length_append, Nat.add_sub_cancel, List.take_left]
  refine List.mem_map.trans ?_
  constructor
  · rintro ⟨inner, hinner, rfl⟩
    obtain ⟨run, hrest⟩ := exists_run part hinner
    exact ⟨run, inner, hinner, hrest, by rw [htext hrest]⟩
  · rintro ⟨run, inner, hinner, hrest, rfl⟩
    exact ⟨inner, hinner, by rw [htext hrest]⟩

namespace Reads

variable {IsRun IsMore : Bytes → Prop}

theorem congr (h : Reads part IsRun) (hiff : ∀ run, IsRun run ↔ IsMore run) :
    Reads part IsMore := by
  intro w w'
  simp only [h w w', hiff]

theorem seq (hfirst : Reads first IsRun) (hsecond : Reads second IsMore) :
    Reads (seq first second) fun run => ∃ front, IsRun front ∧ ∃ back, IsMore back ∧
      run = front ++ back := by
  intro w w'
  rw [mem_runs_seq]
  constructor
  · rintro ⟨middle, hmiddle, hw'⟩
    obtain ⟨front, hfront, hrest, hpast⟩ := (hfirst w middle).mp hmiddle
    obtain ⟨back, hback, hmore, hpast'⟩ := (hsecond middle w').mp hw'
    refine ⟨front ++ back, ⟨front, hfront, back, hback, rfl⟩, ?_, ?_⟩
    · rw [hrest, hmore, List.append_assoc]
    · rw [hpast', hpast, Walk.past_past]
      rfl
  · rintro ⟨_, ⟨front, hfront, back, hback, rfl⟩, hrest, hpast⟩
    refine ⟨w.past front (back ++ w'.rest), (hfirst _ _).mpr ⟨front, hfront, ?_, rfl⟩,
      (hsecond _ _).mpr ⟨back, hback, rfl, ?_⟩⟩
    · rw [hrest, List.append_assoc]
      rfl
    · rw [Walk.past_past]
      exact hpast

theorem either (hfirst : Reads first IsRun) (hsecond : Reads second IsMore) :
    Reads (either first second) fun run => IsRun run ∨ IsMore run := by
  intro w w'
  rw [mem_runs_either, hfirst w w', hsecond w w', ← exists_or]
  simp only [or_and_right]

/-- A group remembers the run. -/
theorem mem_runs_group (h : Reads part IsRun) : w' ∈ (group i part).runs w ↔
    ∃ run, IsRun run ∧ w.rest = run ++ w'.rest ∧ w' = (w.past run w'.rest).remember i run := by
  rw [Pattern.mem_runs_group]
  constructor
  · rintro ⟨run, inner, hinner, hrest, rfl⟩
    obtain ⟨run', hrun, hrest', hpast⟩ := (h w inner).mp hinner
    obtain rfl := List.append_cancel_right (hrest.symm.trans hrest')
    exact ⟨run, hrun, hrest, by rw [hpast]; rfl⟩
  · rintro ⟨run, hrun, hrest, hw'⟩
    exact ⟨run, w.past run w'.rest, (h _ _).mpr ⟨run, hrun, hrest, rfl⟩, hrest, hw'⟩

end Reads

end Pattern

end ResolverLog
