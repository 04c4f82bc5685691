import ResolverLog.EventLine
import ResolverLog.Proofs.Question
import ResolverLog.Proofs.Record

/-!
# Event lines as entries

The time of an entry is when its line was read; everything else of it comes
from the line. Every entry of a line is within the limits of the record format,
and it asks for a name unless the line asks for the root.
-/

namespace ResolverLog

namespace EventLine

open Bytes

variable {line : Bytes} {e : Entry} {now : Int64}

/-- The name that a line asks for. -/
def name? (line : Bytes) : Option Bytes :=
  (words line)[1]?

/-- A verdict is a pass or a block. -/
theorem reason_takeVerdict (rest : List Bytes) :
    (takeVerdict rest).1.reason = .notFiltered ∨ (takeVerdict rest).1.reason = .blockList := by
  rw [takeVerdict.eq_def]
  split
  · exact .inl rfl
  · split
    · rename_i verdict hverdict
      rw [verdictOf?] at hverdict
      split at hverdict
      · cases hverdict
        exact .inl rfl
      · split at hverdict
        · cases hverdict
          exact .inr rfl
        · split at hverdict
          · cases hverdict
            exact .inr rfl
          · cases hverdict
    · exact .inl rfl

/-- Only the time of an entry depends on when its line is read. -/
theorem parse_eq_map (line : Bytes) (now time : Int64) :
    parse line now = (parse line time).map fun e => { e with time := now } := by
  rw [parse, parse]
  split
  · rename_i client name rest hwords
    cases takeType rest with
    | none => rfl
    | some typed =>
        simp only [Option.bind_eq_bind, Option.bind_some]
        cases elapsedOf? (takeVerdict typed.2).2 with
        | none => rfl
        | some elapsed =>
            simp only [Option.bind_some]
            cases Question.message name typed.1 0 with
            | error e => rfl
            | ok question => rfl
  · rfl

/-- The time of an entry is when its line was read. -/
theorem time_of_parse (h : parse line now = some e) : e.time = now := by
  rw [parse_eq_map line now now, Option.map_eq_some_iff] at h
  obtain ⟨read, -, rfl⟩ := h
  rfl

/-- Where the parts of an entry come from. -/
theorem parse_cases (h : parse line now = some e) :
    ∃ client name rest kind, words line = client :: name :: rest ∧
      Question.message name kind 0 = .ok e.question ∧ e.answer = [] ∧
      (e.verdict.reason = .notFiltered ∨ e.verdict.reason = .blockList) := by
  rw [parse] at h
  split at h
  · rename_i client name rest hwords
    cases htype : takeType rest with
    | none =>
        rw [htype] at h
        cases h
    | some typed =>
        simp only [htype, Option.bind_eq_bind, Option.bind_some] at h
        cases helapsed : elapsedOf? (takeVerdict typed.2).2 with
        | none =>
            rw [helapsed] at h
            cases h
        | some elapsed =>
            simp only [helapsed, Option.bind_some] at h
            cases hmessage : Question.message name typed.1 0 with
            | error e =>
                rw [hmessage] at h
                cases h
            | ok question =>
                rw [hmessage] at h
                cases h
                exact ⟨client, name, rest, typed.1, hwords, hmessage, rfl,
                  reason_takeVerdict typed.2⟩
  · cases h

/-- The entry of a line can be stored. -/
theorem storable_of_parse (h : parse line now = some e) : e.Storable := by
  obtain ⟨client, name, rest, kind, -, hmessage, hanswer, hreason⟩ := parse_cases h
  have hquestion := Question.length_message_le hmessage
  have hcode : 0 ≤ e.verdict.reason.code.toInt ∧ e.verdict.reason.code.toInt ≤ 6 := by
    rcases hreason with hreason | hreason
    · rw [hreason]
      decide
    · rw [hreason]
      decide
  refine ⟨hquestion.trans (by decide), ?_, hcode.1, hcode.2⟩
  rw [hanswer]
  exact Nat.zero_le _

/-- The entry of a line asks for a name, unless the line asks for the root. -/
theorem isSome_name?_of_parse (h : parse line now = some e) :
    e.name?.isSome = true ↔ name? line ≠ some [0x2E] := by
  obtain ⟨client, name, rest, kind, hwords, hmessage, -, -⟩ := parse_cases h
  have hne : name ≠ [] := by
    have hmem : name ∈ words line := by
      rw [hwords]
      exact List.mem_cons_of_mem client List.mem_cons_self
    simpa using (List.mem_filter.mp hmem).2
  have hroot : Question.trimDots name = [] ↔ name = [0x2E] := by
    rw [Question.trimDots_eq_nil_iff hmessage]
    exact or_iff_right hne
  have hname : name? line = some name := by
    rw [name?, hwords]
    rfl
  rw [Entry.name?, Question.ofMessage?_message hmessage, hname, Option.isSome_map]
  by_cases hdots : name = [0x2E]
  · rw [if_pos (hroot.mpr hdots), hdots]
    simp
  · rw [if_neg (mt hroot.mp hdots)]
    simp [hdots]

end EventLine

end ResolverLog
