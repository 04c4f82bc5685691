import ResolverLog.Proofs.Age
import ResolverLog.Proofs.CutRecord

/-!
# What a replay owes its reader

Files of a log can hold anything. A replay owes the entries of those lines that
decode, no older than the window, the active file before the backup and each
file from its beginning. A line that does not decode costs only itself, and a
missing file nothing.

A reader who wants only so many entries gets the first ones. It is asked before
each file and before each line, whether that holds an entry or not, so it is in
time to stop.
-/

namespace ResolverLog

namespace Archive

open Bytes

variable {files : Files} {window : Int} {now : Int64}

/-- The entries of the lines that decode. -/
def legible (text : Bytes) : List Entry :=
  ((splitOn newline text).filter (· ≠ [])).filterMap fun line => (Record.decode line).toOption

/-- The entries of the files that can be read, those of the active one before those of the
backup. -/
def readable (archive : Archive) (files : Files) : List Entry :=
  ([archive.path, archive.backupPath].filterMap files.read?).flatMap legible

/-- The entries that a replay owes: those whose age in 64 bits is in the window. -/
def due (archive : Archive) (files : Files) (window : Int) (now : Int64) : List Entry :=
  (archive.readable files).filter fun e => e.age now ≤ window

/-- The number of entries that a replay reports. -/
def reported (archive : Archive) (files : Files) (window : Int) (now : Int64)
    (goOn : Nat → Nat → Bool) : Nat :=
  (replayFiles window now goOn files [archive.path, archive.backupPath] ⟨0, 0, []⟩).count

theorem reported_eq_length (archive : Archive) (files : Files) (window : Int) (now : Int64)
    (goOn : Nat → Nat → Bool) :
    archive.reported files window now goOn
      = (archive.replayWhile files window now goOn).length := by
  rw [reported, replayWhile, List.length_reverse]
  exact count_replayFiles goOn files _ rfl

/-- The lines of a text are its pieces between newlines, but for an empty one at the end. -/
theorem filter_lines (text : Bytes) :
    (lines text).filter (· ≠ []) = (splitOn newline text).filter (· ≠ []) := by
  rw [lines, terminated]
  split
  · rename_i hlast
    obtain ⟨front, hfront⟩ := List.getLast?_eq_some_iff.mp hlast
    rw [hfront, List.dropLast_concat, List.filter_append]
    exact (List.append_nil _).symm
  · rfl

/-- Empty lines deliver nothing. -/
theorem filterMap_deliverable?_filter (list : List Bytes) :
    (list.filter (· ≠ [])).filterMap (deliverable? window now)
      = list.filterMap (deliverable? window now) := by
  rw [List.filterMap_filter]
  apply List.filterMap_congr
  intro line _
  by_cases hnil : line = []
  · rw [hnil]
    rfl
  · rw [if_pos (by simpa using hnil)]

theorem filterMap_deliverable?_lines_eq (window : Int) (now : Int64) (text : Bytes) :
    (lines text).filterMap (deliverable? window now)
      = (legible text).filter fun e => e.age now ≤ window := by
  rw [legible, ← filter_lines, ← filterMap_deliverable?_filter, List.filterMap_eq_flatMap_toList,
    List.filterMap_eq_flatMap_toList, List.filter_flatMap]
  exact List.flatMap_congr fun line _ => deliverable?_eq_filter window now line

/-- A file that cannot be read delivers nothing. -/
theorem delivery_eq_legible (files : Files) (window : Int) (now : Int64) (path : Bytes) :
    delivery files window now path
      = ((files.read? path).toList.flatMap legible).filter fun e => e.age now ≤ window := by
  rw [delivery, Files.contents, filterMap_deliverable?_lines_eq]
  cases files.read? path with
  | none => rfl
  | some text => exact congrArg _ (List.flatMap_singleton _ _).symm

theorem due_eq_flatMap (archive : Archive) (files : Files) (window : Int) (now : Int64) :
    archive.due files window now
      = [archive.path, archive.backupPath].flatMap (delivery files window now) := by
  rw [due, readable, List.filterMap_eq_flatMap_toList, List.flatMap_assoc, List.filter_flatMap]
  exact List.flatMap_congr fun path _ => (delivery_eq_legible files window now path).symm

/-! ## Readers who want only so many -/

/-- Wants to go on as long as it has fewer than `max` entries. -/
def below (max : Nat) (_ count : Nat) : Bool :=
  count < max

/-- Of the lines of a file come as many entries as are still wanted. -/
theorem delivered_replayLines_below (max : Nat) (lines : List Bytes) (progress : Progress) :
    (replayLines window now (below max) lines progress).delivered
      = ((lines.filterMap (deliverable? window now)).take (max - progress.count)).reverse
          ++ progress.delivered := by
  induction lines generalizing progress with
  | nil =>
      rw [List.filterMap_nil, List.take_nil]
      rfl
  | cons line lines ih =>
      rw [replayLines, Progress.poll]
      by_cases hwanted : progress.count < max
      · rw [below, decide_eq_true hwanted]
        simp only
        cases hd : deliverable? window now line with
        | none => exact (ih _).trans (by rw [List.filterMap_cons_none hd])
        | some e =>
            have hleft : max - progress.count = max - (progress.count + 1) + 1 := by omega
            rw [List.filterMap_cons_some hd, hleft, List.take_succ_cons, List.reverse_cons,
              List.append_assoc, List.singleton_append]
            exact ih _
      · have hleft : max - progress.count = 0 := by omega
        rw [below, decide_eq_false hwanted, hleft, List.take_zero]
        rfl

/-- Of the files come as many entries as are still wanted. -/
theorem delivered_replayFiles_below (max : Nat) (files : Files) (paths : List Bytes)
    {progress : Progress} (h : progress.count = progress.delivered.length) :
    (replayFiles window now (below max) files paths progress).delivered
      = ((paths.flatMap (delivery files window now)).take (max - progress.count)).reverse
          ++ progress.delivered := by
  induction paths generalizing progress with
  | nil =>
      rw [List.flatMap_nil, List.take_nil]
      rfl
  | cons path paths ih =>
      rw [replayFiles, Progress.poll]
      by_cases hwanted : progress.count < max
      · let asked : Progress := { progress with polls := progress.polls + 1 }
        let list := lines ((files.read? path).getD [])
        have hcount : (replayLines window now (below max) list asked).count
            = (replayLines window now (below max) list asked).delivered.length :=
          count_replayLines (below max) list h
        have hdelivered : (replayLines window now (below max) list asked).delivered
            = ((list.filterMap (deliverable? window now)).take (max - asked.count)).reverse
              ++ asked.delivered :=
          delivered_replayLines_below max list asked
        have hrest := ih hcount
        have hleft : max - (replayLines window now (below max) list asked).count
            = max - progress.count - (delivery files window now path).length := by
          rw [hcount, hdelivered, List.length_append, List.length_reverse, List.length_take]
          change max - (min (max - progress.count) (delivery files window now path).length
            + progress.delivered.length) = _
          omega
        rw [below, decide_eq_true hwanted]
        simp only
        rw [List.flatMap_cons, List.take_append, List.reverse_append, List.append_assoc, ← hleft]
        exact hrest.trans (congrArg _ hdelivered)
      · have hleft : max - progress.count = 0 := by omega
        rw [below, decide_eq_false hwanted, hleft, List.take_zero]
        rfl

theorem replayWhile_below (archive : Archive) (files : Files) (window : Int) (now : Int64)
    (max : Nat) :
    archive.replayWhile files window now (below max)
      = (archive.due files window now).take max := by
  rw [replayWhile, delivered_replayFiles_below max files _ rfl, List.append_nil,
    List.reverse_reverse, ← due_eq_flatMap]
  rfl

/-- Whatever the files hold, a replay delivers the entries of the lines that decode, as far as their
ages in 64 bits are in the window, and reports their number. A reader who wants only so many gets
the first. As long as no age wraps, these are the entries that are no older than the window. -/
theorem replay_delivers_due (archive : Archive) (files : Files) (window : Int) (now : Int64) :
    archive.replay files window now = archive.due files window now ∧
      archive.reported files window now (fun _ _ => true)
        = (archive.due files window now).length ∧
      (∀ max, archive.replayWhile files window now (below max)
          = (archive.due files window now).take max ∧
        archive.reported files window now (below max)
          = ((archive.due files window now).take max).length) ∧
      ((∀ e ∈ archive.readable files, e.AgeFits now) →
        archive.due files window now
          = (archive.readable files).filter fun e => e.trueAge now ≤ window) := by
  have hreplay : archive.replay files window now = archive.due files window now := by
    rw [replay_eq, due_eq_flatMap, List.flatMap_cons, List.flatMap_cons, List.flatMap_nil,
      List.append_nil]
  refine ⟨hreplay, ?_, ?_, fun hfits => filter_age_le hfits window⟩
  · rw [reported_eq_length, ← hreplay]
    rfl
  · intro max
    rw [reported_eq_length, replayWhile_below]
    exact ⟨rfl, rfl⟩

end Archive

end ResolverLog
