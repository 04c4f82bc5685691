import ResolverLog.Proofs.Files
import ResolverLog.Proofs.Latest
import ResolverLog.Proofs.Record

/-!
# What a start reads back

A replay that nobody stops delivers line after line what decodes and is not too
old. Of an archive that holds the records of entries it delivers these entries,
those of the active file before those of the backup. Counting them and
collecting them for the view are independent of each other.
-/

namespace ResolverLog

open Bytes

namespace Archive

variable {files : Files} {window : Int} {now : Int64}

theorem delivered_replayLines (window : Int) (now : Int64) (lines : List Bytes)
    (progress : Progress) :
    (replayLines window now (fun _ _ => true) lines progress).delivered
      = (lines.filterMap (deliverable? window now)).reverse ++ progress.delivered := by
  induction lines generalizing progress with
  | nil => rfl
  | cons line lines ih =>
      rw [replayLines, Progress.poll]
      simp only
      cases hd : deliverable? window now line with
      | none =>
          simp only
          rw [ih, List.filterMap_cons_none hd]
      | some e =>
          simp only
          rw [ih, List.filterMap_cons_some hd, List.reverse_cons, List.append_assoc,
            List.singleton_append]

/-- What a file delivers. -/
def delivery (files : Files) (window : Int) (now : Int64) (path : Bytes) : List Entry :=
  (lines (files.contents path)).filterMap (deliverable? window now)

theorem delivered_replayFiles (window : Int) (now : Int64) (files : Files) (paths : List Bytes)
    (progress : Progress) :
    (replayFiles window now (fun _ _ => true) files paths progress).delivered
      = (paths.flatMap (delivery files window now)).reverse ++ progress.delivered := by
  induction paths generalizing progress with
  | nil => rfl
  | cons path paths ih =>
      rw [replayFiles, Progress.poll]
      simp only
      rw [ih, delivered_replayLines, List.flatMap_cons, List.reverse_append, List.append_assoc]
      rfl

/-- The entries counted are those delivered, whenever the reader stops. -/
theorem count_replayLines (goOn : Nat → Nat → Bool) (lines : List Bytes) {progress : Progress}
    (h : progress.count = progress.delivered.length) :
    (replayLines window now goOn lines progress).count
      = (replayLines window now goOn lines progress).delivered.length := by
  induction lines generalizing progress with
  | nil => exact h
  | cons line lines ih =>
      rw [replayLines, Progress.poll]
      cases goOn (progress.polls + 1) progress.count with
      | false => exact h
      | true =>
          simp only
          cases deliverable? window now line with
          | none => exact ih h
          | some e => exact ih (congrArg (· + 1) h)

theorem count_replayFiles (goOn : Nat → Nat → Bool) (files : Files) (paths : List Bytes)
    {progress : Progress} (h : progress.count = progress.delivered.length) :
    (replayFiles window now goOn files paths progress).count
      = (replayFiles window now goOn files paths progress).delivered.length := by
  induction paths generalizing progress with
  | nil => exact h
  | cons path paths ih =>
      rw [replayFiles, Progress.poll]
      cases goOn (progress.polls + 1) progress.count with
      | false => exact h
      | true => exact ih (count_replayLines goOn _ h)

/-- A replay delivers the active file and then the backup. -/
theorem replay_eq (archive : Archive) (files : Files) (window : Int) (now : Int64) :
    archive.replay files window now
      = delivery files window now archive.path ++ delivery files window now archive.backupPath := by
  rw [replay, replayWhile, delivered_replayFiles, List.append_nil, List.reverse_reverse,
    List.flatMap_cons, List.flatMap_cons, List.flatMap_nil, List.append_nil]

/-- A record delivers its entry if that is not too old. -/
theorem deliverable?_line {e : Entry} (h : e.Storable) (window : Int) (now : Int64) :
    deliverable? window now (Record.line e) = if e.age now ≤ window then some e else none := by
  have hne : (Record.line e).isEmpty = false :=
    List.isEmpty_eq_false_iff.mpr (Record.line_ne_nil e)
  rw [deliverable?, hne, Record.decode_line_alone h]
  simp only [Bool.false_eq_true, if_false]
  by_cases hage : e.age now ≤ window
  · rw [if_pos hage, if_neg (Int.not_lt.mpr hage)]
  · rw [if_neg hage, if_pos (Int.not_le.mp hage)]

/-- The records of entries deliver those that are not too old. -/
theorem filterMap_deliverable?_lines {entries : List Entry} (h : ∀ e ∈ entries, e.Storable)
    (window : Int) (now : Int64) :
    (entries.map Record.line).filterMap (deliverable? window now)
      = entries.filter fun e => e.age now ≤ window := by
  induction entries with
  | nil => rfl
  | cons e entries ih =>
      have htail := ih fun x hx => h x (List.mem_cons_of_mem e hx)
      have hhead := deliverable?_line (h e List.mem_cons_self) window now
      rw [List.map_cons]
      by_cases hage : e.age now ≤ window
      · rw [if_pos hage] at hhead
        rw [List.filterMap_cons_some hhead, htail, List.filter_cons_of_pos (by simpa using hage)]
      · rw [if_neg hage] at hhead
        rw [List.filterMap_cons_none hhead, htail, List.filter_cons_of_neg (by simpa using hage)]

/-- A file that holds the records of entries delivers those that are not too old. -/
theorem delivery_of_encodeAll {path : Bytes} {entries : List Entry}
    (h : Record.encodeAll entries = .ok (files.contents path)) (window : Int) (now : Int64) :
    delivery files window now path = entries.filter fun e => e.age now ≤ window := by
  obtain ⟨hall, htext⟩ := Record.encodeAll_eq_ok_iff.mp h
  rw [delivery, htext, lines_ofLines Record.newline_notMem_of_mem_map_line,
    filterMap_deliverable?_lines hall]

/-- An archive that holds the records of entries delivers those that are not too old. -/
theorem replay_of_encodeAll {archive : Archive} {backup active : List Entry}
    (hb : Record.encodeAll backup = .ok (files.contents archive.backupPath))
    (ha : Record.encodeAll active = .ok (files.contents archive.path)) (window : Int)
    (now : Int64) :
    archive.replay files window now = (active ++ backup).filter fun e => e.age now ≤ window := by
  calc archive.replay files window now
      = delivery files window now archive.path ++ delivery files window now archive.backupPath :=
        replay_eq archive files window now
    _ = (active.filter fun e => e.age now ≤ window)
          ++ backup.filter fun e => e.age now ≤ window := by
        rw [delivery_of_encodeAll ha, delivery_of_encodeAll hb]
    _ = (active ++ backup).filter fun e => e.age now ≤ window := (List.filter_append _ _).symm

end Archive

namespace Backlog

open Recent

variable {keep : UInt64} {interval : Int} {now : Int64}

/-- An entry that is replayed into the statistics. -/
def counts (now : Int64) (e : Entry) : Bool :=
  e.time.toInt ≤ now.toInt && e.name?.isSome

/-- An entry that is replayed into the log view as well. -/
def shows (interval : Int) (now : Int64) (e : Entry) : Bool :=
  counts now e && e.age now ≤ interval

theorem add_of_not_counts {e : Entry} (h : counts now e = false) (keep : UInt64) (interval : Int)
    (b : Backlog) : b.add keep interval now e = b := by
  rw [add, if_pos]
  rw [counts, Bool.and_eq_false_iff] at h
  rcases h with h | h
  · have hlater : now.toInt < e.time.toInt := Int.not_le.mp (of_decide_eq_false h)
    simp [hlater]
  · have hname : e.name?.isNone := by simpa using h
    simp [hname]

theorem add_of_counts {e : Entry} (h : counts now e = true) (keep : UInt64) (interval : Int)
    (b : Backlog) : b.add keep interval now e =
      { stats := (b.stats.record e now).1
        recent := if interval < e.age now then b.recent else push keep b.recent e } := by
  rw [add, if_neg]
  rw [counts, Bool.and_eq_true] at h
  have hnow : ¬ now.toInt < e.time.toInt := Int.not_lt.mpr (of_decide_eq_true h.1)
  have hname : e.name?.isNone = false := by simpa using h.2
  simp [hnow, hname]

/-- The statistics count what counts. -/
theorem stats_foldl_add (entries : List Entry) (b : Backlog) :
    (entries.foldl (add keep interval now) b).stats
      = (entries.filter (counts now)).foldl (fun stats e => (stats.record e now).1) b.stats := by
  induction entries generalizing b with
  | nil => rfl
  | cons e entries ih =>
      rw [List.foldl_cons, ih]
      cases hc : counts now e with
      | false => rw [add_of_not_counts hc, List.filter_cons_of_neg (by simp [hc])]
      | true => rw [add_of_counts hc, List.filter_cons_of_pos hc, List.foldl_cons]

/-- The candidates are what shows. -/
theorem recent_foldl_add (entries : List Entry) (b : Backlog) :
    (entries.foldl (add keep interval now) b).recent
      = (entries.filter (shows interval now)).foldl (push keep) b.recent := by
  induction entries generalizing b with
  | nil => rfl
  | cons e entries ih =>
      rw [List.foldl_cons, ih]
      cases hc : counts now e with
      | false =>
          rw [add_of_not_counts hc, List.filter_cons_of_neg (by simp [shows, hc])]
      | true =>
          rw [add_of_counts hc]
          by_cases hage : e.age now ≤ interval
          · rw [List.filter_cons_of_pos (by simp [shows, hc, hage]), List.foldl_cons,
              if_neg (Int.not_lt.mpr hage)]
          · rw [List.filter_cons_of_neg (by simp [shows, hc, hage]),
              if_pos (Int.not_le.mp hage)]

/-- A bound that has not wrapped is four times what a cut leaves. -/
theorem quarter_bound (hkeep : 4 * keep.toNat < 2 ^ 64) : (keep * 4).toNat / 4 = keep.toNat := by
  have hbound : (keep * 4).toNat = keep.toNat * 4 % 2 ^ 64 := UInt64.toNat_mul keep 4
  omega

/-- Dropping candidates on the way changes nothing for the latest of them. -/
theorem lastN_byTime_foldl_push (hkeep : 4 * keep.toNat < 2 ^ 64) (entries : List Entry)
    (recent : Array Entry) (before : List Entry)
    (h : ∀ ys, lastN keep.toNat (byTime (recent.toList ++ ys))
      = lastN keep.toNat (byTime (before ++ ys))) (ys : List Entry) :
    lastN keep.toNat (byTime ((entries.foldl (push keep) recent).toList ++ ys))
      = lastN keep.toNat (byTime (before ++ entries ++ ys)) := by
  induction entries generalizing recent before with
  | nil => simpa using h ys
  | cons e entries ih =>
      rw [List.foldl_cons, ← List.singleton_append, ← List.append_assoc]
      apply ih
      intro ys
      have hpushed : lastN keep.toNat (byTime ((recent.push e).toList ++ ys))
          = lastN keep.toNat (byTime (before ++ [e] ++ ys)) := by
        rw [Array.toList_push, List.append_assoc, List.append_assoc]
        exact h ([e] ++ ys)
      rw [push]
      split
      · rw [cut, List.toList_toArray, quarter_bound hkeep, lastN_byTime_trim]
        exact hpushed
      · exact hpushed

/-- Of the candidates gathered so far and any that are still to come the latest are kept. -/
theorem lastN_byTime_gathered (hkeep : 4 * keep.toNat < 2 ^ 64) (entries more : List Entry) :
    lastN keep.toNat (byTime ((entries.foldl (push keep) #[]).toList ++ more))
      = lastN keep.toNat (byTime (entries ++ more)) :=
  lastN_byTime_foldl_push hkeep entries #[] [] (fun _ => rfl) more

end Backlog

end ResolverLog
