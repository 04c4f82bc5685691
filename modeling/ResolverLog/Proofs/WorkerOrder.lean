import ResolverLog.Proofs.Intake
import ResolverLog.Proofs.StatsChanges

/-!
# The order of the workers

The workers take lines off one queue, and the order in which their entries come
to the recorder is anyone's. How a line ends does not depend on the lines before
it as long as the recorder is neither stopped nor configured in between. So for
any order the same lines are accepted and refused, the same totals are counted
and the same entries are pending, and the statistics tell the same where no
tally has to forget a key for another one.

## Implementation notes

Without background tasks no writer runs between two lines. With them it is the
order that decides which entries make a batch.
-/

namespace ResolverLog

open Bytes HourlyStats

namespace Intake

/-! ## How lines end -/

/-- How a line ends. -/
inductive Fate
  | skipped
  | malformed
  | refused
  | taken (e : Entry)
  deriving DecidableEq, Repr

/-- The entry that has been taken in. -/
def Fate.taken? : Fate → Option Entry
  | taken e => some e
  | _ => none

/-- The counts with one more line that ends so. -/
def Fate.addTo (counts : IntakeCounts) : Fate → IntakeCounts
  | skipped => counts
  | malformed => { counts with parseErrors := counts.parseErrors + 1 }
  | refused => { counts with rejected := counts.rejected + 1 }
  | taken _ => { counts with accepted := counts.accepted + 1 }

/-- How a line that comes to the recorder `r` at the time `now` ends. -/
def fate (r : Recorder) (now : Int64) (line : Bytes) : Fate :=
  if isSkipped line then .skipped
  else match EventLine.parse line now with
    | none => .malformed
    | some e => if Service.refusal? r e = none then .taken e else .refused

/-- The entries that a recorder takes in of lines. -/
def entries (r : Recorder) (now : Int64) (lines : List Bytes) : List Entry :=
  lines.filterMap fun line => (fate r now line).taken?

variable {r r' : Recorder} {now : Int64} {line : Bytes} {e : Entry}

/-- How a line ends depends on the phase and the configuration of the recorder only. -/
theorem fate_congr (hphase : r'.phase = r.phase) (hconfig : r'.config = r.config) :
    fate r' now = fate r now := by
  have hrefusal : Service.refusal? r' = Service.refusal? r := by
    funext e
    rw [Service.refusal?, Service.refusal?, hphase, hconfig]
  funext line
  rw [fate, fate, hrefusal]

theorem of_taken?_fate (h : (fate r now line).taken? = some e) :
    EventLine.parse line now = some e ∧ Service.refusal? r e = none := by
  rw [fate] at h
  split_ifs at h
  · cases h
  · split at h
    · cases h
    · rename_i read hread
      split_ifs at h with hrefusal
      · cases h
        exact ⟨hread, hrefusal⟩
      · cases h

/-- Every entry that is taken in now is counted into the newest hour. -/
theorem filter_inHour_entries (lines : List Bytes) (hour : Nat) :
    (entries r now lines).filter (inHour now hour)
      = if hour = 0 then entries r now lines else [] := by
  have hfirst : ∀ e ∈ entries r now lines, inHour now hour e = (0 == hour) := by
    intro e he
    obtain ⟨line, -, htaken⟩ := List.mem_filterMap.mp he
    obtain ⟨hparse, hrefusal⟩ := of_taken?_fate htaken
    have hage : e.age now = 0 := by
      rw [Entry.age, EventLine.time_of_parse hparse, Int64.sub_self]
      rfl
    rw [inHour, hage, (Service.refusal?_eq_none_iff.mp hrefusal).2.2.2]
    rfl
  split
  · rename_i hzero
    rw [List.filter_eq_self]
    intro e he
    rw [hfirst e he, hzero]
    rfl
  · rename_i hlater
    rw [List.filter_eq_nil_iff]
    intro e he
    rw [hfirst e he, beq_iff_eq]
    exact Ne.symm hlater

/-- It does not matter which of two lines ended first. -/
theorem addTo_comm (counts : IntakeCounts) (o o' : Fate) :
    o'.addTo (o.addTo counts) = o.addTo (o'.addTo counts) := by
  cases o with
  | skipped => rfl
  | malformed | refused | taken => cases o' with
      | skipped | malformed | refused | taken => rfl

/-- Every line but the skipped ones is counted once. -/
theorem total_addTo (counts : IntakeCounts) (r : Recorder) (now : Int64) (line : Bytes) :
    ((fate r now line).addTo counts).accepted + ((fate r now line).addTo counts).rejected
        + ((fate r now line).addTo counts).parseErrors
      = counts.accepted + counts.rejected + counts.parseErrors
        + if isSkipped line then 0 else 1 := by
  rw [fate]
  split_ifs with hskip
  · rfl
  · split
    · rfl
    · split_ifs
      · simp only [Fate.addTo]
        omega
      · simp only [Fate.addTo]
        omega

/-! ## Handling -/

/-- From `s` to `s'` these entries have been taken in at the time `now`, and nothing else has
been done to the recorder. -/
structure Given (now : Int64) (s s' : Service) (es : List Entry) : Prop where
  config_eq : s'.recorder.config = s.recorder.config
  phase_eq : s'.recorder.phase = s.recorder.phase
  writer_of : s.recorder.writer = none → s'.recorder.writer = none
  pending_eq : s'.recorder.pending = s.recorder.pending ++ es
  stats_eq : s'.recorder.stats = s.recorder.stats.recordAll now es

variable {s s' s'' : Service} {es es' : List Entry}

theorem Given.of_eq (h : s'.recorder = s.recorder) : Given now s s' [] := by
  refine ⟨by rw [h], by rw [h], fun hw => h ▸ hw, ?_, ?_⟩
  · rw [h, List.append_nil]
  · rw [h]
    rfl

theorem Given.trans (h : Given now s s' es) (h' : Given now s' s'' es') :
    Given now s s'' (es ++ es') := by
  refine ⟨h'.config_eq.trans h.config_eq, h'.phase_eq.trans h.phase_eq,
    fun hw => h'.writer_of (h.writer_of hw), ?_, ?_⟩
  · rw [h'.pending_eq, h.pending_eq, List.append_assoc]
  · rw [h'.stats_eq, h.stats_eq, recordAll, recordAll, recordAll, List.foldl_append]

theorem Given.fate_eq (h : Given now s s' es) :
    fate s'.recorder now = fate s.recorder now :=
  fate_congr h.phase_eq h.config_eq

/-- A note is none of the recorder's business. -/
theorem Given.debug (h : Given now s s' es) (text : Option Bytes) :
    Given now s (s'.debug text) es := by
  have hnoted := h.trans (.of_eq (Service.recorder_debug s' text))
  rwa [List.append_nil] at hnoted

theorem Given.ingest (h : Service.refusal? s.recorder e = none) (now : Int64) :
    Given now s (s.ingest e now).1 [e] := by
  obtain ⟨wakeRequested, writer, hwriter, haccept⟩ := Service.accept_eq s.recorder e
  rw [Service.ingest, h, haccept]
  refine Given.debug ?_ _
  exact ⟨rfl, rfl, hwriter, rfl, rfl⟩

theorem Given.ingest_refused (h : Service.refusal? s.recorder e ≠ none) (now : Int64) :
    (s.ingest e now).2 ≠ .accepted ∧ Given now s (s.ingest e now).1 [] := by
  refine ⟨fun haccepted => h (Service.refusal?_of_accepted haccepted), ?_⟩
  obtain ⟨result, hresult⟩ := Option.ne_none_iff_exists'.mp h
  rw [Service.ingest, hresult]
  exact (Given.of_eq rfl).debug _

/-- A line is counted for how it ends, and gives the recorder the entry that is taken in. -/
theorem given_handle (s : Service) (counts : IntakeCounts) (line : Bytes) (now : Int64) :
    Given now s (handle (s, counts) line now).1
        (fate s.recorder now line).taken?.toList ∧
      (handle (s, counts) line now).2 = (fate s.recorder now line).addTo counts := by
  rw [handle, fate]
  split_ifs with hskip
  · exact ⟨.of_eq rfl, rfl⟩
  · cases hparse : EventLine.parse line now with
    | none => exact ⟨.of_eq rfl, rfl⟩
    | some e =>
        simp only
        split_ifs with hrefusal
        · have haccepted : (s.ingest e now).2 = .accepted :=
            Service.ingest_eq_accepted_iff.mpr hrefusal
          have hgiven := Given.ingest hrefusal now
          cases hingest : s.ingest e now with
          | mk taken result =>
              rw [hingest] at haccepted hgiven
              subst haccepted
              exact ⟨hgiven, rfl⟩
        · obtain ⟨hrefused, hgiven⟩ := Given.ingest_refused hrefusal now
          cases hingest : s.ingest e now with
          | mk left result =>
              rw [hingest] at hrefused hgiven
              cases result with
              | accepted => exact absurd rfl hrefused
              | _ => exact ⟨hgiven.debug (some _), rfl⟩

/-- So it is with lines one after another, as long as no background task runs. -/
theorem given_handleAll (hw : s.recorder.writer = none) (lines : List Bytes) (now : Int64) :
    Given now s (handleAll s lines now).1 (entries s.recorder now lines) ∧
      (handleAll s lines now).2
        = lines.foldl (fun counts line => (fate s.recorder now line).addTo counts) noCounts := by
  rw [handleAll]
  generalize noCounts = counts
  induction lines generalizing s counts with
  | nil => exact ⟨.of_eq rfl, rfl⟩
  | cons line lines ih =>
      obtain ⟨hgiven, hcounts⟩ := given_handle s counts line now
      have hwriter := hgiven.writer_of hw
      -- There is no writer to let in between two lines, so the next one meets what this one left.
      have hsettle : (handle (s, counts) line now).1.settle = (handle (s, counts) line now).1 := by
        rw [Service.settle, hwriter]
      obtain ⟨hrest, hrestCounts⟩ := ih hwriter ((fate s.recorder now line).addTo counts)
      rw [hgiven.fate_eq] at hrestCounts
      have hentries : entries s.recorder now (line :: lines)
          = (fate s.recorder now line).taken?.toList
            ++ entries (handle (s, counts) line now).1.recorder now lines := by
        rw [entries, entries, hgiven.fate_eq, List.filterMap_cons]
        cases (fate s.recorder now line).taken? with
        | none => rfl
        | some e => rfl
      rw [List.foldl_cons]
      simp only [hsettle, hcounts]
      rw [hentries]
      exact ⟨hgiven.trans hrest, hrestCounts⟩

/-- The counts make up the number of lines that are neither empty nor comments. -/
theorem total_foldl_addTo (r : Recorder) (now : Int64) (lines : List Bytes)
    (counts : IntakeCounts) :
    let ended := lines.foldl (fun counts line => (fate r now line).addTo counts) counts
    ended.accepted + ended.rejected + ended.parseErrors
      = counts.accepted + counts.rejected + counts.parseErrors
        + lines.countP fun line => !isSkipped line := by
  induction lines generalizing counts with
  | nil => rfl
  | cons line lines ih =>
      have htail := ih ((fate r now line).addTo counts)
      rw [total_addTo] at htail
      apply htail.trans
      rw [List.countP_cons]
      cases isSkipped line with
      | false => simp only [Bool.false_eq_true, Bool.not_false, if_true, if_false]; omega
      | true => simp only [Bool.not_true, Bool.false_eq_true, if_true, if_false]; omega

theorem entries_perm (r : Recorder) (now : Int64) {lines lines' : List Bytes}
    (hp : lines.Perm lines') :
    (entries r now lines).Perm (entries r now lines') :=
  hp.filterMap _

end Intake

namespace Run

variable {allowed : Service → Op → Prop} {config : Config} {files : Files} {journal : Journal}
  {s : Service} {l : Ledger}

/-- Lines that come to a recorder without background tasks, one after another, may come in any
order, while the clock that the lines are stamped by and the clock of the recorder both stand still
at one time. As many of them are accepted, refused and no events, which makes up the number of all
that are neither empty nor comments. The same is counted in total, and the same entries are pending
in some order. And if the tallies of the newest hour have room for the names and the clients of what
is accepted, besides those that they hold, then the statistics tell the same of every window. -/
theorem handleAll_perm (run : Run allowed (.launch config files journal) s l)
    (hw : s.recorder.writer = none) {lines lines' : List Bytes} (hp : lines.Perm lines')
    (now : Int64) :
    let one := Intake.handleAll s lines now
    let other := Intake.handleAll s lines' now
    one.2 = other.2 ∧
    one.2.accepted + one.2.rejected + one.2.parseErrors
      = lines.countP (fun line => !Intake.isSkipped line) ∧
    one.1.recorder.stats.totals = other.1.recorder.stats.totals ∧
    one.1.recorder.pending.Perm other.1.recorder.pending ∧
    ((∀ h ∈ s.recorder.stats.hours.head?,
        h.HasRoom s.recorder.stats.topSize (Intake.entries s.recorder now lines)) →
      ∀ hours, (one.1.recorder.stats.top hours).Same (other.1.recorder.stats.top hours)) := by
  obtain ⟨hone, hcounts⟩ := Intake.given_handleAll hw lines now
  obtain ⟨hother, hcounts'⟩ := Intake.given_handleAll hw lines' now
  have hentries := Intake.entries_perm s.recorder now hp
  dsimp only
  refine ⟨?_, ?_, ?_, ?_, ?_⟩
  · rw [hcounts, hcounts']
    exact hp.foldl_eq' (fun _ _ _ _ counts => Intake.addTo_comm counts _ _) _
  · rw [hcounts, Intake.total_foldl_addTo]
    exact Nat.zero_add _
  · rw [hone.stats_eq, hother.stats_eq]
    exact totals_recordAll_perm _ now hentries
  · rw [hone.pending_eq, hother.pending_eq]
    exact hentries.append_left _
  · intro hroom hours
    rw [hone.stats_eq, hother.stats_eq]
    refine top_recordAll_perm run.sound_hours hentries ?_ hours
    intro hour h hget
    -- The newest hour gets all entries. The others get none, for which there is always room.
    rw [Intake.filter_inHour_entries]
    split
    · rename_i hzero
      rw [hzero, ← List.head?_eq_getElem?] at hget
      exact hroom h hget
    · exact (run.sound_hours h (List.mem_of_getElem? hget)).hasRoom_nil

/-- Two names, one of them blocked and the other one twice, a comment, the root and no event. -/
def someLines : List Bytes :=
  [ascii "10.0.0.1 b.example", ascii "10.0.0.2 a.example A blocked 3", ascii "# no event",
    ascii "10.0.0.1 .", ascii "10.0.0.1", ascii "10.0.0.2 b.example"]

/-- The other way round these lines end in the same way and are counted alike. -/
theorem handleAll_perm_reversed :
    let started := (Op.applyAll (.launch .small .empty .silent) .empty [.start 5]).1
    (Intake.handleAll started someLines.reverse 5).2 = ⟨3, 1, 1⟩ ∧
    ∀ hours, ((Intake.handleAll started someLines 5).1.recorder.stats.top hours).Same
      ((Intake.handleAll started someLines.reverse 5).1.recorder.stats.top hours) := by
  have run : Run (fun _ _ => True) (.launch .small .empty .silent)
      (Op.applyAll (.launch .small .empty .silent) .empty [.start 5]).1
      (Op.applyAll (.launch .small .empty .silent) .empty [.start 5]).2 :=
    launched.applyAll _ fun _ _ _ => trivial
  obtain ⟨hcounts, -, -, -, htop⟩ := handleAll_perm run (by decide)
    (List.reverse_perm someLines).symm 5
  refine ⟨hcounts.symm.trans (by decide +kernel), htop (by decide +kernel)⟩

end Run

end ResolverLog
