import ResolverLog.Proofs.Age
import ResolverLog.Proofs.Replay
import ResolverLog.Proofs.Runs
import ResolverLog.Proofs.Writable

/-!
# The archive as two lists

As long as nobody else touches its files, an archive is a pair of lists of
entries: what has been appended since the last rotation, and what the rotation
before it took away. Calls that fail leave the pair as it is, and a replay
delivers the two lists one after the other.

## Implementation notes

The pair is carried along by the calls and how they ended, without a look at
the files. An archive is its path, so that calls through several archives under
one path are calls through one of them.
-/

namespace ResolverLog

open Bytes

namespace Archive

/-- What can be asked of an archive. -/
inductive Call
  | append (entries : List Entry)
  | rotate
  | clear
  deriving DecidableEq, Repr

/-- The files after a change that may fail, and how it ended. -/
def outcome (files : Files) : Except ArchiveError Files → Files × Except ArchiveError Unit
  | .ok files => (files, .ok ())
  | .error cause => (files, .error cause)

/-- Carries a call out. -/
def Call.run (archive : Archive) (files : Files) : Call → Files × Except ArchiveError Unit
  | append entries => outcome files (archive.append files entries)
  | rotate => outcome files (archive.rotate files)
  | clear => archive.clear files

/-- What an archive holds. -/
structure Holdings where
  active : List Entry
  backup : List Entry
  deriving DecidableEq, Repr

/-- An archive that holds nothing. -/
def Holdings.empty : Holdings := ⟨[], []⟩

/-- The holdings after a call that has ended in this way. -/
def Holdings.after (held : Holdings) : Call → Except ArchiveError Unit → Holdings
  | .append entries, .ok () => { held with active := held.active ++ entries }
  | .rotate, .ok () => if held.active = [] then held else ⟨[], held.active⟩
  | .clear, _ => .empty
  | _, .error _ => held

/-- Carries calls out one after another and keeps the holdings. -/
def Call.runAll (archive : Archive) (files : Files) (held : Holdings) :
    List Call → Files × Holdings
  | [] => (files, held)
  | call :: calls =>
    runAll archive (call.run archive files).1 (held.after call (call.run archive files).2) calls

/-- There is nothing under the path, if it ends in a name. -/
def Vacant (files : Files) (path : Bytes) : Prop :=
  ∀ place slash node, ¬ files.Named path place slash (some node)

/-- An archive can begin here: its path is a path, and nothing is under it and under that of the
backup. -/
structure Fresh (archive : Archive) (files : Files) : Prop where
  noNul : 0 ∉ archive.path
  active : Vacant files archive.path
  backup : Vacant files archive.backupPath

/-- Both files of the archive can be written to. -/
def Usable (archive : Archive) (files : Files) : Prop :=
  files.Writable archive.path ∧ files.Writable archive.backupPath

instance (archive : Archive) (files : Files) : Decidable (archive.Usable files) :=
  inferInstanceAs (Decidable (_ ∧ _))

/-! ## One file -/

/-- Under the path stand the records of these entries, in a file that is there only if there are
any. -/
structure Holds (files : Files) (path : Bytes) (entries : List Entry) : Prop where
  encode_eq : Record.encodeAll entries = .ok (files.contents path)
  hasFile_iff : files.HasFile path ↔ entries ≠ []
  noDirectory : files.NoDirectory path

namespace Holds

variable {files files' : Files} {path text : Bytes} {entries more : List Entry}
  {places : List Place} {place : Place} {slash : Bool}

/-- A change at other places leaves the records. -/
theorem of_agreeOff (h : Holds files path entries) (hagree : Files.AgreeOff places files files')
    (hp : ∀ x ∈ places, Path.place? path ≠ some x) : Holds files' path entries := by
  refine ⟨?_, ?_, hagree.noDirectory hp h.noDirectory⟩
  · rw [hagree.contents_eq hp]
    exact h.encode_eq
  · rw [← h.hasFile_iff]
    exact ⟨hagree.symm.hasFile hp, hagree.hasFile hp⟩

theorem of_not_hasFile (hf : ¬ files.HasFile path) (hd : files.NoDirectory path) :
    Holds files path [] := by
  have hcontents : files.contents path = [] := by
    by_contra hne
    exact hf (Files.hasFile_of_contents_ne_nil hne)
  refine ⟨?_, ?_, hd⟩
  · rw [hcontents]
    rfl
  · simp [hf]

/-- A name under which there is nothing holds no records. -/
theorem of_named_none (h : files.Named path place slash none) : Holds files path [] :=
  of_not_hasFile h.not_hasFile (h.noDirectory (by simp))

theorem of_vacant (h : Vacant files path) : Holds files path [] := by
  refine of_not_hasFile ?_ fun place slash => h place slash .directory
  intro hfile
  obtain ⟨place, content, hn⟩ := hfile.named
  exact h place false _ hn

theorem hasFile (h : Holds files path entries) (hne : entries ≠ []) : files.HasFile path :=
  h.hasFile_iff.mpr hne

/-- Where no file can be put there are no records. -/
theorem eq_nil_of_not_opens (h : Holds files path entries) (hw : ¬ files.opens path = true) :
    entries = [] := by
  by_contra hne
  exact hw (h.hasFile hne).opens

/-- A batch behind the records. -/
theorem append (h : Holds files path entries) (hne : more ≠ [])
    (he : Record.encodeAll more = .ok text) (ha : files.append? path text = some files') :
    Holds files' path (entries ++ more) := by
  obtain ⟨place, -, -, hcontents⟩ := Files.append?_some ha
  have hboth := Record.encodeAll_append h.encode_eq he
  rw [← hcontents] at hboth
  have hfile : files'.HasFile path := by
    apply Files.hasFile_of_contents_ne_nil
    rw [hcontents]
    intro hnil
    apply hne
    have htext := (List.append_eq_nil_iff.mp hnil).2
    rw [htext] at he
    exact Except.ok.inj ((Record.decodeAll_of_encodeAll he).symm.trans rfl)
  exact ⟨hboth, by simp [hfile, hne], Files.noDirectory_of_opens hfile.opens⟩

/-- The records are where their file has gone. -/
theorem moved {other : Bytes} {target : Place} {content : Content} (h : Holds files path entries)
    (hn : files.Named path place false (some (.file content)))
    (hn' : files'.Named other target false (some (.file content))) :
    Holds files' other entries := by
  refine ⟨?_, ?_, hn'.noDirectory (by simp)⟩
  · rw [hn'.contents_file, ← hn.contents_file]
    exact h.encode_eq
  · simp [hn'.hasFile, h.hasFile_iff.mp hn.hasFile]

/-- Removing takes the records away, as far as that is possible, and changes no other place. -/
theorem remove (h : Holds files path entries) (hr : files.remove path = .ok files') :
    Holds files' path [] ∧ ∃ places, Files.AgreeOff places files files' ∧
      ∀ other, Path.Apart path other → ∀ x ∈ places, Path.place? other ≠ some x := by
  rcases Files.remove_ok h.noDirectory hr with ⟨rfl, hf⟩ | ⟨place, slash, hn, hagree⟩
  · refine ⟨of_not_hasFile hf h.noDirectory, [], ?_, by simp⟩
    exact ⟨fun _ _ => rfl, by simp, by simp, rfl⟩
  · refine ⟨of_named_none hn, [place], hagree, ?_⟩
    intro other hother x hx
    rw [List.mem_singleton.mp hx]
    exact hother place hn.place_eq

end Holds

/-! ## Both files -/

/-- The files of an archive stand for its holdings. There can only be a backup where there could
be an active file. -/
structure Held (archive : Archive) (files : Files) (held : Holdings) : Prop where
  active : Holds files archive.path held.active
  backup : Holds files archive.backupPath held.backup
  opens_of_backup : held.backup ≠ [] → files.opens archive.path = true

namespace Held

variable {archive : Archive} {files files' : Files} {held : Holdings} {entries : List Entry}

theorem of_fresh (h : archive.Fresh files) : Held archive files .empty :=
  ⟨.of_vacant h.active, .of_vacant h.backup, fun hne => absurd rfl hne⟩

/-- Text put into the archive that holds a batch adds the batch to the active file. -/
theorem put (h : Held archive files held) (hp : 0 ∉ archive.path) (hne : entries ≠ [])
    {text : Bytes} (he : Record.encodeAll entries = .ok text)
    (hput : archive.put files text = .ok files') :
    Held archive files' { held with active := held.active ++ entries } := by
  rw [Archive.put] at hput
  cases ha : files.append? archive.path text with
  | none =>
      rw [ha] at hput
      cases hput
  | some appended =>
      rw [ha] at hput
      cases hput
      obtain ⟨place, hplace, hagree, -⟩ := Files.append?_some ha
      refine ⟨h.active.append hne he ha, h.backup.of_agreeOff hagree ?_,
        fun hb => hagree.opens (h.opens_of_backup hb)⟩
      intro x hx
      rw [List.mem_singleton.mp hx]
      exact apart_backupPath hp place hplace

theorem append (h : Held archive files held) (hp : 0 ∉ archive.path) (entries : List Entry) :
    Held archive ((Call.append entries).run archive files).1
      (held.after (.append entries) ((Call.append entries).run archive files).2) := by
  simp only [Call.run, Archive.append]
  split
  · rename_i hempty
    rw [List.isEmpty_iff.mp hempty]
    simpa only [outcome, Holdings.after, List.append_nil] using h
  · rename_i hempty
    cases hb : batch entries with
    | error cause => exact h
    | ok text =>
        cases hput : archive.put files text with
        | error cause => simpa only [hput, outcome, Holdings.after] using h
        | ok files' =>
            simp only [hput, outcome, Holdings.after]
            refine h.put hp ?_ (encodeAll_of_batch hb) hput
            rintro rfl
            exact hempty rfl

/-- A rotation finds no active file and changes nothing, or moves the active file. -/
theorem rotate_cases (h : Held archive files held) (hp : 0 ∉ archive.path)
    (hr : archive.rotate files = .ok files') :
    (held.active = [] ∧ files' = files) ∨
      (held.active ≠ [] ∧ Held archive files' ⟨[], held.active⟩ ∧
        ∃ places, Files.AgreeOff places files files') := by
  rw [Archive.rotate] at hr
  cases ha : archive.isActive files with
  | error e =>
      rw [ha] at hr
      cases hr
  | ok isActive =>
      rw [ha] at hr
      cases isActive with
      | false =>
          cases hr
          refine Or.inl ⟨?_, rfl⟩
          by_contra hne
          obtain ⟨content, hs⟩ := h.active.hasFile hne
          rw [Archive.isActive, hs] at ha
          cases ha
      | true =>
          simp only at hr
          split at hr
          · rename_i hrename
            cases hr
            obtain ⟨source, target, content, hn, hagree, hn', hmoved⟩ :=
              Files.rename_named h.active.noDirectory (apart_backupPath hp) hrename
            exact Or.inr ⟨h.active.hasFile_iff.mp hn.hasFile, ⟨.of_named_none hn',
              h.active.moved hn hmoved, fun _ => hn'.opens (by simp)⟩, _, hagree⟩
          · cases hr

theorem rotate (h : Held archive files held) (hp : 0 ∉ archive.path) :
    Held archive (Call.rotate.run archive files).1
      (held.after .rotate (Call.rotate.run archive files).2) := by
  rw [Call.run]
  cases hr : archive.rotate files with
  | error cause => exact h
  | ok files' =>
      rcases h.rotate_cases hp hr with ⟨hnil, rfl⟩ | ⟨hne, hmoved, -⟩
      · simpa only [outcome, Holdings.after, if_pos hnil] using h
      · simpa only [outcome, Holdings.after, if_neg hne] using hmoved

/-- A rotation that finds no active file changes nothing. -/
theorem rotate_of_active_nil (h : Held archive files held) (hp : 0 ∉ archive.path)
    (hnil : held.active = []) : (Call.rotate.run archive files).1 = files := by
  rw [Call.run]
  cases hr : archive.rotate files with
  | error cause => rfl
  | ok files' =>
      rcases h.rotate_cases hp hr with ⟨-, rfl⟩ | ⟨hne, -⟩
      · rfl
      · exact absurd hnil hne

/-- Clearing leaves nothing, also where it fails. -/
theorem clear (h : Held archive files held) (hp : 0 ∉ archive.path) :
    Held archive (Call.clear.run archive files).1 .empty := by
  rw [Call.run, Archive.clear]
  cases hr : files.remove archive.path with
  | error cause =>
      have hw : ¬ files.opens archive.path = true := by
        intro hw
        obtain ⟨files', hok⟩ := Files.remove_of_opens hw
        rw [hr] at hok
        cases hok
      have hactive := h.active.eq_nil_of_not_opens hw
      have hbackup : held.backup = [] := by
        by_contra hne
        exact hw (h.opens_of_backup hne)
      obtain ⟨active, backup⟩ := held
      cases hactive
      cases hbackup
      exact h
  | ok removed =>
      obtain ⟨hactive, places, hagree, hplaces⟩ := h.active.remove hr
      have hbackup := h.backup.of_agreeOff hagree (hplaces _ (apart_backupPath hp))
      simp only
      cases hr' : removed.remove archive.backupPath with
      | error cause =>
          have hw : ¬ removed.opens archive.backupPath = true := by
            intro hw
            obtain ⟨files', hok⟩ := Files.remove_of_opens hw
            rw [hr'] at hok
            cases hok
          have hnil := hbackup.eq_nil_of_not_opens hw
          rw [hnil] at hbackup
          exact ⟨hactive, hbackup, fun hne => absurd rfl hne⟩
      | ok cleared =>
          obtain ⟨hbackup', places', hagree', hplaces'⟩ := hbackup.remove hr'
          exact ⟨hactive.of_agreeOff hagree' (hplaces' _ (apart_backupPath hp).symm), hbackup',
            fun hne => absurd rfl hne⟩

/-- After every call the files stand for the holdings after the call. -/
theorem call (h : Held archive files held) (hp : 0 ∉ archive.path) (call : Call) :
    Held archive (call.run archive files).1 (held.after call (call.run archive files).2) := by
  cases call with
  | append entries => exact h.append hp entries
  | rotate => exact h.rotate hp
  | clear => exact h.clear hp

theorem runAll (h : Held archive files held) (hp : 0 ∉ archive.path) (calls : List Call) :
    Held archive (Call.runAll archive files held calls).1
      (Call.runAll archive files held calls).2 := by
  induction calls generalizing files held with
  | nil => exact h
  | cons call calls ih => exact ih (h.call hp call)

end Held

/-! ## Calls that succeed -/

section Success

variable {archive : Archive} {files files' : Files} {held : Holdings} {entries : List Entry}
  {path : Bytes}

theorem writable_append (hw : files.Writable path)
    (h : archive.append files entries = .ok files') : files'.Writable path := by
  rw [append] at h
  split at h
  · cases h
    exact hw
  · cases hb : batch entries with
    | error cause =>
        rw [hb] at h
        cases h
    | ok text =>
        simp only [hb, put] at h
        cases ha : files.append? archive.path text with
        | none =>
            rw [ha] at h
            cases h
        | some appended =>
            rw [ha] at h
            cases h
            obtain ⟨place, -, hagree, -⟩ := Files.append?_some ha
            exact hagree.writable hw

theorem writable_clear (h : Held archive files held) (hp : 0 ∉ archive.path)
    (hw : files.Writable path) : (archive.clear files).1.Writable path := by
  rw [clear]
  cases hr : files.remove archive.path with
  | error cause => exact hw
  | ok removed =>
      obtain ⟨-, places, hagree, hplaces⟩ := h.active.remove hr
      have hbackup := h.backup.of_agreeOff hagree (hplaces _ (apart_backupPath hp))
      simp only
      cases hr' : removed.remove archive.backupPath with
      | error cause => exact hagree.writable hw
      | ok cleared =>
          obtain ⟨-, places', hagree', -⟩ := hbackup.remove hr'
          exact hagree'.writable (hagree.writable hw)

/-- No call takes away that a path can be written to. -/
theorem writable_call (h : Held archive files held) (hp : 0 ∉ archive.path) (call : Call)
    (hw : files.Writable path) : (call.run archive files).1.Writable path := by
  cases call with
  | append entries =>
      rw [Call.run]
      cases ha : archive.append files entries with
      | error cause => exact hw
      | ok files' => exact writable_append hw ha
  | rotate =>
      rw [Call.run]
      cases hr : archive.rotate files with
      | error cause => exact hw
      | ok files' =>
          rcases h.rotate_cases hp hr with ⟨-, rfl⟩ | ⟨-, -, places, hagree⟩
          · exact hw
          · exact hagree.writable hw
  | clear => exact writable_clear h hp hw

theorem Usable.runAll (hu : archive.Usable files) (h : Held archive files held)
    (hp : 0 ∉ archive.path) (calls : List Call) :
    archive.Usable (Call.runAll archive files held calls).1 := by
  induction calls generalizing files held with
  | nil => exact hu
  | cons call calls ih =>
      exact ih ⟨writable_call h hp call hu.1, writable_call h hp call hu.2⟩ (h.call hp call)

/-- A batch that cannot be encoded is refused before anything is written. -/
theorem append_of_not_storable (files : Files) (h : ∃ e ∈ entries, ¬ e.Storable) :
    ∃ cause, (Call.append entries).run archive files = (files, .error (.encode cause)) := by
  obtain ⟨cause, hb⟩ := batch_of_not_storable h
  obtain ⟨e, hmem, -⟩ := h
  have hempty : entries.isEmpty = false :=
    List.isEmpty_eq_false_iff.mpr (List.ne_nil_of_mem hmem)
  refine ⟨cause, ?_⟩
  rw [Call.run, append, hempty, hb]
  rfl

theorem append_of_usable (hu : archive.Usable files) (h : ∀ e ∈ entries, e.Storable) :
    ((Call.append entries).run archive files).2 = .ok () := by
  rw [Call.run, append]
  split
  · rfl
  · obtain ⟨files', ha⟩ := Files.append?_of_writable hu.1 (ofLines (entries.map Record.line))
    simp only [batch_of_storable h, put, ha]
    rfl

theorem rotate_of_usable (hu : archive.Usable files) (hp : 0 ∉ archive.path) :
    (Call.rotate.run archive files).2 = .ok () := by
  obtain ⟨place, found, hn, hd⟩ := Files.named_of_opens hu.1.1
  rw [Call.run, rotate, isActive]
  cases found with
  | none =>
      rw [hn.stat_eq_missing]
      rfl
  | some node =>
      cases node with
      | directory => exact absurd rfl hd
      | file content =>
          obtain ⟨content, hs⟩ := hn.hasFile
          obtain ⟨files', hr⟩ :=
            Files.rename_of_opens hn.hasFile hu.2.1 (apart_backupPath hp)
          rw [hs]
          simp only [hr]
          rfl

theorem clear_of_usable (hu : archive.Usable files) (h : Held archive files held) :
    (Call.clear.run archive files).2 = .ok () := by
  obtain ⟨removed, hr⟩ := Files.remove_of_opens hu.1.1
  obtain ⟨-, places, hagree, -⟩ := h.active.remove hr
  obtain ⟨cleared, hr'⟩ := Files.remove_of_opens (hagree.opens hu.2.1)
  rw [Call.run, clear, hr]
  simp only [hr']

end Success

theorem vacant_empty (path : Bytes) : Vacant .empty path := by
  rintro place slash node ⟨⟨directory, name, -, rfl, -⟩, hget⟩
  rw [Files.get?_of_names_ne (Place.child_ne directory name)] at hget
  cases hget

/-- Every archive can begin in an empty directory. -/
theorem Fresh.empty {archive : Archive} (h : 0 ∉ archive.path) : archive.Fresh .empty :=
  ⟨h, vacant_empty _, vacant_empty _⟩

/-- After any calls the files of an archive are its two lists, and each of them is there only if
its list has entries. A rotation that finds no active file changes nothing, and neither does a
batch with an entry that cannot be encoded. Where both files can be written to, all other calls
succeed. A replay delivers the active list and then the backup, but for what is too old by its age
in 64 bits, and counts what it delivers. As long as no age wraps, this is what is older than the
window. -/
theorem behaves_as_two_lists {archive : Archive} {first files : Files} {held : Holdings}
    {calls : List Call} (h : archive.Fresh first)
    (hrun : Call.runAll archive first .empty calls = (files, held)) :
    Record.decodeAll (files.contents archive.path) = .ok held.active ∧
    Record.decodeAll (files.contents archive.backupPath) = .ok held.backup ∧
    (files.HasFile archive.path ↔ held.active ≠ []) ∧
    (files.HasFile archive.backupPath ↔ held.backup ≠ []) ∧
    (held.active = [] → (Call.rotate.run archive files).1 = files) ∧
    (∀ entries, (∃ e ∈ entries, ¬ e.Storable) →
      ∃ cause, (Call.append entries).run archive files = (files, .error (.encode cause))) ∧
    (archive.Usable first →
      (∀ entries, (∀ e ∈ entries, e.Storable) →
        ((Call.append entries).run archive files).2 = .ok ()) ∧
      (Call.rotate.run archive files).2 = .ok () ∧ (Call.clear.run archive files).2 = .ok ()) ∧
    ∀ window now,
      archive.replay files window now
        = (held.active ++ held.backup).filter (fun e => e.age now ≤ window) ∧
      (replayFiles window now (fun _ _ => true) files [archive.path, archive.backupPath]
        ⟨0, 0, []⟩).count = (archive.replay files window now).length ∧
      ((∀ e ∈ held.active ++ held.backup, e.AgeFits now) →
        archive.replay files window now
          = (held.active ++ held.backup).filter fun e => e.trueAge now ≤ window) := by
  have hheld : Held archive files held := by
    have hall := (Held.of_fresh h).runAll h.noNul calls
    rwa [hrun] at hall
  refine ⟨Record.decodeAll_of_encodeAll hheld.active.encode_eq,
    Record.decodeAll_of_encodeAll hheld.backup.encode_eq, hheld.active.hasFile_iff,
    hheld.backup.hasFile_iff, hheld.rotate_of_active_nil h.noNul,
    fun entries => append_of_not_storable files, ?_, ?_⟩
  · intro hu
    have hu' : archive.Usable files := by
      have hall := hu.runAll (Held.of_fresh h) h.noNul calls
      rwa [hrun] at hall
    exact ⟨fun entries => append_of_usable hu', rotate_of_usable hu' h.noNul,
      clear_of_usable hu' hheld⟩
  · intro window now
    have hreplay := replay_of_encodeAll hheld.backup.encode_eq hheld.active.encode_eq window now
    refine ⟨hreplay, ?_, fun hfits => hreplay.trans (filter_age_le hfits window)⟩
    rw [count_replayFiles _ _ _ rfl, replay, replayWhile, List.length_reverse]

/-- Two entries are rotated into the backup, a batch with an unknown reason is refused, and a
fourth entry is appended. -/
def refusedOnce : Files × Holdings :=
  Call.runAll ⟨ascii "q.log"⟩ .empty .empty
    [.append [.asking 1, .asking 2], .rotate,
      .append [.asking 3, { Entry.asking 3 with verdict := ⟨false, ⟨7⟩, [], 0⟩ }],
      .append [.asking 4]]

/-- Nothing of the refused batch is in the lists, and the oldest entry is outside the window. -/
theorem behaves_as_two_lists_refusedOnce :
    refusedOnce.2 = ⟨[.asking 4], [.asking 1, .asking 2]⟩ ∧
    Record.decodeAll (refusedOnce.1.contents (ascii "q.log")) = .ok [.asking 4] ∧
    Archive.replay ⟨ascii "q.log"⟩ refusedOnce.1 8 10 = [.asking 4, .asking 2] := by
  have hheld : refusedOnce.2 = ⟨[.asking 4], [.asking 1, .asking 2]⟩ := by decide +kernel
  have hfresh : Fresh ⟨ascii "q.log"⟩ .empty := Fresh.empty (by decide)
  have hrun : refusedOnce = (refusedOnce.1, ⟨[.asking 4], [.asking 1, .asking 2]⟩) := by
    rw [← hheld]
  obtain ⟨hactive, -, -, -, -, -, -, hreplay⟩ := behaves_as_two_lists hfresh hrun
  refine ⟨hheld, hactive, ?_⟩
  rw [(hreplay 8 10).1]
  decide

end Archive

end ResolverLog
