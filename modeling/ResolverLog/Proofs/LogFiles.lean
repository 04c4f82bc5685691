import ResolverLog.Archive
import ResolverLog.Journal
import ResolverLog.Proofs.Bytes
import ResolverLog.Proofs.FileEffects
import Mathlib.Data.List.TakeWhile

/-!
# The files of a log

The files that a log keeps beside each other are named by the path of the active
file with something behind it. Whatever that path is, their paths lead to
different places, so writing to one of them leaves the others as they are.
-/

namespace ResolverLog

open Bytes

namespace Place

theorem names_length_parent_le (place : Place) :
    place.parent.names.length ≤ place.names.length := by
  obtain ⟨base, names⟩ := place
  cases names with
  | nil =>
      cases base with
      | above levels => exact Nat.le_refl _
      | root => exact Nat.le_refl _
  | cons name names => exact (List.dropLast_sublist _).length_le

/-- A step does not lead down, or leads down to its name. -/
theorem step_cases (directory : Place) (name : Bytes) :
    (directory.step name).names.length ≤ directory.names.length ∨
      directory.step name = directory.child name := by
  rw [step, Step.ofName]
  split_ifs
  · exact Or.inl (Nat.le_refl _)
  · exact Or.inl (names_length_parent_le directory)
  · exact Or.inr rfl

theorem ne_child_of_length_le {place directory : Place} {name : Bytes}
    (h : place.names.length ≤ directory.names.length) : place ≠ directory.child name := by
  rintro rfl
  simp only [child, List.length_append, List.length_singleton] at h
  omega

end Place

namespace Path

/-- Put behind a path, this makes another name of its last name. -/
def IsSuffix (suffix : Bytes) : Prop :=
  suffix ≠ [] ∧ 0 ∉ suffix ∧ 0x2F ∉ suffix ∧ suffix.getLast? ≠ some 0x2E

instance (suffix : Bytes) : Decidable (IsSuffix suffix) :=
  inferInstanceAs (Decidable (_ ∧ _))

variable {path suffix other : Bytes}

theorem IsSuffix.step_append (h : IsSuffix suffix) (directory : Place) (name : Bytes) :
    directory.step (name ++ suffix) = directory.child (name ++ suffix) := by
  obtain ⟨hne, -, -, hlast⟩ := h
  have hdot : ∀ text : Bytes, text.getLast? = some 0x2E → name ++ suffix ≠ text := by
    rintro text htext rfl
    rw [List.getLast?_append_of_ne_nil _ hne] at htext
    exact hlast htext
  rw [Place.step, Step.ofName, if_neg, if_neg]
  · rw [beq_iff_eq]
    exact hdot _ rfl
  · rw [beq_iff_eq]
    exact hdot _ rfl

theorem resolve_concat {pieces : List Bytes} {last : Bytes} (h : pieces = [] → last ≠ []) :
    resolve (pieces ++ [last]) =
      if last = [] then resolve pieces else (resolve pieces).step last := by
  have hhead : (pieces ++ [last]).head? = some [] ↔ pieces.head? = some [] := by
    cases pieces with
    | nil => simp [h rfl]
    | cons piece pieces => simp
  rw [resolve, resolve, List.filter_append]
  simp only [hhead]
  by_cases hlast : last = []
  · rw [if_pos hlast, hlast, List.filter_cons_of_neg (by simp), List.filter_nil, List.append_nil]
  · rw [if_neg hlast, List.filter_cons_of_pos (by simp [hlast]), List.filter_nil,
      List.foldl_concat]

theorem beforeNul_eq (h : 0 ∉ path) : beforeNul path = path := by
  rw [beforeNul, List.takeWhile_eq_self_iff]
  intro b hb
  simp only [bne_iff_ne, ne_eq]
  rintro rfl
  exact h hb

/-- Where a path and its companions lead: the companions to names in one directory, and the
path not below it, or to the name that theirs extend. -/
theorem place?_append (h : 0 ∉ path) :
    ∃ (directory : Place) (last : Bytes),
      (∀ place, place? path = some place →
        place.names.length ≤ directory.names.length ∨ place = directory.child last) ∧
      ∀ suffix, IsSuffix suffix → ∀ place, place? (path ++ suffix) = some place →
        place = directory.child (last ++ suffix) := by
  obtain ⟨pieces, last, hp, hl, hr⟩ := splitOn_append 0x2F path
  refine ⟨resolve pieces, last, ?_, ?_⟩
  · intro place hplace
    rw [place?_eq_some_iff, beforeNul_eq h, hp] at hplace
    obtain ⟨hne, -, rfl⟩ := hplace
    have hlast : pieces = [] → last ≠ [] := by
      intro hnil
      rw [hl hnil]
      exact hne
    rw [resolve_concat hlast]
    split
    · exact Or.inl (Nat.le_refl _)
    · exact Place.step_cases _ _
  · intro suffix hs place hplace
    have hnul : 0 ∉ path ++ suffix := by
      simp [h, hs.2.1]
    rw [place?_eq_some_iff, beforeNul_eq hnul, hr suffix hs.2.2.1, resolve_concat (by simp [hs.1])]
      at hplace
    obtain ⟨-, -, rfl⟩ := hplace
    rw [if_neg (by simp [hs.1]), hs.step_append]

/-- A path and its companions lead to different places. -/
theorem apart_append (h : 0 ∉ path) (hs : IsSuffix suffix) : Apart path (path ++ suffix) := by
  obtain ⟨directory, last, hpath, happend⟩ := place?_append h
  intro place hplace hother
  obtain rfl := happend suffix hs place hother
  rcases hpath _ hplace with hle | heq
  · exact Place.ne_child_of_length_le hle rfl
  · rw [Place.child_inj] at heq
    exact hs.1 (List.append_right_eq_self.mp heq)

/-- Two companions of a path lead to different places. -/
theorem apart_append_append (h : 0 ∉ path) (hs : IsSuffix suffix) (ho : IsSuffix other)
    (hne : suffix ≠ other) : Apart (path ++ suffix) (path ++ other) := by
  obtain ⟨directory, last, -, happend⟩ := place?_append h
  intro place hplace hother
  have heq := (happend suffix hs place hplace).symm.trans (happend other ho place hother)
  rw [Place.child_inj] at heq
  exact hne (List.append_cancel_left heq)

end Path

variable {files files' : Files} {other : Bytes}

/-- A note changes at most what stands at the place of the note file. -/
theorem Journal.enter_cases (journal : Journal) (files : Files) (note : Note) :
    (journal.enter files note).2 = files ∨
      ∃ place, Path.place? journal.path = some place ∧
        Files.AgreeOff [place] files (journal.enter files note).2 := by
  rw [enter]
  split
  · rw [store]
    split
    · exact Or.inl rfl
    · cases ha : files.append? journal.path note.line with
      | none => exact Or.inl rfl
      | some files' =>
          obtain ⟨place, hplace, hagree, -⟩ := Files.append?_some ha
          exact Or.inr ⟨place, hplace, hagree⟩
  · exact Or.inl rfl

/-- A note changes nothing under any other path than that of the note file. -/
theorem Journal.node?_enter {journal : Journal} {note : Note}
    (h : Path.Apart journal.path other) :
    (journal.enter files note).2.node? other = files.node? other := by
  rcases journal.enter_cases files note with heq | ⟨place, hplace, hagree⟩
  · rw [heq]
  · apply hagree.node?_eq
    intro x hx
    rw [List.mem_singleton.mp hx]
    exact h place hplace

theorem Journal.read?_enter {journal : Journal} {note : Note}
    (h : Path.Apart journal.path other) :
    (journal.enter files note).2.read? other = files.read? other := by
  rw [Files.read?_eq_map, Files.read?_eq_map, node?_enter h]

theorem Journal.contents_enter {journal : Journal} {note : Note}
    (h : Path.Apart journal.path other) :
    (journal.enter files note).2.contents other = files.contents other := by
  rw [Files.contents, Files.contents, read?_enter h]

/-- Saving settings changes no text but that of the settings file and the temporary file. -/
theorem Settings.contents_save {path : Bytes} {config : Config}
    (hpath : Path.Apart path other) (htemp : Path.Apart (temporaryPath path) other)
    (happ : Path.Apart (temporaryPath path) path) :
    (save files path config).1.contents other = files.contents other := by
  rw [save]
  cases hw : files.write? (temporaryPath path) (text config) with
  | none => rfl
  | some written =>
      obtain ⟨temp, hplace, hagree, hget⟩ := Files.write?_some hw
      have hother : written.contents other = files.contents other := by
        apply hagree.contents_eq
        intro x hx
        rw [List.mem_singleton.mp hx]
        exact htemp temp hplace
      have hfile : ∀ place, Path.place? (temporaryPath path) = some place →
          written.get? place = some (.file (.ofText (text config))) := by
        rw [hplace]
        rintro place ⟨⟩
        exact hget
      simp only
      cases hr : written.rename (temporaryPath path) path with
      | ok renamed =>
          obtain ⟨source, target, hs, ht, hmoved, -⟩ := Files.rename_file hfile happ hr
          rw [← hother]
          apply hmoved.contents_eq
          intro x hx
          rcases List.mem_pair.mp hx with rfl | rfl
          · exact htemp _ hs
          · exact hpath _ ht
      | error cause =>
          rw [← hother]
          cases hd : written.remove (temporaryPath path) with
          | error e => rfl
          | ok cleaned => exact Files.contents_remove_file hfile htemp hd

/-- Saving settings that fails changes at most the temporary file. -/
theorem Settings.node?_save_of_error {path : Bytes} {config : Config} {e : SaveError}
    (h : save files path config = (files', .error e))
    (hother : Path.Apart (temporaryPath path) other) : files'.node? other = files.node? other := by
  rw [save] at h
  cases hw : files.write? (temporaryPath path) (text config) with
  | none =>
      rw [hw] at h
      cases h
      rfl
  | some written =>
      obtain ⟨temp, hplace, hagree, hget⟩ := Files.write?_some hw
      have hne : ∀ x ∈ [temp], Path.place? other ≠ some x := by
        intro x hx
        rw [List.mem_singleton.mp hx]
        exact hother temp hplace
      simp only [hw] at h
      split at h
      · cases h
      · cases h
        apply Files.AgreeOff.node?_eq _ hne
        split
        · rename_i cleaned hr
          unfold Files.remove at hr
          split at hr
          · cases hr
            exact hagree
          · obtain ⟨place, slash, node, hnamed, rfl⟩ := Files.delete_ok hr
            obtain rfl : place = temp := Option.some.inj (hnamed.place_eq.symm.trans hplace)
            apply hagree.trans (Files.agreeOff_erase _ hnamed.names_ne_nil)
            rw [hget]
            simp
        · exact hagree

namespace Archive

variable {archive : Archive} {text : Bytes}

theorem isSuffix_backup : Path.IsSuffix (ascii ".1") := by
  decide

/-- The active file and the backup are different files. -/
theorem apart_backupPath (h : 0 ∉ archive.path) : Path.Apart archive.path archive.backupPath :=
  Path.apart_append h isSuffix_backup

theorem node?_put (h : archive.put files text = .ok files')
    (hother : Path.Apart archive.path other) : files'.node? other = files.node? other := by
  rw [put] at h
  split at h
  · rename_i appended ha
    cases h
    obtain ⟨place, hplace, hagree, -⟩ := Files.append?_some ha
    apply hagree.node?_eq
    intro x hx
    rw [List.mem_singleton.mp hx]
    exact hother place hplace
  · cases h

/-- What is put into the archive stands behind the text of the active file. -/
theorem contents_put (h : archive.put files text = .ok files') :
    files'.contents archive.path = files.contents archive.path ++ text ∧
      ∀ other, Path.Apart archive.path other → files'.contents other = files.contents other := by
  refine ⟨?_, fun other hother => Files.contents_eq_of_node? (node?_put h hother)⟩
  rw [put] at h
  split at h
  · rename_i appended ha
    cases h
    obtain ⟨-, -, -, htext⟩ := Files.append?_some ha
    exact htext
  · cases h

/-- A rotation finds no active file and changes nothing, or makes its text that of the
backup. -/
theorem contents_rotate (hp : 0 ∉ archive.path) (h : archive.rotate files = .ok files') :
    (archive.isActive files = .ok false ∧ files' = files) ∨
      (archive.isActive files = .ok true ∧
        files'.contents archive.backupPath = files.contents archive.path ∧
        files'.contents archive.path = []) := by
  rw [rotate] at h
  cases ha : archive.isActive files with
  | error e =>
      rw [ha] at h
      cases h
  | ok active =>
      rw [ha] at h
      cases active with
      | false =>
          cases h
          exact Or.inl ⟨rfl, rfl⟩
      | true =>
          simp only at h
          split at h
          · rename_i hr
            cases h
            exact Or.inr ⟨rfl, Files.contents_rename (apart_backupPath hp) hr⟩
          · cases h

/-- After a successful clearing neither file has any text. -/
theorem contents_clear (h : archive.clear files = (files', .ok ())) :
    files'.contents archive.path = [] ∧ files'.contents archive.backupPath = [] := by
  rw [clear] at h
  split at h
  · cases h
  · rename_i hactive
    split at h
    · cases h
    · rename_i hbackup
      cases h
      exact ⟨(Files.remove_below hbackup).contents_eq_nil (Files.contents_remove hactive),
        Files.contents_remove hbackup⟩

/-- A clearing that fails at the active file changes nothing, and one that fails at the backup has
removed the active file and nothing else. -/
theorem clear_of_error {e : ArchiveError} (hp : 0 ∉ archive.path)
    (h : archive.clear files = (files', .error e)) :
    (∃ cause, e = .removeFailed archive.path cause ∧ files' = files) ∨
      ∃ cause, e = .removeFailed archive.backupPath cause ∧
        files'.contents archive.path = [] ∧
        files'.node? archive.backupPath = files.node? archive.backupPath := by
  rw [clear] at h
  split at h
  · rename_i cause _
    cases h
    exact .inl ⟨cause, rfl, rfl⟩
  · rename_i hactive
    split at h
    · rename_i cause hbackup
      cases h
      exact .inr ⟨cause, rfl, Files.contents_remove hactive,
        Files.node?_of_remove_error (apart_backupPath hp) hactive hbackup⟩
    · cases h

end Archive

namespace Config

variable {config : Config}

theorem isSuffix_settings : Path.IsSuffix (ascii ".conf") := by
  decide

theorem isSuffix_temporary : Path.IsSuffix (ascii ".conf.tmp") := by
  decide

theorem temporaryPath_eq (config : Config) :
    Settings.temporaryPath (Settings.path config) = config.logFile ++ ascii ".conf.tmp" := by
  rw [Settings.temporaryPath, Settings.path, List.append_assoc]
  rfl

/-- The settings file and the temporary file are different files. -/
theorem apart_temporary_settings (h : 0 ∉ config.logFile) :
    Path.Apart (Settings.temporaryPath (Settings.path config)) (Settings.path config) := by
  rw [temporaryPath_eq]
  exact Path.apart_append_append h isSuffix_temporary isSuffix_settings (by decide)

/-- Saving the settings of a log leaves the text of its files. -/
theorem contents_save (files : Files) (h : 0 ∉ config.logFile) :
    (Settings.save files (Settings.path config) config).1.contents config.logFile
        = files.contents config.logFile ∧
      (Settings.save files (Settings.path config) config).1.contents (config.logFile ++ ascii ".1")
        = files.contents (config.logFile ++ ascii ".1") := by
  have htemp := apart_temporary_settings h
  constructor
  · refine Settings.contents_save (Path.apart_append h isSuffix_settings).symm ?_ htemp
    rw [temporaryPath_eq]
    exact (Path.apart_append h isSuffix_temporary).symm
  · refine Settings.contents_save
      (Path.apart_append_append h isSuffix_settings Archive.isSuffix_backup (by decide)) ?_ htemp
    rw [temporaryPath_eq]
    exact Path.apart_append_append h isSuffix_temporary Archive.isSuffix_backup (by decide)

end Config

end ResolverLog
