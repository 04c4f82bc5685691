import ResolverLog.Proofs.FileEffects

/-!
# Paths that can be written to

A path can be opened for writing when its way is open and ends in a name under
which no directory stands. It stays so through all changes to files elsewhere and
at its own place, and it is so wherever there is a file. Such a path can be
removed, and renamed onto another one, and where there is room it can be written
to.
-/

namespace ResolverLog

namespace Files

variable {files files' : Files} {path text : Bytes} {place source target : Place}
  {places : List Place} {slash : Bool} {found : Option Node}

/-- The path can be opened for writing, and there is room for what is written. -/
def Writable (files : Files) (path : Bytes) : Prop :=
  files.opens path = true ∧ files.full = false

instance (files : Files) (path : Bytes) : Decidable (files.Writable path) :=
  inferInstanceAs (Decidable (_ ∧ _))

/-- There is a file under the path. -/
def HasFile (files : Files) (path : Bytes) : Prop :=
  ∃ content, files.stat path = .ok (.file content)

/-! ## What a name tells -/

namespace Named

/-- A path leads to one place. -/
theorem unique {place' : Place} {slash' : Bool} {found' : Option Node}
    (h : Named files path place slash found) (h' : Named files path place' slash' found') :
    place' = place ∧ slash' = slash ∧ found' = found := by
  obtain ⟨⟨directory, name, ht, rfl, -⟩, hget⟩ := h
  obtain ⟨⟨directory', name', ht', rfl, -⟩, hget'⟩ := h'
  rw [ht] at ht'
  cases ht'
  exact ⟨rfl, rfl, hget'.symm.trans hget⟩

theorem noDirectory (h : Named files path place slash found) (hd : found ≠ some .directory) :
    files.NoDirectory path := by
  intro place' slash' hnamed
  exact hd (h.unique hnamed).2.2.symm

theorem lookup_eq {directory : Place} {name : Bytes}
    (h : Named files path (directory.child name) slash found) (hlen : name.length ≤ maxName) :
    files.lookup directory name = .ok found := by
  rw [lookup, if_neg (Nat.not_lt.mpr hlen), h.get?_eq]

theorem opens (h : Named files path place false found) (hd : found ≠ some .directory) :
    files.opens path = true := by
  have hnamed := h
  obtain ⟨⟨directory, name, ht, rfl, hlen⟩, -⟩ := h
  rw [Files.opens, writable?, ht]
  simp only [hnamed.lookup_eq hlen]
  cases found with
  | none => rfl
  | some node =>
      cases node with
      | file content => rfl
      | directory => exact absurd rfl hd

theorem stat_eq_missing (h : Named files path place slash none) :
    files.stat path = .error .missing := by
  have hnamed := h
  obtain ⟨⟨directory, name, ht, rfl, hlen⟩, -⟩ := h
  rw [stat, ht]
  simp only [hnamed.lookup_eq hlen]

theorem hasFile {content : Content} (h : Named files path place false (some (.file content))) :
    files.HasFile path := by
  have hnamed := h
  obtain ⟨⟨directory, name, ht, rfl, hlen⟩, -⟩ := h
  refine ⟨content, ?_⟩
  rw [stat, ht]
  simp only [hnamed.lookup_eq hlen]
  rfl

end Named

theorem named_of_opens (h : files.opens path = true) :
    ∃ place found, Named files path place false found ∧ found ≠ some .directory := by
  obtain ⟨⟨place, old⟩, hw⟩ := Option.isSome_iff_exists.mp h
  obtain ⟨directory, name, ht, rfl, hlen, hget⟩ := writable?_some hw
  refine ⟨_, _, ⟨⟨directory, name, ht, rfl, hlen⟩, hget⟩, ?_⟩
  cases old with
  | none => simp
  | some content => simp

theorem HasFile.named (h : files.HasFile path) :
    ∃ place content, Named files path place false (some (.file content)) := by
  obtain ⟨content, hs⟩ := h
  rw [stat] at hs
  split at hs
  · cases hs
  · rename_i directory name slash ht
    split at hs
    · cases hs
    · cases hs
    · cases hs
    · rename_i hl
      split at hs
      · cases hs
      · rename_i hslash
        cases hs
        rw [Bool.not_eq_true] at hslash
        rw [hslash] at ht
        exact ⟨_, content, Named.of_lookup ht hl⟩
  · cases hs

theorem HasFile.opens (h : files.HasFile path) : files.opens path = true := by
  obtain ⟨place, content, hnamed⟩ := h.named
  exact hnamed.opens (by simp)

theorem noDirectory_of_opens (h : files.opens path = true) : files.NoDirectory path := by
  obtain ⟨place, found, hnamed, hd⟩ := named_of_opens h
  exact hnamed.noDirectory hd

theorem Named.not_hasFile (h : Named files path place slash none) : ¬ files.HasFile path := by
  intro hfile
  obtain ⟨place', content, hnamed⟩ := hfile.named
  cases (h.unique hnamed).2.2

/-- Only a file has text. -/
theorem hasFile_of_contents_ne_nil (h : files.contents path ≠ []) : files.HasFile path := by
  rw [contents, read?] at h
  cases hs : files.stat path with
  | error e =>
      rw [hs] at h
      exact absurd rfl h
  | ok node =>
      cases node with
      | file content => exact ⟨content, hs⟩
      | directory =>
          rw [hs] at h
          exact absurd rfl h

/-! ## Changes elsewhere -/

namespace AgreeOff

/-- A path to another place finds the same. -/
theorem named (h : AgreeOff places files files') (hp : ∀ x ∈ places, place ≠ x)
    (hn : Named files path place slash found) : Named files' path place slash found := by
  obtain ⟨⟨directory, name, ht, rfl, hlen⟩, hget⟩ := hn
  obtain ⟨ht', hout⟩ := h.target ht
  refine ⟨⟨directory, name, ht', rfl, hlen⟩, ?_⟩
  rw [← hget]
  refine (h.get?_eq _ fun x hx hw => ?_).symm
  rcases Place.within_child hw with hw | heq
  · exact hout x hx hw
  · exact hp x hx heq

/-- A path to another place leads to a file in both trees or in neither. -/
theorem hasFile (h : AgreeOff places files files') (hp : ∀ x ∈ places, Path.place? path ≠ some x)
    (hfile : files.HasFile path) : files'.HasFile path := by
  obtain ⟨place, content, hn⟩ := hfile.named
  refine (h.named (fun x hx heq => hp x hx ?_) hn).hasFile
  rw [hn.place_eq, heq]

theorem noDirectory (h : AgreeOff places files files')
    (hp : ∀ x ∈ places, Path.place? path ≠ some x) (hd : files.NoDirectory path) :
    files'.NoDirectory path := by
  intro place slash hn
  refine hd place slash (h.symm.named (fun x hx heq => hp x hx ?_) hn)
  rw [hn.place_eq, heq]

/-- A path stays one that can be opened for writing, also where the trees differ. -/
theorem opens (h : AgreeOff places files files') (ho : files.opens path = true) :
    files'.opens path = true := by
  obtain ⟨place, found, hn, hd⟩ := named_of_opens ho
  by_cases hp : place ∈ places
  · exact (hn.agree h).opens (h.ne_directory' place hp)
  · refine (h.named ?_ hn).opens hd
    rintro x hx rfl
    exact hp hx

theorem writable (h : AgreeOff places files files') (hw : files.Writable path) :
    files'.Writable path :=
  ⟨h.opens hw.1, h.full_eq.trans hw.2⟩

end AgreeOff

/-! ## Appending -/

theorem append?_of_writable (h : files.Writable path) (text : Bytes) :
    ∃ files', files.append? path text = some files' := by
  obtain ⟨opened, hw⟩ := Option.isSome_iff_exists.mp h.1
  exact ⟨_, by rw [append?, h.2, if_neg Bool.false_ne_true, hw, Option.map_some]⟩

/-! ## Removing -/

/-- Removing from a path under which there is no directory finds nothing or takes a file
away. -/
theorem remove_ok (hd : files.NoDirectory path) (h : files.remove path = .ok files') :
    (files' = files ∧ ¬ files.HasFile path) ∨
      ∃ place slash, Named files' path place slash none ∧ AgreeOff [place] files files' := by
  unfold remove at h
  split at h
  · rename_i hmissing
    cases h
    refine Or.inl ⟨rfl, fun hfile => ?_⟩
    obtain ⟨place, content, hn⟩ := hfile.named
    have hnamed := hn
    obtain ⟨⟨directory, name, ht, rfl, hlen⟩, -⟩ := hn
    rw [delete, ht] at hmissing
    simp only [bind, Except.bind, hnamed.lookup_eq hlen] at hmissing
    simp [allowsSlash] at hmissing
    cases hmissing
  · obtain ⟨place, slash, node, hn, rfl⟩ := delete_ok h
    have hnode : files.get? place ≠ some .directory := by
      rw [hn.get?_eq]
      rintro ⟨⟩
      exact hd place slash hn
    have hagree := agreeOff_erase hnode hn.names_ne_nil
    have hn' := hn.agree hagree
    rw [get?_erase_self hn.names_ne_nil] at hn'
    exact Or.inr ⟨place, slash, hn', hagree⟩

/-- A path that can be opened for writing can be removed. -/
theorem remove_of_opens (h : files.opens path = true) :
    ∃ files', files.remove path = .ok files' := by
  obtain ⟨place, found, hn, hd⟩ := named_of_opens h
  have hnamed := hn
  obtain ⟨⟨directory, name, ht, rfl, hlen⟩, -⟩ := hn
  cases found with
  | none =>
      refine ⟨files, ?_⟩
      rw [remove, delete, ht]
      simp only [bind, Except.bind, hnamed.lookup_eq hlen]
      rfl
  | some node =>
      cases node with
      | directory => exact absurd rfl hd
      | file content =>
          refine ⟨files.erase (directory.child name), ?_⟩
          rw [remove, delete, ht]
          simp only [bind, Except.bind, hnamed.lookup_eq hlen]
          rfl

/-! ## Renaming -/

/-- No way leads through a place where no directory stands. -/
theorem not_within_of_target {t : Target} (hd : files.get? place ≠ some .directory)
    (ht : files.target path = .ok t) : ¬ t.directory.Within place := by
  have hself : AgreeOff [place] files files := agreeOff_singleton (fun _ _ => rfl) hd hd rfl
  exact (hself.target ht).2 place (List.mem_singleton_self place)

theorem Named.not_isAbove (h : Named files path place slash found)
    (hd : files.get? source ≠ some .directory) : source.isAbove place = false := by
  obtain ⟨⟨directory, name, ht, rfl, -⟩, -⟩ := h
  rw [Bool.eq_false_iff]
  intro habove
  obtain ⟨hw, hne⟩ := (Place.isAbove_iff _ _).mp habove
  rcases Place.within_child hw with hw | heq
  · exact not_within_of_target hd ht hw
  · exact hne heq

/-- A file can be renamed to a path that can be opened for writing. -/
theorem rename_of_opens {path' : Bytes} (h : files.HasFile path) (h' : files.opens path' = true)
    (hne : Path.Apart path path') : ∃ files', files.rename path path' = .ok files' := by
  obtain ⟨source, content, hn⟩ := h.named
  obtain ⟨target, found, hn', hd'⟩ := named_of_opens h'
  have hplaces : source ≠ target := by
    rintro rfl
    exact hne _ hn.place_eq hn'.place_eq
  have hsource : files.get? source ≠ some .directory := by
    rw [hn.get?_eq]
    simp
  have htarget : files.get? target ≠ some .directory := by
    rw [hn'.get?_eq]
    exact hd'
  have hreplace : files.replace source target (.file content) = .ok (files.move source target) := by
    unfold replace
    rw [hn'.not_isAbove hsource, hn.not_isAbove htarget, if_neg Bool.false_ne_true,
      if_neg Bool.false_ne_true, if_neg hplaces, hn'.get?_eq]
    cases found with
    | none => rfl
    | some node =>
        cases node with
        | file old => rfl
        | directory => exact absurd rfl hd'
  have hnamed := hn
  have hnamed' := hn'
  obtain ⟨⟨directory, name, ht, rfl, hlen⟩, -⟩ := hn
  obtain ⟨⟨directory', name', ht', rfl, hlen'⟩, -⟩ := hn'
  refine ⟨files.move (directory.child name) (directory'.child name'), ?_⟩
  rw [rename, ht]
  simp only [bind, Except.bind, ht', hnamed.lookup_eq hlen, hnamed'.lookup_eq hlen', allowsSlash]
  exact hreplace

end Files

end ResolverLog
