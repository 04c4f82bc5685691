import ResolverLog.Proofs.Files
import ResolverLog.Settings

/-!
# What file operations change

For each operation that the log uses on files: which places it touches, and what
their paths read afterwards. All other paths read what they read before.
-/

namespace ResolverLog

open Bytes

namespace Content

theorem text_append (content : Content) (text : Bytes) :
    (content.append text).text = content.text ++ text := by
  simp [append, Content.text]

theorem text_ofText (text : Bytes) : (ofText text).text = text :=
  text_append .empty text

end Content

namespace Files

variable {files files' : Files} {place other : Place} {node : Node} {path text : Bytes}

/-! ## Putting and erasing nodes -/

theorem lookup_filter_ne (nodes : List (Place × Node)) (h : other ≠ place) :
    (nodes.filter fun node => node.1 != place).lookup other = nodes.lookup other := by
  induction nodes with
  | nil => rfl
  | cons node nodes ih =>
      by_cases hn : node.1 = place
      · have hne : (other == node.1) = false := by
          rw [hn]
          exact beq_false_of_ne h
        rw [List.filter_cons_of_neg (by simp [hn]), List.lookup_cons, hne, ih]
      · rw [List.filter_cons_of_pos (by simp [hn]), List.lookup_cons, List.lookup_cons, ih]

theorem lookup_filter_self (nodes : List (Place × Node)) :
    (nodes.filter fun node => node.1 != place).lookup place = none := by
  rw [List.lookup_eq_none_iff]
  intro node hn
  have hne := bne_iff_ne.mp (List.mem_filter.mp hn).2
  exact bne_iff_ne.mpr hne.symm

theorem get?_of_names_ne (h : place.names ≠ []) :
    files.get? place = files.nodes.lookup place := by
  simp [get?, h]

theorem get?_erase_ne (h : other ≠ place) : (files.erase place).get? other = files.get? other := by
  rw [get?, get?, erase, lookup_filter_ne _ h]

theorem get?_erase_self (h : place.names ≠ []) : (files.erase place).get? place = none := by
  rw [get?_of_names_ne h, erase, lookup_filter_self]

theorem get?_set_ne (h : other ≠ place) : (files.set place node).get? other = files.get? other := by
  have hne : (other == place) = false := beq_false_of_ne h
  calc (files.set place node).get? other
      = (files.erase place).get? other := by rw [get?, get?, set, List.lookup_cons, hne]
    _ = files.get? other := get?_erase_ne h

theorem get?_set_self (h : place.names ≠ []) : (files.set place node).get? place = some node := by
  rw [get?_of_names_ne h, set, List.lookup_cons, BEq.rfl]

/-- Trees that differ only at one place, and there in no directory, agree off that place. -/
theorem agreeOff_singleton (hget : ∀ other, other ≠ place → files.get? other = files'.get? other)
    (hd : files.get? place ≠ some .directory) (hd' : files'.get? place ≠ some .directory)
    (hfull : files'.full = files.full) : AgreeOff [place] files files' := by
  refine ⟨?_, ?_, ?_, hfull⟩
  · intro other hother
    apply hget
    rintro rfl
    exact hother _ (List.mem_singleton_self _) ⟨rfl, List.prefix_refl _⟩
  · intro x hx
    rw [List.mem_singleton.mp hx]
    exact hd
  · intro x hx
    rw [List.mem_singleton.mp hx]
    exact hd'

/-- Putting a file where no directory is changes nothing elsewhere. -/
theorem agreeOff_set (content : Content) (hd : files.get? place ≠ some .directory)
    (hn : place.names ≠ []) : AgreeOff [place] files (files.set place (.file content)) := by
  apply agreeOff_singleton
  · intro other hother
    exact (get?_set_ne hother).symm
  · exact hd
  · rw [get?_set_self hn]
    simp
  · rfl

/-- Erasing a file changes nothing elsewhere. -/
theorem agreeOff_erase (hd : files.get? place ≠ some .directory) (hn : place.names ≠ []) :
    AgreeOff [place] files (files.erase place) := by
  apply agreeOff_singleton
  · intro other hother
    exact (get?_erase_ne hother).symm
  · exact hd
  · rw [get?_erase_self hn]
    simp
  · rfl

/-! ## Writing -/

/-- What a path that can be written to leads to. -/
theorem writable?_some {old : Option Content} (h : files.writable? path = some (place, old)) :
    ∃ directory name, files.target path = .ok ⟨directory, some (.name name false)⟩ ∧
      place = directory.child name ∧ name.length ≤ maxName ∧
      files.get? place = old.map Node.file := by
  rw [writable?] at h
  split at h
  · rename_i directory name ht
    refine ⟨directory, name, ht, ?_⟩
    by_cases hlen : maxName < name.length
    · simp [lookup, hlen] at h
    · simp only [lookup, if_neg hlen] at h
      split at h
      · rename_i hl
        cases h
        exact ⟨rfl, Nat.le_of_not_lt hlen, Except.ok.inj hl⟩
      · rename_i hl
        cases h
        exact ⟨rfl, Nat.le_of_not_lt hlen, Except.ok.inj hl⟩
      · cases h
  · cases h

/-- A file put where a path can be written to is what the path then reads, and nothing else
changes. -/
theorem set_of_writable? {old : Option Content} (content : Content)
    (h : files.writable? path = some (place, old)) :
    Path.place? path = some place ∧ files.contents path = (old.getD .empty).text ∧
      AgreeOff [place] files (files.set place (.file content)) ∧
      (files.set place (.file content)).contents path = content.text := by
  obtain ⟨directory, name, ht, rfl, hlen, hget⟩ := writable?_some h
  have hn : (directory.child name).names ≠ [] := Place.child_ne directory name
  have hd : files.get? (directory.child name) ≠ some .directory := by
    rw [hget]
    cases old <;> simp
  have hagree := agreeOff_set content hd hn
  refine ⟨target_ok ht, ?_, hagree, ?_⟩
  · rw [contents, read?, stat, ht]
    simp only [lookup, if_neg (Nat.not_lt.mpr hlen), hget]
    cases old <;> rfl
  · rw [contents, read?, stat, (hagree.target ht).1]
    simp only [lookup, if_neg (Nat.not_lt.mpr hlen), get?_set_self hn]
    rfl

/-- Appending puts the text behind what the path reads. -/
theorem append?_some (h : files.append? path text = some files') :
    ∃ place, Path.place? path = some place ∧ AgreeOff [place] files files' ∧
      files'.contents path = files.contents path ++ text := by
  rw [append?, Option.ite_none_left_eq_some, Option.map_eq_some_iff] at h
  obtain ⟨-, ⟨place, old⟩, hw, rfl⟩ := h
  obtain ⟨hplace, hold, hagree, hnew⟩ :=
    set_of_writable? ((old.getD .empty).append text) hw
  exact ⟨place, hplace, hagree, by rw [hnew, hold, Content.text_append]⟩

/-- Writing puts the text in place of what the path reads. -/
theorem write?_some (h : files.write? path text = some files') :
    ∃ place, Path.place? path = some place ∧ AgreeOff [place] files files' ∧
      files'.get? place = some (.file (.ofText text)) := by
  rw [write?, Option.ite_none_left_eq_some, Option.map_eq_some_iff] at h
  obtain ⟨-, ⟨place, old⟩, hw, rfl⟩ := h
  obtain ⟨directory, name, -, rfl, -⟩ := writable?_some hw
  obtain ⟨hplace, -, hagree, -⟩ := set_of_writable? (.ofText text) hw
  exact ⟨_, hplace, hagree, get?_set_self (Place.child_ne directory name)⟩

/-! ## Renaming -/

/-- Where a node goes when what lies at `source` and below is moved. -/
def relocate (source target place : Place) : Place :=
  if place == source || source.isAbove place then source.moved target place else place

variable {source target : Place}

theorem relocate_of_within (h : place.Within source) :
    relocate source target place = source.moved target place := by
  rw [relocate, if_pos]
  rw [Place.within_iff_isAbove] at h
  simpa using h

theorem relocate_of_not_within (h : ¬ place.Within source) :
    relocate source target place = place := by
  rw [relocate, if_neg]
  rw [Place.within_iff_isAbove] at h
  simpa using h

theorem move_eq (files : Files) (source target : Place) :
    files.move source target =
      { files with
        nodes := (files.erase target).nodes.map fun node =>
          (relocate source target node.1, node.2) } := by
  rw [move]
  congr 1
  apply List.map_congr_left
  intro node _
  rw [relocate]
  split <;> rfl

theorem relocate_eq_target_iff (h : place ≠ target) :
    relocate source target place = target ↔ place = source := by
  by_cases hw : place.Within source
  · rw [relocate_of_within hw]
    constructor
    · intro heq
      have hnames := congrArg Place.names heq
      simp only [Place.moved, List.append_right_eq_self, List.drop_eq_nil_iff] at hnames
      obtain ⟨base, names⟩ := place
      obtain ⟨hbase, hpre⟩ := hw
      cases source
      simp only at hbase hpre hnames
      rw [hbase, hpre.eq_of_length_le hnames]
    · rintro rfl
      exact Place.moved_self _ _
  · rw [relocate_of_not_within hw]
    constructor
    · intro heq
      exact absurd heq h
    · rintro rfl
      exact absurd ⟨rfl, List.prefix_refl _⟩ hw

theorem relocate_ne_source (h : ¬ source.Within target) (place : Place) :
    relocate source target place ≠ source := by
  intro heq
  by_cases hw : place.Within source
  · rw [relocate_of_within hw] at heq
    rw [← heq] at h
    exact h (Place.moved_within source target place)
  · rw [relocate_of_not_within hw] at heq
    rw [heq] at hw
    exact hw ⟨rfl, List.prefix_refl _⟩

theorem relocate_eq_other_iff (hs : ¬ other.Within source) (ht : ¬ other.Within target) :
    relocate source target place = other ↔ place = other := by
  by_cases hw : place.Within source
  · rw [relocate_of_within hw]
    constructor
    · rintro rfl
      exact absurd (Place.moved_within source target place) ht
    · rintro rfl
      exact absurd hw hs
  · rw [relocate_of_not_within hw]

theorem lookup_map_key (nodes : List (Place × Node)) (f : Place → Place) (p q : Place)
    (h : ∀ node ∈ nodes, f node.1 = p ↔ node.1 = q) :
    (nodes.map fun node => (f node.1, node.2)).lookup p = nodes.lookup q := by
  induction nodes with
  | nil => rfl
  | cons node nodes ih =>
      rw [List.map_cons, List.lookup_cons, List.lookup_cons,
        ih fun node hn => h node (List.mem_cons_of_mem _ hn)]
      have hbeq : (p == f node.1) = (q == node.1) := by
        rw [Bool.eq_iff_iff, beq_iff_eq, beq_iff_eq, eq_comm, h node List.mem_cons_self, eq_comm]
      rw [hbeq]

theorem get?_move_target (hn : target.names ≠ []) (hs : source.names ≠ []) (h : source ≠ target) :
    (files.move source target).get? target = files.get? source := by
  rw [get?_of_names_ne hn, move_eq, lookup_map_key _ _ _ source, erase, lookup_filter_ne _ h,
    get?_of_names_ne hs]
  intro node hnode
  exact relocate_eq_target_iff (bne_iff_ne.mp (List.mem_filter.mp hnode).2)

theorem get?_move_source (hs : source.names ≠ []) (h : ¬ source.Within target) :
    (files.move source target).get? source = none := by
  rw [get?_of_names_ne hs, move_eq, List.lookup_eq_none_iff]
  intro node hnode
  obtain ⟨old, -, rfl⟩ := List.mem_map.mp hnode
  exact bne_iff_ne.mpr (relocate_ne_source h old.1).symm

theorem get?_move_other (hs : ¬ other.Within source) (ht : ¬ other.Within target) :
    (files.move source target).get? other = files.get? other := by
  have hne : other ≠ target := by
    rintro rfl
    exact ht ⟨rfl, List.prefix_refl _⟩
  calc (files.move source target).get? other
      = (files.erase target).get? other := by
        rw [get?, get?, move_eq, lookup_map_key _ _ _ other]
        intro node _
        exact relocate_eq_other_iff hs ht
    _ = files.get? other := get?_erase_ne hne

/-- What a way that ends in a name leads to, beside what stands there. -/
structure Named (files : Files) (path : Bytes) (place : Place) (slash : Bool)
    (node : Option Node) : Prop where
  target_eq : ∃ directory name, files.target path = .ok ⟨directory, some (.name name slash)⟩ ∧
    place = directory.child name ∧ name.length ≤ maxName
  get?_eq : files.get? place = node

namespace Named

variable {slash : Bool} {found : Option Node}

theorem of_lookup {directory : Place} {name : Bytes}
    (ht : files.target path = .ok ⟨directory, some (.name name slash)⟩)
    (hl : files.lookup directory name = .ok found) :
    Named files path (directory.child name) slash found := by
  rw [lookup] at hl
  split at hl
  · cases hl
  · rename_i hlen
    exact ⟨⟨directory, name, ht, rfl, Nat.le_of_not_lt hlen⟩, Except.ok.inj hl⟩

theorem place_eq (h : Named files path place slash found) : Path.place? path = some place := by
  obtain ⟨⟨directory, name, ht, rfl, -⟩, -⟩ := h
  exact target_ok ht

theorem names_ne_nil (h : Named files path place slash found) : place.names ≠ [] := by
  obtain ⟨⟨directory, name, -, rfl, -⟩, -⟩ := h
  exact Place.child_ne directory name

theorem read?_file {content : Content}
    (h : Named files path place false (some (.file content))) :
    files.read? path = some content.text := by
  obtain ⟨⟨directory, name, ht, rfl, hlen⟩, hget⟩ := h
  rw [read?, stat, ht]
  simp only [lookup, if_neg (Nat.not_lt.mpr hlen), hget]
  rfl

theorem contents_file {content : Content}
    (h : Named files path place false (some (.file content))) :
    files.contents path = content.text := by
  rw [contents, h.read?_file]
  rfl

theorem contents_eq_nil (h : Named files path place slash found)
    (hf : ∀ c, found ≠ some (.file c)) : files.contents path = [] := by
  apply Files.contents_eq_nil
  intro place' hplace
  rw [h.place_eq, Option.some.injEq] at hplace
  rw [← hplace, h.get?_eq]
  exact hf

/-- The way stays open in a tree that agrees off some places. -/
theorem agree {places : List Place} (h : Named files path place slash found)
    (hagree : AgreeOff places files files') :
    Named files' path place slash (files'.get? place) := by
  obtain ⟨⟨directory, name, ht, rfl, hlen⟩, -⟩ := h
  exact ⟨⟨directory, name, (hagree.target ht).1, rfl, hlen⟩, rfl⟩

end Named

/-- There is no directory under the path, if it ends in a name. -/
def NoDirectory (files : Files) (path : Bytes) : Prop :=
  ∀ place slash, ¬ Named files path place slash (some .directory)

/-- A sequence of file operations succeeds when each of them does. -/
theorem bind_eq_ok {α β : Type} {first : Except FileError α} {rest : α → Except FileError β}
    {b : β} (h : (first >>= rest) = .ok b) : ∃ a, first = .ok a ∧ rest a = .ok b := by
  cases first with
  | error e => cases h
  | ok a => exact ⟨a, rfl, h⟩

theorem rename_ok {path' : Bytes} (h : files.rename path path' = .ok files') :
    ∃ source target oldSlash newSlash node found,
      Named files path source oldSlash (some node) ∧ Named files path' target newSlash found ∧
      allowsSlash node (oldSlash || newSlash) = true ∧
      files.replace source target node = .ok files' := by
  obtain ⟨⟨directory, last⟩, hs, h⟩ := bind_eq_ok h
  obtain ⟨⟨directory', last'⟩, ht, h⟩ := bind_eq_ok h
  simp only at h
  split at h
  · rename_i old oldSlash new newSlash
    obtain ⟨found, hl, h⟩ := bind_eq_ok h
    cases found with
    | none => cases h
    | some node =>
        simp only at h
        obtain ⟨found, hl', h⟩ := bind_eq_ok h
        split at h
        · rename_i hslash
          exact ⟨_, _, _, _, node, found, Named.of_lookup hs hl, Named.of_lookup ht hl', hslash, h⟩
        · cases h
  · cases h

/-- What replacing makes of the tree, for two places. -/
theorem replace_ok (hne : source ≠ target) (h : files.replace source target node = .ok files') :
    ¬ target.Within source ∧ ¬ source.Within target ∧ files' = files.move source target ∧
      (node ≠ .directory → files.get? target ≠ some .directory) ∧
      (node = .directory → ∀ c, files.get? target ≠ some (.file c)) := by
  unfold replace at h
  split at h
  · cases h
  · rename_i hst
    split at h
    · cases h
    · rename_i hts
      refine ⟨?_, ?_, ?_⟩
      · rw [Place.within_iff_isAbove]
        rintro (heq | habove)
        · exact hne heq.symm
        · exact hst habove
      · rw [Place.within_iff_isAbove]
        rintro (heq | habove)
        · exact hne heq
        · exact hts habove
      · split at h
        · cases h
        · cases h
        · rename_i hget
          split at h
          · cases h
          · cases h
            simp [hget]
        · rename_i moved _ _ hfile hdir _
          cases h
          refine ⟨rfl, ?_, ?_⟩
          · intro hn hget
            cases moved with
            | file c => exact hfile c rfl hget
            | directory => exact hn rfl
          · intro hn c hget
            exact hdir c hn hget

/-- Moving a file changes nothing but what stands at the two places. -/
theorem agreeOff_move (hn : source.names ≠ []) (hm : target.names ≠ [])
    (hst : ¬ source.Within target) (hs : files.get? source ≠ some .directory)
    (ht : files.get? target ≠ some .directory) :
    AgreeOff [source, target] files (files.move source target) := by
  have hne : source ≠ target := by
    rintro rfl
    exact hst ⟨rfl, List.prefix_refl _⟩
  refine ⟨?_, ?_, ?_, rfl⟩
  · intro other hother
    refine (get?_move_other (hother _ ?_) (hother _ ?_)).symm
    · simp
    · simp
  · intro x hx
    rcases List.mem_pair.mp hx with rfl | rfl
    · exact hs
    · exact ht
  · intro x hx
    rcases List.mem_pair.mp hx with rfl | rfl
    · rw [get?_move_source hn hst]
      simp
    · rw [get?_move_target hm hn hne]
      exact hs

/-- A file that is renamed is found under its new path. If that leads to another place, the file
is gone from the old one, and nothing else changes. -/
theorem Named.rename {path' : Bytes} {slash : Bool} {content : Content}
    (hn : Named files path source slash (some (.file content)))
    (h : files.rename path path' = .ok files') :
    ∃ target, Named files' path' target false (some (.file content)) ∧
      (source ≠ target → Named files path source false (some (.file content)) ∧
        AgreeOff [source, target] files files' ∧ Named files' path source false none) := by
  obtain ⟨place, target, oldSlash, newSlash, node, found, hs, ht, hslash, hr⟩ := rename_ok h
  obtain rfl : place = source := Option.some.inj (hs.place_eq.symm.trans hn.place_eq)
  obtain rfl : node = .file content := Option.some.inj (hs.get?_eq.symm.trans hn.get?_eq)
  have hget := hs.get?_eq
  simp only [allowsSlash, Bool.not_or, Bool.or_eq_true, Bool.and_eq_true, Bool.not_eq_true',
    beq_iff_eq, reduceCtorEq, or_false] at hslash
  obtain ⟨rfl, rfl⟩ := hslash
  by_cases hplaces : place = target
  · subst hplaces
    have habove : place.isAbove place = false := by
      rw [Bool.eq_false_iff]
      exact fun h => ((Place.isAbove_iff _ _).mp h).2 rfl
    have hsame : files.replace place place (.file content) = .ok files := by
      unfold replace
      rw [habove, if_neg Bool.false_ne_true, if_neg Bool.false_ne_true, if_pos rfl]
    rw [hsame] at hr
    cases hr
    rw [← ht.get?_eq, hget] at ht
    exact ⟨place, ht, fun hne => absurd rfl hne⟩
  · obtain ⟨-, hst, rfl, htarget, -⟩ := replace_ok hplaces hr
    have hagree := agreeOff_move hs.names_ne_nil ht.names_ne_nil hst (by simp [hget])
      (htarget (by simp))
    have hs' := hs.agree hagree
    have ht' := ht.agree hagree
    rw [get?_move_source hs.names_ne_nil hst] at hs'
    rw [get?_move_target ht.names_ne_nil hs.names_ne_nil hplaces, hget] at ht'
    exact ⟨target, ht', fun _ => ⟨hs, hagree, hs'⟩⟩

/-- Renaming takes a file from one place to the other, and nothing else changes. -/
theorem rename_named {path' : Bytes} (hd : files.NoDirectory path) (hne : Path.Apart path path')
    (h : files.rename path path' = .ok files') :
    ∃ source target content, Named files path source false (some (.file content)) ∧
      AgreeOff [source, target] files files' ∧ Named files' path source false none ∧
      Named files' path' target false (some (.file content)) := by
  obtain ⟨source, -, oldSlash, -, node, -, hs, -, -, -⟩ := rename_ok h
  cases node with
  | directory => exact absurd hs (hd source oldSlash)
  | file content =>
      obtain ⟨target, ht', hmoved⟩ := hs.rename h
      have hplaces : source ≠ target := by
        rintro rfl
        exact hne _ hs.place_eq ht'.place_eq
      obtain ⟨hs, hagree, hs'⟩ := hmoved hplaces
      exact ⟨source, target, content, hs, hagree, hs', ht'⟩

/-- Renaming a file takes its text to the new path, and nothing else changes. -/
theorem rename_file {path' : Bytes} {content : Content}
    (hfile : ∀ place, Path.place? path = some place → files.get? place = some (.file content))
    (hne : Path.Apart path path') (h : files.rename path path' = .ok files') :
    ∃ source target, Path.place? path = some source ∧ Path.place? path' = some target ∧
      AgreeOff [source, target] files files' ∧ files.contents path = content.text ∧
      files'.contents path = [] ∧ files'.contents path' = content.text := by
  have hd : files.NoDirectory path := by
    intro place slash hn
    have hget := hfile place hn.place_eq
    rw [hn.get?_eq] at hget
    cases hget
  obtain ⟨source, target, moved, hs, hagree, hs', ht'⟩ := rename_named hd hne h
  have hget := hfile source hs.place_eq
  rw [hs.get?_eq] at hget
  cases hget
  exact ⟨source, target, hs.place_eq, ht'.place_eq, hagree, hs.contents_file,
    hs'.contents_eq_nil (by simp), ht'.contents_file⟩

/-- Renaming a directory takes no text from one path to the other. -/
theorem rename_directory {path' : Bytes}
    (hdir : ∀ place, Path.place? path = some place → ∀ c, files.get? place ≠ some (.file c))
    (hne : Path.Apart path path') (h : files.rename path path' = .ok files') :
    files'.contents path = [] ∧ files'.contents path' = [] := by
  obtain ⟨source, target, oldSlash, newSlash, node, found, hs, ht, -, hr⟩ := rename_ok h
  have hplaces : source ≠ target := by
    rintro rfl
    exact hne _ hs.place_eq ht.place_eq
  obtain ⟨-, hst, rfl, -⟩ := replace_ok hplaces hr
  constructor
  · apply contents_eq_nil
    rw [hs.place_eq]
    rintro place ⟨⟩
    rw [get?_move_source hs.names_ne_nil hst]
    simp
  · apply contents_eq_nil
    rw [ht.place_eq]
    rintro place ⟨⟩
    rw [get?_move_target ht.names_ne_nil hs.names_ne_nil hplaces]
    exact hdir source hs.place_eq

/-- Renaming takes the text of one path to another. -/
theorem contents_rename {path' : Bytes} (hne : Path.Apart path path')
    (h : files.rename path path' = .ok files') :
    files'.contents path' = files.contents path ∧ files'.contents path = [] := by
  by_cases hfile : ∃ content, ∀ place, Path.place? path = some place →
      files.get? place = some (.file content)
  · obtain ⟨content, hfile⟩ := hfile
    obtain ⟨-, -, -, -, -, hold, hsource, htarget⟩ := rename_file hfile hne h
    exact ⟨htarget.trans hold.symm, hsource⟩
  · have hdir : ∀ place, Path.place? path = some place →
        ∀ c, files.get? place ≠ some (.file c) := by
      intro place hplace c hc
      apply hfile
      refine ⟨c, fun place' hplace' => ?_⟩
      rw [hplace, Option.some.injEq] at hplace'
      rw [← hplace', hc]
    obtain ⟨hsource, htarget⟩ := rename_directory hdir hne h
    exact ⟨htarget.trans (contents_eq_nil hdir).symm, hsource⟩

/-! ## Removing -/

/-- What is deleted stood under a name. -/
theorem delete_ok (h : files.delete path = .ok files') :
    ∃ place slash node, Named files path place slash (some node) ∧ files' = files.erase place := by
  obtain ⟨⟨directory, last⟩, ht, h⟩ := bind_eq_ok h
  cases last with
  | none => cases h
  | some step =>
      cases step with
      | stay => cases h
      | up => cases h
      | name name slash =>
          obtain ⟨found, hl, h⟩ := bind_eq_ok h
          cases found with
          | none => cases h
          | some node =>
              refine ⟨_, slash, node, Named.of_lookup ht hl, ?_⟩
              simp only at h
              split at h
              · cases h
              · split at h
                · cases h
                · cases h
                  rfl

/-- Where nothing is to be deleted there is no text. -/
theorem contents_of_delete_missing (h : files.delete path = .error .missing) :
    files.contents path = [] := by
  rw [delete] at h
  cases ht : files.target path with
  | error e => exact contents_of_target_error ht
  | ok t =>
      obtain ⟨directory, last⟩ := t
      rw [ht] at h
      cases last with
      | none => cases h
      | some step =>
          cases step with
          | stay => cases h
          | up => cases h
          | name name slash =>
              simp only [bind, Except.bind] at h
              cases hl : files.lookup directory name with
              | error e =>
                  rw [contents, read?, stat, ht]
                  simp only [hl]
                  rfl
              | ok found =>
                  rw [hl] at h
                  cases found with
                  | none => exact (Named.of_lookup ht hl).contents_eq_nil (by simp)
                  | some node =>
                      simp only at h
                      split at h
                      · cases h
                      · split at h
                        · cases h
                        · cases h

theorem erase_below (files : Files) (place : Place) : Below (files.erase place) files := by
  intro other node h
  by_cases heq : other = place
  · subst heq
    by_cases hn : other.names = []
    · simp only [get?, hn] at h ⊢
      exact h
    · rw [get?_erase_self hn] at h
      cases h
  · rw [get?_erase_ne heq] at h
    exact h

theorem remove_below (h : files.remove path = .ok files') : Below files' files := by
  unfold remove at h
  split at h
  · cases h
    exact fun _ _ hget => hget
  · obtain ⟨place, -, -, -, rfl⟩ := delete_ok h
    exact erase_below files place

/-- Nothing is left under a path that has been removed. -/
theorem contents_remove (h : files.remove path = .ok files') : files'.contents path = [] := by
  unfold remove at h
  split at h
  · rename_i hd
    cases h
    exact contents_of_delete_missing hd
  · obtain ⟨place, slash, node, hnamed, rfl⟩ := delete_ok h
    apply contents_eq_nil
    rw [hnamed.place_eq]
    rintro place' ⟨⟩
    rw [get?_erase_self hnamed.names_ne_nil]
    simp

/-- Removing a file changes no other text. -/
theorem contents_remove_file {path' : Bytes} {content : Content}
    (hfile : ∀ place, Path.place? path = some place → files.get? place = some (.file content))
    (hne : Path.Apart path path') (h : files.remove path = .ok files') :
    files'.contents path' = files.contents path' := by
  unfold remove at h
  split at h
  · cases h
    rfl
  · obtain ⟨place, slash, node, hnamed, rfl⟩ := delete_ok h
    apply (agreeOff_erase _ hnamed.names_ne_nil).contents_eq
    · intro x hx
      rw [List.mem_singleton.mp hx]
      exact hne place hnamed.place_eq
    · rw [hfile place hnamed.place_eq]
      simp

/-- Where a place has been erased, a step leads to where it led before, or finds nothing. -/
theorem enter_erase (files : Files) (place directory : Place) (name : Bytes) :
    (files.erase place).enter directory name = files.enter directory name ∨
      (files.erase place).enter directory name = .error .missing := by
  rw [enter, enter]
  cases Step.ofName name false with
  | stay => exact .inl rfl
  | up => exact .inl rfl
  | name name slash =>
      simp only [lookup]
      by_cases hlen : maxName < name.length
      · rw [if_pos hlen, if_pos hlen]
        exact .inl rfl
      · rw [if_neg hlen, if_neg hlen]
        by_cases hplace : directory.child name = place
        · rw [← hplace, get?_erase_self (Place.child_ne directory name)]
          exact .inr rfl
        · rw [get?_erase_ne hplace]
          exact .inl rfl

theorem foldlM_enter_erase (files : Files) (place : Place) (names : List Bytes)
    (directory : Place) :
    names.foldlM (files.erase place).enter directory = names.foldlM files.enter directory ∨
      names.foldlM (files.erase place).enter directory = .error .missing := by
  induction names generalizing directory with
  | nil => exact .inl rfl
  | cons name names ih =>
      rw [List.foldlM_cons, List.foldlM_cons]
      rcases enter_erase files place directory name with heq | heq
      · rw [heq]
        cases files.enter directory name with
        | error e => exact .inl rfl
        | ok next => exact ih next
      · rw [heq]
        exact .inr rfl

theorem target_erase (files : Files) (place : Place) (path : Bytes) :
    (files.erase place).target path = files.target path ∨
      (files.erase place).target path = .error .missing := by
  rw [target, target]
  cases Path.ofText path with
  | error e => exact .inl rfl
  | ok p =>
      simp only
      rcases foldlM_enter_erase files place p.names p.start with heq | heq
      · rw [heq]
        exact .inl rfl
      · rw [heq]
        exact .inr rfl

/-- Under a path to another place there is after an erasure what was there before, unless the way
is gone. -/
theorem stat_erase_of_target (h : (files.erase place).target path = files.target path)
    (hne : Path.place? path ≠ some place) : (files.erase place).stat path = files.stat path := by
  rw [stat, stat, h]
  cases ht : files.target path with
  | error e => rfl
  | ok t =>
      obtain ⟨directory, last⟩ := t
      cases last with
      | none => rfl
      | some step =>
          cases step with
          | stay => rfl
          | up => rfl
          | name name slash =>
              have hplace : directory.child name ≠ place := by
                rintro rfl
                exact hne (target_ok ht)
              simp only [lookup, get?_erase_ne hplace]

/-- What cannot be removed after something else has been removed is as it was. -/
theorem node?_of_remove_error {path' : Bytes} {e : FileError} (hne : Path.Apart path path')
    (h : files.remove path = .ok files') (he : files'.remove path' = .error e) :
    files'.node? path' = files.node? path' := by
  unfold remove at h
  split at h
  · cases h
    rfl
  · obtain ⟨place, slash, node, hnamed, rfl⟩ := delete_ok h
    have htarget : (files.erase place).target path' = files.target path' := by
      rcases target_erase files place path' with heq | heq
      · exact heq
      · rw [remove, delete, heq] at he
        cases he
    rw [node?, node?, stat_erase_of_target htarget (hne place hnamed.place_eq)]

end Files

end ResolverLog
