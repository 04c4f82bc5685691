import ResolverLog.Files
import Mathlib.Data.List.Basic

/-!
# What file operations leave alone

There are no links between directories, so the place that a path leads to can
be read off its names; the tree decides only whether the way is open. An
operation on files changes what stands at one or two places that are no
directories before or after it. Every way that leads past these places stays
open or closed, and whatever a path to another place reads stays the same.

## Implementation notes

A tree may list places below a file. No way leads there, so they are left out
of the comparison of two trees instead of being excluded by an invariant.
-/

namespace ResolverLog

open Bytes

/-! ## Places -/

namespace Place

/-- The place that a name leads to from a directory. -/
def step (directory : Place) (name : Bytes) : Place :=
  match Step.ofName name false with
  | .stay => directory
  | .up => directory.parent
  | .name name _ => directory.child name

/-- A place is at `top` or below it. -/
def Within (place top : Place) : Prop :=
  place.base = top.base ∧ top.names <+: place.names

variable {place top directory : Place} {name : Bytes}

theorem child_ne (directory : Place) (name : Bytes) : (directory.child name).names ≠ [] := by
  simp [child]

theorem child_inj {other : Bytes} :
    directory.child name = directory.child other ↔ name = other := by
  simp [child]

/-- What is within `top` one name further down is there already or arrives at `top`. -/
theorem within_child (h : (directory.child name).Within top) :
    directory.Within top ∨ directory.child name = top := by
  obtain ⟨hbase, hnames⟩ := h
  rcases List.prefix_concat_iff.mp hnames with heq | hpre
  · apply Or.inr
    cases top
    simp only [child] at hbase heq ⊢
    rw [hbase, heq]
  · exact Or.inl ⟨hbase, hpre⟩

/-- Going up does not lead into a place. -/
theorem within_of_parent (hne : top.names ≠ []) (h : directory.parent.Within top) :
    directory.Within top := by
  obtain ⟨base, names⟩ := directory
  obtain ⟨hbase, hnames⟩ := h
  cases names with
  | nil =>
      cases base with
      | above levels => exact absurd (List.prefix_nil.mp hnames) hne
      | root => exact ⟨hbase, hnames⟩
  | cons name names =>
      exact ⟨hbase, hnames.trans (List.dropLast_prefix _)⟩

theorem moved_within (source target place : Place) : (source.moved target place).Within target :=
  ⟨rfl, List.prefix_append _ _⟩

theorem moved_self (source target : Place) : source.moved target source = target := by
  simp [moved]

theorem isAbove_iff (top place : Place) :
    top.isAbove place = true ↔ place.Within top ∧ place ≠ top := by
  obtain ⟨base, names⟩ := place
  obtain ⟨topBase, topNames⟩ := top
  simp only [isAbove, Bool.and_eq_true, beq_iff_eq, List.isPrefixOf_iff_prefix, decide_eq_true_eq,
    Within, ne_eq, Place.mk.injEq, not_and]
  constructor
  · rintro ⟨⟨hbase, hpre⟩, hlen⟩
    refine ⟨⟨hbase.symm, hpre⟩, fun _ heq => ?_⟩
    rw [heq] at hlen
    exact Nat.lt_irrefl _ hlen
  · rintro ⟨⟨hbase, hpre⟩, hne⟩
    refine ⟨⟨hbase.symm, hpre⟩, ?_⟩
    rcases Nat.lt_or_ge topNames.length names.length with hlt | hge
    · exact hlt
    · exact absurd (hpre.eq_of_length_le hge).symm (hne hbase)

theorem within_iff_isAbove (top place : Place) :
    place.Within top ↔ place = top ∨ top.isAbove place = true := by
  rw [isAbove_iff]
  by_cases h : place = top
  · subst h
    simp [Within]
  · simp [h]

end Place

/-! ## Ways -/

namespace Path

/-- The place that a path leads to if the way there is open. -/
def place? (text : Bytes) : Option Place :=
  match ofText text with
  | .ok path => some (Target.place ⟨path.names.foldl Place.step path.start, path.last⟩)
  | .error _ => none

/-- Two paths never lead to the same place. -/
def Apart (text other : Bytes) : Prop :=
  ∀ place, place? text = some place → place? other ≠ some place

theorem Apart.symm {text other : Bytes} (h : Apart text other) : Apart other text := by
  intro place hother htext
  exact h place htext hother

/-- The place that the pieces of a path between its slashes lead to. -/
def resolve (pieces : List Bytes) : Place :=
  (pieces.filter fun piece => !piece.isEmpty).foldl Place.step
    (if pieces.head? = some [] then Place.root else Place.working)

theorem place_ofName (directory : Place) (name : Bytes) (slash : Bool) :
    Target.place ⟨directory, some (Step.ofName name slash)⟩ = directory.step name := by
  rw [Place.step, Step.ofName, Step.ofName]
  split_ifs <;> rfl

theorem place_getLast? (names : List Bytes) (start : Place) (slash : Bool) :
    Target.place ⟨names.dropLast.foldl Place.step start,
      names.getLast?.map fun name => Step.ofName name slash⟩ = names.foldl Place.step start := by
  rcases List.eq_nil_or_concat names with rfl | ⟨names, name, rfl⟩
  · rfl
  · rw [List.concat_eq_append, List.dropLast_concat, List.getLast?_concat, Option.map_some,
      place_ofName, List.foldl_append]
    rfl

theorem place?_eq_some_iff {text : Bytes} {place : Place} :
    place? text = some place ↔
      beforeNul text ≠ [] ∧ (beforeNul text).length ≤ maxLength ∧
        resolve (splitOn 0x2F (beforeNul text)) = place := by
  rw [place?, ofText]
  by_cases hnil : beforeNul text = []
  · simp [hnil]
  · by_cases hlen : maxLength < (beforeNul text).length
    · simp only [List.isEmpty_iff, hnil, hlen, if_false, if_true, reduceCtorEq, false_iff]
      rintro ⟨-, hle, -⟩
      exact absurd hlen (Nat.not_lt.mpr hle)
    · simp only [List.isEmpty_iff, hnil, hlen, if_false, Option.some.injEq, ne_eq,
        not_false_eq_true, Nat.le_of_not_lt hlen, true_and, place_getLast?, resolve]

theorem start_names {text : Bytes} {path : Path} (h : ofText text = .ok path) :
    path.start.names = [] := by
  rw [ofText] at h
  simp only at h
  split at h
  · cases h
  · split at h
    · cases h
    · cases h
      simp only
      split
      · rfl
      · rfl

end Path

namespace Files

variable {files files' : Files} {places : List Place}

/-- One name of an open way stays, goes up, or goes down into a directory. -/
theorem enter_cases {directory next : Place} {name : Bytes}
    (h : files.enter directory name = .ok next) :
    next = directory ∨ next = directory.parent ∨
      ∃ name, next = directory.child name ∧ files.get? next = some .directory := by
  rw [Files.enter] at h
  cases hs : Step.ofName name false with
  | stay =>
      simp only [hs, Except.ok.injEq] at h
      exact Or.inl h.symm
  | up =>
      simp only [hs, Except.ok.injEq] at h
      exact Or.inr (Or.inl h.symm)
  | name name slash =>
      simp only [hs, lookup] at h
      split at h
      · cases h
      · cases h
      · cases h
      · rename_i hl
        cases h
        refine Or.inr (Or.inr ⟨name, rfl, ?_⟩)
        split at hl
        · cases hl
        · exact Except.ok.inj hl

/-- One name of an open way leads on in every tree that has the directory it leads to. -/
theorem enter_transfer {directory next : Place} {name : Bytes}
    (h : files.enter directory name = .ok next)
    (hd : files.get? next = some .directory → files'.get? next = some .directory) :
    files'.enter directory name = .ok next := by
  rw [Files.enter] at h ⊢
  cases hs : Step.ofName name false with
  | stay =>
      simp only [hs] at h ⊢
      exact h
  | up =>
      simp only [hs] at h ⊢
      exact h
  | name name slash =>
      simp only [hs, lookup] at h ⊢
      split at h
      · cases h
      · cases h
      · cases h
      · rename_i hl
        cases h
        split at hl
        · cases hl
        · rename_i hlen
          rw [if_neg hlen, hd (Except.ok.inj hl)]

/-- Two trees agree everywhere but at and below some places, which are no directories. -/
structure AgreeOff (places : List Place) (files files' : Files) : Prop where
  get?_eq : ∀ place, (∀ x ∈ places, ¬ place.Within x) → files.get? place = files'.get? place
  ne_directory : ∀ x ∈ places, files.get? x ≠ some .directory
  ne_directory' : ∀ x ∈ places, files'.get? x ≠ some .directory
  full_eq : files'.full = files.full

namespace AgreeOff

theorem symm (h : AgreeOff places files files') : AgreeOff places files' files :=
  ⟨fun place hp => (h.get?_eq place hp).symm, h.ne_directory', h.ne_directory, h.full_eq.symm⟩

theorem trans {files'' : Files} (h : AgreeOff places files files')
    (h' : AgreeOff places files' files'') : AgreeOff places files files'' :=
  ⟨fun place hp => (h.get?_eq place hp).trans (h'.get?_eq place hp), h.ne_directory,
    h'.ne_directory', h'.full_eq.trans h.full_eq⟩

theorem names_ne_nil (h : AgreeOff places files files') {x : Place} (hx : x ∈ places) :
    x.names ≠ [] := by
  intro hnil
  apply h.ne_directory x hx
  simp [get?, hnil]

/-- One name of an open way leads on, and not into the places where the trees differ. -/
theorem enter (h : AgreeOff places files files') {directory next : Place} {name : Bytes}
    (hd : ∀ x ∈ places, ¬ directory.Within x) (he : files.enter directory name = .ok next) :
    files'.enter directory name = .ok next ∧ ∀ x ∈ places, ¬ next.Within x := by
  have hout : ∀ x ∈ places, ¬ next.Within x := by
    intro x hx hw
    rcases enter_cases he with rfl | rfl | ⟨name, rfl, hget⟩
    · exact hd x hx hw
    · exact hd x hx (Place.within_of_parent (h.names_ne_nil hx) hw)
    · rcases Place.within_child hw with hw | rfl
      · exact hd x hx hw
      · exact h.ne_directory _ hx hget
  refine ⟨enter_transfer he ?_, hout⟩
  intro hget
  rw [← h.get?_eq next hout, hget]

theorem foldlM_enter (h : AgreeOff places files files') {names : List Bytes}
    {directory next : Place}
    (hd : ∀ x ∈ places, ¬ directory.Within x) (he : names.foldlM files.enter directory = .ok next) :
    names.foldlM files'.enter directory = .ok next ∧ ∀ x ∈ places, ¬ next.Within x := by
  induction names generalizing directory with
  | nil =>
      cases he
      exact ⟨rfl, hd⟩
  | cons name names ih =>
      rw [List.foldlM_cons] at he ⊢
      cases hm : files.enter directory name with
      | error e =>
          rw [hm] at he
          cases he
      | ok mid =>
          rw [hm] at he
          obtain ⟨hm', hout⟩ := h.enter hd hm
          rw [hm']
          exact ih hout he

/-- A way that is open in one of the trees is open in the other. -/
theorem target (h : AgreeOff places files files') {path : Bytes} {t : Target}
    (ht : files.target path = .ok t) :
    files'.target path = .ok t ∧ ∀ x ∈ places, ¬ t.directory.Within x := by
  rw [Files.target] at ht ⊢
  cases hp : Path.ofText path with
  | error e =>
      rw [hp] at ht
      cases ht
  | ok p =>
      have hstart : ∀ x ∈ places, ¬ p.start.Within x := by
        intro x hx hw
        have hpre := hw.2
        rw [Path.start_names hp] at hpre
        exact h.names_ne_nil hx (List.prefix_nil.mp hpre)
      simp only [hp] at ht ⊢
      cases hw : p.names.foldlM files.enter p.start with
      | error e =>
          rw [hw] at ht
          cases ht
      | ok directory =>
          rw [hw] at ht
          obtain ⟨hw', hout⟩ := h.foldlM_enter hstart hw
          rw [hw']
          cases ht
          exact ⟨rfl, hout⟩

end AgreeOff

/-! ## Trees with less in them -/

/-- What one tree has at a place the other has there as well. -/
def Below (files files' : Files) : Prop :=
  ∀ place node, files.get? place = some node → files'.get? place = some node

namespace Below

theorem foldlM_enter (h : Below files files') {names : List Bytes} {directory next : Place}
    (he : names.foldlM files.enter directory = .ok next) :
    names.foldlM files'.enter directory = .ok next := by
  induction names generalizing directory with
  | nil => exact he
  | cons name names ih =>
      rw [List.foldlM_cons] at he ⊢
      cases hm : files.enter directory name with
      | error e =>
          rw [hm] at he
          cases he
      | ok mid =>
          rw [hm] at he
          rw [enter_transfer hm (h mid .directory)]
          exact ih he

theorem target (h : Below files files') {path : Bytes} {t : Target}
    (ht : files.target path = .ok t) : files'.target path = .ok t := by
  rw [Files.target] at ht ⊢
  cases hp : Path.ofText path with
  | error e =>
      rw [hp] at ht
      cases ht
  | ok p =>
      simp only [hp] at ht ⊢
      cases hw : p.names.foldlM files.enter p.start with
      | error e =>
          rw [hw] at ht
          cases ht
      | ok directory =>
          rw [hw] at ht
          rw [h.foldlM_enter hw]
          exact ht

end Below

/-! ## Where ways lead -/

theorem enter_ok {directory next : Place} {name : Bytes}
    (h : files.enter directory name = .ok next) : next = directory.step name := by
  rw [Files.enter] at h
  rw [Place.step]
  cases hs : Step.ofName name false with
  | stay =>
      simp only [hs, Except.ok.injEq] at h ⊢
      exact h.symm
  | up =>
      simp only [hs, Except.ok.injEq] at h ⊢
      exact h.symm
  | name name slash =>
      simp only [hs] at h ⊢
      split at h
      · cases h
      · cases h
      · cases h
      · cases h
        rfl

theorem foldlM_enter_ok {names : List Bytes} {directory next : Place}
    (h : names.foldlM files.enter directory = .ok next) :
    next = names.foldl Place.step directory := by
  induction names generalizing directory with
  | nil =>
      cases h
      rfl
  | cons name names ih =>
      rw [List.foldlM_cons] at h
      cases hm : files.enter directory name with
      | error e =>
          rw [hm] at h
          cases h
      | ok mid =>
          rw [hm] at h
          rw [List.foldl_cons, ← enter_ok hm]
          exact ih h

/-- An open way leads to the place that its names tell. -/
theorem target_ok {path : Bytes} {t : Target} (h : files.target path = .ok t) :
    Path.place? path = some t.place := by
  rw [Files.target] at h
  rw [Path.place?]
  cases hp : Path.ofText path with
  | error e =>
      rw [hp] at h
      cases h
  | ok p =>
      simp only [hp] at h ⊢
      cases hw : p.names.foldlM files.enter p.start with
      | error e =>
          rw [hw] at h
          cases h
      | ok directory =>
          rw [hw] at h
          cases h
          rw [← foldlM_enter_ok hw]

/-! ## Readings -/

/-- The text under a path; a path that cannot be opened has none. -/
def contents (files : Files) (path : Bytes) : Bytes :=
  (files.read? path).getD []

theorem stat_of_target_error {path : Bytes} {e : FileError} (h : files.target path = .error e) :
    files.stat path = .error e := by
  rw [stat, h]

/-- The node that a path names, if it names any. -/
def node? (files : Files) (path : Bytes) : Option Node :=
  (files.stat path).toOption

theorem read?_eq_map (files : Files) (path : Bytes) : files.read? path = (files.node? path).map
    fun | .file content => content.text
        | .directory => [] := by
  rw [read?, node?]
  cases files.stat path with
  | error e => rfl
  | ok node =>
      cases node with
      | file content => rfl
      | directory => rfl

theorem contents_eq_of_node? {path : Bytes} (h : files'.node? path = files.node? path) :
    files'.contents path = files.contents path := by
  rw [contents, contents, read?_eq_map, read?_eq_map, h]

theorem node?_of_target_error {path : Bytes} {e : FileError} (h : files.target path = .error e) :
    files.node? path = none := by
  rw [node?, stat_of_target_error h]
  rfl

theorem read?_of_target_error {path : Bytes} {e : FileError} (h : files.target path = .error e) :
    files.read? path = none := by
  rw [read?, stat_of_target_error h]

theorem contents_of_target_error {path : Bytes} {e : FileError} (h : files.target path = .error e) :
    files.contents path = [] := by
  rw [contents, read?_of_target_error h]
  rfl

/-- Under a path to a place where no file stands there is no text. -/
theorem contents_eq_nil {path : Bytes}
    (h : ∀ place, Path.place? path = some place → ∀ c, files.get? place ≠ some (.file c)) :
    files.contents path = [] := by
  cases ht : files.target path with
  | error e => exact contents_of_target_error ht
  | ok t =>
      have hplace := h _ (target_ok ht)
      obtain ⟨directory, last⟩ := t
      rw [contents, read?, stat, ht]
      cases last with
      | none => rfl
      | some step =>
          cases step with
          | stay => rfl
          | up => rfl
          | name name slash =>
              simp only [Target.place] at hplace
              simp only [lookup]
              cases hl : files.get? (directory.child name) with
              | none =>
                  split_ifs <;> rfl
              | some node =>
                  cases node with
                  | file c => exact absurd hl (hplace c)
                  | directory =>
                      split_ifs <;> rfl

namespace AgreeOff

/-- Trees that agree off some places have the same under every path to another place. -/
theorem stat_eq (h : AgreeOff places files files') {path : Bytes} {t : Target}
    (ht : files.target path = .ok t) (hp : ∀ x ∈ places, t.place ≠ x) :
    files'.stat path = files.stat path := by
  obtain ⟨ht', hout⟩ := h.target ht
  obtain ⟨directory, last⟩ := t
  rw [stat, stat, ht', ht]
  cases last with
  | none => rfl
  | some step =>
      cases step with
      | stay => rfl
      | up => rfl
      | name name slash =>
          have hget : files.get? (directory.child name) = files'.get? (directory.child name) := by
            apply h.get?_eq
            intro x hx hw
            rcases Place.within_child hw with hw | heq
            · exact hout x hx hw
            · exact hp x hx heq
          simp only [lookup, hget]

/-- Trees that agree off some places have the same nodes under every path to another place. -/
theorem node?_eq (h : AgreeOff places files files') {path : Bytes}
    (hp : ∀ x ∈ places, Path.place? path ≠ some x) : files'.node? path = files.node? path := by
  cases ht : files.target path with
  | ok t =>
      have hne : ∀ x ∈ places, t.place ≠ x := by
        intro x hx heq
        apply hp x hx
        rw [target_ok ht, heq]
      rw [node?, node?, h.stat_eq ht hne]
  | error e =>
      cases ht' : files'.target path with
      | error e' => rw [node?_of_target_error ht, node?_of_target_error ht']
      | ok t =>
          rw [(h.symm.target ht').1] at ht
          cases ht

@[inherit_doc node?_eq]
theorem read?_eq (h : AgreeOff places files files') {path : Bytes}
    (hp : ∀ x ∈ places, Path.place? path ≠ some x) : files'.read? path = files.read? path := by
  rw [read?_eq_map, read?_eq_map, h.node?_eq hp]

theorem contents_eq (h : AgreeOff places files files') {path : Bytes}
    (hp : ∀ x ∈ places, Path.place? path ≠ some x) :
    files'.contents path = files.contents path :=
  contents_eq_of_node? (h.node?_eq hp)

end AgreeOff

/-- A tree with less in it has no text where there was none. -/
theorem Below.contents_eq_nil (h : Below files files') {path : Bytes}
    (hc : files'.contents path = []) : files.contents path = [] := by
  cases ht : files.target path with
  | error e => exact contents_of_target_error ht
  | ok t =>
      have ht' := h.target ht
      obtain ⟨directory, last⟩ := t
      rw [contents, read?, stat, ht'] at hc
      rw [contents, read?, stat, ht]
      cases last with
      | none => rfl
      | some step =>
          cases step with
          | stay => rfl
          | up => rfl
          | name name slash =>
              simp only [lookup] at hc ⊢
              cases hl : files.get? (directory.child name) with
              | none =>
                  split_ifs <;> rfl
              | some node =>
                  rw [h _ _ hl] at hc
                  exact hc

end Files

end ResolverLog
