import ResolverLog.Options
import ResolverLog.Proofs.Decimal
import ResolverLog.Proofs.Results
import Mathlib.Algebra.Ring.Int.Defs

/-!
# What a command line says

An accepted command line is a sequence of switches and of options with a value.
Each option sets one thing: to a text as it stands, to the number that its value
begins with, or to a level by its name. An option that stands there more than
once has its last value.
-/

namespace ResolverLog

namespace Options

open Results

variable {o o' : Options} {option value : Bytes} {words : List Bytes}

/-! ## Values -/

/-- A value begins with this number of 64 bits. A minus sign negates modulo the size of a word, and
a magnitude beyond it is no number. -/
def Denotes (value : Bytes) (n : UInt64) : Prop :=
  ∃ number, Decimal.BeginsWith value number ∧ number.magnitude < 2 ^ 64 ∧
    n = if number.negative then -number.magnitude.toUInt64 else number.magnitude.toUInt64

/-- A value begins with this signed number of 32 bits. -/
def DenotesSigned (value : Bytes) (n : Int) : Prop :=
  ∃ number, Decimal.BeginsWith value number ∧
    n = (if number.negative then -number.magnitude else number.magnitude : Int) ∧
    -2 ^ 31 ≤ n ∧ n < 2 ^ 31

/-- Negating a word and negating modulo its size are the same. -/
theorem toUInt64_sub_mod (magnitude : Nat) (h : magnitude < 2 ^ 64) :
    ((2 ^ 64 - magnitude) % 2 ^ 64).toUInt64 = -magnitude.toUInt64 := by
  have hword : magnitude.toUInt64.toNat = magnitude := Nat.mod_eq_of_lt h
  rw [← UInt64.toNat_inj, UInt64.toNat_neg, hword]
  exact Nat.mod_mod _ _

theorem unsigned_eq_ok_iff {n : UInt64} : unsigned value = .ok n ↔ Denotes value n := by
  constructor
  · intro h
    rw [unsigned] at h
    split at h
    · rename_i m hm
      obtain ⟨number, hleading, hword⟩ := Option.bind_eq_some_iff.mp hm
      rw [Decimal.Leading.word?] at hword
      split at hword
      · rename_i hlt
        refine ⟨number, Decimal.leading?_eq_some_iff.mp hleading, hlt, ?_⟩
        cases h
        cases hword
        split
        · exact toUInt64_sub_mod number.magnitude hlt
        · rfl
      · cases hword
    · cases h
  · rintro ⟨number, hbegins, hlt, rfl⟩
    rw [unsigned, Decimal.leading?_eq_some_iff.mpr hbegins, Option.bind_some, Decimal.Leading.word?]
    simp only [Nat.pow_eq, hlt, if_true]
    split
    · rw [toUInt64_sub_mod number.magnitude hlt]
    · rfl

theorem int32?_eq_some_iff {number : Decimal.Leading} {n : Int} : number.int32? = some n ↔
    n = (if number.negative then -number.magnitude else number.magnitude : Int) ∧
      -2 ^ 31 ≤ n ∧ n < 2 ^ 31 := by
  simp only [Decimal.Leading.int32?, Bool.and_eq_true, decide_eq_true_eq,
    Option.ite_none_right_eq_some, Option.some.injEq]
  constructor
  · rintro ⟨⟨hlow, hhigh⟩, rfl⟩
    exact ⟨rfl, hlow, by omega⟩
  · rintro ⟨rfl, hlow, hhigh⟩
    exact ⟨⟨hlow, by omega⟩, rfl⟩

theorem signed_eq_ok_iff {n : Int} : signed value = .ok n ↔ DenotesSigned value n := by
  constructor
  · intro h
    rw [signed] at h
    split at h
    · rename_i m hm
      obtain ⟨number, hleading, hint⟩ := Option.bind_eq_some_iff.mp hm
      cases h
      exact ⟨number, Decimal.leading?_eq_some_iff.mp hleading, int32?_eq_some_iff.mp hint⟩
    · cases h
  · rintro ⟨number, hbegins, hrange⟩
    rw [signed, Decimal.leading?_eq_some_iff.mpr hbegins, Option.bind_some,
      int32?_eq_some_iff.mpr hrange]

/-! ## Options -/

/-- The options that take a text. -/
def texts : List (Bytes × (Bytes → Options → Options)) :=
  [(ascii "--log-file", fun path o => { o with config := { o.config with logFile := path } }),
    (ascii "--file", fun path o => { o with feedFile := path }),
    (ascii "--http-user", fun name o => { o with httpUser := name }),
    (ascii "--http-pass", fun password o => { o with httpPassword := password }),
    (ascii "--err-log", fun path o => { o with noteFile := path })]

/-- The options that take a number. Those for hours keep its low 32 bits. -/
def numbers : List (Bytes × (UInt64 → Options → Options)) :=
  [(ascii "--interval-hours",
      fun n o => { o with config := { o.config with intervalHours := n.toUInt32 } }),
    (ascii "--stats-hours",
      fun n o => { o with config := { o.config with statsHours := n.toUInt32 } }),
    (ascii "--cache-size", fun n o => { o with config := { o.config with cacheSize := n } }),
    (ascii "--buffer-size", fun n o => { o with config := { o.config with bufferSize := n } }),
    (ascii "--top-size", fun n o => { o with config := { o.config with topSize := n } }),
    (ascii "--workers", fun n o => { o with workers := n }),
    (ascii "--qcap", fun n o => { o with queueCapacity := n })]

/-- An option with its value takes the options on its left to new ones. -/
inductive Sets (o : Options) : Bytes → Bytes → Options → Prop
  | text {option : Bytes} {set : Bytes → Options → Options} (value : Bytes)
      (h : (option, set) ∈ texts) : Sets o option value (set value o)
  | number {option value : Bytes} {set : UInt64 → Options → Options} {n : UInt64}
      (h : (option, set) ∈ numbers) (hn : Denotes value n) : Sets o option value (set n o)
  | port {value : Bytes} {n : Int} (hn : DenotesSigned value n) :
      Sets o (ascii "--http-port") value { o with httpPort := n }
  | level {value : Bytes} {level : Level} (h : Level.named? value = some level) :
      Sets o (ascii "--log-level") value { o with level }

theorem assign?_text {set : Bytes → Options → Options} (h : (option, set) ∈ texts) (o : Options)
    (value : Bytes) : assign? o option value = some (.ok (set value o)) := by
  have hall : ∀ entry ∈ texts, assign? o entry.1 value = some (.ok (entry.2 value o)) := by
    simp only [texts, List.forall_mem_cons]
    exact ⟨rfl, rfl, rfl, rfl, rfl, List.forall_mem_nil _⟩
  exact hall (option, set) h

theorem assign?_number {set : UInt64 → Options → Options} (h : (option, set) ∈ numbers)
    (o : Options) (value : Bytes) :
    assign? o option value = some ((unsigned value).map fun n => set n o) := by
  have hall : ∀ entry ∈ numbers,
      assign? o entry.1 value = some ((unsigned value).map fun n => entry.2 n o) := by
    simp only [numbers, List.forall_mem_cons]
    exact ⟨rfl, rfl, rfl, rfl, rfl, rfl, rfl, List.forall_mem_nil _⟩
  exact hall (option, set) h

theorem assign?_port (o : Options) (value : Bytes) :
    assign? o (ascii "--http-port") value
      = some ((signed value).map fun n => { o with httpPort := n }) :=
  rfl

theorem assign?_level (o : Options) (value : Bytes) :
    assign? o (ascii "--log-level") value = match Level.named? value with
      | some level => some (.ok { o with level })
      | none => some (.error (.badLevel value)) :=
  rfl

/-- No other word takes a value. -/
theorem assign?_eq_none (o : Options) (value : Bytes) (htext : option ∉ texts.map Prod.fst)
    (hnumber : option ∉ numbers.map Prod.fst) (hport : option ≠ ascii "--http-port")
    (hlevel : option ≠ ascii "--log-level") : assign? o option value = none := by
  simp only [texts, numbers, List.map_cons, List.map_nil, List.mem_cons, List.not_mem_nil,
    or_false, not_or] at htext hnumber
  simp only [assign?, beq_iff_eq, htext, hnumber, hport, hlevel, if_false]

theorem sets_of_assign? (h : assign? o option value = some (.ok o')) : Sets o option value o' := by
  by_cases htext : option ∈ texts.map Prod.fst
  · obtain ⟨⟨_, set⟩, hmem, rfl⟩ := List.mem_map.mp htext
    rw [assign?_text hmem] at h
    cases h
    exact .text value hmem
  by_cases hnumber : option ∈ numbers.map Prod.fst
  · obtain ⟨⟨_, set⟩, hmem, rfl⟩ := List.mem_map.mp hnumber
    rw [assign?_number hmem] at h
    obtain ⟨n, hn, rfl⟩ := map_eq_ok_iff.mp (Option.some.inj h)
    exact .number hmem (unsigned_eq_ok_iff.mp hn)
  by_cases hport : option = ascii "--http-port"
  · rw [hport, assign?_port] at h
    obtain ⟨n, hn, rfl⟩ := map_eq_ok_iff.mp (Option.some.inj h)
    rw [hport]
    exact .port (signed_eq_ok_iff.mp hn)
  by_cases hlevel : option = ascii "--log-level"
  · rw [hlevel, assign?_level] at h
    split at h
    · rename_i level hnamed
      cases h
      rw [hlevel]
      exact .level hnamed
    · cases h
  · rw [assign?_eq_none o value htext hnumber hport hlevel] at h
    cases h

theorem Sets.assign?_eq (h : Sets o option value o') :
    assign? o option value = some (.ok o') := by
  cases h with
  | text value hmem => exact assign?_text hmem o value
  | number hmem hn =>
      rw [assign?_number hmem, unsigned_eq_ok_iff.mpr hn]
      rfl
  | port hn =>
      rw [assign?_port, signed_eq_ok_iff.mpr hn]
      rfl
  | level hnamed => rw [assign?_level, hnamed]

/-! ## Command lines -/

/-- The words that stand for themselves. -/
def switches : List Bytes :=
  [ascii "--disable", ascii "--http-enable", ascii "--help", ascii "-h"]

/-- The words of a command line take the options on the left to those on the right. -/
inductive Says : Options → List Bytes → Options → Prop
  | done (o : Options) : Says o [] o
  | disable {o o' : Options} {words : List Bytes}
      (rest : Says { o with disable := true } words o') :
      Says o (ascii "--disable" :: words) o'
  | httpEnable {o o' : Options} {words : List Bytes}
      (rest : Says { o with httpEnable := true } words o') :
      Says o (ascii "--http-enable" :: words) o'
  | value {o set o' : Options} {option value : Bytes} {words : List Bytes}
      (sets : Sets o option value set) (rest : Says set words o') :
      Says o (option :: value :: words) o'

/-- No switch takes a value. -/
theorem Sets.notMem_switches (h : Sets o option value o') : option ∉ switches := by
  have htexts : ∀ option ∈ texts.map Prod.fst, option ∉ switches := by decide
  have hnumbers : ∀ option ∈ numbers.map Prod.fst, option ∉ switches := by decide
  cases h with
  | text value hmem => exact htexts _ (List.mem_map_of_mem hmem)
  | number hmem hn => exact hnumbers _ (List.mem_map_of_mem hmem)
  | port hn => decide
  | level hnamed => decide

theorem read_disable (o : Options) (rest : List Bytes) :
    read o (ascii "--disable" :: rest) = read { o with disable := true } rest := by
  rw [read.eq_def]
  exact if_pos (by decide)

theorem read_httpEnable (o : Options) (rest : List Bytes) :
    read o (ascii "--http-enable" :: rest) = read { o with httpEnable := true } rest := by
  rw [read.eq_def]
  exact (if_neg (by decide)).trans (if_pos (by decide))

/-- An option takes the next word as its value. -/
theorem read_value (rest : List Bytes) (hoption : option ∉ switches)
    (h : assign? o option value = some (.ok o')) :
    read o (option :: value :: rest) = read o' rest := by
  simp only [switches, List.mem_cons, List.not_mem_nil, or_false, not_or] at hoption
  simp only [read, beq_iff_eq, Bool.or_eq_true, hoption, h, or_self, if_false]

theorem says_of_read (h : read o words = .ok o') : Says o words o' := by
  fun_induction read o words with
  | case1 o =>
      cases h
      exact .done _
  | case2 o word rest hword ih =>
      rw [eq_of_beq hword]
      exact .disable (ih h)
  | case3 o word rest hdisable hword ih =>
      rw [eq_of_beq hword]
      exact .httpEnable (ih h)
  -- The call for help and the three faults.
  | case4 | case5 | case6 | case7 => cases h
  | case8 o word hdisable henable hhelp value rest set hassign ih =>
      exact .value (sets_of_assign? hassign) (ih h)

theorem Says.read_eq (h : Says o words o') : read o words = .ok o' := by
  induction h with
  | done o => rfl
  | disable rest ih => rw [read_disable, ih]
  | httpEnable rest ih => rw [read_httpEnable, ih]
  | value sets rest ih => rw [read_value _ sets.notMem_switches sets.assign?_eq, ih]

/-- A command line is read as the options that it comes to. -/
theorem read_eq_ok_iff : read o words = .ok o' ↔ Says o words o' :=
  ⟨says_of_read, Says.read_eq⟩

/-- A command line is accepted when it says something and its port is one. -/
theorem parse_eq_ok_iff {cores : Nat} : parse cores words = .ok o ↔
    Says (default cores) words o ∧ 0 < o.httpPort ∧ o.httpPort ≤ 65535 := by
  rw [parse, ← read_eq_ok_iff]
  cases read (default cores) words with
  | error e => simp
  | ok set =>
      simp only [Bool.and_eq_true, decide_eq_true_eq, Except.ok.injEq]
      constructor
      · intro h
        split at h
        · rename_i hport
          cases h
          exact ⟨rfl, hport⟩
        · cases h
      · rintro ⟨rfl, hport⟩
        exact if_pos hport

/-! ## Last values -/

/-- The options that a command line gives, in their order and with their values. -/
def given : List Bytes → List (Bytes × Bytes)
  | [] => []
  | [_] => []
  | word :: value :: rest =>
    if switches.contains word then given (value :: rest) else (word, value) :: given rest

/-- The last value that a command line gives to an option. -/
def LastGiven (words : List Bytes) (option value : Bytes) : Prop :=
  ∃ before after, given words = before ++ (option, value) :: after ∧
    ∀ pair ∈ after, pair.1 ≠ option

theorem given_switch (hword : option ∈ switches) (rest : List Bytes) :
    given (option :: rest) = given rest := by
  cases rest with
  | nil => rfl
  | cons value rest => exact if_pos (List.contains_iff_mem.mpr hword)

theorem given_value (hoption : option ∉ switches) (value : Bytes) (rest : List Bytes) :
    given (option :: value :: rest) = (option, value) :: given rest :=
  if_neg (mt List.contains_iff_mem.mp hoption)

/-- A part of the options that no switch changes, and no option but one. -/
structure SetBy {α : Type} (part : Options → α) (option : Bytes) : Prop where
  disable : ∀ o, part { o with disable := true } = part o
  httpEnable : ∀ o, part { o with httpEnable := true } = part o
  others : ∀ {o other value o'}, Sets o other value o' → other ≠ option → part o' = part o

section Parts

variable {α : Type} {part : Options → α}

/-- What is not given stays. -/
theorem Says.part_eq (hpart : SetBy part option) (h : Says o words o')
    (hnot : ∀ pair ∈ given words, pair.1 ≠ option) : part o' = part o := by
  induction h with
  | done o => rfl
  | disable rest ih =>
      rw [given_switch (by decide)] at hnot
      exact (ih hnot).trans (hpart.disable _)
  | httpEnable rest ih =>
      rw [given_switch (by decide)] at hnot
      exact (ih hnot).trans (hpart.httpEnable _)
  | value sets rest ih =>
      rw [given_value sets.notMem_switches, List.forall_mem_cons] at hnot
      exact (ih hnot.2).trans (hpart.others sets hnot.1)

/-- What is given more than once is as it was last given. -/
theorem Says.exists_sets (hpart : SetBy part option) (h : Says o words o')
    (hlast : LastGiven words option value) :
    ∃ o₁ o₂, Sets o₁ option value o₂ ∧ part o' = part o₂ := by
  obtain ⟨before, after, hgiven, hafter⟩ := hlast
  -- Each option in front of the last one shortens `before`; nothing behind it sets the part.
  induction h generalizing before with
  | done o => exact absurd hgiven.symm (by simp [given])
  | disable rest ih =>
      rw [given_switch (by decide)] at hgiven
      exact ih before hgiven
  | httpEnable rest ih =>
      rw [given_switch (by decide)] at hgiven
      exact ih before hgiven
  | value sets rest ih =>
      rw [given_value sets.notMem_switches] at hgiven
      rcases List.cons_eq_append_iff.mp hgiven with ⟨-, hhead⟩ | ⟨tail, -, htail⟩
      · cases hhead
        exact ⟨_, _, sets, rest.part_eq hpart hafter⟩
      · exact ih tail htail

end Parts

/-- The interval is set by its option alone. -/
theorem setBy_interval : SetBy (fun o => o.config.intervalHours) (ascii "--interval-hours") where
  disable o := rfl
  httpEnable o := rfl
  others := by
    intro o other value o' sets hother
    have htexts : ∀ entry ∈ texts, ∀ value,
        (entry.2 value o).config.intervalHours = o.config.intervalHours := by
      simp [texts]
    -- The option itself stands first among those that take a number.
    have hnumbers : ∀ entry ∈ numbers.tail, ∀ n,
        (entry.2 n o).config.intervalHours = o.config.intervalHours := by
      simp [numbers]
    cases sets with
    | text value hmem => exact htexts _ hmem value
    | number hmem hn =>
        rcases List.mem_cons.mp hmem with hfirst | htail
        · exact absurd (congrArg Prod.fst hfirst) hother
        · exact hnumbers _ htail _
    | port hn => rfl
    | level hnamed => rfl

/-- The interval is the low half of the number that was last given for it. -/
theorem Says.intervalHours_eq {n : UInt64} (h : Says o words o')
    (hlast : LastGiven words (ascii "--interval-hours") value) (hn : Denotes value n) :
    o'.config.intervalHours = n.toUInt32 := by
  obtain ⟨o₁, o₂, sets, hpart⟩ := h.exists_sets setBy_interval hlast
  refine hpart.trans ?_
  have hmem : (ascii "--interval-hours", fun (n : UInt64) (o : Options) =>
      { o with config := { o.config with intervalHours := n.toUInt32 } }) ∈ numbers :=
    List.mem_cons_self
  have hassign := assign?_number hmem o₁ value
  rw [sets.assign?_eq, unsigned_eq_ok_iff.mpr hn] at hassign
  cases hassign
  rfl

end Options

end ResolverLog
