import ResolverLog.Proofs.Settings

/-!
# Settings files read line by line

A settings file is taken as a whole or refused as a whole. Each setting ends up
as the last line that names it says, and one that no line names stays. A file is
refused exactly when one of its lines is at fault: it has no equals sign, or it
gives a known key a value that this key cannot have. Empty lines, comments and
unknown keys do not count.

## Implementation notes

`assign_eq_ok_iff` says all that one line can do. What the last line of a key
says is found by going through the lines from the front: it is what the rest
says of the key, unless the rest does not name it.
-/

namespace ResolverLog

namespace Settings

open Bytes

variable {files files' : Files} {config left : Config} {path text key value line : Bytes}
  {hours : UInt32} {statements : List Bytes}

/-! ## What a file says -/

/-- A line that is neither empty nor a comment. -/
def isStatement (line : Bytes) : Bool :=
  !line.isEmpty && line.head? != some 0x23

/-- The lines that count, without a carriage return at their end. -/
def statementsOf (text : Bytes) : List Bytes :=
  ((lines text).map (dropFinal 0x0D)).filter isStatement

/-- One to nine digits that denote a number of hours. -/
structure Denotes (value : Bytes) (hours : UInt32) : Prop where
  ne_nil : value ≠ []
  length_le : value.length ≤ 9
  digits : ∀ b ∈ value, isDigit b = true
  value_eq : Decimal.value value = hours.toNat

/-- The keys that mean something. -/
def keys : List Bytes :=
  [ascii "enabled", ascii "interval_hours", ascii "stats_hours"]

/-- The values that a key can have; one without a meaning can have any. -/
def Allows (key value : Bytes) : Prop :=
  (key = ascii "enabled" → ∃ enabled, value = boolText enabled) ∧
  (key = ascii "interval_hours" →
    ∃ hours, Denotes value hours ∧ Config.isSupportedInterval hours = true) ∧
  (key = ascii "stats_hours" → ∃ hours, Denotes value hours ∧ IsRetention hours)

/-- A line at fault has no equals sign, or has in front of its first one a key that cannot have
the value behind it. -/
def IsFaulty (line : Bytes) : Prop :=
  0x3D ∉ line ∨ ∃ key value, 0x3D ∉ key ∧ line = setting key value ∧ ¬ Allows key value

/-- The last of the lines that name a key gives it this value. -/
def Ends (key value : Bytes) (statements : List Bytes) : Prop :=
  ∃ before after, statements = before ++ setting key value :: after ∧
    ∀ other, setting key other ∉ after

/-- What lines make of a setting: what the value in the last line of its key means, or what it was
before where no line names the key. -/
def Settles {α : Type} (key : Bytes) (Means : Bytes → α → Prop) (statements : List Bytes)
    (before after : α) : Prop :=
  (∃ value, Ends key value statements ∧ Means value after) ∨
    (∀ value, setting key value ∉ statements) ∧ after = before

/-- What a file makes of a configuration. -/
structure Applied (text : Bytes) (config left : Config) : Prop where
  enabled : Settles (ascii "enabled") (fun value enabled => value = boolText enabled)
    (statementsOf text) config.enabled left.enabled
  intervalHours : Settles (ascii "interval_hours")
    (fun value hours => Denotes value hours ∧ Config.isSupportedInterval hours = true)
    (statementsOf text) config.intervalHours left.intervalHours
  statsHours : Settles (ascii "stats_hours")
    (fun value hours => Denotes value hours ∧ IsRetention hours)
    (statementsOf text) config.statsHours left.statsHours
  others : left = { config with
    enabled := left.enabled
    intervalHours := left.intervalHours
    statsHours := left.statsHours }

/-! ## One line -/

theorem number_eq_ok_iff : number key value = .ok hours ↔ Denotes value hours := by
  rw [number]
  cases h : Decimal.upTo? 9 value with
  | none =>
      simp only [reduceCtorEq, false_iff]
      rintro ⟨hne, hlength, hdigits, -⟩
      have hsome := Decimal.upTo?_eq_some_iff.mpr ⟨hne, hlength, hdigits, rfl⟩
      rw [h] at hsome
      cases hsome
  | some n =>
      obtain ⟨hne, hlength, hdigits, rfl⟩ := Decimal.upTo?_eq_some_iff.mp h
      have hlt : Decimal.value value < UInt32.size :=
        ((Decimal.value_lt hdigits).trans_le (Nat.pow_le_pow_right (by decide) hlength)).trans
          (by decide)
      simp only [Except.ok.injEq]
      rw [← UInt32.toNat_inj, UInt32.toNat_ofNat_of_lt' hlt]
      exact ⟨fun heq => ⟨hne, hlength, hdigits, heq⟩, fun hd => hd.value_eq⟩

/-- What one line can do: it gives one of the three keys a value that the key can have, or it has
a key without a meaning and does nothing. -/
theorem assign_cases (h : assign config key value = .ok left) :
    (key = ascii "enabled" ∧ ∃ enabled, value = boolText enabled ∧
      left = { config with enabled }) ∨
    (key = ascii "interval_hours" ∧ ∃ hours,
      (Denotes value hours ∧ Config.isSupportedInterval hours = true) ∧
        left = { config with intervalHours := hours }) ∨
    (key = ascii "stats_hours" ∧ ∃ hours, (Denotes value hours ∧ IsRetention hours) ∧
      left = { config with statsHours := hours }) ∨
    key ∉ keys ∧ left = config := by
  simp only [assign, beq_iff_eq] at h
  split at h
  · rename_i hkey
    refine .inl ⟨hkey, ?_⟩
    split at h
    · rename_i htrue
      cases h
      exact ⟨true, htrue, rfl⟩
    · split at h
      · rename_i hfalse
        cases h
        exact ⟨false, hfalse, rfl⟩
      · cases h
  · rename_i henabled
    split at h
    · rename_i hkey
      refine .inr (.inl ⟨hkey, ?_⟩)
      cases hnumber : number key value with
      | error e =>
          rw [hnumber] at h
          cases h
      | ok hours =>
          simp only [hnumber, bind, Except.bind] at h
          split at h
          · rename_i hsupported
            cases h
            exact ⟨hours, ⟨number_eq_ok_iff.mp hnumber, hsupported⟩, rfl⟩
          · cases h
    · rename_i hinterval
      split at h
      · rename_i hkey
        refine .inr (.inr (.inl ⟨hkey, ?_⟩))
        cases hnumber : number key value with
        | error e =>
            rw [hnumber] at h
            cases h
        | ok hours =>
            simp only [hnumber, bind, Except.bind] at h
            split at h
            · cases h
            · rename_i hzero
              split at h
              · cases h
              · rename_i hmany
                cases h
                have hpos : hours.toNat ≠ 0 := fun heq => hzero (UInt32.toNat_inj.mp heq)
                exact ⟨hours, ⟨number_eq_ok_iff.mp hnumber, Nat.pos_of_ne_zero hpos,
                  Nat.not_lt.mp hmany⟩, rfl⟩
      · rename_i hstats
        cases h
        refine .inr (.inr (.inr ⟨?_, rfl⟩))
        simpa [keys] using ⟨henabled, hinterval, hstats⟩

/-- What is set is what the value means. -/
theorem meant_of_assign (h : assign config key value = .ok left) :
    (key = ascii "enabled" → value = boolText left.enabled) ∧
    (key = ascii "interval_hours" → Denotes value left.intervalHours ∧
      Config.isSupportedInterval left.intervalHours = true) ∧
    (key = ascii "stats_hours" → Denotes value left.statsHours ∧ IsRetention left.statsHours) := by
  rcases assign_cases h with ⟨rfl, enabled, rfl, rfl⟩ | ⟨rfl, hours, hmeans, rfl⟩ |
    ⟨rfl, hours, hmeans, rfl⟩ | ⟨hkey, -⟩
  · exact ⟨fun _ => rfl, fun heq => absurd heq (by decide), fun heq => absurd heq (by decide)⟩
  · exact ⟨fun heq => absurd heq (by decide), fun _ => hmeans, fun heq => absurd heq (by decide)⟩
  · exact ⟨fun heq => absurd heq (by decide), fun heq => absurd heq (by decide), fun _ => hmeans⟩
  · simp only [keys, List.mem_cons, List.not_mem_nil, or_false, not_or] at hkey
    exact ⟨fun heq => absurd heq hkey.1, fun heq => absurd heq hkey.2.1,
      fun heq => absurd heq hkey.2.2⟩

/-- What the line does not name stays. -/
theorem kept_of_assign (h : assign config key value = .ok left) :
    (key ≠ ascii "enabled" → left.enabled = config.enabled) ∧
    (key ≠ ascii "interval_hours" → left.intervalHours = config.intervalHours) ∧
    (key ≠ ascii "stats_hours" → left.statsHours = config.statsHours) ∧
    left = { config with
      enabled := left.enabled
      intervalHours := left.intervalHours
      statsHours := left.statsHours } := by
  rcases assign_cases h with ⟨hkey, enabled, -, rfl⟩ | ⟨hkey, hours, -, rfl⟩ |
    ⟨hkey, hours, -, rfl⟩ | ⟨-, rfl⟩
  · exact ⟨fun hne => absurd hkey hne, fun _ => rfl, fun _ => rfl, rfl⟩
  · exact ⟨fun _ => rfl, fun hne => absurd hkey hne, fun _ => rfl, rfl⟩
  · exact ⟨fun _ => rfl, fun _ => rfl, fun hne => absurd hkey hne, rfl⟩
  · exact ⟨fun _ => rfl, fun _ => rfl, fun _ => rfl, rfl⟩

/-- A value that a key can have is taken. -/
theorem exists_assign_of_allows (config : Config) (h : Allows key value) :
    ∃ left, assign config key value = .ok left := by
  obtain ⟨henabled, hinterval, hstats⟩ := h
  by_cases hkey : key = ascii "enabled"
  · obtain ⟨enabled, rfl⟩ := henabled hkey
    subst hkey
    exact ⟨_, assign_enabled config enabled⟩
  · by_cases hkey' : key = ascii "interval_hours"
    · obtain ⟨hours, hd, hsupported⟩ := hinterval hkey'
      refine ⟨{ config with intervalHours := hours }, ?_⟩
      subst hkey'
      rw [assign, if_neg (by decide), if_pos (by decide), number_eq_ok_iff.mpr hd]
      simp only [bind, Except.bind, hsupported, if_true]
      rfl
    · by_cases hkey'' : key = ascii "stats_hours"
      · obtain ⟨hours, hd, hretention⟩ := hstats hkey''
        refine ⟨{ config with statsHours := hours }, ?_⟩
        subst hkey''
        have hzero : ¬ (hours == 0) = true := by
          rw [beq_iff_eq]
          rintro rfl
          exact absurd hretention (by decide)
        rw [assign, if_neg (by decide), if_neg (by decide), if_pos (by decide),
          number_eq_ok_iff.mpr hd]
        simp only [bind, Except.bind, if_neg hzero, if_neg (Nat.not_lt.mpr hretention.2)]
        rfl
      · refine ⟨config, ?_⟩
        rw [assign, if_neg (by simpa using hkey), if_neg (by simpa using hkey'),
          if_neg (by simpa using hkey'')]

theorem exists_assign_iff : (∃ left, assign config key value = .ok left) ↔ Allows key value := by
  refine ⟨?_, exists_assign_of_allows config⟩
  rintro ⟨left, h⟩
  obtain ⟨henabled, hinterval, hstats⟩ := meant_of_assign h
  exact ⟨fun hkey => ⟨_, henabled hkey⟩, fun hkey => ⟨_, hinterval hkey⟩,
    fun hkey => ⟨_, hstats hkey⟩⟩

/-! ## All lines -/

/-- Applies one of the lines that count. -/
def applyStatement (config : Config) (line : Bytes) : Except SettingsError Config :=
  match cutAt? 0x3D line with
  | some (key, value) => assign config key value
  | none => .error (.badLine line)

theorem applyLine_eq (config : Config) (line : Bytes) :
    applyLine config line =
      if isStatement (dropFinal 0x0D line) = true then applyStatement config (dropFinal 0x0D line)
      else .ok config := by
  rw [applyLine]
  split
  · rename_i hempty
    rw [hempty]
    rfl
  · rename_i comment hcomment
    rw [hcomment]
    rfl
  · rename_i hempty hcomment
    rw [if_pos]
    · rfl
    · cases h : dropFinal 0x0D line with
      | nil => exact absurd h hempty
      | cons b rest =>
          have hb : b ≠ 0x23 := fun heq => hcomment rest (heq ▸ h)
          simpa [isStatement] using hb

theorem apply_eq (config : Config) (text : Bytes) :
    apply config text = (statementsOf text).foldlM applyStatement config := by
  rw [apply, statementsOf, List.foldlM_filter, List.foldlM_map]
  exact congrArg (fun f => List.foldlM f config (lines text))
    (funext fun config => funext fun line => applyLine_eq config line)

theorem exists_applyStatement_iff (config : Config) (line : Bytes) :
    (∃ left, applyStatement config line = .ok left) ↔ ¬ IsFaulty line := by
  rw [applyStatement]
  split
  · rename_i key value hcut
    obtain ⟨rfl, hkey⟩ := cutAt?_eq_some_iff.mp hcut
    rw [exists_assign_iff, IsFaulty, not_or, not_not]
    constructor
    · intro h
      refine ⟨by simp, ?_⟩
      rintro ⟨key', value', hkey', heq, hnot⟩
      have hcut' := cutAt?_append_cons hkey' value'
      rw [setting] at heq
      rw [← heq, hcut] at hcut'
      cases hcut'
      exact hnot h
    · rintro ⟨-, hnot⟩
      by_contra h
      exact hnot ⟨key, value, hkey, rfl, h⟩
  · rename_i hcut
    have hnone : 0x3D ∉ line := by
      intro hmem
      obtain ⟨front, tail, rfl, hfront⟩ := List.eq_append_cons_of_mem hmem
      rw [cutAt?_append_cons hfront] at hcut
      cases hcut
    simp [IsFaulty, hnone]

theorem exists_foldlM_iff (config : Config) (statements : List Bytes) :
    (∃ left, statements.foldlM applyStatement config = .ok left) ↔
      ∀ line ∈ statements, ¬ IsFaulty line := by
  induction statements generalizing config with
  | nil => simp [pure, Except.pure]
  | cons line statements ih =>
      rw [List.foldlM_cons, List.forall_mem_cons, ← exists_applyStatement_iff config]
      cases h : applyStatement config line with
      | error e => simp [bind, Except.bind]
      | ok changed => simpa [bind, Except.bind] using ih changed

/-! ## The last line of a key -/

section Last

variable {α : Type} {Means : Bytes → α → Prop} {before after : α} {field : Config → α}

/-- A line that names another key, or none, leaves what the rest makes of a setting. -/
theorem Settles.cons_of_ne (h : Settles key Means statements before after)
    (hline : ∀ value, line ≠ setting key value) :
    Settles key Means (line :: statements) before after := by
  rcases h with ⟨value, ⟨front, behind, rfl, hlast⟩, hmeans⟩ | ⟨hnone, rfl⟩
  · exact .inl ⟨value, ⟨line :: front, behind, rfl, hlast⟩, hmeans⟩
  · refine .inr ⟨fun value hmem => ?_, rfl⟩
    rcases List.mem_cons.mp hmem with heq | hmem
    · exact hline value heq.symm
    · exact hnone value hmem

/-- A line that names the key counts where the rest does not. -/
theorem Settles.cons_setting {middle : α} (h : Settles key Means statements middle after)
    (hmeans : Means value middle) :
    Settles key Means (setting key value :: statements) before after := by
  rcases h with ⟨last, ⟨front, behind, rfl, hlast⟩, hafter⟩ | ⟨hnone, rfl⟩
  · exact .inl ⟨last, ⟨setting key value :: front, behind, rfl, hlast⟩, hafter⟩
  · exact .inl ⟨value, ⟨[], statements, rfl, hnone⟩, hmeans⟩

theorem applyStatement_setting (config : Config) (hkey : 0x3D ∉ key) (value : Bytes) :
    applyStatement config (setting key value) = assign config key value := by
  rw [applyStatement, setting, cutAt?_append_cons hkey]

theorem exists_setting_of_applyStatement (h : applyStatement config line = .ok left) :
    ∃ key value, line = setting key value ∧ assign config key value = .ok left := by
  rw [applyStatement] at h
  split at h
  · rename_i key value hcut
    exact ⟨key, value, (cutAt?_eq_some_iff.mp hcut).1, h⟩
  · cases h

/-- If a line that names a key sets a field as its value means, and every other line keeps the
field, all lines together make of it what the last line of the key says. -/
theorem settles_of_foldlM (hkey : 0x3D ∉ key)
    (hset : ∀ {config left value}, assign config key value = .ok left → Means value (field left))
    (hkeep : ∀ {config left other value}, other ≠ key → assign config other value = .ok left →
      field left = field config)
    (h : statements.foldlM applyStatement config = .ok left) :
    Settles key Means statements (field config) (field left) := by
  induction statements generalizing config with
  | nil =>
      cases h
      exact .inr ⟨fun value => List.not_mem_nil, rfl⟩
  | cons line statements ih =>
      rw [List.foldlM_cons] at h
      cases hline : applyStatement config line with
      | error e =>
          rw [hline] at h
          cases h
      | ok changed =>
          rw [hline] at h
          have hrest := ih h
          obtain ⟨named, value, rfl, hassign⟩ := exists_setting_of_applyStatement hline
          by_cases hnamed : ∃ value', setting named value = setting key value'
          · obtain ⟨value', heq⟩ := hnamed
            rw [heq, applyStatement_setting config hkey] at hline
            rw [heq]
            exact hrest.cons_setting (hset hline)
          · push Not at hnamed
            have hne : named ≠ key := by
              rintro rfl
              exact hnamed value rfl
            rw [← hkeep hne hassign]
            exact hrest.cons_of_ne hnamed

end Last

/-! ## All settings -/

theorem others_of_foldlM (h : statements.foldlM applyStatement config = .ok left) :
    left = { config with
      enabled := left.enabled
      intervalHours := left.intervalHours
      statsHours := left.statsHours } := by
  induction statements generalizing config with
  | nil =>
      cases h
      rfl
  | cons line statements ih =>
      rw [List.foldlM_cons] at h
      cases hline : applyStatement config line with
      | error e =>
          rw [hline] at h
          cases h
      | ok changed =>
          rw [hline] at h
          obtain ⟨key, value, -, hassign⟩ := exists_setting_of_applyStatement hline
          rw [ih h, (kept_of_assign hassign).2.2.2]

theorem applied_of_apply (h : apply config text = .ok left) : Applied text config left := by
  rw [apply_eq] at h
  exact {
    enabled := settles_of_foldlM (by decide) (fun h => (meant_of_assign h).1 rfl)
      (fun hne h => (kept_of_assign h).1 hne) h
    intervalHours := settles_of_foldlM (by decide) (fun h => (meant_of_assign h).2.1 rfl)
      (fun hne h => (kept_of_assign h).2.1 hne) h
    statsHours := settles_of_foldlM (by decide) (fun h => (meant_of_assign h).2.2 rfl)
      (fun hne h => (kept_of_assign h).2.2.1 hne) h
    others := others_of_foldlM h }

theorem exists_apply_error_iff (config : Config) (text : Bytes) :
    (∃ e, apply config text = .error e) ↔ ∃ line ∈ statementsOf text, IsFaulty line := by
  have hok := exists_foldlM_iff config (statementsOf text)
  rw [← apply_eq] at hok
  cases h : apply config text with
  | error e =>
      rw [h] at hok
      simpa using hok
  | ok left =>
      rw [h] at hok
      simpa using hok

/-- An error tells first that it is about a setting that is not valid. -/
theorem prefix_message (e : SettingsError) : ascii "invalid: settings: " <+: e.message := by
  have hfull : ascii "invalid: settings: " <+: e.fullMessage := by
    cases e with
    | badLine | badEnabled | badNumber | unsupportedInterval | statsHoursTooMany =>
        simp only [SettingsError.fullMessage, List.append_assoc]
        exact List.IsPrefix.trans (by decide +kernel) (List.prefix_append _ _)
    | zeroStatsHours =>
        rw [SettingsError.fullMessage]
        decide +kernel
  obtain ⟨rest, hrest⟩ := hfull
  refine ⟨beforeNul rest, ?_⟩
  rw [SettingsError.message, ← hrest, beforeNul, beforeNul, List.takeWhile_append_of_pos]
  decide +kernel

/-! ## Loading in place -/

/-- Loading into the configuration that the caller holds, a state that an error does not take
back. The lines change a copy of it, which takes its place behind the last line. -/
def loadHeld (files : Files) (path : Bytes) : ExceptT SettingsError (StateM Config) Bool := do
  match files.read? path with
  | none => return false
  | some text =>
    let mut next ← get
    for line in lines text do
      next ← MonadExcept.ofExcept (applyLine next line)
    set next
    return true

/-- What loading comes to, and the configuration that the caller then holds. -/
def loading (files : Files) (path : Bytes) (config : Config) :
    Except SettingsError Bool × Config :=
  (loadHeld files path).run.run config

/-- The copy goes through the lines, and the configuration stays meanwhile. -/
theorem run_forIn (all : List Bytes) (next config : Config) :
    (forIn all next fun line next => do
        let next ← MonadExcept.ofExcept (applyLine next line)
        pure (ForInStep.yield next) : ExceptT SettingsError (StateM Config) Config).run.run config
      = (pure (all.foldlM applyLine next, config) : Id (Except SettingsError Config × Config)) := by
  induction all generalizing next with
  | nil => rfl
  | cons line all ih =>
      rw [List.forIn_cons, List.foldlM_cons]
      cases h : applyLine next line with
      | error e => rfl
      | ok changed => exact ih changed

theorem loading_of_read?_eq_none (h : files.read? path = none) (config : Config) :
    loading files path config = (.ok false, config) := by
  rw [loading, loadHeld, h]
  rfl

theorem loading_of_read?_eq_some (h : files.read? path = some text) (config : Config) :
    loading files path config =
      match apply config text with
      | .ok left => (.ok true, left)
      | .error e => (.error e, config) := by
  have hget : (get : ExceptT SettingsError (StateM Config) Config).run.run config
      = (pure (.ok config, config) : Id (Except SettingsError Config × Config)) := rfl
  rw [loading, loadHeld, h]
  simp only [ExceptT.run_bind, StateT.run_bind, hget, pure_bind, run_forIn]
  rw [apply]
  cases (lines text).foldlM applyLine config with
  | error e => rfl
  | ok left => rfl

/-- A settings file that is there is taken over as a whole, so that each of the three settings is
what the last line that names it says, or it is refused with the explanation of a setting that is
not valid, and the configuration stays. It is refused exactly when one of its lines is at fault.
Where there is no such file nothing happens. What has been saved of a configuration with a supported
interval and with hours that the statistics can retain is loaded back into any configuration. -/
theorem loads_last_or_nothing (files : Files) (path : Bytes) (config : Config) :
    (files.read? path = none → loading files path config = (.ok false, config)) ∧
    (∀ text, files.read? path = some text →
      ((∃ e, loading files path config = (.error e, config) ∧
          ascii "invalid: settings: " <+: e.message) ↔
        ∃ line ∈ statementsOf text, IsFaulty line) ∧
      ((∃ left, loading files path config = (.ok true, left) ∧ Applied text config left) ↔
        ∀ line ∈ statementsOf text, ¬ IsFaulty line)) ∧
    ∀ files' saved, Config.isSupportedInterval saved.intervalHours = true →
      IsRetention saved.statsHours → save files path saved = (files', .ok ()) →
      loading files' path config = (.ok true, { config with
        enabled := saved.enabled
        intervalHours := saved.intervalHours
        statsHours := saved.statsHours }) := by
  refine ⟨fun h => loading_of_read?_eq_none h config, fun text h => ?_,
    fun files' saved hsupported hretention hsave => ?_⟩
  · have hrefused := exists_apply_error_iff config text
    rw [loading_of_read?_eq_some h]
    cases happly : apply config text with
    | error e =>
        obtain ⟨line, hline, hfaulty⟩ := hrefused.mp ⟨e, happly⟩
        refine ⟨iff_of_true ⟨e, rfl, prefix_message e⟩ ⟨line, hline, hfaulty⟩,
          iff_of_false ?_ fun hnone => hnone line hline hfaulty⟩
        rintro ⟨left, heq, -⟩
        cases heq
    | ok left =>
        have hnone : ¬ ∃ line ∈ statementsOf text, IsFaulty line := by
          rw [← hrefused, happly]
          rintro ⟨e, heq⟩
          cases heq
        refine ⟨iff_of_false ?_ hnone, iff_of_true ⟨left, rfl, applied_of_apply happly⟩
          fun line hline hfaulty => hnone ⟨line, hline, hfaulty⟩⟩
        rintro ⟨e, heq, -⟩
        cases heq
  · rw [loading_of_read?_eq_some (read?_save hsave), apply_text config hsupported,
      if_pos hretention]

/-- A settings file kept by hand: a comment, an empty line, a key without a meaning, hours that are
given twice, and no newline at the end. -/
def keptByHand : Bytes :=
  ascii "# kept by hand\r\nenabled=false\r\n\r\nstats_hours=8760\ncolour=\nstats_hours=0048"

/-- The file tree with one settings file. -/
def withSettings (text : Bytes) : Files :=
  (Files.empty.write? (ascii "q.log.conf") text).getD .empty

/-- The file tree after saving the settings of a small log with two days of statistics. -/
def withSaved : Files :=
  (save .empty (ascii "q.log.conf") { Config.small with statsHours := 48 }).1

theorem keptByHand_spec :
    (withSettings keptByHand).read? (ascii "q.log.conf") = some keptByHand ∧
      (statementsOf keptByHand).foldlM applyStatement .small
        = .ok { Config.small with enabled := false, statsHours := 48 } ∧
      (withSettings (keptByHand ++ ascii "\nenabled")).read? (ascii "q.log.conf")
        = some (keptByHand ++ ascii "\nenabled") ∧
      ascii "enabled" ∈ statementsOf (keptByHand ++ ascii "\nenabled") := by
  decide +kernel

/-- The file kept by hand is taken over, it is refused once a line without an equals sign stands
behind it, and what has been saved is loaded back. -/
theorem loads_last_or_nothing_keptByHand :
    loading .empty (ascii "q.log.conf") .small = (.ok false, .small) ∧
    (∃ left, loading (withSettings keptByHand) (ascii "q.log.conf") .small = (.ok true, left) ∧
      Applied keptByHand .small left) ∧
    (∃ e, loading (withSettings (keptByHand ++ ascii "\nenabled")) (ascii "q.log.conf") .small
      = (.error e, .small) ∧ ascii "invalid: settings: " <+: e.message) ∧
    loading withSaved (ascii "q.log.conf") .small
      = (.ok true, { Config.small with statsHours := 48 }) := by
  obtain ⟨hread, htaken, hread', hfaulty⟩ := keptByHand_spec
  refine ⟨?_, ?_, ?_, ?_⟩
  · exact (loads_last_or_nothing _ _ _).1 rfl
  · refine ((loads_last_or_nothing _ _ _).2.1 keptByHand hread).2.mpr ?_
    exact (exists_foldlM_iff .small _).mp ⟨_, htaken⟩
  · refine ((loads_last_or_nothing _ _ _).2.1 (keptByHand ++ ascii "\nenabled") hread').1.mpr ?_
    exact ⟨ascii "enabled", hfaulty, .inl (by decide)⟩
  · exact (loads_last_or_nothing .empty _ _).2.2 withSaved { Config.small with statsHours := 48 }
      (by decide) (by decide) (by decide +kernel)

end Settings

end ResolverLog
