import ResolverLog.Proofs.Runs

/-!
# Settings read back

After a change of the configuration the settings file holds the whole of what an
operator can change, also what the change did not touch. Loading it gives just
that back, unless the hours that the statistics retain are none or more than
the statistics keep. The log itself starts with any hours, so the first changes
can leave a file that is refused, up to the first change of these hours.

## Implementation notes

A change checks only the value that it sets, and loading checks every value. The
two meet in `IsRetention`, which a change of the retention establishes and every
other change leaves as it is.
-/

namespace ResolverLog

open Bytes

namespace Settings

variable {files files' : Files} {config other : Config} {path : Bytes}

/-! ## Lines -/

/-- The line of one setting. -/
def setting (key value : Bytes) : Bytes :=
  key ++ 0x3D :: value

/-- The lines of the settings file. -/
def settings (config : Config) : List Bytes :=
  [setting (ascii "enabled") (boolText config.enabled),
    setting (ascii "interval_hours") (Decimal.ofNat config.intervalHours.toNat),
    setting (ascii "stats_hours") (Decimal.ofNat config.statsHours.toNat)]

theorem text_eq (config : Config) : text config = ofLines (settings config) := by
  simp only [text, settings, ofLines_cons, setting, List.append_assoc]
  rfl

/-- Values are letters or digits. -/
theorem ne_of_mem_boolText {enabled : Bool} {b : UInt8} (h : b ∈ boolText enabled) :
    b ≠ 0x0A ∧ b ≠ 0x0D := by
  have hall : (boolText enabled).all (fun b => b != 0x0A && b != 0x0D) = true := by
    cases enabled with
    | false => rfl
    | true => rfl
  simpa using List.all_eq_true.mp hall b h

theorem ne_of_mem_ofNat {n : Nat} {b : UInt8} (h : b ∈ Decimal.ofNat n) :
    b ≠ 0x0A ∧ b ≠ 0x0D := by
  have hdigit : isDigit b = true := List.all_eq_true.mp (Decimal.all_isDigit_ofNat n) b h
  constructor
  · rintro rfl
    exact absurd hdigit (by decide)
  · rintro rfl
    exact absurd hdigit (by decide)

theorem newline_notMem_setting {key value : Bytes} (hkey : newline ∉ key)
    (hvalue : ∀ b ∈ value, b ≠ 0x0A ∧ b ≠ 0x0D) : newline ∉ setting key value := by
  rw [setting, List.mem_append, List.mem_cons]
  rintro (h | h | h)
  · exact hkey h
  · exact absurd h (by decide)
  · exact (hvalue newline h).1 rfl

theorem lines_text (config : Config) : lines (text config) = settings config := by
  rw [text_eq]
  apply lines_ofLines
  intro line hline
  simp only [settings, List.mem_cons, List.not_mem_nil, or_false] at hline
  rcases hline with rfl | rfl | rfl
  · exact newline_notMem_setting (by decide) fun b hb => ne_of_mem_boolText hb
  · exact newline_notMem_setting (by decide) fun b hb => ne_of_mem_ofNat hb
  · exact newline_notMem_setting (by decide) fun b hb => ne_of_mem_ofNat hb

/-- A line with a key and a value assigns the value. -/
theorem applyLine_setting {b : UInt8} {key value : Bytes} (hb : b ≠ 0x23)
    (hkey : (0x3D : UInt8) ∉ b :: key) (hvalue : ∀ b ∈ value, b ≠ 0x0A ∧ b ≠ 0x0D) :
    applyLine config (setting (b :: key) value) = assign config (b :: key) value := by
  have hdrop : dropFinal 0x0D (setting (b :: key) value) = setting (b :: key) value := by
    rw [dropFinal, if_neg]
    rw [setting, List.getLast?_append_of_ne_nil _ (List.cons_ne_nil _ _)]
    intro hlast
    rcases List.mem_cons.mp (List.mem_of_getLast? hlast) with h | h
    · exact absurd h (by decide)
    · exact (hvalue _ h).2 rfl
  rw [applyLine, hdrop, setting, List.cons_append]
  split
  · rename_i h
    cases h
  · rename_i h
    cases h
    exact absurd rfl hb
  · rename_i h _ _
    rw [← List.cons_append, cutAt?_append_cons hkey]

/-! ## Values -/

/-- Hours that the statistics can retain. -/
def IsRetention (hours : UInt32) : Prop :=
  1 ≤ hours.toNat ∧ hours.toNat ≤ HourlyStats.maxHours

instance (hours : UInt32) : Decidable (IsRetention hours) :=
  inferInstanceAs (Decidable (_ ∧ _))

/-- Why hours that cannot be retained are refused. -/
def retentionFault (hours : UInt32) : SettingsError :=
  if hours.toNat = 0 then .zeroStatsHours
  else if hours.toNat < 10 ^ 9 then .statsHoursTooMany
  else .badNumber (ascii "stats_hours") (Decimal.ofNat hours.toNat)

theorem number_ofNat (key : Bytes) (hours : UInt32) :
    number key (Decimal.ofNat hours.toNat) =
      if hours.toNat < 10 ^ 9 then .ok hours
      else .error (.badNumber key (Decimal.ofNat hours.toNat)) := by
  rw [number, Decimal.upTo?_ofNat]
  by_cases h : hours.toNat < 10 ^ 9
  · rw [if_pos h, if_pos h]
    exact congrArg Except.ok (UInt32.ofNat_toNat)
  · rw [if_neg h, if_neg h]

theorem assign_enabled (config : Config) (enabled : Bool) :
    assign config (ascii "enabled") (boolText enabled) = .ok { config with enabled } := by
  cases enabled with
  | false => rfl
  | true => rfl

theorem assign_intervalHours (config : Config) {hours : UInt32}
    (h : Config.isSupportedInterval hours = true) :
    assign config (ascii "interval_hours") (Decimal.ofNat hours.toNat)
      = .ok { config with intervalHours := hours } := by
  have hlt : hours.toNat < 10 ^ 9 := by
    simp only [Config.isSupportedInterval, Bool.or_eq_true, beq_iff_eq] at h
    rcases h with ((rfl | rfl) | rfl) | rfl
    · decide
    · decide
    · decide
    · decide
  rw [assign, if_neg (by decide), if_pos (by decide), number_ofNat, if_pos hlt]
  simp only [bind, Except.bind, h, if_true]
  rfl

theorem assign_statsHours (config : Config) (hours : UInt32) :
    assign config (ascii "stats_hours") (Decimal.ofNat hours.toNat) =
      if IsRetention hours then .ok { config with statsHours := hours }
      else .error (retentionFault hours) := by
  rw [assign, if_neg (by decide), if_neg (by decide), if_pos (by decide), number_ofNat,
    retentionFault]
  by_cases hlt : hours.toNat < 10 ^ 9
  · rw [if_pos hlt]
    simp only [bind, Except.bind]
    by_cases hzero : hours = 0
    · subst hzero
      rfl
    · have hpos : hours.toNat ≠ 0 := fun h => hzero (UInt32.toNat_inj.mp h)
      rw [if_neg (by simpa using hzero), if_neg hpos, if_pos hlt]
      by_cases hmany : HourlyStats.maxHours < hours.toNat
      · rw [if_pos hmany, if_neg fun hr : IsRetention hours => Nat.not_lt.mpr hr.2 hmany]
        rfl
      · have hretention : IsRetention hours := ⟨by omega, Nat.not_lt.mp hmany⟩
        rw [if_neg hmany, if_pos hretention]
        rfl
  · have hmany : ¬ IsRetention hours := by
      rw [IsRetention, HourlyStats.maxHours]
      omega
    rw [if_neg hlt, if_neg hmany, if_neg (by omega), if_neg hlt]
    rfl

/-- What a settings file holds is taken over, unless its retention is refused. -/
theorem apply_text (other : Config) (h : Config.isSupportedInterval config.intervalHours = true) :
    apply other (text config) =
      if IsRetention config.statsHours then
        .ok { other with
          enabled := config.enabled
          intervalHours := config.intervalHours
          statsHours := config.statsHours }
      else .error (retentionFault config.statsHours) := by
  rw [apply, lines_text, settings]
  simp only [List.foldlM_cons, List.foldlM_nil]
  have henabled : applyLine other (setting (ascii "enabled") (boolText config.enabled))
      = .ok { other with enabled := config.enabled } := by
    rw [← assign_enabled]
    exact applyLine_setting (by decide) (by decide) fun b hb => ne_of_mem_boolText hb
  have hinterval : ∀ c : Config, applyLine c
      (setting (ascii "interval_hours") (Decimal.ofNat config.intervalHours.toNat))
        = .ok { c with intervalHours := config.intervalHours } := by
    intro c
    rw [← assign_intervalHours c h]
    exact applyLine_setting (by decide) (by decide) fun b hb => ne_of_mem_ofNat hb
  have hstats : ∀ c : Config, applyLine c
      (setting (ascii "stats_hours") (Decimal.ofNat config.statsHours.toNat))
        = assign c (ascii "stats_hours") (Decimal.ofNat config.statsHours.toNat) := by
    intro c
    exact applyLine_setting (by decide) (by decide) fun b hb => ne_of_mem_ofNat hb
  simp only [henabled, hinterval, hstats, assign_statsHours, bind, Except.bind, pure, Except.pure]
  split
  · rename_i e heq
    exact heq.symm
  · rename_i c heq
    exact heq.symm

/-- What has been saved is read. -/
theorem read?_save (h : save files path config = (files', .ok ())) :
    files'.read? path = some (text config) := by
  rw [save] at h
  cases hw : files.write? (temporaryPath path) (text config) with
  | none =>
      rw [hw] at h
      cases h
  | some written =>
      obtain ⟨temp, hplace, -, hget⟩ := Files.write?_some hw
      simp only [hw] at h
      cases hr : written.rename (temporaryPath path) path with
      | error cause =>
          simp only [hr] at h
          cases h
      | ok renamed =>
          simp only [hr] at h
          cases h
          obtain ⟨source, -, slash, -, node, -, hs, -, -, -⟩ := Files.rename_ok hr
          obtain rfl : source = temp := Option.some.inj (hs.place_eq.symm.trans hplace)
          obtain rfl : node = .file (.ofText (text config)) :=
            Option.some.inj (hs.get?_eq.symm.trans hget)
          obtain ⟨target, ht, -⟩ := hs.rename hr
          rw [ht.read?_file, Content.text_ofText]

end Settings

/-! ## Changes -/

/-- What an operator can change. -/
inductive Change
  | configure (enabled : Bool) (intervalHours : UInt32)
  | setStatsHours (hours : UInt32)
  deriving DecidableEq, Repr

namespace Change

/-- Carries a change out. -/
def run (s : Service) : Change → Service × Except LogError Unit
  | configure enabled intervalHours => s.configure enabled intervalHours
  | setStatsHours hours => s.setStatsHours hours

/-- The service after a change that succeeds. -/
def apply (s : Service) (change : Change) : Except LogError Service :=
  match change.run s with
  | (s, .ok ()) => .ok s
  | (_, .error e) => .error e

end Change

namespace Service

variable {s s' first : Service} {config : Config} {change : Change} {changes : List Change}

/-- The settings of the service stand in the settings file, and the notes go elsewhere. -/
structure Saved (s : Service) : Prop where
  apart : Path.Apart s.journal.path (Settings.path s.recorder.config)
  supported : Config.isSupportedInterval s.recorder.config.intervalHours = true
  read?_eq : s.files.read? (Settings.path s.recorder.config)
    = some (Settings.text s.recorder.config)

theorem Saved.note (h : s.Saved) (level : Level) (text : Bytes) : (s.note level text).Saved := by
  refine ⟨?_, h.supported, ?_⟩
  · rw [path_note]
    exact h.apart
  · exact (read?_note h.apart).trans h.read?_eq

/-- A configuration that is adopted is the one in the settings file. -/
theorem saved_of_adopt (h : s.adopt config = (s', .ok ()))
    (ha : Path.Apart s.journal.path (Settings.path s.recorder.config))
    (hl : config.logFile = s.recorder.config.logFile)
    (hi : Config.isSupportedInterval config.intervalHours = true) :
    s'.Saved ∧ s'.recorder.config = config := by
  have hpath : Settings.path config = Settings.path s.recorder.config := by
    rw [Settings.path, hl, Settings.path]
  rw [← hpath] at ha
  rw [adopt] at h
  split at h
  · rename_i files heq
    cases h
    have hsaved : Saved { s with recorder := { s.recorder with config }, files } :=
      ⟨ha, hi, Settings.read?_save heq⟩
    exact ⟨hsaved.note _ _, rfl⟩
  · cases h

/-- Configuring saves the settings and leaves the retention as it is. -/
theorem saved_of_configure {enabled : Bool} {hours : UInt32}
    (ha : Path.Apart s.journal.path (Settings.path s.recorder.config))
    (h : s.configure enabled hours = (s', .ok ())) :
    s'.Saved ∧ s'.recorder.config = { s.recorder.config with enabled, intervalHours := hours } := by
  by_cases hi : Config.isSupportedInterval hours = true
  · have hflushed : Quiet s s.flushedFirst := quiet_flushNoting s _
    have hconfig : s.flushedFirst.recorder.config = s.recorder.config := config_flushNoting s _
    rw [configure_eq s enabled hours hi] at h
    cases hadopt : s.flushedFirst.adopt
        { s.flushedFirst.recorder.config with enabled, intervalHours := hours } with
    | mk adopted result =>
        cases result with
        | error e =>
            rw [hadopt] at h
            cases h
        | ok _ =>
            rw [← hconfig, ← hflushed.journal_eq] at ha
            obtain ⟨hsaved, hadopted⟩ := saved_of_adopt hadopt ha rfl hi
            rw [hadopt] at h
            simp only at h
            rw [← hconfig]
            split at h
            · cases h
              exact ⟨(hsaved.note _ _).note _ _, hadopted⟩
            · cases h
              exact ⟨hsaved.note _ _, hadopted⟩
  · rw [configure, Bool.eq_false_of_not_eq_true hi] at h
    cases h

theorem isRetention_of_resize {stats stats' : HourlyStats} {hours : UInt32}
    (h : stats.resize hours.toNat = .ok stats') : Settings.IsRetention hours := by
  rw [HourlyStats.resize, HourlyStats.checkHours] at h
  split at h
  · cases h
  · rename_i hcheck
    rw [Bool.or_eq_true, not_or, decide_eq_true_eq, decide_eq_true_eq] at hcheck
    exact ⟨Nat.pos_of_ne_zero hcheck.1, Nat.not_lt.mp hcheck.2⟩

/-- Only hours that can be retained are set, and setting them saves the settings. -/
theorem saved_of_setStatsHours {hours : UInt32}
    (ha : Path.Apart s.journal.path (Settings.path s.recorder.config))
    (hi : Config.isSupportedInterval s.recorder.config.intervalHours = true)
    (h : s.setStatsHours hours = (s', .ok ())) :
    s'.Saved ∧ s'.recorder.config = { s.recorder.config with statsHours := hours } ∧
      Settings.IsRetention hours := by
  rw [setStatsHours] at h
  cases hr : s.recorder.stats.resize hours.toNat with
  | error cause =>
      rw [hr] at h
      cases h
  | ok stats =>
      simp only [hr] at h
      have hretention : Settings.IsRetention hours := isRetention_of_resize hr
      cases hadopt : s.adopt { s.recorder.config with statsHours := hours } with
      | mk adopted result =>
          cases result with
          | error e =>
              rw [hadopt] at h
              cases h
          | ok _ =>
              rw [hadopt] at h
              cases h
              obtain ⟨hsaved, hadopted⟩ := saved_of_adopt hadopt ha rfl hi
              have hset : Saved { adopted with recorder := { adopted.recorder with stats } } :=
                ⟨hsaved.apart, hsaved.supported, hsaved.read?_eq⟩
              exact ⟨hset.note _ _, hadopted, hretention⟩

/-- A change that succeeds saves the settings, and the retention is one afterwards if it was one
before or has been set. -/
theorem saved_of_apply (ha : Path.Apart s.journal.path (Settings.path s.recorder.config))
    (hi : Config.isSupportedInterval s.recorder.config.intervalHours = true)
    (h : change.apply s = .ok s') :
    s'.Saved ∧ (Settings.IsRetention s'.recorder.config.statsHours ↔
      Settings.IsRetention s.recorder.config.statsHours ∨
        ∃ hours, change = .setStatsHours hours) := by
  have hrun : change.run s = (s', .ok ()) := by
    rw [Change.apply] at h
    split at h
    · rename_i heq
      cases h
      exact heq
    · cases h
  cases change with
  | configure enabled hours =>
      obtain ⟨hsaved, hconfig⟩ := saved_of_configure ha hrun
      refine ⟨hsaved, ?_⟩
      rw [hconfig]
      simp
  | setStatsHours hours =>
      obtain ⟨hsaved, hconfig, hretention⟩ := saved_of_setStatsHours ha hi hrun
      refine ⟨hsaved, ?_⟩
      rw [hconfig]
      simp [hretention]

/-- The same for changes one after another. -/
theorem saved_of_foldlM (ha : Path.Apart first.journal.path (Settings.path first.recorder.config))
    (hi : Config.isSupportedInterval first.recorder.config.intervalHours = true)
    (hne : changes ≠ []) (h : changes.foldlM Change.apply first = .ok s) :
    s.Saved ∧ (Settings.IsRetention s.recorder.config.statsHours ↔
      Settings.IsRetention first.recorder.config.statsHours ∨
        ∃ hours, .setStatsHours hours ∈ changes) := by
  induction changes generalizing first with
  | nil => exact absurd rfl hne
  | cons change changes ih =>
      rw [List.foldlM_cons] at h
      cases hc : change.apply first with
      | error e =>
          rw [hc] at h
          cases h
      | ok next =>
          rw [hc] at h
          obtain ⟨hsaved, hretention⟩ := saved_of_apply ha hi hc
          by_cases hlast : changes = []
          · subst hlast
            cases h
            refine ⟨hsaved, hretention.trans ?_⟩
            simp [eq_comm]
          · obtain ⟨hsaved', hretention'⟩ := ih hsaved.apart hsaved.supported hlast h
            refine ⟨hsaved', hretention'.trans ?_⟩
            rw [hretention, or_assoc, ← exists_or]
            simp [eq_comm]

/-- What the changes of an operator leave in the settings file is loaded back, for any service
with a supported interval whose notes go elsewhere: the settings of the service into any
configuration, as long as the service was made with hours that the statistics can retain or one
of the changes has set them. Otherwise the file is refused as a whole. -/
theorem load?_of_changes
    (ha : Path.Apart first.journal.path (Settings.path first.recorder.config))
    (hi : Config.isSupportedInterval first.recorder.config.intervalHours = true)
    (hne : changes ≠ []) (h : changes.foldlM Change.apply first = .ok s) (other : Config) :
    (Settings.IsRetention first.recorder.config.statsHours ∨
        (∃ hours, .setStatsHours hours ∈ changes) →
      Settings.load? s.files (Settings.path s.recorder.config) other = .ok (some { other with
        enabled := s.recorder.config.enabled
        intervalHours := s.recorder.config.intervalHours
        statsHours := s.recorder.config.statsHours })) ∧
    (¬ Settings.IsRetention first.recorder.config.statsHours →
        (∀ hours, .setStatsHours hours ∉ changes) →
      Settings.load? s.files (Settings.path s.recorder.config) other
        = .error (Settings.retentionFault s.recorder.config.statsHours)) := by
  obtain ⟨hsaved, hretention⟩ := saved_of_foldlM ha hi hne h
  have hload := Settings.apply_text other hsaved.supported
  constructor
  · intro hr
    rw [Settings.load?, hsaved.read?_eq]
    simp only [hload, if_pos (hretention.mpr hr)]
    rfl
  · intro hr hset
    have hnot : ¬ Settings.IsRetention s.recorder.config.statsHours := by
      rw [hretention]
      rintro (hr' | ⟨hours, hmem⟩)
      · exact hr hr'
      · exact hset hours hmem
    rw [Settings.load?, hsaved.read?_eq]
    simp only [hload, if_neg hnot]
    rfl

/-- A small log is switched off, and its statistics are made to retain two days. -/
def changedTwice : Service :=
  ([Change.configure false 168, .setStatsHours 48].foldlM Change.apply
    (launch .small .empty .silent)).toOption.getD (launch .small .empty .silent)

/-- Both changes are loaded back. -/
theorem load?_of_changes_twice :
    Settings.load? changedTwice.files (ascii "q.log.conf") .small
      = .ok (some
        { Config.small with enabled := false, intervalHours := 168, statsHours := 48 }) := by
  have h : [Change.configure false 168, .setStatsHours 48].foldlM Change.apply
      (launch .small .empty .silent) = .ok changedTwice := by
    decide +kernel
  have hconfig : changedTwice.recorder.config
      = { Config.small with enabled := false, intervalHours := 168, statsHours := 48 } := by
    decide
  have hload := (load?_of_changes (Journal.apart_silent _) (by decide) (by simp) h .small).1
    (Or.inl (by decide))
  rw [hconfig] at hload
  exact hload

/-- A log without retained hours is switched on. -/
def unretained : Service :=
  ([Change.configure true 24].foldlM Change.apply
    (launch { Config.small with statsHours := 0 } .empty .silent)).toOption.getD
      (launch .small .empty .silent)

/-- Not all that changes leave in the settings file is loaded back. -/
theorem not_load?_of_changes :
    ¬ ∀ (config other : Config) (files : Files) (journal : Journal) (changes : List Change)
        (s : Service), Config.isSupportedInterval config.intervalHours = true →
      Path.Apart journal.path (Settings.path config) → changes ≠ [] →
      changes.foldlM Change.apply (launch config files journal) = .ok s →
      Settings.load? s.files (Settings.path s.recorder.config) other = .ok (some { other with
        enabled := s.recorder.config.enabled
        intervalHours := s.recorder.config.intervalHours
        statsHours := s.recorder.config.statsHours }) := by
  intro h
  have hload := h { Config.small with statsHours := 0 } .small .empty .silent
    [.configure true 24] unretained (by decide) (Journal.apart_silent _) (by simp)
    (by decide +kernel)
  exact absurd hload (by decide +kernel)

end Service

end ResolverLog
