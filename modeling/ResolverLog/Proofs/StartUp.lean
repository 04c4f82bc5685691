import ResolverLog.Program
import ResolverLog.Proofs.CommandLine
import ResolverLog.Proofs.Signals

/-!
# Which runs start

A run for which there is no settings file takes its interval from the command
line. It starts its service when the low half of the number that was last given
is one of the four supported intervals, and otherwise it ends before anything is
written. Numbers of more than 32 bits are thus taken for smaller ones. What a run
that has started its service comes to depends on the machine as well: it is
aborted without its workers, the control interface can keep it going, and any
other succeeds.
-/

namespace ResolverLog

theorem Config.isSupportedInterval_iff {hours : UInt32} :
    Config.isSupportedInterval hours = true ↔ hours.toNat ∈ [24, 168, 720, 2160] := by
  simp only [Config.isSupportedInterval, Bool.or_eq_true, beq_iff_eq, ← UInt32.toNat_inj,
    UInt32.reduceToNat, or_assoc, List.mem_cons, List.not_mem_nil, or_false]

namespace Service

/-- A service that is launched and started runs with its configuration. -/
theorem start_launch (config : Config) (files : Files) (journal : Journal) (now : Int64) :
    let s := ((launch config files journal).start now).startBackground
    s.recorder.phase = .running ∧ s.recorder.config = config := by
  intro s
  obtain ⟨writer, hwriter⟩ := recorder_startBackground ((launch config files journal).start now)
  have hrecorder : s.recorder = { ((launch config files journal).restored now).opened.recorder with
      writer } := by
    rw [← recorder_start rfl]
    exact hwriter
  rw [hrecorder]
  exact ⟨rfl, rfl⟩

end Service

namespace Program

variable {cores : Nat} {machine : Machine} {words : List Bytes} {files : Files} {o : Options}
  {value : Bytes} {n : UInt64}

/-- Without a settings file there is only what the options say, and nothing to note. -/
theorem configure_of_missing (h : files.read? (Settings.path o.config) = none) :
    configure o files = ({ o.config with enabled := o.config.enabled && !o.disable }, none) := by
  have hload : Settings.load? files (Settings.path o.config) o.config = .ok none := by
    rw [Settings.load?, h]
  simp only [configure, hload]

theorem prepare_of_supported (hparse : Options.parse cores words = .ok o)
    (hmissing : files.read? (Settings.path o.config) = none)
    (hsupported : Config.isSupportedInterval o.config.intervalHours = true) (now : Int64) :
    ∃ s, prepare cores words files now = .ok (o, s) ∧ s.recorder.phase = .running ∧
      s.recorder.config.intervalHours = o.config.intervalHours := by
  rw [prepare, hparse]
  simp only [configure_of_missing hmissing, begin, hsupported, if_true]
  refine ⟨_, rfl, (Service.start_launch _ _ _ now).1, ?_⟩
  rw [(Service.start_launch _ _ _ now).2]

theorem prepare_of_unsupported (hparse : Options.parse cores words = .ok o)
    (hmissing : files.read? (Settings.path o.config) = none)
    (hunsupported : Config.isSupportedInterval o.config.intervalHours = false) (now : Int64) :
    prepare cores words files now
      = .error ⟨2, [], intervalMessage o.config.intervalHours, files⟩ := by
  rw [prepare, hparse]
  simp only [configure_of_missing hmissing, begin, hunsupported, Bool.false_eq_true, if_false]
  rfl

/-- A service that has been started is stopped with success if it has its workers and no control
interface keeps it going. -/
theorem carryOut_cases (machine : Machine) (o : Options) (input : Bytes) (s : Service)
    (now : Int64) :
    (canWork machine o = false → carryOut machine o input s now = .aborts) ∧
    (canWork machine o = true → servesOn machine o = true →
      carryOut machine o input s now = .serves) ∧
    (canWork machine o = true → servesOn machine o = false →
      ∃ outcome, carryOut machine o input s now = .exits outcome ∧ outcome.status = 0) := by
  refine ⟨fun hwork => ?_, fun hwork hup => ?_, fun hwork hup => ?_⟩
  · rw [carryOut, hwork]
    rfl
  · rw [carryOut, hwork, hup]
    rfl
  · rw [carryOut, hwork, hup]
    exact ⟨_, rfl, rfl⟩

/-- For a command line that is accepted and has `n` as its last interval, and without a settings
file, the service is started when the low half of `n` is a supported interval. It then runs with
this interval. On every input the run is aborted if the machine cannot start its workers, is kept
going by a control interface that comes up where no operator can end it, and succeeds otherwise.
When the interval is not supported the run fails with a message and leaves the files as they are.
-/
theorem starts_iff (hline : Options.Says (.default machine.cores) words o)
    (hport : 0 < o.httpPort ∧ o.httpPort ≤ 65535)
    (hmissing : files.read? (Settings.path o.config) = none)
    (hlast : Options.LastGiven words (ascii "--interval-hours") value)
    (hn : Options.Denotes value n) (now : Int64) :
    ((∃ s, prepare machine.cores words files now = .ok (o, s)) ↔
      n.toNat % 2 ^ 32 ∈ [24, 168, 720, 2160]) ∧
    (∀ s, prepare machine.cores words files now = .ok (o, s) → s.recorder.phase = .running ∧
      s.recorder.config.intervalHours.toNat = n.toNat % 2 ^ 32) ∧
    ∀ input,
      (n.toNat % 2 ^ 32 ∈ [24, 168, 720, 2160] →
        (canWork machine o = false → run machine words input files now = .aborts) ∧
        (canWork machine o = true → servesOn machine o = true →
          run machine words input files now = .serves) ∧
        (canWork machine o = true → servesOn machine o = false →
          ∃ outcome, run machine words input files now = .exits outcome ∧ outcome.status = 0)) ∧
      (n.toNat % 2 ^ 32 ∉ [24, 168, 720, 2160] →
        run machine words input files now
          = .exits ⟨2, [], intervalMessage n.toUInt32, files⟩) := by
  have hparse : Options.parse machine.cores words = .ok o :=
    Options.parse_eq_ok_iff.mpr ⟨hline, hport⟩
  have hinterval : o.config.intervalHours = n.toUInt32 := hline.intervalHours_eq hlast hn
  have hsupported : Config.isSupportedInterval o.config.intervalHours = true ↔
      n.toNat % 2 ^ 32 ∈ [24, 168, 720, 2160] := by
    rw [Config.isSupportedInterval_iff, hinterval, UInt64.toNat_toUInt32]
  by_cases hmem : n.toNat % 2 ^ 32 ∈ [24, 168, 720, 2160]
  · obtain ⟨s, hprepare, hphase, hours⟩ :=
      prepare_of_supported hparse hmissing (hsupported.mpr hmem) now
    refine ⟨⟨fun _ => hmem, fun _ => ⟨s, hprepare⟩⟩, fun s' hprepared => ?_,
      fun input => ⟨fun _ => ?_, fun hnot => absurd hmem hnot⟩⟩
    · cases hprepare.symm.trans hprepared
      rw [hours, hinterval, UInt64.toNat_toUInt32]
      exact ⟨hphase, rfl⟩
    · rw [run, hprepare]
      exact carryOut_cases machine o input s now
  · have hrefused := prepare_of_unsupported hparse hmissing
      (Bool.eq_false_iff.mpr fun h => hmem (hsupported.mp h)) now
    refine ⟨⟨fun ⟨s, hprepared⟩ => ?_, fun h => absurd h hmem⟩, fun s hprepared => ?_,
      fun input => ⟨fun h => absurd h hmem, fun _ => ?_⟩⟩
    · cases hrefused.symm.trans hprepared
    · cases hrefused.symm.trans hprepared
    · rw [run, hrefused, hinterval]

/-- A machine of four processors that can start a hundred workers, on which a port is taken. -/
def crowded : Machine :=
  ⟨4, 99, fun port => if port = 8080 then some .notBound else none⟩

/-- A day is asked for first, and then a week in a roundabout way. -/
def roundabout : List Bytes :=
  [ascii "--interval-hours", ascii "24", ascii "--disable", ascii "--interval-hours",
    ascii " -18446744073709551448 hours", ascii "--log-file", ascii "q.log"]

/-- The service is started for the week, and the run succeeds. -/
theorem starts_iff_roundabout :
    (∃ o s, prepare 4 roundabout .empty 5 = .ok (o, s) ∧ s.recorder.phase = .running ∧
      s.recorder.config.intervalHours = 168) ∧
    ∃ outcome, run crowded roundabout [] .empty 5 = .exits outcome ∧ outcome.status = 0 := by
  have hday : Options.Denotes (ascii "24") 24 := Options.unsigned_eq_ok_iff.mp (by decide)
  have hweek : Options.Denotes (ascii " -18446744073709551448 hours") 168 :=
    Options.unsigned_eq_ok_iff.mp (by decide)
  have hline : ∃ o, Options.Says (.default crowded.cores) roundabout o ∧
      (0 < o.httpPort ∧ o.httpPort ≤ 65535) ∧
      Files.read? .empty (Settings.path o.config) = none ∧ canWork crowded o = true ∧
      servesOn crowded o = false :=
    ⟨_, .value (.number List.mem_cons_self hday) (.disable (.value
      (.number List.mem_cons_self hweek) (.value (.text _ List.mem_cons_self) (.done _)))),
      by decide, rfl, by decide, rfl⟩
  have hlast : Options.LastGiven roundabout (ascii "--interval-hours")
      (ascii " -18446744073709551448 hours") :=
    ⟨[(ascii "--interval-hours", ascii "24")], [(ascii "--log-file", ascii "q.log")],
      by decide, by decide⟩
  obtain ⟨o, hline, hport, hmissing, hwork, hup⟩ := hline
  obtain ⟨hstarts, hruns, hends⟩ := starts_iff hline hport hmissing hlast hweek 5
  obtain ⟨s, hprepare⟩ := hstarts.mpr (by decide)
  obtain ⟨hphase, hours⟩ := hruns s hprepare
  exact ⟨⟨o, s, hprepare, hphase, UInt32.toNat_inj.mp hours⟩,
    ((hends []).1 (by decide)).2.2 hwork hup⟩

/-- The 24 hours of a day, with a bit set that is cut off. -/
def overlong : List Bytes :=
  [ascii "--interval-hours", ascii "4294967320"]

/-- A number beyond 32 bits can start the service though it is no supported interval. -/
theorem not_starts_iff :
    ¬ ∀ (cores : Nat) (words : List Bytes) (files : Files) (o : Options) (value : Bytes)
      (n : UInt64) (now : Int64), Options.Says (.default cores) words o →
      0 < o.httpPort ∧ o.httpPort ≤ 65535 → files.read? (Settings.path o.config) = none →
      Options.LastGiven words (ascii "--interval-hours") value → Options.Denotes value n →
      ((∃ s, prepare cores words files now = .ok (o, s)) ↔ n.toNat ∈ [24, 168, 720, 2160]) := by
  intro h
  have hn : Options.Denotes (ascii "4294967320") 4294967320 :=
    Options.unsigned_eq_ok_iff.mp (by decide)
  have hlast : Options.LastGiven overlong (ascii "--interval-hours") (ascii "4294967320") :=
    ⟨[], [], by decide, List.forall_mem_nil _⟩
  have hline : ∃ o, Options.Says (.default 1) overlong o ∧ (0 < o.httpPort ∧ o.httpPort ≤ 65535) ∧
      Files.read? .empty (Settings.path o.config) = none ∧
      Config.isSupportedInterval o.config.intervalHours = true :=
    ⟨_, .value (.number List.mem_cons_self hn) (.done _), by decide, rfl, by decide⟩
  obtain ⟨o, hline, hport, hmissing, hsupported⟩ := hline
  have hparse : Options.parse 1 overlong = .ok o := Options.parse_eq_ok_iff.mpr ⟨hline, hport⟩
  obtain ⟨s, hprepare, -⟩ := prepare_of_supported hparse hmissing hsupported 0
  have hlisted := (h 1 overlong .empty o _ _ 0 hline hport hmissing hlast hn).mp ⟨s, hprepare⟩
  exact absurd hlisted (by decide)

end Program

end ResolverLog
