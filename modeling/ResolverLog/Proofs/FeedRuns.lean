import ResolverLog.Program
import ResolverLog.Proofs.Feeding
import ResolverLog.Proofs.Options
import ResolverLog.Proofs.StartUp

/-!
# Runs of the program over a feed

A run that reads its events from the standard input may go in many ways: the
input arrives in reads of any sizes, and the reader, the worker and the tasks
take their turns in any order. The run that the program carries out is one of
them. Started in an empty directory with recording on and one worker, each of
them can be brought to its end, succeeds, and leaves a log file with just the
entries of the feed in their order, or no log file if the feed has none.

## Implementation notes

The note on the reading and those on the shutdown are entered before the first
turn and after the last one. Which other notes stand between them is not part of
what is shown here.
-/

namespace ResolverLog

open Bytes
open Relation (ReflTransGen)

namespace Program

/-- The events come from the standard input, one worker takes them in, and nobody else has
access to the log. -/
structure FeedsAlone (o : Options) : Prop where
  feedFile_eq : o.feedFile = []
  workers_le : o.workers.toNat ≤ 1
  httpEnable_eq : o.httpEnable = false

/-- The service with the note on the reading of a stream. -/
def noteReading (s : Service) (delivery : Feed.Delivery) : Service :=
  s.note .debug (ascii "feed: " ++ Decimal.ofNat delivery.count ++ ascii " lines read")

/-- How a run ends once its feed has been taken in. -/
def ended (f : Feeding) : Outcome :=
  let s := shutDown (stopFeed f.service) f.counts
  ⟨0, [], s.journal.text, s.files⟩

variable {cores : Nat} {machine : Machine} {words : List Bytes} {input : Bytes} {files : Files}
  {now : Int64} {o : Options} {s : Service} {f : Feeding} {outcome : Outcome}

/-- A run with these words and this input may come to this point of its feeding. -/
inductive Reaches (cores : Nat) (words : List Bytes) (input : Bytes) (files : Files) (now : Int64)
    (f : Feeding) : Prop
  | intro {o : Options} {s : Service} {reads : List Bytes}
      (prepared : prepare cores words files now = .ok (o, s)) (alone : FeedsAlone o)
      (read_eq : reads.flatten = input)
      (sizes : ∀ read ∈ reads, read ≠ [] ∧ read.length ≤ Feed.readSize)
      (steps : ReflTransGen Feeding.Step
        (.begin o.queueCapacity.toNat (Feed.ofStream false false reads).lines
          (noteReading s (Feed.ofStream false false reads))) f) :
      Reaches cores words input files now f

/-- A run with these words and this input may end in this way. -/
inductive MayEnd (cores : Nat) (words : List Bytes) (input : Bytes) (files : Files) (now : Int64) :
    Outcome → Prop
  | refused {outcome : Outcome} (h : prepare cores words files now = .error outcome) :
      MayEnd cores words input files now outcome
  | fed {f : Feeding} (reached : Reaches cores words input files now f) (done : f.IsDone) :
      MayEnd cores words input files now (ended f)

/-- At each point of a run the lines of the input are accounted for. -/
theorem Reaches.fed {path : Bytes} (h : Reaches cores words input files now f)
    (hprepare : prepare cores words files now = .ok (o, s))
    (hlogging : Logging path .running s []) :
    f.Fed path (lines input) := by
  obtain ⟨hprepared, -, hread, -, hsteps⟩ := h
  cases hprepare.symm.trans hprepared
  refine Feeding.Fed.run ?_ hsteps
  rw [Feed.lines_ofStream, hread]
  exact Feeding.Fed.begin (hlogging.note _ _) _ _

/-! ## The run that is carried out -/

/-- One worker can always be started, and no control interface keeps the run going. -/
theorem carryOut_of_feedsAlone (h : FeedsAlone o) (machine : Machine) (input : Bytes) (s : Service)
    (now : Int64) :
    let delivery := Feed.ofStream false false (reads Feed.readSize input)
    let taken := Intake.handleAll (noteReading s delivery) delivery.lines now
    let stopped := shutDown (stopFeed taken.1) taken.2
    carryOut machine o input s now = .exits ⟨0, [], stopped.journal.text, stopped.files⟩ := by
  have hwork : canWork machine o = true :=
    decide_eq_true (h.workers_le.trans (Nat.le_add_left _ _))
  have hup : controlUp machine o = false := by
    rw [controlUp, h.httpEnable_eq, Bool.false_and]
  have hends : servesOn machine o = false := by
    rw [servesOn, hup, Bool.false_and]
  have hread : readFeed o input s
      = (noteReading s (Feed.ofStream false false (reads Feed.readSize input)),
        (Feed.ofStream false false (reads Feed.readSize input)).lines) := by
    rw [readFeed, h.feedFile_eq]
    rfl
  have hcontrol : ∀ s, noteControl machine o s = s := by
    intro s
    rw [noteControl, h.httpEnable_eq]
    rfl
  have hclose : ∀ s, closeControl machine o s = s := by
    intro s
    rw [closeControl, hup]
    rfl
  have hoperate : ∀ s, operate o input s = (s, []) := by
    intro s
    rw [operate, h.feedFile_eq]
    rfl
  rw [carryOut, hwork, hends]
  simp only [serve, hread, hcontrol, hoperate, hclose, Bool.not_true, Bool.false_eq_true, if_false]

/-- What the program carries out is one of its runs. -/
theorem mayEnd_run (machine : Machine) (input : Bytes)
    (h : ∀ o s, prepare machine.cores words files now = .ok (o, s) → FeedsAlone o) :
    ∃ outcome, run machine words input files now = .exits outcome ∧
      MayEnd machine.cores words input files now outcome := by
  cases hprepare : prepare machine.cores words files now with
  | error outcome => exact ⟨outcome, by rw [run, hprepare], .refused hprepare⟩
  | ok prepared =>
      obtain ⟨o, s⟩ := prepared
      have halone := h o s hprepare
      obtain ⟨f, hrun, hdone, hall⟩ := Feeding.exists_handleAll o.queueCapacity.toNat
        (Feed.ofStream false false (reads Feed.readSize input)).lines
        (noteReading s (Feed.ofStream false false (reads Feed.readSize input))) now
      have hreached : Reaches machine.cores words input files now f :=
        .intro hprepare halone (flatten_reads _ _)
          (fun read hread => ⟨ne_nil_of_mem_reads hread,
            length_le_of_mem_reads (by decide) hread⟩) hrun
      refine ⟨ended f, ?_, .fed hreached hdone⟩
      rw [run, hprepare]
      simp only [carryOut_of_feedsAlone halone, ← hall]
      rfl

/-! ## In an empty directory -/

/-- The notes go to neither of the log files. -/
theorem apart_noteFile {other : Bytes} (h : other ∈ [ascii "q.log", ascii "q.log.1"]) :
    Path.Apart (ascii "querypulse.err.log") other := by
  have hne : Path.place? (ascii "querypulse.err.log") ≠ Path.place? other := by
    revert other
    decide
  intro place hplace hother
  exact hne (hplace.trans hother.symm)

/-- A log can be kept in an empty directory. -/
theorem logging_new (hplain : o.Plain) (hlog : o.config.logFile = ascii "q.log") :
    Logging (ascii "q.log") .uninitialized ⟨.new o.config, .empty, journal o⟩ [] := by
  have hpath : (journal o).path = ascii "querypulse.err.log" := hplain.noteFile_eq
  have hwritable : Files.Writable .empty (ascii "q.log") := by decide
  refine ⟨⟨?_, ?_, ?_⟩, hlog, hwritable, rfl, hplain.enabled_eq, List.forall_mem_nil _, [],
    Archive.Holds.of_vacant (Archive.vacant_empty _), rfl⟩
  · change 0 ∉ o.config.logFile
    rw [hlog]
    decide
  · change Path.Apart (journal o).path o.config.logFile
    rw [hpath, hlog]
    exact apart_noteFile (by decide)
  · change Path.Apart (journal o).path (o.config.logFile ++ ascii ".1")
    rw [hpath, hlog]
    exact apart_noteFile (by decide)

/-- In an empty directory there are no settings to load. -/
theorem configure_empty (hplain : o.Plain) (hlog : o.config.logFile = ascii "q.log") :
    configure o .empty = (o.config, none) := by
  have hmissing : Files.read? .empty (Settings.path o.config) = none := by
    rw [Settings.path, hlog]
    rfl
  have henabled : { o.config with enabled := o.config.enabled && !o.disable } = o.config := by
    rw [hplain.disable_eq, Bool.not_false, Bool.and_true]
  rw [configure_of_missing hmissing, henabled]

/-- A run that keeps `q.log` in an empty directory gets to its feed. -/
theorem prepare_of_plain (hparse : Options.parse cores words = .ok o) (hplain : o.Plain)
    (hlog : o.config.logFile = ascii "q.log") (now : Int64) :
    ∃ s, prepare cores words .empty now = .ok (o, s) ∧ Logging (ascii "q.log") .running s [] := by
  have hgreeted := (logging_new hplain hlog).note .info (greeting o o.config)
  rw [prepare, hparse]
  simp only [configure_empty hplain hlog, begin, hplain.intervalHours_eq]
  refine ⟨_, rfl, ?_⟩
  exact (((hgreeted.note _ _).note _ _).start now).startBackground

/-- What has been given to a log is in its file when the run has ended. -/
theorem ended_of_logging {path : Bytes} {logged : List Entry}
    (h : Logging path .running f.service logged) :
    Record.decodeAll ((ended f).files.contents path) = .ok logged ∧
      (logged = [] → (ended f).files.stat path = .error .missing) := by
  obtain ⟨hstopped, hpending⟩ := ((h.note .info (ascii "Shutdown: stopping feed")).note .info
    (summary f.counts)).stop
  have hend := hstopped.note .info (ascii "QueryPulse shutting down normally.")
  obtain ⟨written, hholds, hlogged⟩ := hend.logged_eq
  have hwritten : logged = written := by
    rw [hlogged]
    exact (congrArg (written ++ ·) hpending).trans (List.append_nil written)
  subst hwritten
  refine ⟨Record.decodeAll_of_encodeAll hholds.encode_eq, ?_⟩
  intro hnil
  obtain ⟨place, found, hnamed, hfound⟩ := Files.named_of_opens hend.writable.1
  cases found with
  | none => exact hnamed.stat_eq_missing
  | some node =>
      cases node with
      | file content => exact absurd hnil (hholds.hasFile_iff.mp hnamed.hasFile)
      | directory => exact absurd rfl hfound

/-- With recording on, one worker and any sizes, a run in an empty directory can always be brought
to its end, and so is the one that is carried out. However the input arrives and the parties take
their turns, the run succeeds and `q.log` holds the entries of the lines of its input, apart from
their times and in the order of the lines: of those that are neither empty nor comments, that are
events, and whose name is not the root. Without such a line there is no `q.log`. -/
theorem records_feed {arguments : List Argument} (hlog : .logFile ∈ arguments)
    (hworker : .oneWorker ∈ arguments) (machine : Machine) (input : Bytes) (now : Int64) :
    let words := arguments.flatMap Argument.words
    (∃ outcome, run machine words input .empty now = .exits outcome ∧
      MayEnd machine.cores words input .empty now outcome) ∧
    (∀ f, Reaches machine.cores words input .empty now f →
      ∃ f', ReflTransGen Feeding.Step f f' ∧ f'.IsDone) ∧
    ∀ outcome, MayEnd machine.cores words input .empty now outcome →
      outcome.status = 0 ∧
      ∃ entries, Record.decodeAll (outcome.files.contents (ascii "q.log")) = .ok entries ∧
        entries.map Entry.timeless = (lines input).filterMap Intake.recorded? ∧
        (entries = [] → outcome.files.stat (ascii "q.log") = .error .missing) := by
  intro words
  obtain ⟨o, hparse, hplain, hfile, hone⟩ := Argument.parse_flatMap machine.cores hlog hworker
  obtain ⟨s, hprepare, hlogging⟩ := prepare_of_plain hparse hplain hfile now
  have halone : FeedsAlone o := by
    refine ⟨hplain.feedFile_eq, ?_, hplain.httpEnable_eq⟩
    rw [hone]
    decide
  refine ⟨?_, fun f hreached => (hreached.fed hprepare hlogging).exists_isDone, ?_⟩
  · refine mayEnd_run machine input fun o' s' hprepared => ?_
    cases hprepare.symm.trans hprepared
    exact halone
  · intro outcome hend
    cases hend with
    | refused h => cases hprepare.symm.trans h
    | fed reached done =>
        obtain ⟨logged, hlogged, hentries⟩ := (reached.fed hprepare hlogging).logging_of_isDone done
        obtain ⟨hdecode, hmissing⟩ := ended_of_logging hlogged
        exact ⟨rfl, logged, hdecode, hentries, hmissing⟩

/-- Two events among lines without one; no newline ends the last. -/
def mixedFeed : Bytes :=
  ascii "# clients\n10.0.0.1 example.com\n\n10.0.0.1 .\n10.0.0.2\n"
    ++ ascii "10.0.0.2 example.org AAAA blocked 7"

/-- The log of this feed, written entry by entry through a queue of one line. -/
theorem records_feed_mixed :
    let arguments : List Argument := [.bufferSize 1, .logFile, .queueCapacity 0, .oneWorker]
    ∃ outcome, run crowded (arguments.flatMap Argument.words) mixedFeed .empty 5
        = .exits outcome ∧
      outcome.status = 0 ∧
      ∃ entries, Record.decodeAll (outcome.files.contents (ascii "q.log")) = .ok entries ∧
        entries.map Entry.name? = [some (ascii "example.com"), some (ascii "example.org")] := by
  intro arguments
  have hlog : .logFile ∈ arguments := by decide
  have hworker : .oneWorker ∈ arguments := by decide
  obtain ⟨⟨outcome, hrun, hend⟩, -, hends⟩ := records_feed hlog hworker crowded mixedFeed 5
  obtain ⟨hstatus, entries, hdecode, hentries, -⟩ := hends outcome hend
  refine ⟨outcome, hrun, hstatus, entries, hdecode, ?_⟩
  have hnames := congrArg (List.map Entry.name?) hentries
  rw [List.map_map] at hnames
  refine hnames.trans ?_
  decide +kernel

end Program

end ResolverLog
