import ResolverLog.Console
import ResolverLog.Feed
import ResolverLog.Intake
import ResolverLog.Options

/-!
# A run of the program

From a command line, the standard input and the files of the working directory
to an exit status, what is written and the files afterwards. Without a feed file
the standard input holds the events; with one it holds the operator's commands,
which are carried out after the events.

The notes of a run go to the standard error stream and to the note file.

A run also depends on its machine: whether that can start all workers, and
whether the control interface can listen on its port. An interface that is up
keeps a run over the standard input going. What others do over the interface is
not part of a run.
-/

namespace ResolverLog

/-- How a run ends. -/
structure Outcome where
  status : Nat
  output : Bytes
  errors : Bytes
  files : Files
  deriving DecidableEq, Repr

/-- Why the control interface does not come up. -/
inductive ListenFault
  | noSocket
  | notBound
  | notListening
  deriving DecidableEq, Repr

/-- What is said when the control interface cannot listen on a port. -/
def ListenFault.message (port : Int) : ListenFault → Bytes
  | .noSocket => ascii "HttpServer: socket() failed"
  | .notBound => ascii "HttpServer: bind() failed on port " ++ Decimal.ofInt port
  | .notListening => ascii "HttpServer: listen() failed"

/-- What a run depends on in its machine. -/
structure Machine where
  /-- The number of processors; zero if that is unknown. -/
  cores : Nat
  /-- How many workers can be started besides the first. -/
  spareWorkers : Nat
  /-- Why the control interface cannot listen on a port, if it cannot. -/
  listenFault? : Int → Option ListenFault

/-- How a run goes. -/
inductive Ending
  | exits (outcome : Outcome)
  /-- The control interface keeps the run going. -/
  | serves
  /-- Not all workers can be started, and the run is aborted. -/
  | aborts
  deriving DecidableEq, Repr

namespace Program

/-- The journal that the options ask for. -/
def journal (o : Options) : Journal :=
  ⟨o.level, o.noteFile, []⟩

/-- The configuration after the settings file, and the note about it, if there was one. -/
def configure (o : Options) (files : Files) : Config × Option Note :=
  let path := Settings.path o.config
  let (config, note) : Config × Option Note := match Settings.load? files path o.config with
    | .ok none => (o.config, none)
    | .ok (some config) => (config, some ⟨.info, ascii "Loaded settings from " ++ path⟩)
    | .error e => (o.config, some ⟨.error, ascii "Ignoring settings file: " ++ e.message⟩)
  ({ config with enabled := config.enabled && !o.disable }, note)

/-- The note on the options that a run starts with. -/
def greeting (o : Options) (config : Config) : Bytes :=
  ascii "Starting QueryPulse; log_file=" ++ config.logFile
    ++ ascii " enabled=" ++ Settings.boolText config.enabled
    ++ ascii " interval_hours=" ++ Decimal.ofNat config.intervalHours.toNat
    ++ ascii " stats_hours=" ++ Decimal.ofNat config.statsHours.toNat
    ++ ascii " feed=" ++ (if o.feedFile.isEmpty then ascii "<stdin>" else o.feedFile)
    ++ ascii " workers=" ++ Decimal.ofNat o.workers.toNat
    ++ ascii " qcap=" ++ Decimal.ofNat o.queueCapacity.toNat
    ++ ascii " http_enable=" ++ Settings.boolText o.httpEnable
    ++ ascii " http_port=" ++ Decimal.ofInt o.httpPort

/-- The lines of the feed, and the service with a note on the reading. -/
def readFeed (o : Options) (input : Bytes) (s : Service) : Service × List Bytes :=
  if o.feedFile.isEmpty then
    let delivery := Feed.ofStream false false (Bytes.reads Feed.readSize input)
    (s.note .debug (ascii "feed: " ++ Decimal.ofNat delivery.count ++ ascii " lines read"),
      delivery.lines)
  else match s.files.read? o.feedFile with
    | some content => (s, (Feed.ofFile false false content).lines)
    | none => (s.note .error (ascii "feed: failed to open " ++ o.feedFile), [])

/-- The operator's session, when the events come from a file. -/
def operate (o : Options) (input : Bytes) (s : Service) : Service × Bytes :=
  if o.feedFile.isEmpty then (s, []) else Console.run s false input

/-- The note on what became of the feed. -/
def summary (counts : IntakeCounts) : Bytes :=
  ascii "Feed done: accepted=" ++ Decimal.ofNat counts.accepted
    ++ ascii " rejected=" ++ Decimal.ofNat counts.rejected
    ++ ascii " parse_errors=" ++ Decimal.ofNat counts.parseErrors

/-- The control interface is wanted and comes up. -/
def controlUp (machine : Machine) (o : Options) : Bool :=
  o.httpEnable && (machine.listenFault? o.httpPort).isNone

/-- The control interface is up, and there is no operator whose commands end the run. -/
def servesOn (machine : Machine) (o : Options) : Bool :=
  controlUp machine o && o.feedFile.isEmpty

/-- The notes on bringing up the control interface, if it is wanted. -/
def noteControl (machine : Machine) (o : Options) (s : Service) : Service :=
  if !o.httpEnable then s
  else match machine.listenFault? o.httpPort with
    | none => s.note .info (ascii "HttpServer started on port " ++ Decimal.ofInt o.httpPort)
    | some fault =>
      (s.note .error (fault.message o.httpPort)).note .error (ascii "HttpServer failed to start")

/-- The note at the end of the feed. -/
def stopFeed (s : Service) : Service :=
  s.note .info (ascii "Shutdown: stopping feed")

/-- The note on the control interface when it has been closed, if it was up. -/
def closeControl (machine : Machine) (o : Options) (s : Service) : Service :=
  if controlUp machine o then s.note .info (ascii "HttpServer stopped") else s

/-- Stops a service behind its feed. -/
def shutDown (s : Service) (counts : IntakeCounts) : Service :=
  (s.note .info (summary counts)).stop.note .info (ascii "QueryPulse shutting down normally.")

/-- Takes the feed in, lets the operator work, and stops. -/
def serve (machine : Machine) (o : Options) (input : Bytes) (s : Service) (now : Int64) :
    Service × Bytes :=
  let (fed, lines) := readFeed o input s
  let (taken, counts) := Intake.handleAll fed lines now
  let (operated, output) := operate o input (noteControl machine o taken)
  (shutDown (closeControl machine o (stopFeed operated)) counts, output)

/-- The journal and the files after the first note, if there is one. -/
def begin (o : Options) (files : Files) (note : Option Note) : Journal × Files :=
  match note with
  | some note => (journal o).enter files note
  | none => (journal o, files)

/-- What is said about an interval that is not supported. -/
def intervalMessage (hours : UInt32) : Bytes :=
  ascii "unsupported --interval-hours " ++ Decimal.ofNat hours.toNat
    ++ ascii " (24, 168, 720 or 2160)\n"

/-- The options and the service, started and with its background tasks, for a run with the given
words on its command line; how the run ends where it does not come so far. -/
def prepare (cores : Nat) (words : List Bytes) (files : Files) (now : Int64) :
    Except Outcome (Options × Service) :=
  match Options.parse cores words with
  | .error e => .error ⟨e.status, [], e.text, files⟩
  | .ok o =>
    let (config, note) := configure o files
    let (journal, files) := begin o files note
    if Config.isSupportedInterval config.intervalHours then
      let (journal, files) := journal.enter files ⟨.info, greeting o config⟩
      .ok (o, ((Service.launch config files journal).start now).startBackground)
    else .error ⟨2, [], journal.text ++ intervalMessage config.intervalHours, files⟩

/-- The machine can start all the workers that are wanted, of which there is at least one. -/
def canWork (machine : Machine) (o : Options) : Bool :=
  o.workers.toNat ≤ machine.spareWorkers + 1

/-- Goes on with a service that has been started. -/
def carryOut (machine : Machine) (o : Options) (input : Bytes) (s : Service) (now : Int64) :
    Ending :=
  if !canWork machine o then .aborts
  else if servesOn machine o then .serves
  else
    let (s, output) := serve machine o input s now
    .exits ⟨0, output, s.journal.text, s.files⟩

/-- Runs the program with the given words on its command line, at the time `now`. -/
def run (machine : Machine) (words : List Bytes) (input : Bytes) (files : Files) (now : Int64) :
    Ending :=
  match prepare machine.cores words files now with
  | .error outcome => .exits outcome
  | .ok (o, s) => carryOut machine o input s now

/-- The paths that a run may read or change. -/
def paths (cores : Nat) (words : List Bytes) : List Bytes :=
  match Options.parse cores words with
  | .error _ => []
  | .ok o =>
    let archive : Archive := ⟨o.config.logFile⟩
    let settings := Settings.path o.config
    [archive.path, archive.backupPath, settings, Settings.temporaryPath settings, o.feedFile,
      o.noteFile].filter fun path => !path.isEmpty

end Program

end ResolverLog
