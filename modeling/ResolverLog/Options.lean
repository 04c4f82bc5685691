import ResolverLog.Note
import ResolverLog.Settings

/-!
# Command line options

The options are read from left to right, later ones win, and the first fault
ends the reading. An option that takes a value and has none left counts as
unknown. Numbers are read from the front of their argument, so blanks before
and anything after them do not matter; the two numbers of hours then keep their
low 32 bits.
-/

namespace ResolverLog

/-- What a command line asks for. -/
structure Options where
  config : Config
  disable : Bool
  /-- The file to read events from; empty for the standard input. -/
  feedFile : Bytes
  workers : UInt64
  queueCapacity : UInt64
  httpEnable : Bool
  httpPort : Int
  httpUser : Bytes
  httpPassword : Bytes
  /-- Notes below this level are not shown. -/
  level : Level
  /-- The file that notes are also written to; empty for none. -/
  noteFile : Bytes
  deriving DecidableEq, Repr

/-- Why a command line is not carried out. -/
inductive OptionsError
  | help
  | unknown (option : Bytes)
  | badLevel (value : Bytes)
  | badUnsigned
  | badSigned
  | badPort (number : Int)
  deriving DecidableEq, Repr

namespace Options

/-- What holds without options, on a machine with `cores` processors. -/
def default (cores : Nat) : Options :=
  { config :=
      { enabled := true
        intervalHours := 24
        statsHours := 24
        cacheSize := 5000
        bufferSize := 5000
        topSize := 500
        flushIntervalMs := 5000
        logFile := ascii "querylog.log" }
    disable := false
    feedFile := []
    workers := if cores = 0 then 4 else cores.toUInt64
    queueCapacity := 65536
    httpEnable := false
    httpPort := 8080
    httpUser := []
    httpPassword := []
    level := .info
    noteFile := ascii "querypulse.err.log" }

/-- The description of all options. -/
def usage : Bytes :=
  ascii "usage: querypulse [options]\n"
    ++ ascii "  --log-file PATH        query log file (default querylog.log)\n"
    ++ ascii "  --interval-hours N     rotation / retention: 24, 168, 720 or 2160\n"
    ++ ascii "  --stats-hours N        hours kept by the top stats (default 24)\n"
    ++ ascii "  --cache-size N         entries kept for the log view (default 5000)\n"
    ++ ascii "  --buffer-size N        pending entries before a flush (default 5000)\n"
    ++ ascii "  --top-size N           keys per hourly counter (default 500)\n"
    ++ ascii "  --disable              start with query logging off\n"
    ++ ascii "  --file PATH            read events from PATH instead of stdin, then run the CLI\n"
    ++ ascii "  --workers N            parser threads\n"
    ++ ascii "  --qcap N               event queue capacity\n"
    ++ ascii "  --http-enable          serve the control API\n"
    ++ ascii "  --http-port N          (default 8080)\n"
    ++ ascii "  --http-user U --http-pass P   Basic Auth for the control API\n"
    ++ ascii "  --log-level debug|info|error\n"
    ++ ascii "  --err-log PATH         diagnostic log file, empty to disable\n"

end Options

/-- The explanation of a fault, as it is shown. -/
def OptionsError.text : OptionsError → Bytes
  | .help => Options.usage
  | .unknown option => ascii "unknown option: " ++ option ++ ascii "\n" ++ Options.usage
  | .badLevel value => ascii "bad --log-level: " ++ value ++ ascii "\n"
  | .badUnsigned => ascii "bad numeric option: stoul\n"
  | .badSigned => ascii "bad numeric option: stoi\n"
  | .badPort number => ascii "bad --http-port: " ++ Decimal.ofInt number ++ ascii "\n"

/-- The exit status after a fault. -/
def OptionsError.status : OptionsError → Nat
  | .help => 0
  | _ => 2

namespace Options

/-- The number that an argument begins with, as an unsigned 64-bit number. -/
def unsigned (value : Bytes) : Except OptionsError UInt64 :=
  match (Decimal.leading? value).bind (Decimal.Leading.word? 64) with
  | some n => .ok n.toUInt64
  | none => .error .badUnsigned

/-- The number that an argument begins with, as a signed 32-bit number. -/
def signed (value : Bytes) : Except OptionsError Int :=
  match (Decimal.leading? value).bind Decimal.Leading.int32? with
  | some n => .ok n
  | none => .error .badSigned

/-- Applies an option with its value; none for a word that is no such option. -/
def assign? (o : Options) (option value : Bytes) : Option (Except OptionsError Options) :=
  if option == ascii "--log-file" then
    some (.ok { o with config := { o.config with logFile := value } })
  else if option == ascii "--interval-hours" then
    some ((unsigned value).map fun n =>
      { o with config := { o.config with intervalHours := n.toUInt32 } })
  else if option == ascii "--stats-hours" then
    some ((unsigned value).map fun n =>
      { o with config := { o.config with statsHours := n.toUInt32 } })
  else if option == ascii "--cache-size" then
    some ((unsigned value).map fun n => { o with config := { o.config with cacheSize := n } })
  else if option == ascii "--buffer-size" then
    some ((unsigned value).map fun n => { o with config := { o.config with bufferSize := n } })
  else if option == ascii "--top-size" then
    some ((unsigned value).map fun n => { o with config := { o.config with topSize := n } })
  else if option == ascii "--file" then some (.ok { o with feedFile := value })
  else if option == ascii "--workers" then
    some ((unsigned value).map fun n => { o with workers := n })
  else if option == ascii "--qcap" then
    some ((unsigned value).map fun n => { o with queueCapacity := n })
  else if option == ascii "--http-port" then
    some ((signed value).map fun n => { o with httpPort := n })
  else if option == ascii "--http-user" then some (.ok { o with httpUser := value })
  else if option == ascii "--http-pass" then some (.ok { o with httpPassword := value })
  else if option == ascii "--log-level" then
    match Level.named? value with
    | some level => some (.ok { o with level })
    | none => some (.error (.badLevel value))
  else if option == ascii "--err-log" then some (.ok { o with noteFile := value })
  else none

/-- Applies the words of a command line. -/
def read (o : Options) : List Bytes → Except OptionsError Options
  | [] => .ok o
  | word :: rest =>
    if word == ascii "--disable" then read { o with disable := true } rest
    else if word == ascii "--http-enable" then read { o with httpEnable := true } rest
    else if word == ascii "--help" || word == ascii "-h" then .error .help
    else match rest with
      | [] => .error (.unknown word)
      | value :: rest =>
        match assign? o word value with
        | none => .error (.unknown word)
        | some (.error e) => .error e
        | some (.ok o) => read o rest

/-- The options of a command line. The control interface has to listen on one of the ports 1 to
65535. -/
def parse (cores : Nat) (words : List Bytes) : Except OptionsError Options :=
  match read (default cores) words with
  | .error e => .error e
  | .ok o => if 0 < o.httpPort && o.httpPort ≤ 65535 then .ok o else .error (.badPort o.httpPort)

end Options

end ResolverLog
