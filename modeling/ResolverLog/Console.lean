import ResolverLog.Recorder
import ResolverLog.Timestamp

/-!
# The operator's console

Commands come a line each and are answered with text and a new prompt. Words
are separated by blanks, and words behind a complete command are not looked at.
A number is read from the front of what is left of the line; once a word or a
number has been missing, everything after it is missing too.

    STATS                                    running totals
    INFO                                     the configuration
    TOP domains|blocked|clients K [hours]    the K highest counts
    LOG N                                    the last N entries
    CONFIG on|off HOURS                      changes the configuration
    STATS_HOURS N                            changes the retention
    FLUSH  ROTATE  CLEAR  QUIT
-/

namespace ResolverLog

namespace Console

open Bytes

/-- What is left of a line, or none once something has been missing. -/
abbrev Rest := Option Bytes

/-- Takes the next word. -/
def takeWord : Rest → Option Bytes × Rest
  | none => (none, none)
  | some text =>
    match takeWord? text with
    | some (word, rest) => (some word, some rest)
    | none => (none, none)

/-- Takes a number that fits into `bits` bits. -/
def takeNumber (bits : Nat) : Rest → Option Nat × Rest
  | none => (none, none)
  | some text =>
    match Decimal.leading? text with
    | none => (none, none)
    | some number =>
      match number.word? bits with
      | some n => (some n, some number.rest)
      | none => (none, none)

/-- Which table of counts is asked for. -/
inductive Table
  | domains
  | blocked
  | clients
  deriving DecidableEq, Repr

/-- A command of the operator. -/
inductive Command
  | stats
  | info
  | top (table : Option Table) (k hours : Nat)
  | log (n : Nat)
  | config (request : Option (Bool × UInt32))
  | statsHours (hours : Option UInt32)
  | flush
  | rotate
  | clear
  | quit
  | unknown
  deriving DecidableEq, Repr

/-- The table that a word names. -/
def Table.named? (word : Option Bytes) : Option Table :=
  if word == some (ascii "domains") then some domains
  else if word == some (ascii "blocked") then some blocked
  else if word == some (ascii "clients") then some clients
  else none

/-- The arguments of `TOP`: ten keys and a day unless other numbers are given; no hours are a
day, too. -/
def readTop (rest : Rest) : Command :=
  let (word, rest) := takeWord rest
  let (k, rest) := takeNumber 64 rest
  let (hours, _) := takeNumber 64 rest
  let hours := hours.getD 24
  .top (Table.named? word) (k.getD 10) (if hours = 0 then 24 else hours)

/-- The arguments of `CONFIG`. -/
def readConfig (rest : Rest) : Command :=
  let (word, rest) := takeWord rest
  let (hours, _) := takeNumber 32 rest
  match word, hours with
  | some word, some hours =>
    if word == ascii "on" then .config (some (true, hours.toUInt32))
    else if word == ascii "off" then .config (some (false, hours.toUInt32))
    else .config none
  | _, _ => .config none

/-- The command that a line gives. -/
def Command.parse (line : Bytes) : Command :=
  let (word, rest) := takeWord (some line)
  let word := word.getD []
  if word == ascii "STATS" then .stats
  else if word == ascii "INFO" then .info
  else if word == ascii "TOP" then readTop rest
  else if word == ascii "LOG" then .log ((takeNumber 64 rest).1.getD 10)
  else if word == ascii "CONFIG" then readConfig rest
  else if word == ascii "STATS_HOURS" then .statsHours ((takeNumber 32 rest).1.map Nat.toUInt32)
  else if word == ascii "FLUSH" then .flush
  else if word == ascii "ROTATE" then .rotate
  else if word == ascii "CLEAR" then .clear
  else if word == ascii "QUIT" || word == ascii "EXIT" then .quit
  else .unknown

/-- The counts of a table and its title. -/
def Table.pick (t : Top) : Table → Counts × Bytes
  | domains => (t.domains, ascii "domains")
  | blocked => (t.blocked, ascii "blocked domains")
  | clients => (t.clients, ascii "clients")

/-- The running totals. -/
def statsLine (r : Recorder) : Bytes :=
  let t := r.stats.totals
  ascii "queries: " ++ Decimal.ofNat t.queries.toNat
    ++ ascii "  blocked: " ++ Decimal.ofNat t.blocked.toNat
    ++ ascii "  ignored: " ++ Decimal.ofNat t.ignored.toNat
    ++ ascii "  avg_elapsed_ms: " ++ t.averageMs.fixed 3
    ++ ascii "  pending: " ++ Decimal.ofNat r.pending.length ++ ascii "\n"

/-- The configuration. -/
def infoLine (c : Config) : Bytes :=
  ascii "enabled: " ++ Settings.boolText c.enabled
    ++ ascii "  interval_hours: " ++ Decimal.ofNat c.intervalHours.toNat
    ++ ascii "  stats_hours: " ++ Decimal.ofNat c.statsHours.toNat
    ++ ascii "  log_file: " ++ c.logFile ++ ascii "\n"

/-- The highest counts of a table. -/
def topLines (t : Top) (table : Table) (k : Nat) : Bytes :=
  let (counts, title) := table.pick t
  ascii "TOP " ++ Decimal.ofNat k ++ ascii " " ++ title ++ ascii ":\n"
    ++ (counts.top k).flatMap fun pair =>
      pair.1 ++ ascii " " ++ Decimal.ofNat pair.2.toNat ++ ascii "\n"

/-- One entry of the log. -/
def entryLine (e : Entry) : Bytes :=
  let (name, kind) := match Question.ofMessage? e.question with
    | some q => (q.name, q.kind.name)
    | none => (ascii "?", ascii "?")
  Timestamp.text e.time ++ ascii " " ++ e.client ++ ascii " " ++ name ++ ascii " " ++ kind
    ++ ascii " " ++ e.verdict.reason.name
    ++ (if e.verdict.rule.isEmpty then [] else ascii " " ++ e.verdict.rule) ++ ascii "\n"

/-- The answer to an operation. -/
def report (outcome : Service × Except LogError Unit) : Service × Bytes :=
  match outcome with
  | (s, .ok ()) => (s, ascii "OK\n")
  | (s, .error e) => (s, ascii "ERROR: " ++ e.message ++ ascii "\n")

/-- Carries a command out and gives its answer. -/
def execute (s : Service) : Command → Service × Bytes
  | .stats => (s, statsLine s.recorder)
  | .info => (s, infoLine s.recorder.config)
  | .top (some table) k hours => (s, topLines (s.recorder.stats.top hours) table k)
  | .top none _ _ => (s, ascii "Unknown TOP target. Supported: domains, blocked, clients\n")
  | .log n => (s, (Recent.lastN n s.recorder.recent.entries).flatMap entryLine)
  | .config (some (enabled, hours)) => report (s.configure enabled hours)
  | .config none => (s, ascii "Usage: CONFIG on|off HOURS\n")
  | .statsHours (some hours) => report (s.setStatsHours hours)
  | .statsHours none => (s, ascii "Usage: STATS_HOURS N\n")
  | .flush => report (s.flush true)
  | .rotate => report s.rotateLog
  | .clear => report s.clear
  | .quit => (s, [])
  | .unknown => (s, ascii "Unknown command\n")

/-- The prompt for the next command. -/
def prompt : Bytes := ascii "> "

/-- What is shown at the start. -/
def banner : Bytes :=
  ascii "QueryPulse CLI ready. Commands: STATS | INFO | TOP domains|blocked|clients K [hours] | "
    ++ ascii "LOG N | CONFIG on|off HOURS | STATS_HOURS N | FLUSH | ROTATE | CLEAR | QUIT\n"

/-- Carries out the commands of the lines, up to one that quits. What has been written so far
is kept in reverse, piece by piece. -/
def executeAll (s : Service) (written : List Bytes) : List Bytes → Service × List Bytes
  | [] => (s, written)
  | line :: rest =>
    if line.isEmpty then executeAll s (prompt :: written) rest
    else match Command.parse line with
      | .quit => (s, written)
      | command =>
        let (s, answer) := execute s command
        executeAll s (prompt :: answer :: written) rest

/-- A whole session: everything written while the commands of the input are carried out. A
session that starts terminated reads nothing. -/
def run (s : Service) (terminated : Bool) (input : Bytes) : Service × Bytes :=
  let (s, written) := executeAll s [prompt, banner] (if terminated then [] else lines input)
  (s, written.reverse.flatten)

end Console

end ResolverLog
