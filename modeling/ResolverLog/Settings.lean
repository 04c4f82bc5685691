import ResolverLog.Files
import ResolverLog.HourlyStats

/-!
# Settings

The configuration of a log, and the small file next to the log in which the
part that an operator can change is kept: one `key=value` line each for
`enabled`, `interval_hours` and `stats_hours`.

Loading takes effect as a whole or not at all. Later lines win, comments and
unknown keys are skipped. Saving writes a temporary file and renames it.
-/

namespace ResolverLog

/-- The configuration of a log. -/
structure Config where
  enabled : Bool
  /-- The period of rotation and the window of the log view, in hours. -/
  intervalHours : UInt32
  /-- The hours that the statistics retain. -/
  statsHours : UInt32
  /-- The entries that the log view keeps. -/
  cacheSize : UInt64
  /-- The pending entries that wake the writer. -/
  bufferSize : UInt64
  /-- The keys that an hourly tally holds. -/
  topSize : UInt64
  /-- The milliseconds between two regular writes. -/
  flushIntervalMs : Int64
  /-- The path of the active log file. -/
  logFile : Bytes
  deriving DecidableEq, Repr

namespace Config

/-- A day, a week, a month of 30 days and a quarter of 90 days are supported intervals. -/
def isSupportedInterval (hours : UInt32) : Bool :=
  hours == 24 || hours == 168 || hours == 720 || hours == 2160

end Config

/-- Why settings cannot be loaded. -/
inductive SettingsError
  | badLine (line : Bytes)
  | badEnabled (value : Bytes)
  | badNumber (key value : Bytes)
  | unsupportedInterval (value : Bytes)
  | zeroStatsHours
  | statsHoursTooMany
  deriving DecidableEq, Repr

open Bytes

/-- What a settings error has to say, with all of the text that it quotes. -/
def SettingsError.fullMessage : SettingsError → Bytes
  | .badLine line => ascii "invalid: settings: bad line '" ++ line ++ ascii "'"
  | .badEnabled value => ascii "invalid: settings: bad value for enabled: '" ++ value ++ ascii "'"
  | .badNumber key value =>
    ascii "invalid: settings: bad value for " ++ key ++ ascii ": '" ++ value ++ ascii "'"
  | .unsupportedInterval value => ascii "invalid: settings: unsupported interval " ++ value
  | .zeroStatsHours => ascii "invalid: settings: stats_hours must be positive"
  | .statsHoursTooMany =>
    ascii "invalid: settings: stats_hours must not exceed "
      ++ Decimal.ofNat HourlyStats.maxHours

/-- The explanation of a settings error, which ends where the quoted text has a NUL. -/
def SettingsError.message (e : SettingsError) : Bytes :=
  beforeNul e.fullMessage

/-- Why settings cannot be saved. -/
inductive SaveError
  | createFailed (path : Bytes)
  | writeFailed (path : Bytes)
  | replaceFailed (path : Bytes) (cause : FileError)
  deriving DecidableEq, Repr

/-- What a saving error has to say, with the whole path. -/
def SaveError.fullMessage : SaveError → Bytes
  | .createFailed path => ascii "persist: failed to create " ++ quoted path
  | .writeFailed path => ascii "persist: couldn't write " ++ quoted path
  | .replaceFailed path cause =>
    ascii "persist: failed to replace " ++ quoted path ++ ascii ": " ++ cause.message

/-- The explanation of a saving error, which ends where the path has a NUL. -/
def SaveError.message (e : SaveError) : Bytes :=
  beforeNul e.fullMessage

namespace Settings

/-- The path of the settings file of a log. -/
def path (config : Config) : Bytes :=
  config.logFile ++ ascii ".conf"

/-- The path under which settings are written before they replace the old ones. -/
def temporaryPath (path : Bytes) : Bytes :=
  path ++ ascii ".tmp"

/-- A value as a number of one to nine digits. -/
def number (key value : Bytes) : Except SettingsError UInt32 :=
  match Decimal.upTo? 9 value with
  | some n => .ok n.toUInt32
  | none => .error (.badNumber key value)

/-- Takes the setting of one key over into the configuration. -/
def assign (config : Config) (key value : Bytes) : Except SettingsError Config :=
  if key == ascii "enabled" then
    if value == ascii "true" then .ok { config with enabled := true }
    else if value == ascii "false" then .ok { config with enabled := false }
    else .error (.badEnabled value)
  else if key == ascii "interval_hours" then do
    let hours ← number key value
    if Config.isSupportedInterval hours then return { config with intervalHours := hours }
    else throw (.unsupportedInterval value)
  else if key == ascii "stats_hours" then do
    let hours ← number key value
    if hours == 0 then throw .zeroStatsHours
    else if HourlyStats.maxHours < hours.toNat then throw .statsHoursTooMany
    else return { config with statsHours := hours }
  else .ok config

/-- Applies one line without its newline. -/
def applyLine (config : Config) (line : Bytes) : Except SettingsError Config :=
  match dropFinal 0x0D line with
  | [] => .ok config
  | 0x23 :: _ => .ok config
  | line =>
    match cutAt? 0x3D line with
    | some (key, value) => assign config key value
    | none => .error (.badLine line)

/-- The configuration after all lines of a settings file. -/
def apply (config : Config) (text : Bytes) : Except SettingsError Config :=
  (lines text).foldlM applyLine config

/-- Applies the settings file at a path; none when there is no such file. -/
def load? (files : Files) (path : Bytes) (config : Config) :
    Except SettingsError (Option Config) :=
  match files.read? path with
  | none => .ok none
  | some text => (apply config text).map some

/-- The text of a boolean. -/
def boolText (b : Bool) : Bytes :=
  if b then ascii "true" else ascii "false"

/-- The settings file of a configuration. -/
def text (config : Config) : Bytes :=
  ascii "enabled=" ++ boolText config.enabled
    ++ ascii "\ninterval_hours=" ++ Decimal.ofNat config.intervalHours.toNat
    ++ ascii "\nstats_hours=" ++ Decimal.ofNat config.statsHours.toNat ++ ascii "\n"

/-- Why the temporary file cannot be written. -/
def writeFault (files : Files) (path : Bytes) : SaveError :=
  if files.opens (temporaryPath path) then .writeFailed (temporaryPath path)
  else .createFailed (temporaryPath path)

/-- Replaces the settings file at a path. A failure leaves it as it was; where the renaming
fails, the temporary file is gone afterwards. -/
def save (files : Files) (path : Bytes) (config : Config) : Files × Except SaveError Unit :=
  match files.write? (temporaryPath path) (text config) with
  | none => (files, .error (writeFault files path))
  | some written =>
    match written.rename (temporaryPath path) path with
    | .ok renamed => (renamed, .ok ())
    | .error cause =>
      let cleaned := match written.remove (temporaryPath path) with
        | .ok files => files
        | .error _ => written
      (cleaned, .error (.replaceFailed path cause))

end Settings

end ResolverLog
