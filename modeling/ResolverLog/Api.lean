import ResolverLog.ConfigRequest
import ResolverLog.QueryString
import ResolverLog.Recorder
import ResolverLog.View

/-!
# The control interface

Five routes show and change the recorder. They know nothing of the transport:
a request is a method, a path, a query and a body, and the answer is a status, a
body and a content type.

    GET  /control/querylog          the log view
    GET  /control/querylog_info     the configuration
    POST /control/querylog_config   changes the configuration
    POST /control/querylog_clear    clears the log
    GET  /control/stats_top         the statistics of the last `hours`
-/

namespace ResolverLog

/-- The answer to a request. -/
structure Response where
  status : Nat
  body : Bytes
  contentType : Bytes
  deriving DecidableEq, Repr

namespace Response

/-- A plain text. -/
def plain (status : Nat) (body : Bytes) : Response :=
  ⟨status, body, ascii "text/plain; charset=utf-8"⟩

/-- A JSON text. -/
def json (body : Bytes) : Response :=
  ⟨200, body, ascii "application/json"⟩

/-- A line of plain text. -/
def line (status : Nat) (text : Bytes) : Response :=
  plain status (text ++ [0x0A])

end Response

namespace Api

open Bytes

/-- The log view. -/
def showLog (s : Service) : Response :=
  .json (View.log s.recorder.recent.entries)

/-- The configuration. -/
def showConfig (s : Service) : Response :=
  .json (Json.object
    [Json.member (ascii "enabled") (Settings.boolText s.recorder.config.enabled),
      Json.member (ascii "interval") (Decimal.ofNat s.recorder.config.intervalHours.toNat)])

/-- Changes the configuration as the body asks. -/
def changeConfig (s : Service) (body : Bytes) : Service × Response :=
  match ConfigRequest.parse body with
  | .error e => (s, .line 400 e.message)
  | .ok request =>
    if !Config.isSupportedInterval request.interval then
      (s, .line 400 (ascii "Unsupported interval"))
    else match s.configure request.enabled request.interval with
      | (s, .ok ()) => (s, .line 200 (ascii "OK"))
      | (s, .error e) =>
        if e.isValidation then (s, .line 400 e.message)
        else
          (s.note .error (ascii "control: configure failed: " ++ e.message), .line 500 e.message)

/-- Clears the log. -/
def clearLog (s : Service) : Service × Response :=
  match s.clear with
  | (s, .ok ()) => (s, .line 200 (ascii "OK"))
  | (s, .error e) =>
    (s.note .error (ascii "control: clear failed: " ++ e.message), .line 500 e.message)

/-- The number of hours that a query asks for: a day unless it says otherwise, and none for a
value that is no positive number of at most six digits. -/
def hours? (query : Bytes) : Option Nat :=
  match QueryString.value (ascii "hours") query with
  | [] => some 24
  | text => (Decimal.upTo? 6 text).filter (0 < ·)

/-- The statistics of the hours that the query asks for. -/
def showTop (s : Service) (query : Bytes) : Response :=
  match hours? query with
  | some hours => .json (View.top (s.recorder.stats.top hours) View.rankingLimit)
  | none => .line 400 (ascii "hours must be a positive integer")

/-- What a path leads to. -/
inductive Route
  | log
  | info
  | config
  | clear
  | top
  deriving DecidableEq, Repr

/-- The route of a path. -/
def route? (path : Bytes) : Option Route :=
  if path == ascii "/control/querylog" then some .log
  else if path == ascii "/control/querylog_info" then some .info
  else if path == ascii "/control/querylog_config" then some .config
  else if path == ascii "/control/querylog_clear" then some .clear
  else if path == ascii "/control/stats_top" then some .top
  else none

/-- Answers a request. -/
def handle (s : Service) (method path query body : Bytes) : Service × Response :=
  let isGet := method == ascii "GET"
  let isPost := method == ascii "POST"
  match route? path with
  | none => (s, .line 404 (ascii "not found"))
  | some .log => if isGet then (s, showLog s) else (s, .line 405 (ascii "method not allowed"))
  | some .info =>
    if isGet then (s, showConfig s) else (s, .line 405 (ascii "method not allowed"))
  | some .config =>
    if isPost then changeConfig s body else (s, .line 405 (ascii "method not allowed"))
  | some .clear =>
    if isPost then clearLog s else (s, .line 405 (ascii "method not allowed"))
  | some .top =>
    if isGet then (s, showTop s query) else (s, .line 405 (ascii "method not allowed"))

end Api

end ResolverLog
