import ResolverLog.Api

/-!
# The control interface over HTTP

One connection carries one request, which arrives in reads of arbitrary sizes,
and one answer. The head of a request ends at the first empty line; it is
refused when it has not ended within 64 KiB. A body has the length that the
header announces, and what follows it is not looked at.

When an authorization is expected, a request that does not bring exactly that
value is answered before anything is done.

## Implementation notes

Two passes go over the head. The first looks for the length in every line of
it. The second takes the three words of the request line, wherever they stand,
and then the header lines up to the first empty one.
-/

namespace ResolverLog

namespace Http

open Bytes

/-- The end of a line. -/
def crlf : Bytes := [0x0D, 0x0A]

/-- The most bytes that may have arrived without an end of the head. -/
def maxHead : Nat := 65536

/-- The longest body. -/
def maxBody : Nat := 1048576

/-- The bytes that one read asks for. -/
def readSize : Nat := 4096

/-- The words for a status. -/
def statusText (status : Nat) : Bytes :=
  match status with
  | 200 => ascii "OK"
  | 400 => ascii "Bad Request"
  | 401 => ascii "Unauthorized"
  | 404 => ascii "Not Found"
  | 405 => ascii "Method Not Allowed"
  | 413 => ascii "Payload Too Large"
  | 500 => ascii "Internal Server Error"
  | _ => ascii "Unknown"

/-- A header line of an answer. -/
def headerLine (name value : Bytes) : Bytes :=
  name ++ ascii ": " ++ value ++ crlf

/-- The first line of an answer. -/
def statusLine (status : Nat) : Bytes :=
  ascii "HTTP/1.1 " ++ Decimal.ofNat status ++ ascii " " ++ statusText status ++ crlf

/-- The header of an answer, with the empty line at its end. -/
def answerHead (status : Nat) (contentType : Bytes) (length : Nat) : Bytes :=
  statusLine status
    ++ headerLine (ascii "Content-Length") (Decimal.ofNat length)
    ++ headerLine (ascii "Content-Type") contentType
    ++ headerLine (ascii "Connection") (ascii "close") ++ crlf

/-- A whole answer. -/
def answer (response : Response) : Bytes :=
  answerHead response.status response.contentType response.body.length ++ response.body

/-- The answer to a request that is refused before it is read completely. -/
def refusal (status : Nat) : Bytes :=
  answer (.line status (statusText status))

/-- The body of the answer that asks for an authorization. -/
def unauthorizedBody : Bytes := ascii "401 Unauthorized"

/-- The answer that asks for an authorization. -/
def unauthorized : Bytes :=
  statusLine 401
    ++ headerLine (ascii "Content-Length") (Decimal.ofNat unauthorizedBody.length)
    ++ headerLine (ascii "WWW-Authenticate") (ascii "Basic realm=\"querypulse\"")
    ++ headerLine (ascii "Connection") (ascii "close")
    ++ headerLine (ascii "Content-Type") (ascii "text/plain") ++ crlf ++ unauthorizedBody

/-- Reads until the head ends, behind the bytes in `raw`: the head with the end of its last
line, the bytes behind it, and the reads not yet made. An empty read is the end of the
input. -/
def receiveHead (raw : Bytes) : List Bytes → Except Nat (Bytes × Bytes × List Bytes)
  | [] => .error 400
  | read :: reads =>
    if read.isEmpty then .error 400
    else
      let raw := raw ++ read
      match cutAtMark? (crlf ++ crlf) raw with
      | some (before, after) => .ok (before ++ crlf, after, reads)
      | none => if maxHead < raw.length then .error 413 else receiveHead raw reads

/-- A header line names `name`, in whatever case. -/
def isNamed (name text : Bytes) : Bool :=
  (beforeNul text).map lower == name.map lower

/-- The value of a header, without the blanks in front and the end of the line. -/
def headerValue (text : Bytes) : Bytes :=
  dropFinal 0x0D (trimLeft text)

/-- The values of the lines that name `name`, in their order. -/
def headerValues (name : Bytes) (lines : List Bytes) : List Bytes :=
  lines.filterMap fun line =>
    match cutAt? 0x3A line with
    | some (key, value) => if isNamed name key then some (headerValue value) else none
    | none => none

/-- The length that a head announces: none without a header, the last of several, and an error
when one of them is no number of at most nine digits. -/
def contentLength (head : Bytes) : Except Nat Nat :=
  (headerValues (ascii "Content-Length") (lines head)).foldlM (fun _ value =>
    match Decimal.upTo? 9 value with
    | some n => .ok n
    | none => .error 400) 0

/-- Reads until `missing` more bytes are there; `pieces` holds those read so far in reverse. -/
def receiveBody (missing : Nat) (pieces : List Bytes) : List Bytes → Except Nat Bytes
  | [] => if missing = 0 then .ok pieces.reverse.flatten else .error 400
  | read :: reads =>
    if missing = 0 then .ok pieces.reverse.flatten
    else if read.isEmpty then .error 400
    else receiveBody (missing - read.length) (read.take missing :: pieces) reads

/-- The head and the body of the request that arrives in `reads`, or the status to refuse it
with. -/
def receive (reads : List Bytes) : Except Nat (Bytes × Bytes) := do
  let (head, after, reads) ← receiveHead [] reads
  let length ← contentLength head
  if maxBody < length then throw 413
  let body ← receiveBody (length - after.length) [after.take length] reads
  return (head, body)

/-- What the handler sees of a head. -/
structure Head where
  method : Bytes
  target : Bytes
  /-- The last authorization given, empty when there is none. -/
  authorization : Bytes
  deriving DecidableEq, Repr

/-- The header lines of a text up to the first empty one. -/
def headerLines (text : Bytes) : List Bytes :=
  (lines text).takeWhile fun line => line != [0x0D] && !line.isEmpty

/-- The last authorization in the lines behind a request line. -/
def lastAuthorization (text : Bytes) : Bytes :=
  match cutAt? 0x0A text with
  | some (_, rest) => (headerValues (ascii "Authorization") (headerLines rest)).getLast?.getD []
  | none => []

/-- Reads a head. Where one of the three words of the request line is missing there are no
headers either. -/
def Head.parse (head : Bytes) : Head :=
  match takeWord? head with
  | none => ⟨[], [], []⟩
  | some (method, rest) =>
    match takeWord? rest with
    | none => ⟨method, [], []⟩
    | some (target, rest) =>
      match takeWord? rest with
      | none => ⟨method, target, []⟩
      | some (_, rest) => ⟨method, target, lastAuthorization rest⟩

/-- The path and the query of a request target. -/
def splitTarget (target : Bytes) : Bytes × Bytes :=
  (cutAt? 0x3F target).getD (target, [])

/-- The request brings the expected authorization, or none is expected. -/
def isAuthorized (expected : Bytes) (head : Head) : Bool :=
  expected.isEmpty || head.authorization == expected

/-- The note on a request that was served. -/
def servedText (method path : Bytes) (status : Nat) : Bytes :=
  ascii "HttpServer: " ++ method ++ ascii " " ++ path ++ ascii " -> " ++ Decimal.ofNat status

/-- Serves the request that arrives in `reads` and gives the bytes of the answer. -/
def serve (s : Service) (expected : Bytes) (reads : List Bytes) : Service × Bytes :=
  match receive reads with
  | .error status => (s, refusal status)
  | .ok (text, body) =>
    let head := Head.parse text
    if isAuthorized expected head then
      let (path, query) := splitTarget head.target
      let (s, response) := Api.handle s head.method path query body
      (s.note .debug (servedText head.method path response.status), answer response)
    else (s, unauthorized)

/-- The note on a handler that broke off. -/
def brokenText (method path explanation : Bytes) : Bytes :=
  ascii "HttpServer: " ++ method ++ ascii " " ++ path ++ ascii ": " ++ explanation

/-- Answers a request as the handler does, unless an exception breaks it off: `fault` is the
service as the exception leaves it and its explanation. -/
def handleUnless (fault : Option (Service × Bytes)) (s : Service)
    (method path query body : Bytes) : Service × Response :=
  match fault with
  | none => Api.handle s method path query body
  | some (left, explanation) =>
    (left.note .error (brokenText method path explanation),
      .line 500 (ascii "internal error: " ++ explanation))

/-- Serves the request that arrives in `reads`, where an exception may break off the handler.
None does so in `serve`. -/
def serveUnless (fault : Option (Service × Bytes)) (s : Service) (expected : Bytes)
    (reads : List Bytes) : Service × Bytes :=
  match receive reads with
  | .error status => (s, refusal status)
  | .ok (text, body) =>
    let head := Head.parse text
    if isAuthorized expected head then
      let (path, query) := splitTarget head.target
      let (s, response) := handleUnless fault s head.method path query body
      (s.note .debug (servedText head.method path response.status), answer response)
    else (s, unauthorized)

/-- How a client reaches the server. -/
inductive Connection
  /-- The request arrives in these reads, and then the input ends. -/
  | established (reads : List Bytes)
  /-- No connection comes about. -/
  | refused
  deriving DecidableEq, Repr

/-- What a client does to the service and gets back. Where no connection comes about nothing is
served and nothing comes back. -/
def exchange (s : Service) (expected : Bytes) : Connection → Service × Bytes
  | .established reads => serve s expected reads
  | .refused => (s, [])

/-- The authorization that a user name and a password give; none when both are empty. -/
def basicAuthorization (user password : Bytes) : Bytes :=
  if user.isEmpty && password.isEmpty then []
  else ascii "Basic " ++ Base64.encode (user ++ 0x3A :: password)

end Http

end ResolverLog
