import ResolverLog.Proofs.Api
import ResolverLog.Proofs.HttpRequests

/-!
# Answers as clients read them

A client reads the status in the first line of an answer, looks for the one
length and the one content type in its header and takes that many bytes behind
the first empty line. Whatever was asked, and whatever the service holds, it
gets exactly what was to be answered, with nothing behind it.

The header depends on the status, the content type and the length of the body
only.

## Implementation notes

The body is not looked at: an empty line in it comes after the one that ends
the header, since the lines of the header are fixed texts and numbers, none of
them empty.
-/

namespace ResolverLog

namespace Api

/-- What the handler can answer: one of five statuses and one of two content types. -/
structure IsAnswer (response : Response) : Prop where
  status : response.status ∈ [200, 400, 404, 405, 500]
  contentType : response.contentType ∈ [ascii "text/plain; charset=utf-8", ascii "application/json"]

theorem isAnswer_line {status : Nat} (h : status ∈ [200, 400, 404, 405, 500]) (text : Bytes) :
    IsAnswer (.line status text) :=
  ⟨h, List.mem_cons_self⟩

theorem isAnswer_json (body : Bytes) : IsAnswer (.json body) :=
  ⟨List.mem_cons_self, List.mem_cons_of_mem _ List.mem_cons_self⟩

theorem isAnswer_changeConfig (s : Service) (body : Bytes) : IsAnswer (changeConfig s body).2 := by
  rw [changeConfig]
  split
  · exact isAnswer_line (by decide) _
  · split
    · exact isAnswer_line (by decide) _
    · split
      · exact isAnswer_line (by decide) _
      · split
        · exact isAnswer_line (by decide) _
        · exact isAnswer_line (by decide) _

theorem isAnswer_clearLog (s : Service) : IsAnswer (clearLog s).2 := by
  rw [clearLog]
  split
  · exact isAnswer_line (by decide) _
  · exact isAnswer_line (by decide) _

theorem isAnswer_showTop (s : Service) (query : Bytes) : IsAnswer (showTop s query) := by
  rw [showTop]
  split
  · exact isAnswer_json _
  · exact isAnswer_line (by decide) _

theorem isAnswer_handle (s : Service) (method path query body : Bytes) :
    IsAnswer (handle s method path query body).2 := by
  have hrefused : IsAnswer (.line 405 (ascii "method not allowed")) :=
    isAnswer_line (by decide) _
  rw [handle]
  cases route? path with
  | none => exact isAnswer_line (by decide) _
  | some route =>
      cases route with
      | log | info =>
          simp only
          split
          · exact isAnswer_json _
          · exact hrefused
      | config =>
          simp only
          split
          · exact isAnswer_changeConfig s body
          · exact hrefused
      | clear =>
          simp only
          split
          · exact isAnswer_clearLog s
          · exact hrefused
      | top =>
          simp only
          split
          · exact isAnswer_showTop s query
          · exact hrefused

end Api

namespace Http

open Bytes

/-! ## The client -/

/-- The status in a first line: the word behind the version. -/
def statusOf? (line : Bytes) : Option Nat := do
  let (version, rest) ← takeWord? line
  guard (version = ascii "HTTP/1.1")
  let (code, _) ← takeWord? rest
  Decimal.upTo? 3 code

/-- The answer in front of the bytes `sent`, and the bytes behind it. An answer has one length and
one content type, and its body is complete. -/
def readAnswer? (sent : Bytes) : Option (Response × Bytes) := do
  let (head, rest) ← cutAtMark? emptyLine sent
  let (line, fields) ← cutAtMark? crlf (head ++ crlf)
  let status ← statusOf? line
  let [length] := headerValues (ascii "Content-Length") (lines fields) | none
  let [contentType] := headerValues (ascii "Content-Type") (lines fields) | none
  let length ← Decimal.nat? length
  guard (length ≤ rest.length)
  return (⟨status, rest.take length, contentType⟩, rest.drop length)

/-! ## Headers of answers -/

/-- A first line without its end. -/
def firstLine (status : Nat) : Bytes :=
  ascii "HTTP/1.1 " ++ Decimal.ofNat status ++ ascii " " ++ statusText status

/-- A header, with the empty line at its end. -/
def header (status : Nat) (fields : List Field) : Bytes :=
  (firstLine status :: fields.map Field.line).flatMap (· ++ crlf) ++ crlf

/-- The fields of an answer. -/
def answerFields (contentType : Bytes) (length : Nat) : List Field :=
  [.spaced (ascii "Content-Length") (Decimal.ofNat length),
    .spaced (ascii "Content-Type") contentType,
    .spaced (ascii "Connection") (ascii "close")]

/-- The fields of the answer that asks for an authorization. -/
def unauthorizedFields : List Field :=
  [.spaced (ascii "Content-Length") (Decimal.ofNat unauthorizedBody.length),
    .spaced (ascii "WWW-Authenticate") (ascii "Basic realm=\"querypulse\""),
    .spaced (ascii "Connection") (ascii "close"),
    .spaced (ascii "Content-Type") (ascii "text/plain")]

theorem headerLine_eq (name value : Bytes) :
    headerLine name value = (Field.spaced name value).line ++ crlf := by
  have hcolon : ascii ": " = [0x3A, 0x20] := by decide
  simp [headerLine, Field.spaced, Field.line, hcolon]

theorem answer_eq (response : Response) : answer response =
    header response.status (answerFields response.contentType response.body.length)
      ++ response.body := by
  simp [answer, answerHead, header, answerFields, headerLine_eq, statusLine, firstLine]

theorem unauthorized_eq : unauthorized = header 401 unauthorizedFields ++ unauthorizedBody := by
  simp [unauthorized, header, unauthorizedFields, headerLine_eq, statusLine, firstLine]

theorem return_notMem_firstLine (status : Nat) : 0x0D ∉ firstLine status := by
  have htext : 0x0D ∉ statusText status := by
    fun_cases statusText
    all_goals decide
  have hnumber : 0x0D ∉ Decimal.ofNat status := fun hmem =>
    absurd (Decimal.isBlank_of_mem_ofNat hmem) (by decide)
  have hversion : 0x0D ∉ ascii "HTTP/1.1 " := by decide
  have hspace : 0x0D ∉ ascii " " := by decide
  simp [firstLine, htext, hnumber, hversion, hspace]

theorem statusOf?_firstLine {status : Nat} (h : status < 1000) :
    statusOf? (firstLine status) = some status := by
  have hline : firstLine status =
      ascii "HTTP/1.1" ++ 0x20 :: (Decimal.ofNat status ++ 0x20 :: statusText status) := by
    have hversion : ascii "HTTP/1.1 " = ascii "HTTP/1.1" ++ [0x20] := by decide
    have hspace : ascii " " = [0x20] := by decide
    simp [firstLine, hversion, hspace]
  have hversion : takeWord? (firstLine status) = some
      (ascii "HTTP/1.1", 0x20 :: (Decimal.ofNat status ++ 0x20 :: statusText status)) := by
    rw [hline, takeWord?_append_cons (by decide) (by decide +kernel) (by decide)]
  have hcode : takeWord? (0x20 :: (Decimal.ofNat status ++ 0x20 :: statusText status)) = some
      (Decimal.ofNat status, 0x20 :: statusText status) := by
    rw [takeWord?_cons (by decide), takeWord?_append_cons (Decimal.ofNat_ne_nil status)
      (fun _ => Decimal.isBlank_of_mem_ofNat) (by decide)]
  have hnumber : Decimal.upTo? 3 (Decimal.ofNat status) = some status := by
    rw [Decimal.upTo?_ofNat, if_pos (by omega)]
  simp [statusOf?, hversion, hcode, hnumber, guard]

variable {status : Nat} {fields : List Field} {contentType body : Bytes}

/-- A header is cut off where it ends, whatever the body is. -/
theorem exists_cut_header (h : ∀ field ∈ fields, field.IsPlain) (status : Nat) :
    ∃ head, head ++ crlf = firstLine status ++ crlf ++ fields.flatMap (·.line ++ crlf) ∧
      ∀ rest, cutAtMark? emptyLine (header status fields ++ rest) = some (head, rest) := by
  have hlines : ∀ line ∈ firstLine status :: fields.map Field.line, line ≠ [] ∧ 0x0D ∉ line := by
    intro line hline
    rcases List.mem_cons.mp hline with rfl | hline
    · refine ⟨?_, return_notMem_firstLine status⟩
      simp [firstLine, Decimal.ofNat_ne_nil]
    · obtain ⟨field, hfield, rfl⟩ := List.mem_map.mp hline
      refine ⟨?_, fun hmem => ((h field hfield).ne_of_mem_line hmem).1 rfl⟩
      simp [Field.line]
  obtain ⟨head, hhead, hcut⟩ := Request.cutAtMark?_lines (List.cons_ne_nil _ _) hlines []
  refine ⟨head, ?_, fun rest => ?_⟩
  · rw [hhead, List.flatMap_cons, List.flatMap_map]
  · rw [List.append_nil] at hcut
    exact cutAtMark?_append_of_eq_some hcut rest

/-- An answer whose fields have one length and one content type is read as it was meant. -/
theorem readAnswer?_header_append (h : ∀ field ∈ fields, field.IsPlain) (hstatus : status < 1000)
    (hlength : fields.filterMap (Field.value? (ascii "Content-Length"))
      = [Decimal.ofNat body.length])
    (htype : fields.filterMap (Field.value? (ascii "Content-Type")) = [contentType])
    (more : Bytes) :
    readAnswer? (header status fields ++ (body ++ more))
      = some (⟨status, body, contentType⟩, more) := by
  obtain ⟨head, hhead, hcut⟩ := exists_cut_header h status
  have hfirst : cutAtMark? crlf (head ++ crlf)
      = some (firstLine status, fields.flatMap (·.line ++ crlf)) := by
    have hmark := cutAtMark?_append crlf (fields.flatMap (·.line ++ crlf))
    rw [hhead, List.append_assoc]
    rw [crlf] at hmark ⊢
    rw [cutAtMark?_append_of_notMem (return_notMem_firstLine status), hmark]
    simp
  have hfields : lines (fields.flatMap (·.line ++ crlf))
      = fields.map fun field => field.line ++ [0x0D] := by
    rw [← Request.lines_fields h, ofLines, List.flatMap_map]
    simp [crlf]
  simp [readAnswer?, hcut, hfirst, statusOf?_firstLine hstatus, hfields,
    Field.headerValues_lines h, hlength, htype, Decimal.nat?_ofNat, guard]

/-! ## The two kinds of answers -/

theorem isValue_close : IsValue (ascii "close") :=
  ⟨by decide +kernel, by decide +kernel⟩

theorem isPlain_answerFields (h : IsValue contentType) (length : Nat) :
    ∀ field ∈ answerFields contentType length, field.IsPlain := by
  intro field hfield
  simp only [answerFields, List.mem_cons, List.not_mem_nil, or_false] at hfield
  rcases hfield with rfl | rfl | rfl
  · exact Field.isPlain_spaced (by decide +kernel) (isValue_ofNat length)
  · exact Field.isPlain_spaced (by decide +kernel) h
  · exact Field.isPlain_spaced (by decide +kernel) isValue_close

theorem readAnswer?_answer {response : Response} (hstatus : response.status < 1000)
    (hne : response.contentType ≠ []) (hvalue : IsValue response.contentType) (more : Bytes) :
    readAnswer? (answer response ++ more) = some (response, more) := by
  have hlength := Field.value?_spaced (by decide +kernel : Field.IsName (ascii "Content-Length"))
    (Decimal.ofNat_ne_nil response.body.length) (isValue_ofNat response.body.length)
  have htype := Field.value?_spaced (by decide +kernel : Field.IsName (ascii "Content-Type"))
    hne hvalue
  rw [answer_eq, List.append_assoc]
  refine readAnswer?_header_append (isPlain_answerFields hvalue _) hstatus ?_ ?_ more
  · rw [answerFields, List.filterMap_cons_some hlength]
    rfl
  · rw [answerFields, List.filterMap_cons_none rfl, List.filterMap_cons_some htype]
    rfl

theorem isPlain_unauthorizedFields : ∀ field ∈ unauthorizedFields, field.IsPlain := by
  decide +kernel

theorem readAnswer?_unauthorized (more : Bytes) : readAnswer? (unauthorized ++ more)
    = some (⟨401, unauthorizedBody, ascii "text/plain"⟩, more) := by
  rw [unauthorized_eq, List.append_assoc]
  exact readAnswer?_header_append isPlain_unauthorizedFields (by decide) (by decide +kernel)
    (by decide) more

/-! ## What is answered -/

/-- The answer that asks for an authorization, as it is read. -/
def asking : Response :=
  ⟨401, unauthorizedBody, ascii "text/plain"⟩

/-- What is to be answered: to a request that cannot be read, to one without the authorization, to
one whose handling breaks off and to one that is handled. -/
inductive Answers (fault : Option (Service × Bytes)) (s : Service) (expected : Bytes)
    (reads : List Bytes) : Response → Prop
  | refused {status : Nat} (hreceive : receive reads = .error status) :
      Answers fault s expected reads (.line status (statusText status))
  | unauthorized {head body : Bytes} (hreceive : receive reads = .ok (head, body))
      (hauthorized : ¬ isAuthorized expected (Head.parse head) = true) :
      Answers fault s expected reads asking
  | broken {head body explanation : Bytes} {left : Service}
      (hreceive : receive reads = .ok (head, body))
      (hauthorized : isAuthorized expected (Head.parse head) = true)
      (hfault : fault = some (left, explanation)) :
      Answers fault s expected reads (.line 500 (ascii "internal error: " ++ explanation))
  | handled {head body path query : Bytes} (hreceive : receive reads = .ok (head, body))
      (hauthorized : isAuthorized expected (Head.parse head) = true) (hfault : fault = none)
      (htarget : splitTarget (Head.parse head).target = (path, query)) :
      Answers fault s expected reads (Api.handle s (Head.parse head).method path query body).2

/-- What all answers but the one that asks for an authorization have in common. -/
structure IsOrdinary (response : Response) : Prop where
  status : response.status ∈ [200, 400, 404, 405, 413, 500]
  contentType : response.contentType ∈ [ascii "text/plain; charset=utf-8", ascii "application/json"]

variable {response : Response}

theorem isOrdinary_of_isAnswer (h : Api.IsAnswer response) : IsOrdinary response := by
  have hsub : [200, 400, 404, 405, 500] ⊆ [200, 400, 404, 405, 413, 500] := by decide
  exact ⟨hsub h.status, h.contentType⟩

namespace IsOrdinary

theorem status_ne (h : IsOrdinary response) : response.status ≠ 401 := by
  intro heq
  have hstatus := h.status
  rw [heq] at hstatus
  exact absurd hstatus (by decide)

theorem isValue_contentType (h : IsOrdinary response) :
    response.contentType ≠ [] ∧ IsValue response.contentType := by
  have htype := h.contentType
  simp only [List.mem_cons, List.not_mem_nil, or_false] at htype
  rcases htype with heq | heq
  · rw [heq]
    exact ⟨by decide, by decide +kernel, by decide +kernel⟩
  · rw [heq]
    exact ⟨by decide, by decide +kernel, by decide +kernel⟩

end IsOrdinary

/-! ## What is sent -/

/-- The header of an answer with this status, content type and length. -/
def headerOf (status : Nat) (contentType : Bytes) (length : Nat) : Bytes :=
  if status = 401 then header 401 unauthorizedFields
  else header status (answerFields contentType length)

/-- What is sent for an answer. -/
def sent (response : Response) : Bytes :=
  headerOf response.status response.contentType response.body.length ++ response.body

theorem sent_asking : sent asking = unauthorized :=
  unauthorized_eq.symm

theorem IsOrdinary.sent_eq (h : IsOrdinary response) : sent response = answer response := by
  rw [sent, headerOf, if_neg h.status_ne, answer_eq]

/-- Every request is answered, in one of the four ways. -/
theorem exists_answers (fault : Option (Service × Bytes)) (s : Service) (expected : Bytes)
    (reads : List Bytes) :
    ∃ response, Answers fault s expected reads response ∧
      (response = asking ∨ IsOrdinary response) ∧
      (serveUnless fault s expected reads).2 = sent response := by
  rw [serveUnless]
  split
  · rename_i status hreceive
    have hordinary : IsOrdinary (.line status (statusText status)) := by
      rcases isRefusal_of_receive hreceive with rfl | rfl
      · exact isOrdinary_of_isAnswer (Api.isAnswer_line (by decide) _)
      · exact ⟨by decide, List.mem_cons_self⟩
    exact ⟨_, .refused hreceive, .inr hordinary, hordinary.sent_eq.symm⟩
  · rename_i head body hreceive
    simp only
    split
    · rename_i hauthorized
      cases fault with
      | none =>
          have hordinary := isOrdinary_of_isAnswer (Api.isAnswer_handle s (Head.parse head).method
            (splitTarget (Head.parse head).target).1
            (splitTarget (Head.parse head).target).2 body)
          exact ⟨_, .handled hreceive hauthorized rfl rfl, .inr hordinary, hordinary.sent_eq.symm⟩
      | some broken =>
          have hstatus : 500 ∈ [200, 400, 404, 405, 500] := by decide
          have hordinary := isOrdinary_of_isAnswer
            (Api.isAnswer_line hstatus (ascii "internal error: " ++ broken.2))
          exact ⟨_, .broken hreceive hauthorized rfl, .inr hordinary, hordinary.sent_eq.symm⟩
    · rename_i hauthorized
      exact ⟨asking, .unauthorized hreceive hauthorized, .inl rfl, sent_asking.symm⟩

theorem readAnswer?_sent (h : response = asking ∨ IsOrdinary response) (more : Bytes) :
    readAnswer? (sent response ++ more) = some (response, more) := by
  rcases h with rfl | h
  · rw [sent_asking]
    exact readAnswer?_unauthorized more
  · have hstatus : response.status < 1000 :=
      (by decide : ∀ n ∈ [200, 400, 404, 405, 413, 500], n < 1000) _ h.status
    rw [h.sent_eq]
    exact readAnswer?_answer hstatus h.isValue_contentType.1 h.isValue_contentType.2 more

theorem exists_cut_headerOf (h : response = asking ∨ IsOrdinary response) :
    ∃ head, ∀ rest, cutAtMark? emptyLine (headerOf response.status response.contentType
      response.body.length ++ rest) = some (head, rest) := by
  rcases h with rfl | h
  · obtain ⟨head, -, hcut⟩ := exists_cut_header isPlain_unauthorizedFields 401
    exact ⟨head, hcut⟩
  · obtain ⟨head, -, hcut⟩ := exists_cut_header
      (isPlain_answerFields h.isValue_contentType.2 response.body.length) response.status
    rw [headerOf, if_neg h.status_ne]
    exact ⟨head, hcut⟩

/-- Without an exception the request is served as `serve` does. -/
theorem serveUnless_none (s : Service) (expected : Bytes) (reads : List Bytes) :
    serveUnless none s expected reads = serve s expected reads :=
  rfl

/-- Whatever arrives, the bytes sent are one answer and nothing behind it: the one that is due,
with its body unchanged behind the first empty line. Two answers with the same status, content
type and length have the same header, whatever was asked and whatever the services hold. -/
theorem serveUnless_framed (fault : Option (Service × Bytes)) (s : Service) (expected : Bytes)
    (reads : List Bytes) :
    ∃ response head, Answers fault s expected reads response ∧
      response.status ∈ [200, 400, 401, 404, 405, 413, 500] ∧
      readAnswer? (serveUnless fault s expected reads).2 = some (response, []) ∧
      cutAtMark? emptyLine (serveUnless fault s expected reads).2 = some (head, response.body) ∧
      ∀ fault' s' expected' reads' response',
        readAnswer? (serveUnless fault' s' expected' reads').2 = some (response', []) →
        response'.status = response.status → response'.contentType = response.contentType →
        response'.body.length = response.body.length →
        cutAtMark? emptyLine (serveUnless fault' s' expected' reads').2
          = some (head, response'.body) := by
  obtain ⟨response, hanswers, hkind, hsent⟩ := exists_answers fault s expected reads
  obtain ⟨head, hcut⟩ := exists_cut_headerOf hkind
  have hread := readAnswer?_sent hkind []
  rw [List.append_nil] at hread
  refine ⟨response, head, hanswers, ?_, hsent ▸ hread, hsent ▸ hcut response.body, ?_⟩
  · rcases hkind with rfl | hordinary
    · decide
    · have hsub : [200, 400, 404, 405, 413, 500] ⊆ [200, 400, 401, 404, 405, 413, 500] := by
        decide
      exact hsub hordinary.status
  · intro fault' s' expected' reads' response' hread' hstatus htype hlength
    obtain ⟨other, -, hkind', hsent'⟩ := exists_answers fault' s' expected' reads'
    have hother := readAnswer?_sent hkind' []
    rw [List.append_nil, ← hsent', hread'] at hother
    obtain rfl : response' = other := (Prod.mk.inj (Option.some.inj hother)).1
    rw [hsent', sent, hstatus, htype, hlength]
    exact hcut response'.body

/-- A request without header fields. -/
def bareRequest : List Bytes :=
  [ascii "GET / HTTP/1.1\r\n\r\n"]

/-- An empty line in the explanation of an exception ends no header, and four other bytes in its
place leave the header as it is. -/
theorem serveUnless_framed_emptyLine :
    let s := Service.launch .small .empty .silent
    ∃ head, cutAtMark? emptyLine (serveUnless (some (s, ascii "\r\n\r\n")) s [] bareRequest).2
        = some (head, ascii "internal error: \r\n\r\n\n") ∧
      cutAtMark? emptyLine (serveUnless (some (s, ascii "lost")) s [] bareRequest).2
        = some (head, ascii "internal error: lost\n") := by
  intro s
  have hempty : readAnswer? (serveUnless (some (s, ascii "\r\n\r\n")) s [] bareRequest).2
      = some (⟨500, ascii "internal error: \r\n\r\n\n",
        ascii "text/plain; charset=utf-8"⟩, []) := by
    decide +kernel
  have hlost : readAnswer? (serveUnless (some (s, ascii "lost")) s [] bareRequest).2
      = some (⟨500, ascii "internal error: lost\n",
        ascii "text/plain; charset=utf-8"⟩, []) := by
    decide +kernel
  obtain ⟨response, head, -, -, hread, hcut, hsame⟩ :=
    serveUnless_framed (some (s, ascii "\r\n\r\n")) s [] bareRequest
  obtain rfl := (Prod.mk.inj (Option.some.inj (hempty.symm.trans hread))).1
  exact ⟨head, hcut, hsame _ _ _ _ _ hlost rfl rfl (by decide)⟩

end Http

end ResolverLog
