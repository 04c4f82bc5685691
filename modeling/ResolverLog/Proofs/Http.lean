import ResolverLog.Proofs.HttpReads
import ResolverLog.Proofs.Runs

/-!
# Requests as they arrive

The head of a request that was read is what its bytes have in front of their
first empty line. A request that cannot be read is refused with one of two
statuses.

The authorization of a request is the value of one of the lines of its head. A
request of which no line brings the expected one is answered before anything
is done, with an answer that does not depend on the service.
-/

namespace ResolverLog

namespace Http

open Bytes

variable {raw before after head body : Bytes} {reads : List Bytes}

/-! ## The head -/

/-- A head that was read is what the reads together hold up to the first empty line. -/
theorem cut_of_receiveHead {arrived : Bytes} {rest : List Bytes}
    (h : receiveHead raw reads = .ok (head, arrived, rest)) :
    ∃ before, head = before ++ crlf ∧
      cutAtMark? emptyLine (raw ++ reads.flatten) = some (before, arrived ++ rest.flatten) := by
  induction reads generalizing raw with
  | nil => cases h
  | cons read reads ih =>
      rw [List.flatten_cons, ← List.append_assoc]
      rw [receiveHead] at h
      split at h
      · cases h
      · simp only at h
        split at h
        · rename_i before after hcut
          cases h
          exact ⟨before, rfl, cutAtMark?_append_of_eq_some hcut _⟩
        · split at h
          · cases h
          · exact ih h

/-! ## Refusals -/

/-- The statuses of requests that cannot be read. -/
def IsRefusal (status : Nat) : Prop :=
  status = 400 ∨ status = 413

theorem isRefusal_of_receiveHead {status : Nat} (h : receiveHead raw reads = .error status) :
    IsRefusal status := by
  induction reads generalizing raw with
  | nil =>
      cases h
      exact .inl rfl
  | cons read reads ih =>
      rw [receiveHead] at h
      split at h
      · cases h
        exact .inl rfl
      · simp only at h
        split at h
        · cases h
        · split at h
          · cases h
            exact .inr rfl
          · exact ih h

theorem isRefusal_of_contentLength {status : Nat} (h : contentLength head = .error status) :
    IsRefusal status := by
  rw [contentLength] at h
  generalize headerValues _ _ = values at h
  generalize (0 : Nat) = length at h
  induction values generalizing length with
  | nil => cases h
  | cons value values ih =>
      rw [List.foldlM_cons] at h
      cases hvalue : Decimal.upTo? 9 value with
      | none =>
          simp only [hvalue] at h
          cases h
          exact .inl rfl
      | some n =>
          simp only [hvalue] at h
          exact ih n h

theorem isRefusal_of_receiveBody {missing status : Nat} {pieces : List Bytes}
    (h : receiveBody missing pieces reads = .error status) : IsRefusal status := by
  induction reads generalizing missing pieces with
  | nil =>
      rw [receiveBody] at h
      split at h
      · cases h
      · cases h
        exact .inl rfl
  | cons read reads ih =>
      rw [receiveBody] at h
      split at h
      · cases h
      · split at h
        · cases h
          exact .inl rfl
        · exact ih h

/-- A request is refused for its head, for its body, or for the length it announces. -/
theorem isRefusal_of_receive {status : Nat} (h : receive reads = .error status) :
    IsRefusal status := by
  rw [receive] at h
  cases hhead : receiveHead [] reads with
  | error cause =>
      rw [hhead] at h
      cases h
      exact isRefusal_of_receiveHead hhead
  | ok parts =>
      obtain ⟨head, arrived, rest⟩ := parts
      simp only [hhead, bind, Except.bind] at h
      cases hlength : contentLength head with
      | error cause =>
          rw [hlength] at h
          cases h
          exact isRefusal_of_contentLength hlength
      | ok length =>
          simp only [hlength] at h
          split at h
          · cases h
            exact .inr rfl
          · split at h
            · rename_i hbody
              cases h
              exact isRefusal_of_receiveBody hbody
            · cases h

/-- The head of a request that was read is the text up to the first empty line. -/
theorem cut_of_receive (h : receive reads = .ok (head, body)) :
    ∃ before after, cutAtMark? emptyLine reads.flatten = some (before, after) ∧
      head = before ++ crlf := by
  rw [receive] at h
  cases hhead : receiveHead [] reads with
  | error cause =>
      rw [hhead] at h
      cases h
  | ok parts =>
      obtain ⟨text, arrived, rest⟩ := parts
      obtain ⟨before, rfl, hcut⟩ := cut_of_receiveHead hhead
      simp only [hhead, bind, Except.bind] at h
      split at h
      · cases h
      · split at h
        · cases h
        · split at h
          · cases h
          · cases h
            exact ⟨before, _, hcut, rfl⟩

/-! ## The authorization -/

/-- The values of a header are those of the lines that name it. -/
theorem mem_headerValues_iff {name value : Bytes} {lines : List Bytes} :
    value ∈ headerValues name lines ↔
      ∃ line ∈ lines, ∃ key text, cutAt? 0x3A line = some (key, text) ∧
        isNamed name key = true ∧ headerValue text = value := by
  rw [headerValues, List.mem_filterMap]
  refine exists_congr fun line => and_congr_right fun _ => ?_
  cases hcut : cutAt? 0x3A line with
  | none => simp
  | some cut =>
      obtain ⟨key, text⟩ := cut
      simp only [Option.some.injEq, Prod.mk.injEq, ite_eq_iff]
      constructor
      · rintro (⟨hnamed, hvalue⟩ | ⟨-, hnone⟩)
        · exact ⟨key, text, ⟨rfl, rfl⟩, hnamed, hvalue⟩
        · cases hnone
      · rintro ⟨_, _, ⟨rfl, rfl⟩, hnamed, hvalue⟩
        exact .inl ⟨hnamed, hvalue⟩

/-- The authorization of a head stands in one of its lines, or there is none. -/
theorem authorization_parse (text : Bytes) : (Head.parse text).authorization = [] ∨
    (Head.parse text).authorization ∈ headerValues (ascii "Authorization") (lines text) := by
  -- The words of the request line may stand on several lines; what follows them is still an end
  -- of the text.
  have hlast : ∀ rest, rest <:+ text → lastAuthorization rest = [] ∨
      lastAuthorization rest ∈ headerValues (ascii "Authorization") (lines text) := by
    rintro rest ⟨front, rfl⟩
    rw [lastAuthorization]
    cases hcut : cutAt? 0x0A rest with
    | none => exact .inl rfl
    | some cut =>
        obtain ⟨line, behind⟩ := cut
        obtain ⟨rfl, -⟩ := cutAt?_eq_some_iff.mp hcut
        have hsub : headerLines behind ⊆ lines (front ++ (line ++ 0x0A :: behind)) := by
          rw [← List.append_assoc]
          exact List.Subset.trans (List.takeWhile_subset _)
            (lines_subset_lines_append_newline _ behind)
        cases hvalue : (headerValues (ascii "Authorization") (headerLines behind)).getLast? with
        | none => exact .inl (by simp only [hvalue, Option.getD_none])
        | some value =>
            refine .inr ?_
            simp only [hvalue, Option.getD_some]
            exact List.filterMap_subset _ hsub (List.mem_of_getLast? hvalue)
  rw [Head.parse]
  split
  · exact .inl rfl
  · rename_i hmethod
    split
    · exact .inl rfl
    · rename_i htarget
      split
      · exact .inl rfl
      · rename_i hversion
        exact hlast _ (((suffix_of_takeWord? hversion).trans (suffix_of_takeWord? htarget)).trans
          (suffix_of_takeWord? hmethod))

/-- No line of the text gives `expected` as authorization. -/
def Withholds (expected text : Bytes) : Prop :=
  ∀ line ∈ lines text, ∀ key value, cutAt? 0x3A line = some (key, value) →
    isNamed (ascii "Authorization") key = true → headerValue value ≠ expected

theorem withholds_iff {expected text : Bytes} : Withholds expected text ↔
    expected ∉ headerValues (ascii "Authorization") (lines text) := by
  rw [mem_headerValues_iff, Withholds]
  push Not
  rfl

instance (expected text : Bytes) : Decidable (Withholds expected text) :=
  decidable_of_iff _ withholds_iff.symm

/-- A request whose head, up to the end of its last line, withholds the authorization is answered
in one of three ways, whatever the service, and leaves the service as it is. -/
theorem serve_of_withholds (expected : Bytes) (reads : List Bytes) (hne : expected ≠ [])
    (h : ∀ before after, cutAtMark? emptyLine reads.flatten = some (before, after) →
      Withholds expected (before ++ crlf)) :
    ∃ answer ∈ [refusal 400, refusal 413, unauthorized],
      ∀ s, serve s expected reads = (s, answer) := by
  cases hreceive : receive reads with
  | error status =>
      refine ⟨refusal status, ?_, fun s => by rw [serve, hreceive]⟩
      rcases isRefusal_of_receive hreceive with rfl | rfl
      · exact List.mem_cons_self
      · exact List.mem_cons_of_mem _ List.mem_cons_self
  | ok request =>
      obtain ⟨head, body⟩ := request
      obtain ⟨before, after, hcut, rfl⟩ := cut_of_receive hreceive
      have hdifferent : (Head.parse (before ++ crlf)).authorization ≠ expected := by
        rintro rfl
        exact withholds_iff.mp (h before after hcut)
          ((authorization_parse (before ++ crlf)).resolve_left hne)
      have hrefused : ¬ isAuthorized expected (Head.parse (before ++ crlf)) = true := by
        simpa [isAuthorized] using ⟨hne, hdifferent⟩
      refine ⟨unauthorized, by simp, fun s => ?_⟩
      rw [serve, hreceive]
      simp only [if_neg hrefused]

/-- The bytes of a request that clears the log without saying who asks. -/
def anonymousClear : Bytes :=
  ascii "POST /control/querylog_clear HTTP/1.1\r\nAuthorization: Basic\r\n\r\n"

theorem serve_of_withholds_anonymousClear :
    ∃ answer ∈ [refusal 400, refusal 413, unauthorized],
      ∀ s, serve s (ascii "Basic eDp5") [anonymousClear] = (s, answer) := by
  refine serve_of_withholds _ _ (by decide) fun before after hcut => ?_
  have hcut' : cutAtMark? emptyLine [anonymousClear].flatten = some
      (ascii "POST /control/querylog_clear HTTP/1.1\r\nAuthorization: Basic", []) := by
    decide
  rw [hcut'] at hcut
  cases hcut
  decide

/-- The bytes of a request with a second carriage return behind its authorization. -/
def doubledReturn : Bytes :=
  ascii "GET /control/querylog_info HTTP/1.1\r\nAuthorization: x\r\r\n\r\n"

/-- The end of the last line belongs to the head. Without it a carriage return at the end of an
authorization counts for that of the line. -/
theorem not_serve_of_withholds : ¬ ∀ (expected : Bytes) (reads : List Bytes), expected ≠ [] →
    (∀ before after, cutAtMark? emptyLine reads.flatten = some (before, after) →
      Withholds expected before) →
    ∃ answer ∈ [refusal 400, refusal 413, unauthorized],
      ∀ s, serve s expected reads = (s, answer) := by
  intro hall
  have hcut : cutAtMark? emptyLine [doubledReturn].flatten = some
      (ascii "GET /control/querylog_info HTTP/1.1\r\nAuthorization: x\r", []) := by
    decide
  obtain ⟨answer, hmem, hserve⟩ := hall (ascii "x\r") [doubledReturn] (by decide) (by
    intro before after h
    rw [hcut] at h
    cases h
    decide)
  have hshown : (serve (.launch .small .empty .silent) (ascii "x\r") [doubledReturn]).2
      ∉ [refusal 400, refusal 413, unauthorized] := by
    decide +kernel
  rw [hserve] at hshown
  exact hshown hmem

end Http

end ResolverLog
