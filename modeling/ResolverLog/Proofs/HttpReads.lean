import ResolverLog.Http
import ResolverLog.Proofs.Bytes

/-!
# Requests in pieces

A request arrives in reads that know nothing of its parts: the first empty
line, which ends its head, may be torn by any of them, and the bytes of its
body begin in the middle of one. Unless reads go beyond the limit of a head
without having brought its end, what is read is a function of all the bytes
together.

## Implementation notes

`Overruns` says which reads are refused for their head in terms of the bytes
that have arrived, for any reads. That a head fits (`FitsHead`) speaks of the
bytes alone; no reads of such a request overrun.
-/

namespace ResolverLog

namespace Http

open Bytes

variable {raw read before after head body : Bytes} {reads : List Bytes} {length : Nat}

/-- The first empty line of the text, with the end of the line in front of it. -/
abbrev emptyLine : Bytes := crlf ++ crlf

/-! ## The head -/

/-- Some of the reads go beyond the limit of a head, behind the bytes in `raw`, and have not
brought its end. -/
def Overruns (raw : Bytes) (reads : List Bytes) : Prop :=
  ∃ front, front <+: reads ∧ maxHead < (raw ++ front.flatten).length ∧
    ¬ emptyLine <:+: raw ++ front.flatten

/-- A read that is looked at goes to the bytes in front of the others. -/
theorem overruns_cons_iff (h : raw.length ≤ maxHead) (read : Bytes) :
    Overruns raw (read :: reads) ↔ Overruns (raw ++ read) reads := by
  constructor
  · rintro ⟨front, hfront, hlong, hopen⟩
    obtain rfl | ⟨more, rfl, hmore⟩ := List.prefix_cons_iff.mp hfront
    · rw [List.flatten_nil, List.append_nil] at hlong
      omega
    · rw [List.flatten_cons, ← List.append_assoc] at hlong hopen
      exact ⟨more, hmore, hlong, hopen⟩
  · rintro ⟨front, hfront, hlong, hopen⟩
    rw [List.append_assoc, ← List.flatten_cons] at hlong hopen
    exact ⟨read :: front, List.prefix_cons_inj read |>.mpr hfront, hlong, hopen⟩

theorem not_overruns_of_ended (h : emptyLine <:+: raw) : ¬ Overruns raw reads := by
  rintro ⟨front, -, -, hopen⟩
  exact hopen (h.trans (List.prefix_append raw front.flatten).isInfix)

theorem overruns_of_lt (h : maxHead < raw.length) (hopen : ¬ emptyLine <:+: raw) :
    Overruns raw reads := by
  refine ⟨[], List.nil_prefix, ?_, ?_⟩
  · rwa [List.flatten_nil, List.append_nil]
  · rwa [List.flatten_nil, List.append_nil]

theorem length_le_of_not_overruns (h : ¬ Overruns raw reads) (hopen : ¬ emptyLine <:+: raw) :
    raw.length ≤ maxHead :=
  Nat.le_of_not_lt fun hlong => h (overruns_of_lt hlong hopen)

/-- A head that ends within the limit ends before reads can go beyond it. -/
theorem not_overruns_of_le (hcut : IsFirstCut emptyLine (raw ++ reads.flatten) before after)
    (hlen : before.length + 4 ≤ maxHead) : ¬ Overruns raw reads := by
  rintro ⟨front, ⟨more, rfl⟩, hlong, hopen⟩
  refine hopen ((hcut.infix_iff ⟨more.flatten, by simp⟩).mpr ?_)
  change before.length + 4 ≤ _
  omega

/-- The read that brings the end of the head is the last one made for it. -/
theorem receiveHead_cons_of_some (hread : read ≠ [])
    (h : cutAtMark? emptyLine (raw ++ read) = some (before, after)) :
    receiveHead raw (read :: reads) = .ok (before ++ crlf, after, reads) := by
  rw [receiveHead, if_neg (by simpa using hread)]
  simp only [h]

/-- Behind any other read it is looked how much has arrived. -/
theorem receiveHead_cons_of_none (hread : read ≠ [])
    (h : cutAtMark? emptyLine (raw ++ read) = none) :
    receiveHead raw (read :: reads)
      = if maxHead < (raw ++ read).length then .error 413 else receiveHead (raw ++ read) reads := by
  rw [receiveHead, if_neg (by simpa using hread)]
  simp only [h]

theorem receiveHead_of_overruns (hshort : raw.length ≤ maxHead)
    (hreads : ∀ read ∈ reads, read ≠ []) (h : Overruns raw reads) :
    receiveHead raw reads = .error 413 := by
  induction reads generalizing raw with
  | nil =>
      obtain ⟨front, hfront, hlong, -⟩ := h
      rw [List.prefix_nil.mp hfront, List.flatten_nil, List.append_nil] at hlong
      omega
  | cons read reads ih =>
      obtain ⟨hread, hmore⟩ := List.forall_mem_cons.mp hreads
      rw [overruns_cons_iff hshort] at h
      cases hnow : cutAtMark? emptyLine (raw ++ read) with
      | some cut =>
          exact absurd h (not_overruns_of_ended (cutAtMark?_eq_some_iff.mp hnow).occurs)
      | none =>
          rw [receiveHead_cons_of_none hread hnow]
          by_cases hlong : maxHead < (raw ++ read).length
          · rw [if_pos hlong]
          · rw [if_neg hlong]
            exact ih (Nat.le_of_not_lt hlong) hmore h

/-- The input ends before the head does. -/
theorem receiveHead_of_open (hreads : ∀ read ∈ reads, read ≠ [])
    (h : ¬ Overruns raw reads) (hopen : ¬ emptyLine <:+: raw ++ reads.flatten) :
    receiveHead raw reads = .error 400 := by
  induction reads generalizing raw with
  | nil => rfl
  | cons read reads ih =>
      obtain ⟨hread, hmore⟩ := List.forall_mem_cons.mp hreads
      rw [List.flatten_cons, ← List.append_assoc] at hopen
      have hnow : ¬ emptyLine <:+: raw ++ read := fun hended =>
        hopen (hended.trans (List.prefix_append _ _).isInfix)
      have hraw : ¬ emptyLine <:+: raw := fun hended =>
        hnow (hended.trans (List.prefix_append _ _).isInfix)
      rw [overruns_cons_iff (length_le_of_not_overruns h hraw)] at h
      have hshort := length_le_of_not_overruns h hnow
      rw [receiveHead_cons_of_none hread (cutAtMark?_eq_none_iff.mpr hnow),
        if_neg (Nat.not_lt.mpr hshort)]
      exact ih hmore h hopen

/-- The head of a request is found however it is cut into reads. -/
theorem receiveHead_of_cut (hraw : ¬ emptyLine <:+: raw)
    (hcut : cutAtMark? emptyLine (raw ++ reads.flatten) = some (before, after))
    (hreads : ∀ read ∈ reads, read ≠ []) (h : ¬ Overruns raw reads) :
    ∃ arrived rest, receiveHead raw reads = .ok (before ++ crlf, arrived, rest) ∧
      arrived ++ rest.flatten = after ∧ ∀ read ∈ rest, read ≠ [] := by
  induction reads generalizing raw with
  | nil =>
      rw [List.flatten_nil, List.append_nil, cutAtMark?_eq_none_iff.mpr hraw] at hcut
      cases hcut
  | cons read reads ih =>
      obtain ⟨hread, hmore⟩ := List.forall_mem_cons.mp hreads
      rw [List.flatten_cons, ← List.append_assoc] at hcut
      rw [overruns_cons_iff (length_le_of_not_overruns h hraw)] at h
      cases hnow : cutAtMark? emptyLine (raw ++ read) with
      | some cut =>
          obtain ⟨front, arrived⟩ := cut
          rw [cutAtMark?_append_of_eq_some hnow] at hcut
          obtain ⟨rfl, rfl⟩ : front = before ∧ arrived ++ reads.flatten = after := by
            simpa using hcut
          exact ⟨arrived, reads, receiveHead_cons_of_some hread hnow, rfl, hmore⟩
      | none =>
          have hopen := cutAtMark?_eq_none_iff.mp hnow
          have hshort := length_le_of_not_overruns h hopen
          rw [receiveHead_cons_of_none hread hnow, if_neg (Nat.not_lt.mpr hshort)]
          exact ih hopen hcut hmore h

/-! ## The body -/

/-- The body of a request is found however it is cut into reads, if all of it arrives. -/
theorem receiveBody_eq {missing : Nat} (pieces : List Bytes)
    (hreads : ∀ read ∈ reads, read ≠ []) :
    receiveBody missing pieces reads =
      if reads.flatten.length < missing then .error 400
      else .ok (pieces.reverse.flatten ++ reads.flatten.take missing) := by
  induction reads generalizing missing pieces with
  | nil =>
      rw [receiveBody]
      by_cases hzero : missing = 0
      · simp [hzero]
      · simp [hzero, Nat.pos_of_ne_zero hzero]
  | cons read reads ih =>
      obtain ⟨hread, hmore⟩ := List.forall_mem_cons.mp hreads
      rw [receiveBody]
      by_cases hzero : missing = 0
      · simp [hzero]
      · rw [if_neg hzero, if_neg (by simpa using hread), ih _ hmore, List.flatten_cons,
          List.length_append]
        by_cases hfew : read.length + reads.flatten.length < missing
        · rw [if_pos hfew, if_pos (by omega)]
        · rw [if_neg hfew, if_neg (by omega), List.take_append, List.reverse_cons,
            List.flatten_append, List.flatten_singleton, List.append_assoc]

/-! ## The whole request -/

/-- What is read of a request whose bytes are all there, and whose head may have any length. -/
def readWhole (raw : Bytes) : Except Nat (Bytes × Bytes) :=
  match cutAtMark? emptyLine raw with
  | none => .error 400
  | some (before, after) => do
    let length ← contentLength (before ++ crlf)
    if maxBody < length then throw 413
    if after.length < length then throw 400
    return (before ++ crlf, after.take length)

/-- Reads that go beyond the limit of a head without its end are refused. -/
theorem receive_of_overruns (hreads : ∀ read ∈ reads, read ≠ []) (h : Overruns [] reads) :
    receive reads = .error 413 := by
  rw [receive, receiveHead_of_overruns (Nat.zero_le _) hreads h]
  rfl

/-- Otherwise a request is read as if all of its bytes were there at once. -/
theorem receive_of_not_overruns (hreads : ∀ read ∈ reads, read ≠ []) (h : ¬ Overruns [] reads) :
    receive reads = readWhole reads.flatten := by
  rw [receive, readWhole]
  cases hcut : cutAtMark? emptyLine reads.flatten with
  | none =>
      rw [receiveHead_of_open hreads h (cutAtMark?_eq_none_iff.mp hcut)]
      rfl
  | some cut =>
      obtain ⟨before, after⟩ := cut
      obtain ⟨arrived, rest, hhead, rfl, hrest⟩ :=
        receiveHead_of_cut (by decide) hcut hreads h
      simp only [hhead, bind, Except.bind]
      cases contentLength (before ++ crlf) with
      | error status => rfl
      | ok length =>
          simp only [receiveBody_eq [arrived.take length] hrest, List.reverse_singleton,
            List.flatten_singleton, ← List.take_append, List.length_append]
          by_cases hlarge : maxBody < length
          · rw [if_pos hlarge, if_pos hlarge]
            rfl
          · rw [if_neg hlarge, if_neg hlarge]
            by_cases hfew : arrived.length + rest.flatten.length < length
            · rw [if_pos hfew, if_pos (by omega)]
              rfl
            · rw [if_neg hfew, if_neg (by omega)]

/-- A body of the announced length is read, whatever follows it. -/
theorem receive_of_cut {more : Bytes}
    (hcut : cutAtMark? emptyLine reads.flatten = some (before, body ++ more))
    (hreads : ∀ read ∈ reads, read ≠ []) (hlen : before.length + 4 ≤ maxHead)
    (hannounced : contentLength (before ++ crlf) = .ok body.length)
    (hbody : body.length ≤ maxBody) : receive reads = .ok (before ++ crlf, body) := by
  have hfew : ¬ (body ++ more).length < body.length := by simp
  rw [receive_of_not_overruns hreads (not_overruns_of_le (cutAtMark?_eq_some_iff.mp hcut) hlen),
    readWhole, hcut]
  simp only [bind, Except.bind, hannounced, if_neg (Nat.not_lt.mpr hbody), if_neg hfew,
    List.take_left]
  rfl

/-! ## The length announced -/

/-- Every line of the head that names the length gives a number of at most nine digits, and the
last of them is this one; without such a line it is zero. -/
def Announces (head : Bytes) (length : Nat) : Prop :=
  ∃ lengths : List Nat,
    (headerValues (ascii "Content-Length") (lines head)).map (Decimal.upTo? 9)
      = lengths.map some ∧
    lengths.getLastD 0 = length

theorem contentLength_eq_ok_iff : contentLength head = .ok length ↔ Announces head length := by
  rw [contentLength, Announces]
  generalize headerValues _ _ = values
  -- The length read last replaces the one before it, whatever that was.
  generalize (0 : Nat) = first
  induction values generalizing first with
  | nil =>
      constructor
      · rintro h
        cases h
        exact ⟨[], rfl, rfl⟩
      · rintro ⟨lengths, hlengths, rfl⟩
        rw [List.map_eq_nil_iff.mp hlengths.symm]
        rfl
  | cons value values ih =>
      rw [List.foldlM_cons, List.map_cons]
      cases hvalue : Decimal.upTo? 9 value with
      | none =>
          constructor
          · intro h
            cases h
          · rintro ⟨lengths, hlengths, -⟩
            cases lengths with
            | nil => cases hlengths
            | cons n lengths => cases hlengths
      | some n =>
          refine (ih n).trans ⟨?_, ?_⟩
          · rintro ⟨lengths, hlengths, rfl⟩
            exact ⟨n :: lengths, by rw [hlengths, List.map_cons], List.getLastD_cons⟩
          · rintro ⟨lengths, hlengths, rfl⟩
            cases lengths with
            | nil => cases hlengths
            | cons m lengths =>
                obtain ⟨rfl, htail⟩ : n = m ∧ values.map (Decimal.upTo? 9) = lengths.map some := by
                  simpa using hlengths
                exact ⟨lengths, htail, List.getLastD_cons.symm⟩

theorem readWhole_of_open (h : ¬ emptyLine <:+: raw) : readWhole raw = .error 400 := by
  rw [readWhole, cutAtMark?_eq_none_iff.mpr h]

/-- A request whose bytes are all there is read if it has the body that it announces. -/
theorem readWhole_of_announces (hcut : IsFirstCut emptyLine raw before after)
    (hannounced : Announces (before ++ crlf) length) (hbody : length ≤ maxBody) :
    readWhole raw = if after.length < length then .error 400
      else .ok (before ++ crlf, after.take length) := by
  rw [readWhole, cutAtMark?_eq_some_iff.mpr hcut]
  simp only [bind, Except.bind, contentLength_eq_ok_iff.mpr hannounced,
    if_neg (Nat.not_lt.mpr hbody)]
  split
  · rfl
  · rfl

theorem readWhole_eq_ok_iff : readWhole raw = .ok (head, body) ↔
    ∃ before after, IsFirstCut emptyLine raw before after ∧ head = before ++ crlf ∧
      Announces head body.length ∧ body.length ≤ maxBody ∧ body <+: after := by
  constructor
  · intro h
    cases hcut : cutAtMark? emptyLine raw with
    | none =>
        rw [readWhole, hcut] at h
        cases h
    | some cut =>
        obtain ⟨before, after⟩ := cut
        rw [readWhole, hcut] at h
        cases hlength : contentLength (before ++ crlf) with
        | error status =>
            simp only [hlength] at h
            cases h
        | ok length =>
            simp only [hlength, bind, Except.bind] at h
            split at h
            · cases h
            · rename_i hbody
              split at h
              · cases h
              · rename_i hwhole
                cases h
                have htake : (after.take length).length = length :=
                  List.length_take_of_le (Nat.le_of_not_lt hwhole)
                refine ⟨before, after, cutAtMark?_eq_some_iff.mp hcut, rfl, ?_, ?_,
                  List.take_prefix _ _⟩
                · rw [htake]
                  exact contentLength_eq_ok_iff.mp hlength
                · rw [htake]
                  exact Nat.le_of_not_lt hbody
  · rintro ⟨before, after, hcut, rfl, hannounced, hbody, more, rfl⟩
    rw [readWhole_of_announces hcut hannounced hbody, if_neg (by simp), List.take_left]

/-! ## Any cuts -/

/-- The bytes of a request in the reads of a connection, none of which is empty or holds more than
is asked for. -/
structure Arrives (raw : Bytes) (reads : List Bytes) : Prop where
  flatten_eq : reads.flatten = raw
  sizes : ∀ read ∈ reads, read ≠ [] ∧ read.length ≤ readSize

theorem Arrives.ne_nil (h : Arrives raw reads) : ∀ read ∈ reads, read ≠ [] :=
  fun read hread => (h.sizes read hread).1

/-- Every read but the last may bring all that is asked for. -/
theorem arrives_reads {size : Nat} (hpos : 0 < size) (hsize : size ≤ readSize) (raw : Bytes) :
    Arrives raw (Bytes.reads size raw) :=
  ⟨flatten_reads size raw, fun _ hread => ⟨ne_nil_of_mem_reads hread,
    (length_le_of_mem_reads hpos hread).trans hsize⟩⟩

/-- The head of a request, with the first empty line, ends within so many bytes. -/
def EndsWithin (bound : Nat) (raw : Bytes) : Prop :=
  ∃ before after, IsFirstCut emptyLine raw before after ∧ before.length + 4 ≤ bound

/-- The head of a request ends within the limit, or the input does without an end of the head. -/
def FitsHead (raw : Bytes) : Prop :=
  EndsWithin maxHead raw ∨ ¬ emptyLine <:+: raw ∧ raw.length ≤ maxHead

theorem FitsHead.not_overruns (h : FitsHead raw) (harrives : Arrives raw reads) :
    ¬ Overruns [] reads := by
  obtain ⟨rfl, -⟩ := harrives
  obtain ⟨before, after, hcut, hlen⟩ | ⟨-, hlen⟩ := h
  · exact not_overruns_of_le hcut hlen
  · rintro ⟨front, ⟨more, rfl⟩, hlong, -⟩
    rw [List.nil_append] at hlong
    rw [List.flatten_append, List.length_append] at hlen
    omega

/-- A request whose head fits is read in the same way however it is cut into reads, also into those
of the greatest size. Without an end of the head, or with fewer bytes behind it than are announced,
it is refused. Otherwise its head is what comes before the first empty line, with the end of its
last line, and its body the bytes behind, as many as are announced. -/
theorem receives_alike (hfits : FitsHead raw) (harrives : Arrives raw reads) :
    receive reads = receive (Bytes.reads readSize raw) ∧
      (¬ emptyLine <:+: raw → receive reads = .error 400) ∧
      (∀ before after length, IsFirstCut emptyLine raw before after →
        Announces (before ++ crlf) length → length ≤ maxBody → after.length < length →
        receive reads = .error 400) ∧
      ∀ head body, receive reads = .ok (head, body) ↔
        ∃ before after, IsFirstCut emptyLine raw before after ∧ head = before ++ crlf ∧
          Announces head body.length ∧ body.length ≤ maxBody ∧ body <+: after := by
  have hwhole : ∀ {reads}, Arrives raw reads → receive reads = readWhole raw := by
    intro reads harrives
    rw [receive_of_not_overruns harrives.ne_nil (hfits.not_overruns harrives), harrives.flatten_eq]
  have hlargest : Arrives raw (Bytes.reads readSize raw) :=
    arrives_reads (by decide) (Nat.le_refl _) raw
  refine ⟨(hwhole harrives).trans (hwhole hlargest).symm, ?_, ?_, ?_⟩
  · intro hopen
    rw [hwhole harrives, readWhole_of_open hopen]
  · intro before after length hcut hannounced hbody hfew
    rw [hwhole harrives, readWhole_of_announces hcut hannounced hbody, if_pos hfew]
  · intro head body
    rw [hwhole harrives, readWhole_eq_ok_iff]

/-- Reads of three bytes, which tear both the end of the head and the body. -/
theorem receives_alike_threes :
    let raw := ascii "POST / HTTP/1.1\r\nContent-Length: 9\r\ncontent-length:2\r\n\r\nokGET"
    receive (Bytes.reads 3 raw) = receive (Bytes.reads readSize raw) ∧
      receive (Bytes.reads 3 raw) = .ok
        (ascii "POST / HTTP/1.1\r\nContent-Length: 9\r\ncontent-length:2\r\n", ascii "ok") := by
  intro raw
  have hcut : IsFirstCut emptyLine raw
      (ascii "POST / HTTP/1.1\r\nContent-Length: 9\r\ncontent-length:2") (ascii "okGET") :=
    cutAtMark?_eq_some_iff.mp (by decide)
  have hfits : FitsHead raw := .inl ⟨_, _, hcut, by decide⟩
  have harrives : Arrives raw (Bytes.reads 3 raw) :=
    arrives_reads (by decide) (by decide) raw
  obtain ⟨hsame, -, -, hread⟩ := receives_alike hfits harrives
  refine ⟨hsame, (hread _ _).mpr ⟨_, _, hcut, by decide, ?_, by decide, ?_⟩⟩
  · exact contentLength_eq_ok_iff.mp (by decide)
  · exact ⟨ascii "GET", by decide⟩

end Http

end ResolverLog
