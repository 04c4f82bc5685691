import Mathlib.Order.OrderIsoNat
import ResolverLog.Proofs.Feeding

/-!
# Handing lines over

A reader pushes the lines of its input into a bounded queue, and another party
pops them. A stream arrives in reads that end anywhere, and what they bring of
a line waits for the rest of it; a file is there at once. Whenever the two take
their turns, and however little room there is, the queue takes the lines that
`Feed.ofStream` and `Feed.ofFile` deliver and is closed behind them.

## Implementation notes

A party that has to wait has no turn: the answer of `Queue.push?` or `Queue.pop?`
is `none`. Both readers offer their lines in one way, the one of a file with
nothing left to read.
-/

namespace ResolverLog

/-- A reader, the queue that it fills, and what is popped on the other side. -/
structure Handover where
  /-- The bytes that have been read but not handed over. -/
  pending : Bytes
  /-- The reads that are still to come; behind the last one the input ends. -/
  reads : List Bytes
  queue : Queue Bytes
  /-- How many lines the queue has taken from the reader. -/
  count : Nat
  /-- The reader has given back the count. -/
  isOver : Bool
  popped : List Bytes
  deriving DecidableEq, Repr

namespace Handover

open Bytes
open Relation (ReflTransGen)

variable {x y : Handover} {q : Queue Bytes} {line rest : Bytes} {found : List Bytes}

/-- Before the first read of a stream. -/
def ofStream (q : Queue Bytes) (reads : List Bytes) : Handover :=
  ⟨[], reads, q, 0, false, []⟩

/-- Before the first line of a file. -/
def ofFile (q : Queue Bytes) (content : Bytes) : Handover :=
  ⟨content, [], q, 0, false, []⟩

/-- The next line and the bytes behind it. Without a newline there is one at the end of the input
only, and only if it is not empty. -/
def offer? (x : Handover) : Option (Bytes × Bytes) :=
  match cutAt? newline x.pending with
  | some cut => some cut
  | none => if x.reads = [] ∧ x.pending ≠ [] then some (x.pending, []) else none

/-- One turn of one of the parties. -/
inductive Step : Handover → Handover → Prop
  /-- The reader reads on when it has no line to offer. -/
  | read {x : Handover} {read : Bytes} {reads : List Bytes} (running : x.isOver = false)
      (nothing : x.offer? = none) (coming : x.reads = read :: reads) :
      Step x { x with pending := x.pending ++ read, reads }
  /-- The reader hands a line over, once there is room for it. -/
  | hand {x : Handover} {line rest : Bytes} {queue : Queue Bytes} (running : x.isOver = false)
      (offered : x.offer? = some (line, rest)) (pushed : x.queue.push? line = some (queue, true)) :
      Step x { x with pending := rest, queue, count := x.count + 1 }
  /-- The queue refuses a line, and the reader gives up. -/
  | giveUp {x : Handover} {line rest : Bytes} {queue : Queue Bytes} (running : x.isOver = false)
      (offered : x.offer? = some (line, rest))
      (refused : x.queue.push? line = some (queue, false)) :
      Step x { x with queue := queue.close, isOver := true }
  /-- The reader has come to the end of its input. -/
  | finish {x : Handover} (running : x.isOver = false) (nothing : x.offer? = none)
      (ended : x.reads = []) : Step x { x with queue := x.queue.close, isOver := true }
  /-- The other party takes a line, once there is one. -/
  | take {x : Handover} {line : Bytes} {queue : Queue Bytes}
      (popped : x.queue.pop? = some (queue, some line)) :
      Step x { x with queue, popped := x.popped ++ [line] }

/-! ## What is still to be handed over -/

/-- The lines of the input that have not been handed over. -/
def unread (x : Handover) : List Bytes :=
  lines (x.pending ++ x.reads.flatten)

/-- What is offered is the first of the lines that are left. -/
theorem unread_of_offer? (h : x.offer? = some (line, rest)) :
    x.unread = line :: lines (rest ++ x.reads.flatten) := by
  rw [offer?] at h
  split at h
  · rename_i cut hcut
    cases h
    obtain ⟨hpending, hline⟩ := cutAt?_eq_some_iff.mp hcut
    rw [unread, hpending, List.append_assoc, List.cons_append, lines, terminated_append_cons hline]
    rfl
  · rename_i hcut
    split at h
    · rename_i hend
      cases h
      have hline : newline ∉ x.pending := fun hmem => by
        obtain ⟨front, tail, hpending, hfront⟩ := List.eq_append_cons_of_mem hmem
        rw [hpending, cutAt?_append_cons hfront] at hcut
        cases hcut
      rw [unread, hend.1, List.flatten_nil, List.append_nil, lines_of_notMem hline]
      simp [hend.2, lines, terminated_nil]
    · cases h

/-- At the end of the input nothing is left unless it is offered. -/
theorem unread_of_not_offer? (h : x.offer? = none) (hreads : x.reads = []) : x.unread = [] := by
  rw [offer?] at h
  split at h
  · cases h
  · split at h
    · cases h
    · rename_i hend
      have hpending : x.pending = [] := by simpa [hreads] using hend
      rw [unread, hpending, hreads]
      rfl

/-- The lines that the queue will still take. -/
def due (x : Handover) : List Bytes :=
  if x.queue.closed then [] else x.unread

theorem due_of_closed (h : x.queue.closed = true) : x.due = [] :=
  if_pos h

theorem due_of_open (h : x.queue.closed = false) : x.due = x.unread :=
  if_neg (Bool.not_eq_true _ ▸ h)

/-! ## Accounts of a run -/

/-- The queue, which was `q` at the beginning, has taken the first of the lines found and will
take the others. It is closed if it was at the beginning or if the reader is through. -/
structure Accounts (q : Queue Bytes) (found : List Bytes) (x : Handover) : Prop where
  room : 0 < x.queue.capacity
  closed_eq : x.queue.closed = (q.closed || x.isOver)
  taken : ∃ taken, found = taken ++ x.due ∧ x.popped ++ x.queue.items = q.items ++ taken ∧
    x.count = taken.length

/-- Every turn keeps account of the lines. -/
theorem Accounts.step (h : x.Accounts q found) (hstep : Step x y) : y.Accounts q found := by
  obtain ⟨hroom, hclosed, taken, hfound, hitems, hcount⟩ := h
  cases hstep with
  | read running nothing coming =>
      refine ⟨hroom, hclosed, taken, ?_, hitems, hcount⟩
      rw [hfound, due, due, unread, unread, coming, List.flatten_cons, List.append_assoc]
  | hand running offered pushed =>
      rename_i line rest queue
      obtain ⟨hopen, rfl⟩ := Queue.push?_eq_some pushed
      refine ⟨hroom, hclosed, taken ++ [line], ?_, ?_, ?_⟩
      · rw [hfound, due, due, hopen, if_neg Bool.false_ne_true, if_neg Bool.false_ne_true,
          unread_of_offer? offered, unread, List.append_assoc, List.singleton_append]
      · rw [← List.append_assoc, hitems, List.append_assoc]
      · rw [hcount, List.length_append, List.length_singleton]
  | giveUp running offered refused =>
      obtain ⟨hshut, rfl⟩ := Queue.push?_eq_refused refused
      refine ⟨hroom, (Bool.or_true _).symm, taken, ?_, hitems, hcount⟩
      rw [hfound, due_of_closed hshut, due_of_closed rfl]
  | finish running nothing ended =>
      refine ⟨hroom, (Bool.or_true _).symm, taken, ?_, hitems, hcount⟩
      rw [hfound, due, unread_of_not_offer? nothing ended, ite_self, due_of_closed rfl]
  | take popped =>
      rename_i line queue
      obtain ⟨hfirst, hcapacity, hsame⟩ := Queue.pop?_eq_some popped
      refine ⟨hcapacity.symm ▸ hroom, hsame.trans hclosed, taken, ?_, ?_, hcount⟩
      · rw [hfound, due, due, hsame]
        rfl
      · rw [List.append_assoc, List.singleton_append, ← hfirst, hitems]

/-- A whole run keeps account of the lines. -/
theorem Accounts.run (h : x.Accounts q found) (hrun : ReflTransGen Step x y) :
    y.Accounts q found := by
  induction hrun with
  | refl => exact h
  | tail _ hstep ih => exact ih.step hstep

/-- When the reader is through, the queue has taken all lines. -/
theorem Accounts.of_isOver (h : x.Accounts q found) (hover : x.isOver = true) :
    x.queue.closed = true ∧ x.popped ++ x.queue.items = q.items ++ found ∧
      x.count = found.length := by
  obtain ⟨-, hclosed, taken, hfound, hitems, hcount⟩ := h
  rw [hover, Bool.or_true] at hclosed
  rw [due_of_closed hclosed, List.append_nil] at hfound
  exact ⟨hclosed, hfound ▸ hitems, hfound ▸ hcount⟩

/-! ## Coming to an end -/

/-- How many turns there are still at most. A line is handed over and popped. -/
def left (x : Handover) : Nat :=
  x.queue.items.length + if x.isOver then 0 else 2 * x.unread.length + x.reads.length + 1

theorem left_lt_of_step (h : Step x y) : y.left < x.left := by
  cases h with
  | read running nothing coming =>
      simp only [left, unread, running, coming, Bool.false_eq_true, reduceIte, List.flatten_cons,
        List.append_assoc, List.length_cons]
      omega
  | hand running offered pushed =>
      obtain ⟨-, rfl⟩ := Queue.push?_eq_some pushed
      have hunread := congrArg List.length (unread_of_offer? offered)
      rw [unread, List.length_cons] at hunread
      simp only [left, unread, hunread, running, Bool.false_eq_true, reduceIte, List.length_append,
        List.length_singleton]
      omega
  | giveUp running offered refused =>
      obtain ⟨-, rfl⟩ := Queue.push?_eq_refused refused
      simp only [left, running, Bool.false_eq_true, reduceIte, Queue.close]
      omega
  | finish running nothing ended =>
      simp only [left, running, Bool.false_eq_true, reduceIte, Queue.close]
      omega
  | take popped =>
      simp only [left, (Queue.pop?_eq_some popped).1, List.length_cons, unread]
      omega

/-- No run goes on for ever. -/
theorem not_forall_step (run : Nat → Handover) : ¬ ∀ n, Step (run n) (run (n + 1)) := by
  intro hsteps
  refine not_strictAnti_of_wellFoundedLT (fun n => (run n).left) ?_
  exact strictAnti_nat_of_succ_lt fun n => left_lt_of_step (hsteps n)

/-- Where nobody has a turn left, the reader is through and everything has been popped. -/
theorem Accounts.of_not_step (h : x.Accounts q found) (hstuck : ∀ y, ¬ Step x y) :
    x.isOver = true ∧ x.queue.items = [] := by
  have hempty : x.queue.items = [] := by
    cases hitems : x.queue.items with
    | nil => rfl
    | cons line items => exact absurd (.take (Queue.pop?_of_items hitems)) (hstuck _)
  refine ⟨?_, hempty⟩
  by_contra hover
  rw [Bool.not_eq_true] at hover
  cases hoffer : x.offer? with
  | none =>
      cases hreads : x.reads with
      | nil => exact hstuck _ (.finish hover hoffer hreads)
      | cons read reads => exact hstuck _ (.read hover hoffer hreads)
  | some offer =>
      obtain ⟨line, rest⟩ := offer
      cases hclosed : x.queue.closed with
      | true => exact hstuck _ (.giveUp hover hoffer (Queue.push?_of_closed line hclosed))
      | false =>
          have hroom : x.queue.items.length < x.queue.capacity := by
            rw [hempty]
            exact h.room
          exact hstuck _ (.hand hover hoffer (Queue.push?_of_room line hclosed hroom))

/-! ## Both readers -/

/-- From here on the lines of the delivery are handed over, whatever turns are taken. -/
structure Delivers (x : Handover) (d : Feed.Delivery) : Prop where
  /-- At any time the queue has taken the first of the lines, behind those that it had. -/
  taken : ∀ y, ReflTransGen Step x y → ∃ taken, taken <+: d.lines ∧
    y.popped ++ y.queue.items = x.queue.items ++ taken ∧ y.count = taken.length
  /-- When the reader is through, the queue has taken all of them and is closed, and the count
  is the right one. -/
  all : ∀ y, ReflTransGen Step x y → y.isOver = true → y.queue.closed = true ∧
    y.popped ++ y.queue.items = x.queue.items ++ d.lines ∧ y.count = d.count
  ends : ¬ ∃ run : Nat → Handover, run 0 = x ∧ ∀ n, Step (run n) (run (n + 1))
  /-- A run that does not go on has come to its end on both sides. -/
  through : ∀ y, ReflTransGen Step x y → (∀ z, ¬ Step y z) → y.isOver = true ∧ y.queue.items = []

theorem Accounts.delivers (h : x.Accounts x.queue found) : x.Delivers ⟨found, found.length⟩ where
  taken y hrun := by
    obtain ⟨taken, hfound, htaken⟩ := (h.run hrun).taken
    exact ⟨taken, ⟨y.due, hfound.symm⟩, htaken⟩
  all y hrun := (h.run hrun).of_isOver
  ends := fun ⟨run, _, hsteps⟩ => not_forall_step run hsteps
  through y hrun := (h.run hrun).of_not_step

/-- A reader that begins delivers what is due then. -/
theorem delivers_due (hroom : 0 < x.queue.capacity) (hbegin : x.isOver = false)
    (hcount : x.count = 0) (hpopped : x.popped = []) : x.Delivers ⟨x.due, x.due.length⟩ := by
  refine Accounts.delivers ⟨hroom, ?_, [], rfl, ?_, hcount⟩
  · rw [hbegin, Bool.or_false]
  · rw [hpopped, List.nil_append, List.append_nil]

theorem due_ofStream (q : Queue Bytes) (reads : List Bytes) :
    (ofStream q reads).due = (ofFile q reads.flatten).due := by
  rw [due, due, unread, unread, ofStream, ofFile, List.nil_append, List.flatten_nil,
    List.append_nil]

/-- What a file delivers to a queue is due at the beginning. -/
theorem ofFile_eq_due (q : Queue Bytes) (content : Bytes) :
    Feed.ofFile false q.closed content
      = ⟨(ofFile q content).due, (ofFile q content).due.length⟩ := by
  rw [due, unread, ofFile, List.flatten_nil, List.append_nil, Feed.ofFile, Bool.false_or]
  split
  · rfl
  · rfl

/-- Both readers deliver the same lines to a queue, however it is emptied and the stream is cut:
the whole lines of the input, empty ones included, and what is behind the last newline unless it is
empty. To a queue that is closed before they deliver nothing. -/
theorem delivers_same_lines (q : Queue Bytes) (hroom : 0 < q.capacity) (reads : List Bytes) :
    let d := Feed.ofStream false q.closed reads
    Feed.ofFile false q.closed reads.flatten = d ∧ d.count = d.lines.length ∧
      (ofStream q reads).Delivers d ∧ (ofFile q reads.flatten).Delivers d ∧
      (q.closed = true → d.lines = []) ∧
      (q.closed = false → ∃ whole last, reads.flatten = ofLines whole ++ last ∧
        (∀ line ∈ whole, newline ∉ line) ∧ newline ∉ last ∧
        d.lines = whole ++ [last].filter (· ≠ [])) := by
  intro d
  have hsame : d = Feed.ofFile false q.closed reads.flatten :=
    Feed.ofStream_eq_ofFile false q.closed reads
  have hstream := delivers_due (x := ofStream q reads) hroom rfl rfl rfl
  have hfile := delivers_due (x := ofFile q reads.flatten) hroom rfl rfl rfl
  rw [due_ofStream] at hstream
  rw [hsame, ofFile_eq_due]
  refine ⟨rfl, rfl, hstream, hfile, due_of_closed (x := ofFile q reads.flatten), fun hopen => ?_⟩
  obtain ⟨whole, last, htext, hwhole, hlast⟩ := exists_eq_ofLines_append reads.flatten
  refine ⟨whole, last, htext, hwhole, hlast, ?_⟩
  calc
    (ofFile q reads.flatten).due = lines (ofLines whole ++ last) := by
      rw [due_of_open hopen, unread, ofFile, List.flatten_nil, List.append_nil, htext]
    _ = whole ++ lines last := lines_ofLines_append hwhole last
    _ = whole ++ [last].filter (· ≠ []) := by rw [lines_of_notMem hlast]

/-- A queue with room for one line, and reads that tear an empty line from the one before it and
the last line in two. -/
theorem delivers_same_lines_torn :
    let reads := [ascii "a\n", ascii "\nb", ascii "c"]
    let d : Feed.Delivery := ⟨[ascii "a", [], ascii "bc"], 3⟩
    (ofStream (.empty 1) reads).Delivers d ∧ (ofFile (.empty 1) reads.flatten).Delivers d := by
  intro reads d
  obtain ⟨-, -, hstream, hfile, -, -⟩ :=
    delivers_same_lines (.empty 1) (Queue.capacity_empty 1) reads
  have hlines : Feed.ofStream false (Queue.empty 1 : Queue Bytes).closed reads = d := by
    decide
  rw [hlines] at hstream hfile
  exact ⟨hstream, hfile⟩

end Handover

end ResolverLog
