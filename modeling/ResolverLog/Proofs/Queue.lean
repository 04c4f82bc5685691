import Mathlib.Data.List.Basic
import ResolverLog.Queue

/-!
# Calls of a queue

The calls that reach a bounded queue come one after another, whoever makes them.
As long as none of them has to wait, what has been popped and what is still queued
are together the items that the queue has taken, in their order, and there are
never more queued than fit. Closing lets nothing further in: what is left comes
out in its order, and behind it a pop finds nothing and writes nothing.

## Implementation notes

A pop is given the variable of its caller, which it writes only if it finds an
item. What a call does is said once, by `Turn`, and everything else follows from
its five cases.
-/

namespace ResolverLog

namespace Queue

variable {α : Type} {q q' : Queue α} {item out : α}

/-- What is pushed comes last; a closed queue takes nothing. -/
theorem push?_eq_some (h : q.push? item = some (q', true)) :
    q.closed = false ∧ q' = { q with items := q.items ++ [item] } := by
  rw [push?] at h
  split at h
  · cases h
  · rename_i hopen
    split at h
    · cases h
      exact ⟨Bool.eq_false_iff.mpr hopen, rfl⟩
    · cases h

/-- Only a closed queue refuses. -/
theorem push?_eq_refused (h : q.push? item = some (q', false)) : q.closed = true ∧ q' = q := by
  rw [push?] at h
  split at h
  · rename_i hclosed
    cases h
    exact ⟨hclosed, rfl⟩
  · split at h
    · cases h
    · cases h

/-- What is popped stood first. -/
theorem pop?_eq_some (h : q.pop? = some (q', some item)) :
    q.items = item :: q'.items ∧ q'.capacity = q.capacity ∧ q'.closed = q.closed := by
  rw [pop?] at h
  split at h
  · rename_i hitems
    cases h
    exact ⟨hitems, rfl, rfl⟩
  · split at h
    · cases h
    · cases h

/-- An open queue with room takes an item. -/
theorem push?_of_room (item : α) (hopen : q.closed = false) (h : q.items.length < q.capacity) :
    q.push? item = some ({ q with items := q.items ++ [item] }, true) := by
  rw [push?, hopen, if_neg Bool.false_ne_true, if_pos h]

theorem push?_of_closed (item : α) (h : q.closed = true) : q.push? item = some (q, false) := by
  rw [push?, if_pos h]

theorem pop?_of_items {items : List α} (h : q.items = item :: items) :
    q.pop? = some ({ q with items }, some item) := by
  rw [pop?, h]

theorem pop?_of_drained (h : q.items = []) (hclosed : q.closed = true) :
    q.pop? = some (q, none) := by
  rw [pop?, h]
  exact if_pos hclosed

theorem capacity_empty (capacity : Nat) : 0 < (Queue.empty capacity : Queue α).capacity :=
  Nat.le_max_left 1 capacity

/-! ## Calls -/

/-- What a queue is asked for. A pop comes with what the variable of its caller holds. -/
inductive Call (α : Type)
  | push (item : α)
  | pop (out : α)
  | close
  deriving DecidableEq, Repr

/-- How a call returns: a push with the item that was or was not taken, a pop with what the
variable of its caller holds afterwards. -/
inductive Return (α : Type)
  | pushed (item : α) (taken : Bool)
  | popped (found : Bool) (out : α)
  | closed
  deriving DecidableEq, Repr

/-- Makes a call, which does not return as long as it has to wait. -/
def call? (q : Queue α) : Call α → Option (Queue α × Return α)
  | .push item => (q.push? item).map fun (q, taken) => (q, .pushed item taken)
  | .pop out => q.pop?.map fun (q, found) => (q, .popped found.isSome (found.getD out))
  | .close => some (q.close, .closed)

/-- Makes calls one after another. -/
def callAll? (q : Queue α) : List (Call α) → Option (Queue α × List (Return α))
  | [] => some (q, [])
  | call :: calls =>
    (q.call? call).bind fun (next, answer) =>
      (next.callAll? calls).map fun (last, answers) => (last, answer :: answers)

/-- A push waits for room and a pop for an item, both until the queue is closed. -/
def Waits (q : Queue α) : Call α → Prop
  | .push _ => q.closed = false ∧ q.capacity ≤ q.items.length
  | .pop _ => q.closed = false ∧ q.items = []
  | .close => False

/-- What a call does that does not have to wait. -/
inductive Turn (q : Queue α) : Call α → Queue α → Return α → Prop
  | take {item : α} (opened : q.closed = false) (room : q.items.length < q.capacity) :
      Turn q (.push item) { q with items := q.items ++ [item] } (.pushed item true)
  | refuse {item : α} (shut : q.closed = true) : Turn q (.push item) q (.pushed item false)
  | give {item out : α} {items : List α} (first : q.items = item :: items) :
      Turn q (.pop out) { q with items } (.popped true item)
  | lack {out : α} (shut : q.closed = true) (drained : q.items = []) :
      Turn q (.pop out) q (.popped false out)
  | close : Turn q .close q.close .closed

variable {call : Call α} {calls : List (Call α)} {answer : Return α} {answers : List (Return α)}

theorem Turn.call?_eq (h : q.Turn call q' answer) : q.call? call = some (q', answer) := by
  cases h with
  | take opened room => simp only [call?, push?_of_room _ opened room, Option.map_some]
  | refuse shut => simp only [call?, push?_of_closed _ shut, Option.map_some]
  | give first => simp [call?, pop?_of_items first]
  | lack shut drained => simp [call?, pop?_of_drained drained shut]
  | close => rfl

/-- A call that does not have to wait has its turn. -/
theorem exists_turn (h : ¬ q.Waits call) : ∃ q' answer, q.Turn call q' answer := by
  cases call with
  | push item =>
      cases hclosed : q.closed with
      | true => exact ⟨_, _, .refuse hclosed⟩
      | false => exact ⟨_, _, .take hclosed (Nat.not_le.mp fun hfull => h ⟨hclosed, hfull⟩)⟩
  | pop out =>
      cases hitems : q.items with
      | cons item items => exact ⟨_, _, .give hitems⟩
      | nil =>
          have hclosed : q.closed = true :=
            (Bool.not_eq_false _).mp fun hopen => h ⟨hopen, hitems⟩
          exact ⟨_, _, .lack hclosed hitems⟩
  | close => exact ⟨_, _, .close⟩

/-- Only a call that has to wait does not return. -/
theorem call?_eq_none (h : q.Waits call) : q.call? call = none := by
  cases call with
  | push item =>
      rw [call?, push?, h.1, if_neg Bool.false_ne_true, if_neg (Nat.not_lt.mpr h.2)]
      rfl
  | pop out =>
      rw [call?, pop?, h.2, h.1]
      rfl
  | close => exact h.elim

theorem turn_of_call? (h : q.call? call = some (q', answer)) : q.Turn call q' answer := by
  have hgoes : ¬ q.Waits call := fun hwaits => by
    rw [call?_eq_none hwaits] at h
    cases h
  obtain ⟨next, given, hturn⟩ := exists_turn hgoes
  rw [hturn.call?_eq] at h
  cases h
  exact hturn

/-- Calls one after another, none of which has to wait. -/
def Proceeds (q : Queue α) : List (Call α) → Prop
  | [] => True
  | call :: calls => ¬ q.Waits call ∧
      ∀ q' answer, q.call? call = some (q', answer) → q'.Proceeds calls

/-- Calls return unless one of them has to wait. -/
theorem exists_callAll?_iff :
    (∃ q' answers, q.callAll? calls = some (q', answers)) ↔ q.Proceeds calls := by
  induction calls generalizing q with
  | nil => exact ⟨fun _ => trivial, fun _ => ⟨q, [], rfl⟩⟩
  | cons call calls ih =>
      rw [Proceeds, callAll?]
      by_cases hwaits : q.Waits call
      · simp [call?_eq_none hwaits, hwaits]
      · obtain ⟨next, answer, hturn⟩ := exists_turn hwaits
        simp only [hturn.call?_eq, Option.bind_some, hwaits, not_false_eq_true, true_and,
          Option.some.injEq, Prod.mk.injEq]
        constructor
        · rintro ⟨q', answers, hcalls⟩ _ _ ⟨rfl, -⟩
          obtain ⟨⟨last, rest⟩, hrest, -⟩ := Option.map_eq_some_iff.mp hcalls
          exact ih.mp ⟨last, rest, hrest⟩
        · intro hnext
          obtain ⟨last, rest, hrest⟩ := ih.mpr (hnext next answer ⟨rfl, rfl⟩)
          exact ⟨last, answer :: rest, by rw [hrest]; rfl⟩

/-- The first of several calls has its turn, and the others follow. -/
theorem callAll?_cons (h : q.callAll? (call :: calls) = some (q', answers)) :
    ∃ next answer more, q.Turn call next answer ∧ next.callAll? calls = some (q', more) ∧
      answers = answer :: more := by
  rw [callAll?] at h
  obtain ⟨⟨next, answer⟩, hcall, hmap⟩ := Option.bind_eq_some_iff.mp h
  obtain ⟨⟨last, more⟩, hmore, heq⟩ := Option.map_eq_some_iff.mp hmap
  cases heq
  exact ⟨next, answer, more, turn_of_call? hcall, hmore, rfl⟩

/-- Calls can be looked at from any point between them. -/
theorem callAll?_append {before after : List (Call α)}
    (h : q.callAll? (before ++ after) = some (q', answers)) :
    ∃ middle early late, q.callAll? before = some (middle, early) ∧
      middle.callAll? after = some (q', late) ∧ answers = early ++ late := by
  induction before generalizing q answers with
  | nil => exact ⟨q, [], answers, rfl, h, rfl⟩
  | cons call before ih =>
      obtain ⟨next, answer, more, hturn, hmore, rfl⟩ := callAll?_cons h
      obtain ⟨middle, early, late, hearly, hlate, rfl⟩ := ih hmore
      refine ⟨middle, answer :: early, late, ?_, hlate, rfl⟩
      simp only [callAll?, hturn.call?_eq, Option.bind_some, hearly, Option.map_some]

/-! ## What goes in and what comes out -/

/-- The item that a push put into the queue. -/
def Return.taken? : Return α → Option α
  | .pushed item true => some item
  | _ => none

/-- The item that a pop took out of the queue. -/
def Return.found? : Return α → Option α
  | .popped true item => some item
  | _ => none

/-- The items that the queue has taken. -/
def accepted (answers : List (Return α)) : List α :=
  answers.filterMap Return.taken?

/-- The items that have been popped. -/
def popped (answers : List (Return α)) : List α :=
  answers.filterMap Return.found?

/-- A call takes from the front of the queue what it gives, and puts to its end what it takes. -/
theorem Turn.conserves (h : q.Turn call q' answer) :
    popped [answer] ++ q'.items = q.items ++ accepted [answer] := by
  cases h with
  | take opened room => rfl
  | refuse shut => exact (List.append_nil _).symm
  | give first => simp [popped, accepted, Return.found?, Return.taken?, first]
  | lack shut drained => exact (List.append_nil _).symm
  | close => exact (List.append_nil _).symm

/-- Over any calls nothing is lost, doubled or overtaken. -/
theorem conserves_of_callAll? (h : q.callAll? calls = some (q', answers)) :
    popped answers ++ q'.items = q.items ++ accepted answers := by
  induction calls generalizing q answers with
  | nil =>
      cases h
      exact (List.append_nil _).symm
  | cons call calls ih =>
      obtain ⟨next, answer, more, hturn, hmore, rfl⟩ := callAll?_cons h
      have hsplit : ∀ f : Return α → Option α,
          (answer :: more).filterMap f = [answer].filterMap f ++ more.filterMap f :=
        fun f => List.filterMap_append (l := [answer])
      calc
        popped (answer :: more) ++ q'.items
            = popped [answer] ++ (popped more ++ q'.items) := by
          rw [popped, hsplit, List.append_assoc, popped, popped]
        _ = (popped [answer] ++ next.items) ++ accepted more := by
          rw [ih hmore, List.append_assoc]
        _ = q.items ++ (accepted [answer] ++ accepted more) := by
          rw [hturn.conserves, List.append_assoc]
        _ = q.items ++ accepted (answer :: more) := by
          rw [accepted, accepted, accepted, ← hsplit]

/-- A call leaves the capacity as it is and keeps within it. -/
theorem Turn.fits (h : q.Turn call q' answer) :
    q'.capacity = q.capacity ∧
      (q.items.length ≤ q.capacity → q'.items.length ≤ q.capacity) := by
  cases h with
  | take opened room =>
      refine ⟨rfl, fun _ => ?_⟩
      rw [List.length_append, List.length_singleton]
      exact room
  | refuse shut => exact ⟨rfl, id⟩
  | give first =>
      refine ⟨rfl, fun hfits => ?_⟩
      rw [first] at hfits
      exact Nat.le_of_succ_le hfits
  | lack shut drained => exact ⟨rfl, id⟩
  | close => exact ⟨rfl, id⟩

theorem fits_of_callAll? (h : q.callAll? calls = some (q', answers))
    (hfits : q.items.length ≤ q.capacity) :
    q'.capacity = q.capacity ∧ q'.items.length ≤ q.capacity := by
  induction calls generalizing q answers with
  | nil =>
      cases h
      exact ⟨rfl, hfits⟩
  | cons call calls ih =>
      obtain ⟨next, answer, more, hturn, hmore, -⟩ := callAll?_cons h
      obtain ⟨hcapacity, hnext⟩ := hturn.fits
      rw [← hcapacity]
      exact ih hmore (hcapacity ▸ hnext hfits)

/-! ## Behind the close -/

/-- What the variable of a pop held before it. -/
def Call.out? : Call α → Option α
  | .pop out => some out
  | _ => none

/-- How a pop returned. -/
def Return.pop? : Return α → Option (Bool × α)
  | .popped found out => some (found, out)
  | _ => none

/-- The variables that the pops of some calls were given. -/
def outs (calls : List (Call α)) : List α :=
  calls.filterMap Call.out?

/-- The returns of the pops. -/
def pops (answers : List (Return α)) : List (Bool × α) :=
  answers.filterMap Return.pop?

/-- A pop that comes to an item brings it, and one behind all items leaves its variable alone. -/
def bring (out : α) : Option α → Bool × α
  | some item => (true, item)
  | none => (false, out)

/-- A queue that is closed takes nothing, stays closed, and gives its items one by one. -/
theorem Turn.of_closed (h : q.Turn call q' answer) (hclosed : q.closed = true) :
    q'.closed = true ∧ accepted [answer] = [] ∧
      q'.items = q.items.drop (outs [call]).length ∧
      pops [answer] = (outs [call]).map fun out => bring out q.items.head? := by
  cases h with
  | take opened room => exact absurd hclosed (Bool.eq_false_iff.mp opened)
  | refuse shut => exact ⟨hclosed, rfl, rfl, rfl⟩
  | give first =>
      refine ⟨hclosed, rfl, ?_, ?_⟩
      · rw [first]
        rfl
      · rw [first]
        rfl
  | lack shut drained =>
      refine ⟨hclosed, rfl, ?_, ?_⟩
      · rw [drained]
        rfl
      · rw [drained]
        rfl
  | close => exact ⟨rfl, rfl, rfl, rfl⟩

/-- Over any calls a closed queue takes nothing, and its pops bring what is left, the first pop the
first item, and then nothing. -/
theorem drains_of_callAll? (h : q.callAll? calls = some (q', answers)) (hclosed : q.closed = true) :
    accepted answers = [] ∧ q'.items = q.items.drop (outs calls).length ∧
      ∀ i : Nat, (pops answers)[i]? = (outs calls)[i]?.map fun out => bring out q.items[i]? := by
  induction calls generalizing q answers with
  | nil =>
      cases h
      exact ⟨rfl, rfl, fun i => rfl⟩
  | cons call calls ih =>
      obtain ⟨next, answer, more, hturn, hmore, rfl⟩ := callAll?_cons h
      obtain ⟨hshut, haccepted, hitems, hpops⟩ := hturn.of_closed hclosed
      obtain ⟨hnone, hleft, hreturns⟩ := ih hmore hshut
      have houts : outs (call :: calls) = outs [call] ++ outs calls :=
        List.filterMap_append (l := [call])
      have hall : pops (answer :: more) = pops [answer] ++ pops more :=
        List.filterMap_append (l := [answer])
      have htaken : accepted (answer :: more) = accepted [answer] ++ accepted more :=
        List.filterMap_append (l := [answer])
      refine ⟨?_, ?_, fun i => ?_⟩
      · rw [htaken, haccepted, hnone, List.append_nil]
      · rw [hleft, hitems, List.drop_drop, houts, List.length_append]
      · rw [hitems] at hreturns
        rw [hall, houts, hpops]
        cases call with
        | push item => exact hreturns i
        | close => exact hreturns i
        | pop out =>
            cases i with
            | zero => exact congrArg (fun item? => some (bring out item?)) List.head?_eq_getElem?
            | succ i => simpa [outs, Call.out?, Nat.add_comm 1 i] using hreturns i

/-- As long as no call has to wait, the calls that reach a new queue return. What has been popped
and what is still queued are together what the queue has taken, in its order, and the queued items
never exceed the capacity, which is at least one. From a close on each push is refused and leaves
no trace, and the pops bring one by one what was left, and then nothing, with their variables as
they were. -/
theorem delivers_in_order (capacity : Nat) (calls : List (Call α))
    (hcalls : (empty capacity).Proceeds calls) :
    ∃ q answers, (empty capacity).callAll? calls = some (q, answers) ∧
      popped answers ++ q.items = accepted answers ∧
      q.items.length ≤ max 1 capacity ∧
      ∀ before after, calls = before ++ .close :: after →
        ∃ left early late, (empty capacity).callAll? before = some (left, early) ∧
          answers = early ++ .closed :: late ∧
          (∀ item taken, .pushed item taken ∈ late → taken = false) ∧
          q.items = left.items.drop (outs after).length ∧
          ∀ i : Nat,
            (pops late)[i]? = (outs after)[i]?.map fun out => bring out left.items[i]? := by
  obtain ⟨q, answers, hall⟩ := exists_callAll?_iff.mpr hcalls
  have hempty : (empty capacity : Queue α).items.length ≤ (empty capacity : Queue α).capacity :=
    Nat.zero_le _
  refine ⟨q, answers, hall, conserves_of_callAll? hall, (fits_of_callAll? hall hempty).2, ?_⟩
  rintro before after rfl
  obtain ⟨left, early, rest, hearly, hrest, rfl⟩ := callAll?_append hall
  obtain ⟨shut, answer, late, hturn, hlate, rfl⟩ := callAll?_cons hrest
  cases hturn with
  | close =>
      obtain ⟨haccepted, hitems, hpops⟩ := drains_of_callAll? hlate rfl
      refine ⟨left, early, late, hearly, rfl, fun item taken hmem => ?_, hitems, hpops⟩
      cases taken with
      | false => rfl
      | true =>
          have hitem : item ∈ accepted late := List.mem_filterMap.mpr ⟨_, hmem, rfl⟩
          rw [haccepted] at hitem
          cases hitem

/-- Two items through a queue for one. It is closed with the second one inside, which comes out
before two pops find nothing. -/
theorem delivers_in_order_closedEarly :
    let calls : List (Call Nat) :=
      [.push 1, .pop 7, .push 2, .close, .push 3, .pop 7, .pop 8, .push 4, .pop 9]
    (empty 0).Proceeds calls ∧
    ∃ answers, (empty 0).callAll? calls = some (⟨1, [], true⟩, answers) ∧
      popped answers = [1, 2] ∧
      pops answers = [(true, 1), (true, 2), (false, 8), (false, 9)] := by
  intro calls
  have hcalls : (empty 0).Proceeds calls := exists_callAll?_iff.mp ⟨_, _, rfl⟩
  obtain ⟨q, answers, hall, -, -, -⟩ := delivers_in_order 0 calls hcalls
  cases hall
  exact ⟨hcalls, _, rfl, rfl, rfl⟩

end Queue

end ResolverLog
