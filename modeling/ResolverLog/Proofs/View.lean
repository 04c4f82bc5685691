import ResolverLog.Api
import ResolverLog.Proofs.Base64
import ResolverLog.Proofs.JsonWriting
import ResolverLog.Proofs.Runs

/-!
# What the JSON views denote

The log view denotes an array with one object for each entry, in their order.
An object has the members of its entry under different keys; the strings in it
are the texts of the entry, whatever bytes they have in them, and the answer is
read back from its base64 text. The statistics denote an object of three
objects, each with the ranked keys in their order.

## Implementation notes

Texts that come from outside are written with escapes. Times, names of types
and classes, answers, durations and reasons are written as they are, so they
need to be plain.
-/

namespace ResolverLog

namespace View

open Bytes

/-! ## Texts without escapes -/

/-- A text of characters that need no escape. -/
def IsPlainText (text : Bytes) : Prop :=
  ∀ b ∈ text, Json.isPlain b = true

namespace IsPlainText

variable {text more : Bytes} {b : UInt8}

theorem nil : IsPlainText [] :=
  nofun

theorem cons (hb : Json.isPlain b = true) (h : IsPlainText text) : IsPlainText (b :: text) :=
  List.forall_mem_cons.mpr ⟨hb, h⟩

theorem append (h : IsPlainText text) (hmore : IsPlainText more) : IsPlainText (text ++ more) :=
  List.forall_mem_append.mpr ⟨h, hmore⟩

theorem of_all (h : text.all Json.isPlain = true) : IsPlainText text :=
  List.all_eq_true.mp h

theorem subset (h : IsPlainText text) (hsub : more ⊆ text) : IsPlainText more :=
  fun _ hb => h _ (hsub hb)

end IsPlainText

theorem isPlain_of_isDigit {b : UInt8} (h : isDigit b = true) : Json.isPlain b = true := by
  grind [Json.isPlain, isDigit]

theorem isPlainText_ofNat (n : Nat) : IsPlainText (Decimal.ofNat n) := fun b hb =>
  isPlain_of_isDigit (List.all_eq_true.mp (Decimal.all_isDigit_ofNat n) b hb)

theorem isPlainText_padded (width n : Nat) : IsPlainText (Decimal.padded width n) :=
  fun _ hb => isPlain_of_isDigit (Decimal.isDigit_of_mem_padded hb)

theorem isPlainText_timestamp (time : Int64) : IsPlainText (Timestamp.text time) := by
  have hdate : ∀ d, IsPlainText (Timestamp.date d) := fun d =>
    ((isPlainText_padded 4 _).append (.cons (by decide) (isPlainText_padded 2 _))).append
      (.cons (by decide) (isPlainText_padded 2 _))
  have hclock : ∀ seconds, IsPlainText (Timestamp.clock seconds) := fun seconds =>
    ((isPlainText_padded 2 _).append (.cons (by decide) (isPlainText_padded 2 _))).append
      (.cons (by decide) (isPlainText_padded 2 _))
  exact (((hdate _).append (.cons (by decide) (hclock _))).append
    (.cons (by decide) (isPlainText_padded 9 _))).append (.cons (by decide) .nil)

theorem isPlain_symbol (v : UInt8) : Json.isPlain (Base64.symbol v) = true := by
  grind [Json.isPlain, Base64.symbol]

theorem isPlainText_encode : ∀ data : Bytes, IsPlainText (Base64.encode data)
  | [] => .nil
  | [_] => .cons (isPlain_symbol _) (.cons (isPlain_symbol _)
      (.cons (by decide) (.cons (by decide) .nil)))
  | [_, _] => .cons (isPlain_symbol _) (.cons (isPlain_symbol _)
      (.cons (isPlain_symbol _) (.cons (by decide) .nil)))
  | a :: b :: c :: rest => by
      rw [Base64.encode_cons]
      exact .cons (isPlain_symbol _) (.cons (isPlain_symbol _) (.cons (isPlain_symbol _)
        (.cons (isPlain_symbol _) (isPlainText_encode rest))))

theorem isPlainText_kind (kind : RecordType) : IsPlainText kind.name := by
  rw [RecordType.name]
  split
  · rename_i text _ hfind
    have htable : RecordType.table.all (fun entry => entry.1.all Json.isPlain) = true := by
      decide +kernel
    exact .of_all (List.all_eq_true.mp htable _ (List.mem_of_find?_eq_some hfind))
  · have htype : IsPlainText (ascii "TYPE") := .of_all (by decide +kernel)
    exact htype.append (isPlainText_ofNat _)

theorem isPlainText_className (qclass : UInt16) : IsPlainText (className qclass) := by
  rw [className]
  split
  · exact .of_all (by decide +kernel)
  · exact isPlainText_ofNat _

theorem isPlainText_reason (reason : Reason) : IsPlainText reason.name := by
  apply IsPlainText.of_all
  fun_cases Reason.name
  all_goals decide +kernel

theorem isPlainText_point {digits : Bytes} (h : IsPlainText digits) :
    IsPlainText (Binary64.point digits) := by
  rw [Binary64.point]
  split
  · exact .nil
  · exact .cons (by decide) h

theorem isPlainText_trimZeros {digits : Bytes} (h : IsPlainText digits) :
    IsPlainText (Binary64.trimZeros digits) := by
  refine h.subset fun b hb => ?_
  rw [Binary64.trimZeros, List.mem_reverse] at hb
  exact List.mem_reverse.mp (List.dropWhile_subset _ hb)

theorem isPlainText_general (x : Binary64) : IsPlainText x.general := by
  have hzero : IsPlainText (ascii "0") := .cons (by decide) .nil
  rw [Binary64.general]
  split
  · exact hzero
  · have hdigits := isPlainText_ofNat x.sixDigits.1
    have hfront : ∀ n, IsPlainText ((Decimal.ofNat x.sixDigits.1).take n) := fun n =>
      hdigits.subset (List.take_subset n _)
    have hback : ∀ n, IsPlainText (Binary64.trimZeros ((Decimal.ofNat x.sixDigits.1).drop n)) :=
      fun n => isPlainText_trimZeros (hdigits.subset (List.drop_subset n _))
    have hzeros : ∀ n, IsPlainText (List.replicate n 0x30) := fun n b hb => by
      rw [List.eq_of_mem_replicate hb]
      decide
    simp only
    split
    · exact (hfront _).append (isPlainText_point (hback _))
    · split
      · exact hzero.append (isPlainText_point ((hzeros _).append (isPlainText_trimZeros hdigits)))
      · refine ((hfront 1).append (isPlainText_point (hback 1))).append (.cons (by decide)
          (.cons ?_ (isPlainText_padded 2 _)))
        split
        · decide
        · decide

theorem isPlainText_milliseconds (elapsed : Int64) : IsPlainText (milliseconds elapsed) := by
  rw [milliseconds]
  split
  · exact .cons (by decide) (isPlainText_general _)
  · exact isPlainText_general _

/-! ## Members -/

open Json (Value Writes)

/-- The value of a member of an object. -/
def member? (key : Bytes) : Value → Option Value
  | .object members => members.lookup key
  | _ => none

section Members

variable {members : List (Bytes × Value)} {key : Bytes} {v : Value}

theorem member?_eq_some (hnodup : (members.map Prod.fst).Nodup) (h : (key, v) ∈ members) :
    member? key (.object members) = some v := by
  rw [member?]
  induction members with
  | nil => cases h
  | cons m members ih =>
      rw [List.map_cons, List.nodup_cons] at hnodup
      rcases List.mem_cons.mp h with rfl | h
      · exact List.lookup_cons_self
      · have hne : key ≠ m.1 := by
          rintro rfl
          exact hnodup.1 (List.mem_map.mpr ⟨_, h, rfl⟩)
        rw [List.lookup_cons, beq_false_of_ne hne]
        exact ih hnodup.2 h

theorem member?_eq_none (h : key ∉ members.map Prod.fst) :
    member? key (.object members) = none := by
  rw [member?, List.lookup_eq_none_iff]
  rintro m hm
  have hne : key ≠ m.1 := by
    rintro rfl
    exact h (List.mem_map_of_mem hm)
  exact bne_iff_ne.mpr hne

end Members

theorem writes_text (key text : Bytes) : Writes (.member key (.string text)) (View.text key text) :=
  (Json.writes_string text).member key

theorem writes_verbatim (key : Bytes) {text : Bytes} (h : IsPlainText text) :
    Writes (.member key (.string text)) (verbatim key text) :=
  (Json.writes_quoted h).member key

/-! ## Entries -/

/-- The members of a question. -/
def questionMembers (q : Question) : List (Bytes × Value) :=
  [(ascii "host", .string q.name), (ascii "type", .string q.kind.name),
    (ascii "class", .string (className q.qclass))]

theorem writes_question (q : Question) :
    Writes (.value (.object (questionMembers q))) (question q) :=
  Json.writes_object (.cons (writes_text _ _) (.cons (writes_verbatim _ (isPlainText_kind _))
    (.cons (writes_verbatim _ (isPlainText_className _)) .nil)))

/-- The question of an entry, if it has one. -/
def questionPart (e : Entry) : List (Bytes × Value) :=
  match Question.ofMessage? e.question with
  | some q => [(ascii "question", .object (questionMembers q))]
  | none => []

/-- The answer of an entry, if it has one. -/
def answerPart (e : Entry) : List (Bytes × Value) :=
  if e.answer.isEmpty then [] else [(ascii "answer", .string (Base64.encode e.answer))]

/-- The rule that decided about an entry, if one is shown. -/
def rulePart (e : Entry) : List (Bytes × Value) :=
  if e.verdict.filtered || !e.verdict.rule.isEmpty then
    [(ascii "rule", .string e.verdict.rule),
      (ascii "filterId", .number (Decimal.ofInt e.verdict.listId.toInt))]
  else []

/-- The members of an entry, in the order in which they are written. -/
def entryMembers (e : Entry) : List (Bytes × Value) :=
  [(ascii "time", .string (Timestamp.text e.time))] ++ questionPart e ++ answerPart e
    ++ [(ascii "client", .string e.client), (ascii "upstream", .string e.resolver),
      (ascii "elapsedMs", .string (milliseconds e.elapsed)),
      (ascii "reason", .string e.verdict.reason.name)]
    ++ rulePart e

theorem writes_entry (e : Entry) : Writes (.value (.object (entryMembers e))) (entry e) := by
  have happend : ∀ {front back : List (Bytes × Value)} {texts more : List Bytes},
      List.Forall₂ (fun m text => Writes (.member m.1 m.2) text) front texts →
      List.Forall₂ (fun m text => Writes (.member m.1 m.2) text) back more →
      List.Forall₂ (fun m text => Writes (.member m.1 m.2) text) (front ++ back) (texts ++ more) :=
    fun hfront hback => List.rel_append hfront hback
  refine Json.writes_object (happend (happend (happend (happend ?_ ?_) ?_) ?_) ?_)
  · exact .cons (writes_verbatim _ (isPlainText_timestamp _)) .nil
  · rw [questionPart]
    cases Question.ofMessage? e.question with
    | none => exact .nil
    | some q => exact .cons ((writes_question q).member _) .nil
  · rw [answerPart]
    split
    · exact .nil
    · exact .cons (writes_verbatim _ (isPlainText_encode _)) .nil
  · exact .cons (writes_text _ _) (.cons (writes_text _ _)
      (.cons (writes_verbatim _ (isPlainText_milliseconds _))
        (.cons (writes_verbatim _ (isPlainText_reason _)) .nil)))
  · rw [rulePart]
    split
    · exact .cons (writes_text _ _) (.cons ((Json.writes_ofInt _).member _) .nil)
    · exact .nil

section Keys

variable {e : Entry} {question answer rule : List Bytes}

theorem keys_questionPart (e : Entry) :
    List.Sublist ((questionPart e).map Prod.fst) [ascii "question"] := by
  rw [questionPart]
  split
  · exact List.Sublist.refl _
  · exact List.nil_sublist _

theorem keys_answerPart (e : Entry) :
    List.Sublist ((answerPart e).map Prod.fst) [ascii "answer"] := by
  rw [answerPart]
  split
  · exact List.nil_sublist _
  · exact List.Sublist.refl _

theorem keys_rulePart (e : Entry) :
    List.Sublist ((rulePart e).map Prod.fst) [ascii "rule", ascii "filterId"] := by
  rw [rulePart]
  split
  · exact List.Sublist.refl _
  · exact List.nil_sublist _

/-- The keys of an entry whose parts have no other keys than these. -/
theorem keys_entryMembers (hquestion : List.Sublist ((questionPart e).map Prod.fst) question)
    (hanswer : List.Sublist ((answerPart e).map Prod.fst) answer)
    (hrule : List.Sublist ((rulePart e).map Prod.fst) rule) :
    List.Sublist ((entryMembers e).map Prod.fst) ([ascii "time"] ++ question ++ answer
      ++ [ascii "client", ascii "upstream", ascii "elapsedMs", ascii "reason"] ++ rule) := by
  simp only [entryMembers, List.map_append]
  exact ((((List.Sublist.refl [ascii "time"]).append hquestion).append hanswer).append
    (List.Sublist.refl _)).append hrule

end Keys

/-- The object shows the entry: its members have different keys, and each is what the entry
says. -/
structure Shows (e : Entry) (v : Value) : Prop where
  isObject : ∃ members, v = .object members ∧ (members.map Prod.fst).Nodup
  time : member? (ascii "time") v = some (.string (Timestamp.text e.time))
  /-- The question is shown when it parses. -/
  question : ∀ q, Question.ofMessage? e.question = some q →
    ∃ shown, member? (ascii "question") v = some shown ∧
      member? (ascii "host") shown = some (.string q.name) ∧
      member? (ascii "type") shown = some (.string q.kind.name) ∧
      member? (ascii "class") shown = some (.string (className q.qclass))
  noQuestion : Question.ofMessage? e.question = none → member? (ascii "question") v = none
  /-- The answer is read back from its base64 text. -/
  answer : e.answer ≠ [] → ∃ text, member? (ascii "answer") v = some (.string text) ∧
    Base64.decode text = .ok e.answer
  noAnswer : e.answer = [] → member? (ascii "answer") v = none
  client : member? (ascii "client") v = some (.string e.client)
  upstream : member? (ascii "upstream") v = some (.string e.resolver)
  elapsed : member? (ascii "elapsedMs") v = some (.string (milliseconds e.elapsed))
  reason : member? (ascii "reason") v = some (.string e.verdict.reason.name)
  /-- The rule is shown when there is one or the query was blocked. -/
  rule : e.verdict.filtered = true ∨ e.verdict.rule ≠ [] →
    member? (ascii "rule") v = some (.string e.verdict.rule) ∧
      member? (ascii "filterId") v = some (.number (Decimal.ofInt e.verdict.listId.toInt))
  noRule : e.verdict.filtered = false → e.verdict.rule = [] →
    member? (ascii "rule") v = none ∧ member? (ascii "filterId") v = none

/-- The object of the members of an entry shows it. -/
theorem shows_entryMembers (e : Entry) : Shows e (.object (entryMembers e)) := by
  have hquestion := keys_questionPart e
  have hanswer := keys_answerPart e
  have hrule := keys_rulePart e
  have hnodup : ((entryMembers e).map Prod.fst).Nodup :=
    (keys_entryMembers hquestion hanswer hrule).nodup (by decide +kernel)
  have hmem : ∀ {key v}, (key, v) ∈ entryMembers e →
      member? key (.object (entryMembers e)) = some v := member?_eq_some hnodup
  constructor
  case isObject => exact ⟨_, rfl, hnodup⟩
  case time => exact hmem (by simp [entryMembers])
  case client => exact hmem (by simp [entryMembers])
  case upstream => exact hmem (by simp [entryMembers])
  case elapsed => exact hmem (by simp [entryMembers])
  case reason => exact hmem (by simp [entryMembers])
  case question =>
    intro q hq
    have hmember : (ascii "question", Value.object (questionMembers q)) ∈ entryMembers e := by
      simp [entryMembers, questionPart, hq]
    have hparts : ((questionMembers q).map Prod.fst).Nodup := by
      simp only [questionMembers, List.map_cons, List.map_nil]
      decide +kernel
    exact ⟨_, hmem hmember, member?_eq_some hparts (by simp [questionMembers]),
      member?_eq_some hparts (by simp [questionMembers]),
      member?_eq_some hparts (by simp [questionMembers])⟩
  case noQuestion =>
    intro hnone
    have hnil : List.Sublist ((questionPart e).map Prod.fst) [] := by
      rw [questionPart, hnone, List.map_nil]
    exact member?_eq_none fun h =>
      absurd ((keys_entryMembers hnil hanswer hrule).subset h) (by decide +kernel)
  case answer =>
    intro hne
    have hmember : (ascii "answer", Value.string (Base64.encode e.answer)) ∈ entryMembers e := by
      simp [entryMembers, answerPart, hne]
    exact ⟨_, hmem hmember, Base64.decode_encode e.answer⟩
  case noAnswer =>
    intro hnone
    have hnil : List.Sublist ((answerPart e).map Prod.fst) [] := by
      rw [answerPart, hnone, List.isEmpty_nil, if_pos rfl, List.map_nil]
    exact member?_eq_none fun h =>
      absurd ((keys_entryMembers hquestion hnil hrule).subset h) (by decide +kernel)
  case rule =>
    intro hshown
    have hpart : rulePart e = [(ascii "rule", .string e.verdict.rule),
        (ascii "filterId", .number (Decimal.ofInt e.verdict.listId.toInt))] := by
      rw [rulePart, if_pos (by simpa using hshown)]
    exact ⟨hmem (by simp [entryMembers, hpart]), hmem (by simp [entryMembers, hpart])⟩
  case noRule =>
    intro hpassed hnone
    have hnil : List.Sublist ((rulePart e).map Prod.fst) [] := by
      rw [rulePart, hpassed, hnone, if_neg (by decide), List.map_nil]
    have hkeys := keys_entryMembers hquestion hanswer hnil
    exact ⟨member?_eq_none fun h => absurd (hkeys.subset h) (by decide +kernel),
      member?_eq_none fun h => absurd (hkeys.subset h) (by decide +kernel)⟩

/-! ## Rankings -/

/-- A ranking: its keys with their counts, in its order. -/
def rankingValue (counts : Counts) (limit : Nat) : Value :=
  .object ((counts.top limit).map fun pair => (pair.1, .number (Decimal.ofNat pair.2.toNat)))

theorem writes_ranking (counts : Counts) (limit : Nat) :
    Writes (.value (rankingValue counts limit)) (ranking counts limit) := by
  refine Json.writes_object ?_
  rw [List.forall₂_map_left_iff, List.forall₂_map_right_iff]
  exact List.forall₂_same.mpr fun pair _ =>
    (Json.writes_number (Json.isNumber_ofInt pair.2.toNat)).member pair.1

/-- The statistics: three rankings. -/
def topValue (t : Top) (limit : Nat) : Value :=
  .object [(ascii "top_queried_domains", rankingValue t.domains limit),
    (ascii "top_blocked_domains", rankingValue t.blocked limit),
    (ascii "top_clients", rankingValue t.clients limit)]

theorem writes_top (t : Top) (limit : Nat) :
    Writes (.value (topValue t limit)) (top t limit) :=
  Json.writes_object (.cons ((writes_ranking _ _).member _) (.cons ((writes_ranking _ _).member _)
    (.cons ((writes_ranking _ _).member _) .nil)))

theorem writes_log (entries : List Entry) :
    Writes (.value (.array (entries.map fun e => .object (entryMembers e)))) (log entries) := by
  refine Json.writes_array ?_
  rw [List.forall₂_map_left_iff, List.forall₂_map_right_iff]
  exact List.forall₂_same.mpr fun e _ => writes_entry e

/-! ## Bodies -/

theorem handle_log (s : Service) (query body : Bytes) :
    (Api.handle s (ascii "GET") (ascii "/control/querylog") query body).2
      = .json (log s.recorder.recent.entries) :=
  rfl

theorem handle_top (s : Service) {query : Bytes} (body : Bytes) {hours : Nat}
    (h : Api.hours? query = some hours) :
    (Api.handle s (ascii "GET") (ascii "/control/stats_top") query body).2
      = .json (top (s.recorder.stats.top hours) rankingLimit) := by
  have hshow : (Api.handle s (ascii "GET") (ascii "/control/stats_top") query body).2
      = Api.showTop s query := rfl
  rw [hshow, Api.showTop, h]

/-- The log view denotes the objects that show its entries, in their order, and nothing else. The
statistics denote their three rankings, and nothing else. Neither has control bytes in it. Both are
what the control interface answers. -/
theorem bodies_denote (entries : List Entry) (t : Top) :
    (∃ objects, List.Forall₂ Shows entries objects ∧
      ∀ v, Json.Denotes (log entries) v ↔ v = .array objects) ∧
    (∀ v, Json.Denotes (top t rankingLimit) v ↔ v = topValue t rankingLimit) ∧
    (∀ b ∈ log entries ++ top t rankingLimit, 0x20 ≤ b) ∧
    (∀ s query body, (Api.handle s (ascii "GET") (ascii "/control/querylog") query body).2
      = .json (log s.recorder.recent.entries)) ∧
    ∀ s query body hours, Api.hours? query = some hours →
      (Api.handle s (ascii "GET") (ascii "/control/stats_top") query body).2
        = .json (top (s.recorder.stats.top hours) rankingLimit) := by
  refine ⟨⟨_, ?_, fun v => (writes_log entries).denotes_iff⟩,
    fun v => (writes_top t rankingLimit).denotes_iff,
    List.forall_mem_append.mpr ⟨(writes_log entries).printable, (writes_top t _).printable⟩,
    handle_log, fun s query body hours h => handle_top s body h⟩
  rw [List.forall₂_map_right_iff]
  exact List.forall₂_same.mpr fun e _ => shows_entryMembers e

/-- An entry whose client has a quote, a backslash, control bytes and a byte beyond ASCII in it,
from before the epoch and without a question. -/
def hostile : Entry where
  time := -1
  question := []
  answer := [0x00, 0xFF]
  client := [0x61, 0x22, 0x5C, 0x0A, 0x01, 0xC3]
  resolver := []
  verdict := ⟨true, .blockList, [], -5⟩
  elapsed := 1500

theorem bodies_denote_hostile :
    (∃ objects, List.Forall₂ Shows [hostile] objects ∧
      ∀ v, Json.Denotes (log [hostile]) v ↔ v = .array objects) ∧
    Api.hours? (ascii "hours=2") = some 2 ∧
    (Api.handle (.launch .small .empty .silent) (ascii "GET") (ascii "/control/stats_top")
      (ascii "hours=2") []).2
        = .json (top ((Service.launch .small .empty .silent).recorder.stats.top 2)
          rankingLimit) := by
  have hhours : Api.hours? (ascii "hours=2") = some 2 := by decide +kernel
  obtain ⟨hlog, -, -, -, htop⟩ := bodies_denote [hostile] ⟨[], [], []⟩
  exact ⟨hlog, hhours, htop _ _ _ 2 hhours⟩

example : entry hostile =
    ascii "\x7b\"time\":\"1969-12-31T23:59:59.999999999Z\",\"answer\":\"AP8=\"," ++
    ascii "\"client\":\"a\\\"\\\\\\n\\u0001" ++ 0xC3 :: ascii "\",\"upstream\":\"\"," ++
    ascii "\"elapsedMs\":\"0.0015\",\"reason\":\"FilteredBlackList\"," ++
    ascii "\"rule\":\"\",\"filterId\":-5\x7d" := by
  decide +kernel

end View

end ResolverLog
