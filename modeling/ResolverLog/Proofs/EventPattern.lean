import ResolverLog.Proofs.Admission
import ResolverLog.Proofs.EventGrammar
import ResolverLog.Proofs.Pattern
import ResolverLog.Proofs.Runs
import Mathlib.Data.Bool.AllAny

/-!
# Event lines by pattern

One pattern with six groups reads an event line: the client, the name, and where
they are said the type, the verdict, the rule and the duration. It may have to
go back, as a run of what is not blank can end at any of its bytes and each word
behind the name may stay away. But every way that gets through gives the same
groups, the words of the line, so the pattern reads what the words say.

## Implementation notes

The words that may stay away are joined to the pattern from the back. One lemma
adds a word to what can be read behind it (`Finishes.optional`), and each kind
of word has only to say at which bytes it stands (`Takes`).
-/

namespace ResolverLog

namespace EventPattern

open Bytes Pattern

/-! ## The pattern -/

/-- What is not blank. -/
def isSolid (b : UInt8) : Bool := !isBlank b

/-- A run of what is not blank. -/
def solid : Pattern := .many isSolid 1 none

/-- A run of blanks. -/
def blanks (least : Nat) : Pattern := .many isBlank least none

/-- The text at an edge of a word. -/
def alone (text : Bytes) : Pattern := .seq (.text text) .wordEdge

/-- The type. -/
def typeWord : Pattern :=
  .seq (.notAhead (.either (alone (ascii "ok")) (alone (ascii "blocked"))))
    (.group 3 (.seq (.one isLetter) (.many (fun b => isLetter b || isDigit b) 0 none)))

/-- The verdict and its rule. -/
def verdictWord : Pattern :=
  .seq (.group 4 (.either (.text (ascii "ok")) (.text (ascii "blocked"))))
    (.maybe (.seq (.text [0x3A]) (.group 5 solid)))

/-- The duration. -/
def durationWord : Pattern := .group 6 (.many isDigit 1 (some 12))

/-- Maybe one more word before what comes next. -/
def optional (word next : Pattern) : Pattern :=
  .seq (.maybe (.seq (blanks 1) word)) next

/-- The end of a line. -/
def ending : Pattern := .seq (blanks 0) .atEnd

/-- An event line: `^\s*(\S+)\s+(\S+)`, `(?:\s+(?!ok\b|blocked\b)([A-Za-z][A-Za-z0-9]*))?`,
`(?:\s+(ok|blocked)(?::(\S+))?)?`, `(?:\s+(\d{1,12}))?` and `\s*$`. -/
def eventLine : Pattern :=
  .seq .atStart (.seq (blanks 0) (.seq (.group 1 solid) (.seq (blanks 1) (.seq (.group 2 solid)
    (optional typeWord (optional verdictWord (optional durationWord ending)))))))

/-- The type that a group stands for. -/
def typeOf : Option Bytes → Option RecordType
  | none => some .a
  | some word => (RecordType.ofText? word).filter (·.code ≠ 0)

/-- A rule belongs to a block. -/
def isMisplaced (verdict rule : Option Bytes) : Bool :=
  rule.isSome && verdict != some (ascii "blocked")

/-- The verdict that groups stand for. -/
def verdictOf (verdict rule : Option Bytes) : Verdict :=
  if verdict = some (ascii "blocked") then ⟨true, .blockList, rule.getD [], 0⟩ else .pass

/-- The nanoseconds that a group stands for. -/
def elapsedOf (digits : Option Bytes) : Nat :=
  match digits with
  | none => 0
  | some digits => Decimal.value digits * 1000

/-- The entry that the groups of a match stand for. -/
def entryOf (now : Int64) (w : Walk) : Option Entry :=
  (typeOf (w.group? 3)).bind fun kind =>
    if isMisplaced (w.group? 4) (w.group? 5) then none
    else match Question.message ((w.group? 2).getD []) kind 0 with
      | .ok question =>
        some ⟨now, question, [], (w.group? 1).getD [], [], verdictOf (w.group? 4) (w.group? 5),
          Int64.ofNat (elapsedOf (w.group? 6))⟩
      | .error _ => none

/-- The entry that a line describes, as of the time `now`. -/
def scan (line : Bytes) (now : Int64) : Option Entry :=
  (eventLine.match? line).bind (entryOf now)

/-! ## Words of a line -/

/-- What groups stood at, the latest first. -/
abbrev Groups := List (Nat × Bytes)

variable {w w' : Walk} {part next word : Pattern} {text rest : Bytes} {tokens : List Bytes}
  {found groups : Groups} {IsPart : Bytes → Groups → Prop} {IsRest : List Bytes → Groups → Prop}

/-- The pattern gets through from here, and these are the groups in the end. -/
def Yields (part : Pattern) (w : Walk) (groups : Groups) : Prop :=
  ∃ w' ∈ part.runs w, w'.groups = groups

/-- Up to where a word ends, the pattern takes just these words with their groups. -/
def Takes (part : Pattern) (IsPart : Bytes → Groups → Prop) : Prop :=
  ∀ w w' : Walk, Breaks w'.rest → (w' ∈ part.runs w ↔ ∃ text groups, IsPart text groups ∧
    w.rest = text ++ w'.rest ∧ w' = ⟨text.reverse ++ w.passed, w'.rest, groups ++ w.groups⟩)

/-- Behind a word, the pattern reads the line to its end, with these words and their groups. -/
def Finishes (next : Pattern) (IsRest : List Bytes → Groups → Prop) : Prop :=
  ∀ w groups, Yields next w groups ↔
    Breaks w.rest ∧ ∃ found, IsRest (words w.rest) found ∧ groups = found ++ w.groups

/-- Maybe one more word, and then the rest. -/
inductive Optional (IsPart : Bytes → Groups → Prop) (IsRest : List Bytes → Groups → Prop) :
    List Bytes → Groups → Prop
  | skip {tokens : List Bytes} {found : Groups} (h : IsRest tokens found) :
      Optional IsPart IsRest tokens found
  | take {text : Bytes} {groups : Groups} {tokens : List Bytes} {found : Groups}
      (hpart : IsPart text groups) (hrest : IsRest tokens found) :
      Optional IsPart IsRest (text :: tokens) (found ++ groups)

theorem yields_seq_iff {first second : Pattern} : Yields (.seq first second) w groups ↔
    ∃ middle ∈ first.runs w, Yields second middle groups := by
  simp only [Yields, mem_runs_seq]
  constructor
  · rintro ⟨w', ⟨middle, hfirst, hsecond⟩, hgroups⟩
    exact ⟨middle, hfirst, w', hsecond, hgroups⟩
  · rintro ⟨middle, hfirst, w', hsecond, hgroups⟩
    exact ⟨w', ⟨middle, hfirst, hsecond⟩, hgroups⟩

theorem reads_blanks (least : Nat) :
    Reads (blanks least) fun run => (∀ b ∈ run, isBlank b = true) ∧ least ≤ run.length :=
  (reads_many isBlank least none).congr fun run => by simp

theorem breaks_of_blanks {run : Bytes} (hrun : ∀ b ∈ run, isBlank b = true) (hne : run ≠ []) :
    Breaks (run ++ rest) := by
  obtain ⟨b, more, rfl⟩ := List.exists_cons_of_ne_nil hne
  rintro c ⟨⟩
  exact hrun b List.mem_cons_self

/-- Where a word has ended, the next one stands behind one blank at least. -/
theorem exists_blanks_of_words (hbreaks : Breaks w.rest) (h : words w.rest = text :: tokens) :
    IsWord text ∧ ∃ before ∈ (blanks 1).runs w, ∃ rest, before.rest = text ++ rest ∧
      before.groups = w.groups ∧ Breaks rest ∧ words rest = tokens := by
  obtain ⟨run, rest, hrun, hword, hrest, htext, htokens⟩ := words_eq_cons_iff.mp h
  have hne : run ≠ [] := by
    rintro rfl
    obtain ⟨b, more, rfl⟩ := List.exists_cons_of_ne_nil hword.1
    have hblank := hbreaks b (by rw [htext]; rfl)
    rw [hword.2 b List.mem_cons_self] at hblank
    cases hblank
  refine ⟨hword, w.past run (text ++ rest), ?_, rest, rfl, rfl, hrest, htokens⟩
  exact (reads_blanks 1 _ _).mpr ⟨run, ⟨hrun, List.length_pos_iff.mpr hne⟩, htext, rfl⟩

theorem words_of_blanks {before : Walk} {least : Nat} (hbefore : before ∈ (blanks least).runs w)
    (htext : before.rest = text ++ rest) (hword : IsWord text) (hrest : Breaks rest) :
    words w.rest = text :: words rest := by
  obtain ⟨run, ⟨hrun, -⟩, hw, -⟩ := (reads_blanks least _ _).mp hbefore
  rw [hw, htext]
  exact words_eq_cons_iff.mpr ⟨run, rest, hrun, hword, hrest, rfl, rfl⟩

/-- A word that may stay away extends what can be read behind a word. -/
theorem Finishes.optional (hnext : Finishes next IsRest) (hpart : Takes part IsPart)
    (hword : ∀ text groups, IsPart text groups → IsWord text) :
    Finishes (optional part next) (Optional IsPart IsRest) := by
  intro w groups
  rw [EventPattern.optional, yields_seq_iff]
  constructor
  · rintro ⟨middle, hmiddle, hyields⟩
    obtain ⟨hbreaks, found, hfound, rfl⟩ := (hnext middle groups).mp hyields
    rcases mem_runs_maybe.mp hmiddle with htaken | rfl
    · obtain ⟨before, hbefore, hmiddle⟩ := mem_runs_seq.mp htaken
      obtain ⟨text, groups, hgroups, htext, hmiddle⟩ := (hpart before middle hbreaks).mp hmiddle
      have hwords := words_of_blanks hbefore htext (hword text groups hgroups) hbreaks
      obtain ⟨run, ⟨hrun, hleast⟩, hw, hpast⟩ := (reads_blanks 1 _ _).mp hbefore
      refine ⟨?_, found ++ groups, ?_, ?_⟩
      · rw [hw]
        exact breaks_of_blanks hrun (List.length_pos_iff.mp hleast)
      · rw [hwords]
        exact .take hgroups hfound
      · rw [hmiddle, hpast, List.append_assoc]
        rfl
    · exact ⟨hbreaks, found, .skip hfound, rfl⟩
  · rintro ⟨hbreaks, found, hfound, rfl⟩
    generalize htokens : words w.rest = tokens at hfound
    cases hfound with
    | skip hfound =>
        exact ⟨w, mem_runs_maybe.mpr (.inr rfl),
          (hnext w _).mpr ⟨hbreaks, _, htokens ▸ hfound, rfl⟩⟩
    | @take text groups tokens found hgroups hfound =>
        obtain ⟨-, before, hbefore, rest, htext, hsame, hrest, hmore⟩ :=
          exists_blanks_of_words hbreaks htokens
        have htaken := (hpart before ⟨text.reverse ++ before.passed, rest, groups ++ before.groups⟩
          hrest).mpr ⟨text, groups, hgroups, htext, rfl⟩
        refine ⟨_, mem_runs_maybe.mpr (.inl (mem_runs_seq.mpr ⟨before, hbefore, htaken⟩)), ?_⟩
        refine (hnext _ _).mpr ⟨hrest, found, hmore ▸ hfound, ?_⟩
        rw [hsame, List.append_assoc]

/-- Nothing is left. -/
def IsNothing (tokens : List Bytes) (found : Groups) : Prop := tokens = [] ∧ found = []

theorem finishes_ending : Finishes ending IsNothing := by
  intro w groups
  rw [ending, yields_seq_iff]
  constructor
  · rintro ⟨middle, hmiddle, w', hend, rfl⟩
    obtain ⟨run, ⟨hrun, -⟩, hw, hpast⟩ := (reads_blanks 0 _ _).mp hmiddle
    obtain ⟨hnil, rfl⟩ := mem_runs_atEnd.mp hend
    rw [hnil, List.append_nil] at hw
    rw [hw]
    refine ⟨?_, [], ⟨words_eq_nil_iff.mpr hrun, rfl⟩, ?_⟩
    · intro b hb
      exact hrun b (List.mem_of_mem_head? hb)
    · rw [hpast]
      rfl
  · rintro ⟨-, found, ⟨hnone, rfl⟩, rfl⟩
    refine ⟨w.past w.rest [], ?_, w.past w.rest [], mem_runs_atEnd.mpr ⟨rfl, rfl⟩, rfl⟩
    exact (reads_blanks 0 _ _).mpr
      ⟨w.rest, ⟨words_eq_nil_iff.mp hnone, Nat.zero_le _⟩, (List.append_nil _).symm, rfl⟩

/-! ## The kinds of words -/

/-- The word of a type. -/
inductive IsTypePart : Bytes → Groups → Prop
  | intro {text : Bytes} (h : EventLine.isTypeWord text = true) : IsTypePart text [(3, text)]

/-- A verdict, maybe with a rule behind it. -/
inductive IsVerdictPart : Bytes → Groups → Prop
  | plain {verdict : Bytes} (h : verdict = ascii "ok" ∨ verdict = ascii "blocked") :
      IsVerdictPart verdict [(4, verdict)]
  | withRule {verdict rule : Bytes} (h : verdict = ascii "ok" ∨ verdict = ascii "blocked")
      (hrule : IsWord rule) : IsVerdictPart (verdict ++ 0x3A :: rule) [(5, rule), (4, verdict)]

/-- One to twelve digits. -/
inductive IsDurationPart : Bytes → Groups → Prop
  | intro {digits : Bytes} (hpos : 1 ≤ digits.length) (hle : digits.length ≤ 12)
      (hdigits : ∀ b ∈ digits, isDigit b = true) : IsDurationPart digits [(6, digits)]

theorem isBlank_of_isAlnum {b : UInt8} (h : (isLetter b || isDigit b) = true) :
    isBlank b = false := by
  grind [isLetter, isDigit, isBlank]

theorem reads_solid : Reads solid IsWord :=
  (reads_many isSolid 1 none).congr fun run => by
    simp [isSolid, IsWord, Nat.succ_le_iff, List.length_pos_iff, and_comm]

theorem takes_durationWord : Takes durationWord IsDurationPart := by
  intro w w' _
  rw [durationWord, (reads_many isDigit 1 (some 12)).mem_runs_group]
  constructor
  · rintro ⟨run, ⟨hdigits, hpos, hle⟩, hrest, hw'⟩
    exact ⟨run, _, .intro hpos (hle 12 rfl) hdigits, hrest, hw'⟩
  · rintro ⟨digits, _, ⟨hpos, hle, hdigits⟩, hrest, hw'⟩
    refine ⟨digits, ⟨hdigits, hpos, ?_⟩, hrest, hw'⟩
    rintro bound ⟨⟩
    exact hle

theorem isWord_of_isDurationPart (h : IsDurationPart text groups) : IsWord text := by
  obtain ⟨hpos, hle, hdigits⟩ := h
  refine ⟨List.length_pos_iff.mp hpos, fun b hb => isBlank_of_isAlnum ?_⟩
  rw [hdigits b hb, Bool.or_true]

theorem takes_verdictWord : Takes verdictWord IsVerdictPart := by
  intro w w' _
  have hverdict := (reads_text (ascii "ok")).either (reads_text (ascii "blocked"))
  rw [verdictWord, mem_runs_seq]
  constructor
  · rintro ⟨middle, hmiddle, hw'⟩
    obtain ⟨verdict, hsaid, hrest, hmiddle⟩ := hverdict.mem_runs_group.mp hmiddle
    rcases mem_runs_maybe.mp hw' with hrule | rfl
    · obtain ⟨behind, hcolon, hsolid⟩ := mem_runs_seq.mp hrule
      obtain ⟨_, rfl, hrestColon, hpastColon⟩ := (reads_text _ _ _).mp hcolon
      obtain ⟨rule, hword, hrestRule, hpastRule⟩ := reads_solid.mem_runs_group.mp hsolid
      refine ⟨verdict ++ 0x3A :: rule, _, .withRule hsaid hword, ?_, ?_⟩
      · rw [hrest, hrestColon, hrestRule]
        simp
      · rw [hpastRule, hpastColon, hmiddle]
        simp [Walk.past, Walk.remember]
    · exact ⟨verdict, _, .plain hsaid, hrest, hmiddle⟩
  · rintro ⟨text, groups, hpart, hrest, hw'⟩
    cases hpart with
    | plain hsaid =>
        exact ⟨w', hverdict.mem_runs_group.mpr ⟨text, hsaid, hrest, hw'⟩,
          mem_runs_maybe.mpr (.inr rfl)⟩
    | @withRule verdict rule hsaid hrule =>
        refine ⟨(w.past verdict (0x3A :: rule ++ w'.rest)).remember 4 verdict, ?_,
          mem_runs_maybe.mpr (.inl (mem_runs_seq.mpr ⟨(w.past (verdict ++ [0x3A])
            (rule ++ w'.rest)).remember 4 verdict, ?_, ?_⟩))⟩
        · refine hverdict.mem_runs_group.mpr ⟨verdict, hsaid, ?_, rfl⟩
          rw [hrest]
          simp
        · refine (reads_text _ _ _).mpr ⟨[0x3A], rfl, rfl, ?_⟩
          simp [Walk.past, Walk.remember]
        · refine reads_solid.mem_runs_group.mpr ⟨rule, hrule, rfl, ?_⟩
          rw [hw']
          simp [Walk.past, Walk.remember]

theorem isWord_of_isVerdictPart (h : IsVerdictPart text groups) : IsWord text := by
  have hsolid : ∀ verdict, verdict = ascii "ok" ∨ verdict = ascii "blocked" → IsWord verdict := by
    rintro verdict (rfl | rfl)
    · exact ⟨by decide, List.all_iff_forall_prop.mp (by decide)⟩
    · exact ⟨by decide, List.all_iff_forall_prop.mp (by decide)⟩
  cases h with
  | plain hsaid => exact hsolid _ hsaid
  | withRule hsaid hrule =>
      obtain ⟨hne, hverdict⟩ := hsolid _ hsaid
      refine ⟨List.append_ne_nil_of_left_ne_nil hne _, ?_⟩
      rw [List.forall_mem_append, List.forall_mem_cons]
      exact ⟨hverdict, by decide, hrule.2⟩

/-! ## The word of a type -/

theorem isWordByte_of_isAlnum {b : UInt8} (h : (isLetter b || isDigit b) = true) :
    Walk.isWordByte b = true := by
  rw [Walk.isWordByte, h, Bool.true_or]

theorem isWordByte_of_isBlank {b : UInt8} (h : isBlank b = true) : Walk.isWordByte b = false := by
  grind [Walk.isWordByte, isLetter, isDigit, isBlank]

theorem atWordEdge_past {verdict : Bytes} (hne : verdict ≠ [])
    (hverdict : ∀ b ∈ verdict, (isLetter b || isDigit b) = true) :
    (w.past verdict rest).atWordEdge = true ↔ ∀ b ∈ rest.head?, Walk.isWordByte b = false := by
  have hlast : (w.past verdict rest).passed.head?.any Walk.isWordByte = true := by
    obtain ⟨last, front, hreverse⟩ := List.exists_cons_of_ne_nil (mt List.reverse_eq_nil_iff.mp hne)
    have hmem : last ∈ verdict := by
      rw [← List.mem_reverse, hreverse]
      exact List.mem_cons_self
    rw [Walk.past, hreverse]
    exact isWordByte_of_isAlnum (hverdict last hmem)
  rw [Walk.atWordEdge, hlast, Walk.rest_past]
  cases rest with
  | nil => simp
  | cons b rest => simp

/-- In front of letters and digits up to a blank, a verdict stands alone only if it is they. -/
theorem runs_alone_eq_nil_iff {verdict : Bytes} (hne : verdict ≠ [])
    (hverdict : ∀ b ∈ verdict, (isLetter b || isDigit b) = true)
    (htext : ∀ b ∈ text, (isLetter b || isDigit b) = true) (hrest : Breaks rest)
    (hw : w.rest = text ++ rest) : (alone verdict).runs w = [] ↔ text ≠ verdict := by
  have hstop : ∀ b ∈ rest.head?, Walk.isWordByte b = false :=
    fun b hb => isWordByte_of_isBlank (hrest b hb)
  rw [List.eq_nil_iff_forall_not_mem, alone]
  constructor
  · rintro h rfl
    refine h (w.past text rest) (mem_runs_seq.mpr ⟨w.past text rest, ?_, ?_⟩)
    · exact (reads_text _ _ _).mpr ⟨text, rfl, hw, rfl⟩
    · exact mem_runs_wordEdge.mpr ⟨(atWordEdge_past hne hverdict).mpr hstop, rfl⟩
  · intro hother w' hw'
    obtain ⟨middle, hmiddle, hedge⟩ := mem_runs_seq.mp hw'
    obtain ⟨_, rfl, hfront, hpast⟩ := (reads_text _ _ _).mp hmiddle
    obtain ⟨hedge, -⟩ := mem_runs_wordEdge.mp hedge
    rw [hpast, atWordEdge_past hne hverdict] at hedge
    obtain ⟨htake, -⟩ := takeWhile_dropWhile_append
      (fun b hb => isWordByte_of_isAlnum (htext b hb)) hstop
    obtain ⟨htake', -⟩ := takeWhile_dropWhile_append
      (fun b hb => isWordByte_of_isAlnum (hverdict b hb)) hedge
    rw [← hw, hfront, htake'] at htake
    exact hother htake.symm

/-- The verdicts are what a type may look like and is not. -/
theorem runs_ahead_eq_nil_iff (htext : ∀ b ∈ text, (isLetter b || isDigit b) = true)
    (hrest : Breaks rest) (hw : w.rest = text ++ rest) :
    (either (alone (ascii "ok")) (alone (ascii "blocked"))).runs w = [] ↔
      text ≠ ascii "ok" ∧ text ≠ ascii "blocked" := by
  refine List.append_eq_nil_iff.trans ?_
  rw [runs_alone_eq_nil_iff (by decide) (List.all_eq_true.mp (by decide)) htext hrest hw,
    runs_alone_eq_nil_iff (by decide) (List.all_eq_true.mp (by decide)) htext hrest hw]

theorem takes_typeWord : Takes typeWord IsTypePart := by
  intro w w' hbreaks
  have hletters := ((reads_one isLetter).seq
    (reads_many (fun b => isLetter b || isDigit b) 0 none)).congr (fun run => by
      show _ ↔ ∃ b rest, run = b :: rest ∧ isLetter b = true ∧
        ∀ c ∈ rest, (isLetter c || isDigit c) = true
      constructor
      · rintro ⟨_, ⟨b, hb, rfl⟩, back, ⟨hback, -, -⟩, rfl⟩
        exact ⟨b, back, rfl, hb, hback⟩
      · rintro ⟨b, back, rfl, hb, hback⟩
        exact ⟨[b], ⟨b, hb, rfl⟩, back, ⟨hback, Nat.zero_le _, nofun⟩, rfl⟩)
  have halnum : ∀ {text : Bytes}, (∃ b rest, text = b :: rest ∧ isLetter b = true ∧
      ∀ c ∈ rest, (isLetter c || isDigit c) = true) →
      ∀ c ∈ text, (isLetter c || isDigit c) = true := by
    rintro _ ⟨b, rest, rfl, hb, hrest⟩
    rw [List.forall_mem_cons, hb]
    exact ⟨rfl, hrest⟩
  rw [typeWord, mem_runs_seq]
  constructor
  · rintro ⟨middle, hahead, hgroup⟩
    obtain ⟨hnone, rfl⟩ := mem_runs_notAhead.mp hahead
    obtain ⟨text, htext, hw, hw'⟩ := hletters.mem_runs_group.mp hgroup
    have hother := (runs_ahead_eq_nil_iff (halnum htext) hbreaks hw).mp hnone
    exact ⟨text, _, .intro (EventLine.isTypeWord_iff.mpr ⟨htext, hother⟩), hw, hw'⟩
  · rintro ⟨text, _, ⟨htype⟩, hw, hw'⟩
    obtain ⟨htext, hother⟩ := EventLine.isTypeWord_iff.mp htype
    refine ⟨w, mem_runs_notAhead.mpr ⟨?_, rfl⟩, ?_⟩
    · exact (runs_ahead_eq_nil_iff (halnum htext) hbreaks hw).mpr hother
    · exact hletters.mem_runs_group.mpr ⟨text, htext, hw, hw'⟩

theorem isWord_of_isTypePart (h : IsTypePart text groups) : IsWord text := by
  obtain ⟨htype⟩ := h
  obtain ⟨⟨b, rest, rfl, hb, hrest⟩, -⟩ := EventLine.isTypeWord_iff.mp htype
  refine ⟨List.cons_ne_nil _ _, ?_⟩
  rw [List.forall_mem_cons]
  have hb' : (isLetter b || isDigit b) = true := by rw [hb, Bool.true_or]
  exact ⟨isBlank_of_isAlnum hb', fun c hc => isBlank_of_isAlnum (hrest c hc)⟩

/-! ## Lines -/

/-- Durations, or nothing, with their groups. -/
abbrev IsDurations : List Bytes → Groups → Prop := Optional IsDurationPart IsNothing

/-- Verdicts and durations, or nothing, with their groups. -/
abbrev IsVerdicts : List Bytes → Groups → Prop := Optional IsVerdictPart IsDurations

/-- The words behind the name, with their groups. -/
abbrev IsTypes : List Bytes → Groups → Prop := Optional IsTypePart IsVerdicts

theorem finishes_types :
    Finishes (optional typeWord (optional verdictWord (optional durationWord ending))) IsTypes := by
  have hduration := finishes_ending.optional takes_durationWord fun _ _ => isWord_of_isDurationPart
  have hverdict := hduration.optional takes_verdictWord fun _ _ => isWord_of_isVerdictPart
  exact hverdict.optional takes_typeWord fun _ _ => isWord_of_isTypePart

/-- The pattern gets through a line when its words are a client, a name, and what may follow, and
the groups are those words. -/
theorem yields_eventLine_iff {line : Bytes} : Yields eventLine (.start line) groups ↔
    ∃ client name tokens found, words line = client :: name :: tokens ∧ IsTypes tokens found ∧
      groups = found ++ [(2, name), (1, client)] := by
  rw [eventLine, yields_seq_iff]
  constructor
  · rintro ⟨start, hstart, hyields⟩
    obtain ⟨-, rfl⟩ := mem_runs_atStart.mp hstart
    obtain ⟨before, hbefore, hyields⟩ := yields_seq_iff.mp hyields
    obtain ⟨behind, hclient, hyields⟩ := yields_seq_iff.mp hyields
    obtain ⟨between, hbetween, hyields⟩ := yields_seq_iff.mp hyields
    obtain ⟨last, hname, hyields⟩ := yields_seq_iff.mp hyields
    obtain ⟨hbreaks, found, hfound, rfl⟩ := (finishes_types last groups).mp hyields
    obtain ⟨client, hclientWord, hclientRest, hbehind⟩ := reads_solid.mem_runs_group.mp hclient
    obtain ⟨name, hnameWord, hnameRest, hlast⟩ := reads_solid.mem_runs_group.mp hname
    obtain ⟨run, -, -, hpast⟩ := (reads_blanks 0 _ _).mp hbefore
    obtain ⟨run', ⟨hrun', hleast'⟩, hrest', hpast'⟩ := (reads_blanks 1 _ _).mp hbetween
    have hbreaks' : Breaks behind.rest := by
      rw [hrest']
      exact breaks_of_blanks hrun' (List.length_pos_iff.mp hleast')
    have hline : words line = client :: words behind.rest :=
      words_of_blanks hbefore hclientRest hclientWord hbreaks'
    have hmore : words behind.rest = name :: words last.rest :=
      words_of_blanks hbetween hnameRest hnameWord hbreaks
    refine ⟨client, name, words last.rest, found, by rw [hline, hmore], hfound, ?_⟩
    rw [hlast, Walk.groups_remember, Walk.groups_past, hpast', Walk.groups_past, hbehind,
      Walk.groups_remember, Walk.groups_past, hpast]
    rfl
  · rintro ⟨client, name, tokens, found, hline, hfound, rfl⟩
    obtain ⟨run, rest, hrun, hclient, hbreaks, htext, hmore⟩ := words_eq_cons_iff.mp hline
    let before := (Walk.start line).past run (client ++ rest)
    let behind := (before.past client rest).remember 1 client
    have hbehind : Breaks behind.rest := hbreaks
    obtain ⟨hname, between, hbetween, last, hnameRest, hgroups, hlast, htokens⟩ :=
      exists_blanks_of_words hbehind hmore
    refine ⟨.start line, mem_runs_atStart.mpr ⟨rfl, rfl⟩, ?_⟩
    refine yields_seq_iff.mpr ⟨before, ?_, yields_seq_iff.mpr ⟨behind, ?_, yields_seq_iff.mpr
      ⟨between, hbetween, yields_seq_iff.mpr ⟨(between.past name last).remember 2 name, ?_, ?_⟩⟩⟩⟩
    · exact (reads_blanks 0 _ _).mpr ⟨run, ⟨hrun, Nat.zero_le _⟩, htext, rfl⟩
    · exact reads_solid.mem_runs_group.mpr ⟨client, hclient, rfl, rfl⟩
    · exact reads_solid.mem_runs_group.mpr ⟨name, hname, hnameRest, rfl⟩
    · refine (finishes_types _ _).mpr ⟨hlast, found, htokens ▸ hfound, ?_⟩
      rw [Walk.groups_remember, Walk.groups_past, hgroups]
      rfl

/-! ## Groups and entries -/

theorem typeOf_of_isTypeWord (h : EventLine.isTypeWord text = true) :
    typeOf (some text) = RecordType.named? text := by
  have hnumber : Decimal.upTo? 5 text = none := by
    rw [Option.eq_none_iff_forall_ne_some]
    intro n hn
    obtain ⟨-, -, hdigits, -⟩ := Decimal.upTo?_eq_some_iff.mp hn
    rw [(EventLine.of_isDigit hdigits).1] at h
    cases h
  rw [typeOf, RecordType.ofText?, hnumber]
  cases hnamed : RecordType.named? text with
  | none => rfl
  | some kind =>
      have hall : ∀ entry ∈ RecordType.table, entry.2.code ≠ 0 := by decide
      exact Option.filter_eq_some_iff.mpr
        ⟨rfl, decide_eq_true (hall _ (EventLine.named?_eq_some_iff.mp hnamed))⟩

theorem lookup_eq_none_of_lt {bound key : Nat} (h : ∀ group ∈ found, bound ≤ group.1)
    (hkey : key < bound) : found.lookup key = none := by
  rw [List.lookup_eq_none_iff]
  intro group hgroup
  rw [bne_iff_ne]
  have hle := h group hgroup
  omega

theorem le_of_isDurations (h : IsDurations tokens found) : ∀ group ∈ found, 6 ≤ group.1 := by
  cases h with
  | skip h =>
      obtain ⟨-, rfl⟩ := h
      exact List.forall_mem_nil _
  | take hpart hrest =>
      obtain ⟨hpos, hle, hdigits⟩ := hpart
      obtain ⟨-, rfl⟩ := hrest
      exact List.forall_mem_singleton.mpr le_rfl

theorem elapsedOf?_of_isDurations (h : IsDurations tokens found) :
    EventLine.elapsedOf? tokens = some (elapsedOf (found.lookup 6)) := by
  cases h with
  | skip h =>
      obtain ⟨rfl, rfl⟩ := h
      rfl
  | take hpart hrest =>
      obtain ⟨hpos, hle, hdigits⟩ := hpart
      obtain ⟨rfl, rfl⟩ := hrest
      rw [EventLine.elapsedOf?, Decimal.upTo?_eq_some_iff.mpr
        ⟨List.length_pos_iff.mp hpos, hle, hdigits, rfl⟩]
      rfl

theorem head?_of_isDurations (h : IsDurations tokens found) : ∀ word ∈ tokens.head?,
    EventLine.isTypeWord word = false ∧ EventLine.verdictOf? word = none := by
  cases h with
  | skip h =>
      obtain ⟨rfl, rfl⟩ := h
      nofun
  | take hpart hrest =>
      obtain ⟨hpos, hle, hdigits⟩ := hpart
      rintro word ⟨⟩
      exact EventLine.of_isDigit hdigits

theorem le_of_isVerdicts (h : IsVerdicts tokens found) : ∀ group ∈ found, 4 ≤ group.1 := by
  cases h with
  | skip h => exact fun group hgroup => le_trans (by decide) (le_of_isDurations h group hgroup)
  | take hpart hrest =>
      rw [List.forall_mem_append]
      refine ⟨fun group hgroup => le_trans (by decide) (le_of_isDurations hrest group hgroup), ?_⟩
      cases hpart with
      | plain hsaid => exact List.forall_mem_singleton.mpr le_rfl
      | withRule hsaid hrule =>
          rw [List.forall_mem_cons, List.forall_mem_singleton]
          exact ⟨Nat.le_succ 4, le_rfl⟩

/-- No verdict is a word of a type, with or without a rule. -/
theorem isTypeWord_of_isVerdictPart (h : IsVerdictPart text groups) :
    EventLine.isTypeWord text = false := by
  cases h with
  | plain hsaid =>
      rcases hsaid with rfl | rfl
      · decide
      · decide
  | withRule hsaid hrule =>
      exact EventLine.isTypeWord_of_colon_mem (List.mem_append_right _ List.mem_cons_self)

theorem head?_of_isVerdicts (h : IsVerdicts tokens found) :
    ∀ word ∈ tokens.head?, EventLine.isTypeWord word = false := by
  cases h with
  | skip h => exact fun word hword => (head?_of_isDurations h word hword).1
  | take hpart hrest =>
      rintro word ⟨⟩
      exact isTypeWord_of_isVerdictPart hpart

theorem takeVerdict_ok_rule (rule : Bytes) (rest : List Bytes) :
    EventLine.takeVerdict ((ascii "ok" ++ 0x3A :: rule) :: rest)
      = (.pass, (ascii "ok" ++ 0x3A :: rule) :: rest) := by
  refine EventLine.takeVerdict_of_head? ?_
  rintro word ⟨⟩
  rw [Option.eq_none_iff_forall_ne_some]
  intro verdict hverdict
  have hsaid := EventLine.verdictOf?_eq_some_iff.mp hverdict
  generalize hword : ascii "ok" ++ 0x3A :: rule = word at hsaid
  cases hsaid with
  | ok =>
      have hlength := congrArg List.length hword
      simp at hlength
  | blocked => exact absurd (List.cons.inj hword).1 (by decide)
  | blockedBy hne => exact absurd (List.cons.inj hword).1 (by decide)

theorem elapsedOf?_of_colon_mem (h : 0x3A ∈ text) (rest : List Bytes) :
    EventLine.elapsedOf? (text :: rest) = none := by
  cases rest with
  | nil =>
      have hnumber : Decimal.upTo? 12 text = none := by
        rw [Option.eq_none_iff_forall_ne_some]
        intro n hn
        obtain ⟨-, -, hdigits, -⟩ := Decimal.upTo?_eq_some_iff.mp hn
        exact absurd (hdigits _ h) (by decide)
      rw [EventLine.elapsedOf?, hnumber]
      rfl
  | cons next rest => rfl

/-- The verdict and the duration of words are those of their groups, unless there is a rule that
belongs to no block. -/
theorem takeVerdict_of_isVerdicts (h : IsVerdicts tokens found) :
    (EventLine.elapsedOf? (EventLine.takeVerdict tokens).2).map
        (fun elapsed => ((EventLine.takeVerdict tokens).1, elapsed)) =
      if isMisplaced (found.lookup 4) (found.lookup 5) then none
      else some (verdictOf (found.lookup 4) (found.lookup 5), elapsedOf (found.lookup 6)) := by
  cases h with
  | skip h =>
      have hkeys := le_of_isDurations h
      have hfour : found.lookup 4 = none := lookup_eq_none_of_lt hkeys (by decide)
      have hfive : found.lookup 5 = none := lookup_eq_none_of_lt hkeys (by decide)
      rw [EventLine.takeVerdict_of_head? fun word hword => (head?_of_isDurations h word hword).2,
        elapsedOf?_of_isDurations h, hfour, hfive]
      rfl
  | @take text groups tokens found hpart hrest =>
      have hkeys := le_of_isDurations hrest
      have helapsed := elapsedOf?_of_isDurations hrest
      have hfour : found.lookup 4 = none := lookup_eq_none_of_lt hkeys (by decide)
      have hfive : found.lookup 5 = none := lookup_eq_none_of_lt hkeys (by decide)
      have hsix : groups.lookup 6 = none := by
        cases hpart with
        | plain => rfl
        | withRule => rfl
      rw [List.lookup_append, List.lookup_append, List.lookup_append, hfour, hfive, hsix,
        Option.none_or, Option.none_or, Option.or_none]
      cases hpart with
      | plain hsaid =>
          rcases hsaid with rfl | rfl
          · rw [EventLine.takeVerdict_of_verdictOf? (EventLine.verdictOf?_eq_some_iff.mpr .ok),
              helapsed]
            rfl
          · rw [EventLine.takeVerdict_of_verdictOf? (EventLine.verdictOf?_eq_some_iff.mpr .blocked),
              helapsed]
            rfl
      | @withRule verdict rule hsaid hrule =>
          rcases hsaid with rfl | rfl
          · rw [takeVerdict_ok_rule rule tokens,
              elapsedOf?_of_colon_mem (List.mem_append_right _ List.mem_cons_self)]
            rfl
          · have htext : ascii "blocked" ++ 0x3A :: rule = ascii "blocked:" ++ rule := rfl
            rw [htext, EventLine.takeVerdict_of_verdictOf?
              (EventLine.verdictOf?_eq_some_iff.mpr (.blockedBy hrule.1)), helapsed]
            rfl

/-- The type of words is that of their group, and the rest are words of verdicts and durations. -/
theorem takeType_of_isTypes (h : IsTypes tokens found) :
    ∃ rest found', IsVerdicts rest found' ∧
      EventLine.takeType tokens = (typeOf (found.lookup 3)).map (fun kind => (kind, rest)) ∧
      ∀ key ≠ 3, found.lookup key = found'.lookup key := by
  cases h with
  | skip h =>
      have hthree : found.lookup 3 = none := lookup_eq_none_of_lt (le_of_isVerdicts h) (by decide)
      refine ⟨tokens, found, h, ?_, fun _ _ => rfl⟩
      rw [EventLine.takeType_of_head? (head?_of_isVerdicts h), hthree]
      rfl
  | @take text groups tokens found hpart hrest =>
      obtain ⟨htype⟩ := hpart
      have hthree : found.lookup 3 = none :=
        lookup_eq_none_of_lt (le_of_isVerdicts hrest) (by decide)
      refine ⟨tokens, found, hrest, ?_, ?_⟩
      · rw [EventLine.takeType_of_isTypeWord htype, List.lookup_append, hthree, Option.none_or,
          List.lookup_cons_self, typeOf_of_isTypeWord htype]
      · intro key hkey
        rw [List.lookup_append, List.lookup_cons, beq_false_of_ne hkey, List.lookup_nil,
          Option.or_none]

theorem le_of_isTypes (h : IsTypes tokens found) : ∀ group ∈ found, 3 ≤ group.1 := by
  cases h with
  | skip h => exact fun group hgroup => le_trans (by decide) (le_of_isVerdicts h group hgroup)
  | take hpart hrest =>
      obtain ⟨htype⟩ := hpart
      rw [List.forall_mem_append, List.forall_mem_singleton]
      exact ⟨fun group hgroup => le_trans (by decide) (le_of_isVerdicts hrest group hgroup), le_rfl⟩

/-- The groups of a line stand for the entry that its words stand for. -/
theorem entryOf_eq_parse {line : Bytes} {now : Int64}
    (h : Yields eventLine (.start line) w.groups) : entryOf now w = EventLine.parse line now := by
  obtain ⟨client, name, tokens, found, hwords, hfound, hgroups⟩ := yields_eventLine_iff.mp h
  obtain ⟨rest, found', hrest, htype, hlookup⟩ := takeType_of_isTypes hfound
  have hclient : w.group? 1 = some client := by
    rw [Walk.group?, hgroups, List.lookup_append,
      lookup_eq_none_of_lt (le_of_isTypes hfound) (by decide)]
    rfl
  have hname : w.group? 2 = some name := by
    rw [Walk.group?, hgroups, List.lookup_append,
      lookup_eq_none_of_lt (le_of_isTypes hfound) (by decide)]
    rfl
  have hthree : w.group? 3 = found.lookup 3 := by
    rw [Walk.group?, hgroups, List.lookup_append]
    exact Option.or_none
  have hbehind : ∀ key, 3 < key → w.group? key = found'.lookup key := by
    intro key hkey
    have htwo : (key == 2) = false := beq_false_of_ne (by omega)
    have hone : (key == 1) = false := beq_false_of_ne (by omega)
    have hnone : List.lookup key [(2, name), (1, client)] = none := by
      rw [List.lookup_cons, htwo, List.lookup_cons, hone]
      rfl
    rw [Walk.group?, hgroups, List.lookup_append, hnone, Option.or_none, hlookup key hkey.ne']
  have hverdict := takeVerdict_of_isVerdicts hrest
  rw [entryOf, EventLine.parse_of_words hwords, htype, hclient, hname, hthree,
    hbehind 4 (by decide), hbehind 5 (by decide), hbehind 6 (by decide)]
  cases typeOf (found.lookup 3) with
  | none => rfl
  | some kind =>
      simp only [Option.map_some, Option.bind_some, Option.getD_some]
      cases hmisplaced : isMisplaced (found'.lookup 4) (found'.lookup 5) with
      | true =>
          rw [hmisplaced, if_pos rfl, Option.map_eq_none_iff] at hverdict
          rw [hverdict]
          rfl
      | false =>
          rw [hmisplaced, if_neg Bool.false_ne_true, Option.map_eq_some_iff] at hverdict
          obtain ⟨elapsed, helapsed, hpair⟩ := hverdict
          obtain ⟨hsaid, rfl⟩ := Prod.mk.inj hpair
          rw [helapsed, hsaid]
          rfl

theorem exists_isDurations {durations : List Bytes} {elapsed : Int64}
    (h : EventLine.IsDuration durations elapsed) : ∃ found, IsDurations durations found := by
  cases h with
  | unsaid => exact ⟨[], .skip ⟨rfl, rfl⟩⟩
  | said hpos hle hdigits helapsed => exact ⟨_, .take (.intro hpos hle hdigits) ⟨rfl, rfl⟩⟩

theorem exists_isVerdicts {verdicts : List Bytes} {verdict : Verdict}
    (h : EventLine.IsVerdict verdicts verdict) (hword : ∀ word ∈ verdicts, IsWord word)
    (hrest : ∃ found, IsDurations tokens found) :
    ∃ found, IsVerdicts (verdicts ++ tokens) found := by
  obtain ⟨found, hfound⟩ := hrest
  cases h with
  | unsaid => exact ⟨found, .skip hfound⟩
  | ok => exact ⟨_, .take (.plain (.inl rfl)) hfound⟩
  | blocked => exact ⟨_, .take (.plain (.inr rfl)) hfound⟩
  | @blockedBy rule hne =>
      have hrule : IsWord rule :=
        ⟨hne, fun b hb => (hword _ List.mem_cons_self).2 b (List.mem_append_right _ hb)⟩
      exact ⟨_, .take (.withRule (.inr rfl) hrule) hfound⟩

theorem exists_isTypes {types : List Bytes} {kind : RecordType} (h : EventLine.IsType types kind)
    (hrest : ∃ found, IsVerdicts tokens found) : ∃ found, IsTypes (types ++ tokens) found := by
  obtain ⟨found, hfound⟩ := hrest
  cases h with
  | unsaid => exact ⟨found, .skip hfound⟩
  | named hmem => exact ⟨_, .take (.intro (EventLine.isTypeWord_of_mem hmem)) hfound⟩

/-- The pattern gets through every line that is an entry. -/
theorem exists_yields {line : Bytes} {now : Int64} {e : Entry}
    (h : EventLine.parse line now = some e) : ∃ groups, Yields eventLine (.start line) groups := by
  have hevent := EventLine.parse_eq_some_iff.mp h
  have hsolid : ∀ word ∈ words line, IsWord word := fun word => isWord_of_mem_words
  generalize hwords : words line = tokens at hevent hsolid
  cases hevent with
  | intro client name htype hverdict hduration hquestion =>
      have hverdicts := exists_isVerdicts hverdict
        (fun word hword => hsolid word (by simp [hword])) (exists_isDurations hduration)
      obtain ⟨found, hfound⟩ := exists_isTypes htype hverdicts
      exact ⟨_, yields_eventLine_iff.mpr ⟨client, name, _, found, hwords, hfound, rfl⟩⟩

/-- Reading by the pattern and reading by words come to the same, however often the pattern has to
go back. -/
theorem scan_eq_parse (line : Bytes) (now : Int64) : scan line now = EventLine.parse line now := by
  rw [scan, match?]
  cases hruns : eventLine.runs (.start line) with
  | nil =>
      symm
      rw [List.head?_nil, Option.bind_none, Option.eq_none_iff_forall_ne_some]
      intro e hparse
      obtain ⟨groups, w, hw, -⟩ := exists_yields hparse
      rw [hruns] at hw
      cases hw
  | cons w others =>
      have hmem : w ∈ eventLine.runs (.start line) := by
        rw [hruns]
        exact List.mem_cons_self
      exact entryOf_eq_parse ⟨w, hmem, rfl⟩

/-- An entry of a line is taken in, unless the line asks for the root. -/
theorem ingest_of_parse {line : Bytes} {now : Int64} {e : Entry} {s : Service}
    (h : EventLine.parse line now = some e) (hphase : s.recorder.phase = .running)
    (henabled : s.recorder.config.enabled = true) (later : Int64) :
    (s.ingest e later).2 = .accepted ↔ EventLine.name? line ≠ some [0x2E] := by
  rw [Service.ingest_eq_accepted_iff, Service.refusal?_eq_none_iff_isSome hphase henabled]
  exact EventLine.isSome_name?_of_parse h

/-- A line is an entry by the pattern exactly when its words stand for it. Such an entry can be
written and read back, and a recorder that runs and is switched on takes it in unless the line asks
for the root. -/
theorem scan_exactly_events (line : Bytes) (now : Int64) :
    (∀ e, scan line now = some e ↔ EventLine.IsEvent now (words line) e) ∧
    (∀ e, scan line now = some e →
      (∃ text, Record.encode e = .ok text ∧ Record.decode text = .ok e) ∧
      ∀ (s : Service) (later : Int64), s.recorder.phase = .running →
        s.recorder.config.enabled = true →
        ((s.ingest e later).2 = .accepted ↔ EventLine.name? line ≠ some [0x2E])) ∧
    scan line now = EventLine.parse line now := by
  rw [scan_eq_parse]
  refine ⟨fun e => EventLine.parse_eq_some_iff, ?_, rfl⟩
  intro e hparse
  have hstorable := EventLine.storable_of_parse hparse
  refine ⟨⟨Record.line e, Record.encode_of_storable hstorable, Record.decode_line_alone hstorable⟩,
    ?_⟩
  intro s later hphase henabled
  exact ingest_of_parse hparse hphase henabled later

/-- A line with all that it may have. -/
def fullLine : Bytes :=
  ascii "10.0.0.2  ads.example AAAA blocked:||ads.example^ 850 "

/-- The full line is read, stored and taken in. -/
theorem scan_exactly_events_fullLine :
    ∃ e, scan fullLine 5 = some e ∧ EventLine.IsEvent 5 (words fullLine) e ∧
      (∃ text, Record.encode e = .ok text ∧ Record.decode text = .ok e) ∧
      (((Service.launch .small .empty .silent).start 5).ingest e 6).2 = .accepted := by
  have hsome : (scan fullLine 5).isSome = true := by decide
  obtain ⟨e, he⟩ := Option.isSome_iff_exists.mp hsome
  obtain ⟨hgrammar, hentries, -⟩ := scan_exactly_events fullLine 5
  obtain ⟨hstored, htaken⟩ := hentries e he
  refine ⟨e, he, (hgrammar e).mp he, hstored, ?_⟩
  exact (htaken _ 6 (by decide) (by decide)).mpr (by decide)

end EventPattern

end ResolverLog
