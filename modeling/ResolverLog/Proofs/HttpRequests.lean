import ResolverLog.Proofs.Decimal
import ResolverLog.Proofs.Http

/-!
# Requests as clients write them

A client writes a request line, header fields in an order of its own choice,
an empty line and a body. The fields include the length of the body and, where
one is expected, an authorization. Whatever the other fields are, the handler
is given the method, the path, the query and the body that the client meant,
and the client gets what the handler answers.
-/

namespace ResolverLog

namespace Http

open Bytes

/-! ## Header fields -/

/-- A header field; the value has the blanks in front of it. -/
structure Field where
  name : Bytes
  value : Bytes
  deriving DecidableEq, Repr

/-- A text that is read as it is behind a blank: it begins with no blank and fits on a line. -/
structure IsValue (text : Bytes) : Prop where
  isBlank_of_mem_head? : ∀ b ∈ text.head?, isBlank b = false
  ne_of_mem : ∀ b ∈ text, b ≠ 0x0D ∧ b ≠ 0x0A

theorem isValue_ofNat (n : Nat) : IsValue (Decimal.ofNat n) := by
  constructor
  · intro b hb
    exact Decimal.isBlank_of_mem_ofNat (List.mem_of_mem_head? hb)
  · intro b hb
    have hblank := Decimal.isBlank_of_mem_ofNat hb
    constructor
    · rintro rfl
      exact absurd hblank (by decide)
    · rintro rfl
      exact absurd hblank (by decide)

namespace Field

variable {field : Field} {fields : List Field} {name text : Bytes}

/-- The line of a field. -/
def line (field : Field) : Bytes :=
  field.name ++ 0x3A :: field.value

/-- A field with a space in front of its text. -/
def spaced (name text : Bytes) : Field :=
  ⟨name, 0x20 :: text⟩

/-- A name without a colon, the end of a line or a NUL. -/
def IsName (name : Bytes) : Prop :=
  ∀ b ∈ name, b ≠ 0x3A ∧ b ≠ 0x0D ∧ b ≠ 0x0A ∧ b ≠ 0

instance (name : Bytes) : Decidable (IsName name) :=
  inferInstanceAs (Decidable (∀ b ∈ name, _))

/-- A field that fits on a line and whose name ends at the first colon of it. -/
structure IsPlain (field : Field) : Prop where
  isName : IsName field.name
  ne_of_mem_value : ∀ b ∈ field.value, b ≠ 0x0D ∧ b ≠ 0x0A

instance (field : Field) : Decidable field.IsPlain :=
  have : Decidable (∀ b ∈ field.value, b ≠ 0x0D ∧ b ≠ 0x0A) := List.decidableBAll _ _
  decidable_of_iff (IsName field.name ∧ ∀ b ∈ field.value, b ≠ 0x0D ∧ b ≠ 0x0A)
    ⟨fun h => ⟨h.1, h.2⟩, fun h => ⟨h.isName, h.ne_of_mem_value⟩⟩

theorem isPlain_spaced (hname : IsName name) (htext : IsValue text) :
    (spaced name text).IsPlain := by
  refine ⟨hname, fun b hb => ?_⟩
  rcases List.mem_cons.mp hb with rfl | hb
  · decide
  · exact htext.ne_of_mem b hb

theorem IsPlain.ne_of_mem_line (h : field.IsPlain) {b : UInt8} (hb : b ∈ field.line) :
    b ≠ 0x0D ∧ b ≠ 0x0A := by
  rw [line, List.mem_append, List.mem_cons] at hb
  rcases hb with hb | rfl | hb
  · exact ⟨(h.isName b hb).2.1, (h.isName b hb).2.2.1⟩
  · decide
  · exact h.ne_of_mem_value b hb

/-- The field has this name, in whatever case. -/
def IsNamed (name : Bytes) (field : Field) : Prop :=
  field.name.map lower = name.map lower

instance (name : Bytes) (field : Field) : Decidable (field.IsNamed name) :=
  inferInstanceAs (Decidable (_ = _))

theorem isNamed_iff (h : field.IsPlain) : isNamed name field.name = true ↔ field.IsNamed name := by
  have hnul : beforeNul field.name = field.name := by
    rw [beforeNul, List.takeWhile_eq_self_iff]
    intro b hb
    exact bne_iff_ne.mpr (h.isName b hb).2.2.2
  rw [isNamed, hnul, beq_iff_eq, IsNamed]

/-- The value that is read of a field, if it has this name. -/
def value? (name : Bytes) (field : Field) : Option Bytes :=
  if isNamed name field.name then some (headerValue (field.value ++ [0x0D])) else none

theorem value?_of_not_isNamed (h : field.IsPlain) (hname : ¬ field.IsNamed name) :
    field.value? name = none := by
  rw [value?, if_neg]
  rwa [isNamed_iff h]

/-- A text behind a space is read as it is. -/
theorem value?_spaced (hname : IsName name) (hne : text ≠ []) (htext : IsValue text) :
    (spaced name text).value? name = some text := by
  obtain ⟨first, rest, rfl⟩ := List.exists_cons_of_ne_nil hne
  have htrim : trimLeft ((0x20 :: first :: rest) ++ [0x0D]) = first :: rest ++ [0x0D] := by
    rw [trimLeft, List.cons_append, List.dropWhile_cons_of_pos (by decide)]
    exact List.dropWhile_cons_of_neg (by simp [htext.isBlank_of_mem_head? first rfl])
  have hnamed : isNamed name (spaced name (first :: rest)).name = true :=
    (isNamed_iff (isPlain_spaced hname htext)).mpr rfl
  rw [value?, if_pos hnamed, headerValue, spaced, htrim, dropFinal, if_pos List.getLast?_concat,
    List.dropLast_concat]

/-- The lines of fields end in carriage returns when they are cut at the newlines. -/
theorem headerValues_lines (h : ∀ field ∈ fields, field.IsPlain) :
    headerValues name (fields.map fun field => field.line ++ [0x0D])
      = fields.filterMap (value? name) := by
  rw [headerValues, List.filterMap_map]
  refine List.filterMap_congr fun field hfield => ?_
  have hcolon : (0x3A : UInt8) ∉ field.name := fun hmem => ((h field hfield).isName _ hmem).1 rfl
  rw [Function.comp_apply, line, List.append_assoc, List.cons_append, cutAt?_append_cons hcolon,
    value?]

end Field

/-! ## Requests -/

/-- What a client asks for. -/
structure Request where
  method : Bytes
  path : Bytes
  query : Option Bytes
  /-- The header fields beside the length and the authorization. -/
  fields : List Field
  body : Bytes
  deriving DecidableEq, Repr

namespace Request

variable {request : Request} {fields : List Field} {expected : Bytes}

/-- A request that can be written down. -/
structure WellFormed (request : Request) : Prop where
  method_ne_nil : request.method ≠ []
  ne_of_mem_method : ∀ b ∈ request.method, isBlank b = false ∧ b ≠ 0 ∧ b ≠ 0x3A
  path_ne_nil : request.path ≠ []
  ne_of_mem_path : ∀ b ∈ request.path, isBlank b = false ∧ b ≠ 0x3F
  ne_of_mem_query : ∀ b ∈ request.query.getD [], isBlank b = false
  isPlain : ∀ field ∈ request.fields, field.IsPlain
  not_isNamed : ∀ field ∈ request.fields, ¬ field.IsNamed (ascii "Content-Length") ∧
    ¬ field.IsNamed (ascii "Authorization")
  body_le : request.body.length ≤ maxBody

/-- The path and the query. -/
def target (request : Request) : Bytes :=
  request.path ++ match request.query with
    | some query => 0x3F :: query
    | none => []

/-- The request line. -/
def line (request : Request) : Bytes :=
  request.method ++ 0x20 :: (request.target ++ 0x20 :: ascii "HTTP/1.1")

/-- The header fields of a request where `expected` has to be brought. -/
def allFields (request : Request) (expected : Bytes) : List Field :=
  request.fields ++ .spaced (ascii "Content-Length") (Decimal.ofNat request.body.length)
    :: if expected = [] then [] else [.spaced (ascii "Authorization") expected]

/-- The lines of a head, each with its end. -/
def headLines (request : Request) (fields : List Field) : Bytes :=
  (request.line :: fields.map Field.line).flatMap (· ++ crlf)

/-- A head, with the empty line at its end. -/
def head (request : Request) (fields : List Field) : Bytes :=
  request.headLines fields ++ crlf

/-! ## The request line -/

theorem splitTarget_target (h : request.WellFormed) :
    splitTarget request.target = (request.path, request.query.getD []) := by
  have hmark : (0x3F : UInt8) ∉ request.path := fun hmem => (h.ne_of_mem_path _ hmem).2 rfl
  rw [splitTarget, target]
  cases request.query with
  | none => rw [List.append_nil, cutAt?_eq_none hmark]; rfl
  | some query => rw [cutAt?_append_cons hmark]; rfl

theorem isBlank_of_mem_target (h : request.WellFormed) :
    ∀ b ∈ request.target, isBlank b = false := by
  intro b hb
  rw [target, List.mem_append] at hb
  rcases hb with hb | hb
  · exact (h.ne_of_mem_path b hb).1
  · have hquery := h.ne_of_mem_query
    cases hq : request.query with
    | none =>
        rw [hq] at hb
        cases hb
    | some query =>
        rw [hq] at hb hquery
        rcases List.mem_cons.mp hb with rfl | hb
        · decide
        · exact hquery b hb

/-- What is read of the request line, and what is left for the header lines. -/
theorem parse_line_append (h : request.WellFormed) (rest : Bytes) :
    Head.parse (request.line ++ 0x0D :: rest)
      = ⟨request.method, request.target, lastAuthorization (0x0D :: rest)⟩ := by
  have htarget : request.target ≠ [] := by
    rw [target]
    exact List.append_ne_nil_of_left_ne_nil h.path_ne_nil _
  have hfirst : takeWord? (request.line ++ 0x0D :: rest) = some (request.method,
      0x20 :: (request.target ++ 0x20 :: (ascii "HTTP/1.1" ++ 0x0D :: rest))) := by
    rw [← takeWord?_append_cons h.method_ne_nil (fun b hb => (h.ne_of_mem_method b hb).1)
      (by decide : isBlank 0x20 = true), line]
    simp only [List.append_assoc, List.cons_append]
  have hsecond : takeWord? (0x20 :: (request.target ++ 0x20 :: (ascii "HTTP/1.1" ++ 0x0D :: rest)))
      = some (request.target, 0x20 :: (ascii "HTTP/1.1" ++ 0x0D :: rest)) := by
    rw [takeWord?_cons (by decide), takeWord?_append_cons htarget (isBlank_of_mem_target h)
      (by decide)]
  have hthird : takeWord? (0x20 :: (ascii "HTTP/1.1" ++ 0x0D :: rest))
      = some (ascii "HTTP/1.1", 0x0D :: rest) := by
    rw [takeWord?_cons (by decide),
      takeWord?_append_cons (by decide) (by decide +kernel) (by decide)]
  simp only [Head.parse, hfirst, hsecond, hthird]

/-- The request line announces no body, since a blank stands before its first colon. -/
theorem headerValues_line_cons (h : request.WellFormed) (lines : List Bytes) :
    headerValues (ascii "Content-Length") ((request.line ++ [0x0D]) :: lines)
      = headerValues (ascii "Content-Length") lines := by
  rw [headerValues, List.filterMap_cons_none, headerValues]
  cases hcut : cutAt? 0x3A (request.line ++ [0x0D]) with
  | none => rfl
  | some cut =>
      obtain ⟨key, value⟩ := cut
      have hkey : key = (request.line ++ [0x0D]).takeWhile (· != 0x3A) := by
        rw [cutAt?] at hcut
        split at hcut
        · exact (Prod.mk.inj (Option.some.inj hcut)).1.symm
        · cases hcut
      have hblank : 0x20 ∈ (beforeNul key).map lower := by
        have hcolon : ∀ b ∈ request.method, (b != 0x3A) = true := fun b hb =>
          bne_iff_ne.mpr (h.ne_of_mem_method b hb).2.2
        have hnul : ∀ b ∈ request.method, (b != 0) = true := fun b hb =>
          bne_iff_ne.mpr (h.ne_of_mem_method b hb).2.1
        rw [hkey, line, List.append_assoc, List.takeWhile_append_of_pos hcolon, List.cons_append,
          List.takeWhile_cons_of_pos (by decide), beforeNul, List.takeWhile_append_of_pos hnul,
          List.takeWhile_cons_of_pos (by decide), List.map_append, List.map_cons]
        exact List.mem_append_right _ List.mem_cons_self
      have hnamed : ¬ isNamed (ascii "Content-Length") key = true := by
        intro hnamed
        rw [isNamed, beq_iff_eq] at hnamed
        rw [hnamed] at hblank
        exact absurd hblank (by decide)
      simp only [if_neg hnamed]

theorem ne_of_mem_line (h : request.WellFormed) {b : UInt8} (hb : b ∈ request.line) :
    b ≠ 0x0D ∧ b ≠ 0x0A := by
  have hdark : ∀ {b : UInt8}, isBlank b = false → b ≠ 0x0D ∧ b ≠ 0x0A := by
    intro b hb
    constructor
    · rintro rfl
      exact absurd hb (by decide)
    · rintro rfl
      exact absurd hb (by decide)
  rw [line, List.mem_append, List.mem_cons, List.mem_append, List.mem_cons] at hb
  rcases hb with hb | rfl | hb | rfl | hb
  · exact hdark (h.ne_of_mem_method b hb).1
  · decide
  · exact hdark (isBlank_of_mem_target h b hb)
  · decide
  · exact (by decide +kernel : ∀ b ∈ ascii "HTTP/1.1", b ≠ 0x0D ∧ b ≠ 0x0A) b hb

/-! ## The lines of a head -/

theorem headLines_eq (request : Request) (fields : List Field) :
    request.headLines fields
      = ofLines ((request.line ++ [0x0D]) :: fields.map fun field => field.line ++ [0x0D]) := by
  rw [headLines, ofLines, List.flatMap_cons, List.flatMap_cons, List.flatMap_map,
    List.flatMap_map]
  simp [crlf]

theorem newline_notMem_append_return {line : Bytes} (h : ∀ b ∈ line, b ≠ 0x0D ∧ b ≠ 0x0A) :
    newline ∉ line ++ [0x0D] := by
  rw [List.mem_append, List.mem_singleton]
  rintro (hmem | hmem)
  · exact (h _ hmem).2 rfl
  · exact absurd hmem (by decide)

theorem lines_fields (h : ∀ field ∈ fields, field.IsPlain) :
    lines (ofLines (fields.map fun field => field.line ++ [0x0D]))
      = fields.map fun field => field.line ++ [0x0D] := by
  apply lines_ofLines
  intro line hline
  obtain ⟨field, hfield, rfl⟩ := List.mem_map.mp hline
  exact newline_notMem_append_return fun b hb => (h field hfield).ne_of_mem_line hb

theorem lines_headLines (h : request.WellFormed) (hfields : ∀ field ∈ fields, field.IsPlain) :
    lines (request.headLines fields)
      = (request.line ++ [0x0D]) :: fields.map fun field => field.line ++ [0x0D] := by
  rw [headLines_eq, ofLines_cons, lines, terminated_append_cons
    (newline_notMem_append_return fun b hb => ne_of_mem_line h hb)]
  exact congrArg _ (lines_fields hfields)

theorem isPlain_allFields (h : request.WellFormed) (hexpected : IsValue expected) :
    ∀ field ∈ request.allFields expected, field.IsPlain := by
  intro field hfield
  rw [allFields, List.mem_append, List.mem_cons] at hfield
  rcases hfield with hfield | rfl | hfield
  · exact h.isPlain field hfield
  · exact Field.isPlain_spaced (by decide +kernel) (isValue_ofNat _)
  · split at hfield
    · cases hfield
    · rw [List.mem_singleton.mp hfield]
      exact Field.isPlain_spaced (by decide +kernel) hexpected

/-- The first field with an own name has the only value of that name, in whatever order the
fields are written. -/
theorem filterMap_fields {name : Bytes} {values : List Bytes}
    (hperm : fields.Perm (request.allFields expected))
    (hother : ∀ field ∈ request.fields, field.value? name = none)
    (hvalues : (Field.spaced (ascii "Content-Length") (Decimal.ofNat request.body.length)
      :: if expected = [] then [] else [.spaced (ascii "Authorization") expected]).filterMap
        (Field.value? name) = values) (hlen : values.length ≤ 1) :
    fields.filterMap (Field.value? name) = values := by
  have h := hperm.filterMap (Field.value? name)
  rw [allFields, List.filterMap_append, List.filterMap_eq_nil_iff.mpr hother, List.nil_append,
    hvalues] at h
  cases values with
  | nil => exact h.eq_nil
  | cons value values =>
      obtain rfl : values = [] := by
        rw [List.length_cons] at hlen
        exact List.length_eq_zero_iff.mp (by omega)
      exact List.perm_singleton.mp h

/-- The length announced is that of the body. -/
theorem contentLength_headLines (h : request.WellFormed) (hexpected : IsValue expected)
    (hperm : fields.Perm (request.allFields expected)) :
    contentLength (request.headLines fields) = .ok request.body.length := by
  have hplain : ∀ field ∈ fields, field.IsPlain := fun field hfield =>
    isPlain_allFields h hexpected field (hperm.subset hfield)
  have hlength : (Field.spaced (ascii "Content-Length") (Decimal.ofNat request.body.length)).value?
      (ascii "Content-Length") = some (Decimal.ofNat request.body.length) :=
    Field.value?_spaced (by decide +kernel) (Decimal.ofNat_ne_nil _) (isValue_ofNat _)
  have hvalues : fields.filterMap (Field.value? (ascii "Content-Length"))
      = [Decimal.ofNat request.body.length] := by
    refine filterMap_fields hperm (fun field hfield => Field.value?_of_not_isNamed
      (h.isPlain field hfield) (h.not_isNamed field hfield).1) ?_ le_rfl
    rw [List.filterMap_cons_some hlength]
    split
    · rfl
    · rfl
  have hlt : request.body.length < 10 ^ 9 := lt_of_le_of_lt h.body_le (by decide)
  rw [contentLength, lines_headLines h hplain, headerValues_line_cons h,
    Field.headerValues_lines hplain, hvalues, List.foldlM_cons, Decimal.upTo?_ofNat, if_pos hlt]
  rfl

/-- The handler is shown what the client meant. -/
theorem parse_headLines (h : request.WellFormed) (hexpected : IsValue expected)
    (hperm : fields.Perm (request.allFields expected)) :
    Head.parse (request.headLines fields) = ⟨request.method, request.target, expected⟩ := by
  have hplain : ∀ field ∈ fields, field.IsPlain := fun field hfield =>
    isPlain_allFields h hexpected field (hperm.subset hfield)
  have hvalues : fields.filterMap (Field.value? (ascii "Authorization"))
      = if expected = [] then [] else [expected] := by
    refine filterMap_fields hperm (fun field hfield => Field.value?_of_not_isNamed
      (h.isPlain field hfield) (h.not_isNamed field hfield).2) ?_ ?_
    · rw [List.filterMap_cons_none rfl]
      split
      · rfl
      · rename_i hne
        rw [List.filterMap_cons_some (Field.value?_spaced (by decide +kernel) hne hexpected)]
        rfl
    · split
      · exact Nat.zero_le 1
      · exact le_rfl
  have hnonempty : (fields.map fun field => field.line ++ [0x0D]).takeWhile
      (fun line => line != [0x0D] && !line.isEmpty)
        = fields.map fun field => field.line ++ [0x0D] := by
    rw [List.takeWhile_eq_self_iff]
    intro line hline
    obtain ⟨field, -, rfl⟩ := List.mem_map.mp hline
    have hne : field.line ++ [0x0D] ≠ [0x0D] := fun heq =>
      absurd (congrArg List.length heq) (by simp [Field.line]; omega)
    simp [hne]
  have hlast : lastAuthorization (0x0D :: 0x0A :: ofLines (fields.map fun field =>
      field.line ++ [0x0D])) = expected := by
    rw [lastAuthorization, ← List.singleton_append, cutAt?_append_cons (by decide)]
    simp only [headerLines, lines_fields hplain, hnonempty, Field.headerValues_lines hplain,
      hvalues]
    split
    · rename_i hnil
      rw [hnil]
      rfl
    · rfl
  rw [headLines_eq, ofLines_cons, List.append_assoc, List.singleton_append, parse_line_append h,
    hlast]

/-! ## The end of a head -/

theorem cutAtMark?_line_append {line : Bytes} (h : 0x0D ∉ line) (text : Bytes) :
    cutAtMark? emptyLine (line ++ text) =
      (cutAtMark? emptyLine text).map (Prod.map (line ++ ·) id) :=
  cutAtMark?_append_of_notMem h text

/-- The end of a line in front of a line that is not empty is not an empty line. -/
theorem cutAtMark?_crlf_append {b : UInt8} (hb : b ≠ 0x0D) (text : Bytes) :
    cutAtMark? emptyLine (crlf ++ b :: text) =
      (cutAtMark? emptyLine (b :: text)).map (Prod.map (crlf ++ ·) id) := by
  have hfirst : ¬ emptyLine <+: 0x0D :: 0x0A :: b :: text := by
    simpa [emptyLine, crlf, List.cons_prefix_cons] using fun heq => absurd heq.symm hb
  have hsecond : ¬ emptyLine <+: 0x0A :: b :: text := by
    simp [emptyLine, crlf, List.cons_prefix_cons]
  rw [crlf, List.cons_append, List.singleton_append, cutAtMark?_cons hfirst,
    cutAtMark?_cons hsecond, Option.map_map]
  rfl

/-- The first empty line behind lines that are not empty is the one written behind them. -/
theorem cutAtMark?_lines {lines : List Bytes} (hne : lines ≠ [])
    (h : ∀ line ∈ lines, line ≠ [] ∧ 0x0D ∉ line) (rest : Bytes) :
    ∃ before, before ++ crlf = lines.flatMap (· ++ crlf) ∧
      cutAtMark? emptyLine (lines.flatMap (· ++ crlf) ++ crlf ++ rest) = some (before, rest) := by
  induction lines with
  | nil => exact absurd rfl hne
  | cons line lines ih =>
      obtain ⟨-, hline⟩ := h line List.mem_cons_self
      cases lines with
      | nil =>
          refine ⟨line, by simp, ?_⟩
          have heq : [line].flatMap (· ++ crlf) ++ crlf ++ rest = line ++ (emptyLine ++ rest) := by
            simp [emptyLine]
          rw [heq, cutAtMark?_line_append hline, cutAtMark?_append]
          simp
      | cons next lines =>
          obtain ⟨before, hbefore, hcut⟩ := ih (List.cons_ne_nil next lines)
            fun l hl => h l (List.mem_cons_of_mem line hl)
          obtain ⟨hnext, hreturn⟩ := h next (List.mem_cons_of_mem line List.mem_cons_self)
          obtain ⟨first, tail, rfl⟩ := List.exists_cons_of_ne_nil hnext
          have hfirst : first ≠ 0x0D := fun heq => hreturn (heq ▸ List.mem_cons_self)
          refine ⟨line ++ (crlf ++ before), ?_, ?_⟩
          · rw [List.flatMap_cons, ← hbefore]
            simp only [List.append_assoc]
          · rw [List.flatMap_cons, List.append_assoc, List.append_assoc, List.append_assoc,
              ← List.append_assoc _ crlf rest, cutAtMark?_line_append hline]
            rw [List.flatMap_cons, List.cons_append, List.cons_append, List.cons_append,
              List.cons_append] at hcut ⊢
            rw [cutAtMark?_crlf_append hfirst, hcut]
            rfl

/-- The lines of a request come before the empty line behind them. -/
theorem cutAtMark?_head_append (h : request.WellFormed) (hfields : ∀ field ∈ fields, field.IsPlain)
    (rest : Bytes) :
    ∃ before, before ++ crlf = request.headLines fields ∧
      cutAtMark? emptyLine (request.head fields ++ rest) = some (before, rest) := by
  refine cutAtMark?_lines (List.cons_ne_nil _ _) ?_ rest
  intro line hline
  rcases List.mem_cons.mp hline with rfl | hline
  · refine ⟨?_, fun hmem => (ne_of_mem_line h hmem).1 rfl⟩
    rw [Request.line]
    exact List.append_ne_nil_of_left_ne_nil h.method_ne_nil _
  · obtain ⟨field, hfield, rfl⟩ := List.mem_map.mp hline
    refine ⟨?_, fun hmem => ((hfields field hfield).ne_of_mem_line hmem).1 rfl⟩
    rw [Field.line]
    exact List.append_ne_nil_of_right_ne_nil _ (List.cons_ne_nil _ _)

end Request

/-! ## Requests served -/

variable {request : Request} {fields : List Field} {expected more : Bytes} {reads : List Bytes}

/-- A request reaches the handler as it was meant, in whatever order its fields are written, into
whatever reads it is cut and whatever follows it. Beside the note on it, serving it does to the
service what the handler does. -/
theorem serve_request (s : Service) (h : request.WellFormed) (hexpected : IsValue expected)
    (hperm : fields.Perm (request.allFields expected))
    (hlen : (request.head fields).length ≤ maxHead) (hreads : ∀ read ∈ reads, read ≠ [])
    (hraw : reads.flatten = request.head fields ++ request.body ++ more) :
    let handled := Api.handle s request.method request.path (request.query.getD []) request.body
    (serve s expected reads).2 = answer handled.2 ∧
      (serve s expected reads).1 = handled.1.note .debug
        (servedText request.method request.path handled.2.status) ∧
      (serve s expected reads).1.recorder = handled.1.recorder := by
  intro handled
  have hplain : ∀ field ∈ fields, field.IsPlain := fun field hfield =>
    Request.isPlain_allFields h hexpected field (hperm.subset hfield)
  obtain ⟨before, hbefore, hcut⟩ :=
    Request.cutAtMark?_head_append h hplain (request.body ++ more)
  rw [← List.append_assoc, ← hraw] at hcut
  have hshort : before.length + 4 ≤ maxHead := by
    have heq := congrArg List.length hbefore
    rw [Request.head, List.length_append, ← heq] at hlen
    simpa [crlf, Nat.add_assoc] using hlen
  have hreceive := receive_of_cut hcut hreads hshort
    (by rw [hbefore, Request.contentLength_headLines h hexpected hperm]) h.body_le
  have hauthorized : isAuthorized expected ⟨request.method, request.target, expected⟩ = true := by
    simp [isAuthorized]
  have hserve : serve s expected reads = (handled.1.note .debug
      (servedText request.method request.path handled.2.status), answer handled.2) := by
    rw [serve, hreceive]
    simp only [hbefore, Request.parse_headLines h hexpected hperm, if_pos hauthorized,
      Request.splitTarget_target h]
    rfl
  rw [hserve]
  exact ⟨rfl, rfl, rfl⟩

/-- A request with a header field that looks like the length and a body that looks like a head. -/
def Request.disguised : Request where
  method := ascii "POST"
  path := ascii "/control/querylog_config"
  query := some (ascii "a:b?")
  fields := [⟨ascii "X-Content-Length", ascii ": 7"⟩, ⟨[], ascii "Authorization: "⟩]
  body := ascii "Content-Length: 0\r\n\r\n"

theorem Request.wellFormed_disguised : Request.disguised.WellFormed where
  method_ne_nil := by decide
  ne_of_mem_method := by decide +kernel
  path_ne_nil := by decide
  ne_of_mem_path := by decide +kernel
  ne_of_mem_query := by decide +kernel
  isPlain := by decide +kernel
  not_isNamed := by decide
  body_le := by decide

theorem serve_request_disguised :
    let request := Request.disguised
    let fields := (request.allFields (ascii "Basic eDp5")).reverse
    let s := Service.launch .small .empty .silent
    let handled := Api.handle s request.method request.path (request.query.getD []) request.body
    let served := serve s (ascii "Basic eDp5")
      (Bytes.reads 7 (request.head fields ++ request.body ++ ascii "GET"))
    served.2 = answer handled.2 ∧ served.1 = handled.1.note .debug
        (servedText request.method request.path handled.2.status) ∧
      served.1.recorder = handled.1.recorder := by
  intro request fields s
  exact serve_request s Request.wellFormed_disguised ⟨by decide +kernel, by decide +kernel⟩
    (List.reverse_perm _) (by decide +kernel) (fun _ => ne_nil_of_mem_reads) (flatten_reads 7 _)

end Http

end ResolverLog
