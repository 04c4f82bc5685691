import ResolverLog.Proofs.HttpReads

/-!
# Long heads

A head may have so many bytes, but its length is looked at only behind a read
that has not brought its end. Reads that go beyond the limit are refused if
they leave the head open, and only then: a head whose end comes with the very
read that goes beyond the limit is served, so that whether a request is refused
depends on how it is cut.
-/

namespace ResolverLog

namespace Http

open Bytes

variable {raw : Bytes} {reads : List Bytes}

/-- In front of the first empty line, or in all where there is none, a request has more bytes than
a head may have. -/
def IsLong (raw : Bytes) : Prop :=
  (∃ before after, IsFirstCut emptyLine raw before after ∧ maxHead < before.length) ∨
    ¬ emptyLine <:+: raw ∧ maxHead < raw.length

theorem IsLong.lt_length (h : IsLong raw) : maxHead < raw.length := by
  obtain ⟨before, after, hcut, hlong⟩ | ⟨-, hlong⟩ := h
  · rw [hcut.eq, List.length_append, List.length_append]
    omega
  · exact hlong

/-- The first reads that together go beyond a limit do so by one read at most. -/
theorem exists_prefix_lt {limit size : Nat} (hsizes : ∀ read ∈ reads, read.length ≤ size)
    (h : limit < reads.flatten.length) :
    ∃ front, front <+: reads ∧ limit < front.flatten.length ∧
      front.flatten.length ≤ limit + size := by
  induction reads generalizing limit with
  | nil => exact absurd h (Nat.not_lt_zero limit)
  | cons read reads ih =>
      obtain ⟨hread, hsizes⟩ := List.forall_mem_cons.mp hsizes
      by_cases hfirst : limit < read.length
      · refine ⟨[read], ⟨reads, rfl⟩, ?_, ?_⟩
        · rwa [List.flatten_singleton]
        · rw [List.flatten_singleton]
          omega
      · rw [List.flatten_cons, List.length_append] at h
        have hrest : limit - read.length < reads.flatten.length := by omega
        obtain ⟨front, hfront, hlong, hle⟩ := ih hsizes hrest
        refine ⟨read :: front, (List.prefix_cons_inj read).mpr hfront, ?_, ?_⟩
        · rw [List.flatten_cons, List.length_append]
          omega
        · rw [List.flatten_cons, List.length_append]
          omega

/-- A head that does not end within one read behind the limit is overrun. -/
theorem overruns_of_not_endsWithin (hlong : IsLong raw) (harrives : Arrives raw reads)
    (h : ¬ EndsWithin (maxHead + readSize) raw) : Overruns [] reads := by
  have hlength := hlong.lt_length
  rw [← harrives.flatten_eq] at hlength
  obtain ⟨front, hfront, hlt, hle⟩ :=
    exists_prefix_lt (fun read hread => (harrives.sizes read hread).2) hlength
  refine ⟨front, hfront, hlt, fun hended => h ?_⟩
  obtain ⟨more, rfl⟩ := hfront
  have hpre : front.flatten <+: raw := ⟨more.flatten, by rw [← harrives.flatten_eq]; simp⟩
  cases hcut : cutAtMark? emptyLine raw with
  | none => exact absurd (hended.trans hpre.isInfix) (cutAtMark?_eq_none_iff.mp hcut)
  | some cut =>
      have hfirst := cutAtMark?_eq_some_iff.mp hcut
      exact ⟨cut.1, cut.2, hfirst, ((hfirst.infix_iff hpre).mp hended).trans hle⟩

/-- Reads of the greatest size go beyond the limit by a whole one. -/
theorem not_overruns_reads (h : EndsWithin (maxHead + readSize) raw) :
    ¬ Overruns [] (Bytes.reads readSize raw) := by
  obtain ⟨before, after, hcut, hlen⟩ := h
  rintro ⟨front, hfront, hlong, hopen⟩
  rw [List.nil_append] at hlong hopen
  have hpre : front.flatten <+: raw := by
    obtain ⟨more, hmore⟩ := hfront
    exact ⟨more.flatten, by rw [← List.flatten_append, hmore, flatten_reads]⟩
  rcases dvd_length_of_prefix_reads (by decide) hfront with hall | ⟨count, hcount⟩
  · exact hopen (hall ▸ hcut.occurs)
  · have hreach : maxHead + readSize ≤ front.flatten.length := by
      rw [hcount] at hlong ⊢
      rw [maxHead, readSize] at *
      omega
    exact hopen ((hcut.infix_iff hpre).mpr (hlen.trans hreach))

/-- A request that is too long for a head is refused before anything is done when its reads go
beyond the limit without the end of the head; otherwise the read that goes beyond it brings that
end, and the request is read as if there were no limit. Reads go beyond it in any case when the head
does not end within one read behind it, and those of the greatest size in no other case. -/
theorem refuses_long_head (hlong : IsLong raw) (harrives : Arrives raw reads) :
    (Overruns [] reads → receive reads = .error 413 ∧
      ∀ s expected, serve s expected reads = (s, refusal 413)) ∧
    (¬ Overruns [] reads → receive reads = readWhole raw) ∧
    (¬ EndsWithin (maxHead + readSize) raw → Overruns [] reads) ∧
    (EndsWithin (maxHead + readSize) raw → ¬ Overruns [] (Bytes.reads readSize raw)) := by
  refine ⟨fun h => ?_, fun h => ?_, overruns_of_not_endsWithin hlong harrives, not_overruns_reads⟩
  · have hrefused := receive_of_overruns harrives.ne_nil h
    exact ⟨hrefused, fun s expected => by rw [serve, hrefused]⟩
  · rw [receive_of_not_overruns harrives.ne_nil h, harrives.flatten_eq]

/-- A request line of 65572 bytes. -/
def longLine : Bytes :=
  ascii "GET /control/querylog_info?" ++ List.replicate 65536 0x61 ++ ascii " HTTP/1.1"

theorem length_longLine : longLine.length = 65572 := by
  rw [longLine, List.length_append, List.length_append, List.length_replicate]
  rfl

theorem ne_of_mem_longLine {b : UInt8} (h : b ∈ longLine) :
    b ≠ 0x0D ∧ b ≠ 0x0A ∧ b ≠ 0x3A := by
  rw [longLine, List.mem_append, List.mem_append, List.mem_replicate] at h
  obtain (h | ⟨-, rfl⟩) | h := h
  · revert b
    decide +kernel
  · decide
  · revert b
    decide +kernel

theorem isFirstCut_longLine : IsFirstCut emptyLine (longLine ++ emptyLine) longLine [] := by
  apply cutAtMark?_eq_some_iff.mp
  have hreturn : 0x0D ∉ longLine := fun h => (ne_of_mem_longLine h).1 rfl
  rw [emptyLine, crlf, List.cons_append, cutAtMark?_append_of_notMem hreturn]
  have hmark := cutAtMark?_append emptyLine []
  rw [List.append_nil] at hmark
  rw [emptyLine, crlf, List.cons_append] at hmark
  rw [hmark, Option.map_some]
  simp

theorem isLong_longLine : IsLong (longLine ++ emptyLine) :=
  .inl ⟨longLine, [], isFirstCut_longLine, by rw [length_longLine]; decide⟩

theorem endsWithin_longLine : EndsWithin (maxHead + readSize) (longLine ++ emptyLine) :=
  ⟨longLine, [], isFirstCut_longLine, by rw [length_longLine]; decide⟩

theorem arrives_longLine :
    Arrives (longLine ++ emptyLine) (Bytes.reads readSize (longLine ++ emptyLine)) :=
  arrives_reads (by decide) (Nat.le_refl _) _

/-- A single line without a colon announces no body. -/
theorem announces_zero {line : Bytes} (h : ∀ b ∈ line, b ≠ 0x0D ∧ b ≠ 0x0A ∧ b ≠ 0x3A) :
    Announces (line ++ crlf) 0 := by
  have hnewline : ∀ text ∈ [line ++ [0x0D]], newline ∉ text := by
    intro text htext
    rw [List.mem_singleton.mp htext, List.mem_append, List.mem_singleton]
    rintro (hmem | hmem)
    · exact (h _ hmem).2.1 rfl
    · exact absurd hmem (by decide)
  have hcolon : 0x3A ∉ line ++ [0x0D] := by
    rw [List.mem_append, List.mem_singleton]
    rintro (hmem | hmem)
    · exact (h _ hmem).2.2 rfl
    · exact absurd hmem (by decide)
  have hlines : lines (line ++ crlf) = [line ++ [0x0D]] := by
    rw [← lines_ofLines hnewline]
    simp [ofLines, crlf]
  refine ⟨[], ?_, rfl⟩
  rw [hlines, headerValues, List.filterMap_cons, cutAt?_eq_none hcolon]
  rfl

theorem readWhole_longLine : readWhole (longLine ++ emptyLine) = .ok (longLine ++ crlf, []) := by
  rw [readWhole_of_announces isFirstCut_longLine (announces_zero fun _ => ne_of_mem_longLine)
    (Nat.zero_le _), if_neg (Nat.not_lt_zero _), List.take_nil]

/-- A head beyond the limit gets through where its end comes with the read that goes beyond. -/
theorem refuses_long_head_longLine :
    receive (Bytes.reads readSize (longLine ++ emptyLine)) = readWhole (longLine ++ emptyLine) := by
  obtain ⟨-, hwhole, -, hwithin⟩ := refuses_long_head isLong_longLine arrives_longLine
  exact hwhole (hwithin endsWithin_longLine)

/-- The limit does not hold for every head. -/
theorem not_refuses_long_head : ¬ ∀ raw reads, IsLong raw → Arrives raw reads →
    receive reads = .error 413 ∧ ∀ s expected, serve s expected reads = (s, refusal 413) := by
  intro hall
  have hread := receive_of_not_overruns arrives_longLine.ne_nil
    (not_overruns_reads endsWithin_longLine)
  rw [arrives_longLine.flatten_eq, readWhole_longLine,
    (hall _ _ isLong_longLine arrives_longLine).1] at hread
  cases hread

end Http

end ResolverLog
