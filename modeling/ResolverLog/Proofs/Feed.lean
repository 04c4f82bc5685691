import ResolverLog.Feed
import ResolverLog.Proofs.Bytes

/-!
# The lines of a stream

The lines that are delivered from a stream are those of all its bytes, however
the bytes are cut into reads.
-/

namespace ResolverLog

namespace Feed

open Bytes

variable {partialLine : Bytes}

/-- Complete lines come off in front of whatever follows. -/
theorem lines_append (text more : Bytes) :
    lines (text ++ more) = (completeLines text).1 ++ lines ((completeLines text).2 ++ more) ∧
      newline ∉ (completeLines text).2 := by
  obtain ⟨front, last, hpieces⟩ :=
    (List.eq_nil_or_concat' (splitOn newline text)).resolve_left (splitOn_ne_nil newline text)
  have hcut : completeLines text = (front, last) := by
    rw [completeLines, hpieces]
    simp
  have hclean : ∀ piece ∈ front ++ [last], newline ∉ piece := by
    intro piece hpiece hmem
    rw [← hpieces] at hpiece
    exact absurd (eq_false_of_mem_splitWhere hpiece hmem) (by decide)
  have hjoin : join [newline] (front ++ [last]) = text := by
    rw [← hpieces, splitOn_eq, join, List.intercalate_splitOn]
  rw [hcut]
  refine ⟨?_, hclean last (List.mem_append_right _ (List.mem_singleton_self last))⟩
  by_cases hnil : front = []
  · subst hnil
    rw [List.nil_append, join, List.intercalate_singleton] at hjoin
    rw [hjoin, List.nil_append]
  · rw [← hjoin, join_concat hnil, List.append_assoc, List.cons_append, lines,
      terminated_append_sep, splitOn_join hnil fun piece hpiece =>
        hclean piece (List.mem_append_left _ hpiece)]
    rfl

theorem streamFrom_eq (delivered : List Bytes) (h : newline ∉ partialLine) (reads : List Bytes) :
    streamFrom partialLine delivered reads
      = delivered.reverse ++ lines (partialLine ++ reads.flatten) := by
  induction reads generalizing partialLine delivered with
  | nil =>
      rw [streamFrom, List.flatten_nil, List.append_nil, lines_of_notMem h]
      cases partialLine with
      | nil => simp
      | cons b rest => simp
  | cons read reads ih =>
      obtain ⟨hlines, hleft⟩ := lines_append (partialLine ++ read) reads.flatten
      rw [streamFrom]
      simp only
      rw [ih _ hleft, List.flatten_cons, ← List.append_assoc partialLine, hlines,
        List.reverse_append, List.reverse_reverse, List.append_assoc]

/-- A stream, however it is cut into reads, delivers what a file with all of its bytes does. -/
theorem ofStream_eq_ofFile (stop queueClosed : Bool) (reads : List Bytes) :
    ofStream stop queueClosed reads = ofFile stop queueClosed reads.flatten := by
  rw [ofStream, ofFile, streamFrom_eq [] List.not_mem_nil]
  rfl

/-- However a stream is cut into reads, its lines are delivered in their order. -/
theorem lines_ofStream (reads : List Bytes) :
    (ofStream false false reads).lines = lines reads.flatten := by
  rw [ofStream_eq_ofFile]
  rfl

end Feed

end ResolverLog
