import ResolverLog.Record
import ResolverLog.Proofs.Bytes
import ResolverLog.Proofs.Lookup

/-!
# Fields of a line

A piece of a line is read as a field when it has a key, which ends at its first
equals sign, and behind it escapes that stand for a value. Pieces are read as
their fields one by one, unless a key stands twice.
-/

namespace ResolverLog

open Bytes

namespace Record

variable {seen found read : Fields} {piece key : Bytes} {pieces : List Bytes}
  {pair : Bytes × Bytes}

/-- A piece has the key that stands before its first equals sign. -/
def HasKey (key piece : Bytes) : Prop :=
  ∃ escaped, piece = key ++ 0x3D :: escaped ∧ 0x3D ∉ key

/-- A piece reads as a key that is not empty and the value that its escapes stand for. -/
def Reads (piece : Bytes) (pair : Bytes × Bytes) : Prop :=
  pair.1 ≠ [] ∧ 0x3D ∉ pair.1 ∧
    ∃ escaped, piece = pair.1 ++ 0x3D :: escaped ∧ Percent.decode escaped = .ok pair.2

theorem Reads.hasKey (h : Reads piece pair) : HasKey pair.1 piece := by
  obtain ⟨-, hkey, escaped, hpiece, -⟩ := h
  exact ⟨escaped, hpiece, hkey⟩

theorem HasKey.unique {key' : Bytes} (h : HasKey key piece) (h' : HasKey key' piece) :
    key = key' := by
  obtain ⟨escaped, rfl, hkey⟩ := h
  obtain ⟨escaped', heq, hkey'⟩ := h'
  have hcut := cutAt?_append_cons hkey escaped
  rw [heq, cutAt?_append_cons hkey'] at hcut
  exact (congrArg Prod.fst (Option.some.inj hcut)).symm

theorem Reads.unique {pair' : Bytes × Bytes} (h : Reads piece pair) (h' : Reads piece pair') :
    pair = pair' := by
  have hkeys : pair.1 = pair'.1 := h.hasKey.unique h'.hasKey
  obtain ⟨-, -, escaped, rfl, hvalue⟩ := h
  obtain ⟨-, -, escaped', heq, hvalue'⟩ := h'
  rw [hkeys, List.append_cancel_left_eq, List.cons.injEq] at heq
  rw [heq.2, hvalue'] at hvalue
  exact Prod.ext hkeys (Except.ok.inj hvalue).symm

/-- Reading goes on behind a field whose key is new. -/
theorem fieldsFrom_cons (h : Reads piece pair) (seen : Fields) (pieces : List Bytes) :
    fieldsFrom seen (piece :: pieces) =
      if pair.1 ∈ seen.map Prod.fst then .error (.duplicateField pair.1)
      else fieldsFrom (pair :: seen) pieces := by
  obtain ⟨key, value⟩ := pair
  obtain ⟨hne, hkey, escaped, rfl, hvalue⟩ := h
  obtain ⟨b, rest, rfl⟩ := List.exists_cons_of_ne_nil hne
  rw [fieldsFrom, cutAt?_append_cons hkey]
  simp only [hvalue]
  by_cases hmem : b :: rest ∈ seen.map Prod.fst
  · rw [if_pos hmem, if_pos (Option.isSome_iff_ne_none.mpr fun hnone =>
      Lookup.lookup_eq_none_iff_notMem.mp hnone hmem)]
  · rw [if_neg hmem, Lookup.lookup_eq_none_iff_notMem.mpr hmem]
    rfl

/-- Reading ends at a piece that reads as nothing. -/
theorem exists_fieldsFrom_error (h : ∀ pair, ¬ Reads piece pair) (seen : Fields)
    (pieces : List Bytes) : ∃ fault, fieldsFrom seen (piece :: pieces) = .error fault := by
  rw [fieldsFrom]
  split
  · rename_i b key escaped hcut
    obtain ⟨rfl, hkey⟩ := cutAt?_eq_some_iff.mp hcut
    cases hvalue : Percent.decode escaped with
    | error cause => exact ⟨_, rfl⟩
    | ok value => exact absurd ⟨List.cons_ne_nil b key, hkey, escaped, rfl, hvalue⟩ (h (_, value))
  · exact ⟨_, rfl⟩

/-- Pieces are read behind others when each reads as a field and no key stands twice. -/
theorem fieldsFrom_eq_ok_iff (hseen : (seen.map Prod.fst).Nodup) :
    fieldsFrom seen pieces = .ok found ↔
      ∃ read, List.Forall₂ Reads pieces read ∧ found = seen.reverse ++ read ∧
        (found.map Prod.fst).Nodup := by
  induction pieces generalizing seen with
  | nil =>
      rw [fieldsFrom, Except.ok.injEq]
      constructor
      · rintro rfl
        refine ⟨[], .nil, (List.append_nil _).symm, ?_⟩
        rw [List.map_reverse]
        exact List.nodup_reverse.mpr hseen
      · rintro ⟨read, hread, rfl, -⟩
        cases hread
        exact (List.append_nil _).symm
  | cons piece pieces ih =>
      by_cases hreads : ∃ pair, Reads piece pair
      · obtain ⟨pair, hpair⟩ := hreads
        rw [fieldsFrom_cons hpair]
        by_cases hmem : pair.1 ∈ seen.map Prod.fst
        · rw [if_pos hmem]
          constructor
          · intro h
            cases h
          · rintro ⟨read, hread, rfl, hnodup⟩
            cases hread with
            | cons hpair' _ =>
                obtain rfl := hpair.unique hpair'
                rw [List.map_append, List.map_reverse] at hnodup
                exact absurd rfl ((List.nodup_append.mp hnodup).2.2 pair.1
                  (List.mem_reverse.mpr hmem) pair.1 List.mem_cons_self)
        · have hnew : ((pair :: seen).map Prod.fst).Nodup := List.nodup_cons.mpr ⟨hmem, hseen⟩
          rw [if_neg hmem, ih hnew]
          constructor
          · rintro ⟨read, hread, rfl, hnodup⟩
            exact ⟨pair :: read, .cons hpair hread, by simp, hnodup⟩
          · rintro ⟨read, hread, rfl, hnodup⟩
            cases hread with
            | cons hpair' hread =>
                obtain rfl := hpair.unique hpair'
                exact ⟨_, hread, by simp, hnodup⟩
      · obtain ⟨fault, hfault⟩ := exists_fieldsFrom_error (not_exists.mp hreads) seen pieces
        rw [hfault]
        constructor
        · intro h
          cases h
        · rintro ⟨read, hread, -, -⟩
          cases hread with
          | cons hpair _ => exact absurd ⟨_, hpair⟩ hreads

/-- Pieces are read when each reads as a field and no key stands twice. -/
theorem fieldsFrom_nil_eq_ok_iff : fieldsFrom [] pieces = .ok found ↔
    List.Forall₂ Reads pieces found ∧ (found.map Prod.fst).Nodup := by
  have hnil : (([] : Fields).map Prod.fst).Nodup := List.nodup_nil
  rw [fieldsFrom_eq_ok_iff hnil]
  simp

/-- The fields of pieces and of those behind them stand in the same order. -/
theorem forall₂_append_iff {more : List Bytes} : List.Forall₂ Reads (pieces ++ more) found ↔
    ∃ read behind, List.Forall₂ Reads pieces read ∧ List.Forall₂ Reads more behind ∧
      found = read ++ behind := by
  constructor
  · intro h
    have hfront := List.forall₂_take pieces.length h
    have hback := List.forall₂_drop pieces.length h
    rw [List.take_left' rfl] at hfront
    rw [List.drop_left' rfl] at hback
    exact ⟨_, _, hfront, hback, (List.take_append_drop _ _).symm⟩
  · rintro ⟨read, behind, hread, hbehind, rfl⟩
    exact List.rel_append hread hbehind

end Record

end ResolverLog
