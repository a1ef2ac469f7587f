import DimosViewer.Chunk.Laws

/-!
# Row id ranges of components

`row_id_range_per_component` returns the two ends of a sorted chunk's range the wrong way round,
and one and the same range for every column of an unsorted chunk.
-/

namespace DimosViewer

-- ---------------------------------------------------------------------------
-- First and last entries
-- ---------------------------------------------------------------------------

theorem foldl_some_eq_getLast? (l : List α) (acc : Option α) :
    l.foldl (fun _ x => some x) acc = l.getLast?.or acc := by
  induction l generalizing acc with
  | nil => rfl
  | cons x rest ih =>
    rw [List.foldl_cons, ih]
    cases rest with
    | nil => rfl
    | cons y rest => simp [List.getLast?_cons]

theorem foldl_reverse_some_eq_head? (l : List α) :
    l.reverse.foldl (fun _ x => some x) none = l.head? := by
  rw [foldl_some_eq_getLast?, List.getLast?_reverse, Option.or_none]

theorem foldl_eq_of_forall_not {p : α → α → Prop} [DecidableRel p] {b : α} (h : ∀ x, ¬ p x b)
    (l : List α) : l.foldl (fun acc x => if p x acc then x else acc) b = b := by
  induction l with
  | nil => rfl
  | cons x rest ih => rw [List.foldl_cons, if_neg (h x), ih]

namespace Chunk

theorem rowIdRangeOf_sorted {c : Chunk} (h : c.isSorted = true)
    (column : SerializedComponentColumn) :
    c.rowIdRangeOf column = (column.validEntries c.rowIds).getLast?.bind fun last =>
      (column.validEntries c.rowIds).head?.map (last, ·) := by
  rw [rowIdRangeOf, if_pos h, foldl_some_eq_getLast?, foldl_reverse_some_eq_head?,
    Option.or_none]
  cases (column.validEntries c.rowIds).getLast? with
  | none => rfl
  | some last => cases (column.validEntries c.rowIds).head? <;> rfl

theorem rowIdRangeOf_unsorted {c : Chunk} (h : c.isSorted = false)
    (column : SerializedComponentColumn) :
    c.rowIdRangeOf column = some (RowId.MAX, RowId.ZERO) := by
  have hmax : ∀ r : RowId, ¬ r > RowId.MAX := fun r => (Fin.le_last r).not_gt
  have hzero : ∀ r : RowId, ¬ r < RowId.ZERO := fun r => (Fin.zero_le r).not_gt
  rw [rowIdRangeOf, if_neg (by simp [h]), foldl_eq_of_forall_not hmax,
    foldl_eq_of_forall_not hzero]

-- ---------------------------------------------------------------------------
-- Exact ranges
-- ---------------------------------------------------------------------------

def validRowIds (c : Chunk) (component : ComponentIdentifier) : List RowId :=
  (c.components.get component).elim [] (·.validEntries c.rowIds)

def exactRowIdRange (c : Chunk) (component : ComponentIdentifier) : Option (RowId × RowId) :=
  (c.validRowIds component).min?.bind fun least =>
    (c.validRowIds component).max?.map (least, ·)

theorem validRowIds_pairwise {c : Chunk} (h : c.WellFormed) (hs : c.isSorted = true)
    (component : ComponentIdentifier) : (c.validRowIds component).Pairwise (· ≤ ·) := by
  have hrows : c.rowIds.Pairwise (· ≤ ·) := isSortedList_iff.mp (h.sorted ▸ hs)
  unfold validRowIds
  cases c.components.get component with
  | none => exact .nil
  | some column => exact hrows.sublist (column.validEntries_sublist c.rowIds)

/-- The ends of a sorted list in the wrong order are its bounds only when all entries agree. -/
theorem ends_eq_bounds_iff {l : List RowId} (h : l.Pairwise (· ≤ ·)) :
    (l.getLast?.bind fun last => l.head?.map (last, ·)) =
        (l.min?.bind fun least => l.max?.map (least, ·)) ↔
      ∀ r ∈ l, ∀ r' ∈ l, r = r' := by
  by_cases hn : l = []
  · simp [hn]
  obtain ⟨first, hfirst⟩ := exists_least true hn
  obtain ⟨last, hlast⟩ := exists_greatest true hn
  obtain ⟨least, hleast⟩ := exists_least false hn
  obtain ⟨greatest, hgreatest⟩ := exists_greatest false hn
  obtain ⟨hfm, hfle⟩ := least_mem (fun _ => h) hfirst
  obtain ⟨hlm, hlle⟩ := greatest_mem (fun _ => h) hlast
  obtain ⟨hmm, hmle⟩ := least_mem (fun _ => h) hleast
  obtain ⟨hgm, hgle⟩ := greatest_mem (fun _ => h) hgreatest
  simp only [if_true, Bool.false_eq_true, if_false] at hfirst hlast hleast hgreatest
  rw [hfirst, hlast, hleast, hgreatest]
  simp only [Option.bind_some, Option.map_some, Option.some.injEq, Prod.mk.injEq]
  constructor
  · rintro ⟨hl, hf⟩ r hr r' hr'
    have hone : ∀ x ∈ l, x = first := fun x hx =>
      le_antisymm (hf ▸ hgle x hx) (hfle x hx)
    exact (hone r hr).trans (hone r' hr').symm
  · intro hall
    exact ⟨hall _ hlm _ hmm, hall _ hfm _ hgm⟩

def twoRows : Chunk :=
  { id := 1, entityPath := ["e"], isSorted := true, rowIds := [1, 2], timelines := []
    components := [⟨"a", "list", [some [.bytes [1]], some [.bytes [2]]]⟩] }

/-- The least row id comes back as the greatest, and the other way round. -/
theorem rowIdRangePerComponent_twoRows :
    twoRows.WellFormed ∧ twoRows.exactRowIdRange "a" = some (1, 2) ∧
      twoRows.rowIdRangePerComponent.lookup "a" = some (2, 1) := by
  refine ⟨by decide, by decide, by decide⟩

/-- The range of a component is the exact one when the chunk lacks the component, or is sorted and
all of the component's cells are in rows of one id. -/
theorem rowIdRangePerComponent_exact_iff {c : Chunk} (h : c.WellFormed)
    (component : ComponentIdentifier) :
    c.rowIdRangePerComponent.lookup component = c.exactRowIdRange component ↔
      c.components.get component = none ∨
        c.isSorted = true ∧
          ∀ r ∈ c.validRowIds component, ∀ r' ∈ c.validRowIds component, r = r' := by
  have hlookup : c.rowIdRangePerComponent.lookup component =
      (c.components.get component).bind c.rowIdRangeOf :=
    ChunkComponents.lookup_filterMap _ h.components_nodup component
  cases hget : c.components.get component with
  | none => simp [hlookup, hget, exactRowIdRange, validRowIds]
  | some column =>
    have hvalid : c.validRowIds component = column.validEntries c.rowIds := by
      rw [validRowIds, hget]
      rfl
    cases hs : c.isSorted with
    | true =>
      rw [hlookup, hget, Option.bind_some, rowIdRangeOf_sorted hs, exactRowIdRange, ← hvalid,
        ends_eq_bounds_iff (validRowIds_pairwise h hs component)]
      simp
    | false =>
      rw [hlookup, hget, Option.bind_some, rowIdRangeOf_unsorted hs]
      simp only [reduceCtorEq, Bool.false_eq_true, false_and, or_false, iff_false]
      intro heq
      unfold exactRowIdRange at heq
      obtain ⟨least, hleast, hmap⟩ := Option.bind_eq_some_iff.mp heq.symm
      obtain ⟨greatest, hgreatest, hpair⟩ := Option.map_eq_some_iff.mp hmap
      obtain ⟨rfl, rfl⟩ := Prod.mk.inj hpair
      have hle : RowId.MAX ≤ RowId.ZERO :=
        (List.max?_eq_some_iff.mp hgreatest).2 _ (List.min?_eq_some_iff.mp hleast).1
      exact absurd hle (by decide)

theorem rowIdRangePerComponent_exact_iff_twoRows :
    twoRows.rowIdRangePerComponent.lookup "a" = twoRows.exactRowIdRange "a" ↔
      twoRows.components.get "a" = none ∨ twoRows.isSorted = true ∧
        ∀ r ∈ twoRows.validRowIds "a", ∀ r' ∈ twoRows.validRowIds "a", r = r' :=
  rowIdRangePerComponent_exact_iff (by decide) "a"

end Chunk

end DimosViewer
