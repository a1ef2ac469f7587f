import DimosViewer.Chunk.Rows

/-!
# Concatenation without loss

`concatenable` compares timelines by their names, `TimeColumn::concatenated` by their types too, so
a timeline that the two chunks type differently gets lost.
-/

namespace DimosViewer.Chunk

/-- A concatenation and its sorted copy lose nothing. -/
structure Lossless (newId : Nat → ChunkId) (n : Nat) (left right : Chunk) : Prop where
  concatenated : ∃ c m, left.concatenated newId n right = .ok (c, m) ∧
    c.rows = left.rows ++ right.rows
  sorted : ∃ c m, concatAndSort newId n left right = .ok (c, m) ∧
    c.rows.Perm (left.rows ++ right.rows) ∧ c.rowIds.Pairwise (· ≤ ·)

variable {left right : Chunk} {newId : Nat → ChunkId} {n : Nat}

theorem rowAt_zero_of_append {c : Chunk} (h : c.rows = left.rows ++ right.rows)
    (hln : left.rowIds ≠ []) : c.rowAt 0 = left.rowAt 0 := by
  have hleft : 0 < left.numRows := List.length_pos_of_ne_nil hln
  have hc : 0 < c.numRows := by
    have hlen := congrArg List.length h
    rw [length_rows, List.length_append, length_rows] at hlen
    omega
  have hget := congrArg (·[0]?) h
  have hget' : (left.rows ++ right.rows)[0]? = left.rows[0]? :=
    List.getElem?_append_left (by simpa using hleft)
  rw [hget'] at hget
  simpa [rows, hc, hleft] using hget

/-- A row of a sequence, and a row of durations under the same name. -/
def sequenceRow : Chunk :=
  { id := 1, entityPath := ["e"], isSorted := true, rowIds := [1]
    timelines := [("t", .new none ⟨"t", .sequence⟩ [.newTemporal 0])]
    components := [⟨"a", "list", [some []]⟩] }

def durationRow : Chunk :=
  { id := 2, entityPath := ["e"], isSorted := true, rowIds := [2]
    timelines := [("t", .new none ⟨"t", .durationNs⟩ [.newTemporal 10])]
    components := [⟨"a", "list", [some []]⟩] }

theorem concatenated_retyped :
    sequenceRow.WellFormed ∧ durationRow.WellFormed ∧
      sequenceRow.concatenable durationRow = true ∧
      ¬ Lossless (1000 + ·) 0 sequenceRow durationRow := by
  refine ⟨by decide, by decide, by decide, fun h => ?_⟩
  obtain ⟨c, m, hc, hrows⟩ := h.concatenated
  obtain ⟨d, hd, htimes⟩ : ∃ d, sequenceRow.concatenated (1000 + ·) 0 durationRow = .ok (d, 1) ∧
      (d.rowAt 0).times "t" = none := ⟨_, rfl, rfl⟩
  obtain ⟨rfl, -⟩ := Prod.mk.inj (Except.ok.inj (hc.symm.trans hd))
  rw [rowAt_zero_of_append hrows (by decide)] at htimes
  revert htimes
  decide

/-- A timeline of two types is in no row of the concatenation. -/
theorem sameTypes_of_rows {c : Chunk} (hl : left.WellFormed) (hr : right.WellFormed)
    (hm : IsMerge left right c) (h : c.rows = left.rows ++ right.rows)
    (hln : left.rowIds ≠ []) : left.SameTypes right := by
  intro name lhs rhs hlhs hrhs
  have hlen : 0 < lhs.times.length := by
    rw [hl.aligned.length_times hlhs]
    exact List.length_pos_of_ne_nil hln
  have htimes : (c.rowAt 0).times name = some (lhs.timeline, lhs.times[0]) := by
    rw [rowAt_zero_of_append h hln, times_rowAt, columnAt, hlhs, Option.map_some,
      Option.bind_some, List.getElem?_eq_getElem hlen]
    rfl
  have hcolumn : ∃ tc, c.timeline? name = some tc := by
    cases htc : c.timeline? name with
    | none => simp [rowAt, htc] at htimes
    | some tc => exact ⟨tc, rfl⟩
  obtain ⟨tc, htc⟩ := hcolumn
  have hmem := (OrdMap.lookup_eq_some_iff_mem hm.wellFormed.timelines_nodup).mp htc
  obtain ⟨hmemL, hmemR⟩ := hm.columnTypes _ (mem_columnTypes hmem)
  have htype : ∀ {d : Chunk} {column : TimeColumn}, d.WellFormed → d.timeline? name = some column →
      (name, tc.timeline) ∈ d.columnTypes → tc.timeline = column.timeline := by
    intro d column hd hcolumn hmem
    obtain ⟨⟨name', column'⟩, he, heq⟩ := List.mem_map.mp hmem
    obtain ⟨rfl, htimeline⟩ := Prod.mk.inj heq
    have hsame := (OrdMap.lookup_eq_some_iff_mem hd.timelines_nodup).mpr he
    rw [← htimeline, Option.some.inj (hcolumn.symm.trans hsame)]
  exact (htype hl hlhs hmemL).symm.trans (htype hr hrhs hmemR)

/-- Two chunks that are not empty and may be concatenated lose no row, time or cell exactly if they
have one type for each timeline. -/
theorem lossless_iff_sameTypes (hl : left.WellFormed) (hr : right.WellFormed)
    (hln : left.rowIds ≠ []) (hrn : right.rowIds ≠ []) (hc : left.concatenable right = true) :
    Lossless newId n left right ↔ left.SameTypes right := by
  obtain ⟨c, hconcat, -, hmerge⟩ := concatenated_eq hl hr hln hrn hc newId n
  constructor
  · rintro ⟨⟨c', m, hc', hrows⟩, -⟩
    obtain ⟨rfl, -⟩ := Prod.mk.inj (Except.ok.inj (hc'.symm.trans hconcat))
    exact sameTypes_of_rows hl hr hmerge hrows hln
  · intro htypes
    obtain ⟨d, m, hd, -, hsorted, hmerge'⟩ :=
      concatAndSort_spec hl hr hln hrn (concatenable_comm hl hr hc) newId n
    refine ⟨⟨c, n + 1, hconcat, concatenated_rows hl.aligned htypes hln hrn hconcat⟩,
      d, m, hd, (concatAndSort_isConcat hl.aligned hr.aligned htypes hd).rows, ?_⟩
    exact isSortedList_iff.mp (hmerge'.wellFormed.sorted.symm.trans hsorted)

/-- Two rows out of order, without the component of `sequenceRow` and with one of their own. -/
def otherRows : Chunk :=
  { id := 3, entityPath := ["e"], isSorted := false, rowIds := [4, 3]
    timelines := [("t", .new none ⟨"t", .sequence⟩ ([20, 10].map TimeInt.newTemporal))]
    components := [⟨"b", "list", [none, some []]⟩] }

theorem lossless_iff_sameTypes_otherRows :
    Lossless (1000 + ·) 0 sequenceRow otherRows ↔ sequenceRow.SameTypes otherRows :=
  lossless_iff_sameTypes (by decide) (by decide) (by decide) (by decide) (by decide)

end DimosViewer.Chunk
