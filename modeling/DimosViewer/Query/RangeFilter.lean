import DimosViewer.Query.LatestLaws

/-!
# Ranges on one chunk

The answer of `Chunk::range` on a sorted chunk are the rows whose cell is not null and whose time is
in the range, ordered by time and row id. Each step is a selection of rows: densifying filters them,
sorting permutes them, and the last slice cuts the rows in time out of a sorted list.
-/

namespace DimosViewer

open ChunkStore (partitionPoint)

-- ---------------------------------------------------------------------------
-- Sorted lists
-- ---------------------------------------------------------------------------

section Sorted

variable {κ : Type} [LinearOrder κ] {f : α → κ} {l : List α}

theorem takeWhile_le_eq_filter (hs : l.Pairwise fun a b => f a ≤ f b) (hi : κ) :
    (l.takeWhile fun a => decide (f a ≤ hi)) = l.filter fun a => decide (f a ≤ hi) := by
  induction l with
  | nil => rfl
  | cons a l ih =>
    rw [List.pairwise_cons] at hs
    rw [List.takeWhile_cons, List.filter_cons]
    by_cases ha : f a ≤ hi
    · simp only [ha, decide_true, if_true, ih hs.2]
    · have hnil : (l.filter fun a => decide (f a ≤ hi)) = [] :=
        List.filter_eq_nil_iff.mpr fun b hb hle => ha ((hs.1 b hb).trans (of_decide_eq_true hle))
      simp only [ha, decide_false, Bool.false_eq_true, if_false, hnil]

theorem slice_eq_filter (hs : l.Pairwise fun a b => f a ≤ f b) (lo hi : κ) :
    (l.drop (partitionPoint (fun a => decide (f a < lo)) l)).take
        (partitionPoint (fun a => decide (f a ≤ hi)) l -
          partitionPoint (fun a => decide (f a < lo)) l) =
      l.filter fun a => decide (lo ≤ f a ∧ f a ≤ hi) := by
  induction l with
  | nil => rfl
  | cons a l ih =>
    have ih := ih (List.pairwise_cons.mp hs).2
    have hle := (List.pairwise_cons.mp hs).1
    by_cases hlo : f a < lo
    · by_cases hhi : f a ≤ hi
      · have hmin : partitionPoint (fun a => decide (f a < lo)) (a :: l) =
            partitionPoint (fun a => decide (f a < lo)) l + 1 := by simp [partitionPoint, hlo]
        have hmax : partitionPoint (fun a => decide (f a ≤ hi)) (a :: l) =
            partitionPoint (fun a => decide (f a ≤ hi)) l + 1 := by simp [partitionPoint, hhi]
        rw [hmin, hmax, List.drop_succ_cons, Nat.add_sub_add_right, ih, List.filter_cons_of_neg]
        simp [hlo]
      · have hmax : partitionPoint (fun a => decide (f a ≤ hi)) (a :: l) = 0 := by
          simp [partitionPoint, hhi]
        rw [hmax, Nat.zero_sub, List.take_zero, eq_comm, List.filter_eq_nil_iff]
        intro b hb hin
        obtain ⟨-, hin⟩ := of_decide_eq_true hin
        obtain rfl | hb := List.mem_cons.mp hb
        · exact hhi hin
        · exact hhi ((hle b hb).trans hin)
    · -- Nothing is before the range, the slice is a prefix.
      have hmin : partitionPoint (fun a => decide (f a < lo)) (a :: l) = 0 := by
        simp [partitionPoint, hlo]
      have hprefix := List.prefix_iff_eq_take.mp
        (List.takeWhile_prefix (l := a :: l) fun a => decide (f a ≤ hi))
      rw [hmin, List.drop_zero, Nat.sub_zero, partitionPoint, ← hprefix, takeWhile_le_eq_filter hs]
      refine List.filter_congr fun b hb => ?_
      have hb : lo ≤ f b := by
        obtain rfl | hb := List.mem_cons.mp hb
        · exact not_lt.mp hlo
        · exact (not_lt.mp hlo).trans (hle b hb)
      simp [hb]

theorem take_append_drop_eq_filter (hs : l.Pairwise fun a b => f a ≤ f b) {lo hi : κ}
    (hle : lo ≤ hi) :
    l.take (partitionPoint (fun a => decide (f a < lo)) l) ++
        l.drop (partitionPoint (fun a => decide (f a ≤ hi)) l) =
      l.filter fun a => !decide (lo ≤ f a ∧ f a ≤ hi) := by
  induction l with
  | nil => rfl
  | cons a l ih =>
    have ih := ih (List.pairwise_cons.mp hs).2
    have hge := (List.pairwise_cons.mp hs).1
    by_cases hlo : f a < lo
    · have hhi : f a ≤ hi := (hlo.trans_le hle).le
      have hmin : partitionPoint (fun a => decide (f a < lo)) (a :: l) =
          partitionPoint (fun a => decide (f a < lo)) l + 1 := by simp [partitionPoint, hlo]
      have hmax : partitionPoint (fun a => decide (f a ≤ hi)) (a :: l) =
          partitionPoint (fun a => decide (f a ≤ hi)) l + 1 := by simp [partitionPoint, hhi]
      rw [hmin, hmax, List.take_succ_cons, List.drop_succ_cons, List.cons_append, ih,
        List.filter_cons_of_pos]
      simp [hlo]
    · -- From here on nothing is before the range.
      have hzero : ∀ l : List α, (∀ b ∈ l, f a ≤ f b) →
          partitionPoint (fun a => decide (f a < lo)) l = 0 := by
        intro l hall
        cases l with
        | nil => rfl
        | cons b l =>
          have hb := not_lt.mpr ((not_lt.mp hlo).trans (hall b List.mem_cons_self))
          simp [partitionPoint, hb]
      rw [hzero l hge, List.take_zero, List.nil_append] at ih
      rw [hzero (a :: l) (List.forall_mem_cons.mpr ⟨le_rfl, hge⟩), List.take_zero, List.nil_append]
      by_cases hhi : f a ≤ hi
      · have hmax : partitionPoint (fun a => decide (f a ≤ hi)) (a :: l) =
            partitionPoint (fun a => decide (f a ≤ hi)) l + 1 := by simp [partitionPoint, hhi]
        rw [hmax, List.drop_succ_cons, ih, List.filter_cons_of_neg]
        simp [not_lt.mp hlo, hhi]
      · have hmax : partitionPoint (fun a => decide (f a ≤ hi)) (a :: l) = 0 := by
          simp [partitionPoint, hhi]
        rw [hmax, List.drop_zero, eq_comm, List.filter_eq_self]
        intro b hb
        have hlt : hi < f b := (not_le.mp hhi).trans_le <| (List.mem_cons.mp hb).elim
          (fun he => he ▸ le_rfl) (hge b)
        simp [not_le.mpr hlt]

theorem pairwise_zipWith_toLex {μ : Type} [LinearOrder μ] {times : List κ} {rowIds : List μ}
    (ht : times.Pairwise (· ≤ ·)) (hr : rowIds.Pairwise (· ≤ ·)) :
    (times.zipWith (fun t r => toLex (t, r)) rowIds).Pairwise (· ≤ ·) := by
  induction times generalizing rowIds with
  | nil => simp
  | cons time times ih =>
    cases rowIds with
    | nil => simp
    | cons rowId rowIds =>
      rw [List.pairwise_cons] at ht hr
      rw [List.zipWith_cons_cons, List.pairwise_cons]
      refine ⟨fun key hkey => ?_, ih ht.2 hr.2⟩
      rw [← List.map_uncurry_zip_eq_zipWith] at hkey
      obtain ⟨⟨t, r⟩, hmem, rfl⟩ := List.mem_map.mp hkey
      obtain ⟨hmt, hmr⟩ := List.of_mem_zip hmem
      rw [Function.uncurry_apply_pair, Prod.Lex.toLex_le_toLex]
      obtain hlt | rfl := (ht.1 t hmt).lt_or_eq
      · exact .inl hlt
      · exact .inr ⟨rfl, hr.1 r hmr⟩

end Sorted

theorem filterArray_eq_shuffled (mask : List Bool) (l : List α) :
    filterArray mask l = shuffled ((List.range mask.length).filter (mask.getD · false)) l := by
  induction mask generalizing l with
  | nil => simp [filterArray, shuffled]
  | cons keep mask ih =>
    cases l with
    | nil => simp [filterArray, shuffled]
    | cons a l =>
      rw [filterArray_cons, ih, List.length_cons, List.range_succ_eq_map]
      simp only [shuffled, List.filter_cons, List.filter_map, List.getD_cons_zero]
      cases keep <;> simp [Function.comp_def, List.filterMap_map]

-- ---------------------------------------------------------------------------
-- What a range query is about
-- ---------------------------------------------------------------------------

structure QueriedRow where
  rowId : RowId
  time : Option (Timeline × TimeInt)
  cell : Option (DataType × Cell)

namespace QueriedRow

def answers (range : AbsoluteTimeRange) (row : QueriedRow) : Bool :=
  row.cell.isSome && row.time.any fun time => range.min ≤ time.2 ∧ time.2 ≤ range.max

/-- Rows that answer have a time. -/
def key (row : QueriedRow) : TimeInt ×ₗ RowId :=
  toLex (row.time.elim .STATIC Prod.snd, row.rowId)

end QueriedRow

def RowData.queried (timeline : TimelineName) (component : ComponentIdentifier) (row : RowData) :
    QueriedRow where
  rowId := row.rowId
  time := row.times timeline
  cell := row.cells component

/-- Rows of a chunk that lacks the timeline are not asked for their time. -/
def RowData.timeOn (timeline : TimelineName) (row : RowData) : TimeInt :=
  (row.times timeline).elim .STATIC Prod.snd

namespace Chunk

def queriedRows (c : Chunk) (timeline : TimelineName) (component : ComponentIdentifier) :
    List QueriedRow :=
  c.rows.map (·.queried timeline component)

@[simp] theorem length_queriedRows (c : Chunk) (timeline : TimelineName)
    (component : ComponentIdentifier) : (c.queriedRows timeline component).length = c.numRows := by
  rw [queriedRows, List.length_map, length_rows]

-- ---------------------------------------------------------------------------
-- Selections
-- ---------------------------------------------------------------------------

theorem IsSelection.queriedRows {c c' : Chunk} {indices : List Nat} (hs : IsSelection c c' indices)
    (h : c.Aligned) (hi : ∀ i ∈ indices, i < c.numRows) (timeline : TimelineName)
    (component : ComponentIdentifier) :
    c'.queriedRows timeline component = shuffled indices (c.queriedRows timeline component) := by
  rw [Chunk.queriedRows, hs.rows h hi, List.map_map]
  refine List.ext_getElem? fun j => ?_
  rw [getElem?_shuffled (by simpa using hi), List.getElem?_map]
  cases hj : indices[j]? with
  | none => rfl
  | some i =>
    have hlt := hi i (List.mem_of_getElem? hj)
    simp [Chunk.queriedRows, Chunk.rows, hlt]

theorem queriedRows_rangeColumns (c : Chunk) (newId : Nat → ChunkId) (query : RangeQuery)
    (component : ComponentIdentifier) :
    (c.rangeColumns newId query component).queriedRows query.timeline component =
      c.queriedRows query.timeline component := by
  rw [queriedRows, queriedRows, rows, rows, numRows, rowIds_rangeColumns, List.map_map,
    List.map_map]
  refine List.map_congr_left fun i _ => ?_
  simp only [Function.comp_apply, RowData.queried, rowAt, rowIds_rangeColumns,
    timeline?_rangeColumns, get_rangeColumns]

theorem rows_densified {c : Chunk} (h : c.WellFormed) (id : ChunkId)
    (hget : c.components.get component = some column) :
    (c.densified id component).1.rows = c.rows.filter fun row => (row.cells component).isSome := by
  have hcell (i : Nat) : ((c.rowAt i).cells component).isSome =
      (column.listArray.map (·.isSome)).getD i false := by
    rw [isSome_cells_rowAt hget, SerializedComponentColumn.isValid,
      List.getD_eq_getElem?_getD, List.getD_eq_getElem?_getD, List.getElem?_map]
    cases column.listArray[i]? <;> rfl
  rw [densified_eq]
  split
  case h_1 hmask =>
    rw [eq_comm, List.filter_eq_self, rows]
    intro row hrow
    obtain ⟨i, hi, rfl⟩ := List.mem_map.mp hrow
    rw [List.mem_range] at hi
    have hne : ¬ c.isEmpty = true := by
      rw [isEmpty, List.isEmpty_iff, ← List.length_eq_zero_iff]
      exact Nat.ne_zero_of_lt hi
    rw [densityMask, if_neg hne, hget, Option.bind_some,
      SerializedComponentColumn.nulls_eq_none_iff] at hmask
    rw [← h.aligned.length_listArray hget] at hi
    have hsome := hmask _ (List.getElem_mem hi)
    simpa [hcell, List.getElem?_eq_getElem hi] using hsome
  case h_2 mask hmask =>
    have hlen := h.length_densityMask hmask
    have hmaskEq : mask = column.listArray.map (·.isSome) := by
      rw [densityMask] at hmask
      split at hmask
      · cases hmask
      · rw [hget, Option.bind_some] at hmask
        exact SerializedComponentColumn.eq_of_nulls_eq_some hmask
    let indices := (List.range mask.length).filter (mask.getD · false)
    have hsel : IsSelection c (c.mapColumns id
        (c.isSorted || decide (mask.count true < 2) || isSortedList (filterArray mask c.rowIds))
        (filterArray mask c.rowIds) (·.filtered mask) (·.filtered mask)) indices :=
      isSelection_of_map (fun _ tc => tc.filtered mask) (·.filtered mask)
        (filterArray_eq_shuffled _ _) rfl rfl
        (fun _ tc => ⟨rfl, (tc.filtered_times mask).trans (filterArray_eq_shuffled _ _)⟩)
        (fun column => ⟨rfl, rfl, filterArray_eq_shuffled _ _⟩) rfl
    have hi : ∀ i ∈ indices, i < c.numRows := fun i hi =>
      hlen ▸ List.mem_range.mp (List.mem_filter.mp hi).1
    rw [hsel.rows h.aligned hi, rows, List.filter_map, ← hlen]
    refine congrArg _ (List.filter_congr fun i _ => ?_)
    rw [hmaskEq]
    exact (hcell i).symm

theorem queriedRows_densified {c : Chunk} (h : c.WellFormed) (id : ChunkId)
    (hget : c.components.get component = some column) (timeline : TimelineName) :
    (c.densified id component).1.queriedRows timeline component =
      (c.queriedRows timeline component).filter (·.cell.isSome) := by
  rw [queriedRows, rows_densified h id hget, queriedRows, List.filter_map]
  rfl

-- ---------------------------------------------------------------------------
-- Sorting
-- ---------------------------------------------------------------------------

theorem queriedRows_time {c : Chunk} (h : c.Aligned) (ht : c.timeline? timeline = some tc)
    (component : ComponentIdentifier) :
    (c.queriedRows timeline component).map (·.time) =
      tc.times.map fun t => some (tc.timeline, t) := by
  refine List.ext_getElem (by simp [h.length_times ht]) fun i hi _ => ?_
  have hi' : i < tc.times.length := by simpa [h.length_times ht] using hi
  simp [queriedRows, rows, RowData.queried, rowAt, ht, hi']

theorem queriedRows_key {c : Chunk} (h : c.Aligned) (ht : c.timeline? timeline = some tc)
    (component : ComponentIdentifier) :
    (c.queriedRows timeline component).map (·.key) =
      tc.times.zipWith (fun t r => toLex (t, r)) c.rowIds := by
  have hlen := h.length_times ht
  refine List.ext_getElem (by simp [hlen, numRows]) fun i hi _ => ?_
  have hi : i < c.numRows := by simpa using hi
  have hi' : i < tc.times.length := by rwa [hlen]
  have hi'' : i < c.rowIds.length := hi
  simp [queriedRows, rows, RowData.queried, QueriedRow.key, rowAt, ht, hi', hi'']

theorem map_shuffled (f : α → β) (indices : List Nat) (l : List α) :
    (shuffled indices l).map f = shuffled indices (l.map f) := by
  simp [shuffled, List.map_filterMap]

theorem isSorted_densified {c : Chunk} (hs : c.isSorted = true) (id : ChunkId)
    (component : ComponentIdentifier) : (c.densified id component).1.isSorted = true := by
  rw [densified_eq]
  split
  · exact hs
  · simp [mapColumns, hs]

theorem sortedByTimeline_wellFormed {c : Chunk} (h : c.WellFormed) (newId : Nat → ChunkId)
    (n : Nat) (timeline : TimelineName) :
    (c.sortedByTimelineIfUnsorted newId n timeline).1.WellFormed := by
  rcases c.sortedByTimeline_cases newId n timeline with ⟨he, -⟩ | ⟨tc, ht, -, he⟩
  · rwa [he]
  · rw [he]
    exact shuffleWith_wellFormed h (h.timeOrder_perm ht) _

theorem sortedByTimeline_sameRows {c : Chunk} (h : c.WellFormed) (newId : Nat → ChunkId) (n : Nat)
    (timeline : TimelineName) : SameRows c (c.sortedByTimelineIfUnsorted newId n timeline).1 := by
  rcases c.sortedByTimeline_cases newId n timeline with ⟨he, -⟩ | ⟨tc, ht, -, he⟩
  · rw [he]
    exact .refl h.aligned
  · rw [he]
    exact shuffleWith_sameRows h.aligned (h.timeOrder_perm ht) _

/-- A chunk that is sorted by row ids ends up sorted by time and row id. -/
theorem queriedRows_sortedByTimeline {c : Chunk} (h : c.WellFormed) (hs : c.isSorted = true)
    (ht : c.timeline? timeline = some tc) (newId : Nat → ChunkId) (n : Nat)
    (component : ComponentIdentifier) :
    let sorted := (c.sortedByTimelineIfUnsorted newId n timeline).1.queriedRows timeline component
    sorted.Perm (c.queriedRows timeline component) ∧ sorted.Pairwise (·.key ≤ ·.key) := by
  refine ⟨(sortedByTimeline_sameRows h newId n timeline).rows.map _, ?_⟩
  rw [← @List.pairwise_map _ _ QueriedRow.key (· ≤ ·)]
  rcases c.sortedByTimeline_cases newId n timeline with ⟨he, hts⟩ | ⟨tc', ht', -, he⟩
  · rw [he, queriedRows_key h.aligned ht]
    have htimes := isSortedList_iff.mp ((h.timeline_of_lookup ht).1.sorted ▸ hts tc ht)
    exact pairwise_zipWith_toLex htimes (isSortedList_iff.mp (h.sorted ▸ hs))
  · obtain rfl := Option.some.inj (ht.symm.trans ht')
    have hperm := h.timeOrder_perm ht
    rw [he, (c.shuffleWith_isSelection _ _).queriedRows h.aligned
      fun i hi => List.mem_range.mp (hperm.subset hi), map_shuffled, queriedRows_key h.aligned ht]
    exact isSortedList_iff.mp (isSortedList_shuffled_argsort _)

-- ---------------------------------------------------------------------------
-- The slice
-- ---------------------------------------------------------------------------

theorem times_eq_map_rows {c : Chunk} (h : c.Aligned) (ht : c.timeline? timeline = some tc) :
    tc.times = c.rows.map (·.timeOn timeline) ∧
      ∀ row ∈ c.rows, row.times timeline = some (tc.timeline, row.timeOn timeline) := by
  have htime : c.rows.map (·.times timeline) = tc.times.map fun t => some (tc.timeline, t) := by
    have := queriedRows_time h ht ""
    rwa [queriedRows, List.map_map] at this
  constructor
  · have := congrArg (List.map fun time => time.elim TimeInt.STATIC Prod.snd) htime
    rw [List.map_map, List.map_map] at this
    exact (this.trans (List.map_id'' (fun _ => rfl) tc.times)).symm
  · intro row hrow
    have hmem : row.times timeline ∈ tc.times.map fun t => some (tc.timeline, t) :=
      htime ▸ List.mem_map_of_mem hrow
    obtain ⟨t, -, hrowTime⟩ := List.mem_map.mp hmem
    simp [RowData.timeOn, ← hrowTime]

theorem partitionPoint_times {c : Chunk} (h : c.Aligned) (ht : c.timeline? timeline = some tc)
    (p : TimeInt → Bool) : partitionPoint p tc.times =
      partitionPoint (fun row => p (row.timeOn timeline)) c.rows := by
  rw [(times_eq_map_rows h ht).1, partitionPoint, List.takeWhile_map, List.length_map]
  rfl

theorem pairwise_timeOn {c : Chunk} (h : c.Aligned) (ht : c.timeline? timeline = some tc)
    (hts : tc.times.Pairwise (· ≤ ·)) :
    c.rows.Pairwise fun a b => a.timeOn timeline ≤ b.timeOn timeline :=
  List.pairwise_map.mp ((times_eq_map_rows h ht).1 ▸ hts)

/-- The slice of a chunk in time order has the rows in the range. -/
theorem rows_rangeSliced {c : Chunk} (h : c.Aligned)
    (ht : c.timeline? query.timeline = some tc) (hts : tc.times.Pairwise (· ≤ ·)) (id : ChunkId)
    (n : Nat) (hext : query.includeExtendedBounds = false) :
    (c.rangeSliced id n query).rows = c.rows.filter fun row =>
      (row.times query.timeline).any fun time =>
        query.range.min ≤ time.2 ∧ time.2 ≤ query.range.max := by
  rw [rangeSliced, ht]
  simp only [hext, Bool.false_eq_true, if_false]
  rw [rows_rowSliced_eq h, partitionPoint_times h ht, partitionPoint_times h ht,
    slice_eq_filter (pairwise_timeOn h ht hts)]
  refine List.filter_congr fun row hrow => ?_
  rw [(times_eq_map_rows h ht).2 row hrow]
  rfl

theorem queriedRows_rangeSliced {c : Chunk} (h : c.Aligned)
    (ht : c.timeline? query.timeline = some tc) (hts : tc.times.Pairwise (· ≤ ·)) (id : ChunkId)
    (n : Nat) (hext : query.includeExtendedBounds = false) (component : ComponentIdentifier) :
    (c.rangeSliced id n query).queriedRows query.timeline component =
      (c.queriedRows query.timeline component).filter fun row =>
        row.time.any fun time => query.range.min ≤ time.2 ∧ time.2 ≤ query.range.max := by
  rw [queriedRows, rows_rangeSliced h ht hts id n hext, queriedRows, List.filter_map]
  rfl

structure FiltersRange (c result : Chunk) (query : RangeQuery) (component : ComponentIdentifier) :
    Prop where
  rows : (result.queriedRows query.timeline component).Perm
    ((c.queriedRows query.timeline component).filter (·.answers query.range))
  ordered : (result.queriedRows query.timeline component).Pairwise (·.key ≤ ·.key)

/-- A range query answers with the rows that have a cell and a time in the range, in order. -/
theorem range_filtersRange {c : Chunk} (h : c.WellFormed) (hs : c.isSorted = true)
    (newId : Nat → ChunkId) (query : RangeQuery) (component : ComponentIdentifier)
    (hget : (c.components.get component).isSome) (ht : (c.timeline? query.timeline).isSome)
    (hext : query.includeExtendedBounds = false) :
    c.FiltersRange (c.range newId query component) query component := by
  by_cases he : c.isEmpty = true
  · have hnil : c.queriedRows query.timeline component = [] := by
      rw [← List.length_eq_zero_iff, length_queriedRows, numRows, List.isEmpty_iff.mp he]
      rfl
    rw [range, if_pos he]
    exact ⟨hnil ▸ .refl _, hnil ▸ .nil⟩
  · obtain ⟨tc, ht⟩ := Option.isSome_iff_exists.mp ht
    obtain ⟨column, hget⟩ := Option.isSome_iff_exists.mp hget
    have hx := h.rangeColumns newId query component
    have htx := c.timeline?_rangeColumns newId query component
    have hgetx := c.get_rangeColumns newId query component
    have hqx := c.queriedRows_rangeColumns newId query component
    have hsx := c.isSorted_rangeColumns newId query component
    rw [range_eq he, if_neg (by simp [isStatic_eq_false (htx.trans ht)]), htx, ht, rangeRows]
    generalize c.rangeColumns newId query component = x at *
    have hd := densified_wellFormed hx (newId 2) component
    have hqd := queriedRows_densified hx (newId 2) (hgetx.trans hget) query.timeline
    have hsd := isSorted_densified (hsx.trans hs) (newId 2) component
    have htd := isSome_timeline?_densified x (newId 2) component query.timeline
    rw [htx, ht] at htd
    generalize (x.densified (newId 2) component).1 = d at *
    obtain ⟨tcd, htd⟩ := Option.isSome_iff_exists.mp htd
    have hr := sortedByTimeline_wellFormed hd newId 3 query.timeline
    obtain ⟨hperm, hkeys⟩ := queriedRows_sortedByTimeline hd hsd htd newId 3 component
    have htr := isSome_timeline?_sortedByTimeline d newId 3 query.timeline query.timeline
    rw [htd] at htr
    obtain ⟨tcr, htr⟩ := Option.isSome_iff_exists.mp htr
    have htimes := isSortedList_iff.mp
      ((hr.timeline_of_lookup htr).1.sorted ▸ hd.isSorted_sortedByTimeline 3 htr)
    have hslice := queriedRows_rangeSliced hr.aligned htr htimes (newId 5) c.numRows hext component
    refine ⟨hslice ▸ ?_, hslice ▸ hkeys.filter _⟩
    refine (hperm.filter _).trans ?_
    rw [hqd, hqx, List.filter_filter]
    exact .of_eq (List.filter_congr fun row _ => Bool.and_comm _ _)

/-- The times are unsorted and the second row is null. -/
theorem range_filtersRange_two :
    let c : Chunk :=
      { id := 0, entityPath := ["points"], isSorted := true, rowIds := [1, 2, 3],
        timelines := [("frame", .new none ⟨"frame", .sequence⟩
          [.newTemporal 20, .newTemporal 15, .newTemporal 10])],
        components := [⟨"position", "f32", [some [.bytes [1]], none, some [.bytes [3]]]⟩] }
    let query : RangeQuery := ⟨"frame", ⟨.newTemporal 5, .newTemporal 25⟩, false, false, false⟩
    c.FiltersRange (c.range (· + 1) query "position") query "position" :=
  range_filtersRange (by decide +kernel) rfl (· + 1) _ "position" rfl rfl rfl

end Chunk

end DimosViewer
