import DimosViewer.Chunk.Laws
import DimosViewer.Query.Cache

/-!
# A range query on a cached chunk

Densifying and sorting a chunk beforehand changes nothing about the rows that a
range query finds in it.
-/

namespace DimosViewer

open ChunkStore (partitionPoint)

-- ---------------------------------------------------------------------------
-- Masks
-- ---------------------------------------------------------------------------

section Mask

variable {mask : List Bool} {l : List α}

theorem filterArray_cons (keep : Bool) (mask : List Bool) (entry : α) (l : List α) :
    filterArray (keep :: mask) (entry :: l) =
      if keep then entry :: filterArray mask l else filterArray mask l := by
  cases keep <;> rfl

theorem length_filterArray (h : l.length = mask.length) :
    (filterArray mask l).length = mask.count true := by
  induction l generalizing mask with
  | nil =>
    obtain rfl := List.length_eq_zero_iff.mp h.symm
    rfl
  | cons entry l ih =>
    obtain _ | ⟨keep, mask⟩ := mask
    · cases h
    rw [filterArray_cons]
    have ih := ih (Nat.succ.inj h)
    cases keep <;> simp [ih]

theorem filterArray_sublist (mask : List Bool) (l : List α) : (filterArray mask l).Sublist l := by
  induction l generalizing mask with
  | nil => exact .slnil
  | cons entry l ih =>
    obtain _ | ⟨keep, mask⟩ := mask
    · exact List.nil_sublist _
    rw [filterArray_cons]
    cases keep
    · exact (ih mask).cons entry
    · exact (ih mask).cons_cons entry

theorem isSome_of_mem_filterArray {l : List (Option β)}
    (h : cell ∈ filterArray (l.map (·.isSome)) l) : cell.isSome = true := by
  induction l with
  | nil => cases h
  | cons head l ih =>
    rw [List.map_cons, filterArray_cons] at h
    split at h
    case isTrue hs =>
      rcases List.mem_cons.mp h with rfl | h
      · exact hs
      · exact ih h
    case isFalse => exact ih h

theorem drop_filterArray_last {i : Nat} (h : l.length = mask.length) (hi : mask[i]? = some true)
    (hlast : ∀ j, i < j → mask[j]? ≠ some true) :
    ((filterArray mask l).drop (mask.count true - 1)).take 1 = (l.drop i).take 1 := by
  induction l generalizing mask i with
  | nil =>
    obtain rfl := List.length_eq_zero_iff.mp h.symm
    cases hi
  | cons entry l ih =>
    obtain _ | ⟨keep, mask⟩ := mask
    · cases h
    have hlen := Nat.succ.inj h
    cases i with
    | zero =>
      obtain rfl : keep = true := Option.some.inj hi
      have hzero : mask.count true = 0 := by
        rw [List.count_eq_zero]
        intro hm
        obtain ⟨j, hj⟩ := List.getElem?_of_mem hm
        exact hlast (j + 1) (Nat.succ_pos j) hj
      have hnil : filterArray mask l = [] :=
        List.length_eq_zero_iff.mp ((length_filterArray hlen).trans hzero)
      simp [filterArray_cons, hnil, hzero]
    | succ i =>
      have hi : mask[i]? = some true := hi
      have hpos : 0 < mask.count true := List.count_pos_iff.mpr (List.mem_of_getElem? hi)
      have ih := ih hlen hi fun j hj => hlast (j + 1) (Nat.succ_lt_succ hj)
      rw [filterArray_cons]
      cases keep with
      | false => simpa using ih
      | true =>
        obtain ⟨n, hn⟩ := Nat.exists_eq_succ_of_ne_zero hpos.ne'
        simpa [hn] using ih

end Mask

-- ---------------------------------------------------------------------------
-- Densified chunks
-- ---------------------------------------------------------------------------

theorem TimeColumn.filtered_times (tc : TimeColumn) (mask : List Bool) :
    (tc.filtered mask).times = filterArray mask tc.times := rfl

theorem TimeColumn.WellFormed.filtered {tc : TimeColumn} (h : tc.WellFormed) {mask : List Bool}
    (hl : tc.times.length = mask.length) : (tc.filtered mask).WellFormed := by
  have hsub := filterArray_sublist mask tc.times
  refine TimeColumn.new_wellFormed (fun b hb => ?_) fun t ht => h.temporal t (hsub.subset ht)
  split at hb
  case isFalse => cases hb
  case isTrue hs =>
    cases hb
    refine (isSortedList_iff.mpr ?_).symm
    rcases Bool.or_eq_true_iff.mp hs with hs | hs
    · rw [h.sorted, isSortedList_iff] at hs
      exact hs.sublist hsub
    · exact pairwise_of_length_lt_two (length_filterArray hl ▸ of_decide_eq_true hs)

theorem SerializedComponentColumn.nulls_eq_none_iff {column : SerializedComponentColumn} :
    column.nulls = none ↔ ∀ cell ∈ column.listArray, cell.isSome = true := by
  rw [nulls, numValid, ← List.countP_eq_length]
  split <;> simp_all

theorem SerializedComponentColumn.eq_of_nulls_eq_some {column : SerializedComponentColumn}
    (h : column.nulls = some mask) : mask = column.listArray.map (·.isSome) := by
  rw [nulls] at h
  split at h
  · cases h
  · exact (Option.some.inj h).symm

namespace Chunk

variable {newId : Nat → ChunkId} {query : RangeQuery} {component : ComponentIdentifier}

/-- The rows that densifying keeps, if it does anything. -/
def densityMask (c : Chunk) (component : ComponentIdentifier) : Option (List Bool) :=
  if c.isEmpty then none else (c.components.get component).bind (·.nulls)

def mapColumns (c : Chunk) (id : ChunkId) (isSorted : Bool) (rowIds : List RowId)
    (f : TimeColumn → TimeColumn) (g : SerializedComponentColumn → SerializedComponentColumn) :
    Chunk where
  id
  entityPath := c.entityPath
  isSorted
  rowIds
  timelines := c.timelines.map fun entry => (entry.1, f entry.2)
  components := c.components.map g

theorem densified_eq (c : Chunk) (id : ChunkId) (component : ComponentIdentifier) :
    (c.densified id component).1 =
      match c.densityMask component with
      | none => c
      | some mask =>
        c.mapColumns id
          (c.isSorted || decide (mask.count true < 2) || isSortedList (filterArray mask c.rowIds))
          (filterArray mask c.rowIds) (·.filtered mask) (·.filtered mask) := by
  rw [densified, densityMask]
  by_cases he : c.isEmpty = true
  · rw [if_pos he, if_pos he]
  · rw [if_neg he, if_neg he]
    cases (c.components.get component).bind (·.nulls) <;> rfl

theorem timeline?_mapColumns (c : Chunk) (id : ChunkId) (b : Bool) (rowIds : List RowId)
    (f : TimeColumn → TimeColumn) (g : SerializedComponentColumn → SerializedComponentColumn)
    (name : TimelineName) :
    (c.mapColumns id b rowIds f g).timeline? name = (c.timeline? name).map f :=
  OrdMap.lookup_map_snd c.timelines (fun _ tc => f tc) name

theorem get_map (components : ChunkComponents)
    (g : SerializedComponentColumn → SerializedComponentColumn)
    (hg : ∀ column, (g column).component = column.component) (component : ComponentIdentifier) :
    ChunkComponents.get (components.map g) component = (components.get component).map g := by
  rw [ChunkComponents.get, List.find?_map, ChunkComponents.get]
  congr 2
  funext column
  simp [hg]

theorem component_of_get {components : ChunkComponents}
    (h : components.get component = some column) :
    column ∈ components ∧ column.component = component :=
  ⟨List.mem_of_find?_eq_some h, by simpa using List.find?_some h⟩

theorem length_densityMask {c : Chunk}
    (h : ∀ column ∈ c.components, column.listArray.length = c.numRows)
    (hm : c.densityMask component = some mask) : mask.length = c.numRows := by
  rw [densityMask] at hm
  split at hm
  · cases hm
  · obtain ⟨column, hc, hn⟩ := Option.bind_eq_some_iff.mp hm
    rw [SerializedComponentColumn.eq_of_nulls_eq_some hn, List.length_map]
    exact h column (component_of_get hc).1

theorem WellFormed.length_densityMask {c : Chunk} (h : c.WellFormed)
    (hm : c.densityMask component = some mask) : mask.length = c.numRows :=
  Chunk.length_densityMask h.component hm

theorem densified_wellFormed {c : Chunk} (h : c.WellFormed) (id : ChunkId)
    (component : ComponentIdentifier) : (c.densified id component).1.WellFormed := by
  rw [densified_eq]
  split
  case h_1 => exact h
  case h_2 mask hm =>
    have hlen := h.length_densityMask hm
    refine ⟨?_, ?_, ?_, ?_, ?_⟩
    · dsimp only [mapColumns]
      rw [Bool.or_eq_right_iff_imp]
      intro hs
      rw [isSortedList_iff]
      rcases Bool.or_eq_true_iff.mp hs with hs | hs
      · rw [h.sorted, isSortedList_iff] at hs
        exact hs.sublist (filterArray_sublist _ _)
      · exact pairwise_of_length_lt_two (length_filterArray hlen.symm ▸ of_decide_eq_true hs)
    · simpa [mapColumns, List.map_map, Function.comp_def] using h.timelines_nodup
    · simpa [mapColumns, List.map_map, Function.comp_def, SerializedComponentColumn.filtered]
        using h.components_nodup
    · intro entry he
      obtain ⟨old, ho, rfl⟩ := List.mem_map.mp he
      obtain ⟨hw, hl⟩ := h.timeline old ho
      refine ⟨hw.filtered (hl.trans hlen.symm), ?_⟩
      rw [TimeColumn.filtered_times, length_filterArray (hl.trans hlen.symm)]
      exact (length_filterArray hlen.symm).symm
    · intro column hc
      obtain ⟨old, ho, rfl⟩ := List.mem_map.mp hc
      have hl := h.component old ho
      exact (length_filterArray (hl.trans hlen.symm)).trans (length_filterArray hlen.symm).symm

theorem densityMask_densified (c : Chunk) (id : ChunkId) (component : ComponentIdentifier) :
    (c.densified id component).1.densityMask component = none := by
  rw [densified_eq]
  split
  case h_1 hn => exact hn
  case h_2 mask hm =>
    rw [densityMask] at hm ⊢
    split
    · rfl
    · split at hm
      · cases hm
      obtain ⟨column, hc, hn⟩ := Option.bind_eq_some_iff.mp hm
      have hget := get_map c.components (·.filtered mask) (fun _ => rfl) component
      rw [hc] at hget
      rw [mapColumns, hget, Option.map_some, Option.bind_some,
        SerializedComponentColumn.nulls_eq_none_iff]
      intro cell hcell
      rw [SerializedComponentColumn.filtered,
        SerializedComponentColumn.eq_of_nulls_eq_some hn] at hcell
      exact isSome_of_mem_filterArray hcell

-- ---------------------------------------------------------------------------
-- Columns and rows
-- ---------------------------------------------------------------------------

section Columns

variable (c : Chunk) (newId : Nat → ChunkId) (query : RangeQuery)
  (component : ComponentIdentifier)

theorem timeline?_rangeColumns :
    (c.rangeColumns newId query component).timeline? query.timeline =
      c.timeline? query.timeline := by
  have hsliced : (c.timelineSliced (newId 0) query.timeline).timeline? query.timeline =
      c.timeline? query.timeline := by
    rw [timelineSliced]
    cases h : c.timeline? query.timeline <;> simp [timeline?]
  rw [rangeColumns]
  cases query.keepExtraComponents <;> cases query.keepExtraTimelines <;> first | rfl | exact hsliced

theorem get_rangeColumns :
    (c.rangeColumns newId query component).components.get component =
      c.components.get component := by
  have hsliced : ChunkComponents.get (c.components.get component).toList component =
      c.components.get component := by
    cases h : c.components.get component with
    | none => rfl
    | some column => simp [ChunkComponents.get, (component_of_get h).2]
  rw [rangeColumns]
  cases query.keepExtraComponents <;> cases query.keepExtraTimelines <;> first | rfl | exact hsliced

theorem rowIds_rangeColumns : (c.rangeColumns newId query component).rowIds = c.rowIds := by
  rw [rangeColumns]
  cases query.keepExtraComponents <;> cases query.keepExtraTimelines <;> rfl

theorem isSorted_rangeColumns : (c.rangeColumns newId query component).isSorted = c.isSorted := by
  rw [rangeColumns]
  cases query.keepExtraComponents <;> cases query.keepExtraTimelines <;> rfl

theorem densityMask_rangeColumns :
    (c.rangeColumns newId query component).densityMask component = c.densityMask component := by
  rw [densityMask, densityMask, isEmpty, isEmpty, rowIds_rangeColumns, get_rangeColumns]

theorem rangeColumns_mapColumns (id : ChunkId) (b : Bool) (rowIds : List RowId)
    (f : TimeColumn → TimeColumn) (g : SerializedComponentColumn → SerializedComponentColumn)
    (hg : ∀ column, (g column).component = column.component) :
    ((c.mapColumns id b rowIds f g).rangeColumns newId query component).withId id =
      (c.rangeColumns newId query component).mapColumns id b rowIds f g := by
  have hget : ChunkComponents.get (c.mapColumns id b rowIds f g).components component =
      (c.components.get component).map g := get_map c.components g hg component
  have htl := timeline?_mapColumns c id b rowIds f g query.timeline
  rw [rangeColumns, rangeColumns]
  cases query.keepExtraComponents <;> cases query.keepExtraTimelines <;>
    simp only [Bool.false_eq_true, if_false, if_true, timelineSliced, componentSliced, withId,
      hget, htl] <;>
    cases c.components.get component <;> cases c.timeline? query.timeline <;> rfl

theorem densified_rangeColumns (id : ChunkId) :
    (((c.densified id component).1).rangeColumns newId query component).withId id =
      ((c.rangeColumns newId query component).densified id component).1.withId id := by
  rw [densified_eq, densified_eq, densityMask_rangeColumns]
  split
  case h_1 => rfl
  case h_2 mask _ =>
    rw [isSorted_rangeColumns, rowIds_rangeColumns]
    exact c.rangeColumns_mapColumns newId query component id _ _ (·.filtered mask)
      (·.filtered mask) fun _ => rfl

def timeOrder (c : Chunk) (tc : TimeColumn) : List Nat :=
  let keys : List (TimeInt ×ₗ RowId) := tc.times.zipWith (fun t r => toLex (t, r)) c.rowIds
  argsort keys

theorem shuffleWith_rangeColumns (id : ChunkId) (swaps : List Nat) :
    ((c.shuffleWith id swaps).rangeColumns newId query component).withId id =
      (c.rangeColumns newId query component).shuffleWith id swaps := by
  have h := c.rangeColumns_mapColumns newId query component id
    (isSortedList (shuffled swaps c.rowIds)) (shuffled swaps c.rowIds)
    (fun tc => { tc with
      times := shuffled swaps tc.times
      isSorted := isSortedList (shuffled swaps tc.times) })
    (fun column => { column with listArray := shuffled swaps column.listArray }) fun _ => rfl
  refine h.trans ?_
  rw [mapColumns, shuffleWith, rowIds_rangeColumns]

theorem sortedByTimeline_cases (n : Nat) (timeline : TimelineName) :
    ((c.sortedByTimelineIfUnsorted newId n timeline).1 = c ∧
        ∀ tc, c.timeline? timeline = some tc → tc.isSorted = true) ∨
      ∃ tc, c.timeline? timeline = some tc ∧ tc.isSorted = false ∧
        (c.sortedByTimelineIfUnsorted newId n timeline).1 =
          c.shuffleWith (newId (n + 1)) (c.timeOrder tc) := by
  rw [sortedByTimelineIfUnsorted]
  cases htc : c.timeline? timeline with
  | none =>
    refine .inl ⟨rfl, fun tc h => ?_⟩
    cases h
  | some tc =>
    cases hs : tc.isSorted with
    | true =>
      refine .inl ⟨?_, ?_⟩
      · dsimp only
        rw [if_pos hs]
      · rintro _ ⟨⟩
        exact hs
    | false =>
      refine .inr ⟨tc, rfl, hs, ?_⟩
      dsimp only
      rw [if_neg (Bool.not_eq_true _ ▸ hs)]
      rfl

theorem sorted_rangeColumns (n : Nat) (id : ChunkId) :
    (((c.sortedByTimelineIfUnsorted newId n query.timeline).1).rangeColumns newId query
        component).withId id =
      ((c.rangeColumns newId query component).sortedByTimelineIfUnsorted newId n
        query.timeline).1.withId id := by
  have htl := timeline?_rangeColumns c newId query component
  rcases c.sortedByTimeline_cases newId n query.timeline with ⟨h, hs⟩ | ⟨tc, htc, hs, h⟩
  · rw [h, sortedByTimelineIfUnsorted, htl]
    cases htc : c.timeline? query.timeline with
    | none => rfl
    | some tc => simp [hs tc htc]
  · rw [h, sortedByTimelineIfUnsorted, htl, htc]
    have hcomm := c.shuffleWith_rangeColumns newId query component (newId (n + 1)) (c.timeOrder tc)
    dsimp only
    rw [if_neg (Bool.not_eq_true _ ▸ hs), rowIds_rangeColumns]
    have hcomm := congrArg (withId · id) hcomm
    exact hcomm

end Columns

-- ---------------------------------------------------------------------------
-- Sorted chunks
-- ---------------------------------------------------------------------------

theorem WellFormed.isSorted_sortedByTimeline {c : Chunk} (h : c.WellFormed) (n : Nat)
    {timeline : TimelineName}
    (htc : (c.sortedByTimelineIfUnsorted newId n timeline).1.timeline? timeline = some tc) :
    tc.isSorted = true := by
  rcases c.sortedByTimeline_cases newId n timeline with ⟨he, hs⟩ | ⟨old, hold, -, he⟩
  · exact hs tc (he ▸ htc)
  · have hlen := (h.timeline_of_lookup hold).2
    have hlookup : (c.shuffleWith (newId (n + 1)) (c.timeOrder old)).timeline? timeline = some
        { old with
          times := shuffled (c.timeOrder old) old.times
          isSorted := isSortedList (shuffled (c.timeOrder old) old.times) } := by
      have hmap := OrdMap.lookup_map_snd c.timelines (fun _ (tc : TimeColumn) =>
        { tc with
          times := shuffled (c.timeOrder old) tc.times
          isSorted := isSortedList (shuffled (c.timeOrder old) tc.times) }) timeline
      rw [← timeline?, hold] at hmap
      exact hmap
    rw [he, hlookup] at htc
    cases htc
    let keys : List (TimeInt ×ₗ RowId) := old.times.zipWith (fun t r => toLex (t, r)) c.rowIds
    have hkeys : keys.map (fun key => (ofLex key).1) = old.times := by
      rw [List.map_zipWith, ← List.map_uncurry_zip_eq_zipWith]
      exact List.map_fst_zip hlen.le
    have hsorted := isSortedList_iff.mp (isSortedList_shuffled_argsort keys)
    have hshuffled : shuffled (argsort keys) old.times =
        (shuffled (argsort keys) keys).map fun key => (ofLex key).1 := by
      rw [← hkeys, shuffled, shuffled, List.map_filterMap]
      simp only [List.getElem?_map]
    refine isSortedList_iff.mpr ?_
    rw [show c.timeOrder old = argsort keys from rfl, hshuffled, List.pairwise_map]
    exact hsorted.imp fun hle => Prod.Lex.monotone_fst _ _ hle

theorem WellFormed.timeOrder_perm {c : Chunk} {timeline : TimelineName} (h : c.WellFormed)
    (htc : c.timeline? timeline = some tc) : (c.timeOrder tc).Perm (List.range c.numRows) := by
  have hlen := (h.timeline_of_lookup htc).2
  have hp := argsort_perm (tc.times.zipWith (fun t r => (toLex (t, r) : TimeInt ×ₗ RowId)) c.rowIds)
  rwa [List.length_zipWith, hlen, numRows, min_self] at hp

theorem WellFormed.isEmpty_sortedByTimeline {c : Chunk} (h : c.WellFormed) (n : Nat)
    (timeline : TimelineName) :
    (c.sortedByTimelineIfUnsorted newId n timeline).1.isEmpty = c.isEmpty := by
  rcases c.sortedByTimeline_cases newId n timeline with ⟨he, -⟩ | ⟨tc, htc, -, he⟩
  · rw [he]
  · have hp := shuffled_perm (l := c.rowIds) (h.timeOrder_perm htc)
    rw [he, isEmpty, isEmpty, Bool.eq_iff_iff, List.isEmpty_iff, List.isEmpty_iff]
    exact ⟨fun hn => (hn ▸ hp : ([] : List RowId).Perm c.rowIds).nil_eq.symm,
      fun hn => (hn ▸ hp : (shuffled _ c.rowIds).Perm []).eq_nil⟩

theorem densityMask_sortedByTimeline (c : Chunk) (newId : Nat → ChunkId) (n : Nat)
    (timeline : TimelineName) (h : c.densityMask component = none) :
    (c.sortedByTimelineIfUnsorted newId n timeline).1.densityMask component = none := by
  rcases c.sortedByTimeline_cases newId n timeline with ⟨he, -⟩ | ⟨tc, -, -, he⟩
  · rwa [he]
  · rw [he, densityMask]
    split
    · rfl
    case isFalse hne =>
      rw [densityMask, if_neg (fun hn => hne ?_)] at h
      · have hget := get_map c.components (fun column =>
          { column with listArray := shuffled (c.timeOrder tc) column.listArray }) (fun _ => rfl)
          component
        rw [shuffleWith, hget]
        cases hc : c.components.get component with
        | none => rfl
        | some column =>
          rw [hc, Option.bind_some, SerializedComponentColumn.nulls_eq_none_iff] at h
          rw [Option.map_some, Option.bind_some, SerializedComponentColumn.nulls_eq_none_iff]
          intro cell hcell
          obtain ⟨i, -, hi⟩ := List.mem_filterMap.mp hcell
          exact h cell (List.mem_of_getElem? hi)
      · rw [isEmpty, List.isEmpty_iff] at hn
        rw [shuffleWith, isEmpty, List.isEmpty_iff, hn, shuffled]
        exact List.filterMap_eq_nil_iff.mpr fun _ _ => rfl

theorem densified_withId (c : Chunk) (i i' j : ChunkId) (component : ComponentIdentifier) :
    (c.densified i component).1.withId j = (c.densified i' component).1.withId j := by
  rw [densified_eq, densified_eq]
  split <;> rfl

theorem sortedByTimeline_withId (c : Chunk) (newId newId' : Nat → ChunkId) (n n' : Nat)
    (i j : ChunkId) (timeline : TimelineName) :
    ((c.withId i).sortedByTimelineIfUnsorted newId n timeline).1.withId j =
      (c.sortedByTimelineIfUnsorted newId' n' timeline).1.withId j := by
  rw [sortedByTimelineIfUnsorted, sortedByTimelineIfUnsorted]
  have htl : (c.withId i).timeline? timeline = c.timeline? timeline := rfl
  rw [htl]
  cases c.timeline? timeline with
  | none => rfl
  | some tc =>
    dsimp only
    split <;> rfl

theorem rangeColumns_withId (c : Chunk) (newId : Nat → ChunkId) (query : RangeQuery)
    (component : ComponentIdentifier) (i j : ChunkId) :
    ((c.withId i).rangeColumns newId query component).withId j =
      (c.rangeColumns newId query component).withId j := by
  rw [rangeColumns, rangeColumns]
  cases query.keepExtraComponents <;> cases query.keepExtraTimelines <;> rfl

-- ---------------------------------------------------------------------------
-- The static branch
-- ---------------------------------------------------------------------------

theorem lastValid_eq_some {column : SerializedComponentColumn} {n i : Nat}
    (h : lastValid column n = some i) :
    i < n ∧ column.isValid i = true ∧ ∀ j, i < j → j < n → column.isValid j = false := by
  induction n with
  | zero => cases h
  | succ n ih =>
    rw [lastValid] at h
    split at h
    case isTrue hv =>
      cases h
      exact ⟨Nat.lt_succ_self _, hv, fun j hj hj' => absurd hj' (Nat.not_lt.mpr hj)⟩
    case isFalse hv =>
      obtain ⟨hi, hvi, hlast⟩ := ih h
      refine ⟨Nat.lt_succ_of_lt hi, hvi, fun j hj hj' => ?_⟩
      rcases Nat.lt_succ_iff_lt_or_eq.mp hj' with hj' | rfl
      · exact hlast j hj hj'
      · exact Bool.not_eq_true _ ▸ hv

theorem lastValid_eq_none {column : SerializedComponentColumn} {n : Nat}
    (h : lastValid column n = none) : ∀ j < n, column.isValid j = false := by
  induction n with
  | zero => exact fun j hj => absurd hj j.not_lt_zero
  | succ n ih =>
    rw [lastValid] at h
    split at h
    case isTrue => cases h
    case isFalse hv =>
      intro j hj
      rcases Nat.lt_succ_iff_lt_or_eq.mp hj with hj | rfl
      · exact ih h j hj
      · exact Bool.not_eq_true _ ▸ hv

theorem rowSliced_one {c : Chunk} (hst : c.timelines = []) {i : Nat} (hi : i < c.numRows)
    (id : ChunkId) :
    c.rowSliced id i 1 =
      { id, entityPath := c.entityPath, isSorted := true, rowIds := (c.rowIds.drop i).take 1,
        timelines := [], components := c.components.map (·.rowSliced i 1) } := by
  have hlen : min (i + 1) c.numRows - i = 1 := by omega
  rw [rowSliced, if_neg (Nat.not_le.mpr hi)]
  simp only [hlen, hst]
  simp

theorem rowSlicedUnit_one {c : Chunk} (hst : c.timelines = []) {i : Nat} (hi : i < c.numRows)
    (id : ChunkId) : (c.rowSlicedUnit id i).map (·.chunk) = some (c.rowSliced id i 1) := by
  have hone : (c.rowSliced id i 1).numRows = 1 := by
    rw [rowSliced_one hst hi, numRows, List.length_take, List.length_drop]
    exact Nat.min_eq_left (Nat.sub_pos_of_lt hi)
  rw [rowSlicedUnit, intoUnitWithOriginalChunkId, dif_pos hone]
  rfl

theorem latestAt_withId (c : Chunk) (i id : ChunkId) (query : LatestAtQuery)
    (component : ComponentIdentifier) :
    ((c.withId i).latestAt id query component).map (·.chunk) =
      (c.latestAt id query component).map (·.chunk) := by
  have hunit (k : Nat) : ((c.withId i).rowSlicedUnit id k).map (·.chunk) =
      (c.rowSlicedUnit id k).map (·.chunk) := by
    rw [rowSlicedUnit, rowSlicedUnit, intoUnitWithOriginalChunkId, intoUnitWithOriginalChunkId]
    have hs : (c.withId i).rowSliced id k 1 = c.rowSliced id k 1 := rfl
    rw [hs]
    split <;> rfl
  have hindex (column) : (c.withId i).latestIndex query column = c.latestIndex query column := rfl
  rw [latestAt, latestAt]
  have he : (c.withId i).isEmpty = c.isEmpty := rfl
  have hg : (c.withId i).components = c.components := rfl
  rw [he, hg]
  split
  · rfl
  · cases c.components.get component with
    | none => rfl
    | some column =>
      simp only [Option.bind_eq_bind, Option.bind_some, hindex]
      cases c.latestIndex query column with
      | none => rfl
      | some k => exact hunit k

/-- In a static sorted chunk, the latest row is the same before and after densifying. -/
theorem latestAt_densified {c : Chunk} (h : c.WellFormed) (hst : c.timelines = [])
    (hs : c.isSorted = true) (id id' : ChunkId) (query : LatestAtQuery)
    (component : ComponentIdentifier) : (((c.densified id' component).1).latestAt id query component).map (·.chunk) =
      (c.latestAt id query component).map (·.chunk) := by
  have hwd := densified_wellFormed h id' component
  rw [densified_eq] at hwd ⊢
  split
  case h_1 => rfl
  case h_2 mask hm =>
    have hlen := h.length_densityMask hm
    rw [hm] at hwd
    rw [densityMask] at hm
    split at hm
    · cases hm
    case isFalse hne =>
    obtain ⟨column, hc, hn⟩ := Option.bind_eq_some_iff.mp hm
    have hmask := SerializedComponentColumn.eq_of_nulls_eq_some hn
    generalize hb : (c.isSorted || decide (mask.count true < 2) ||
      isSortedList (filterArray mask c.rowIds)) = b at hwd ⊢
    have hbt : b = true := by rw [← hb, hs, Bool.true_or, Bool.true_or]
    set d := c.mapColumns id' b (filterArray mask c.rowIds) (·.filtered mask) (·.filtered mask)
      with hd
    have hdst : d.timelines = [] := by rw [hd, mapColumns, hst]; rfl
    have hdrows : d.numRows = mask.count true := length_filterArray hlen.symm
    have hdget : d.components.get component = some (column.filtered mask) := by
      have hget := get_map c.components (·.filtered mask) (fun _ => rfl) component
      rw [hc] at hget
      exact hget
    have hvalid (j : Nat) : mask[j]? = some true ↔ column.isValid j = true := by
      rw [hmask, List.getElem?_map, SerializedComponentColumn.isValid, List.getD_eq_getElem?_getD]
      cases column.listArray[j]? <;> simp
    have hindex (k : Chunk) (col : SerializedComponentColumn) (ht : k.timelines = [])
        (hk : k.isSorted = true) : k.latestIndex query col = lastValid col k.numRows := by
      rw [latestIndex, isStatic, ht, if_pos (List.isEmpty_nil), if_pos hk]
    rw [latestAt, latestAt, if_neg hne, hdget, hc]
    simp only [Option.bind_eq_bind, Option.bind_some]
    rw [hindex c column hst hs, hindex d _ hdst hbt]
    cases hlast : lastValid column c.numRows with
    | none =>
      have hzero : mask.count true = 0 := by
        rw [List.count_eq_zero]
        intro hmem
        obtain ⟨j, hj⟩ := List.getElem?_of_mem hmem
        have hjlt : j < c.numRows := hlen ▸ (List.getElem?_eq_some_iff.mp hj).1
        exact Bool.false_ne_true ((lastValid_eq_none hlast j hjlt).symm.trans ((hvalid j).mp hj))
      have hempty : d.isEmpty = true := by
        rw [isEmpty, List.isEmpty_iff, ← List.length_eq_zero_iff]
        exact hdrows.trans hzero
      rw [if_pos hempty]
      rfl
    | some i =>
      obtain ⟨hi, hvi, hafter⟩ := lastValid_eq_some hlast
      have hmi := (hvalid i).mpr hvi
      have hmafter : ∀ j, i < j → mask[j]? ≠ some true := by
        intro j hj hjm
        have hjlt : j < c.numRows := hlen ▸ (List.getElem?_eq_some_iff.mp hjm).1
        exact Bool.false_ne_true ((hafter j hj hjlt).symm.trans ((hvalid j).mp hjm))
      obtain ⟨m, hcount⟩ := Nat.exists_eq_succ_of_ne_zero
        (List.count_pos_iff.mpr (List.mem_of_getElem? hmi)).ne'
      have hdlast : lastValid (column.filtered mask) d.numRows = some m := by
        rw [hdrows, hcount, lastValid, if_pos]
        have hcol := (hwd.component (column.filtered mask) (component_of_get hdget).1).trans
          (hdrows.trans hcount)
        rw [SerializedComponentColumn.isValid, List.getD_eq_getElem?_getD,
          List.getElem?_eq_getElem (hcol ▸ m.lt_succ_self), Option.getD_some]
        refine isSome_of_mem_filterArray (l := column.listArray) ?_
        rw [← hmask]
        exact List.getElem_mem _
      have hdne : ¬ d.isEmpty = true := by
        rw [isEmpty, List.isEmpty_iff, ← List.length_eq_zero_iff]
        change ¬ d.numRows = 0
        omega
      have hm : m = mask.count true - 1 := by omega
      rw [if_neg hdne, hdlast]
      simp only [Option.bind_some]
      rw [rowSlicedUnit_one hst hi, rowSlicedUnit_one hdst (by omega), rowSliced_one hst hi,
        rowSliced_one hdst (by omega)]
      congr 2
      · rw [hm]
        exact drop_filterArray_last hlen.symm hmi hmafter
      · rw [hd, mapColumns, List.map_map]
        refine List.map_congr_left fun col hcol => ?_
        rw [Function.comp_apply, SerializedComponentColumn.rowSliced,
          SerializedComponentColumn.rowSliced, SerializedComponentColumn.filtered, hm,
          drop_filterArray_last ((h.component col hcol).trans hlen.symm) hmi hmafter]

-- ---------------------------------------------------------------------------
-- The cached chunk answers like the chunk itself
-- ---------------------------------------------------------------------------

theorem rowSliced_congr (c : Chunk) (id : ChunkId) {i len len' : Nat}
    (h : min (i + len) c.numRows = min (i + len') c.numRows) :
    c.rowSliced id i len = c.rowSliced id i len' := by
  rw [rowSliced, rowSliced, h]

theorem rangeSliced_numRows (c : Chunk) (id : ChunkId) (query : RangeQuery)
    (h : c.numRows ≤ n) : c.rangeSliced id n query = c.rangeSliced id c.numRows query := by
  rw [rangeSliced, rangeSliced]
  split
  · rfl
  · dsimp only
    split
    · refine c.rowSliced_congr id ?_
      omega
    · rfl

theorem isEmpty_rangeSliced {c : Chunk} (h : c.isEmpty = true) (id : ChunkId) (n : Nat)
    (query : RangeQuery) : (c.rangeSliced id n query).isEmpty = true := by
  rw [isEmpty, List.isEmpty_iff] at h
  rw [rangeSliced]
  split
  · rfl
  · dsimp only
    rw [isEmpty, rowSliced_rowIds, h, List.drop_nil, List.take_nil]
    rfl

theorem isStatic_densified (c : Chunk) (id : ChunkId) (component : ComponentIdentifier) :
    (c.densified id component).1.isStatic = c.isStatic := by
  rw [densified_eq]
  split
  · rfl
  · rw [isStatic, isStatic, mapColumns, List.isEmpty_map]

theorem isStatic_sortedByTimeline (c : Chunk) (newId : Nat → ChunkId) (n : Nat)
    (timeline : TimelineName) :
    (c.sortedByTimelineIfUnsorted newId n timeline).1.isStatic = c.isStatic := by
  rcases c.sortedByTimeline_cases newId n timeline with ⟨he, -⟩ | ⟨tc, -, -, he⟩
  · rw [he]
  · rw [he, isStatic, isStatic, shuffleWith, List.isEmpty_map]

theorem isSome_timeline?_densified (c : Chunk) (id : ChunkId) (component : ComponentIdentifier)
    (name : TimelineName) :
    ((c.densified id component).1.timeline? name).isSome = (c.timeline? name).isSome := by
  rw [densified_eq]
  split
  · rfl
  · rw [timeline?_mapColumns, Option.isSome_map]

theorem isSome_timeline?_sortedByTimeline (c : Chunk) (newId : Nat → ChunkId) (n : Nat)
    (timeline name : TimelineName) :
    ((c.sortedByTimelineIfUnsorted newId n timeline).1.timeline? name).isSome =
      (c.timeline? name).isSome := by
  rcases c.sortedByTimeline_cases newId n timeline with ⟨he, -⟩ | ⟨tc, -, -, he⟩
  · rw [he]
  · have hmap := OrdMap.lookup_map_snd c.timelines (fun _ (old : TimeColumn) =>
      { old with
        times := shuffled (c.timeOrder tc) old.times
        isSorted := isSortedList (shuffled (c.timeOrder tc) old.times) }) name
    rw [he, timeline?, shuffleWith, hmap, Option.isSome_map, timeline?]

theorem numRows_densified_le (c : Chunk) (id : ChunkId) (component : ComponentIdentifier) :
    (c.densified id component).1.numRows ≤ c.numRows := by
  rw [densified_eq]
  split
  · exact le_rfl
  · exact (filterArray_sublist _ _).length_le

theorem WellFormed.numRows_sortedByTimeline {c : Chunk} (h : c.WellFormed) (n : Nat)
    (timeline : TimelineName) :
    (c.sortedByTimelineIfUnsorted newId n timeline).1.numRows = c.numRows := by
  rcases c.sortedByTimeline_cases newId n timeline with ⟨he, -⟩ | ⟨tc, htc, -, he⟩
  · rw [he]
  · rw [he]
    exact (shuffled_perm (h.timeOrder_perm htc)).length_eq

theorem WellFormed.rangeColumns {c : Chunk} (h : c.WellFormed) (newId : Nat → ChunkId)
    (query : RangeQuery) (component : ComponentIdentifier) :
    (c.rangeColumns newId query component).WellFormed := by
  have htl {d : Chunk} (hd : d.WellFormed) (id : ChunkId) :
      (d.timelineSliced id query.timeline).WellFormed := by
    refine ⟨hd.sorted, ?_, hd.components_nodup, fun entry he => ?_, hd.component⟩
    · rw [timelineSliced]
      cases d.timeline? query.timeline <;> simp
    · rw [timelineSliced, Option.mem_toList, Option.map_eq_some_iff] at he
      obtain ⟨tc, htc, rfl⟩ := he
      exact hd.timeline_of_lookup htc
  have hcomp {d : Chunk} (hd : d.WellFormed) (id : ChunkId) :
      (d.componentSliced id component).WellFormed := by
    refine ⟨hd.sorted, hd.timelines_nodup, ?_, hd.timeline, fun column hc => ?_⟩
    · rw [componentSliced]
      cases d.components.get component <;> simp
    · rw [componentSliced, Option.mem_toList] at hc
      exact hd.component column (component_of_get hc).1
  rw [Chunk.rangeColumns]
  cases query.keepExtraComponents <;> cases query.keepExtraTimelines
  · exact hcomp (htl h _) _
  · exact hcomp h _
  · exact htl h _
  · exact h

theorem isSorted_timeline_densified (c : Chunk) (id : ChunkId) (component : ComponentIdentifier)
    (htc : c.timeline? timeline = some tc) (hs : tc.isSorted = true) (tc' : TimeColumn)
    (htc' : (c.densified id component).1.timeline? timeline = some tc') : tc'.isSorted = true := by
  rw [densified_eq] at htc'
  split at htc'
  case h_1 =>
    obtain rfl := Option.some.inj (htc.symm.trans htc')
    exact hs
  case h_2 mask _ =>
    rw [timeline?_mapColumns, htc, Option.map_some] at htc'
    cases htc'
    rw [TimeColumn.filtered, hs, Bool.true_or, if_pos rfl]
    rfl

/-- The densified and sorted rows among which a range query chooses. -/
def rangeRows (c : Chunk) (newId : Nat → ChunkId) (query : RangeQuery)
    (component : ComponentIdentifier) : Chunk :=
  (((c.rangeColumns newId query component).densified (newId 2)
    component).1.sortedByTimelineIfUnsorted newId 3 query.timeline).1

theorem range_eq {c : Chunk} (hne : ¬ c.isEmpty = true) (newId : Nat → ChunkId)
    (query : RangeQuery) (component : ComponentIdentifier) :
    c.range newId query component =
      if (c.rangeColumns newId query component).isStatic then
        match (c.rangeColumns newId query component).latestAt (newId 2)
          ⟨query.timeline, .MAX⟩ component with
        | some unit => unit.chunk
        | none => (c.rangeColumns newId query component).emptied (newId 2)
      else
        match (c.rangeColumns newId query component).timeline? query.timeline with
        | none => (c.rangeColumns newId query component).emptied (newId 2)
        | some _ => (c.rangeRows newId query component).rangeSliced (newId 5) c.numRows query := by
  rw [range, if_neg hne, rangeRows]
  generalize c.rangeColumns newId query component = x
  dsimp only
  split
  · rfl
  · cases htc : x.timeline? query.timeline with
    | none => rfl
    | some tc =>
      dsimp only
      split
      case isFalse => rfl
      case isTrue hsorted =>
        rcases (x.densified (newId 2) component).1.sortedByTimeline_cases newId 3
          query.timeline with ⟨he, -⟩ | ⟨tc', htc', hs', -⟩
        · rw [he]
        · have hd := isSorted_timeline_densified x (newId 2) component htc hsorted tc' htc'
          exact absurd (hs'.symm.trans hd) Bool.false_ne_true

theorem rangeColumns_cached (c : Chunk) (newId : Nat → ChunkId) (key : QueryCacheKey)
    (query : RangeQuery) (hkey : key.timelineName = query.timeline) (j : ChunkId) :
    ((RangeCachedChunk.new newId key c).chunk.rangeColumns newId query key.component).withId j =
      (c.rangeRows newId query key.component).withId j := by
  have h1 := rangeColumns_withId ((c.densified (newId 0) key.component).1.sortedByTimelineIfUnsorted
    newId 1 query.timeline).1 newId query key.component c.id j
  have h2 := sorted_rangeColumns (c.densified (newId 0) key.component).1 newId query
    key.component 1 j
  have h3 := densified_rangeColumns c newId query key.component (newId 0)
  have h4 := densified_withId (c.rangeColumns newId query key.component) (newId 0) (newId 2)
    (newId 0) key.component
  have h5 := sortedByTimeline_withId
    ((c.densified (newId 0) key.component).1.rangeColumns newId query key.component) newId newId 1 1
    (newId 0) j query.timeline
  have h6 := sortedByTimeline_withId
    ((c.rangeColumns newId query key.component).densified (newId 2) key.component).1 newId newId 1 3
    (newId 0) j query.timeline
  rw [RangeCachedChunk.new, hkey]
  rw [h3, h4] at h5
  exact h1.trans (h2.trans (h5.symm.trans h6))

theorem isEmpty_rangeRows {c : Chunk} (h : c.WellFormed) (newId : Nat → ChunkId)
    (query : RangeQuery) (component : ComponentIdentifier) :
    (c.rangeRows newId query component).isEmpty =
      ((c.rangeColumns newId query component).densified (newId 2) component).1.isEmpty :=
  (densified_wellFormed (h.rangeColumns newId query component) _ _).isEmpty_sortedByTimeline 3 _

theorem isEmpty_range {c : Chunk} (h : c.WellFormed) (hs : c.isSorted = true)
    (newId : Nat → ChunkId) (query : RangeQuery) (component : ComponentIdentifier)
    (he : (c.rangeRows newId query component).isEmpty = true) :
    (c.range newId query component).isEmpty = true := by
  by_cases hce : c.isEmpty = true
  · rwa [range, if_pos hce]
  rw [range_eq hce]
  split
  case isTrue hst =>
    have hx := h.rangeColumns newId query component
    have hlatest := latestAt_densified hx (List.isEmpty_iff.mp hst)
      ((isSorted_rangeColumns c newId query component).trans hs) (newId 2) (newId 2)
      ⟨query.timeline, .MAX⟩ component
    rw [isEmpty_rangeRows h] at he
    rw [latestAt, if_pos he] at hlatest
    cases hu : (c.rangeColumns newId query component).latestAt (newId 2)
        ⟨query.timeline, .MAX⟩ component with
    | none => rfl
    | some unit =>
      rw [hu] at hlatest
      cases hlatest
  case isFalse =>
    split
    · rfl
    · exact isEmpty_rangeSliced he _ _ _

theorem rangeRows_cached {c : Chunk} (h : c.WellFormed) (newId : Nat → ChunkId)
    (key : QueryCacheKey) (query : RangeQuery) (hkey : key.timelineName = query.timeline)
    (j : ChunkId) :
    ((RangeCachedChunk.new newId key c).chunk.rangeRows newId query key.component).withId j =
      (c.rangeRows newId query key.component).withId j := by
  have hcols := rangeColumns_cached c newId key query hkey
  have hwy := densified_wellFormed (h.rangeColumns newId query key.component) (newId 2)
    key.component
  have hdense : ((RangeCachedChunk.new newId key c).chunk.rangeColumns newId query
      key.component).densityMask key.component = none := by
    have hmask := congrArg (densityMask · key.component) (hcols 0)
    refine hmask.trans ?_
    exact densityMask_sortedByTimeline _ newId 3 query.timeline (densityMask_densified _ _ _)
  refine Eq.trans ?_ (hcols j)
  rw [rangeRows, densified_eq, hdense]
  dsimp only
  rcases ((RangeCachedChunk.new newId key c).chunk.rangeColumns newId query
    key.component).sortedByTimeline_cases newId 3 query.timeline with ⟨he, -⟩ | ⟨tc, htc, hs, -⟩
  · rw [he]
  · have htl := congrArg (timeline? · query.timeline) (hcols 0)
    exact absurd (hs.symm.trans (hwy.isSorted_sortedByTimeline 3 (htl.symm.trans htc)))
      Bool.false_ne_true

/-- A query finds in the cached chunk what it finds in the chunk. -/
theorem range_cached {c : Chunk} (h : c.WellFormed) (hs : c.isSorted = true)
    (newId : Nat → ChunkId) (key : QueryCacheKey) (query : RangeQuery)
    (hkey : key.timelineName = query.timeline) :
    let cached := (RangeCachedChunk.new newId key c).chunk
    cached.range newId query key.component = c.range newId query key.component ∨
      (cached.range newId query key.component).isEmpty = true ∧
        (c.range newId query key.component).isEmpty = true := by
  intro cached
  have hcols := rangeColumns_cached c newId key query hkey
  have hrows := rangeRows_cached h newId key query hkey
  have hempty : (c.rangeRows newId query key.component).isEmpty = cached.isEmpty := by
    have hrows := congrArg (fun d : Chunk => d.isEmpty) (hcols 0)
    refine hrows.symm.trans ?_
    change (cached.rangeColumns newId query key.component).rowIds.isEmpty = _
    rw [rowIds_rangeColumns]
    rfl
  by_cases hpe : cached.isEmpty = true
  · refine .inr ⟨?_, isEmpty_range h hs newId query key.component (hempty.trans hpe)⟩
    rwa [range, if_pos hpe]
  have hce : ¬ c.isEmpty = true := by
    intro hce
    refine hpe ?_
    have hd : (c.densified (newId 0) key.component).1 = c := by rw [densified, if_pos hce]
    refine ((densified_wellFormed h _ _).isEmpty_sortedByTimeline 1 key.timelineName).trans ?_
    rwa [hd]
  have hwx := h.rangeColumns newId query key.component
  have hwd := densified_wellFormed hwx (newId 2) key.component
  have hstatic : (cached.rangeColumns newId query key.component).isStatic =
      (c.rangeColumns newId query key.component).isStatic := by
    have hst := congrArg (fun d : Chunk => d.isStatic) (hcols 0)
    refine hst.trans ((isStatic_sortedByTimeline _ newId 3 query.timeline).trans ?_)
    exact isStatic_densified _ _ _
  rw [range_eq hpe, range_eq hce, hstatic]
  by_cases hst : (c.rangeColumns newId query key.component).isStatic = true
  · rw [if_pos hst, if_pos hst]
    have hnil := List.isEmpty_iff.mp hst
    have hsort : c.rangeRows newId query key.component =
        ((c.rangeColumns newId query key.component).densified (newId 2) key.component).1 := by
      rcases ((c.rangeColumns newId query key.component).densified (newId 2)
        key.component).1.sortedByTimeline_cases newId 3 query.timeline with ⟨he, -⟩ | ⟨tc, htc, -, -⟩
      · exact he
      · have hdnil := List.isEmpty_iff.mp ((isStatic_densified
          (c.rangeColumns newId query key.component) (newId 2) key.component).trans hst)
        rw [timeline?, hdnil] at htc
        cases htc
    have hlatest := latestAt_densified hwx hnil
      ((isSorted_rangeColumns c newId query key.component).trans hs) (newId 2) (newId 2)
      ⟨query.timeline, .MAX⟩ key.component
    have hcached := latestAt_withId (cached.rangeColumns newId query key.component) 0 (newId 2)
      ⟨query.timeline, .MAX⟩ key.component
    rw [hcols 0, latestAt_withId, hsort, hlatest] at hcached
    cases hx : (c.rangeColumns newId query key.component).latestAt (newId 2)
        ⟨query.timeline, .MAX⟩ key.component with
    | none =>
      cases hp : (cached.rangeColumns newId query key.component).latestAt (newId 2)
          ⟨query.timeline, .MAX⟩ key.component with
      | none => exact .inr ⟨rfl, rfl⟩
      | some unit =>
        rw [hx, hp] at hcached
        cases hcached
    | some unit =>
      cases hp : (cached.rangeColumns newId query key.component).latestAt (newId 2)
          ⟨query.timeline, .MAX⟩ key.component with
      | none =>
        rw [hx, hp] at hcached
        cases hcached
      | some unit' =>
        rw [hx, hp] at hcached
        exact .inl (Option.some.inj hcached).symm
  · rw [if_neg hst, if_neg hst, timeline?_rangeColumns, timeline?_rangeColumns]
    have htl : (cached.timeline? query.timeline).isSome =
        (c.timeline? query.timeline).isSome := by
      have htl := congrArg (fun d : Chunk => (d.timeline? query.timeline).isSome) (hcols 0)
      rw [← timeline?_rangeColumns cached newId query key.component,
        ← timeline?_rangeColumns c newId query key.component]
      refine htl.trans ((isSome_timeline?_sortedByTimeline _ newId 3 _ _).trans ?_)
      exact isSome_timeline?_densified _ _ _ _
    have hslice : (cached.rangeRows newId query key.component).rangeSliced (newId 5)
        cached.numRows query =
        (c.rangeRows newId query key.component).rangeSliced (newId 5) c.numRows query := by
      have hn := congrArg numRows (hrows 0)
      have hn' := congrArg numRows (hcols 0)
      have hcn : (cached.rangeRows newId query key.component).numRows ≤ cached.numRows := by
        refine (hn.trans (hn'.symm.trans ?_)).le
        exact congrArg List.length (rowIds_rangeColumns cached newId query key.component)
      have hrn : (c.rangeRows newId query key.component).numRows ≤ c.numRows := by
        refine (hwd.numRows_sortedByTimeline 3 query.timeline).le.trans ?_
        refine (numRows_densified_le _ _ _).trans ?_
        exact (congrArg List.length (rowIds_rangeColumns c newId query key.component)).le
      rw [rangeSliced_numRows _ _ query hcn, rangeSliced_numRows _ _ query hrn]
      have hsame := congrArg (fun d : Chunk => d.rangeSliced (newId 5) d.numRows query) (hrows 0)
      exact hsame
    cases hc : c.timeline? query.timeline with
    | none =>
      cases hp : cached.timeline? query.timeline with
      | none => exact .inr ⟨rfl, rfl⟩
      | some _ => simp [hc, hp] at htl
    | some _ =>
      cases hp : cached.timeline? query.timeline with
      | none => simp [hc, hp] at htl
      | some _ => exact .inl hslice

end Chunk

end DimosViewer
