import DimosViewer.Chunk.DeriveLaws
import DimosViewer.Query.Pagination
import Mathlib.Data.List.ReduceOption

/-!
# Random access

What a handle fetches at first, and what any history of calls leaves of it: the rows after a seek are
those of a handle that has only been iterated.
-/

namespace DimosViewer

open MapAccum (mapAccum Yields)
open Std (TreeMap TreeSet)

-- ---------------------------------------------------------------------------
-- Fetched chunks
-- ---------------------------------------------------------------------------

namespace Chunk

theorem WellFormed.sound {c : Chunk} (h : c.WellFormed) : c.Sound where
  toAligned := h.aligned
  sorted hs := isSortedList_iff.mp (h.sorted ▸ hs)
  column entry he := by
    have htc := (h.timeline entry he).1
    have hbounds (t : TimeInt) (ht : t ∈ entry.2.times) :=
      AbsoluteTimeRange.contains_iff.mp (htc.bounds t ht)
    exact ⟨⟨fun hs => isSortedList_iff.mp (htc.sorted ▸ hs),
      fun hne => ⟨htc.min_mem hne, fun t ht => (hbounds t ht).1⟩,
      fun hne => ⟨htc.max_mem hne, fun t ht => (hbounds t ht).2⟩⟩, htc.temporal⟩

theorem Sound.timesSound {c : Chunk} (h : c.Sound) (index : TimelineName) :
    c.TimesSound index := by
  intro tc ht
  have hmem : (index, tc) ∈ c.timelines := (OrdMap.lookup_eq_some_iff_mem h.timelines_nodup).mp ht
  refine ⟨h.timeline _ hmem, fun t hm => ⟨(h.column _ hmem).temporal t hm, ?_⟩⟩
  exact ((h.column _ hmem).greatest (List.ne_nil_of_mem hm)).2 hm

theorem Sound.rangeColumns {c : Chunk} (h : c.Sound) (newId : Nat → ChunkId) (query : RangeQuery)
    (component : ComponentIdentifier) : (c.rangeColumns newId query component).Sound := by
  have htimelines : (if query.keepExtraTimelines then c
      else c.timelineSliced (newId 0) query.timeline).Sound := by
    split
    · exact h
    · exact h.timelineSliced _ _
  rw [Chunk.rangeColumns]
  split
  · exact htimelines
  · exact htimelines.componentSliced _ _

theorem Sound.rangeSliced {c : Chunk} (h : c.Sound) (id : ChunkId) (numRows : Nat)
    (query : RangeQuery) : (c.rangeSliced id numRows query).Sound := by
  rw [Chunk.rangeSliced]
  split
  · exact h.emptied id
  · exact h.rowSliced id _ _

theorem Sound.latestAt {c : Chunk} (h : c.Sound) {id : ChunkId} {query : LatestAtQuery}
    {component : ComponentIdentifier} (hu : c.latestAt id query component = some unit) :
    unit.chunk.Sound := by
  rw [latestAt_eq] at hu
  obtain ⟨i, -, hu⟩ := Option.bind_eq_some_iff.mp hu
  rw [rowSlicedUnit, intoUnitWithOriginalChunkId] at hu
  split at hu
  case isTrue =>
    cases hu
    exact h.rowSliced id i 1
  case isFalse => cases hu

theorem Sound.range {c : Chunk} (h : c.Sound) (newId : Nat → ChunkId) (query : RangeQuery)
    (component : ComponentIdentifier) : (c.range newId query component).Sound := by
  have hcolumns := h.rangeColumns newId query component
  rw [Chunk.range]
  split
  case isTrue => exact h
  case isFalse =>
    dsimp only
    split
    case isTrue =>
      split
      case h_1 unit hu => exact hcolumns.latestAt hu
      case h_2 => exact hcolumns.emptied _
    case isFalse =>
      split
      case h_1 => exact hcolumns.emptied _
      case h_2 tc _ =>
        refine Sound.rangeSliced ?_ _ _ _
        split
        · exact hcolumns.densified _ _
        · exact (hcolumns.densified _ _).sortedByTimelineIfUnsorted _ _ _

theorem Sound.withId {c : Chunk} (h : c.Sound) (id : ChunkId) : (c.withId id).Sound :=
  ⟨⟨h.timelines_nodup, h.components_nodup, h.timeline, h.component⟩, h.sorted, h.column⟩

theorem Sound.componentsRemoved {c : Chunk} (h : c.Sound) (id : ChunkId) :
    (c.componentsRemoved id).Sound :=
  ⟨⟨h.timelines_nodup, .nil, h.timeline, nofun⟩, h.sorted, h.column⟩

theorem Sound.withEmpties {c : Chunk} (h : c.Sound) (id : ChunkId)
    (descr : ComponentColumnDescriptor) : (c.withEmpties id descr).Sound :=
  ⟨⟨h.timelines_nodup, List.nodup_singleton _, h.timeline, fun _ hc =>
    List.mem_singleton.mp hc ▸ List.length_replicate⟩, h.sorted, h.column⟩

theorem Sound.chunkFilterRecursiveOnly {c : Chunk} (h : c.Sound) {id : ChunkId}
    {values : Option (List (Option Bool))}
    (hf : chunkFilterRecursiveOnly id values c = some (some d)) : d.Sound := by
  unfold DimosViewer.chunkFilterRecursiveOnly at hf
  split at hf
  case h_2 => cases hf
  case h_1 values _ =>
    dsimp only at hf
    generalize hindices : values.zipIdx.filterMap _ = indices at hf
    have hascending : indices.Pairwise (· ≤ ·) := by
      rw [← hindices, List.pairwise_filterMap]
      refine (List.pairwise_map.mp ?_ : values.zipIdx.Pairwise (fun a b => a.2 < b.2)).imp ?_
      · rw [List.zipIdx_map_snd]
        exact List.pairwise_lt_range'
      · rintro ⟨b, i⟩ ⟨b', i'⟩ hlt j hj j' hj'
        split at hj <;> cases hj
        split at hj' <;> cases hj'
        exact hlt.le
    split at hf
    case isTrue => cases hf
    case isFalse =>
      split at hf
      case isTrue => cases hf
      case isFalse hany =>
        have hbounds : ∀ i ∈ indices, i < c.numRows := by
          intro i hi
          simp only [List.any_eq_true, decide_eq_true_eq, not_exists, not_and, not_le] at hany
          exact hany i hi
        have htaken := h.taken id hbounds (stepsUp_of_pairwise hascending)
        split at hf
        · cases hf
        · cases hf
          exact htaken

end Chunk

-- ---------------------------------------------------------------------------
-- The first state
-- ---------------------------------------------------------------------------

namespace HandleEnv

variable (henv : HandleEnv) (s : ChunkStore)

def columnChunks (query : RangeQuery) (column : ColumnDescriptor) : List Chunk :=
  match column.component? with
  | none => []
  | some descr => s.rangeChunks henv.newId query descr.entityPath descr.component

def clearChunksOf (query : RangeQuery) (entityPath : EntityPath) : Option (List Chunk) :=
  let ancestors := entityPath.lineage.tail.flatMap fun path =>
    s.rangeChunks henv.newId query path QueryCache.clearIsRecursive
  let recursiveChunks := ancestors.mapM fun c =>
    chunkFilterRecursiveOnly (henv.newId 0) (henv.clearValues c) c
  recursiveChunks.map fun recursiveChunks =>
    (s.rangeChunks henv.newId query entityPath QueryCache.clearIsRecursive ++
      recursiveChunks.reduceOption).map (·.componentsRemoved (henv.newId 0))

def clearChunks (query : RangeQuery) (viewContents : List ColumnDescriptor) :
    Option (List (EntityPath × List Chunk)) :=
  let entityPaths := ((viewContents.filterMap (·.component?)).map (·.entityPath)).dedup
  ((entityPaths.map (henv.clearChunksOf s query)).mapM id).map fun clearChunks =>
    (entityPaths.zip clearChunks).filter fun entry => !entry.2.isEmpty

variable {henv s} {env : Env} {query : RangeQuery} {caches : QueryCache}

theorem fetchChunks_yields (henv : HandleEnv) (query : RangeQuery)
    (hcore : ChunkStore.Core env .truthful s)
    (hco : caches.Coherent s.archive) (column : EntityPath × ComponentIdentifier) :
    Yields (QueryCache.Coherent s.archive) (henv.fetchChunks s query caches column)
      (let chunks := s.rangeChunks henv.newId query column.1 column.2
        if chunks.isEmpty then none else some chunks) := by
  obtain ⟨hco', hres⟩ := @QuerySession.range_spec env ⟨s, caches⟩ hcore hco henv.newId
    query column.1 [column.2]
  refine ⟨?_, hco'⟩
  rw [fetchChunks]
  dsimp only at hres ⊢
  rw [hres, ChunkStore.rangeUncached, List.foldl_cons, List.foldl_nil,
    ChunkStore.rangeUncachedComponent]
  dsimp only
  split
  · rfl
  · rfl

theorem getD_fetched (chunks : List Chunk) :
    (if chunks.isEmpty then none else some chunks).getD [] = chunks := by
  cases chunks <;> rfl

theorem fetchViewChunks_yields (henv : HandleEnv) (query : RangeQuery)
    (hcore : ChunkStore.Core env .truthful s)
    (hco : caches.Coherent s.archive) (viewContents : List ColumnDescriptor) :
    Yields (QueryCache.Coherent s.archive) (henv.fetchViewChunks s query viewContents caches)
      (viewContents.map (henv.columnChunks s query)) := by
  refine .mapAccum (fun column _ caches hco => ?_) hco
  rw [columnChunks]
  cases column.component? with
  | none => exact ⟨rfl, hco⟩
  | some descr =>
    obtain ⟨heq, hco'⟩ := fetchChunks_yields henv query hcore hco
      (descr.entityPath, descr.component)
    exact ⟨(congrArg (·.getD []) heq).trans (getD_fetched _), hco'⟩

theorem fetchClearChunksOf_yields (henv : HandleEnv) (query : RangeQuery)
    (hcore : ChunkStore.Core env .truthful s)
    (hco : caches.Coherent s.archive) (entityPath : EntityPath) :
    Yields (QueryCache.Coherent s.archive) (henv.fetchClearChunksOf s query caches entityPath)
      (henv.clearChunksOf s query entityPath) := by
  obtain ⟨hflat, hco'⟩ := fetchChunks_yields henv query hcore hco
    (entityPath, QueryCache.clearIsRecursive)
  obtain ⟨hancestors, hco''⟩ := Yields.mapAccum
    (l := entityPath.lineage.tail.map (·, QueryCache.clearIsRecursive))
    (fun column _ caches hco => fetchChunks_yields henv query hcore hco column)
    hco'
  refine ⟨?_, hco''⟩
  rw [fetchClearChunksOf, clearChunksOf]
  dsimp only
  rw [hancestors, hflat, getD_fetched, List.map_map, List.flatMap_map]
  simp only [Function.comp_apply, getD_fetched]

theorem fetchClearChunks_yields (henv : HandleEnv) (query : RangeQuery)
    (hcore : ChunkStore.Core env .truthful s)
    (hco : caches.Coherent s.archive) (viewContents : List ColumnDescriptor) :
    Yields (QueryCache.Coherent s.archive) (henv.fetchClearChunks s query viewContents caches)
      (henv.clearChunks s query viewContents) := by
  obtain ⟨heq, hco'⟩ := Yields.mapAccum
    (l := ((viewContents.filterMap (·.component?)).map (·.entityPath)).dedup)
    (fun entityPath _ caches hco =>
      fetchClearChunksOf_yields henv query hcore hco entityPath) hco
  refine ⟨?_, hco'⟩
  rw [fetchClearChunks, clearChunks]
  dsimp only
  rw [heq]

def joinedChunks (henv : HandleEnv) (s : ChunkStore) (query : QueryExpression)
    (clearChunks : List (EntityPath × List Chunk)) (column : ColumnDescriptor) : List Chunk :=
  henv.withClears query.index clearChunks column (henv.columnChunks s query.rangeQuery column)

/-- The chunks of a new handle are those of the store, whatever the caches have been through. -/
theorem init_eq (hcore : ChunkStore.Core env .truthful s) (hco : caches.Coherent s.archive)
    {query : QueryExpression} {viewContents : List ColumnDescriptor} {caches₀ : QueryCache}
    {state₀ : QueryHandleState}
    (hinit : henv.init s query viewContents caches = (caches₀, some state₀)) :
    ∃ clearChunks, henv.clearChunks s query.rangeQuery viewContents = some clearChunks ∧
      state₀.viewContents = viewContents ∧ state₀.filteredIndex = query.index ∧
      state₀.curRow = 0 ∧
      state₀.viewChunks = (viewContents.map (henv.joinedChunks s query clearChunks)).map
        (fun chunks => chunks.map ((0, ·))) ∧
      state₀.uniqueIndexValues = query.uniqueIndexValues viewContents
        (viewContents.map (henv.joinedChunks s query clearChunks)) := by
  obtain ⟨hview, hco'⟩ := fetchViewChunks_yields henv query.rangeQuery hcore hco viewContents
  obtain ⟨hclear, -⟩ := fetchClearChunks_yields henv query.rangeQuery hcore hco' viewContents
  rw [init] at hinit
  dsimp only at hinit
  rw [hclear, hview] at hinit
  cases hclears : henv.clearChunks s query.rangeQuery viewContents with
  | none =>
    rw [hclears] at hinit
    cases congrArg Prod.snd hinit
  | some clearChunks =>
    rw [hclears] at hinit
    obtain rfl := Option.some.inj (congrArg Prod.snd hinit)
    have hjoined : viewContents.zipWith (henv.withClears query.index clearChunks)
        (viewContents.map (henv.columnChunks s query.rangeQuery)) =
          viewContents.map (henv.joinedChunks s query clearChunks) := by
      rw [List.zipWith_map_right, List.zipWith_self]
      rfl
    refine ⟨clearChunks, rfl, rfl, rfl, rfl, ?_, ?_⟩
    · dsimp only
      rw [hjoined]
    · dsimp only
      rw [hjoined]

theorem sound_of_mem_rangeChunks (hcore : ChunkStore.Core env .truthful s)
    {entityPath : EntityPath} {component : ComponentIdentifier}
    (hc : c ∈ s.rangeChunks henv.newId query entityPath component) : c.Sound := by
  obtain ⟨d, hd, rfl⟩ := List.mem_map.mp (List.mem_filter.mp hc).1
  obtain ⟨-, hw, -⟩ := ChunkStore.archived_of_mem_rangeRelevantChunks hcore hd
  exact (hw.sound.range henv.newId query component).withId d.id

theorem sound_of_mem_columnChunks (hcore : ChunkStore.Core env .truthful s)
    (hc : c ∈ henv.columnChunks s query column) : c.Sound := by
  rw [columnChunks] at hc
  split at hc
  · cases hc
  · exact sound_of_mem_rangeChunks hcore hc

theorem sound_of_mem_clearChunksOf (hcore : ChunkStore.Core env .truthful s)
    (hchunks : henv.clearChunksOf s query entityPath = some chunks) (hc : c ∈ chunks) :
    c.Sound := by
  obtain ⟨recursiveChunks, hrecursive, rfl⟩ := Option.map_eq_some_iff.mp hchunks
  obtain ⟨d, hd, rfl⟩ := List.mem_map.mp hc
  refine Chunk.Sound.componentsRemoved ?_ _
  rw [List.mem_append, List.reduceOption_mem_iff] at hd
  obtain hd | hd := hd
  · exact sound_of_mem_rangeChunks hcore hd
  · obtain ⟨ancestor, hm, hf⟩ :=
      exists_left_of_forall₂ (forall₂_of_mapM_eq_some hrecursive) hd
    obtain ⟨path, -, hm⟩ := List.mem_flatMap.mp hm
    exact (sound_of_mem_rangeChunks hcore hm).chunkFilterRecursiveOnly hf

theorem clearChunksOf_of_mem (hclear : henv.clearChunks s query viewContents = some clears)
    (hm : (entityPath, chunks) ∈ clears) :
    henv.clearChunksOf s query entityPath = some chunks := by
  obtain ⟨found, hfound, rfl⟩ := Option.map_eq_some_iff.mp hclear
  have hm := (List.mem_filter.mp hm).1
  have hall := forall₂_of_mapM_eq_some hfound
  rw [List.forall₂_map_left_iff] at hall
  exact List.forall₂_iff_zip.mp hall |>.2 hm

theorem mem_withClears {index : TimelineName} {chunks : List Chunk}
    (hc : c ∈ henv.withClears index clears column chunks) :
    c ∈ chunks ∨ ∃ descr entry d, column.component? = some descr ∧ entry ∈ clears ∧
      d ∈ entry.2 ∧ c = d.withEmpties (henv.newId 0) descr := by
  rw [withClears] at hc
  split at hc
  case h_1 => exact .inl hc
  case h_2 descr hdescr =>
    split at hc
    case h_1 => exact .inl hc
    case h_2 found hfound =>
      rw [List.mem_insertionSort, List.mem_append] at hc
      refine hc.imp_right fun hc => ?_
      obtain ⟨d, hd, rfl⟩ := List.mem_map.mp hc
      obtain ⟨before, after, hclears, -⟩ := List.lookup_eq_some_iff.mp hfound
      exact ⟨descr, (descr.entityPath, found), d, hdescr, by simp [hclears], hd, rfl⟩

theorem sound_of_mem_joinedChunks (hcore : ChunkStore.Core env .truthful s)
    {query : QueryExpression}
    (hclear : henv.clearChunks s query.rangeQuery viewContents = some clears)
    (hc : c ∈ henv.joinedChunks s query clears column) : c.Sound := by
  obtain hc | ⟨descr, entry, d, -, hentry, hd, rfl⟩ := mem_withClears hc
  · exact sound_of_mem_columnChunks hcore hc
  · exact (sound_of_mem_clearChunksOf hcore (clearChunksOf_of_mem hclear hentry) hd).withEmpties _ _

end HandleEnv

theorem QueryExpression.ascending_uniqueIndexValues (query : QueryExpression)
    (viewContents : List ColumnDescriptor) (viewChunks : List (List Chunk)) :
    (query.uniqueIndexValues viewContents viewChunks).Pairwise (· < ·) := by
  have hsorted (values : TreeSet TimeInt) (keep : TimeInt → Bool) :
      (values.toList.filter keep).Pairwise (· < ·) :=
    (values.ordered_toList.imp fun h => compare_lt_iff_lt.mp h).filter _
  rw [uniqueIndexValues]
  split
  · exact List.pairwise_singleton _ _
  · split
    · exact hsorted _ _
    · exact hsorted _ _

-- ---------------------------------------------------------------------------
-- Seeking
-- ---------------------------------------------------------------------------

section Paging

variable {state₀ state : QueryHandleState}

theorem Paged.viewChunks (h : Paged state₀ state) :
    state₀.viewChunks = state.viewChunks.map (·.map rewind) := by rw [← h.same]; rfl

theorem Paged.timesSound (h : Paged state₀ state) (hsound : HandleSound state₀)
    (hchunks : chunks ∈ state.viewChunks) (hentry : entry ∈ chunks) :
    entry.2.TimesSound state.filteredIndex := by
  have hindex : state₀.filteredIndex = state.filteredIndex := by rw [← h.same]; rfl
  rw [← hindex]
  refine hsound.chunks (chunks.map rewind) ?_ (rewind entry) (List.mem_map_of_mem hentry)
  rw [h.viewChunks]
  exact List.mem_map_of_mem hchunks

/-- A seek leaves every cursor as iterating would have. -/
theorem Paged.seekToRow (h : Paged state₀ state) (hsound : HandleSound state₀) (k : Nat) :
    Paged state₀ (state.seekToRow k) ∧ (k < state₀.numRows → (state.seekToRow k).curRow = k) := by
  have hvalues : state₀.uniqueIndexValues = state.uniqueIndexValues := by rw [← h.same]; rfl
  rw [QueryHandleState.seekToRow, QueryHandleState.numRows, hvalues]
  cases hv : state.uniqueIndexValues[k]? with
  | none =>
    refine ⟨h, fun hlt => absurd hlt ?_⟩
    exact not_lt.mpr (List.getElem?_eq_none_iff.mp hv)
  | some v =>
    refine ⟨?_, fun _ => rfl⟩
    let sought (entry : Nat × Chunk) : Nat × Chunk :=
      if v.isStatic then (0, entry.2)
      else QueryHandleState.seekCursor state.filteredIndex v entry
    have hchunk (entry : Nat × Chunk) : (sought entry).2 = entry.2 := by
      simp only [sought, QueryHandleState.seekCursor]
      split
      · rfl
      · split
        · rfl
        · split
          · rfl
          · split <;> rfl
    have hready : ∀ chunks ∈ state.viewChunks, ∀ entry ∈ chunks,
        Ready state.filteredIndex v (sought entry) := by
      intro chunks hm entry hentry
      simp only [sought]
      split
      · exact ready_zero _ v entry.2
      · exact ready_seekCursor (h.timesSound hsound hm hentry) (h.bounded chunks hm entry hentry)
    have hview : ∀ chunks ∈ state.viewChunks.map (·.map sought), ∀ entry ∈ chunks,
        Ready state.filteredIndex v entry := by
      intro chunks hm entry hentry
      obtain ⟨before, hbefore, rfl⟩ := List.mem_map.mp hm
      obtain ⟨entry₀, hentry₀, rfl⟩ := List.mem_map.mp hentry
      exact hready before hbefore entry₀ hentry₀
    refine ⟨?_, fun chunks hm entry hentry => (hview chunks hm entry hentry).bounded,
      fun w hw => ?_⟩
    · have hrewound : (state.viewChunks.map (·.map sought)).map (·.map rewind) =
          state.viewChunks.map (·.map rewind) := by
        rw [List.map_map]
        refine List.map_congr_left fun chunks _ => ?_
        rw [Function.comp_apply, List.map_map]
        exact List.map_congr_left fun entry _ => congrArg (Prod.mk 0) (hchunk entry)
      rw [← h.same, QueryHandleState.rewound, QueryHandleState.rewound]
      exact congrArg (fun viewChunks => { state with viewChunks, curRow := 0 }) hrewound
    · obtain rfl := Option.some.inj (hv.symm.trans hw)
      exact hview

end Paging

-- ---------------------------------------------------------------------------
-- Histories
-- ---------------------------------------------------------------------------

inductive HandleCall where
  | nextRow
  | seekToRow (rowIdx : Nat)

namespace HandleEnv

variable (henv : HandleEnv) (s : ChunkStore) (fill : SparseFillStrategy)

def call (handle : QueryCache × QueryHandleState) : HandleCall → QueryCache × QueryHandleState
  | .nextRow =>
    let (caches, state, _) := henv.nextRow s fill handle.1 handle.2
    (caches, state)
  | .seekToRow rowIdx => (handle.1, handle.2.seekToRow rowIdx)

def takeRows : Nat → QueryCache × QueryHandleState → List (Option (List ArrowArrayRef))
  | 0, _ => []
  | n + 1, (caches, state) =>
    let (caches, state, row) := henv.nextRow s fill caches state
    row :: takeRows n (caches, state)

variable {henv s fill} {env : Env} {pol : ChunkStore.Policy} {caches₀ : QueryCache}
  {state₀ : QueryHandleState}

def Following (henv : HandleEnv) (s : ChunkStore) (caches₀ : QueryCache)
    (state₀ : QueryHandleState) (handle : QueryCache × QueryHandleState) : Prop :=
  InUse henv.unitId s caches₀ handle.1 ∧ Paged state₀ handle.2

theorem Following.calls (hcore : ChunkStore.Core env pol s) (hsound : HandleSound state₀)
    (hset : fill = .latestAtGlobal → ∀ v ∈ state₀.uniqueIndexValues, RowSettled s caches₀ state₀ v)
    {handle : QueryCache × QueryHandleState} (h : Following henv s caches₀ state₀ handle)
    (calls : List HandleCall) :
    Following henv s caches₀ state₀ (calls.foldl (henv.call s fill) handle) := by
  induction calls generalizing handle with
  | nil => exact h
  | cons call rest ih =>
    refine ih ?_
    cases call with
    | nextRow =>
      obtain ⟨caches, state, hnext, huse, hpaged, -⟩ := nextRow_spec hcore hsound hset h.2 h.1
      rw [HandleEnv.call, hnext]
      exact ⟨huse, hpaged⟩
    | seekToRow rowIdx => exact ⟨h.1, (h.2.seekToRow hsound rowIdx).1⟩

theorem Following.takeRows_eq (hcore : ChunkStore.Core env pol s) (hsound : HandleSound state₀)
    (hset : fill = .latestAtGlobal → ∀ v ∈ state₀.uniqueIndexValues, RowSettled s caches₀ state₀ v)
    {handle : QueryCache × QueryHandleState} (h : Following henv s caches₀ state₀ handle) (n : Nat) :
    henv.takeRows s fill n handle = (List.range' handle.2.curRow n).map fun i =>
      (state₀.uniqueIndexValues[i]?).map (rowAt henv.unitId s caches₀ fill state₀) := by
  induction n generalizing handle with
  | zero => rfl
  | succ n ih =>
    obtain ⟨caches, state, hnext, huse, hpaged, hcur⟩ := nextRow_spec hcore hsound hset h.2 h.1
    rw [takeRows, hnext, List.range'_succ, List.map_cons]
    dsimp only
    have ih : takeRows henv s fill n (caches, state) = _ := ih ⟨huse, hpaged⟩
    rw [ih, hcur]

theorem init_following (hcore : ChunkStore.Core env .truthful s)
    {caches : QueryCache} (hco : caches.Coherent s.archive) {query : QueryExpression}
    {viewContents : List ColumnDescriptor}
    (hinit : henv.init s query viewContents caches = (caches₀, some state₀)) :
    HandleSound state₀ ∧ Following henv s caches₀ state₀ (caches₀, state₀) := by
  obtain ⟨clears, hclears, -, hindex, hcur, hview, hvalues⟩ := init_eq hcore hco hinit
  have hentries : ∀ chunks ∈ state₀.viewChunks, ∀ entry ∈ chunks, entry.1 = 0 ∧ entry.2.Sound := by
    intro chunks hm entry hentry
    rw [hview] at hm
    obtain ⟨joined, hjoined, rfl⟩ := List.mem_map.mp hm
    obtain ⟨column, -, rfl⟩ := List.mem_map.mp hjoined
    obtain ⟨c, hc, rfl⟩ := List.mem_map.mp hentry
    exact ⟨rfl, sound_of_mem_joinedChunks hcore hclears hc⟩
  refine ⟨⟨hvalues ▸ query.ascending_uniqueIndexValues _ _, fun chunks hm entry hentry =>
    (hentries chunks hm entry hentry).2.timesSound _⟩, ⟨.refl _ _ _, rfl⟩, ?_, ?_, ?_⟩
  · have hrewound : state₀.viewChunks.map (·.map rewind) = state₀.viewChunks := by
      refine (List.map_congr_left fun chunks hm => ?_).trans (List.map_id _)
      refine (List.map_congr_left fun entry hentry => ?_).trans (List.map_id _)
      exact Prod.ext (hentries chunks hm entry hentry).1.symm rfl
    rw [QueryHandleState.rewound, hrewound, ← hcur]
  · intro chunks hm entry hentry
    rw [(hentries chunks hm entry hentry).1]
    exact Nat.zero_le _
  · intro v _ chunks hm entry hentry
    have hzero := (hentries chunks hm entry hentry).1
    exact (Prod.ext hzero rfl : entry = (0, entry.2)) ▸ ready_zero _ v entry.2

end HandleEnv

namespace QuerySession

variable {henv : HandleEnv} {env : Env} {config : ChunkStoreConfig} {session : QuerySession}
  {query : QueryExpression} {viewContents : List ColumnDescriptor} {fill : SparseFillStrategy}
  {caches₀ : QueryCache} {state₀ : QueryHandleState}

/-- Whatever a handle has been through, the rows after a seek are those that a fresh iteration
reaches there. With sparse filling this takes look-ups that are settled. -/
theorem takeRows_seekToRow (h : Reached env config session)
    (hinit : henv.init session.store query viewContents session.caches = (caches₀, some state₀))
    (hset : fill = .latestAtGlobal →
      ∀ v ∈ state₀.uniqueIndexValues, RowSettled session.store caches₀ state₀ v)
    (calls : List HandleCall) {k : Nat} (hk : k < state₀.numRows) (n : Nat) :
    henv.takeRows session.store fill n
        ((calls ++ [HandleCall.seekToRow k]).foldl (henv.call session.store fill) (caches₀, state₀)) =
      (henv.takeRows session.store fill (k + n) (caches₀, state₀)).drop k := by
  obtain ⟨hcore, hco⟩ := h.coherent
  obtain ⟨hsound, hfresh⟩ := HandleEnv.init_following hcore hco hinit
  have hcur₀ : state₀.curRow = 0 := by
    obtain ⟨clears, -, -, -, hcur, -⟩ := HandleEnv.init_eq hcore hco hinit
    exact hcur
  have hhistory := hfresh.calls hcore hsound hset calls
  have hseek := hfresh.calls hcore hsound hset (calls ++ [HandleCall.seekToRow k])
  have hcur := (hhistory.2.seekToRow hsound k).2 hk
  rw [hseek.takeRows_eq hcore hsound hset, hfresh.takeRows_eq hcore hsound hset, ← List.map_drop,
    List.foldl_append, List.foldl_cons, List.foldl_nil, HandleEnv.call, hcur, hcur₀]
  simp

/-- One row of another component at the first time of `rangeRunFirst`. -/
def fillingChunk : Chunk :=
  .ofColumns 2 ["e"] [3] [(⟨"t", .sequence⟩, [.newTemporal 0])] [("d", [some []])]

def filledRun : QuerySession :=
  [Action.mutate (.insertChunk rangeRunFirst), .mutate (.insertChunk fillingChunk)].foldl
    (act .plain) ⟨.new .COMPACTION_DISABLED, {}⟩

theorem reached_filledRun : Reached .plain .COMPACTION_DISABLED filledRun := by
  rw [filledRun, List.foldl_cons, List.foldl_cons, List.foldl_nil]
  refine .step (.step .init ?_) ?_
  · refine ⟨by decide, Env.plain_not_future (by decide) _, trivial, fun d hd => ?_⟩
    simp [ChunkStore.new] at hd
  · refine ⟨by decide, Env.plain_not_future (by decide) _, trivial, fun d hd => ?_⟩
    have hnone : ((act .plain ⟨.new .COMPACTION_DISABLED, {}⟩
        (.mutate (.insertChunk rangeRunFirst))).store.archive[(2 : ChunkId)]?).isNone = true := by
      decide +kernel
    have hne := Option.isNone_iff_eq_none.mp hnone ▸ hd
    cases hne

def plainHandle : HandleEnv := ⟨(500 + ·), 0, fun _ => none⟩

def filledInit : QueryCache × Option QueryHandleState :=
  plainHandle.init filledRun.store { filteredIndex := some "t", sparseFillStrategy := .latestAtGlobal }
    [.component ⟨"", ["e"], "c"⟩, .component ⟨"", ["e"], "d"⟩] filledRun.caches

theorem isSome_filledInit : filledInit.2.isSome = true := by decide +kernel

theorem rowSettled_filledRun : ∀ v ∈ (filledInit.2.get isSome_filledInit).uniqueIndexValues,
    RowSettled filledRun.store filledInit.1 (filledInit.2.get isSome_filledInit) v := by
  intro v hv column hcolumn hnone descr hdescr
  have hvalues : (filledInit.2.get isSome_filledInit).uniqueIndexValues =
      [.newTemporal 0, .newTemporal 10] := by decide +kernel
  have hindex : (filledInit.2.get isSome_filledInit).filteredIndex = "t" := by decide +kernel
  have hnull : ([.newTemporal 0, .newTemporal 10] : List TimeInt).all (fun v =>
      ((filledInit.2.get isSome_filledInit).viewContents.zip
        ((filledInit.2.get isSome_filledInit).statesAt v)).all fun column =>
          column.2.isSome || column.1.component?.all fun descr =>
            descr.entityPath = ["e"] ∧ descr.component = "d") := by decide +kernel
  have hfound : ([.newTemporal 0, .newTemporal 10] : List TimeInt).all (fun v =>
      (filledRun.store.latestResults (.new "t" v) ["e"] "d").chunks = [fillingChunk] ∧
        .newTemporal 0 ≤ (LatestAtQuery.new "t" v).at' ∧
        (fillingChunk.timeline? "t").all (fun tc =>
          tc.times.head?.all (· ≤ (LatestAtQuery.new "t" v).at')) ∧
        (filledRun.store.perTimeOfComponent? ["e"] "t" "d").all fun p =>
          (p.lastStart (LatestAtQuery.new "t" v).at').all (· ≤ .newTemporal 0)) := by
    decide +kernel
  rw [hindex]
  rw [hvalues] at hv
  have hnull := List.all_eq_true.mp (List.all_eq_true.mp hnull v hv) column hcolumn
  rw [hnone, hdescr] at hnull
  obtain ⟨he, hd⟩ : descr.entityPath = ["e"] ∧ descr.component = "d" := by simpa using hnull
  obtain ⟨hchunks, hzero, hbegun, hlast⟩ := of_decide_eq_true (List.all_eq_true.mp hfound v hv)
  have hclears : filledInit.1.mightRequireClearing.isEmpty = true := by decide +kernel
  rw [he, hd]
  refine ⟨fun path _ hm => ?_, fun component hm _ _ => ?_⟩
  · have := TreeSet.isEmpty_eq_false_of_contains (TreeSet.mem_iff_contains.mp hm)
    simp [hclears] at this
  obtain rfl := List.mem_singleton.mp hm
  refine ⟨?_, ?_, fun _ p last hp hl _ => ⟨toLex (.newTemporal 0, 3), ?_, ?_⟩⟩
  · rw [hchunks]
    decide +kernel
  · rw [hchunks]
    rintro c hc ⟨tc, htc, -, ⟨first, hfirst, hlt⟩, -⟩
    obtain rfl := List.mem_singleton.mp hc
    change fillingChunk.timeline? "t" = some tc at htc
    rw [htc, Option.all_some, hfirst, Option.all_some] at hbegun
    exact absurd hlt (not_lt.mpr (of_decide_eq_true hbegun))
  · have htime : fillingChunk.timeAt "t" 0 = some (.newTemporal 0) := by decide
    refine ⟨fillingChunk, ?_, 0, by decide, by decide, .newTemporal 0, htime, hzero, rfl⟩
    rw [hchunks]
    exact List.mem_singleton_self _
  · change filledRun.store.perTimeOfComponent? ["e"] "t" "d" = some p at hp
    rw [hp, Option.all_some, hl, Option.all_some] at hlast
    exact of_decide_eq_true hlast

def pageCalls : List HandleCall := [.nextRow, .seekToRow 1, .nextRow, .nextRow, .seekToRow 0]

/-- The page from row 1 on, after some rows, two seeks and the end of the rows. -/
theorem takeRows_seekToRow_filledRun :
    plainHandle.takeRows filledRun.store .latestAtGlobal 2
        ((pageCalls ++ [HandleCall.seekToRow 1]).foldl
          (plainHandle.call filledRun.store .latestAtGlobal)
          (filledInit.1, filledInit.2.get isSome_filledInit)) =
      (plainHandle.takeRows filledRun.store .latestAtGlobal (1 + 2)
        (filledInit.1, filledInit.2.get isSome_filledInit)).drop 1 :=
  takeRows_seekToRow reached_filledRun (Prod.ext rfl (Option.some_get _).symm)
    (fun _ => rowSettled_filledRun) pageCalls (by decide +kernel) 2

end QuerySession

end DimosViewer
