import DimosViewer.Query.LatestCacheLaws
import DimosViewer.Query.NextRow
import DimosViewer.Query.RangeRuns

/-!
# Pagination

A cursor that lies before the rows of the next index value is as good as one at the start of its
chunk: the walk passes all rows before that value. Both iterating and seeking leave the cursors so.
What is left of the history of a handle are the rows that sparse filling has looked up, and these
stay what they are as long as the look-ups are settled.
-/

namespace DimosViewer

open ChunkStore (partitionPoint)
open MapAccum (mapAccum Yields)
open Reach (Reachable)
open Std (TreeMap)

-- ---------------------------------------------------------------------------
-- Cursors
-- ---------------------------------------------------------------------------

section Walk

variable {v w : TimeInt} {rows : List (TimeInt × RowId)} {n : Nat}

theorem walk_append {before : List (TimeInt × RowId)}
    (h : ∀ row ∈ before, TimeInt.newTemporal row.1.asI64 < v) (rows : List (TimeInt × RowId))
    (n : Nat) : walk v (before ++ rows) n = walk v rows (n + before.length) := by
  induction before generalizing n with
  | nil => rfl
  | cons row rest ih =>
    have hlt := h row (.head _)
    rw [List.cons_append, walk, if_neg hlt.ne, if_neg hlt.not_gt,
      ih fun row hm => h row (.tail _ hm), List.length_cons]
    congr 1
    omega

/-- From `n` to `m` the cursor passes rows that are not after the index value. -/
def CursorPasses (v : TimeInt) (rows : List (TimeInt × RowId)) (n m : Nat) : Prop :=
  ∃ passed rest, rows = passed ++ rest ∧ m = n + passed.length ∧
    ∀ row ∈ passed, TimeInt.newTemporal row.1.asI64 ≤ v

theorem CursorPasses.refl (v : TimeInt) (rows : List (TimeInt × RowId)) (n : Nat) :
    CursorPasses v rows n n := ⟨[], rows, rfl, rfl, by simp⟩

theorem CursorPasses.cons {row : TimeInt × RowId} (hrow : TimeInt.newTemporal row.1.asI64 ≤ v)
    (h : CursorPasses v rows (n + 1) m) : CursorPasses v (row :: rows) n m := by
  obtain ⟨passed, rest, rfl, rfl, hall⟩ := h
  refine ⟨row :: passed, rest, rfl, by rw [List.length_cons]; omega, fun other hm => ?_⟩
  obtain rfl | hm := List.mem_cons.mp hm
  · exact hrow
  · exact hall other hm

theorem lastDuplicate_passes {row : TimeInt × RowId}
    (hrow : TimeInt.newTemporal row.1.asI64 ≤ v) (rows : List (TimeInt × RowId)) (n : Nat)
    (rowId : RowId) : CursorPasses v (row :: rows) n (lastDuplicate v rows n rowId).1 := by
  induction rows generalizing row n rowId with
  | nil => exact .refl v _ n
  | cons next rest ih =>
    rw [lastDuplicate]
    split
    case isTrue heq => exact .cons hrow (ih heq.le (n + 1) next.2)
    case isFalse => exact .refl v _ n

theorem walk_passes (rows : List (TimeInt × RowId)) (n : Nat) :
    CursorPasses v rows n (walk v rows n).1 := by
  induction rows generalizing n with
  | nil => exact .refl v _ n
  | cons row rest ih =>
    rw [walk]
    split
    case isTrue heq => exact lastDuplicate_passes heq.le rest n row.2
    case isFalse hne =>
      split
      case isTrue => exact .refl v _ n
      case isFalse hle => exact .cons (not_lt.mp hle) (ih (n + 1))

end Walk

/-- All rows before the cursor are before the index value. -/
structure Ready (index : TimelineName) (v : TimeInt) (entry : Nat × Chunk) : Prop where
  bounded : entry.1 ≤ (entry.2.indexRows index).length
  before : ∀ row ∈ (entry.2.indexRows index).take entry.1, TimeInt.newTemporal row.1.asI64 < v

def rewind (entry : Nat × Chunk) : Nat × Chunk := (0, entry.2)

variable {index : TimelineName} {v w : TimeInt} {entry : Nat × Chunk}

theorem Ready.advance (h : Ready index v entry) :
    advance index v entry = DimosViewer.advance index v (rewind entry) := by
  have hlen : ((entry.2.indexRows index).take entry.1).length = entry.1 := by
    rw [List.length_take, Nat.min_eq_left h.bounded]
  rw [DimosViewer.advance, DimosViewer.advance, rewind, List.drop_zero]
  conv_rhs => rw [← List.take_append_drop entry.1 (entry.2.indexRows index)]
  rw [walk_append h.before, hlen, Nat.zero_add]

/-- After the walk the cursor is ready for every later index value. -/
theorem Ready.next (h : Ready index v entry) (hlt : v < w) :
    Ready index w ((DimosViewer.advance index v entry).1, entry.2) := by
  obtain ⟨passed, rest, hrows, hcursor, hall⟩ :=
    walk_passes (v := v) ((entry.2.indexRows index).drop entry.1) entry.1
  have hlen : ((entry.2.indexRows index).take entry.1).length = entry.1 := by
    rw [List.length_take, Nat.min_eq_left h.bounded]
  have hsplit : entry.2.indexRows index =
      ((entry.2.indexRows index).take entry.1 ++ passed) ++ rest := by
    rw [List.append_assoc, ← hrows, List.take_append_drop]
  have htake : (entry.2.indexRows index).take (entry.1 + passed.length) =
      (entry.2.indexRows index).take entry.1 ++ passed := by
    have hlen' : ((entry.2.indexRows index).take entry.1 ++ passed).length =
        entry.1 + passed.length := by rw [List.length_append, hlen]
    conv_lhs => rw [hsplit]
    rw [← hlen', List.take_left]
  have hadvance : (DimosViewer.advance index v entry).1 = entry.1 + passed.length := hcursor
  refine ⟨?_, fun row hm => ?_⟩
  · have := congrArg List.length hsplit
    rw [List.length_append, List.length_append, hlen] at this
    rw [hadvance]
    dsimp only
    omega
  · rw [hadvance, htake, List.mem_append] at hm
    obtain hm | hm := hm
    · exact (h.before row hm).trans hlt
    · exact (hall row hm).trans_lt hlt

theorem ready_zero (index : TimelineName) (v : TimeInt) (c : Chunk) : Ready index v (0, c) :=
  ⟨Nat.zero_le _, by simp⟩

-- ---------------------------------------------------------------------------
-- Seeking
-- ---------------------------------------------------------------------------

/-- What a handle relies on in the chunks that it has fetched. -/
def Chunk.TimesSound (c : Chunk) (index : TimelineName) : Prop :=
  ∀ tc, c.timeline? index = some tc → tc.times.length = c.numRows ∧
    ∀ t ∈ tc.times, TimeInt.MIN ≤ t ∧ t ≤ tc.timeRange.max

/-- Seeking leaves every cursor ready, wherever it was. -/
theorem ready_seekCursor (hc : entry.2.TimesSound index)
    (hb : entry.1 ≤ (entry.2.indexRows index).length) :
    Ready index v (QueryHandleState.seekCursor index v entry) := by
  obtain ⟨cursor, c⟩ := entry
  rw [QueryHandleState.seekCursor]
  dsimp only at hc hb ⊢
  cases ht : c.timeline? index with
  | none =>
    rw [Chunk.indexRows, ht] at hb
    exact Nat.le_zero.mp hb ▸ ready_zero index v c
  | some tc =>
    obtain ⟨hlen, hall⟩ := hc tc ht
    have hrows : c.indexRows index = tc.times.zip c.rowIds := by
      rw [Chunk.indexRows, ht, Option.map_some, Option.getD_some]
    have hnum : (c.indexRows index).length = c.numRows := by
      rw [hrows, List.length_zip, hlen, Chunk.numRows, Nat.min_self]
    have htime (n : Nat) (row : TimeInt × RowId) (hm : row ∈ (c.indexRows index).take n) :
        row.1 ∈ tc.times.take n := by
      rw [hrows, List.zip, List.take_zipWith] at hm
      exact (List.of_mem_zip hm).1
    dsimp only
    split
    case isTrue => exact ready_zero index v c
    case isFalse =>
      split
      case isTrue hlt =>
        refine ⟨hnum.ge, fun row hm => ?_⟩
        have hmem := List.mem_of_mem_take (htime _ row hm)
        rw [TimeInt.newTemporal_asI64_eq (hall _ hmem).1]
        exact (hall _ hmem).2.trans_lt hlt
      case isFalse =>
        have htaken := List.takeWhile_prefix (l := tc.times) fun time => decide (time < v)
        refine ⟨?_, fun row hm => ?_⟩
        · rw [hnum, ← hlen]
          exact htaken.length_le
        · have hmem := htime _ row hm
          rw [partitionPoint, ← List.prefix_iff_eq_take.mp htaken] at hmem
          rw [TimeInt.newTemporal_asI64_eq (hall _ (htaken.subset hmem)).1]
          simpa using List.mem_takeWhile_imp hmem

-- ---------------------------------------------------------------------------
-- Rows without a history
-- ---------------------------------------------------------------------------

namespace QueryHandleState

def rewound (state : QueryHandleState) : QueryHandleState :=
  { state with
    viewChunks := state.viewChunks.map (·.map rewind)
    curRow := 0 }

def joinAt (state : QueryHandleState) (indexValue : TimeInt) :
    List (List (Nat × Chunk) × Option StreamingJoinStateEntry) :=
  state.viewChunks.map (joinColumn state.filteredIndex indexValue)

def statesAt (state : QueryHandleState) (indexValue : TimeInt) :
    List (Option StreamingJoinState) :=
  overrideStatic state.selectedContents state.selectedStaticValues
    ((state.joinAt indexValue).map fun column => column.2.map .streamingJoinState)

end QueryHandleState

def refill (unitId : ChunkId) (s : ChunkStore) (caches₀ : QueryCache) (index : TimelineName)
    (indexValue : TimeInt) (column : ColumnDescriptor × Option StreamingJoinState) :
    Option StreamingJoinState :=
  match column.2, column.1.component? with
  | none, some descr =>
    (caches₀.response unitId s (.new index indexValue) descr.entityPath
      [descr.component]).components.values.head?.map .retrofilled
  | state, _ => state

def rowAt (unitId : ChunkId) (s : ChunkStore) (caches₀ : QueryCache) (fill : SparseFillStrategy)
    (state : QueryHandleState) (indexValue : TimeInt) : List ArrowArrayRef :=
  selectedArrays state indexValue ((state.joinAt indexValue).map Prod.fst)
    (match fill with
      | .none => state.statesAt indexValue
      | .latestAtGlobal => (state.viewContents.zip (state.statesAt indexValue)).map
        (refill unitId s caches₀ state.filteredIndex indexValue))

/-- Every look-up that fills a null cell of a row is settled. -/
def RowSettled (s : ChunkStore) (caches₀ : QueryCache) (state : QueryHandleState)
    (indexValue : TimeInt) : Prop :=
  ∀ column ∈ state.viewContents.zip (state.statesAt indexValue), column.2 = none →
    ∀ descr, column.1.component? = some descr →
      caches₀.Settled s (.new state.filteredIndex indexValue) descr.entityPath [descr.component]

-- ---------------------------------------------------------------------------
-- One row
-- ---------------------------------------------------------------------------

structure Paged (state₀ state : QueryHandleState) : Prop where
  same : state.rewound = state₀
  bounded : ∀ chunks ∈ state.viewChunks, ∀ entry ∈ chunks,
    entry.1 ≤ (entry.2.indexRows state.filteredIndex).length
  ready : ∀ v, state.uniqueIndexValues[state.curRow]? = some v → ∀ chunks ∈ state.viewChunks,
    ∀ entry ∈ chunks, Ready state.filteredIndex v entry

/-- The index values ascend, and the chunks are as a handle needs them. -/
structure HandleSound (state₀ : QueryHandleState) : Prop where
  ascending : state₀.uniqueIndexValues.Pairwise (· < ·)
  chunks : ∀ chunks ∈ state₀.viewChunks, ∀ entry ∈ chunks,
    entry.2.TimesSound state₀.filteredIndex

section Row

variable {env : Env} {pol : ChunkStore.Policy} {s : ChunkStore} {henv : HandleEnv}
  {caches₀ caches : QueryCache} {fill : SparseFillStrategy} {state₀ state : QueryHandleState}

theorem joinColumn_rewind {chunks : List (Nat × Chunk)}
    (h : ∀ entry ∈ chunks, Ready index v entry) :
    joinColumn index v chunks = joinColumn index v (chunks.map rewind) := by
  rw [joinColumn, joinColumn, List.map_map, List.foldl_map]
  refine Prod.ext (List.map_congr_left fun entry hm => ?_)
    (List.foldl_ext _ _ _ fun state entry hm => ?_)
  · exact congrArg (fun result : Nat × Option RowId => (result.1, entry.2)) (h entry hm).advance
  · exact congrArg (fun result : Nat × Option RowId =>
      joinEntry state entry.2 result.1 result.2) (h entry hm).advance

theorem Paged.joinAt (h : Paged state₀ state) (hv : state.uniqueIndexValues[state.curRow]? = some v) :
    state.joinAt v = state₀.joinAt v := by
  rw [← h.same, QueryHandleState.joinAt, QueryHandleState.joinAt, QueryHandleState.rewound,
    List.map_map]
  exact List.map_congr_left fun chunks hm => joinColumn_rewind (h.ready v hv chunks hm)

def InUse (unitId : ChunkId) (s : ChunkStore) (caches₀ caches : QueryCache) : Prop :=
  QueryCache.Grown unitId s caches₀ caches ∧ caches.rangePerCacheKey = caches₀.rangePerCacheKey

theorem retrofill_yields (hcore : ChunkStore.Core env pol s)
    {column : ColumnDescriptor × Option StreamingJoinState}
    (hset : column.2 = none → ∀ descr, column.1.component? = some descr →
      caches₀.Settled s (.new index v) descr.entityPath [descr.component])
    (h : InUse henv.unitId s caches₀ caches) :
    Yields (InUse henv.unitId s caches₀) (retrofill henv s index v caches column)
      (refill henv.unitId s caches₀ index v column) := by
  obtain ⟨column, joined⟩ := column
  rw [retrofill, refill]
  cases joined with
  | some joined => exact ⟨rfl, h⟩
  | none =>
    cases hdescr : column.component? with
    | none => exact ⟨rfl, h⟩
    | some descr =>
      have hat : TimeInt.MIN ≤ (LatestAtQuery.new index v).at' := le_max_right _ _
      obtain ⟨caches', hlatest, hgrown, hrange⟩ :=
        QueryCache.latestAt_spec hcore hat (hset rfl descr hdescr) h.1
      dsimp only
      rw [hlatest]
      exact ⟨rfl, hgrown, hrange.trans h.2⟩

theorem Paged.next (h : Paged state₀ state) (hsound : HandleSound state₀)
    {viewChunks : List (List (Nat × Chunk))}
    (hv : state.uniqueIndexValues[state.curRow]? = some v)
    (hchunks : viewChunks = (state.joinAt v).map Prod.fst) :
    Paged state₀ { state with curRow := state.curRow + 1, viewChunks } := by
  have hsame := h.same
  have hview : ∀ chunks ∈ viewChunks, ∃ chunks₀ ∈ state.viewChunks,
      chunks = chunks₀.map fun entry => ((advance state.filteredIndex v entry).1, entry.2) := by
    intro chunks hm
    rw [hchunks, QueryHandleState.joinAt, List.map_map] at hm
    obtain ⟨chunks₀, hm₀, rfl⟩ := List.mem_map.mp hm
    exact ⟨chunks₀, hm₀, rfl⟩
  -- A walk at this index value leaves the cursor ready for every later one.
  have hready (w : TimeInt) (hlt : v < w) : ∀ chunks ∈ viewChunks, ∀ entry ∈ chunks,
      Ready state.filteredIndex w entry := by
    intro chunks hm entry hentry
    obtain ⟨chunks₀, hm₀, rfl⟩ := hview chunks hm
    obtain ⟨entry₀, hentry₀, rfl⟩ := List.mem_map.mp hentry
    exact (h.ready v hv chunks₀ hm₀ entry₀ hentry₀).next hlt
  refine ⟨?_, fun chunks hm entry hentry => ?_, fun w hw => hready w ?_⟩
  · rw [← hsame, QueryHandleState.rewound, QueryHandleState.rewound]
    have hrewind : viewChunks.map (·.map rewind) = state.viewChunks.map (·.map rewind) := by
      rw [hchunks, QueryHandleState.joinAt, List.map_map, List.map_map]
      refine List.map_congr_left fun chunks _ => ?_
      simp only [Function.comp_apply, joinColumn, List.map_map]
      exact List.map_congr_left fun entry _ => rfl
    dsimp only
    rw [hrewind]
  · obtain ⟨chunks₀, hm₀, rfl⟩ := hview chunks hm
    obtain ⟨entry₀, hentry₀, rfl⟩ := List.mem_map.mp hentry
    obtain ⟨passed, rest, hrows, hcursor, -⟩ := walk_passes (v := v)
      ((entry₀.2.indexRows state.filteredIndex).drop entry₀.1) entry₀.1
    have hlen := congrArg List.length hrows
    rw [List.length_drop, List.length_append] at hlen
    have hb := h.bounded chunks₀ hm₀ entry₀ hentry₀
    have hadvance : (advance state.filteredIndex v entry₀).1 = entry₀.1 + passed.length := hcursor
    rw [hadvance]
    dsimp only
    omega
  · have hasc := hsound.ascending
    rw [← hsame] at hasc
    obtain ⟨hi, rfl⟩ := List.getElem?_eq_some_iff.mp hv
    obtain ⟨hj, rfl⟩ := List.getElem?_eq_some_iff.mp hw
    exact List.pairwise_iff_getElem.mp hasc _ _ hi hj (Nat.lt_succ_self _)

/-- A row is what its index value says, whatever the cursors have been through. -/
theorem nextRow_spec (hcore : ChunkStore.Core env pol s) (hsound : HandleSound state₀)
    (hset : fill = .latestAtGlobal → ∀ v ∈ state₀.uniqueIndexValues, RowSettled s caches₀ state₀ v)
    (hp : Paged state₀ state) (h : InUse henv.unitId s caches₀ caches) :
    ∃ caches' state', henv.nextRow s fill caches state = (caches', state',
        (state₀.uniqueIndexValues[state.curRow]?).map
          (rowAt henv.unitId s caches₀ fill state₀)) ∧
      InUse henv.unitId s caches₀ caches' ∧ Paged state₀ state' ∧
      state'.curRow = state.curRow + 1 := by
  have hvalues : state₀.uniqueIndexValues = state.uniqueIndexValues := by rw [← hp.same]; rfl
  rw [HandleEnv.nextRow, hvalues]
  cases hv : state.uniqueIndexValues[state.curRow]? with
  | none =>
    refine ⟨caches, _, rfl, h, ⟨hp.same, hp.bounded, fun w hw => ?_⟩, rfl⟩
    have hlt : state.curRow + 1 < state.uniqueIndexValues.length :=
      (List.getElem?_eq_some_iff.mp hw).1
    have hge := List.getElem?_eq_none_iff.mp hv
    omega
  | some v =>
    have hjoin := hp.joinAt hv
    have hindex : state₀.filteredIndex = state.filteredIndex := by rw [← hp.same]; rfl
    have hstates : overrideStatic state.selectedContents state.selectedStaticValues
        ((state.joinAt v).map fun column => column.2.map StreamingJoinState.streamingJoinState) =
          state₀.statesAt v := by
      rw [hjoin, QueryHandleState.statesAt, ← hp.same]
      rfl
    have hselected : selectedArrays state v = selectedArrays state₀ v := by
      rw [← hp.same]
      rfl
    have hview : state.viewContents = state₀.viewContents := by rw [← hp.same]; rfl
    have hnext := hp.next hsound hv rfl
    have hjoined : state.viewChunks.map (joinColumn state.filteredIndex v) = state.joinAt v := rfl
    dsimp only
    rw [hjoined, hstates, hselected]
    cases fill with
    | none =>
      refine ⟨caches, _, ?_, h, hnext, rfl⟩
      rw [Option.map_some, rowAt, ← hjoin]
    | latestAtGlobal =>
      have hsettled := hset rfl v (hvalues ▸ List.mem_of_getElem? hv)
      obtain ⟨heq, hin⟩ : Yields (InUse henv.unitId s caches₀)
          (mapAccum (retrofill henv s state.filteredIndex v) caches
            (state.viewContents.zip (state₀.statesAt v)))
          ((state₀.viewContents.zip (state₀.statesAt v)).map
            (refill henv.unitId s caches₀ state₀.filteredIndex v)) := by
        rw [← hindex, hview]
        refine .mapAccum (fun column hm caches hin => ?_) h
        exact retrofill_yields hcore (hsettled column hm) hin
      refine ⟨_, _, ?_, hin, hnext, rfl⟩
      rw [Option.map_some, rowAt, ← hjoin, ← heq]

end Row

end DimosViewer
