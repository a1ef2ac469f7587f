import DimosViewer.Query.Handle

/-!
# Rows of a dataframe query

`nextRow` advances the cursors up to the current index value and takes, in each column, the row with
the greatest row id. `seekToRow` sets the cursors by binary search.
-/

namespace DimosViewer

open Grouping
open ChunkStore (partitionPoint)
open MapAccum (mapAccum)
open Std (TreeMap)

/-- An array of length one. A row id beyond the last row of its chunk is a panic in the source. -/
inductive ArrowArrayRef where
  | null (datatype : DataType)
  | rowId (rowId : Option RowId)
  | time (typ : TimeType) (value : TimeInt)
  | list (datatype : DataType) (cell : Option Cell)
deriving DecidableEq

structure StreamingJoinStateEntry where
  chunk : Chunk
  cursor : Nat
  rowId : RowId
deriving DecidableEq

inductive StreamingJoinState where
  | streamingJoinState (entry : StreamingJoinStateEntry)
  | retrofilled (unit : UnitChunkShared)
deriving DecidableEq

-- ---------------------------------------------------------------------------
-- Cursors
-- ---------------------------------------------------------------------------

/-- The times and row ids of a chunk, none if it is not on the index. -/
def Chunk.indexRows (c : Chunk) (index : TimelineName) : List (TimeInt × RowId) :=
  (((c.timeline? index).map (·.times)).getD []).zip c.rowIds

def lastDuplicate (indexValue : TimeInt) : List (TimeInt × RowId) → Nat → RowId → Nat × RowId
  | (time, nextRowId) :: rest, cursor, rowId =>
    if TimeInt.newTemporal time.asI64 = indexValue then
      lastDuplicate indexValue rest (cursor + 1) nextRowId
    else (cursor, rowId)
  | [], cursor, rowId => (cursor, rowId)

/-- The cursor walks up to the index value; the row there, if there is one. -/
def walk (indexValue : TimeInt) : List (TimeInt × RowId) → Nat → Nat × Option RowId
  | (time, rowId) :: rest, cursor =>
    if TimeInt.newTemporal time.asI64 = indexValue then
      let (cursor, rowId) := lastDuplicate indexValue rest cursor rowId
      (cursor, some rowId)
    else if indexValue < TimeInt.newTemporal time.asI64 then (cursor, none)
    else walk indexValue rest (cursor + 1)
  | [], cursor => (cursor, none)

def advance (index : TimelineName) (indexValue : TimeInt) (entry : Nat × Chunk) :
    Nat × Option RowId :=
  walk indexValue ((entry.2.indexRows index).drop entry.1) entry.1

def joinEntry (state : Option StreamingJoinStateEntry) (c : Chunk) (cursor : Nat)
    (rowId : Option RowId) : Option StreamingJoinStateEntry :=
  match state, rowId with
  | state, none => state
  | none, some rowId => some ⟨c, cursor, rowId⟩
  | some entry, some rowId => some (if entry.rowId < rowId then ⟨c, cursor, rowId⟩ else entry)

/-- The chunks of one column: the cursors after the walk, and the row that is taken. -/
def joinColumn (index : TimelineName) (indexValue : TimeInt) (chunks : List (Nat × Chunk)) :
    List (Nat × Chunk) × Option StreamingJoinStateEntry :=
  (chunks.map fun entry => ((advance index indexValue entry).1, entry.2),
    chunks.foldl (fun state entry =>
      let (cursor, rowId) := advance index indexValue entry
      joinEntry state entry.2 cursor rowId) none)

namespace StreamingJoinState

def timelines : StreamingJoinState → List (TimelineName × TimeColumn)
  | .streamingJoinState entry => entry.chunk.timelines
  | .retrofilled unit => unit.chunk.timelines

def cursor : StreamingJoinState → Nat
  | .streamingJoinState entry => entry.cursor
  | .retrofilled _ => 0

/-- The row as a list array. A chunk of a column has no other components. -/
def array (column : ColumnDescriptor) : StreamingJoinState → Option ArrowArrayRef
  | .streamingJoinState entry => entry.chunk.components.head?.map fun column =>
    .list column.dataType (column.listArray[entry.cursor]?).join
  | .retrofilled unit => do
    let descr ← column.component?
    let column ← unit.chunk.components.get descr.component
    return .list column.dataType (column.listArray[0]?).join

end StreamingJoinState

-- ---------------------------------------------------------------------------
-- The row
-- ---------------------------------------------------------------------------

/-- The greatest time of the cells on every timeline, and as it is in the array. The queried index
is never in doubt. -/
def maxValuePerIndex (index : TimelineName) (indexValue : TimeInt)
    (states : List (Option StreamingJoinState)) : List (TimelineName × (TimeInt × TimeInt)) :=
  let times := states.reduceOption.flatMap fun state =>
    state.timelines.filterMap fun (_, tc) =>
      (tc.times[state.cursor]?).map fun sliced =>
        (tc.timeline.name, (TimeInt.newTemporal sliced.asI64, sliced))
  let maxTimes := times.foldl (fun acc (name, entry) =>
    upsertEntry name entry (fun max => if max.1 < entry.1 then entry else max) acc) []
  if indexValue.isStatic then maxTimes
  else upsertEntry index (indexValue, indexValue) (fun _ => (indexValue, indexValue)) maxTimes

/-- Static always wins, wherever the column is in the view. -/
def overrideStatic (selectedContents : List (Nat × ColumnDescriptor))
    (selectedStaticValues : List (Option UnitChunkShared))
    (states : List (Option StreamingJoinState)) : List (Option StreamingJoinState) :=
  (selectedContents.zip selectedStaticValues).foldl (fun states (selected, staticValue) =>
    match staticValue with
    | some unit => states.set selected.1 (some (.retrofilled unit))
    | none => states) states

/-- A null cell is filled with the latest row up to the index value. -/
def retrofill (env : HandleEnv) (store : ChunkStore) (index : TimelineName) (indexValue : TimeInt)
    (caches : QueryCache) (column : ColumnDescriptor × Option StreamingJoinState) :
    QueryCache × Option StreamingJoinState :=
  match column.2, column.1.component? with
  | none, some descr =>
    let (caches, results) := caches.latestAt env.unitId store (.new index indexValue)
      descr.entityPath [descr.component]
    (caches, results.components.values.head?.map .retrofilled)
  | state, _ => (caches, state)

def selectedArrays (state : QueryHandleState) (indexValue : TimeInt)
    (viewChunks : List (List (Nat × Chunk))) (states : List (Option StreamingJoinState)) :
    List ArrowArrayRef :=
  let maxTimes := maxValuePerIndex state.filteredIndex indexValue states
  let slices := (state.viewContents.zip states).map fun (column, joined) =>
    joined.bind (·.array column)
  state.selectedContents.map fun (viewIdx, column) =>
    match column with
    | .rowId =>
      ((viewChunks.head?.bind (·.head?)).map fun (cursor, c) =>
        ArrowArrayRef.rowId c.rowIds[cursor]?).getD (.null "RowId")
    | .time timeline datatype =>
      ((maxTimes.lookup timeline.name).map fun max => .time timeline.typ max.2).getD (.null datatype)
    | .component descr => (slices[viewIdx]?).join.getD (.null descr.storeDatatype)

namespace HandleEnv

variable (env : HandleEnv) (store : ChunkStore)

/-- `_next_row`, without what creates the state. -/
def nextRow (fill : SparseFillStrategy) (caches : QueryCache) (state : QueryHandleState) :
    QueryCache × QueryHandleState × Option (List ArrowArrayRef) :=
  let next := { state with curRow := state.curRow + 1 }
  match state.uniqueIndexValues[state.curRow]? with
  | none => (caches, next, none)
  | some indexValue =>
    let joined := state.viewChunks.map (joinColumn state.filteredIndex indexValue)
    let viewChunks := joined.map Prod.fst
    let states := joined.map fun column => column.2.map StreamingJoinState.streamingJoinState
    let states := overrideStatic state.selectedContents state.selectedStaticValues states
    let (caches, states) :=
      match fill with
      | .none => (caches, states)
      | .latestAtGlobal =>
        mapAccum (retrofill env store state.filteredIndex indexValue) caches
          (state.viewContents.zip states)
    (caches, { next with viewChunks },
      some (selectedArrays state indexValue viewChunks states))

end HandleEnv

-- ---------------------------------------------------------------------------
-- Seeking
-- ---------------------------------------------------------------------------

namespace QueryHandleState

def numRows (state : QueryHandleState) : Nat := state.uniqueIndexValues.length

def seekCursor (index : TimelineName) (indexValue : TimeInt) (entry : Nat × Chunk) : Nat × Chunk :=
  match entry.2.timeline? index with
  | none => entry
  | some tc =>
    if indexValue < tc.timeRange.min then (0, entry.2)
    else if tc.timeRange.max < indexValue then (entry.2.numRows, entry.2)
    else (partitionPoint (· < indexValue) tc.times, entry.2)

def seekToIndexValue (state : QueryHandleState) (indexValue : TimeInt) : QueryHandleState :=
  { state with
    viewChunks := state.viewChunks.map fun chunks => chunks.map fun entry =>
      if indexValue.isStatic then (0, entry.2)
      else seekCursor state.filteredIndex indexValue entry }

/-- Does nothing beyond the last row. -/
def seekToRow (state : QueryHandleState) (rowIdx : Nat) : QueryHandleState :=
  match state.uniqueIndexValues[rowIdx]? with
  | none => state
  | some indexValue => { state with curRow := rowIdx }.seekToIndexValue indexValue

end QueryHandleState

end DimosViewer
