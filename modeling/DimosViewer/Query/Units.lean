import DimosViewer.Store.Gc
import DimosViewer.Store.Query

/-!
# Queries on one chunk

The rows of a chunk that answer a query. The ids of new chunks are given by the
caller; in `range`, `newId n` is the `n`-th id that is drawn.
-/

namespace DimosViewer

open ChunkStore (partitionPoint)

-- ---------------------------------------------------------------------------
-- Rows and columns
-- ---------------------------------------------------------------------------

def filterArray (mask : List Bool) (l : List α) : List α :=
  (l.zip mask).filterMap fun (entry, keep) => if keep then some entry else none

def TimeColumn.filtered (tc : TimeColumn) (filter : List Bool) : TimeColumn :=
  let isSorted := tc.isSorted || decide (filter.count true < 2)
  .new (if isSorted then some true else none) tc.timeline (filterArray filter tc.times)

def SerializedComponentColumn.filtered (column : SerializedComponentColumn) (filter : List Bool) :
    SerializedComponentColumn :=
  { column with listArray := filterArray filter column.listArray }

/-- `None` of `nulls()` if the column is dense. -/
def SerializedComponentColumn.nulls (column : SerializedComponentColumn) : Option (List Bool) :=
  if column.numValid = column.listArray.length then none
  else some (column.listArray.map (·.isSome))

namespace Chunk

def withId (c : Chunk) (id : ChunkId) : Chunk := { c with id }

def timelineSliced (c : Chunk) (id : ChunkId) (timeline : TimelineName) : Chunk :=
  { c with
    id
    timelines := ((c.timeline? timeline).map (timeline, ·)).toList }

def componentSliced (c : Chunk) (id : ChunkId) (component : ComponentIdentifier) : Chunk :=
  { c with
    id
    components := (c.components.get component).toList }

/-- Drops the rows where `componentPov` is null. The flag says if there were any. -/
def densified (c : Chunk) (id : ChunkId) (componentPov : ComponentIdentifier) : Chunk × Bool :=
  if c.isEmpty then (c, false)
  else
    match (c.components.get componentPov).bind (·.nulls) with
    | none => (c, false)
    | some mask =>
      let isSorted := c.isSorted || decide (mask.count true < 2)
      let rowIds := filterArray mask c.rowIds
      ({ id, entityPath := c.entityPath,
         isSorted := isSorted || isSortedList rowIds,
         rowIds,
         timelines := c.timelines.map fun (name, tc) => (name, tc.filtered mask),
         components := c.components.map (·.filtered mask) }, true)

def isTimelineSorted (c : Chunk) (timeline : TimelineName) : Bool :=
  c.isStatic || (c.timeline? timeline).any (·.isSorted)

end Chunk

-- ---------------------------------------------------------------------------
-- Units
-- ---------------------------------------------------------------------------

structure UnitChunkShared where
  chunk : Chunk
  originalChunkId : ChunkId
  one : chunk.numRows = 1
deriving DecidableEq

namespace UnitChunkShared

def index (unit : UnitChunkShared) (timeline : TimelineName) : Option (TimeInt ×ₗ RowId) :=
  if unit.chunk.isStatic then unit.chunk.rowIds.head?.map fun rowId => toLex (.STATIC, rowId)
  else do
    let tc ← unit.chunk.timeline? timeline
    let time ← tc.times.head?
    let rowId ← unit.chunk.rowIds.head?
    return toLex (time, rowId)

def cell (unit : UnitChunkShared) (component : ComponentIdentifier) : Option Cell :=
  (unit.chunk.components.get component).bind fun column => (column.listArray.head?).join

end UnitChunkShared

namespace Chunk

def intoUnitWithOriginalChunkId (c : Chunk) (originalChunkId : ChunkId) :
    Option UnitChunkShared :=
  if h : c.numRows = 1 then some ⟨c, originalChunkId, h⟩ else none

/-- A single row. The source panics where this is `none`, beyond the last row. -/
def rowSlicedUnit (c : Chunk) (id : ChunkId) (index : Nat) : Option UnitChunkShared :=
  (c.rowSliced id index 1).intoUnitWithOriginalChunkId c.id

-- ---------------------------------------------------------------------------
-- Latest at
-- ---------------------------------------------------------------------------

def lastValid (column : SerializedComponentColumn) : Nat → Option Nat
  | 0 => none
  | i + 1 => if column.isValid i then some i else lastValid column i

/-- The valid row with the greatest row id, of rows in any order. -/
def closestStatic (column : SerializedComponentColumn) (rowIds : List RowId) : Option Nat :=
  (rowIds.zipIdx.foldl (fun (closestRowId, index) (rowId, i) =>
    if !column.isValid i then (closestRowId, index)
    else if closestRowId < rowId then (rowId, some i)
    else (closestRowId, index)) (RowId.ZERO, none)).2

/-- The valid row with the greatest time up to `at'` and, at that time, the greatest row id. -/
def closestTemporal (column : SerializedComponentColumn) (at' : TimeInt)
    (rows : List (TimeInt × RowId)) : Option Nat :=
  (rows.zipIdx.foldl (fun (closestDataTime, closestRowId, index) ((time, rowId), i) =>
    if !column.isValid i then (closestDataTime, closestRowId, index)
    else
      let dataTime := TimeInt.newTemporal time.asI64
      let isCloserTime := closestDataTime < dataTime ∧ dataTime ≤ at'
      let isSameTimeButCloserRowId := dataTime = closestDataTime ∧ closestRowId < rowId
      if isCloserTime ∨ isSameTimeButCloserRowId then (dataTime, rowId, some i)
      else (closestDataTime, closestRowId, index)) (TimeInt.MIN, RowId.ZERO, none)).2.2

/-- The row that answers a latest-at query. In a sorted chunk the walk starts at the
last row up to the query time, or at the first row if there is none. -/
def latestIndex (c : Chunk) (query : LatestAtQuery) (column : SerializedComponentColumn) :
    Option Nat :=
  if c.isStatic then
    if c.isSorted then lastValid column c.numRows
    else closestStatic column c.rowIds
  else do
    let tc ← c.timeline? query.timeline
    if tc.isSorted then
      let i := partitionPoint (· ≤ query.at') tc.times - 1
      lastValid column (i + 1)
    else closestTemporal column query.at' (tc.times.zip c.rowIds)

def latestAt (c : Chunk) (id : ChunkId) (query : LatestAtQuery) (component : ComponentIdentifier) :
    Option UnitChunkShared :=
  if c.isEmpty then none
  else do
    let column ← c.components.get component
    let index ← c.latestIndex query column
    c.rowSlicedUnit id index

-- ---------------------------------------------------------------------------
-- Range
-- ---------------------------------------------------------------------------

/-- The rows of a densified and sorted chunk that lie in the range. `numRows` is the
number of rows of the chunk that was asked. -/
def rangeSliced (c : Chunk) (id : ChunkId) (numRows : Nat) (query : RangeQuery) : Chunk :=
  match c.timeline? query.timeline with
  | none => c.emptied id
  | some tc =>
    let startIndex := partitionPoint (· < query.range.min) tc.times
    let endIndex := partitionPoint (· ≤ query.range.max) tc.times
    let startIndex := if query.includeExtendedBounds then startIndex - 1 else startIndex
    let endIndex :=
      if query.includeExtendedBounds then min numRows (endIndex + 1) else endIndex
    c.rowSliced id startIndex (endIndex - startIndex)

def rangeColumns (c : Chunk) (newId : Nat → ChunkId) (query : RangeQuery)
    (component : ComponentIdentifier) : Chunk :=
  let c := if query.keepExtraTimelines then c else c.timelineSliced (newId 0) query.timeline
  if query.keepExtraComponents then c else c.componentSliced (newId 1) component

def range (c : Chunk) (newId : Nat → ChunkId) (query : RangeQuery)
    (component : ComponentIdentifier) : Chunk :=
  if c.isEmpty then c
  else
    let chunk := c.rangeColumns newId query component
    if chunk.isStatic then
      match chunk.latestAt (newId 2) ⟨query.timeline, .MAX⟩ component with
      | some unit => unit.chunk
      | none => chunk.emptied (newId 2)
    else
      match chunk.timeline? query.timeline with
      | none => chunk.emptied (newId 2)
      | some tc =>
        let (chunk, _) := chunk.densified (newId 2) component
        let chunk :=
          if tc.isSorted then chunk
          else (chunk.sortedByTimelineIfUnsorted newId 3 query.timeline).1
        chunk.rangeSliced (newId 5) c.numRows query

end Chunk

end DimosViewer
