import DimosViewer.Chunk.Merge
import DimosViewer.Grouping
import Mathlib.Data.String.Basic

/-!
# Rows on their way into chunks

Pending rows are sorted, put into batches of equal timeline names and equal datatypes, and each
batch becomes one chunk, or several when a timeline is unsorted. The batches are kept under
hashes in the source. Here they are kept under what is hashed, so two of them never collide.
-/

namespace DimosViewer

open Grouping

-- ---------------------------------------------------------------------------
-- Pending rows
-- ---------------------------------------------------------------------------

/-- The cells are in the order of their names. -/
structure TimePoint where
  cells : List (TimelineName × TimeCell)
  sorted : (cells.map Prod.fst).Pairwise (· < ·)

namespace TimePoint

def timelineNames (t : TimePoint) : List TimelineName := t.cells.map Prod.fst

def get (t : TimePoint) (name : TimelineName) : Option TimeCell := t.cells.lookup name

end TimePoint

structure ArrayRef where
  dataType : DataType
  values : Cell
deriving DecidableEq

structure SerializedComponentBatch where
  component : ComponentIdentifier
  array : ArrayRef

/-- The components are in the iteration order of their map, which insertion decides. -/
structure PendingRow where
  rowId : RowId
  timepoint : TimePoint
  components : List SerializedComponentBatch
  nodup : (components.map (·.component)).Nodup

namespace PendingRow

def get (row : PendingRow) (component : ComponentIdentifier) : Option ArrayRef :=
  (row.components.find? (·.component == component)).map (·.array)

def timelineNames (row : PendingRow) : List TimelineName := row.timepoint.timelineNames

/-- What the datatype hash of a row is made from. The names of the components are not in it. -/
def dataTypes (row : PendingRow) : List DataType := row.components.map (·.array.dataType)

theorem nodup_points :
    ([(⟨"points", ⟨"Float32", []⟩⟩ : SerializedComponentBatch)].map (·.component)).Nodup :=
  List.pairwise_singleton _ _

end PendingRow

-- ---------------------------------------------------------------------------
-- Columns being filled
-- ---------------------------------------------------------------------------

/-- `None` when nothing is present or the datatypes differ. -/
def arraysToListArrayOpt (arrays : List (Option ArrayRef)) :
    Option (DataType × List (Option Cell)) :=
  match arrays.filterMap id with
  | [] => none
  | first :: rest =>
    if rest.all (·.dataType = first.dataType) then
      some (first.dataType, arrays.map (·.map (·.values)))
    else none

structure PendingTimeColumn where
  timeline : Timeline
  times : List TimeInt
  isSorted : Bool
  timeRange : AbsoluteTimeRange

namespace PendingTimeColumn

def new (timeline : Timeline) : PendingTimeColumn := ⟨timeline, [], true, .EMPTY⟩

def push (tc : PendingTimeColumn) (time : TimeInt) : PendingTimeColumn where
  timeline := tc.timeline
  times := tc.times ++ [time]
  isSorted := tc.isSorted && decide (tc.times.getLast?.getD .MIN ≤ time)
  timeRange := ⟨min tc.timeRange.min time, max tc.timeRange.max time⟩

def finish (tc : PendingTimeColumn) : TimeColumn :=
  ⟨tc.timeline, tc.times, tc.isSorted, tc.timeRange⟩

end PendingTimeColumn

/-- `from_native_row_ids`. Fails on columns of a different length than the row ids. -/
def Chunk.fromNativeRowIds (id : ChunkId) (entityPath : EntityPath) (isSorted : Bool)
    (rowIds : List RowId) (timelines : List (TimelineName × TimeColumn))
    (components : ChunkComponents) : Except ChunkError Chunk :=
  if timelines.all (·.2.times.length = rowIds.length) ∧
      components.all (·.listArray.length = rowIds.length) then
    .ok ⟨id, entityPath, isSorted, rowIds, timelines, components⟩
  else .error .malformed

structure PendingChunk where
  rowIds : List RowId
  timelines : List (TimelineName × PendingTimeColumn)
  components : List (ComponentIdentifier × List (Option ArrayRef))

namespace PendingChunk

def new (allComponents : List ComponentIdentifier) : PendingChunk :=
  ⟨[], [], allComponents.map (·, [])⟩

/-- A component whose arrays do not go together is left out. -/
def build (p : PendingChunk) (id : ChunkId) (entityPath : EntityPath) : Except ChunkError Chunk :=
  Chunk.fromNativeRowIds id entityPath true p.rowIds
    (p.timelines.map fun (name, timeColumn) => (name, timeColumn.finish))
    (p.components.filterMap fun (component, arrays) =>
      (arraysToListArrayOpt arrays).map fun (dataType, listArray) =>
        ⟨component, dataType, listArray⟩)

def isUnsorted (p : PendingChunk) (name : TimelineName) : Bool :=
  (p.timelines.lookup name).any (!·.isSorted)

def pushTime (timelines : List (TimelineName × PendingTimeColumn)) :
    TimelineName × TimeCell → List (TimelineName × PendingTimeColumn)
  | (name, cell) => upsertEntry name (.new ⟨name, cell.typ⟩) (·.push cell.value) timelines

def pushRow (p : PendingChunk) (row : PendingRow) : PendingChunk where
  rowIds := p.rowIds ++ [row.rowId]
  timelines := row.timepoint.cells.foldl pushTime p.timelines
  components := p.components.map fun (component, arrays) =>
    (component, arrays ++ [row.get component])

end PendingChunk

-- ---------------------------------------------------------------------------
-- From rows to chunks
-- ---------------------------------------------------------------------------

/-- The chunks that are full, and the one that takes the next row. -/
structure PendingChunks where
  chunks : List PendingChunk
  current : PendingChunk

namespace PendingChunks

/-- A timeline is looked up, or created, and if it is unsorted a long chunk ends here. -/
def splitIfUnsorted (allComponents : List ComponentIdentifier) (chunkMaxRowsIfUnsorted : Nat)
    (b : PendingChunks) : TimelineName × TimeCell → PendingChunks
  | (name, cell) =>
    let current := { b.current with
      timelines := orInsert name (.new ⟨name, cell.typ⟩) b.current.timelines }
    if current.rowIds ≠ [] ∧ chunkMaxRowsIfUnsorted ≤ current.rowIds.length ∧
        current.isUnsorted name then
      ⟨b.chunks ++ [current], .new allComponents⟩
    else ⟨b.chunks, current⟩

def addRow (allComponents : List ComponentIdentifier) (chunkMaxRowsIfUnsorted : Nat)
    (b : PendingChunks) (row : PendingRow) : PendingChunks :=
  let b := row.timepoint.cells.foldl (·.splitIfUnsorted allComponents chunkMaxRowsIfUnsorted ·) b
  { b with current := b.current.pushRow row }

end PendingChunks

namespace PendingRow

def allComponents (rows : List PendingRow) : List ComponentIdentifier :=
  (rows.foldl (fun all row => row.components.foldl (fun all batch =>
    orInsert batch.component () all) all) []).map Prod.fst

def batchIntoChunks (chunkMaxRowsIfUnsorted : Nat) (rows : List PendingRow) : List PendingChunk :=
  let all := allComponents rows
  let b : PendingChunks :=
    rows.foldl (·.addRow all chunkMaxRowsIfUnsorted ·) ⟨[], .new all⟩
  b.chunks ++ [b.current]

/-- Rows are in one batch if they have the same timeline names, and the same datatypes in the
order of their components. -/
def batches (rows : List PendingRow) : List (List PendingRow) :=
  let rows := rows.insertionSort (·.rowId ≤ ·.rowId)
  let perTimelineSet := (groupInto timelineNames rows).map Prod.snd
  perTimelineSet.flatMap fun rows => (groupInto dataTypes rows).map Prod.snd

def manyIntoChunks (newId : Nat → ChunkId) (n : Nat) (entityPath : EntityPath)
    (chunkMaxRowsIfUnsorted : Nat) (rows : List PendingRow) : List (Except ChunkError Chunk) × Nat :=
  let pending := (batches rows).flatMap (batchIntoChunks chunkMaxRowsIfUnsorted)
  (pending.zipIdx.map fun (p, i) => p.build (newId (n + i)) entityPath, n + pending.length)

end PendingRow

end DimosViewer
