import DimosViewer.Chunk.Basic
import DimosViewer.Rrd.Frames
import Std.Data.TreeMap

/-!
# The manifest of an RRD stream

One row for each chunk, with its place in the file and the times of its components. Index
columns appear when a chunk first needs them and are padded to the length of the others.
-/

namespace DimosViewer.Rrd

open Std (TreeMap)

structure ComponentDescriptor where
  archetype : Option String
  component : ComponentIdentifier
  componentType : Option String
deriving DecidableEq, Repr, Ord

/-- A chunk as it is read back from a record batch, with what only the batch has: the
descriptors of the components and whether their arrays carry a validity bitmap. -/
structure ChunkBatch where
  chunk : Chunk
  descriptor : ComponentIdentifier → ComponentDescriptor
  hasValidity : ComponentIdentifier → Bool

namespace ChunkBatch

/-- An array without a bitmap counts as dense, also when it is empty. -/
def timeRangePerComponent (b : ChunkBatch) (tc : TimeColumn) :
    List (SerializedComponentColumn × AbsoluteTimeRange) :=
  b.chunk.components.filterMap fun column =>
    (if b.hasValidity column.component then tc.timeRangeOf column else some tc.timeRange).map
      (column, ·)

end ChunkBatch

/-- The four arrays always grow together, but for `numRows` where no number is asked for. -/
structure RrdManifestIndexColumn where
  startsInclusive : List TimeInt
  endsInclusive : List TimeInt
  hasStaticData : List Bool
  numRows : List Nat

namespace RrdManifestIndexColumn

def newPadded (n : Nat) : RrdManifestIndexColumn :=
  ⟨.replicate n .STATIC, .replicate n .STATIC, .replicate n false, .replicate n 0⟩

def padExtend (column : RrdManifestIndexColumn) (n : Nat) : RrdManifestIndexColumn where
  startsInclusive := column.startsInclusive ++ .replicate n .STATIC
  endsInclusive := column.endsInclusive ++ .replicate n .STATIC
  hasStaticData := column.hasStaticData ++ .replicate n false
  numRows := column.numRows ++ .replicate n 0

def push (column : RrdManifestIndexColumn) (range : AbsoluteTimeRange) (hasStaticData : Bool)
    (numRows : List Nat) : RrdManifestIndexColumn :=
  let (start, «end») := if range = .EMPTY then (.STATIC, .STATIC) else (range.min, range.max)
  { startsInclusive := column.startsInclusive ++ [start]
    endsInclusive := column.endsInclusive ++ [«end»]
    hasStaticData := column.hasStaticData ++ [hasStaticData]
    numRows := column.numRows ++ numRows }

end RrdManifestIndexColumn

structure RrdManifestTemporalColumn where
  timeline : Timeline
  index : RrdManifestIndexColumn

structure TemporalColumnKey where
  timeline : TimelineName
  desc : ComponentDescriptor
deriving DecidableEq, Repr, Ord

structure RrdManifestBuilder where
  columnChunkIds : List ChunkId := []
  columnChunkIsStatic : List Bool := []
  columnChunkNumRows : List Nat := []
  columnByteOffsetsExcludingHeaders : List Nat := []
  columnByteSizesExcludingHeaders : List Nat := []
  columnByteSizesUncompressedExcludingHeaders : List Nat := []
  columnEntityPaths : List EntityPath := []
  columnsStatic : TreeMap ComponentDescriptor RrdManifestIndexColumn := ∅
  columnsTemporal : TreeMap TimelineName RrdManifestTemporalColumn := ∅
  columns : TreeMap TemporalColumnKey RrdManifestTemporalColumn := ∅

namespace RrdManifestBuilder

/-- Every component that is indexed on a timeline also has a static column. -/
def padIndexColumns (b : RrdManifestBuilder) : RrdManifestBuilder :=
  let columnsStatic := b.columns.keys.foldl
    (fun columns key => columns.insertIfNew key.desc (.newPadded 0)) b.columnsStatic
  let pad (column : RrdManifestIndexColumn) :=
    column.padExtend (b.columnChunkIds.length - column.hasStaticData.length)
  { b with
    columnsStatic := columnsStatic.map fun _ column => pad column
    columnsTemporal := b.columnsTemporal.map fun _ column => { column with index := pad column.index }
    columns := b.columns.map fun _ column => { column with index := pad column.index } }

/-- A new column has as many rows as there were chunks before this one. -/
def newColumn (b : RrdManifestBuilder) : RrdManifestIndexColumn :=
  .newPadded (b.columnChunkIds.length - 1)

def appendStatic (b : RrdManifestBuilder) (batch : ChunkBatch) : RrdManifestBuilder :=
  let static : AbsoluteTimeRange := ⟨.STATIC, .STATIC⟩
  batch.chunk.components.foldl (fun b column =>
    let desc := batch.descriptor column.component
    let index := b.columnsStatic.getD desc b.newColumn
    { b with columnsStatic := b.columnsStatic.insert desc (index.push static true []) }) b

/-- The first chunk on a timeline of this name decides the type of the column. -/
def appendTimeline (b : RrdManifestBuilder) (batch : ChunkBatch) (timelineName : TimelineName)
    (timeColumn : TimeColumn) : RrdManifestBuilder :=
  let fresh : RrdManifestTemporalColumn := ⟨timeColumn.timeline, b.newColumn⟩
  let column := b.columnsTemporal.getD timelineName fresh
  let column := { column with index := column.index.push timeColumn.timeRange false [] }
  let b := { b with columnsTemporal := b.columnsTemporal.insert timelineName column }
  (batch.timeRangePerComponent timeColumn).foldl (fun b (componentCol, timeRange) =>
    let key := ⟨timelineName, batch.descriptor componentCol.component⟩
    let column := b.columns.getD key fresh
    let column :=
      { column with index := column.index.push timeRange true [componentCol.numValid] }
    { b with columns := b.columns.insert key column }) b

def append (b : RrdManifestBuilder) (batch : ChunkBatch) (byteSpanExcludingHeader : Span)
    (byteSizeUncompressedExcludingHeader : Nat) : RrdManifestBuilder :=
  let chunk := batch.chunk
  let b := { b with
    columnChunkIds := b.columnChunkIds ++ [chunk.id]
    columnChunkIsStatic := b.columnChunkIsStatic ++ [chunk.isStatic]
    columnChunkNumRows := b.columnChunkNumRows ++ [chunk.numRows]
    columnByteOffsetsExcludingHeaders :=
      b.columnByteOffsetsExcludingHeaders ++ [byteSpanExcludingHeader.start]
    columnByteSizesExcludingHeaders :=
      b.columnByteSizesExcludingHeaders ++ [byteSpanExcludingHeader.len]
    columnByteSizesUncompressedExcludingHeaders :=
      b.columnByteSizesUncompressedExcludingHeaders ++ [byteSizeUncompressedExcludingHeader]
    columnEntityPaths := b.columnEntityPaths ++ [chunk.entityPath] }
  let b :=
    if chunk.isStatic then b.appendStatic batch
    else chunk.timelines.foldl
      (fun b (timelineName, timeColumn) => b.appendTimeline batch timelineName timeColumn) b
  b.padIndexColumns

end RrdManifestBuilder

end DimosViewer.Rrd
