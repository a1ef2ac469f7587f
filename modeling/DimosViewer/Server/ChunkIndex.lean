import DimosViewer.Chunk.Basic
import DimosViewer.MaterializedView

/-!
# Chunk indexes

An index of a dataset is a Lance table with a row for every instance of one column in
the chunks of its layers. Of that table it is assumed that `append` adds the rows it
is given and `delete` removes those that match.
-/

namespace DimosViewer.Server

abbrev SegmentId := String
abbrev StoreSlotId := Nat

inductive StoreError where
  | layerAlreadyExists (layerName : String)
  | componentPathNotFound (entityPath : EntityPath) (component : ComponentIdentifier)
  | indexAlreadyExists (entityPath : EntityPath) (component : ComponentIdentifier)
  | indexingError (err : String)
  | schemaConflict (err : String)
  | arrow (err : String)
  | lance (err : String)
deriving DecidableEq

-- ---------------------------------------------------------------------------
-- Stores
-- ---------------------------------------------------------------------------

/-- A store in memory, or the file behind one, whose chunks are loaded on demand: all of them,
or an error. The file does not change. -/
inductive ResolvedStore where
  | eager (chunks : List Chunk)
  | lazy (loaded : Except String (List Chunk))
deriving DecidableEq

namespace ResolvedStore

def collectPhysicalChunks : ResolvedStore → Except StoreError (List Chunk)
  | .eager chunks => .ok chunks
  | .lazy (.ok chunks) => .ok chunks
  | .lazy (.error err) => .error (.indexingError err)

/-- The chunks there are; none of a file that cannot be read. -/
def chunks (store : ResolvedStore) : List Chunk := store.collectPhysicalChunks.toOption.getD []

def loads (store : ResolvedStore) : Bool := store.collectPhysicalChunks.toBool

end ResolvedStore

abbrev LayerChunk := SegmentId × String × Chunk

abbrev LayerStore := SegmentId × String × ResolvedStore

-- ---------------------------------------------------------------------------
-- Configuration
-- ---------------------------------------------------------------------------

inductive VectorDistanceMetric where
  | unspecified
  | l2
  | cosine
  | dot
  | hamming
deriving DecidableEq

inductive IndexProperties where
  | inverted (storePosition : Bool) (baseTokenizer : String)
  | vectorIvfPq (targetPartitionNumRows : Option Nat) (numSubVectors : Nat)
      (metric : VectorDistanceMetric)
  | btree
deriving DecidableEq

inductive IndexType where
  | inverted
  | vectorIvfPq
  | bTree
deriving DecidableEq

def IndexProperties.indexType : IndexProperties → IndexType
  | .inverted .. => .inverted
  | .vectorIvfPq .. => .vectorIvfPq
  | .btree => .bTree

structure IndexColumn where
  entityPath : EntityPath
  component : ComponentIdentifier
deriving DecidableEq

structure IndexConfig where
  timeIndex : TimelineName
  column : IndexColumn
  properties : IndexProperties
deriving DecidableEq

/-- What other crates decide. The results below hold whatever they do. -/
structure Backend where
  /-- `value_type().is_numeric()` of a component column. -/
  isNumeric : DataType → Bool
  /-- The directory of an index and its empty table. -/
  createLanceDataset : IndexConfig → Except StoreError Unit
  createLanceIndex : IndexProperties → Except StoreError Unit
  /-- `delete` with the empty text for a predicate. -/
  deleteNothing : Except StoreError Unit
  /-- Whether the schema of a layer goes with that of the dataset. -/
  mergeSchema : List ResolvedStore → ResolvedStore → Except StoreError Unit

-- ---------------------------------------------------------------------------
-- Rows
-- ---------------------------------------------------------------------------

inductive Instance where
  | value (v : Value)
  | vector (numbers : Cell)
deriving DecidableEq

structure IndexRow where
  rerunSegmentId : SegmentId
  rerunSegmentLayer : String
  chunkId : ChunkId
  timepoint : TimeInt
  instanceId : Nat
  instanceValue : Instance
deriving DecidableEq

/-- `None` is a chunk without the timeline or the component. -/
def prepareRecordBatch (env : Backend) (indexType : IndexType) (segmentId : SegmentId)
    (layer : String) (timeline : TimelineName) (component : ComponentIdentifier)
    (chunk : Chunk) : Except StoreError (Option (List IndexRow)) :=
  match chunk.timeline? timeline, chunk.components.get component with
  | some timeline, some component =>
    let rowIsArrayOfInstances := indexType ≠ .vectorIvfPq ∨ !env.isNumeric component.dataType
    let totalInstances :=
      if rowIsArrayOfInstances then (component.listArray.map fun x => (x.map (·.length)).getD 0).sum
      else component.numValid
    -- The column of chunk ids cannot be built from an empty iterator.
    if totalInstances = 0 then .error (.arrow "Input iterable argument has no data")
    else .ok <| some <| (component.listArray.zip timeline.times).flatMap fun (cell, time) =>
      match cell with
      | none => []
      | some cell =>
        if rowIsArrayOfInstances then
          cell.zipIdx.map fun (v, i) => ⟨segmentId, layer, chunk.id, time, i, .value v⟩
        else [⟨segmentId, layer, chunk.id, time, 0, .vector cell⟩]
  | _, _ => .ok none

-- ---------------------------------------------------------------------------
-- One index
-- ---------------------------------------------------------------------------

/-- A Lance table, by its rows. -/
structure LanceDataset where
  rows : List IndexRow := []
deriving DecidableEq

namespace LanceDataset

/-- Nothing is committed when the reader fails. -/
def append (t : LanceDataset) (batches : List (Except StoreError (List IndexRow))) :
    Except StoreError LanceDataset :=
  (batches.mapM id).map fun batches => ⟨t.rows ++ batches.flatten⟩

def delete (t : LanceDataset) (layers : List (SegmentId × String)) : LanceDataset :=
  ⟨t.rows.filter fun r => (r.rerunSegmentId, r.rerunSegmentLayer) ∉ layers⟩

end LanceDataset

structure Index where
  config : IndexConfig
  lanceDataset : LanceDataset
deriving DecidableEq

/-- `Result<Option<T>, E>::transpose` -/
def transpose : Except ε (Option α) → Option (Except ε α)
  | .error e => some (.error e)
  | .ok none => none
  | .ok (some a) => some (.ok a)

namespace Index

def prepare (env : Backend) (config : IndexConfig) :
    LayerChunk → Except StoreError (Option (List IndexRow))
  | (segmentId, layer, chunk) =>
    prepareRecordBatch env config.properties.indexType segmentId layer config.timeIndex
      config.column.component chunk

def storeChunks (env : Backend) (ix : Index) (chunks : List LayerChunk) :
    Except StoreError Index :=
  let batches := chunks.filterMap fun chunk => transpose (prepare env ix.config chunk)
  match batches with
  -- The schema of the first batch is needed.
  | .ok _ :: _ => (ix.lanceDataset.append batches).map fun t => { ix with lanceDataset := t }
  | _ => .error (.indexingError "Cannot determine indexed data schema")

def removeLayers (env : Backend) (ix : Index) (layers : List (SegmentId × String)) :
    Except StoreError Index :=
  if layers.isEmpty then env.deleteNothing.map fun _ => ix
  else .ok { ix with lanceDataset := ix.lanceDataset.delete layers }

end Index

/-- The first chunk with the column, which has the data types of the table. A store that cannot
be loaded ends the search. -/
def findDatatypes (entityPath : EntityPath) (component : ComponentIdentifier)
    (timelineName : TimelineName) :
    List LayerStore → Option (SerializedComponentColumn × TimeColumn)
  | [] => none
  | (_, _, store) :: stores =>
    match store.collectPhysicalChunks with
    | .error _ => none
    | .ok chunks =>
      let found := chunks.findSome? fun chunk =>
        if chunk.entityPath = entityPath then
          match chunk.components.get component, chunk.timeline? timelineName with
          | some column, some timeline => some (column, timeline)
          | _, _ => none
        else none
      match found with
      | some types => some types
      | none => findDatatypes entityPath component timelineName stores

def createLanceIndex (env : Backend) : IndexProperties → Except StoreError Unit
  | .vectorIvfPq _ _ .unspecified => .error (.indexingError "Unspecified distance metric")
  | properties => env.createLanceIndex properties

def createIndex (env : Backend) (stores : List LayerStore) (config : IndexConfig) :
    Except StoreError Index :=
  match findDatatypes config.column.entityPath config.column.component config.timeIndex stores with
  | none => .error (.componentPathNotFound config.column.entityPath config.column.component)
  | some _ => do
    env.createLanceDataset config
    createLanceIndex env config.properties
    return ⟨config, {}⟩

-- ---------------------------------------------------------------------------
-- All indexes of a dataset
-- ---------------------------------------------------------------------------

abbrev DatasetChunkIndexes :=
  AList fun _ : EntityPath => AList fun _ : ComponentIdentifier => Index

namespace DatasetChunkIndexes

def get (indexes : DatasetChunkIndexes) (column : IndexColumn) : Option Index :=
  (indexes.lookup column.entityPath).bind (·.lookup column.component)

/-- `entry(entity_path).or_default().insert(component, index)` -/
def set (indexes : DatasetChunkIndexes) (column : IndexColumn) (ix : Index) :
    DatasetChunkIndexes :=
  indexes.insert column.entityPath
    (((indexes.lookup column.entityPath).getD ∅).insert column.component ix)

def columns (indexes : DatasetChunkIndexes) : List IndexColumn :=
  indexes.entries.flatMap fun ⟨entityPath, pathIndexes⟩ =>
    pathIndexes.entries.map fun ⟨component, _⟩ => ⟨entityPath, component⟩

/-- Indexes are changed one after the other, until one fails. -/
def updateAll (update : κ → Index → Except StoreError Index) :
    List (IndexColumn × κ) → DatasetChunkIndexes → Except StoreError Unit × DatasetChunkIndexes
  | [], indexes => (.ok (), indexes)
  | (column, item) :: rest, indexes =>
    match indexes.get column with
    | none => updateAll update rest indexes
    | some ix =>
      match update item ix with
      | .error e => (.error e, indexes)
      | .ok ix => updateAll update rest (indexes.set column ix)

/-- The indexes that a chunk is stored in. -/
def worklist (indexes : DatasetChunkIndexes) (chunks : List LayerChunk) :
    List (IndexColumn × LayerChunk) :=
  chunks.flatMap fun chunk =>
    match indexes.lookup chunk.2.2.entityPath with
    | none => []
    | some entityIndexes => entityIndexes.entries.filterMap fun ⟨name, _⟩ =>
        if (chunk.2.2.components.get name).isSome then
          some (⟨chunk.2.2.entityPath, name⟩, chunk)
        else none

def onLayerAdded (env : Backend) (indexes : DatasetChunkIndexes) (segmentId : SegmentId)
    (resolved : ResolvedStore) (layerName : String) (_overwritten : Bool) :
    Except StoreError Unit × DatasetChunkIndexes :=
  if indexes.entries.isEmpty then (.ok (), indexes)
  else match resolved.collectPhysicalChunks with
    | .error err => (.error err, indexes)
    | .ok chunks =>
      indexes.updateAll (fun chunk ix => ix.storeChunks env [chunk])
        (indexes.worklist (chunks.map fun chunk => (segmentId, layerName, chunk)))

def onLayersRemoved (env : Backend) (indexes : DatasetChunkIndexes)
    (removedLayers : List (SegmentId × String)) : Except StoreError Unit × DatasetChunkIndexes :=
  indexes.updateAll (fun () ix => ix.removeLayers env removedLayers)
    (indexes.columns.map (·, ()))

def deleteIndexes (indexes : DatasetChunkIndexes) (column : IndexColumn) :
    List IndexConfig × DatasetChunkIndexes :=
  match indexes.lookup column.entityPath with
  | none => ([], indexes)
  | some pathIndexes =>
    match pathIndexes.lookup column.component with
    | none => ([], indexes)
    | some ix => ([ix.config],
        indexes.insert column.entityPath (pathIndexes.erase column.component))

/-- What an index is filled from: the chunks of one store after the other, until one of them
cannot be loaded. -/
def backfill (column : IndexColumn) (stores : List LayerStore) :
    Except StoreError (List LayerChunk) :=
  stores.foldlM (fun backfill (segmentId, layerName, store) => do
    let chunks ← store.collectPhysicalChunks
    return backfill ++ (chunks.filter fun chunk => chunk.entityPath = column.entityPath &&
      (chunk.components.get column.component).isSome).map (segmentId, layerName, ·)) []

/-- The index is registered before it is filled. `stores` are those of the layers. -/
def addIndex (env : Backend) (indexes : DatasetChunkIndexes) (stores : List LayerStore)
    (config : IndexConfig) : Except StoreError Unit × DatasetChunkIndexes :=
  let entityPath := config.column.entityPath
  let component := config.column.component
  if (indexes.get config.column).isSome then
    (.error (.indexAlreadyExists entityPath component), indexes)
  else
    match createIndex env stores config with
    | .error e => (.error e, indexes)
    | .ok ix =>
      let indexes := indexes.set config.column ix
      match (backfill config.column stores).bind (ix.storeChunks env) with
      | .error e => (.error e, indexes)
      | .ok ix => (.ok (), indexes.set config.column ix)

end DatasetChunkIndexes

end DimosViewer.Server
