import DimosViewer.Server.ChunkIndex
import DimosViewer.Server.InMemoryStore

/-!
# The layers of a dataset

Segments, their layers, and the calls that change them and the chunk indexes of the
dataset. Times of registration and update are left out.
-/

namespace DimosViewer.Server

open Reach (Reachable)

-- ---------------------------------------------------------------------------
-- Segments
-- ---------------------------------------------------------------------------

structure Layer where
  storeSlotId : StoreSlotId
  resolved : ResolvedStore
deriving DecidableEq

abbrev Layer.chunks (layer : Layer) : List Chunk := layer.resolved.chunks

structure Segment where
  layers : AList fun _ : String => Layer := ∅
deriving DecidableEq

namespace Segment

def layerCount (s : Segment) : Nat := s.layers.entries.length

/-- A successful result is `true` if the layer existed and was overwritten. -/
def insertLayer (s : Segment) (layerName : String) (layer : Layer)
    (onDuplicate : IfDuplicateBehavior) : Except StoreError (Bool × Segment) :=
  if layerName ∈ s.layers then
    match onDuplicate with
    | .overwrite => .ok (true, ⟨s.layers.insert layerName layer⟩)
    | .skip => .ok (true, s)
    | .error => .error (.layerAlreadyExists layerName)
  else .ok (false, ⟨s.layers.insert layerName layer⟩)

def retainLayers (s : Segment) (keep : String → Layer → Bool) : Segment :=
  ⟨s.layers.retain fun name layer => if keep name layer then some layer else none⟩

def layerChunks (segmentId : SegmentId) (s : Segment) : List LayerChunk :=
  s.layers.entries.flatMap fun ⟨layerName, layer⟩ =>
    layer.chunks.map fun chunk => (segmentId, layerName, chunk)

def layerList (segmentId : SegmentId) (s : Segment) : List (SegmentId × String × Layer) :=
  s.layers.entries.map fun ⟨layerName, layer⟩ => (segmentId, layerName, layer)

end Segment

-- ---------------------------------------------------------------------------
-- Datasets
-- ---------------------------------------------------------------------------

structure DatasetInner where
  segments : AList fun _ : SegmentId => Segment := ∅
  indexes : DatasetChunkIndexes := ∅
deriving DecidableEq

namespace DatasetInner

def layers (ds : DatasetInner) : List (SegmentId × String × Layer) :=
  ds.segments.entries.flatMap fun ⟨segmentId, segment⟩ => segment.layerList segmentId

def layer (ds : DatasetInner) (segmentId : SegmentId) (layerName : String) : Option Layer :=
  (ds.segments.lookup segmentId).bind (·.layers.lookup layerName)

def layerChunks (ds : DatasetInner) : List LayerChunk :=
  ds.segments.entries.flatMap fun ⟨segmentId, segment⟩ => segment.layerChunks segmentId

def layerStores (ds : DatasetInner) : List LayerStore :=
  ds.layers.map fun (segmentId, layerName, layer) => (segmentId, layerName, layer.resolved)

def addLayer (env : Backend) (ds : DatasetInner) (segmentId : SegmentId) (layerName : String)
    (storeSlotId : StoreSlotId) (resolved : ResolvedStore) (onDuplicate : IfDuplicateBehavior) :
    Except StoreError Unit × DatasetInner :=
  match env.mergeSchema (ds.layerStores.map (·.2.2)) resolved with
  | .error e => (.error e, ds)
  | .ok () =>
    -- `entry(segment_id).or_default()`
    let segment := (ds.segments.lookup segmentId).getD {}
    match segment.insertLayer layerName ⟨storeSlotId, resolved⟩ onDuplicate with
    | .error e => (.error e, { ds with segments := ds.segments.insert segmentId segment })
    | .ok (overwritten, segment) =>
      let (result, indexes) := ds.indexes.onLayerAdded env segmentId resolved layerName overwritten
      (result, { segments := ds.segments.insert segmentId segment, indexes })

/-- Empty sets select every segment, and every layer. -/
def removeLayers (env : Backend) (ds : DatasetInner) (segmentsToDrop : List SegmentId)
    (layersToDrop : List String) :
    Except StoreError (List (SegmentId × String)) × DatasetInner :=
  let dropsSegment segmentId := segmentsToDrop.isEmpty || segmentsToDrop.contains segmentId
  let dropsLayer layerName := layersToDrop.isEmpty || layersToDrop.contains layerName
  let removedLayers := ds.segments.entries.flatMap fun ⟨segmentId, segment⟩ =>
    if dropsSegment segmentId then
      (segment.layers.keys.filter dropsLayer).map (segmentId, ·)
    else []
  let segments := ds.segments.retain fun segmentId segment =>
    if dropsSegment segmentId then
      let segment := segment.retainLayers fun layerName _ => !dropsLayer layerName
      if 0 < segment.layerCount then some segment else none
    else some segment
  let (result, indexes) := ds.indexes.onLayersRemoved env removedLayers
  (result.map fun _ => removedLayers, { segments, indexes })

inductive Call where
  | createIndex (config : IndexConfig)
  | deleteIndexes (column : IndexColumn)
  | addLayer (segmentId : SegmentId) (layerName : String) (storeSlotId : StoreSlotId)
      (resolved : ResolvedStore) (onDuplicate : IfDuplicateBehavior)
  | removeLayers (segmentsToDrop : List SegmentId) (layersToDrop : List String)

def perform (env : Backend) (ds : DatasetInner) : Call → Except StoreError Unit × DatasetInner
  | .createIndex config =>
    let (result, indexes) := ds.indexes.addIndex env ds.layerStores config
    (result, { ds with indexes })
  | .deleteIndexes column => (.ok (), { ds with indexes := (ds.indexes.deleteIndexes column).2 })
  | .addLayer segmentId layerName storeSlotId resolved onDuplicate =>
    ds.addLayer env segmentId layerName storeSlotId resolved onDuplicate
  | .removeLayers segmentsToDrop layersToDrop =>
    let (result, ds) := ds.removeLayers env segmentsToDrop layersToDrop
    (result.map fun _ => (), ds)

def next (env : Backend) (ds : DatasetInner) (call : Call) : DatasetInner := (ds.perform env call).2

-- ---------------------------------------------------------------------------
-- What the indexes are for
-- ---------------------------------------------------------------------------

end DatasetInner

/-- The rows of a chunk that carries the column and the timeline of an index. -/
def Index.rowsOf (env : Backend) (config : IndexConfig) (chunk : LayerChunk) : List IndexRow :=
  if chunk.2.2.entityPath = config.column.entityPath then
    match prepare env config chunk with
    | .ok (some rows) => rows
    | _ => []
  else []

namespace DatasetInner

/-- Every index has the rows of the registered layers, each once. -/
def Mirrored (env : Backend) (ds : DatasetInner) : Prop :=
  ∀ column ix, ds.indexes.get column = some ix →
    View.Mirrors (fun chunk => (Index.rowsOf env ix.config chunk : Multiset IndexRow)) ds.layerChunks
      ix.lanceDataset.rows

/-- The same layers, and the same indexes. -/
def Unchanged (before after : DatasetInner) : Prop :=
  after.layers.Perm before.layers ∧ after.indexes = before.indexes

/-- What is promised of a call: success leaves the indexes in step with the layers, and
failure leaves both alone. -/
def Kept (env : Backend) (before after : DatasetInner) : Except StoreError Unit → Prop
  | .ok () => after.Mirrored env
  | .error _ => before.Unchanged after

end DatasetInner

end DimosViewer.Server
