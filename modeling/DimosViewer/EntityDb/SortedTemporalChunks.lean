import DimosViewer.Grouping
import DimosViewer.Rollup
import DimosViewer.Store.Basic
import Mathlib.Order.Bounds.Basic

/-!
# Chunks of an entity subtree

For each timeline and entity, the chunks that the manifest lists for the entity and for
everything below it, sorted by their start. Paths stand for their hashes.
-/

namespace DimosViewer

open Grouping (upsertEntry)

-- ---------------------------------------------------------------------------
-- Entity trees
-- ---------------------------------------------------------------------------

mutual
/-- Each node knows its full path. -/
inductive EntityTree where
  | node (path : EntityPath) (children : EntityTrees)
inductive EntityTrees where
  | nil
  | cons (part : String) (child : EntityTree) (rest : EntityTrees)
end

def EntityTree.path : EntityTree → EntityPath
  | .node path _ => path

def EntityTree.children : EntityTree → EntityTrees
  | .node _ children => children

def EntityTrees.paths : EntityTrees → List EntityPath
  | .nil => []
  | .cons _ child rest => child.path :: rest.paths

def EntityTrees.parts : EntityTrees → List String
  | .nil => []
  | .cons part _ rest => part :: rest.parts

mutual
/-- Children come before their parents. -/
def EntityTree.visit (visitor : EntityTree → σ → σ) : EntityTree → σ → σ
  | .node path children, s => visitor (.node path children) (children.visit visitor s)
def EntityTrees.visit (visitor : EntityTree → σ → σ) : EntityTrees → σ → σ
  | .nil, s => s
  | .cons _ child rest, s => rest.visit visitor (child.visit visitor s)
end

mutual
def EntityTree.subtrees : EntityTree → List EntityTree
  | .node path children => .node path children :: children.subtrees
def EntityTrees.subtrees : EntityTrees → List EntityTree
  | .nil => []
  | .cons _ child rest => child.subtrees ++ rest.subtrees
end

def EntityTree.entities (tree : EntityTree) : List EntityPath := tree.subtrees.map (·.path)

def EntityTrees.entities (trees : EntityTrees) : List EntityPath := trees.subtrees.map (·.path)

mutual
/-- The paths follow the parts, and a part leads to one child. -/
def EntityTree.WellFormed (path : EntityPath) : EntityTree → Prop
  | .node path' children => path' = path ∧ children.WellFormed path
def EntityTrees.WellFormed (path : EntityPath) : EntityTrees → Prop
  | .nil => True
  | .cons part child rest =>
    child.WellFormed (path ++ [part]) ∧ part ∉ rest.parts ∧ rest.WellFormed path
end

-- ---------------------------------------------------------------------------
-- Records of chunks
-- ---------------------------------------------------------------------------

structure ChunkCountInfo where
  id : ChunkId
  timeRange : AbsoluteTimeRange
  numRows : UInt64
deriving DecidableEq

structure SortedEntityTemporalChunks where
  perEntity : List ChunkCountInfo := []
  perComponent : List (ComponentIdentifier × List ChunkCountInfo) := []

abbrev EntityChunks := List (EntityPath × SortedEntityTemporalChunks)

structure SortedTemporalChunks where
  perTimeline : List (TimelineName × EntityChunks)

abbrev RrdManifestTemporalMap := List (EntityPath × List (Timeline ×
  List (ComponentIdentifier × List (ChunkId × RrdManifestTemporalMapEntry))))

namespace ChunkCountInfo

def ofEntry (chunk : ChunkId × RrdManifestTemporalMapEntry) : ChunkCountInfo :=
  ⟨chunk.1, chunk.2.timeRange, .ofNat chunk.2.numRows⟩

/-- What of a later record goes into an earlier one of the same chunk. -/
def merge (b a : ChunkCountInfo) : ChunkCountInfo :=
  { b with timeRange := b.timeRange.union a.timeRange, numRows := b.numRows + a.numRows }

def sortById (infos : List ChunkCountInfo) : List ChunkCountInfo :=
  infos.insertionSort (·.id ≤ ·.id)

def sortByStart (infos : List ChunkCountInfo) : List ChunkCountInfo :=
  infos.insertionSort (·.timeRange.min ≤ ·.timeRange.min)

/-- Of a chunk that is listed twice only the first record is kept. -/
def dedup (infos : List ChunkCountInfo) : List ChunkCountInfo :=
  sortByStart (Rollup.mergeNeighbors (·.id) (fun first _ => first) (sortById infos))

def mergeDuplicates (infos : List ChunkCountInfo) : List ChunkCountInfo :=
  sortByStart (Rollup.mergeNeighbors (·.id) merge (sortById infos))

end ChunkCountInfo

open ChunkCountInfo

namespace SortedEntityTemporalChunks

def addComponent (chunks : SortedEntityTemporalChunks)
    (component : ComponentIdentifier × List (ChunkId × RrdManifestTemporalMapEntry)) :
    SortedEntityTemporalChunks :=
  { chunks with
    perComponent := upsertEntry component.1 [] (fun componentChunks =>
      dedup (componentChunks ++ component.2.map ofEntry)) chunks.perComponent }

def componentChunks (chunks : SortedEntityTemporalChunks) (component : ComponentIdentifier) :
    List ChunkCountInfo :=
  (chunks.perComponent.lookup component).getD []

end SortedEntityTemporalChunks

namespace SortedTemporalChunks

def collect (nativeTemporalMap : RrdManifestTemporalMap) : List (TimelineName × EntityChunks) :=
  nativeTemporalMap.foldl (fun perTimeline (entity, timelines) =>
    timelines.foldl (fun perTimeline (timeline, perComponent) =>
      upsertEntry timeline.name [] (fun sortedPerEntity =>
        upsertEntry entity {} (fun entityChunks =>
          perComponent.foldl (·.addComponent ·) entityChunks) sortedPerEntity) perTimeline)
      perTimeline) []

/-- The records of the children, which hold those of their own children, and of the node. -/
def aggregate (node : EntityTree) (perEntity : EntityChunks) : EntityChunks :=
  let childChunks := node.children.paths.flatMap fun path =>
    ((perEntity.lookup path).map (·.perEntity)).getD []
  upsertEntry node.path {} (fun chunks =>
    { chunks with
      perEntity := mergeDuplicates
        (chunks.perEntity ++ childChunks ++ chunks.perComponent.flatMap Prod.snd) }) perEntity

def new (entityTree : EntityTree) (nativeTemporalMap : RrdManifestTemporalMap) :
    SortedTemporalChunks :=
  ⟨entityTree.visit (fun node perTimeline =>
      perTimeline.map fun (timeline, perEntity) => (timeline, aggregate node perEntity))
    (collect nativeTemporalMap)⟩

def get (sorted : SortedTemporalChunks) (timeline : TimelineName) (entity : EntityPath) :
    Option SortedEntityTemporalChunks :=
  (sorted.perTimeline.lookup timeline).bind (·.lookup entity)

/-- What a caller sees of an entity, nothing if it is not there. -/
def chunks (sorted : SortedTemporalChunks) (timeline : TimelineName) (entity : EntityPath) :
    SortedEntityTemporalChunks :=
  (sorted.get timeline entity).getD {}

end SortedTemporalChunks

-- ---------------------------------------------------------------------------
-- What the records stand for
-- ---------------------------------------------------------------------------

/-- An entry of the temporal map with the keys it is found under. Timelines go by their names. -/
structure TemporalEntry where
  entityPath : EntityPath
  timeline : TimelineName
  component : ComponentIdentifier
  id : ChunkId
  entry : RrdManifestTemporalMapEntry

namespace RrdManifestTemporalMap

def entries (nativeTemporalMap : RrdManifestTemporalMap) : List TemporalEntry :=
  nativeTemporalMap.flatMap fun (entity, timelines) =>
    timelines.flatMap fun (timeline, perComponent) =>
      perComponent.flatMap fun (component, chunks) =>
        chunks.map fun (chunk, entry) => ⟨entity, timeline.name, component, chunk, entry⟩

def ofComponent (map : RrdManifestTemporalMap) (timeline : TimelineName) (entity : EntityPath)
    (component : ComponentIdentifier) : List TemporalEntry :=
  map.entries.filter fun e =>
    e.timeline = timeline ∧ e.entityPath = entity ∧ e.component = component

def ofSubtree (map : RrdManifestTemporalMap) (timeline : TimelineName) (tree : EntityTree) :
    List TemporalEntry :=
  map.entries.filter fun e => e.timeline = timeline ∧ e.entityPath ∈ tree.entities

/-- No chunk is listed for a component under two timelines of one name. -/
def ListedOnce (map : RrdManifestTemporalMap) : Prop :=
  ∀ timeline entity component, ((map.ofComponent timeline entity component).map (·.id)).Nodup

end RrdManifestTemporalMap

/-- One record for each chunk, with the hull of its time ranges and, in 64 bits, the sum of
its rows. -/
structure Aggregates (entries : List TemporalEntry) (records : List ChunkCountInfo) : Prop where
  sorted : records.Pairwise (·.timeRange.min ≤ ·.timeRange.min)
  unique : (records.map (·.id)).Nodup
  chunks : ∀ id, id ∈ records.map (·.id) ↔ id ∈ entries.map (·.id)
  start : ∀ r ∈ records,
    IsLeast {t | ∃ e ∈ entries, e.id = r.id ∧ e.entry.timeRange.min = t} r.timeRange.min
  stop : ∀ r ∈ records,
    IsGreatest {t | ∃ e ∈ entries, e.id = r.id ∧ e.entry.timeRange.max = t} r.timeRange.max
  rows : ∀ r ∈ records, r.numRows.toNat =
    ((entries.filter (·.id = r.id)).map (·.entry.numRows)).sum % 2 ^ 64

end DimosViewer
