import DimosViewer.EntityDb.MergedRanges
import DimosViewer.Grouping
import DimosViewer.Store.Lineage

/-!
# The index over the manifest

Which chunks of the manifest have been loaded, and which stretches of a timeline
are loaded therefore. Manifests come in parts. Loading is reported by the events of
the store.
-/

namespace DimosViewer

open Grouping
open Std (TreeMap)

inductive LoadState where
  | unloaded
  | inTransit
  | fullyLoaded
deriving DecidableEq

structure TemporalChunkInfo where
  timeline : Timeline
  timeRange : AbsoluteTimeRange
  numRowsForAllEntitiesAllComponents : Nat
deriving DecidableEq

structure RootChunkInfo where
  entityPath : EntityPath
  rowId : Nat
  state : LoadState := .unloaded
  temporals : TreeMap TimelineName TemporalChunkInfo := ∅

def RootChunkInfo.isFullyLoaded (info : RootChunkInfo) : Bool :=
  info.state = .fullyLoaded

structure RrdManifestDelta extends RrdManifest where
  colChunkIds : List ChunkId
  colChunkEntityPath : List EntityPath

structure LoadedRanges where
  ranges : MergedRanges
  timeline : TimelineName

/-- `manifest` are the entries of the temporal maps of all parts, and `componentsOfInterest` and
`componentPathsFromRootId` those of the prioritizer. -/
structure RrdManifestIndex where
  hasManifest : Bool := false
  numRows : Nat := 0
  manifest : List (EntityPath × Timeline × ComponentIdentifier × ChunkId ×
    RrdManifestTemporalMapEntry) := []
  rootChunks : TreeMap ChunkId RootChunkInfo := ∅
  timelines : TreeMap TimelineName AbsoluteTimeRange := ∅
  componentPathsFromRootId : ComponentPaths := ∅
  componentsOfInterest : Finset ComponentPathKey := ∅
  loadedRanges : Option LoadedRanges := none

namespace RrdManifestIndex

-- ---------------------------------------------------------------------------
-- Manifests
-- ---------------------------------------------------------------------------

def addTemporal (info : RootChunkInfo) (timeline : Timeline)
    (entry : RrdManifestTemporalMapEntry) : RootChunkInfo :=
  { info with
    temporals := info.temporals.alter timeline.name fun
      | some temporal => some { temporal with
          timeRange := entry.timeRange.union temporal.timeRange
          numRowsForAllEntitiesAllComponents :=
            temporal.numRowsForAllEntitiesAllComponents + entry.numRows }
      | none => some ⟨timeline, entry.timeRange, entry.numRows⟩ }

def updateTimelineStats (timelines : TreeMap TimelineName AbsoluteTimeRange)
    (delta : RrdManifestDelta) : TreeMap TimelineName AbsoluteTimeRange :=
  delta.temporalMap.foldl (fun timelines (_, timeline, _, _, entry) =>
    let range := (timelines.getD timeline.name .EMPTY).union entry.timeRange
    if range = .EMPTY then timelines else timelines.insert timeline.name range) timelines

def addComponentPath (paths : ComponentPaths) (entityPath : EntityPath)
    (component : ComponentIdentifier) (chunk : ChunkId) : ComponentPaths :=
  paths.insert chunk (paths.getD chunk [] ++ [⟨entityPath, component⟩])

/-- `ChunkPrioritizer::on_rrd_manifest`, as far as it concerns the component paths. -/
def onRrdManifest (paths : ComponentPaths) (delta : RrdManifestDelta) : ComponentPaths :=
  let paths := delta.staticMap.foldl (fun paths (entityPath, component, chunk) =>
    addComponentPath paths entityPath component chunk) paths
  delta.temporalMap.foldl (fun paths (entityPath, _, component, chunk, _) =>
    addComponentPath paths entityPath component chunk) paths

def append (index : RrdManifestIndex) (delta : RrdManifestDelta) : RrdManifestIndex :=
  let rootChunks := (delta.colChunkIds.zip delta.colChunkEntityPath).zipIdx.foldl
    (fun rootChunks ((chunk, entityPath), row) =>
      rootChunks.insert chunk { entityPath, rowId := index.numRows + row }) index.rootChunks
  { index with
    hasManifest := true
    numRows := index.numRows + delta.colChunkIds.length
    manifest := index.manifest ++ delta.temporalMap
    timelines := updateTimelineStats index.timelines delta
    componentPathsFromRootId := onRrdManifest index.componentPathsFromRootId delta
    loadedRanges := none
    rootChunks := delta.temporalMap.foldl (fun rootChunks (_, timeline, _, chunk, entry) =>
      rootChunks.modify chunk (addTemporal · timeline entry)) rootChunks }

-- ---------------------------------------------------------------------------
-- Loaded ranges
-- ---------------------------------------------------------------------------

/-- The chunks of each component of each entity on a timeline, each chunk once. -/
def componentChunksOnTimeline (index : RrdManifestIndex) (timeline : TimelineName) :
    List (List TimeRange) :=
  let entries := index.manifest.filter fun (_, t, _, _, _) => t.name = timeline
  (groupInto (fun (entityPath, _, component, _, _) => (entityPath, component)) entries).map
    fun (_, group) =>
      (groupInto (fun (_, _, _, chunk, _) => chunk) group).filterMap fun (chunk, same) =>
        same.head?.map fun (_, _, _, _, entry) => .ofChunk chunk entry.timeRange

def extendLast (max : TimeInt) : List TimeRange → List TimeRange
  | [] => []
  | [last] => [{ last with range.max := max }]
  | range :: rest => range :: extendLast max rest

def isUnloaded (index : RrdManifestIndex) (chunk : ChunkId) : Bool :=
  (index.rootChunks[chunk]?).all fun info => !info.isFullyLoaded

def updateLoadedRanges (index : RrdManifestIndex) (currentTimeline : TimelineName) :
    RrdManifestIndex :=
  match index.loadedRanges.filter (·.timeline = currentTimeline) with
  | some loaded =>
    { index with
      loadedRanges := some { loaded with
        ranges := loaded.ranges.updateComponentsOfInterest index.componentsOfInterest
          index.componentPathsFromRootId index.isUnloaded } }
  | none =>
    match index.timelines[currentTimeline]? with
    | none => index
    | some timelineRange =>
      let ranges := (index.componentChunksOnTimeline currentTimeline).flatMap fun chunks =>
        extendLast timelineRange.max (mergeRanges chunks)
      { index with
        loadedRanges := some {
          ranges := .new (mergeRanges ranges) index.componentsOfInterest
            index.componentPathsFromRootId index.isUnloaded
          timeline := currentTimeline } }

-- ---------------------------------------------------------------------------
-- Load states
-- ---------------------------------------------------------------------------

def setState (index : RrdManifestIndex) (chunk : ChunkId) (state : LoadState) :
    RrdManifestIndex :=
  { index with rootChunks := index.rootChunks.modify chunk fun info => { info with state } }

/-- The loaded ranges are told if the state of the chunk changes. -/
def markRootAs (newState : LoadState) (index : RrdManifestIndex) (chunk : ChunkId) :
    RrdManifestIndex :=
  match index.rootChunks[chunk]? with
  | none => index
  | some info =>
    let oldState := info.state
    let index := index.setState chunk newState
    { index with
      loadedRanges := index.loadedRanges.map fun loaded =>
        if oldState = newState then loaded
        else
          match newState with
          | .unloaded => { loaded with
              ranges := loaded.ranges.onChunkUnloaded chunk index.componentPathsFromRootId }
          | .inTransit => loaded
          | .fullyLoaded => { loaded with
              ranges := loaded.ranges.onChunkLoaded chunk index.componentPathsFromRootId } }

def markRootsAs (index : RrdManifestIndex) (store : ChunkStore) (chunk : ChunkId)
    (newState : LoadState) : RrdManifestIndex :=
  (store.findRootChunks chunk).foldl (markRootAs newState) index

def onEvent (index : RrdManifestIndex) (store : ChunkStore) : ChunkStoreDiff → RrdManifestIndex
  | .addition add => index.markRootsAs store add.chunkBeforeProcessing.id .fullyLoaded
  | .deletion del => index.markRootsAs store del.chunk.id .unloaded
  | .virtualAddition _ => index

def onEvents (index : RrdManifestIndex) (store : ChunkStore) (events : List ChunkStoreDiff) :
    RrdManifestIndex :=
  if index.hasManifest then events.foldl (fun index event => index.onEvent store event) index
  else index

def cancelOutdatedRequests (index : RrdManifestIndex) (cancelled : List ChunkId) :
    RrdManifestIndex :=
  if index.hasManifest then
    cancelled.foldl (fun index chunk => index.setState chunk .unloaded) index
  else index

/-- The result of a fetch: the chunks that are in transit now, and the timeline of the time
cursor. -/
def handleFetchResult (index : RrdManifestIndex) (newInTransitChunks : List ChunkId)
    (timeline : Option TimelineName) : RrdManifestIndex :=
  let index := newInTransitChunks.foldl (fun index chunk => index.setState chunk .inTransit) index
  timeline.elim index index.updateLoadedRanges

/-- `update_components_of_interest` of the prioritizer, at the start of a fetch. -/
def setComponentsOfInterest (index : RrdManifestIndex) (interest : Finset ComponentPathKey) :
    RrdManifestIndex :=
  { index with componentsOfInterest := interest }

end RrdManifestIndex

end DimosViewer
