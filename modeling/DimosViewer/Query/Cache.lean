import DimosViewer.Grouping
import DimosViewer.Query.Units
import DimosViewer.Store.Run

/-!
# The query cache

Results are cached for each entity, timeline and component. The events of the
store only leave marks in the caches, which are looked at before the next query.
-/

namespace DimosViewer

open Grouping
open Std (TreeMap TreeSet)

structure QueryCacheKey where
  entityPath : EntityPath
  timelineName : TimelineName
  component : ComponentIdentifier
deriving DecidableEq

structure LatestAtCachedChunk where
  unit : UnitChunkShared
  isReference : Bool

/-- By query time. -/
structure LatestAtCache where
  perQueryTime : TreeMap TimeInt LatestAtCachedChunk := ∅
  pendingInvalidations : TreeSet TimeInt := ∅

structure RangeCachedChunk where
  chunk : Chunk
  reallocated : Bool
deriving DecidableEq

structure RangeCache where
  cacheKey : QueryCacheKey
  chunks : TreeMap ChunkId RangeCachedChunk := ∅
  pendingInvalidations : ChunkIdSet := ∅

structure QueryCache where
  mightRequireClearing : TreeSet EntityPath := ∅
  latestAtPerCacheKey : List (QueryCacheKey × LatestAtCache) := []
  rangePerCacheKey : List (QueryCacheKey × RangeCache) := []

-- ---------------------------------------------------------------------------
-- Range queries
-- ---------------------------------------------------------------------------

/-- A chunk as it is cached: densified, sorted on the timeline, under its old id. -/
def RangeCachedChunk.new (newId : Nat → ChunkId) (key : QueryCacheKey) (rawChunk : Chunk) :
    RangeCachedChunk :=
  let (chunk, densified) := rawChunk.densified (newId 0) key.component
  let chunk := (chunk.sortedByTimelineIfUnsorted newId 1 key.timelineName).1.withId rawChunk.id
  { chunk, reallocated := densified || !rawChunk.isTimelineSorted key.timelineName }

namespace RangeCache

def handlePendingInvalidation (cache : RangeCache) : RangeCache :=
  { cache with
    chunks := cache.chunks.filter fun chunkId _ => !cache.pendingInvalidations.contains chunkId
    pendingInvalidations := ∅ }

def fill (newId : Nat → ChunkId) (cache : RangeCache) (rawChunks : List Chunk) : RangeCache :=
  { cache with
    chunks := rawChunks.foldl (fun chunks rawChunk =>
      chunks.insertIfNew rawChunk.id (.new newId cache.cacheKey rawChunk)) cache.chunks }

/-- No id that is drawn survives, so every chunk is given the same ones. -/
def range (newId : Nat → ChunkId) (cache : RangeCache) (store : ChunkStore) (query : RangeQuery)
    (entityPath : EntityPath) (component : ComponentIdentifier) :
    RangeCache × List Chunk × List ChunkId :=
  let results := store.rangeRelevantChunks .report query entityPath component
  let cache := cache.fill newId results.chunks
  let chunks := (results.chunks.filterMap fun rawChunk => cache.chunks[rawChunk.id]?).map
    fun cached => (cached.chunk.range newId query component).withId cached.chunk.id
  (cache, chunks.filter fun c => !c.isEmpty, results.missingVirtual)

end RangeCache

structure RangeResults where
  query : RangeQuery
  missingVirtual : List ChunkId := []
  components : TreeMap ComponentIdentifier (List Chunk) := ∅

namespace ChunkStore

def entityHasComponentOnTimeline (s : ChunkStore) (timeline : TimelineName)
    (entityPath : EntityPath) (component : ComponentIdentifier) : Bool :=
  (s.staticChunkId? entityPath component).isSome ||
    (s.perTimeOfComponent? entityPath timeline component).isSome

end ChunkStore

namespace QueryCache

def rangeComponent (newId : Nat → ChunkId) (store : ChunkStore) (query : RangeQuery)
    (entityPath : EntityPath) (acc : QueryCache × RangeResults)
    (component : ComponentIdentifier) : QueryCache × RangeResults :=
  let (caches, results) := acc
  let key : QueryCacheKey := ⟨entityPath, query.timeline, component⟩
  let cache := ((caches.rangePerCacheKey.lookup key).getD { cacheKey := key })
    |>.handlePendingInvalidation
  let (cache, cached, missing) := cache.range newId store query entityPath component
  ({ caches with rangePerCacheKey := upsertEntry key cache (fun _ => cache) caches.rangePerCacheKey },
    { results with
      missingVirtual := results.missingVirtual ++ missing
      components :=
        if cached.isEmpty then results.components else results.components.insert component cached })

def range (newId : Nat → ChunkId) (caches : QueryCache) (store : ChunkStore) (query : RangeQuery)
    (entityPath : EntityPath) (components : List ComponentIdentifier) :
    QueryCache × RangeResults :=
  (components.filter (store.entityHasComponentOnTimeline query.timeline entityPath)).foldl
    (rangeComponent newId store query entityPath) (caches, { query })

-- ---------------------------------------------------------------------------
-- Events
-- ---------------------------------------------------------------------------

def clearIsRecursive : ComponentIdentifier := "Clear:is_recursive"

structure CompactedEvents where
  static : List ((EntityPath × ComponentIdentifier) × List ChunkId) := []
  temporalLatestAt : List (QueryCacheKey × TimeInt) := []
  temporalRange : List (QueryCacheKey × List ChunkId) := []

namespace CompactedEvents

def addStatic (events : CompactedEvents) (entityPath : EntityPath)
    (component : ComponentIdentifier) (chunkIds : List ChunkId) : CompactedEvents :=
  { events with static := upsertEntry (entityPath, component) [] (· ++ chunkIds) events.static }

def addLatestAt (events : CompactedEvents) (key : QueryCacheKey) (dataTimeMin : TimeInt) :
    CompactedEvents :=
  { events with
    temporalLatestAt := upsertEntry key dataTimeMin (min · dataTimeMin) events.temporalLatestAt }

def addRange (events : CompactedEvents) (key : QueryCacheKey) (chunkIds : List ChunkId) :
    CompactedEvents :=
  { events with temporalRange := upsertEntry key [] (· ++ chunkIds) events.temporalRange }

/-- Every component of a chunk on every timeline, with the range of its rows. -/
def keysOf (c : Chunk) : List (QueryCacheKey × AbsoluteTimeRange) :=
  c.timeRangePerComponent.flatMap fun (timeline, perComponent) =>
    perComponent.map fun (component, timeRange) => (⟨c.entityPath, timeline, component⟩, timeRange)

def addStaticChunk (events : CompactedEvents) (c : Chunk) (chunkIds : List ChunkId) :
    CompactedEvents :=
  c.components.foldl (fun events column => events.addStatic c.entityPath column.component chunkIds)
    events

def addLatestAtChunk (events : CompactedEvents) (c : Chunk) : CompactedEvents :=
  (keysOf c).foldl (fun events (key, timeRange) => events.addLatestAt key timeRange.min) events

def addRangeChunk (events : CompactedEvents) (c : Chunk) (chunkIds : List ChunkId) :
    CompactedEvents :=
  (keysOf c).foldl (fun events (key, _) => events.addRange key chunkIds) events

def compactedFrom : ChunkDirectLineageReport → List ChunkId
  | .compactedFrom chunks => chunks.keys
  | _ => []

/-- What is new in an addition. For a compaction the whole chunk, so that no cache
holds on to the chunks that were taken in. -/
def latestAtChunk (add : ChunkStoreDiffAddition) : Chunk :=
  match add.directLineage with
  | .compactedFrom _ => add.chunkAfterProcessing
  | .splitFrom .. => add.chunkAfterProcessing
  | _ => add.chunkBeforeProcessing

def compact (events : CompactedEvents) : ChunkStoreDiff → CompactedEvents
  | .virtualAddition manifest =>
    let events := manifest.staticMap.foldl (fun events (entityPath, component, chunkId) =>
      events.addStatic entityPath component [chunkId]) events
    manifest.temporalMap.foldl (fun events (entityPath, timeline, component, chunkId, entry) =>
      let key : QueryCacheKey := ⟨entityPath, timeline.name, component⟩
      (events.addLatestAt key entry.timeRange.min).addRange key [chunkId]) events
  | .addition add =>
    let chunk := add.chunkAfterProcessing
    let chunkIds := chunk.id :: compactedFrom add.directLineage
    let events :=
      if add.chunkBeforeProcessing.isStatic then events.addStaticChunk chunk chunkIds else events
    (events.addLatestAtChunk (latestAtChunk add)).addRangeChunk chunk chunkIds
  | .deletion del =>
    let events :=
      if del.chunk.isStatic then events.addStaticChunk del.chunk [del.chunk.id] else events
    (events.addLatestAtChunk del.chunk).addRangeChunk del.chunk [del.chunk.id]

end CompactedEvents

def LatestAtCache.invalidate (cache : LatestAtCache) (time : TimeInt) : LatestAtCache :=
  { cache with pendingInvalidations := cache.pendingInvalidations.insert time }

def RangeCache.invalidate (cache : RangeCache) (chunkIds : List ChunkId) : RangeCache :=
  { cache with pendingInvalidations := cache.pendingInvalidations.insertMany chunkIds }

def noteClear (caches : QueryCache) (entityPath : EntityPath) (component : ComponentIdentifier) :
    QueryCache :=
  if component = clearIsRecursive then
    { caches with mightRequireClearing := caches.mightRequireClearing.insert entityPath }
  else caches

def onStatic (caches : QueryCache)
    (event : (EntityPath × ComponentIdentifier) × List ChunkId) : QueryCache :=
  let ((entityPath, component), chunkIds) := event
  let concerns (key : QueryCacheKey) := key.entityPath = entityPath ∧ key.component = component
  let caches := caches.noteClear entityPath component
  { caches with
    latestAtPerCacheKey := caches.latestAtPerCacheKey.map fun (key, cache) =>
      (key, if concerns key then LatestAtCache.invalidate cache .STATIC else cache)
    rangePerCacheKey := caches.rangePerCacheKey.map fun (key, cache) =>
      (key, if concerns key then RangeCache.invalidate cache chunkIds else cache) }

def onTemporalLatestAt (caches : QueryCache) (event : QueryCacheKey × TimeInt) : QueryCache :=
  let caches := caches.noteClear event.1.entityPath event.1.component
  { caches with
    latestAtPerCacheKey := caches.latestAtPerCacheKey.map fun (key, cache) =>
      (key, if key = event.1 then LatestAtCache.invalidate cache event.2 else cache) }

def onTemporalRange (caches : QueryCache) (event : QueryCacheKey × List ChunkId) : QueryCache :=
  { caches with
    rangePerCacheKey := caches.rangePerCacheKey.map fun (key, cache) =>
      (key, if key = event.1 then RangeCache.invalidate cache event.2 else cache) }

def onEvents (caches : QueryCache) (events : List ChunkStoreDiff) : QueryCache :=
  let compacted := events.foldl CompactedEvents.compact {}
  let caches := compacted.static.foldl onStatic caches
  let caches := compacted.temporalLatestAt.foldl onTemporalLatestAt caches
  compacted.temporalRange.foldl onTemporalRange caches

def clear (_ : QueryCache) : QueryCache := {}

end QueryCache

end DimosViewer
