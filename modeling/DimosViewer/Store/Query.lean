import DimosViewer.Store.Basic

/-!
# Queries

A query returns the relevant physical chunks and the relevant ids that are not
physical. The debug assertions on its results are left out.
-/

namespace DimosViewer

open Std (TreeMap)

structure LatestAtQuery where
  timeline : TimelineName
  at' : TimeInt
deriving DecidableEq

structure RangeQuery where
  timeline : TimelineName
  range : AbsoluteTimeRange
  includeExtendedBounds : Bool
  keepExtraTimelines : Bool := false
  keepExtraComponents : Bool := false
deriving DecidableEq

/-- Where the call panics, the other fields mean nothing. -/
structure QueryResults where
  chunks : List Chunk
  missingVirtual : List ChunkId
  panicked : Bool
deriving DecidableEq

inductive ChunkTrackingMode where
  | ignore
  | report
  | panicOnMissing
deriving DecidableEq, Repr

namespace ChunkIdSetPerTime

def entriesUpTo (p : ChunkIdSetPerTime) (time : TimeInt) : List (TimeInt × ChunkIdSet) :=
  p.perStartTime.toList.filter (·.1 ≤ time)

/-- The greatest start up to `time`, which is `range(..=time).next_back()`. -/
def lastStart (p : ChunkIdSetPerTime) (time : TimeInt) : Option TimeInt :=
  (p.entriesUpTo time).getLast?.map Prod.fst

end ChunkIdSetPerTime

namespace ChunkStore

/-- The walk goes backwards from the greatest start up to the query time and
stops at the first key further away from it than the longest interval. -/
def latestAt (query : LatestAtQuery) (p : ChunkIdSetPerTime) : List ChunkId :=
  match p.lastStart query.at' with
  | none => []
  | some upperBound =>
    let lowerBound := saturatingSub upperBound.asI64 (saturatingCast p.maxIntervalLength)
    ((p.entriesUpTo query.at').reverse.takeWhile (lowerBound ≤ ·.1.asI64)).flatMap (·.2.toList)

def rangeBounds (query : RangeQuery) (p : ChunkIdSetPerTime) : TimeInt × TimeInt :=
  let queryMin :=
    if query.includeExtendedBounds then .newTemporal (saturatingSub query.range.min.asI64 1)
    else query.range.min
  let queryMax :=
    if query.includeExtendedBounds then .newTemporal (min i64Max (query.range.max.asI64 + 1))
    else query.range.max
  let queryMin : TimeInt :=
    .newTemporal (saturatingSub queryMin.asI64 (saturatingCast p.maxIntervalLength))
  let startTime := (p.lastStart queryMin).getD .MIN
  let endTime := (p.lastStart queryMax).getD startTime
  (startTime, max startTime endTime)

def range (query : RangeQuery) (perTimes : List ChunkIdSetPerTime) : List ChunkId :=
  perTimes.flatMap fun p =>
    let (startTime, endTime) := rangeBounds query p
    (p.perStartTime.toList.filter fun entry =>
      startTime ≤ entry.1 && entry.1 ≤ endTime).flatMap (·.2.toList)

def fromChunkIds (s : ChunkStore) (reportMode : ChunkTrackingMode) (ids : List ChunkId) :
    QueryResults where
  chunks := ids.filterMap (s.physicalChunksPerChunkId[·]?)
  missingVirtual :=
    if reportMode = .report then ids.filter (!s.physicalChunksPerChunkId.contains ·) else []
  panicked := reportMode = .panicOnMissing && ids.any (!s.physicalChunksPerChunkId.contains ·)

def staticChunkId? (s : ChunkStore) (entityPath : EntityPath) (component : ComponentIdentifier) :
    Option ChunkId :=
  (s.staticChunkIdsPerEntity.getD entityPath ∅)[component]?

def perTimeOfComponent? (s : ChunkStore) (entityPath : EntityPath) (timeline : TimelineName)
    (component : ComponentIdentifier) : Option ChunkIdSetPerTime :=
  ((s.temporalChunkIdsPerEntityPerComponent.getD entityPath ∅).getD timeline ∅)[component]?

def perTimeOfEntity? (s : ChunkStore) (entityPath : EntityPath) (timeline : TimelineName) :
    Option ChunkIdSetPerTime :=
  (s.temporalChunkIdsPerEntity.getD entityPath ∅)[timeline]?

def latestAtRelevantChunks (s : ChunkStore) (reportMode : ChunkTrackingMode)
    (query : LatestAtQuery) (entityPath : EntityPath) (component : ComponentIdentifier) :
    QueryResults :=
  match s.staticChunkId? entityPath component with
  | some staticChunkId => s.fromChunkIds reportMode [staticChunkId]
  | none =>
    s.fromChunkIds reportMode <|
      ((s.perTimeOfComponent? entityPath query.timeline component).map (latestAt query)).getD []

def nonStaticPerTimes (s : ChunkStore) (entityPath : EntityPath) (timeline : TimelineName) :
    List ChunkIdSetPerTime :=
  ((((s.temporalChunkIdsPerEntityPerComponent.getD entityPath ∅).getD timeline ∅).toList.filter
    fun (component, _) => (s.staticChunkId? entityPath component).isNone).map Prod.snd)

def unique (ids : List ChunkId) : List ChunkId :=
  ids.foldl (fun acc id => if acc.contains id then acc else acc ++ [id]) []

def latestAtRelevantChunksForAllComponents (s : ChunkStore) (reportMode : ChunkTrackingMode)
    (query : LatestAtQuery) (entityPath : EntityPath) (includeStatic : Bool) : QueryResults :=
  s.fromChunkIds reportMode <|
    if includeStatic then
      unique ((s.staticChunkIdsPerEntity.getD entityPath ∅).values ++
        (s.nonStaticPerTimes entityPath query.timeline).flatMap (latestAt query))
    else
      ((s.perTimeOfEntity? entityPath query.timeline).map (latestAt query)).getD []

def rangeRelevantChunks (s : ChunkStore) (reportMode : ChunkTrackingMode) (query : RangeQuery)
    (entityPath : EntityPath) (component : ComponentIdentifier) : QueryResults :=
  match s.staticChunkId? entityPath component with
  | some staticChunkId => s.fromChunkIds reportMode [staticChunkId]
  | none =>
    let results := s.fromChunkIds reportMode <|
      range query (s.perTimeOfComponent? entityPath query.timeline component).toList
    { results with
      chunks := results.chunks.filter fun c =>
        match c.timeline? query.timeline with
        | none => false
        | some tc =>
          match (tc.timeRangePerComponent c.components).lookup component with
          | none => false
          | some timeRange => timeRange.intersects query.range }

def rangeRelevantChunksForAllComponents (s : ChunkStore) (reportMode : ChunkTrackingMode)
    (query : RangeQuery) (entityPath : EntityPath) (includeStatic : Bool) : QueryResults :=
  let results := s.fromChunkIds reportMode <|
    if includeStatic then
      unique ((s.staticChunkIdsPerEntity.getD entityPath ∅).values ++
        range query (s.nonStaticPerTimes entityPath query.timeline))
    else range query (s.perTimeOfEntity? entityPath query.timeline).toList
  { results with
    chunks := results.chunks.filter fun c =>
      (c.isStatic && includeStatic) ||
      match c.timeline? query.timeline with
      | none => false
      | some tc => tc.timeRange.intersects query.range }

end ChunkStore

end DimosViewer
