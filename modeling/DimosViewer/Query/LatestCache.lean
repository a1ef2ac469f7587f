import DimosViewer.Query.Cache
import DimosViewer.Query.LatestLaws

/-!
# Latest-at through the cache

A row that has been found is cached under its data time and under the query time. Tombstones are
looked up first, on the entity and on the entities above it. All units of the caches are made under
one id, `unitId`: nothing reads it.
-/

namespace DimosViewer

open Grouping
open Std (TreeMap TreeSet)

/-- Static data is above everything else. -/
def compareIndices (lhs rhs : TimeInt ×ₗ RowId) : Ordering :=
  let (lhsTime, lhsRowId) := ofLex lhs
  let (rhsTime, rhsRowId) := ofLex rhs
  if lhsTime = .STATIC ∧ rhsTime = .STATIC then compare lhsRowId rhsRowId
  else if rhsTime = .STATIC then .lt
  else if lhsTime = .STATIC then .gt
  else compare lhs rhs

/-- `max_by_key`: of several greatest entries the last one. -/
def maxByKey [LT κ] [DecidableLT κ] (l : List (κ × α)) : Option (κ × α) :=
  l.foldl (fun best entry =>
    match best with
    | none => some entry
    | some best => if entry.1 < best.1 then some best else some entry) none

-- ---------------------------------------------------------------------------
-- One cache
-- ---------------------------------------------------------------------------

def latestUnits (unitId : ChunkId) (query : LatestAtQuery) (component : ComponentIdentifier)
    (chunks : List Chunk) : List ((TimeInt ×ₗ RowId) × UnitChunkShared) :=
  chunks.filterMap fun c => do
    let unit ← c.latestAt unitId query component
    let index ← unit.index query.timeline
    return (index, unit)

namespace LatestAtCache

def handlePendingInvalidation (cache : LatestAtCache) : LatestAtCache :=
  match cache.pendingInvalidations.min? with
  | none => cache
  | some oldestDataTime =>
    let discarded := cache.perQueryTime.filter fun time _ => oldestDataTime ≤ time
    { perQueryTime := cache.perQueryTime.filter fun time _ => time < oldestDataTime
      pendingInvalidations := cache.pendingInvalidations.filter fun dataTime =>
        !(discarded[dataTime]?).all (·.isReference) }

/-- The row, and the ids of the chunks that would be needed to tell. -/
def latestAt (unitId : ChunkId) (cache : LatestAtCache) (store : ChunkStore)
    (query : LatestAtQuery) (entityPath : EntityPath) (component : ComponentIdentifier) :
    LatestAtCache × Option UnitChunkShared × List ChunkId :=
  match cache.perQueryTime[query.at']? with
  | some cached => (cache, some cached.unit, [])
  | none =>
    let results := store.latestAtRelevantChunks .report query entityPath component
    if !results.missingVirtual.isEmpty then (cache, none, results.missingVirtual)
    else
      match maxByKey (latestUnits unitId query component results.chunks) with
      | none => (cache, none, [])
      | some (index, unit) =>
        let dataTime := (ofLex index).1
        let cached := (cache.perQueryTime[dataTime]?).getD ⟨unit, false⟩
        let perQueryTime := cache.perQueryTime.insertIfNew dataTime cached
        let perQueryTime :=
          if query.at' ≠ dataTime ∧ ¬ dataTime.isStatic then
            perQueryTime.insertIfNew query.at' ⟨cached.unit, true⟩
          else perQueryTime
        ({ cache with perQueryTime }, some cached.unit, [])

end LatestAtCache

-- ---------------------------------------------------------------------------
-- All caches
-- ---------------------------------------------------------------------------

def UnitChunkShared.componentMono (unit : UnitChunkShared) (component : ComponentIdentifier) :
    Option Bool :=
  match unit.cell component with
  | some [.boolean b] => some b
  | _ => none

structure LatestAtResults where
  entityPath : EntityPath
  query : LatestAtQuery
  missingVirtual : List ChunkId := []
  minIndex : TimeInt ×ₗ RowId := toLex (.MAX, RowId.MAX)
  maxIndex : TimeInt ×ₗ RowId := toLex (.STATIC, RowId.ZERO)
  components : TreeMap ComponentIdentifier UnitChunkShared := ∅

def LatestAtResults.add (results : LatestAtResults) (component : ComponentIdentifier)
    (index : TimeInt ×ₗ RowId) (chunk : UnitChunkShared) : LatestAtResults :=
  { results with
    minIndex := min results.minIndex index
    maxIndex := max results.maxIndex index
    components := results.components.insert component chunk }

/-- The entity itself, its parent, and so on up to the root. -/
def EntityPath.lineage (entityPath : EntityPath) : List EntityPath :=
  (List.range (entityPath.length + 1)).reverse.map entityPath.take

namespace QueryCache

def lookUp (unitId : ChunkId) (store : ChunkStore) (query : LatestAtQuery)
    (entityPath : EntityPath) (component : ComponentIdentifier) (caches : QueryCache) :
    QueryCache × Option UnitChunkShared × List ChunkId :=
  let key : QueryCacheKey := ⟨entityPath, query.timeline, component⟩
  let cache := ((caches.latestAtPerCacheKey.lookup key).getD {}).handlePendingInvalidation
  let (cache, cached, missing) := cache.latestAt unitId store query entityPath component
  ({ caches with
      latestAtPerCacheKey := upsertEntry key cache (fun _ => cache) caches.latestAtPerCacheKey },
    cached, missing)

/-- What a look-up of tombstones does to the greatest index of a tombstone. A tombstone that is
not loaded must be assumed to shadow everything. -/
def maxClear (entityPath clearEntityPath : EntityPath) (timeline : TimelineName)
    (maxClearIndex : TimeInt ×ₗ RowId) (cached : Option UnitChunkShared)
    (missing : List ChunkId) : TimeInt ×ₗ RowId :=
  match cached with
  | some cached =>
    let foundRecursiveClear := cached.componentMono clearIsRecursive = some true
    if clearEntityPath = entityPath ∨ foundRecursiveClear then
      match cached.index timeline with
      | some index => if compareIndices index maxClearIndex = .gt then index else maxClearIndex
      | none => maxClearIndex
    else maxClearIndex
  | none => if missing.isEmpty then maxClearIndex else toLex (.MAX, RowId.MAX)

def clearStep (unitId : ChunkId) (store : ChunkStore) (query : LatestAtQuery)
    (entityPath : EntityPath) (acc : QueryCache × (TimeInt ×ₗ RowId) × List ChunkId)
    (clearEntityPath : EntityPath) : QueryCache × (TimeInt ×ₗ RowId) × List ChunkId :=
  let (caches, maxClearIndex, missingVirtual) := acc
  let (caches, cached, missing) :=
    caches.lookUp unitId store query clearEntityPath clearIsRecursive
  (caches, maxClear entityPath clearEntityPath query.timeline maxClearIndex cached missing,
    missingVirtual ++ missing)

/-- A row is returned if no tombstone shadows it. Tombstones do not shadow each other. -/
def addResult (timeline : TimelineName) (maxClearIndex : TimeInt ×ₗ RowId)
    (component : ComponentIdentifier) (cached : Option UnitChunkShared) (missing : List ChunkId)
    (results : LatestAtResults) : LatestAtResults :=
  let results := { results with missingVirtual := results.missingVirtual ++ missing }
  match cached.bind fun cached => (cached.index timeline).map fun index => (index, cached) with
  | some (index, cached) =>
    if component = clearIsRecursive ∨ compareIndices index maxClearIndex = .gt then
      results.add component index cached
    else results
  | none => results

def resultStep (unitId : ChunkId) (store : ChunkStore) (query : LatestAtQuery)
    (entityPath : EntityPath) (maxClearIndex : TimeInt ×ₗ RowId)
    (acc : QueryCache × LatestAtResults) (component : ComponentIdentifier) :
    QueryCache × LatestAtResults :=
  let (caches, results) := acc
  let (caches, cached, missing) := caches.lookUp unitId store query entityPath component
  (caches, addResult query.timeline maxClearIndex component cached missing results)

def latestAt (unitId : ChunkId) (caches : QueryCache) (store : ChunkStore) (query : LatestAtQuery)
    (entityPath : EntityPath) (components : List ComponentIdentifier) :
    QueryCache × LatestAtResults :=
  let (caches, maxClearIndex, missingVirtual) :=
    (entityPath.lineage.filter caches.mightRequireClearing.contains).foldl
      (clearStep unitId store query entityPath) (caches, toLex (.MIN, RowId.ZERO), [])
  (components.filter (store.entityHasComponentOnTimeline query.timeline entityPath)).foldl
    (resultStep unitId store query entityPath maxClearIndex)
    (caches, { entityPath, query, missingVirtual })

end QueryCache

end DimosViewer
