import DimosViewer.Store.Removal

/-!
# Election of a compaction candidate

Every temporal neighbor of the incoming chunk earns points on each timeline and
component. The neighbor with the most points is elected.
-/

namespace DimosViewer

open Std (TreeMap)

namespace ChunkIdSetPerTime

/-- `range(..time).next_back()`. -/
def lastBefore (p : ChunkIdSetPerTime) (time : TimeInt) : Option (TimeInt × ChunkIdSet) :=
  (p.perStartTime.toList.filter (·.1 < time)).getLast?

/-- `range(time..).next()`. -/
def firstFrom (p : ChunkIdSetPerTime) (time : TimeInt) : Option (TimeInt × ChunkIdSet) :=
  (p.perStartTime.toList.filter (time ≤ ·.1)).head?

/-- The neighbors of a range, each with its weight. A shared start counts twice. -/
def neighbors (p : ChunkIdSetPerTime) (range : AbsoluteTimeRange) : List (ChunkId × Nat) :=
  let ids (entry : Option (TimeInt × ChunkIdSet)) : List ChunkId :=
    entry.elim [] (·.2.toList)
  (ids (p.lastBefore range.min)).map (·, 1) ++
  (ids (p.firstFrom range.max.inc)).map (·, 1) ++
  ((p.perStartTime.getD range.min ∅).toList).map (·, 2)

end ChunkIdSetPerTime

namespace ChunkStore

/-- A chunk beyond the thresholds on its own is never compacted. -/
def isBelowThresholds (env : Env) (s : ChunkStore) (c : Chunk) : Bool :=
  decide (env.sizeBytes c ≤ s.config.chunkMaxBytes) &&
  (if c.isTimeSorted then decide (c.numRows ≤ s.config.chunkMaxRows)
    else decide (c.numRows ≤ s.config.chunkMaxRowsIfUnsorted))

/-- `check_if_chunk_below_threshold`: the points for one encounter. -/
def candidatePoints (env : Env) (s : ChunkStore) (c : Chunk) (candidateId : ChunkId) : Nat :=
  match s.physicalChunksPerChunkId[candidateId]? with
  | none => 0
  | some candidate =>
    if c.id = candidateId then 0
    else if !c.concatenable candidate then 0
    else if s.descendsFromASplit candidateId then 0
    else
      let totalRows := c.numRows + candidate.numRows
      let isBelowBytesThreshold :=
        env.sizeBytes c + env.sizeBytes candidate ≤ s.config.chunkMaxBytes
      let isBelowRowsThreshold :=
        if candidate.isTimeSorted then totalRows ≤ s.config.chunkMaxRows
        else totalRows ≤ s.config.chunkMaxRowsIfUnsorted
      if isBelowBytesThreshold ∧ isBelowRowsThreshold then candidate.numRows else 0

def encounters (s : ChunkStore) (c : Chunk) : List (ChunkId × Nat) :=
  match s.temporalChunkIdsPerEntityPerComponent[c.entityPath]? with
  | none => []
  | some perTimeline =>
    c.timeRangePerComponent.flatMap fun (timeline, ranges) =>
      match perTimeline[timeline]? with
      | none => []
      | some perComponent =>
        ranges.flatMap fun (component, range) =>
          match perComponent[component]? with
          | none => []
          | some p => p.neighbors range

def candidates (env : Env) (s : ChunkStore) (c : Chunk) : TreeMap ChunkId Nat :=
  (s.encounters c).foldl
    (fun points (id, weight) => OrdMap.upsert points id (· + s.candidatePoints env c id * weight)) ∅

def findAndElectCompactionCandidate (env : Env) (s : ChunkStore) (c : Chunk) : Option Chunk :=
  if s.descendsFromASplit c.id then none
  else if !s.isBelowThresholds env c then none
  else
    let candidates := s.candidates env c
    let unordered := (env.hashOrder s.insertId candidates.keys).map fun id =>
      (id, candidates.getD id 0)
    let sorted := (unordered.insertionSort fun a b => a.2 ≤ b.2).reverse
    (sorted.filter (0 < ·.2)).findSome? fun (id, _) => s.physicalChunksPerChunkId[id]?

end ChunkStore

end DimosViewer
