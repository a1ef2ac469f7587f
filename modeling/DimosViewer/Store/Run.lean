import DimosViewer.Store.Gc
import DimosViewer.Store.Query
import DimosViewer.Store.Writes

/-!
# Runs of a store

To drop a time range, chunks that lie in it are removed. A chunk that sticks out is removed as
well, and what it has outside of the range is inserted again as new chunks. The operations that
change a store are then one step function.
-/

namespace DimosViewer.ChunkStore

-- ---------------------------------------------------------------------------
-- Dropping a time range
-- ---------------------------------------------------------------------------

/-- What to do with one chunk: whether it goes, and the parts of it that stay. -/
def planDrop (newId : Nat → ChunkId) (n : Nat) (timeline : TimelineName)
    (dropRange : AbsoluteTimeRange) (c : Chunk) : Bool × List Chunk × Nat :=
  match c.timeline? timeline with
  | none => (false, [], n)
  | some tc =>
    if dropRange.containsRange tc.timeRange then (true, [], n)
    else if dropRange.intersects tc.timeRange then
      let (sorted, n) := c.sortedByTimelineIfUnsorted newId n timeline
      let times := (sorted.timeline? timeline).elim [] (·.times)
      let minIdx := partitionPoint (· < dropRange.min) times
      let maxIdx := partitionPoint (· ≤ dropRange.max) times
      if minIdx < maxIdx then
        let (before, n) :=
          if 0 < minIdx then ([sorted.rowSliced (newId n) 0 minIdx], n + 1) else ([], n)
        let (after, n) :=
          if maxIdx < sorted.numRows then
            ([sorted.rowSliced (newId n) maxIdx (sorted.numRows - maxIdx)], n + 1)
          else ([], n)
        (true, before ++ after, n)
      else (false, [], n)
    else (false, [], n)

def planDrops (newId : Nat → ChunkId) (timeline : TimelineName) (dropRange : AbsoluteTimeRange)
    (n : Nat) : List Chunk → List Chunk × List Chunk × Nat
  | [] => ([], [], n)
  | c :: rest =>
    let (drop, new, n) := planDrop newId n timeline dropRange c
    let (restDrops, restNews, n) := planDrops newId timeline dropRange n rest
    (if drop then c :: restDrops else restDrops, new ++ restNews, n)

def dropChunks (env : Env) (deepRemoval : Bool) (reason : ChunkDeletionReason) (s : ChunkStore) :
    List Chunk → ChunkStore × List ChunkStoreDiffDeletion
  | [] => (s, [])
  | c :: rest =>
    let (s, deletions) :=
      if deepRemoval then s.removeChunksDeep env reason unlimited [c]
      else s.removeChunksShallow env reason unlimited [c]
    let (s, restDeletions) := s.dropChunks env deepRemoval reason rest
    (s, deletions ++ restDeletions)

/-- `insert_chunk` does not fail on these chunks, an error would panic. -/
def reinsertChunks (env : Env) (s : ChunkStore) : List Chunk → ChunkStore × List ChunkStoreDiff
  | [] => (s, [])
  | c :: rest =>
    let (c, n) := c.sortIfUnsorted env.newId s.issued
    let (s, result) := { s with issued := n }.insertChunk env c
    let (s, restDiffs) := s.reinsertChunks env rest
    (s, result.toOption.getD [] ++ restDiffs)

def dropTimeRange (env : Env) (s : ChunkStore) (timeline : TimelineName)
    (dropRange : AbsoluteTimeRange) (deepRemoval : Bool) (reason : ChunkDeletionReason) :
    ChunkStore × List ChunkStoreDiff :=
  if dropRange.max < dropRange.min then (s, [])
  else
    let (drops, news, n) :=
      planDrops env.newId timeline dropRange s.issued s.physicalChunksPerChunkId.values
    let (s, deletions) := { s with issued := n }.dropChunks env deepRemoval reason drops
    let (s, diffs) := s.reinsertChunks env news
    (s, deletions.map .deletion ++ diffs)

-- ---------------------------------------------------------------------------
-- Operations
-- ---------------------------------------------------------------------------

inductive Op where
  | insertChunk (c : Chunk)
  | insertRrdManifest (manifest : RrdManifest)
  | gc (options : GarbageCollectionOptions) (clock : GcClock)
  | dropTimeRange (timeline : TimelineName) (dropRange : AbsoluteTimeRange) (deepRemoval : Bool)
      (reason : ChunkDeletionReason)
  | dropEntityPath (entityPath : EntityPath)

/-- The store after one operation and the events it returned. An insertion that
fails returns none. -/
def apply (env : Env) (s : ChunkStore) : Op → ChunkStore × List ChunkStoreDiff
  | .insertChunk c =>
    let (s, result) := s.insertChunk env c
    (s, result.toOption.getD [])
  | .insertRrdManifest manifest => s.insertRrdManifest manifest
  | .gc options clock =>
    let (s, diffs, _) := s.gc env options clock
    (s, diffs)
  | .dropTimeRange timeline dropRange deepRemoval reason =>
    s.dropTimeRange env timeline dropRange deepRemoval reason
  | .dropEntityPath entityPath => s.dropEntityPath env entityPath

def run (env : Env) (config : ChunkStoreConfig) (ops : List Op) : ChunkStore :=
  ops.foldl (fun s op => (s.apply env op).1) (ChunkStore.new config)

end DimosViewer.ChunkStore
