import DimosViewer.Store.Lineage

/-!
# Removal of chunks

The shallow removal takes chunks out of the physical store and keeps their index
entries. The deep removal sweeps the index entries as well. Only the shallow
part looks at the clock.
-/

namespace DimosViewer.ChunkStore

open Std (TreeMap)

-- ---------------------------------------------------------------------------
-- Shallow removal
-- ---------------------------------------------------------------------------

/-- One round of `remove_chunks_shallow`. The row id comes from the chunk that
was passed in, the deletion carries the one that was stored. -/
def removeShallow (env : Env) (reason : ChunkDeletionReason) (s : ChunkStore) (c : Chunk) :
    ChunkStore × Option ChunkStoreDiffDeletion :=
  let s :=
    match c.rowIdMin with
    | none => s
    | some rowIdMin =>
      { s with
        physicalChunkIdsPerMinRowId := s.physicalChunkIdsPerMinRowId.erase (toLex (rowIdMin, c.id)) }
  match s.physicalChunksPerChunkId[c.id]? with
  | none => (s, none)
  | some stored =>
    let s := { s with physicalChunksPerChunkId := s.physicalChunksPerChunkId.erase c.id }
    (s.subTemporalStats (.fromChunk env stored), some ⟨stored, reason⟩)

/-- `exhausted k` tells whether the budget is used up when the clock is read
after the removal number `k`. -/
def removeChunksShallow (env : Env) (reason : ChunkDeletionReason) (exhausted : Nat → Bool)
    (s : ChunkStore) : List Chunk → ChunkStore × List ChunkStoreDiffDeletion
  | [] => (s, [])
  | c :: rest =>
    match s.removeShallow env reason c with
    | (s, none) => s.removeChunksShallow env reason exhausted rest
    | (s, some deletion) =>
      if exhausted 0 then (s, [deletion])
      else
        let (s, deletions) := s.removeChunksShallow env reason (fun k => exhausted (k + 1)) rest
        (s, deletion :: deletions)

-- ---------------------------------------------------------------------------
-- Deep removal
-- ---------------------------------------------------------------------------

def removePerComponent (index : ChunkIdSetPerTimePerComponentPerTimelinePerEntity) (c : Chunk) :
    ChunkIdSetPerTimePerComponentPerTimelinePerEntity :=
  index.modify c.entityPath <| c.timeRangePerComponent |> OrdMap.modifyAll fun ranges =>
    ranges |> OrdMap.modifyAll fun range p => p.removeRange c.id range

def removePerEntity (index : ChunkIdSetPerTimePerTimelinePerEntity) (c : Chunk) :
    ChunkIdSetPerTimePerTimelinePerEntity :=
  index.modify c.entityPath <| c.timelines |> OrdMap.modifyAll fun tc p =>
    p.removeRange c.id tc.timeRange

def removeFromIndices (s : ChunkStore) (c : Chunk) : ChunkStore :=
  { s with
    temporalChunkIdsPerEntityPerComponent :=
      removePerComponent s.temporalChunkIdsPerEntityPerComponent c
    temporalChunkIdsPerEntity := removePerEntity s.temporalChunkIdsPerEntity c }

/-- `was_removed`: some index of the chunk has a key at one end of its range. -/
def wasRemoved (s : ChunkStore) (c : Chunk) : Bool :=
  (c.timeRangePerComponent.any fun (timeline, ranges) => ranges.any fun (component, range) =>
    (((s.temporalChunkIdsPerEntityPerComponent.getD c.entityPath ∅).getD timeline ∅).getD
      component default).hasKeys range) ||
  c.timelines.any fun (timeline, tc) =>
    ((s.temporalChunkIdsPerEntity.getD c.entityPath ∅).getD timeline default).hasKeys tc.timeRange

def sweepIndices (reason : ChunkDeletionReason) (s : ChunkStore) :
    List Chunk → ChunkStore × List ChunkStoreDiffDeletion
  | [] => (s, [])
  | c :: rest =>
    let (s', deletions) := (s.removeFromIndices c).sweepIndices reason rest
    (s', if s.wasRemoved c then ⟨c, reason⟩ :: deletions else deletions)

/-- The deletions of the shallow part are dropped, the budget has no say in the
sweep of the indices. -/
def removeChunksDeep (env : Env) (reason : ChunkDeletionReason) (exhausted : Nat → Bool)
    (s : ChunkStore) (chunks : List Chunk) : ChunkStore × List ChunkStoreDiffDeletion :=
  (s.removeChunksShallow env reason exhausted chunks).1.sweepIndices reason chunks

def unlimited : Nat → Bool := fun _ => false

end DimosViewer.ChunkStore
