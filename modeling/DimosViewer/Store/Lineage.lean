import DimosViewer.Store.Basic

/-!
# Lineage

Where a chunk came from, read off the lineage records.
-/

namespace DimosViewer.ChunkStore

def directLineage (s : ChunkStore) (id : ChunkId) : Option ChunkDirectLineage :=
  s.chunksLineage[id]?

/-- A chunk that was never inserted is a root. -/
def isRootChunk (s : ChunkStore) (id : ChunkId) : Bool :=
  match s.chunksLineage[id]? with
  | none => true
  | some (.rootFromManifest _) => true
  | some .volatile => true
  | some _ => false

def descendsFromASplit (s : ChunkStore) (id : ChunkId) : Bool :=
  match s.chunksLineage[id]? with
  | some (.splitFrom _ _) => true
  | _ => false

/-- Climbs from piece to parent, at most once per lineage record. -/
def descendsFromACompactionIn (s : ChunkStore) : Nat → ChunkId → Bool
  | 0, _ => false
  | fuel + 1, id =>
    match s.chunksLineage[id]? with
    | some (.splitFrom parent _) => s.descendsFromACompactionIn fuel parent
    | some (.compactedFrom _) => true
    | _ => false

def descendsFromACompaction (s : ChunkStore) (id : ChunkId) : Bool :=
  s.descendsFromACompactionIn (s.chunksLineage.size + 1) id

def isPhysical (s : ChunkStore) (id : ChunkId) : Bool :=
  s.physicalChunksPerChunkId.contains id

/-- Follows `leaky_compactions` from a chunk to the first physical one. -/
def physicalCompactionIn (s : ChunkStore) : Nat → ChunkId → Option ChunkId
  | 0, _ => none
  | fuel + 1, id =>
    match s.leakyCompactions[id]? with
    | none => none
    | some compacted =>
      if s.isPhysical compacted then some compacted else s.physicalCompactionIn fuel compacted

/-- Each hop reaches an id drawn later than the one before, so `issued` hops
reach the end. -/
def physicalCompaction (s : ChunkStore) (id : ChunkId) : Option ChunkId :=
  s.physicalCompactionIn (s.issued + 1) id

def collectRootIdsIn (s : ChunkStore) : Nat → ChunkId → List ChunkId
  | 0, _ => []
  | fuel + 1, id =>
    match s.chunksLineage[id]? with
    | some (.splitFrom parent _) => s.collectRootIdsIn fuel parent
    | some (.compactedFrom ids) => ids.flatMap (s.collectRootIdsIn fuel)
    | some (.rootFromManifest _) => [id]
    | some .volatile => [id]
    | none => []

/-- No path through the lineage records is longer than their number. -/
def findRootChunks (s : ChunkStore) (id : ChunkId) : List ChunkId :=
  s.collectRootIdsIn (s.chunksLineage.size + 1) id

def collectPhysicalDescendentsOf (s : ChunkStore) (id : ChunkId) : List ChunkId :=
  if s.isPhysical id then [id]
  else
    match s.danglingSplits[id]? with
    | some splits => splits.filter s.isPhysical
    | none => (s.physicalCompaction id).toList

end DimosViewer.ChunkStore
