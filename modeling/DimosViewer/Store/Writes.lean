import DimosViewer.Store.Election

/-!
# Insertion

A manifest announces virtual chunks. A physical chunk is refused, split,
compacted into a neighbor, or stored as it is.
-/

namespace DimosViewer.ChunkStore

open Std (TreeMap TreeSet)

-- ---------------------------------------------------------------------------
-- Manifests
-- ---------------------------------------------------------------------------

def announceStatic (s : ChunkStore) : EntityPath × ComponentIdentifier × ChunkId → ChunkStore
  | (entityPath, component, id) =>
    { s with
      chunksLineage := s.chunksLineage.insert id (.rootFromManifest true)
      staticChunkIdsPerEntity :=
        OrdMap.upsert s.staticChunkIdsPerEntity entityPath (·.insert component id) }

/-- Both indices get the range of the component. -/
def announceTemporal (s : ChunkStore) : EntityPath × Timeline × ComponentIdentifier × ChunkId ×
    RrdManifestTemporalMapEntry → ChunkStore
  | (entityPath, timeline, component, id, entry) =>
    { s with
      chunksLineage := s.chunksLineage.insert id (.rootFromManifest false)
      temporalChunkIdsPerEntityPerComponent :=
        OrdMap.upsert s.temporalChunkIdsPerEntityPerComponent entityPath fun perTimeline =>
          OrdMap.upsert perTimeline timeline.name fun perComponent =>
            OrdMap.upsert perComponent component (·.insertRange id entry.timeRange)
      temporalChunkIdsPerEntity :=
        OrdMap.upsert s.temporalChunkIdsPerEntity entityPath fun perTimeline =>
          OrdMap.upsert perTimeline timeline.name (·.insertRange id entry.timeRange) }

def insertRrdManifest (s : ChunkStore) (manifest : RrdManifest) :
    ChunkStore × List ChunkStoreDiff :=
  (manifest.temporalMap.foldl announceTemporal (manifest.staticMap.foldl announceStatic s),
    [.virtualAddition manifest])

-- ---------------------------------------------------------------------------
-- Before the insertion
-- ---------------------------------------------------------------------------

/-- Virtual-to-physical replacement: the index entries of the manifest go away. -/
def replaceVirtual (env : Env) (s : ChunkStore) (c : Chunk) : ChunkStore × List ChunkStoreDiff :=
  match s.directLineage c.id with
  | some (.rootFromManifest _) =>
    let (s, deletions) := s.removeChunksDeep env .virtualToPhysicalReplacement unlimited [c]
    (s, deletions.map .deletion)
  | _ => (s, [])

/-- The pieces of an earlier insertion of the same chunk go away. -/
def cleanUpDanglingSplits (env : Env) (s : ChunkStore) (c : Chunk) :
    ChunkStore × List ChunkStoreDiff :=
  match s.danglingSplits[c.id]? with
  | none => (s, [])
  | some splitIds =>
    let s := { s with danglingSplits := s.danglingSplits.erase c.id }
    let (s, deletions) := s.removeChunksDeep env .danglingSplitCleanup unlimited
      (splitIds.filterMap (s.physicalChunksPerChunkId[·]?))
    (s, deletions.map .deletion)

/-- A record that is there is kept. -/
def recordLineage (s : ChunkStore) (id : ChunkId) (lineage : ChunkDirectLineageReport) :
    ChunkStore :=
  { s with chunksLineage := s.chunksLineage.insertIfNew id lineage.toLineage }

-- ---------------------------------------------------------------------------
-- Splitting
-- ---------------------------------------------------------------------------

def splitRound (env : Env) (s : ChunkStore) (n : Nat) : List Chunk → List Chunk × Nat
  | [] => ([], n)
  | piece :: rest =>
    let (pieces, n) :=
      if s.descendsFromACompaction piece.id then ([], n)
      else piece.splitChunkIfNeeded env.sizeBytes env.newId n s.config.split
    let (restPieces, n) := s.splitRound env n rest
    (pieces ++ restPieces, n)

/-- The number of pieces grows in every round but the last one and stays below
the number of rows, which bounds the rounds. -/
def splitRounds (env : Env) (s : ChunkStore) : Nat → Nat → List Chunk → List Chunk × Nat
  | 0, n, pieces => (pieces, n)
  | fuel + 1, n, pieces =>
    let (next, n) := s.splitRound env n pieces
    if next.length = pieces.length then (next, n) else s.splitRounds env fuel n next

/-- A static chunk is never split, nor is one that comes from a split or a
compaction. -/
def splitChunks (env : Env) (s : ChunkStore) (c : Chunk) : List Chunk × Nat :=
  if !c.isStatic && !s.descendsFromASplit c.id && !s.descendsFromACompaction c.id then
    let (pieces, n) := c.splitChunkIfNeeded env.sizeBytes env.newId s.issued s.config.split
    s.splitRounds env c.numRows n pieces
  else ([c], s.issued)

-- ---------------------------------------------------------------------------
-- Static chunks
-- ---------------------------------------------------------------------------

/-- The row id that defends the place of `id` for a component. -/
def defendingRowId (s : ChunkStore) (component : ComponentIdentifier) (id : ChunkId) : RowId :=
  match s.physicalChunksPerChunkId[id]? with
  | none => RowId.ZERO
  | some c =>
    match c.rowIdRangePerComponent.lookup component with
    | none => RowId.ZERO
    | some (_, rowIdMax) => rowIdMax

/-- The static entry of one column, and the chunks overwritten so far with their
smallest row id. -/
def overwriteComponent (c : Chunk) (acc : ChunkStore × TreeMap ChunkId RowId)
    (column : SerializedComponentColumn) : ChunkStore × TreeMap ChunkId RowId :=
  let (s, overwritten) := acc
  let claim : ChunkStore := { s with
    staticChunkIdsPerEntity :=
      OrdMap.upsert s.staticChunkIdsPerEntity c.entityPath (·.insert column.component c.id) }
  if column.listArray.isEmpty then acc
  else
    match c.rowIdRangePerComponent.lookup column.component with
    | none => acc
    | some (_, rowIdMax) =>
      match (s.staticChunkIdsPerEntity.getD c.entityPath ∅)[column.component]? with
      | none => (claim, overwritten)
      | some cur =>
        if s.defendingRowId column.component cur < rowIdMax then
          match (s.physicalChunksPerChunkId[cur]?).bind (·.rowIdMin) with
          | none => (claim, overwritten)
          | some rowIdMin => (claim, overwritten.insert cur rowIdMin)
        else acc

def removeIfDangling (env : Env) (entityPath : EntityPath) (s : ChunkStore)
    (id : ChunkId) (rowIdMin : RowId) : ChunkStore × List ChunkStoreDiff :=
  match s.staticChunkIdsPerEntity[entityPath]? with
  | none => (s, [])
  | some perComponent =>
    if perComponent.values.contains id then (s, [])
    else
      let s := { s with
        physicalChunkIdsPerMinRowId := s.physicalChunkIdsPerMinRowId.erase (toLex (rowIdMin, id)) }
      match s.physicalChunksPerChunkId[id]? with
      | none => (s, [])
      | some removed =>
        let s := { s with physicalChunksPerChunkId := s.physicalChunksPerChunkId.erase id }
        (s.subStaticStats (.fromChunk env removed), [.deletion ⟨removed, .overwrite⟩])

def removeAllDangling (env : Env) (entityPath : EntityPath) (s : ChunkStore) :
    List (ChunkId × RowId) → ChunkStore × List ChunkStoreDiff
  | [] => (s, [])
  | (id, rowIdMin) :: rest =>
    let (s, diffs) := s.removeIfDangling env entityPath id rowIdMin
    let (s, restDiffs) := s.removeAllDangling env entityPath rest
    (s, diffs ++ restDiffs)

def storeStatic (env : Env) (s : ChunkStore) (c : Chunk) (lineage : ChunkDirectLineageReport) :
    ChunkStore × List ChunkStoreDiff :=
  let (s, overwritten) := c.components.foldl (overwriteComponent c) (s, ∅)
  let s := { s with staticChunksStats := s.staticChunksStats + ChunkStoreChunkStats.fromChunk env c }
  let order := (env.hashOrder s.insertId overwritten.keys).filterMap fun id =>
    overwritten[id]?.map (id, ·)
  let (s, deletions) := s.removeAllDangling env c.entityPath order
  (s, .addition ⟨c, c, lineage⟩ :: deletions)

-- ---------------------------------------------------------------------------
-- Temporal chunks
-- ---------------------------------------------------------------------------

def insertPerComponent (index : ChunkIdSetPerTimePerComponentPerTimelinePerEntity) (c : Chunk) :
    ChunkIdSetPerTimePerComponentPerTimelinePerEntity :=
  OrdMap.upsert index c.entityPath <| c.timeRangePerComponent |> OrdMap.upsertAll fun ranges =>
    ranges |> OrdMap.upsertAll fun range p => p.insertRange c.id range

def insertPerEntity (index : ChunkIdSetPerTimePerTimelinePerEntity) (c : Chunk) :
    ChunkIdSetPerTimePerTimelinePerEntity :=
  OrdMap.upsert index c.entityPath <| c.timelines |> OrdMap.upsertAll fun tc p =>
    p.insertRange c.id tc.timeRange

def insertIntoIndices (env : Env) (s : ChunkStore) (c : Chunk) : ChunkStore :=
  { s with
    temporalChunkIdsPerEntityPerComponent :=
      insertPerComponent s.temporalChunkIdsPerEntityPerComponent c
    temporalChunkIdsPerEntity := insertPerEntity s.temporalChunkIdsPerEntity c
    temporalPhysicalChunksStats :=
      s.temporalPhysicalChunksStats + ChunkStoreChunkStats.fromChunk env c }

/-- The chunks that went into a compaction: the incoming one and, if the deep
removal reports it, the elected one. -/
def compactionSources (c : Chunk) (deletions : List ChunkStoreDiffDeletion) :
    TreeMap ChunkId Chunk :=
  deletions.foldl (fun srcs deletion => srcs.insert deletion.chunk.id deletion.chunk)
    ((∅ : TreeMap ChunkId Chunk).insert c.id c)

def recordCompaction (s : ChunkStore) (srcs : TreeMap ChunkId Chunk) (compacted : ChunkId) :
    ChunkStore :=
  { s with
    leakyCompactions := srcs.keys.foldl (·.insert · compacted) s.leakyCompactions
    chunksLineage := s.chunksLineage.insert compacted (.compactedFrom srcs.keys) }

/-- Puts a compacted chunk in the place of the elected one. The removal is deep,
the elected chunk must not linger in the indices. -/
def replaceElected (env : Env) (s : ChunkStore) (elected compacted : Chunk) :
    ChunkStore × List ChunkStoreDiffDeletion :=
  (s.insertIntoIndices env compacted).removeChunksDeep env .compaction unlimited [elected]

def compactInto (env : Env) (s : ChunkStore) (c elected compacted : Chunk) :
    ChunkStore × ChunkStoreDiff :=
  let (s, deletions) := s.replaceElected env elected compacted
  let srcs := compactionSources c deletions
  (s.recordCompaction srcs compacted.id, .addition ⟨c, compacted, .compactedFrom srcs⟩)

/-- Returns the chunk to be made physical along with its event. -/
def storeTemporal (env : Env) (s : ChunkStore) (c : Chunk) (lineage : ChunkDirectLineageReport) :
    ChunkStore × Except ChunkStoreError (Chunk × List ChunkStoreDiff) :=
  match s.findAndElectCompactionCandidate env c with
  | none => (s.insertIntoIndices env c, .ok (c, [.addition ⟨c, c, lineage⟩]))
  | some elected =>
    match Chunk.concatAndSort env.newId s.issued elected c with
    | .error e => (s, .error (.chunk e))
    | .ok (compacted, n) =>
      let (s, diff) := { s with issued := n }.compactInto env c elected compacted
      (s, .ok (compacted, [diff]))

-- ---------------------------------------------------------------------------
-- Physical insertion
-- ---------------------------------------------------------------------------

def insertPhysical (s : ChunkStore) (c : Chunk) : ChunkStore :=
  { s with
    physicalChunksPerChunkId := s.physicalChunksPerChunkId.insert c.id c
    physicalChunkIdsPerMinRowId :=
      match c.rowIdMin with
      | none => s.physicalChunkIdsPerMinRowId
      | some rowIdMin => s.physicalChunkIdsPerMinRowId.insert (toLex (rowIdMin, c.id))
    archive := s.archive.insert c.id c }

def storeWhole (env : Env) (s : ChunkStore) (c : Chunk) (lineage : ChunkDirectLineageReport) :
    ChunkStore × Except ChunkStoreError (List ChunkStoreDiff) :=
  let s := { s with insertId := s.insertId + 1 }
  if c.isStatic then
    let (s, diffs) := s.storeStatic env c lineage
    (s.insertPhysical c, .ok diffs)
  else
    match s.storeTemporal env c lineage with
    | (s, .error e) => (s, .error e)
    | (s, .ok (stored, diffs)) => (s.insertPhysical stored, .ok diffs)

/-- The event of a piece names the chunk that was split. -/
def patchBeforeProcessing (c : Chunk) : ChunkStoreDiff → ChunkStoreDiff
  | .addition add => .addition { add with chunkBeforeProcessing := c }
  | diff => diff

def insertPieces (insert : ChunkStore → Chunk → ChunkDirectLineageReport →
      ChunkStore × Except ChunkStoreError (List ChunkStoreDiff))
    (c : Chunk) (pieces : List Chunk) (s : ChunkStore) :
    List Chunk → ChunkStore × Except ChunkStoreError (List ChunkStoreDiff)
  | [] => (s, .ok [])
  | piece :: rest =>
    let siblings := pieces.filter (·.id ≠ piece.id)
    match insert s piece (.splitFrom c siblings) with
    | (s, .error e) => (s, .error e)
    | (s, .ok diffs) =>
      match insertPieces insert c pieces s rest with
      | (s, .error e) => (s, .error e)
      | (s, .ok restDiffs) => (s, .ok (diffs.map (patchBeforeProcessing c) ++ restDiffs))

/-- Why nothing is stored: there is no data, the chunk is there already, its rows
are unsorted, or a physical chunk descends from a compaction that took it in. -/
def refusal (s : ChunkStore) (c : Chunk) :
    Option (Except ChunkStoreError (List ChunkStoreDiff)) :=
  if c.isEmpty then some (.ok [])
  else if c.components.isEmpty then some (.ok [])
  else if s.isPhysical c.id then some (.ok [])
  else if !c.isSorted then some (.error .unsortedChunk)
  else if (s.physicalCompaction c.id).isSome then some (.ok [])
  else none

/-- What goes on before the split: what an earlier insertion or a manifest left of
the chunk goes away, and its lineage is recorded. -/
def prepare (env : Env) (s : ChunkStore) (c : Chunk) (lineage : ChunkDirectLineageReport) :
    ChunkStore × List ChunkStoreDiff :=
  let (s, replaced) := s.replaceVirtual env c
  let (s, cleaned) := s.cleanUpDanglingSplits env c
  (s.recordLineage c.id lineage, replaced ++ cleaned)

/-- The pieces of a split are inserted by the same function. They are not split
again, so one level of recursion is enough. -/
def insertChunkImpl (env : Env) : Nat → ChunkStore → Chunk → ChunkDirectLineageReport →
    ChunkStore × Except ChunkStoreError (List ChunkStoreDiff)
  | depth, s, c, lineage =>
    match s.refusal c with
    | some result => (s, result)
    | none =>
      let (s, prepared) := s.prepare env c lineage
      let (pieces, n) := s.splitChunks env c
      let s := { s with issued := n }
      let (s, result) :=
        if 1 < pieces.length then
          let s := { s with danglingSplits := s.danglingSplits.insert c.id (pieces.map (·.id)) }
          match depth with
          | 0 => (s, .ok [])
          | depth + 1 => insertPieces (insertChunkImpl env depth) c pieces s pieces
        else s.storeWhole env c lineage
      (s, result.map fun diffs => prepared ++ diffs)

def insertChunk (env : Env) (s : ChunkStore) (c : Chunk) :
    ChunkStore × Except ChunkStoreError (List ChunkStoreDiff) :=
  if !s.isRootChunk c.id then (s, .ok [])
  else s.insertChunkImpl env 1 c .volatile

-- ---------------------------------------------------------------------------
-- Entity drop
-- ---------------------------------------------------------------------------

/-- A `BTreeSet` collected from a list, in order. -/
def sortedIds (ids : List ChunkId) : List ChunkId := (TreeSet.ofList ids).toList

def forgetMinRowId (s : ChunkStore) (id : ChunkId) : ChunkStore :=
  match (s.physicalChunksPerChunkId[id]?).bind (·.rowIdMin) with
  | none => s
  | some rowIdMin =>
    { s with
      physicalChunkIdsPerMinRowId := s.physicalChunkIdsPerMinRowId.erase (toLex (rowIdMin, id)) }

def dropPhysical (sub : ChunkStore → Chunk → ChunkStore) (s : ChunkStore) :
    List ChunkId → ChunkStore × List Chunk
  | [] => (s, [])
  | id :: rest =>
    match s.physicalChunksPerChunkId[id]? with
    | none => s.dropPhysical sub rest
    | some c =>
      let s := { s with physicalChunksPerChunkId := s.physicalChunksPerChunkId.erase id }
      let (s, chunks) := (sub s c).dropPhysical sub rest
      (s, c :: chunks)

def staticIdsOf (s : ChunkStore) (entityPath : EntityPath) : List ChunkId :=
  sortedIds (s.staticChunkIdsPerEntity.getD entityPath ∅).values

def temporalIdsOf (s : ChunkStore) (entityPath : EntityPath) : List ChunkId :=
  sortedIds ((s.temporalChunkIdsPerEntity.getD entityPath ∅).values.flatMap fun p =>
    p.perStartTime.values.flatMap (·.toList))

def eraseEntity (s : ChunkStore) (entityPath : EntityPath) : ChunkStore :=
  { s with
    staticChunkIdsPerEntity := s.staticChunkIdsPerEntity.erase entityPath
    temporalChunkIdsPerEntityPerComponent :=
      s.temporalChunkIdsPerEntityPerComponent.erase entityPath
    temporalChunkIdsPerEntity := s.temporalChunkIdsPerEntity.erase entityPath }

def dropEntityPath (env : Env) (s : ChunkStore) (entityPath : EntityPath) :
    ChunkStore × List ChunkStoreDiff :=
  let staticIds := s.staticIdsOf entityPath
  let temporalIds := s.temporalIdsOf entityPath
  let s := s.eraseEntity entityPath
  let s := temporalIds.foldl forgetMinRowId (staticIds.foldl forgetMinRowId s)
  let (s, staticChunks) := s.dropPhysical (fun s c => s.subStaticStats (.fromChunk env c)) staticIds
  let (s, temporalChunks) :=
    s.dropPhysical (fun s c => s.subTemporalStats (.fromChunk env c)) temporalIds
  (s, (staticChunks ++ temporalChunks).map fun c => .deletion ⟨c, .explicitDrop⟩)

end DimosViewer.ChunkStore
