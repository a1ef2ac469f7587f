import DimosViewer.OrdMap
import DimosViewer.Chunk.Merge

/-!
# The state of the chunk store

Physical chunks, their order by smallest row id, the lineage records, and the
three indices: static chunks per component, temporal chunks per component and
temporal chunks per entity. The indices list virtual chunks as well.

The store, its queries and the caches over them are those of a build without debug
assertions. What a debug build asserts about the lineage is in the modules on lineage.
-/

namespace DimosViewer

open Std (TreeMap TreeSet)

-- ---------------------------------------------------------------------------
-- What the store takes from its surroundings
-- ---------------------------------------------------------------------------

/-- `sizeBytes` is `total_size_bytes`, `newId n` the `n`-th result of
`ChunkId::new`, and `hashOrder` the order in which a hash map keyed by chunk ids
is walked during the insertion with the given number. -/
structure Env where
  sizeBytes : Chunk → Nat
  newId : Nat → ChunkId
  newId_injective : Function.Injective newId
  hashOrder : Nat → List ChunkId → List ChunkId
  hashOrder_perm : ∀ insertId ids, (hashOrder insertId ids).Perm ids

structure ChunkStoreConfig where
  chunkMaxBytes : Nat
  chunkMaxRows : Nat
  chunkMaxRowsIfUnsorted : Nat
deriving DecidableEq, Repr

namespace ChunkStoreConfig

def DEFAULT : ChunkStoreConfig := ⟨12 * 8 * 4096, 4096, 1024⟩

def COMPACTION_DISABLED : ChunkStoreConfig := ⟨0, 0, 0⟩

def split (config : ChunkStoreConfig) : ChunkSplitConfig :=
  ⟨config.chunkMaxBytes, config.chunkMaxRows, config.chunkMaxRowsIfUnsorted⟩

end ChunkStoreConfig

-- ---------------------------------------------------------------------------
-- Chunk ids per time
-- ---------------------------------------------------------------------------

abbrev ChunkIdSet := TreeSet ChunkId

/-- `maxIntervalLength` is only ever raised. -/
structure ChunkIdSetPerTime where
  maxIntervalLength : Nat := 0
  perStartTime : TreeMap TimeInt ChunkIdSet := ∅
  perEndTime : TreeMap TimeInt ChunkIdSet := ∅

namespace ChunkIdSetPerTime

instance : Inhabited ChunkIdSetPerTime := ⟨{}⟩

def insertRange (p : ChunkIdSetPerTime) (id : ChunkId) (range : AbsoluteTimeRange) :
    ChunkIdSetPerTime where
  maxIntervalLength := max p.maxIntervalLength range.absLength
  perStartTime := OrdMap.insertAt p.perStartTime range.min id
  perEndTime := OrdMap.insertAt p.perEndTime range.max id

/-- Takes the id out of the two sets. The keys stay, also over empty sets. -/
def removeRange (p : ChunkIdSetPerTime) (id : ChunkId) (range : AbsoluteTimeRange) :
    ChunkIdSetPerTime where
  maxIntervalLength := p.maxIntervalLength
  perStartTime := OrdMap.eraseAt p.perStartTime range.min id
  perEndTime := OrdMap.eraseAt p.perEndTime range.max id

/-- `was_removed`: one of the two keys is there, whatever its set holds. -/
def hasKeys (p : ChunkIdSetPerTime) (range : AbsoluteTimeRange) : Bool :=
  p.perStartTime.contains range.min || p.perEndTime.contains range.max

end ChunkIdSetPerTime

abbrev ChunkIdSetPerTimePerComponent := TreeMap ComponentIdentifier ChunkIdSetPerTime
abbrev ChunkIdSetPerTimePerComponentPerTimeline :=
  TreeMap TimelineName ChunkIdSetPerTimePerComponent
abbrev ChunkIdSetPerTimePerComponentPerTimelinePerEntity :=
  TreeMap EntityPath ChunkIdSetPerTimePerComponentPerTimeline
abbrev ChunkIdPerComponent := TreeMap ComponentIdentifier ChunkId
abbrev ChunkIdPerComponentPerEntity := TreeMap EntityPath ChunkIdPerComponent
abbrev ChunkIdSetPerTimePerTimeline := TreeMap TimelineName ChunkIdSetPerTime
abbrev ChunkIdSetPerTimePerTimelinePerEntity := TreeMap EntityPath ChunkIdSetPerTimePerTimeline

-- ---------------------------------------------------------------------------
-- Statistics
-- ---------------------------------------------------------------------------

structure ChunkStoreChunkStats where
  numChunks : Nat := 0
  totalSizeBytes : Nat := 0
  numRows : Nat := 0
  numEvents : Nat := 0
deriving DecidableEq, Repr, Inhabited

namespace ChunkStoreChunkStats

def fromChunk (env : Env) (c : Chunk) : ChunkStoreChunkStats :=
  ⟨1, env.sizeBytes c, c.numRows, c.numEventsCumulative⟩

instance : Add ChunkStoreChunkStats where
  add a b := ⟨a.numChunks + b.numChunks, a.totalSizeBytes + b.totalSizeBytes,
    a.numRows + b.numRows, a.numEvents + b.numEvents⟩

instance : Sub ChunkStoreChunkStats where
  sub a b := ⟨a.numChunks - b.numChunks, a.totalSizeBytes - b.totalSizeBytes,
    a.numRows - b.numRows, a.numEvents - b.numEvents⟩

instance : LE ChunkStoreChunkStats where
  le a b := a.numChunks ≤ b.numChunks ∧ a.totalSizeBytes ≤ b.totalSizeBytes ∧
    a.numRows ≤ b.numRows ∧ a.numEvents ≤ b.numEvents

instance (a b : ChunkStoreChunkStats) : Decidable (a ≤ b) :=
  inferInstanceAs (Decidable (_ ∧ _ ∧ _ ∧ _))

end ChunkStoreChunkStats

structure ChunkStoreStats where
  staticChunks : ChunkStoreChunkStats
  temporalChunks : ChunkStoreChunkStats
deriving DecidableEq, Repr

namespace ChunkStoreStats

def total (stats : ChunkStoreStats) : ChunkStoreChunkStats :=
  stats.staticChunks + stats.temporalChunks

instance : Sub ChunkStoreStats where
  sub a b := ⟨a.staticChunks - b.staticChunks, a.temporalChunks - b.temporalChunks⟩

instance : LE ChunkStoreStats where
  le a b := a.staticChunks ≤ b.staticChunks ∧ a.temporalChunks ≤ b.temporalChunks

instance (a b : ChunkStoreStats) : Decidable (a ≤ b) := inferInstanceAs (Decidable (_ ∧ _))

end ChunkStoreStats

-- ---------------------------------------------------------------------------
-- Lineage and events
-- ---------------------------------------------------------------------------

inductive ChunkDirectLineage where
  | splitFrom : ChunkId → List ChunkId → ChunkDirectLineage
  | compactedFrom : List ChunkId → ChunkDirectLineage
  | rootFromManifest (isStatic : Bool)
  | volatile
deriving DecidableEq

/-- Like `ChunkDirectLineage`, with the chunks themselves. -/
inductive ChunkDirectLineageReport where
  | splitFrom : Chunk → List Chunk → ChunkDirectLineageReport
  | compactedFrom : TreeMap ChunkId Chunk → ChunkDirectLineageReport
  | rootFromManifest (isStatic : Bool)
  | volatile

def ChunkDirectLineageReport.toLineage : ChunkDirectLineageReport → ChunkDirectLineage
  | .splitFrom chunk siblings => .splitFrom chunk.id (siblings.map (·.id))
  | .compactedFrom chunks => .compactedFrom chunks.keys
  | .rootFromManifest isStatic => .rootFromManifest isStatic
  | .volatile => .volatile

inductive ChunkDeletionReason where
  | garbageCollection
  | virtualToPhysicalReplacement
  | danglingSplitCleanup
  | compaction
  | overwrite
  | explicitDrop
deriving DecidableEq, Repr

structure RrdManifestTemporalMapEntry where
  timeRange : AbsoluteTimeRange
  numRows : Nat
deriving DecidableEq

/-- The two maps of a manifest, flattened to lists of their entries. -/
structure RrdManifest where
  staticMap : List (EntityPath × ComponentIdentifier × ChunkId)
  temporalMap : List (EntityPath × Timeline × ComponentIdentifier × ChunkId ×
    RrdManifestTemporalMapEntry)

structure ChunkStoreDiffAddition where
  chunkBeforeProcessing : Chunk
  chunkAfterProcessing : Chunk
  directLineage : ChunkDirectLineageReport

structure ChunkStoreDiffDeletion where
  chunk : Chunk
  reason : ChunkDeletionReason
deriving DecidableEq

/-- What happened to the store. An event is a diff and a serial number. -/
inductive ChunkStoreDiff where
  | addition : ChunkStoreDiffAddition → ChunkStoreDiff
  | virtualAddition : RrdManifest → ChunkStoreDiff
  | deletion : ChunkStoreDiffDeletion → ChunkStoreDiff

inductive ChunkStoreError where
  | unsortedChunk
  | chunk : ChunkError → ChunkStoreError
deriving DecidableEq, Repr

-- ---------------------------------------------------------------------------
-- The store
-- ---------------------------------------------------------------------------

/-- The last three fields are not in the source: `issued` counts the ids drawn
from `ChunkId::new`, `statsUnderflow` is set when a statistics subtraction would
panic, and `archive` remembers every chunk that was ever physical. No operation
reads the last two. -/
structure ChunkStore where
  config : ChunkStoreConfig
  physicalChunksPerChunkId : TreeMap ChunkId Chunk := ∅
  physicalChunkIdsPerMinRowId : TreeSet (RowId ×ₗ ChunkId) := ∅
  chunksLineage : TreeMap ChunkId ChunkDirectLineage := ∅
  danglingSplits : TreeMap ChunkId (List ChunkId) := ∅
  leakyCompactions : TreeMap ChunkId ChunkId := ∅
  temporalChunkIdsPerEntityPerComponent : ChunkIdSetPerTimePerComponentPerTimelinePerEntity := ∅
  temporalChunkIdsPerEntity : ChunkIdSetPerTimePerTimelinePerEntity := ∅
  temporalPhysicalChunksStats : ChunkStoreChunkStats := {}
  staticChunkIdsPerEntity : ChunkIdPerComponentPerEntity := ∅
  staticChunksStats : ChunkStoreChunkStats := {}
  insertId : Nat := 0
  issued : Nat := 0
  statsUnderflow : Bool := false
  archive : TreeMap ChunkId Chunk := ∅

namespace ChunkStore

def new (config : ChunkStoreConfig) : ChunkStore := { config }

def stats (s : ChunkStore) : ChunkStoreStats :=
  ⟨s.staticChunksStats, s.temporalPhysicalChunksStats⟩

/-- `temporal_physical_chunks_stats -= …`. -/
def subTemporalStats (s : ChunkStore) (stats : ChunkStoreChunkStats) : ChunkStore :=
  { s with
    temporalPhysicalChunksStats := s.temporalPhysicalChunksStats - stats
    statsUnderflow := s.statsUnderflow || !decide (stats ≤ s.temporalPhysicalChunksStats) }

/-- `static_chunks_stats -= …`. -/
def subStaticStats (s : ChunkStore) (stats : ChunkStoreChunkStats) : ChunkStore :=
  { s with
    staticChunksStats := s.staticChunksStats - stats
    statsUnderflow := s.statsUnderflow || !decide (stats ≤ s.staticChunksStats) }

end ChunkStore

end DimosViewer
