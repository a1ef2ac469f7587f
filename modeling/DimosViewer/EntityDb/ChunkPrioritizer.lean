import DimosViewer.EntityDb.ManifestIndex
import DimosViewer.SortedRangeMap

/-!
# The chunk prioritizer

What is remembered of the chunks of a manifest in order to fetch them by priority, the stages of
priority, the byte budgets and the batches of requests.
-/

namespace DimosViewer

open Std (TreeMap)

-- ---------------------------------------------------------------------------
-- Stages
-- ---------------------------------------------------------------------------

/-- In nanoseconds. -/
abbrev Duration := Nat

/-- How much is prefetched. A higher stage includes all lower ones. -/
inductive FetchStage where
  | required
  | similar (realTimeOffset : Option Duration)
  | everything
deriving DecidableEq

namespace FetchStage

def cmp : FetchStage → FetchStage → Ordering
  | .required, .required => .eq
  | .everything, .everything => .eq
  | .similar (some a), .similar (some b) => compare a b
  | .similar (some _), .similar none => .lt
  | .similar none, .similar (some _) => .gt
  | .similar none, .similar none => .eq
  | .required, _ => .lt
  | _, .everything => .lt
  | _, .required => .gt
  | .everything, _ => .gt

instance : LE FetchStage := ⟨fun a b => a.cmp b ≠ .gt⟩
instance : LT FetchStage := ⟨fun a b => a.cmp b = .lt⟩

instance (a b : FetchStage) : Decidable (a ≤ b) := inferInstanceAs (Decidable (_ ≠ _))
instance (a b : FetchStage) : Decidable (a < b) := inferInstanceAs (Decidable (_ = _))

def isRequired : FetchStage → Bool
  | .required => true
  | _ => false

end FetchStage

/-- `stage` is required for what was reported as missing or is needed in any case. -/
structure PrioritizedRootChunk where
  stage : FetchStage
  rootChunkId : ChunkId
deriving DecidableEq

namespace PrioritizedRootChunk

def required (chunk : ChunkId) : PrioritizedRootChunk := ⟨.required, chunk⟩

def similar (chunk : ChunkId) (timeCursorOffset : Option Duration) : PrioritizedRootChunk :=
  ⟨.similar timeCursorOffset, chunk⟩

def everything (chunk : ChunkId) : PrioritizedRootChunk := ⟨.everything, chunk⟩

end PrioritizedRootChunk

structure RemainingByteBudget where
  totalBytesInMemory : Nat
  remainingBytesInMemory : Nat
  remainingBytesOnWire : Int
deriving DecidableEq

namespace RemainingByteBudget

/-- Whether `bytes` fit, even partially. What is required always does. -/
def tryFitInMemory (budget : RemainingByteBudget) (bytes : Nat) (required : Bool) :
    Bool × RemainingByteBudget :=
  let remaining := budget.remainingBytesInMemory - bytes
  (remaining ≠ 0 || required, { budget with remainingBytesInMemory := remaining })

def tryFitOnWire (budget : RemainingByteBudget) (bytes : Nat) : Bool × RemainingByteBudget :=
  (0 < budget.remainingBytesOnWire,
    { budget with remainingBytesOnWire := saturatingSub budget.remainingBytesOnWire bytes })

end RemainingByteBudget

-- ---------------------------------------------------------------------------
-- Batches of requests
-- ---------------------------------------------------------------------------

/-- A part of a manifest with the sizes of its chunks. All columns are equally long. -/
structure ManifestPart extends RrdManifestDelta where
  colChunkByteSize : List Nat
  colChunkByteSizeUncompressed : List Nat
  length_entityPath : colChunkEntityPath.length = colChunkIds.length
  length_byteSize : colChunkByteSize.length = colChunkIds.length
  length_uncompressed : colChunkByteSizeUncompressed.length = colChunkIds.length

structure ManifestColumns where
  chunkIds : List ChunkId
  chunkByteSize : List Nat
  chunkByteSizeUncompressed : List Nat

/-- `RrdManifest::concat`, as far as it concerns these columns. -/
def ManifestColumns.concat (parts : List ManifestPart) : ManifestColumns where
  chunkIds := parts.flatMap (·.colChunkIds)
  chunkByteSize := parts.flatMap (·.colChunkByteSize)
  chunkByteSizeUncompressed := parts.flatMap (·.colChunkByteSizeUncompressed)

structure CurrentBatch where
  rowIndices : List Nat := []
  uncompressedBytes : Nat := 0
  onWireBytes : Nat := 0
deriving DecidableEq

/-- What is loaded together: `rows` are the rows of the manifest in the record batch, and the
others are those of the request info. -/
structure RequestBatch where
  rows : List Nat
  rootChunkIds : Finset ChunkId
  rowIndices : Finset Nat
  sizeBytesUncompressed : Nat
  sizeBytesOnWire : Nat
deriving DecidableEq

structure ChunkRequestBatcher where
  manifest : ManifestColumns
  maxOnWireBytesPerBatch : Nat
  currentBatch : CurrentBatch := {}
  toLoad : List RequestBatch := []

namespace ChunkRequestBatcher

def finishBatch (batcher : ChunkRequestBatcher) : ChunkRequestBatcher :=
  let batch := batcher.currentBatch
  if batch.rowIndices.isEmpty then batcher
  else
    { batcher with
      currentBatch := {}
      toLoad := batcher.toLoad ++ [{
        rows := batch.rowIndices
        rootChunkIds := (batch.rowIndices.map (batcher.manifest.chunkIds.getD · 0)).toFinset
        rowIndices := batch.rowIndices.toFinset
        sizeBytesUncompressed := batch.uncompressedBytes
        sizeBytesOnWire := batch.onWireBytes }] }

/-- Whether the chunk fits on the wire; then it is added to the batch. -/
def tryFetch (batcher : ChunkRequestBatcher) (row : Nat) (budget : RemainingByteBudget) :
    Bool × ChunkRequestBatcher × RemainingByteBudget :=
  let onWire := batcher.manifest.chunkByteSize.getD row 0
  let (fits, budget) := budget.tryFitOnWire onWire
  if fits then
    let batch := batcher.currentBatch
    let batch : CurrentBatch := {
      rowIndices := batch.rowIndices ++ [row]
      uncompressedBytes :=
        batch.uncompressedBytes + batcher.manifest.chunkByteSizeUncompressed.getD row 0
      onWireBytes := batch.onWireBytes + onWire }
    let batcher := { batcher with currentBatch := batch }
    (true,
      if batcher.maxOnWireBytesPerBatch ≤ batch.onWireBytes then batcher.finishBatch else batcher,
      budget)
  else (false, batcher, budget)

def finish (batcher : ChunkRequestBatcher) : List RequestBatch := batcher.finishBatch.toLoad

end ChunkRequestBatcher

-- ---------------------------------------------------------------------------
-- The prioritizer
-- ---------------------------------------------------------------------------

structure HighPrioChunk where
  chunkId : ChunkId
  timeRange : AbsoluteTimeRange
deriving DecidableEq

/-- Sorted by the starts of their time ranges. -/
structure HighPrioChunks where
  temporalChunks : List HighPrioChunk := []
  sorted : temporalChunks.Pairwise fun a b => a.timeRange.min ≤ b.timeRange.min := by simp

/-- `sort_by_key`, which is stable. -/
def HighPrioChunks.ofList (chunks : List HighPrioChunk) : HighPrioChunks where
  temporalChunks := chunks.mergeSort fun a b => a.timeRange.min ≤ b.timeRange.min
  sorted := by
    refine (List.pairwise_mergeSort ?_ ?_ _).imp fun h => of_decide_eq_true h
    · intro a b c hab hbc
      exact decide_eq_true ((of_decide_eq_true hab).trans (of_decide_eq_true hbc))
    · intro a b
      simpa using le_total a.timeRange.min b.timeRange.min

structure ProtectedChunks where
  roots : Finset ChunkId := ∅
  physical : Finset ChunkId := ∅
deriving DecidableEq

structure PrioritizationState where
  transitBudgetFilled : Bool := false
  memoryBudgetFilled : Bool := false
  someChunksTooBig : Bool := false
  allRequiredAreLoaded : Option Bool := none
deriving DecidableEq

structure ChunkPrioritizer where
  protectedChunks : ProtectedChunks := {}
  latestResult : Option PrioritizationState := none
  rootChunkIntervals : Timeline → Option (SortedRangeMap TimeInt ChunkId) := fun _ => none
  staticChunkIds : List ChunkId := []
  highPriorityChunks : TimelineName → HighPrioChunks := fun _ => {}
  componentPathsFromRootId : ComponentPaths := ∅
  componentsOfInterest : Finset ComponentPathKey := ∅
  frameVisited : Finset ChunkId := ∅

def dedupRuns [DecidableEq α] : List α → List α
  | [] => []
  | [a] => [a]
  | a :: b :: rest => if a = b then dedupRuns (b :: rest) else a :: dedupRuns (b :: rest)

def sortDedup (ids : List ChunkId) : List ChunkId := dedupRuns (ids.mergeSort (· ≤ ·))

namespace ChunkPrioritizer

def updateStaticChunks (p : ChunkPrioritizer) (delta : RrdManifest) : ChunkPrioritizer :=
  { p with staticChunkIds := sortDedup (p.staticChunkIds ++ delta.staticMap.map (·.2.2)) }

def updateChunkIntervals (p : ChunkPrioritizer) (delta : RrdManifest) : ChunkPrioritizer :=
  { p with
    rootChunkIntervals := fun timeline =>
      let chunks := delta.temporalMap.filterMap fun (_, t, _, chunk, entry) =>
        if t = timeline then some ((entry.timeRange.min, entry.timeRange.max), chunk) else none
      if chunks.isEmpty then p.rootChunkIntervals timeline
      else some (((p.rootChunkIntervals timeline).getD .empty).extend chunks) }

def findChunksWithComponentPrefix (manifest : RrdManifest) (pre : String)
    (timeline : TimelineName) : List HighPrioChunk :=
  manifest.temporalMap.filterMap fun (_, t, component, chunk, entry) =>
    if component.startsWith pre ∧ t.name = timeline then some ⟨chunk, entry.timeRange⟩ else none

def updateHighPriorityChunks (p : ChunkPrioritizer) (manifest : RrdManifest) :
    ChunkPrioritizer :=
  { p with
    highPriorityChunks := fun timeline =>
      .ofList ((p.highPriorityChunks timeline).temporalChunks ++
        (HighPrioChunks.ofList
          (findChunksWithComponentPrefix manifest "Transform3D:" timeline)).temporalChunks) }

def onRrdManifest (p : ChunkPrioritizer) (delta : RrdManifestDelta) : ChunkPrioritizer :=
  let p := p.updateStaticChunks delta.toRrdManifest
  let p := p.updateChunkIntervals delta.toRrdManifest
  let p := p.updateHighPriorityChunks delta.toRrdManifest
  { p with
    componentPathsFromRootId :=
      RrdManifestIndex.onRrdManifest p.componentPathsFromRootId delta }

end ChunkPrioritizer

end DimosViewer
