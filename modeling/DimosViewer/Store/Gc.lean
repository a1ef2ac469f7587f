import DimosViewer.Store.Removal

/-!
# Garbage collection

Marks chunks until the byte target or the time budget is met, then sweeps them.
The readings of the clock are an input.
-/

namespace DimosViewer

open Std (TreeMap TreeSet)

/-- The fraction is given by the number of bytes it asks for, given the total. -/
inductive GarbageCollectionTarget where
  | dropAtLeastBytes : Nat → GarbageCollectionTarget
  | dropAtLeastFraction : (Nat → Nat) → GarbageCollectionTarget
  | everything

def GarbageCollectionTarget.targetBytesFromSize (totalSizeBefore : Nat) :
    GarbageCollectionTarget → Nat
  | .dropAtLeastBytes n => n
  | .dropAtLeastFraction bytes => bytes totalSizeBefore
  | .everything => 2 ^ 64 - 1

/-- No `timeBudget` is `Duration::MAX`. -/
structure GarbageCollectionOptions where
  target : GarbageCollectionTarget
  timeBudget : Option Nat
  protectLatest : Nat
  protectedTimeRanges : List (TimelineName × AbsoluteTimeRange)
  protectedChunks : List ChunkId
  furthestFrom : Option (TimelineName × TimeInt)
  performDeepDeletions : Bool

namespace GarbageCollectionOptions

def gcEverything : GarbageCollectionOptions where
  target := .everything
  timeBudget := none
  protectLatest := 0
  protectedTimeRanges := []
  protectedChunks := []
  furthestFrom := none
  performDeepDeletions := false

def isChunkProtected (options : GarbageCollectionOptions) (c : Chunk) : Bool :=
  options.protectedChunks.contains c.id ||
  options.protectedTimeRanges.any fun (timeline, range) =>
    match c.timeline? timeline with
    | some tc => tc.timeRange.intersects range
    | none => false

end GarbageCollectionOptions

/-- `elapsed` as it is read after each marked chunk, after the mark phase, after
each shallow removal of roots, after all of them, and after each deep removal. -/
structure GcClock where
  mark : Nat → Nat
  markTotal : Nat
  shallow : Nat → Nat
  shallowTotal : Nat
  deep : Nat → Nat

def budgetExhausted : Option Nat → Nat → Bool
  | none, _ => false
  | some budget, elapsed => budget ≤ elapsed

namespace ChunkStore

-- ---------------------------------------------------------------------------
-- Mark
-- ---------------------------------------------------------------------------

def partitionPoint (p : α → Bool) (l : List α) : Nat := (l.takeWhile p).length

def minDistance (tc : TimeColumn) (time : TimeInt) : Option Nat :=
  let dist (t : TimeInt) : Nat := (t.asI64 - time.asI64).natAbs
  if tc.isSorted then
    let pivot := partitionPoint (· < time) tc.times
    [tc.times[pivot - 1]?.map dist, tc.times[pivot]?.map dist].filterMap id |>.min?
  else
    tc.times.map (fun t => dist (.newTemporal t.asI64)) |>.min?

def findTemporalChunksFurthestFrom (s : ChunkStore) (timeline : TimelineName) (time : TimeInt) :
    List Chunk :=
  let distances := s.physicalChunksPerChunkId.values.filterMap fun c => do
    let tc ← c.timeline? timeline
    let dist ← minDistance tc time
    return (c, dist)
  (distances.insertionSort fun a b => b.2 ≤ a.2).map Prod.fst

def latestPhysicalIds (s : ChunkStore) (targetCount : Nat) (p : ChunkIdSetPerTime) :
    List ChunkId :=
  ((p.perStartTime.values.reverse.flatMap (·.toList) ++
    p.perEndTime.values.reverse.flatMap (·.toList)).filter s.isPhysical).take targetCount

/-- A target count of zero protects nothing, `take 0` is empty. -/
def findAllProtectedPhysicalChunkIds (s : ChunkStore) (targetCount : Nat) : List ChunkId :=
  s.temporalChunkIdsPerEntityPerComponent.values.flatMap fun perTimeline =>
    perTimeline.values.flatMap fun perComponent =>
      perComponent.values.flatMap (s.latestPhysicalIds targetCount)

/-- Takes chunks until `done`, which is asked after each of them, and returns the
number of bytes so far. -/
def takeChunks (env : Env) (done : (numTaken bytes : Nat) → Bool) :
    (numTaken bytes : Nat) → List Chunk → List Chunk × Nat
  | _, bytes, [] => ([], bytes)
  | numTaken, bytes, c :: rest =>
    let bytes := bytes + env.sizeBytes c
    if done numTaken bytes then ([c], bytes)
    else
      let (chunks, bytes) := takeChunks env done (numTaken + 1) bytes rest
      (c :: chunks, bytes)

def chunksInPriorityOrder (s : ChunkStore) (options : GarbageCollectionOptions) : List Chunk :=
  let protectedChunkIds := s.findAllProtectedPhysicalChunkIds options.protectLatest
  (((s.physicalChunkIdsPerMinRowId.toList.map (fun key => (ofLex key).2)).filter
    (fun id => !protectedChunkIds.contains id)).filterMap
      (s.physicalChunksPerChunkId[·]?)).filter fun c =>
        !c.isStatic && !options.isChunkProtected c

/-- The pass by distance ignores the clock and the latest-at protection. A chunk
that it took is still there for the pass by row id. -/
def gcFindCandidates (env : Env) (s : ChunkStore) (options : GarbageCollectionOptions)
    (targetBytesToDrop : Nat) (timeBudget : Option Nat) (elapsed : Nat → Nat) : List Chunk :=
  if targetBytesToDrop = 0 then []
  else
    let (furthest, numBytesDropped) :=
      match options.furthestFrom with
      | none => ([], 0)
      | some (timeline, time) =>
        takeChunks env (fun _ bytes => targetBytesToDrop ≤ bytes) 0 0
          ((s.findTemporalChunksFurthestFrom timeline time).filter
            (fun c => !options.isChunkProtected c))
    if targetBytesToDrop ≤ numBytesDropped then furthest
    else
      furthest ++ (takeChunks env
        (fun k bytes => budgetExhausted timeBudget (elapsed k) || targetBytesToDrop ≤ bytes)
        0 numBytesDropped (s.chunksInPriorityOrder options)).1

-- ---------------------------------------------------------------------------
-- Sweep
-- ---------------------------------------------------------------------------

def gcPartition (s : ChunkStore) (options : GarbageCollectionOptions) (chunks : List Chunk) :
    List Chunk × List Chunk :=
  if options.performDeepDeletions then (chunks, [])
  else chunks.partition fun c => !s.isRootChunk c.id

def markTimeBudget (options : GarbageCollectionOptions) : Option Nat :=
  options.timeBudget.map (· / 2)

def sweepTimeBudget (options : GarbageCollectionOptions) (clock : GcClock) : Option Nat :=
  options.timeBudget.map fun budget => budget - min clock.markTotal (budget / 2)

def remainingBudget (options : GarbageCollectionOptions) (clock : GcClock) : Option Nat :=
  (sweepTimeBudget options clock).map (· - clock.shallowTotal)

def gcCandidates (env : Env) (s : ChunkStore) (options : GarbageCollectionOptions)
    (clock : GcClock) : List Chunk × List Chunk :=
  s.gcPartition options <|
    s.gcFindCandidates env options
      (options.target.targetBytesFromSize s.stats.total.totalSizeBytes)
      (markTimeBudget options) clock.mark

def gcDropAtLeastNumBytes (env : Env) (s : ChunkStore) (options : GarbageCollectionOptions)
    (clock : GcClock) : ChunkStore × List ChunkStoreDiff :=
  let (deep, shallow) := s.gcCandidates env options clock
  let (s, dels1) := s.removeChunksShallow env .garbageCollection
    (fun k => budgetExhausted (sweepTimeBudget options clock) (clock.shallow k)) shallow
  let (s, dels2) := s.removeChunksDeep env .garbageCollection
    (fun k => budgetExhausted (remainingBudget options clock) (clock.deep k)) deep
  (s, (dels1 ++ dels2).map .deletion)

def gc (env : Env) (s : ChunkStore) (options : GarbageCollectionOptions) (clock : GcClock) :
    ChunkStore × List ChunkStoreDiff × ChunkStoreStats :=
  let statsBefore := s.stats
  let (s, diffs) := s.gcDropAtLeastNumBytes env options clock
  let statsAfter := s.stats
  ({ s with statsUnderflow := s.statsUnderflow || !decide (statsAfter ≤ statsBefore) },
    diffs, statsBefore - statsAfter)

end ChunkStore

end DimosViewer
