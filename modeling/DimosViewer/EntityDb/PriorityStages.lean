import DimosViewer.EntityDb.ChunkPrioritizer

/-!
# The stages of priority

The iterator over the root chunks of a recording by priority: what was missing, what is static and
what has a high priority, then the chunks on the timeline of the cursor that are of interest, then
the others there, then all. It may yield a chunk more than once. Hash maps and hash sets are lists in
their iteration order.
-/

namespace DimosViewer

open Std (TreeMap)

-- ---------------------------------------------------------------------------
-- The time cursor
-- ---------------------------------------------------------------------------

/-- The speed of the cursor enters through the real time that it takes to cover a distance, if it is
ever covered. -/
structure PrefetchTimeCursor where
  timeline : Timeline
  time : TimeInt
  loopRange : Option AbsoluteTimeRange
  realTimeOffset : TimeInt → Option Duration
  realTimeOffset_mono : ∀ a b, TimeInt.ZERO ≤ a → a ≤ b →
    FetchStage.similar (realTimeOffset a) ≤ FetchStage.similar (realTimeOffset b)

inductive IterState where
  | uninited
  | idx (i : Nat)
  | done
deriving DecidableEq

inductive TimeRangeStage where
  | afterCursor
  | beforeCursor
  | afterCursorOutsideLoop
  | beforeCursorOutsideLoop
deriving DecidableEq

def TimeRangeStage.next : TimeRangeStage → Option TimeRangeStage
  | .afterCursor => some .beforeCursor
  | .beforeCursor => some .afterCursorOutsideLoop
  | .afterCursorOutsideLoop => some .beforeCursorOutsideLoop
  | .beforeCursorOutsideLoop => none

namespace PrefetchTimeCursor

def query (cursor : PrefetchTimeCursor) : TimeRangeStage → Option AbsoluteTimeRange
  | .afterCursor => cursor.loopRange.map fun r => .new (max r.min cursor.time) r.max
  | .beforeCursor => cursor.loopRange.map fun r => .new r.min (min r.max (cursor.time.subInt 1))
  | .afterCursorOutsideLoop =>
    some (.new (cursor.loopRange.elim cursor.time fun r => r.max.add (.newTemporal 1)) .MAX)
  | .beforeCursorOutsideLoop =>
    some (.new .MIN (cursor.loopRange.elim (cursor.time.subInt 1) fun r => r.min.subInt 1))

def distance (a b : TimeInt) : TimeInt := max (a.sub b) .ZERO

/-- The real time until the cursor gets to a chunk that starts at `start`, if it ever does. -/
def offset (cursor : PrefetchTimeCursor) (stage : TimeRangeStage) (start : TimeInt) :
    Option Duration :=
  let after := cursor.realTimeOffset (distance start cursor.time)
  match stage with
  | .afterCursor => after
  | .beforeCursor =>
    cursor.loopRange.bind fun r =>
      cursor.realTimeOffset ((distance r.max cursor.time).add (distance start r.min))
  | .afterCursorOutsideLoop => if cursor.loopRange.isSome then none else after
  | .beforeCursorOutsideLoop => none

end PrefetchTimeCursor

-- ---------------------------------------------------------------------------
-- The iterator
-- ---------------------------------------------------------------------------

structure QueriedChunkIdTracker where
  usedPhysical : List ChunkId := []
  usedPhysical_nodup : usedPhysical.Nodup := by decide
  missingVirtual : List ChunkId := []

/-- What a fetcher iterates over, which does not change while it does: the prioritizer is as it was
when the fetcher was prepared. -/
structure FetchSource where
  timeCursor : Option PrefetchTimeCursor
  store : ChunkStore
  prioritizer : ChunkPrioritizer
  rootChunks : TreeMap ChunkId RootChunkInfo
  rootChunkKeys : List ChunkId

inductive ChunkPriorityStage where
  | start (tracker : QueriedChunkIdTracker)
  | missing (rest : List ChunkId)
  | static (idx : Nat)
  | highPrio (idx : IterState)
  | timeQuery (stage : TimeRangeStage) (iterState : Option Nat) (interesting : Bool)
  | everything (rest : List ChunkId)
  | done

inductive Turn where
  | yields (chunk : PrioritizedRootChunk) (stage : ChunkPriorityStage)
  | moves (stage : ChunkPriorityStage)
  | ends

namespace FetchSource

def isInteresting (s : FetchSource) (chunk : ChunkId) : Bool :=
  (s.prioritizer.componentPathsFromRootId.getD chunk []).any (· ∈ s.prioritizer.componentsOfInterest)

def missingRoots (s : FetchSource) (tracker : QueriedChunkIdTracker) : List ChunkId :=
  sortDedup (tracker.missingVirtual.flatMap s.store.findRootChunks)

def highPrioChunks (s : FetchSource) (cursor : PrefetchTimeCursor) : List HighPrioChunk :=
  (s.prioritizer.highPriorityChunks cursor.timeline.name).temporalChunks

/-- The index of the next chunk of high priority, going backwards from the time cursor. -/
def highPrioIdx (s : FetchSource) (cursor : PrefetchTimeCursor) : IterState → Option Nat
  | .uninited =>
    match ((s.highPrioChunks cursor).takeWhile (·.timeRange.min ≤ cursor.time)).length with
    | 0 => none
    | n + 1 => some n
  | .idx i => some i
  | .done => none

def highPrioAt (s : FetchSource) (idx : IterState) : Option (Nat × HighPrioChunk) :=
  s.timeCursor.bind fun cursor =>
    (s.highPrioIdx cursor idx).bind fun i => ((s.highPrioChunks cursor)[i]?).map (i, ·)

def nextInTimeQuery (s : FetchSource) (stage : TimeRangeStage) (cursor : Option Nat)
    (interesting : Bool) : Option PrioritizedRootChunk × Option Nat :=
  match s.timeCursor with
  | none => (none, cursor)
  | some timeCursor =>
    match (timeCursor.query stage).filter (!·.isEmpty),
        s.prioritizer.rootChunkIntervals timeCursor.timeline with
    | some query, some map =>
      let idx := cursor.getD (map.findFirstPossible (query.min, query.max))
      match map.find (query.min, query.max) (fun e => s.isInteresting e.2 == interesting) idx with
      | (none, idx) => (none, some idx)
      | (some ((start, «end»), chunk), idx) =>
        let range := AbsoluteTimeRange.new start «end»
        (some (if interesting then .similar chunk (timeCursor.offset stage range.min)
          else .everything chunk), some idx)
    | _, _ => (none, cursor)

def turn (s : FetchSource) : ChunkPriorityStage → Turn
  | .start tracker => .moves (.missing (s.missingRoots tracker))
  | .missing (chunk :: rest) => .yields (.required chunk) (.missing rest)
  | .missing [] => .moves (.static 0)
  | .static idx =>
    match s.prioritizer.staticChunkIds[idx]? with
    | some chunk => .yields (.required chunk) (.static (idx + 1))
    | none => .moves (.highPrio .uninited)
  | .highPrio idx =>
    match s.highPrioAt idx with
    | some (0, chunk) => .yields (.required chunk.chunkId) (.highPrio .done)
    | some (i + 1, chunk) => .yields (.required chunk.chunkId) (.highPrio (.idx i))
    | none => .moves (.timeQuery .afterCursor none true)
  | .timeQuery stage iterState interesting =>
    match s.nextInTimeQuery stage iterState interesting with
    | (some chunk, iterState) => .yields chunk (.timeQuery stage iterState interesting)
    | (none, _) =>
      match stage.next with
      | some stage => .moves (.timeQuery stage none interesting)
      | none =>
        if interesting then .moves (.timeQuery .afterCursor none false)
        else .moves (.everything s.rootChunkKeys)
  | .everything (chunk :: rest) => .yields (.everything chunk) (.everything rest)
  | .everything [] => .moves .done
  | .done => .ends

end FetchSource

def ChunkPriorityStage.rank : ChunkPriorityStage → Nat
  | .start _ => 13
  | .missing _ => 12
  | .static _ => 11
  | .highPrio _ => 10
  | .timeQuery stage _ interesting =>
    (match stage with
      | .afterCursor => 5
      | .beforeCursor => 4
      | .afterCursorOutsideLoop => 3
      | .beforeCursorOutsideLoop => 2) + if interesting then 4 else 0
  | .everything _ => 1
  | .done => 0

namespace FetchSource

theorem rank_lt_of_moves {s : FetchSource} (h : s.turn stage = .moves stage') :
    stage'.rank < stage.rank := by
  cases stage with
  | start tracker =>
    obtain rfl : ChunkPriorityStage.missing (s.missingRoots tracker) = stage' := by
      simpa [turn] using h
    simp [ChunkPriorityStage.rank]
  | missing rest =>
    cases rest with
    | nil =>
      obtain rfl : ChunkPriorityStage.static 0 = stage' := by simpa [turn] using h
      simp [ChunkPriorityStage.rank]
    | cons chunk rest => simp [turn] at h
  | static idx =>
    simp only [turn] at h
    split at h
    · simp at h
    · obtain rfl := Turn.moves.inj h
      simp [ChunkPriorityStage.rank]
  | highPrio idx =>
    simp only [turn] at h
    split at h
    · simp at h
    · simp at h
    · obtain rfl := Turn.moves.inj h
      simp [ChunkPriorityStage.rank]
  | timeQuery stage iterState interesting =>
    simp only [turn] at h
    split at h
    · simp at h
    · cases stage with
      | afterCursor | beforeCursor | afterCursorOutsideLoop =>
        obtain rfl := Turn.moves.inj h
        simp [ChunkPriorityStage.rank]
      | beforeCursorOutsideLoop =>
        simp only [TimeRangeStage.next] at h
        cases interesting with
        | true =>
          obtain rfl := Turn.moves.inj h
          simp [ChunkPriorityStage.rank]
        | false =>
          obtain rfl := Turn.moves.inj h
          simp [ChunkPriorityStage.rank]
  | everything rest =>
    cases rest with
    | nil =>
      obtain rfl : ChunkPriorityStage.done = stage' := by simpa [turn] using h
      simp [ChunkPriorityStage.rank]
    | cons chunk rest => simp [turn] at h
  | done => simp [turn] at h

/-- The loop of `next_chunk`: turns until one yields a chunk, or there is no stage left. -/
def nextChunk (s : FetchSource) (stage : ChunkPriorityStage) :
    Option PrioritizedRootChunk × ChunkPriorityStage :=
  match _h : s.turn stage with
  | .yields chunk stage => (some chunk, stage)
  | .moves stage => s.nextChunk stage
  | .ends => (none, stage)
termination_by stage.rank
decreasing_by exact rank_lt_of_moves _h

end FetchSource

end DimosViewer
