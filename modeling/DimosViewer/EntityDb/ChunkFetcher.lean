import DimosViewer.EntityDb.PriorityOrder

/-!
# The chunk fetcher

One pass over the root chunks in the order of their priority: what is not loaded is requested and
what is loaded is protected, up to a stage and within the budgets. A pass may be made in several
calls.
-/

namespace DimosViewer

open Std (TreeMap)

structure ChunkPrefetchOptions where
  maxOnWireBytesPerBatch : Nat

/-- The prioritizer is only changed in its protected and visited chunks while there is a fetcher,
which holds them until it is finished. -/
structure ChunkFetcher where
  source : FetchSource
  visitedRootChunks : Finset ChunkId
  protectedChunks : ProtectedChunks
  state : PrioritizationState := {}
  nextChunk : Option PrioritizedRootChunk := none
  fetchStage : ChunkPriorityStage
  requestBatcher : ChunkRequestBatcher

-- ---------------------------------------------------------------------------
-- Preparing
-- ---------------------------------------------------------------------------

namespace ChunkPrioritizer

def updateComponentsOfInterest (p : ChunkPrioritizer) (store : ChunkStore)
    (tracker : QueriedChunkIdTracker) : ChunkPrioritizer :=
  let used := tracker.usedPhysical.flatMap fun id =>
    (store.physicalChunksPerChunkId[id]?).elim [] fun chunk =>
      chunk.components.map fun column => ⟨chunk.entityPath, column.component⟩
  let missing := tracker.missingVirtual.flatMap fun id =>
    (store.findRootChunks id).flatMap fun root => p.componentPathsFromRootId.getD root []
  { p with componentsOfInterest := (used ++ missing).toFinset }

/-- The roots of what is used need no protection: only its physical chunks are to stay. -/
def protectUsedAndMissing (p : ChunkPrioritizer) (store : ChunkStore)
    (tracker : QueriedChunkIdTracker) : ChunkPrioritizer :=
  { p with
    protectedChunks :=
      ⟨(tracker.missingVirtual.flatMap store.findRootChunks).toFinset,
        tracker.usedPhysical.toFinset⟩ }

def prepareChunkFetcher (env : Env) (p : ChunkPrioritizer) (store : ChunkStore)
    (manifest : ManifestColumns) (options : ChunkPrefetchOptions)
    (timeCursor : Option PrefetchTimeCursor) (rootChunks : TreeMap ChunkId RootChunkInfo)
    (rootChunkKeys : List ChunkId) (usedAndMissing : QueriedChunkIdTracker)
    (budget : RemainingByteBudget) : ChunkFetcher × RemainingByteBudget :=
  let p := { p with frameVisited := ∅ }
  let p := p.updateComponentsOfInterest store usedAndMissing
  let p := p.protectUsedAndMissing store usedAndMissing
  let budget := usedAndMissing.usedPhysical.foldl (fun budget id =>
    match store.physicalChunksPerChunkId[id]? with
    | some chunk => (budget.tryFitInMemory (env.sizeBytes chunk) true).2
    | none => budget) budget
  ({ source := { timeCursor, store, prioritizer := p, rootChunks, rootChunkKeys }
     visitedRootChunks := p.frameVisited
     protectedChunks := p.protectedChunks
     fetchStage := .start usedAndMissing
     requestBatcher :=
      { manifest, maxOnWireBytesPerBatch := options.maxOnWireBytesPerBatch } }, budget)

end ChunkPrioritizer

-- ---------------------------------------------------------------------------
-- Peeking
-- ---------------------------------------------------------------------------

namespace ChunkFetcher

/-- `next_chunk`, which returns what was peeked at first. -/
def takeChunk (f : ChunkFetcher) : Option PrioritizedRootChunk × ChunkFetcher :=
  match f.nextChunk with
  | some chunk => (some chunk, { f with nextChunk := none })
  | none =>
    let (chunk, stage) := f.source.nextChunk f.fetchStage
    (chunk, { f with fetchStage := stage })

def peekChunk (f : ChunkFetcher) : ChunkFetcher :=
  if f.nextChunk.isNone then
    let (chunk, f) := f.takeChunk
    { f with nextChunk := chunk }
  else f

def pending (f : ChunkFetcher) : List PrioritizedRootChunk :=
  f.nextChunk.toList ++ f.source.remaining f.fetchStage

theorem pending_eq_takeChunk (f : ChunkFetcher) :
    f.pending =
      match f.takeChunk with
      | (none, _) => []
      | (some chunk, f') => chunk :: f'.pending := by
  unfold takeChunk pending
  cases f.nextChunk with
  | some chunk => rfl
  | none =>
    simp only [Option.toList_none, List.nil_append]
    rw [FetchSource.remaining_nextChunk]
    rcases f.source.nextChunk f.fetchStage with ⟨_ | chunk, stage⟩
    · rfl
    · rfl

theorem pending_takeChunk_of_none {f f' : ChunkFetcher} (h : f.takeChunk = (none, f')) :
    f'.pending = [] := by
  unfold takeChunk at h
  cases hnext : f.nextChunk with
  | some chunk => simp [hnext] at h
  | none =>
    simp only [hnext, Prod.mk.injEq] at h
    obtain ⟨hnone, rfl⟩ := h
    have hstage : f.source.nextChunk f.fetchStage =
        (none, (f.source.nextChunk f.fetchStage).2) := Prod.ext hnone rfl
    simp [pending, FetchSource.remaining_of_nextChunk_none hstage]

theorem nextChunk_takeChunk (f : ChunkFetcher) : f.takeChunk.2.nextChunk = none := by
  unfold takeChunk
  cases f.nextChunk with
  | some chunk => rfl
  | none => simp

theorem pending_peekChunk (f : ChunkFetcher) : f.peekChunk.pending = f.pending := by
  unfold peekChunk
  split
  · rw [pending_eq_takeChunk f]
    rcases htake : f.takeChunk with ⟨_ | chunk, f'⟩
    · have hpending := pending_takeChunk_of_none htake
      simp only [pending, List.append_eq_nil_iff] at hpending
      simp [pending, hpending.2]
    · have hnext : f'.nextChunk = none := by simpa [htake] using f.nextChunk_takeChunk
      simp [pending, hnext]
  · rfl

theorem nextChunk_peekChunk (f : ChunkFetcher) : f.peekChunk.nextChunk = f.pending.head? := by
  rw [← pending_peekChunk]
  unfold peekChunk
  cases hnext : f.nextChunk with
  | some chunk => simp [pending, hnext]
  | none =>
    simp only [Option.isNone_none, if_true]
    rcases htake : f.takeChunk with ⟨_ | chunk, f'⟩
    · have hpending := pending_takeChunk_of_none htake
      simp only [pending, List.append_eq_nil_iff] at hpending
      simp [pending, hpending.2]
    · simp [pending]

-- ---------------------------------------------------------------------------
-- One chunk
-- ---------------------------------------------------------------------------

/-- Keeps the physical descendents of a loaded chunk, as far as they fit. -/
def protectPhysical (env : Env) (store : ChunkStore) (required : Bool) :
    List ChunkId → Finset ChunkId → RemainingByteBudget → Bool × Finset ChunkId × RemainingByteBudget
  | [], physical, budget => (true, physical, budget)
  | id :: rest, physical, budget =>
    if id ∈ physical then protectPhysical env store required rest physical budget
    else
      match store.physicalChunksPerChunkId[id]? with
      | none => protectPhysical env store required rest physical budget
      | some chunk =>
        match budget.tryFitInMemory (env.sizeBytes chunk) required with
        | (false, budget) => (false, physical, budget)
        | (true, budget) => protectPhysical env store required rest (insert id physical) budget

def request (f : ChunkFetcher) (budget : RemainingByteBudget) (chunk : PrioritizedRootChunk)
    (info : RootChunkInfo) : Bool × ChunkFetcher × RemainingByteBudget :=
  let f := if chunk.stage.isRequired then
    { f with state := { f.state with allRequiredAreLoaded := some false } } else f
  let size := f.requestBatcher.manifest.chunkByteSizeUncompressed.getD info.rowId 0
  if budget.totalBytesInMemory < size then
    (true, { f with state := { f.state with someChunksTooBig := true } }, budget)
  else
    match budget.tryFitInMemory size chunk.stage.isRequired with
    | (false, budget) =>
      (false, { f with state := { f.state with memoryBudgetFilled := true } }, budget)
    | (true, budget) =>
      match if info.state = .unloaded then f.requestBatcher.tryFetch info.rowId budget
        else (true, f.requestBatcher, budget) with
      | (false, requestBatcher, budget) =>
        (false, { f with requestBatcher, state := { f.state with transitBudgetFilled := true } },
          budget)
      | (true, requestBatcher, budget) =>
        (true, { f with
          requestBatcher
          protectedChunks :=
            ⟨insert chunk.rootChunkId f.protectedChunks.roots, f.protectedChunks.physical ∪
              (f.source.store.collectPhysicalDescendentsOf chunk.rootChunkId).toFinset⟩ }, budget)

def keep (env : Env) (f : ChunkFetcher) (budget : RemainingByteBudget)
    (chunk : PrioritizedRootChunk) : Bool × ChunkFetcher × RemainingByteBudget :=
  let (fits, physical, budget) := protectPhysical env f.source.store chunk.stage.isRequired
    (f.source.store.collectPhysicalDescendentsOf chunk.rootChunkId) f.protectedChunks.physical budget
  let memoryBudgetFilled := f.state.memoryBudgetFilled || !fits
  (!memoryBudgetFilled, { f with
    protectedChunks := ⟨insert chunk.rootChunkId f.protectedChunks.roots, physical⟩
    state := { f.state with memoryBudgetFilled } }, budget)

def handle (env : Env) (f : ChunkFetcher) (budget : RemainingByteBudget)
    (chunk : PrioritizedRootChunk) : Bool × ChunkFetcher × RemainingByteBudget :=
  -- Already handled earlier in the priority order.
  if chunk.rootChunkId ∈ f.visitedRootChunks then (true, f, budget)
  else
    let f := { f with visitedRootChunks := insert chunk.rootChunkId f.visitedRootChunks }
    match f.source.rootChunks[chunk.rootChunkId]? with
    | none => (true, f, budget)
    | some info =>
      match info.state with
      | .unloaded | .inTransit => f.request budget chunk info
      | .fullyLoaded => f.keep env budget chunk

theorem pending_request (f : ChunkFetcher) (budget : RemainingByteBudget)
    (chunk : PrioritizedRootChunk) (info : RootChunkInfo) :
    (f.request budget chunk info).2.1.pending = f.pending := by
  unfold request
  -- Whether it is required only matters for the state.
  cases chunk.stage.isRequired with
  | true | false =>
    simp only [if_true, Bool.false_eq_true, if_false]
    split
    · rfl
    · split
      · rfl
      · split
        · rfl
        · rfl

theorem pending_handle (env : Env) (f : ChunkFetcher) (budget : RemainingByteBudget)
    (chunk : PrioritizedRootChunk) : (f.handle env budget chunk).2.1.pending = f.pending := by
  unfold handle
  split
  · rfl
  · simp only
    split
    · rfl
    · split
      · exact pending_request _ _ _ _
      · exact pending_request _ _ _ _
      · rfl

-- ---------------------------------------------------------------------------
-- Fetching
-- ---------------------------------------------------------------------------

/-- The loop of `fetch_inner`. Peeking first keeps the first chunk of a higher stage. -/
def fetchLoop (env : Env) (f : ChunkFetcher) (budget : RemainingByteBudget) (toState : FetchStage) :
    ChunkFetcher × RemainingByteBudget :=
  let peeked := f.peekChunk
  if peeked.nextChunk.any fun next => toState < next.stage then (peeked, budget)
  else
    match _h : peeked.takeChunk with
    | (none, f) => (f, budget)
    | (some chunk, taken) =>
      match _hh : taken.handle env budget chunk with
      | (false, handled, budget) => (handled, budget)
      | (true, handled, left) => handled.fetchLoop env left toState
termination_by f.pending.length
decreasing_by
  have hhandle := taken.pending_handle env budget chunk
  have htake := peeked.pending_eq_takeChunk
  rw [_hh] at hhandle
  rw [_h, f.pending_peekChunk] at htake
  rw [htake, hhandle]
  exact Nat.lt_succ_self _

def fetch (env : Env) (f : ChunkFetcher) (budget : RemainingByteBudget) (toState : FetchStage) :
    ChunkFetcher × RemainingByteBudget :=
  let f := if f.state.allRequiredAreLoaded.isNone then
    { f with state := { f.state with allRequiredAreLoaded := some true } } else f
  let (f, budget) := f.fetchLoop env budget toState
  let f := f.peekChunk
  (if f.nextChunk.any (·.stage.isRequired) then
    { f with state := { f.state with allRequiredAreLoaded := some false } } else f, budget)

def finish (f : ChunkFetcher) : ChunkPrioritizer × List RequestBatch :=
  let prioritizer := f.source.prioritizer
  -- If nothing was fetched, the previous value is preserved.
  let allRequiredAreLoaded :=
    if f.state.allRequiredAreLoaded.isNone then
      prioritizer.latestResult.bind (·.allRequiredAreLoaded)
    else f.state.allRequiredAreLoaded
  ({ prioritizer with
      frameVisited := f.visitedRootChunks
      protectedChunks := f.protectedChunks
      latestResult := some { f.state with allRequiredAreLoaded } },
    f.requestBatcher.finish)

end ChunkFetcher

end DimosViewer
