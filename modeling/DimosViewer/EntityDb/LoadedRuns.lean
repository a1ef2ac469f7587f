import DimosViewer.EntityDb.LoadedLaws
import DimosViewer.Store.RunLaws

/-!
# The loaded ranges over whole runs

The counts follow the load states, as long as no chunk leaves the loaded state, or is
reported as deleted, while the ranges are not told.
-/

namespace DimosViewer

open Reach (Reachable)
open Std (TreeMap)

namespace MergedRanges

variable {m : MergedRanges} {paths : ComponentPaths} {chunk : ChunkId}

theorem onChunkLoaded_eq (m : MergedRanges) (chunk : ChunkId) (paths : ComponentPaths) :
    ∃ ranges, m.onChunkLoaded chunk paths = { m with ranges } := by
  rw [onChunkLoaded]
  split
  · split
    · exact ⟨_, rfl⟩
    · exact ⟨_, rfl⟩
  · exact ⟨_, rfl⟩

theorem onChunkUnloaded_eq (m : MergedRanges) (chunk : ChunkId) (paths : ComponentPaths) :
    ∃ ranges, m.onChunkUnloaded chunk paths = { m with ranges } := by
  rw [onChunkUnloaded]
  split
  · split
    · exact ⟨_, rfl⟩
    · exact ⟨_, rfl⟩
  · exact ⟨_, rfl⟩

end MergedRanges

namespace RrdManifestIndex

variable {index : RrdManifestIndex} {chunk : ChunkId}

def stateOf (index : RrdManifestIndex) (chunk : ChunkId) : Option LoadState :=
  (index.rootChunks[chunk]?).map (·.state)

def Tracked (index : RrdManifestIndex) : Prop :=
  ∀ loaded, index.loadedRanges = some loaded →
    loaded.ranges.Counts index.componentPathsFromRootId index.isUnloaded

def Counted (index : RrdManifestIndex) (chunk : ChunkId) : Prop :=
  ∃ loaded, index.loadedRanges = some loaded ∧
    loaded.ranges.isChunkInteresting index.componentPathsFromRootId chunk = true ∧
    ∃ segments, loaded.ranges.rangesFromChunk[chunk]? = some segments

-- ---------------------------------------------------------------------------
-- States
-- ---------------------------------------------------------------------------

theorem stateOf_setState (index : RrdManifestIndex) (chunk c : ChunkId) (state : LoadState) :
    (index.setState chunk state).stateOf c =
      if chunk = c then (index.stateOf c).map fun _ => state else index.stateOf c := by
  rw [stateOf, setState, OrdMap.getElem?_modify, stateOf]
  split
  case isTrue he =>
    rw [he, Option.map_map, Option.map_map]
    rfl
  case isFalse => rfl

theorem isUnloaded_eq (index : RrdManifestIndex) (chunk : ChunkId) :
    index.isUnloaded chunk = (index.stateOf chunk).all (· ≠ .fullyLoaded) := by
  rw [isUnloaded, stateOf, Option.all_map]
  rcases index.rootChunks[chunk]? with _ | info
  · rfl
  · simp [RootChunkInfo.isFullyLoaded]

theorem isUnloaded_setState_of_ne {c : ChunkId} (h : c ≠ chunk) (state : LoadState) :
    (index.setState chunk state).isUnloaded c = index.isUnloaded c := by
  rw [isUnloaded_eq, stateOf_setState, if_neg (Ne.symm h), isUnloaded_eq]

theorem isUnloaded_setState (h : state ≠ .fullyLoaded) :
    (index.setState chunk state).isUnloaded chunk = true := by
  rw [isUnloaded_eq, stateOf_setState, if_pos rfl]
  cases index.stateOf chunk with
  | none => rfl
  | some old => simpa using h

theorem Tracked.setState (h : index.Tracked) {state : LoadState} (hstate : state ≠ .fullyLoaded)
    (hok : index.Counted chunk → index.stateOf chunk ≠ some .fullyLoaded) :
    (index.setState chunk state).Tracked := by
  intro loaded hl
  refine (h loaded hl).congr fun idx c hc => ?_
  by_cases he : c = chunk
  · subst he
    obtain ⟨hi, segments, hs, -⟩ := MergedRanges.mem_coveringChunks.mp hc
    have hold := hok ⟨loaded, hl, hi, segments, hs⟩
    rw [isUnloaded_setState hstate, isUnloaded_eq]
    cases hst : index.stateOf c with
    | none => rfl
    | some old =>
      rw [hst] at hold
      simpa using fun he => hold (congrArg some he)
  · exact isUnloaded_setState_of_ne he state

theorem Tracked.foldl_setState (h : index.Tracked) {state : LoadState}
    (hstate : state ≠ .fullyLoaded) {chunks : List ChunkId}
    (hok : ∀ c ∈ chunks, index.Counted c → index.stateOf c ≠ some .fullyLoaded) :
    (chunks.foldl (fun index c => index.setState c state) index).Tracked := by
  induction chunks generalizing index with
  | nil => exact h
  | cons chunk rest ih =>
    refine ih (h.setState hstate (hok chunk List.mem_cons_self)) fun c hc hcounted => ?_
    have hold := hok c (List.mem_cons_of_mem _ hc) hcounted
    rw [stateOf_setState]
    split
    · cases hst : index.stateOf c with
      | none => nofun
      | some old => exact fun he => hstate (Option.some.inj he)
    · exact hold

-- ---------------------------------------------------------------------------
-- Events
-- ---------------------------------------------------------------------------

theorem stateOf_markRootAs (newState : LoadState) (index : RrdManifestIndex)
    (chunk c : ChunkId) :
    (markRootAs newState index chunk).stateOf c =
      if chunk = c then (index.stateOf c).map fun _ => newState else index.stateOf c := by
  rw [markRootAs]
  split
  case h_1 hnone =>
    split
    case isTrue he =>
      subst he
      rw [stateOf, hnone]
      rfl
    case isFalse => rfl
  case h_2 => exact stateOf_setState index chunk c newState

theorem counted_markRootAs (newState : LoadState) (index : RrdManifestIndex)
    (chunk c : ChunkId) (h : (markRootAs newState index chunk).Counted c) : index.Counted c := by
  rw [markRootAs] at h
  split at h
  case h_1 => exact h
  case h_2 info _ =>
    obtain ⟨loaded', hl, hi, segments, hs⟩ := h
    obtain ⟨loaded, hold, rfl⟩ := Option.map_eq_some_iff.mp hl
    refine ⟨loaded, hold, ?_⟩
    dsimp only at hi hs
    split at hi
    case isTrue he => exact ⟨hi, segments, by rwa [if_pos he] at hs⟩
    case isFalse he =>
      rw [if_neg he] at hs
      cases newState with
      | unloaded =>
        obtain ⟨ranges, hr⟩ := loaded.ranges.onChunkUnloaded_eq chunk index.componentPathsFromRootId
        dsimp only [setState] at hi hs
        rw [hr] at hi hs
        exact ⟨hi, segments, hs⟩
      | inTransit => exact ⟨hi, segments, hs⟩
      | fullyLoaded =>
        obtain ⟨ranges, hr⟩ := loaded.ranges.onChunkLoaded_eq chunk index.componentPathsFromRootId
        dsimp only [setState] at hi hs
        rw [hr] at hi hs
        exact ⟨hi, segments, hs⟩

theorem onChunkUnloaded_of_not_counted {loaded : LoadedRanges}
    (hl : index.loadedRanges = some loaded) (h : ¬ index.Counted chunk) :
    loaded.ranges.onChunkUnloaded chunk index.componentPathsFromRootId = loaded.ranges := by
  rw [MergedRanges.onChunkUnloaded]
  split
  case isTrue hi =>
    split
    · rfl
    case h_2 segments hs => exact absurd ⟨loaded, hl, hi, segments, hs⟩ h
  case isFalse => rfl

/-- The loaded ranges are told that a chunk was loaded, or, unless it was in transit, that it no
longer is. -/
theorem Tracked.markRootAs (h : index.Tracked) {newState : LoadState}
    (hstate : newState ≠ .inTransit)
    (hok : newState = .unloaded → index.Counted chunk → index.stateOf chunk ≠ some .inTransit) :
    (RrdManifestIndex.markRootAs newState index chunk).Tracked := by
  rw [RrdManifestIndex.markRootAs]
  split
  case h_1 => exact h
  case h_2 info hinfo =>
    have hold : index.stateOf chunk = some info.state := by
      rw [stateOf, hinfo]
      rfl
    intro loaded' hl'
    obtain ⟨loaded, (hl : index.loadedRanges = some loaded), rfl⟩ :=
      Option.map_eq_some_iff.mp hl'
    change (ite _ _ _ : LoadedRanges).ranges.Counts index.componentPathsFromRootId
      (index.setState chunk newState).isUnloaded
    have hother : ∀ c, c ≠ chunk →
        (index.setState chunk newState).isUnloaded c = index.isUnloaded c := fun c hc =>
      isUnloaded_setState_of_ne hc newState
    split
    case isTrue hsame =>
      refine (h loaded hl).congr fun idx c _ => ?_
      by_cases hc : c = chunk
      · subst hc
        rw [isUnloaded_eq, stateOf_setState, if_pos rfl, hold, isUnloaded_eq, hold, hsame]
        rfl
      · exact hother c hc
    case isFalse hne =>
      cases newState with
      | inTransit => exact absurd rfl hstate
      | unloaded =>
        by_cases hcounted : index.Counted chunk
        · refine (h loaded hl).onChunkUnloaded hother ?_ (isUnloaded_setState nofun)
          have htransit := hok rfl hcounted
          rw [isUnloaded_eq, hold]
          rw [hold] at htransit
          cases hs : info.state with
          | unloaded => exact absurd hs hne
          | inTransit => exact absurd (congrArg some hs) htransit
          | fullyLoaded => rfl
        · change (loaded.ranges.onChunkUnloaded chunk index.componentPathsFromRootId).Counts _ _
          rw [onChunkUnloaded_of_not_counted hl hcounted]
          exact h.setState (by decide : LoadState.unloaded ≠ .fullyLoaded) (fun hc => absurd hc hcounted)
            loaded hl
      | fullyLoaded =>
        refine (h loaded hl).onChunkLoaded hother ?_ ?_
        · rw [isUnloaded_eq, hold]
          simpa using hne
        · rw [isUnloaded_eq, stateOf_setState, if_pos rfl, hold]
          rfl

theorem Tracked.markRootsAs (h : index.Tracked) {newState : LoadState}
    (hstate : newState ≠ .inTransit) {roots : List ChunkId}
    (hok : newState = .unloaded → ∀ root ∈ roots, index.Counted root →
      index.stateOf root ≠ some .inTransit) :
    (roots.foldl (RrdManifestIndex.markRootAs newState) index).Tracked := by
  induction roots generalizing index with
  | nil => exact h
  | cons root rest ih =>
    refine ih (h.markRootAs hstate fun hn => hok hn root List.mem_cons_self)
      fun hn r hr hcounted => ?_
    have hold := hok hn r (List.mem_cons_of_mem _ hr) (counted_markRootAs _ _ _ _ hcounted)
    rw [stateOf_markRootAs]
    split
    · cases hst : index.stateOf r with
      | none => nofun
      | some old => exact fun he => hstate (Option.some.inj he)
    · exact hold

theorem Tracked.updateLoadedRanges (h : index.Tracked) (timeline : TimelineName) :
    (index.updateLoadedRanges timeline).Tracked := by
  rw [RrdManifestIndex.updateLoadedRanges]
  split
  case h_1 loaded hl =>
    intro loaded' hl'
    obtain rfl := Option.some.inj hl'
    exact (h loaded (Option.filter_eq_some_iff.mp hl).1).updateComponentsOfInterest _
  case h_2 =>
    split
    · exact h
    · intro loaded hl
      obtain rfl := Option.some.inj hl
      exact MergedRanges.counts_new _ _

-- ---------------------------------------------------------------------------
-- Runs
-- ---------------------------------------------------------------------------

inductive Action where
  | append (delta : RrdManifestDelta)
  | setComponentsOfInterest (interest : Finset ComponentPathKey)
  | handleFetchResult (newInTransitChunks : List ChunkId) (timeline : Option TimelineName)
  | cancelOutdatedRequests (cancelled : List ChunkId)
  /-- One of the events of a batch. -/
  | onEvent (store : ChunkStore) (event : ChunkStoreDiff)

def act (index : RrdManifestIndex) : Action → RrdManifestIndex
  | .append delta => index.append delta
  | .setComponentsOfInterest interest => index.setComponentsOfInterest interest
  | .handleFetchResult chunks timeline => index.handleFetchResult chunks timeline
  | .cancelOutdatedRequests cancelled => index.cancelOutdatedRequests cancelled
  | .onEvent store event => index.onEvents store [event]

abbrev Reached (ok : RrdManifestIndex → Action → Prop) (index : RrdManifestIndex) : Prop :=
  Reachable {} act ok index

/-- No root that the loaded ranges count is deleted from while it is in transit, and none that is
fully loaded is requested or cancelled. -/
def Undisturbed (index : RrdManifestIndex) : Action → Prop
  | .handleFetchResult chunks _ =>
    ∀ c ∈ chunks, index.Counted c → index.stateOf c ≠ some .fullyLoaded
  | .cancelOutdatedRequests cancelled =>
    ∀ c ∈ cancelled, index.Counted c → index.stateOf c ≠ some .fullyLoaded
  | .onEvent store (.deletion del) =>
    ∀ root ∈ store.findRootChunks del.chunk.id, index.Counted root →
      index.stateOf root ≠ some .inTransit
  | _ => True

theorem Tracked.act (h : index.Tracked) {action : Action} (hok : index.Undisturbed action) :
    (index.act action).Tracked := by
  cases action with
  | append delta =>
    intro loaded (hl : none = some loaded)
    cases hl
  | setComponentsOfInterest interest => exact h
  | handleFetchResult chunks timeline =>
    have hset := h.foldl_setState (by decide : LoadState.inTransit ≠ .fullyLoaded) hok
    cases timeline with
    | none => exact hset
    | some timeline => exact hset.updateLoadedRanges timeline
  | cancelOutdatedRequests cancelled =>
    rw [RrdManifestIndex.act, RrdManifestIndex.cancelOutdatedRequests]
    split
    · exact h.foldl_setState (by decide : LoadState.unloaded ≠ .fullyLoaded) hok
    · exact h
  | onEvent store event =>
    rw [RrdManifestIndex.act, onEvents]
    split
    · cases event with
      | addition add => exact h.markRootsAs (by decide : LoadState.fullyLoaded ≠ .inTransit) nofun
      | virtualAddition manifest => exact h
      | deletion del => exact h.markRootsAs (by decide : LoadState.unloaded ≠ .inTransit) fun _ => hok
    · exact h

theorem tracked_new : ({} : RrdManifestIndex).Tracked := by
  intro loaded (hl : none = some loaded)
  cases hl

theorem tracked_of_reached (h : Reached Undisturbed index) : index.Tracked :=
  h.invariant tracked_new fun _ _ hs hok => hs.act hok

end RrdManifestIndex

end DimosViewer
