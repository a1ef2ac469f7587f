import DimosViewer.Query.RangeFilter
import DimosViewer.Store.GcTarget
import Mathlib.Data.Set.Finite.Lemmas

/-!
# Garbage collection and the latest rows

`protect_latest` protects the chunks that start last, by the keys of the index,
and after them those that end last. The answer of a latest-at query at the end of
time is the row with the greatest time and row id, wherever its chunk starts.
-/

namespace DimosViewer

open Std (TreeMap)

namespace ChunkStore

variable {env : Env} {pol : Policy} {config : ChunkStoreConfig}

-- ---------------------------------------------------------------------------
-- Latest rows
-- ---------------------------------------------------------------------------

def Holds (s : ChunkStore) (e : EntityPath) (timeline : TimelineName)
    (component : ComponentIdentifier) (row : QueriedRow) : Prop :=
  ∃ c, s.Physical c ∧ c.entityPath = e ∧ row ∈ c.queriedRows timeline component ∧
    row.cell.isSome ∧ row.time.isSome

structure IsLatest (s : ChunkStore) (e : EntityPath) (timeline : TimelineName)
    (component : ComponentIdentifier) (row : QueriedRow) : Prop where
  holds : s.Holds e timeline component row
  greatest : ∀ row', s.Holds e timeline component row' → row'.key ≤ row.key

theorem timeline_of_mem_queriedRows {c : Chunk} (h : row ∈ c.queriedRows timeline component)
    (ht : row.time.isSome) : ∃ tc, c.timeline? timeline = some tc := by
  obtain ⟨data, hdata, rfl⟩ := List.mem_map.mp h
  obtain ⟨i, -, rfl⟩ := List.mem_map.mp hdata
  cases htc : c.timeline? timeline with
  | none => simp [RowData.queried, Chunk.rowAt, htc] at ht
  | some tc => exact ⟨tc, rfl⟩

theorem component_of_mem_queriedRows {c : Chunk} (h : row ∈ c.queriedRows timeline component)
    (hc : row.cell.isSome) : ∃ column, c.components.get component = some column := by
  obtain ⟨data, hdata, rfl⟩ := List.mem_map.mp h
  obtain ⟨i, -, rfl⟩ := List.mem_map.mp hdata
  cases hcol : c.components.get component with
  | none => simp [RowData.queried, Chunk.rowAt, hcol] at hc
  | some column => exact ⟨column, rfl⟩

/-- Where there are rows, there is a latest one. -/
theorem exists_isLatest {s : ChunkStore} (h : s.Holds e timeline component row) :
    ∃ row, s.IsLatest e timeline component row := by
  have hfin : {row | s.Holds e timeline component row}.Finite := by
    refine (List.finite_toSet (s.physicalChunksPerChunkId.values.flatMap
      (·.queriedRows timeline component))).subset ?_
    rintro row ⟨c, hc, -, hrow, -⟩
    exact List.mem_flatMap.mpr ⟨c, OrdMap.mem_values.mpr ⟨c.id, hc⟩, hrow⟩
  obtain ⟨latest, hl, hmax⟩ := Set.exists_max_image _ QueriedRow.key hfin ⟨row, h⟩
  exact ⟨latest, hl, hmax⟩

theorem IsLatest.of_sub {s s' : ChunkStore} (h : s.IsLatest e timeline component row)
    (hp : PhysicalSub s s') (hrow : s'.Holds e timeline component row) :
    s'.IsLatest e timeline component row :=
  ⟨hrow, fun row' ⟨c, hc, hrest⟩ => h.greatest row' ⟨c, hp.some hc, hrest⟩⟩

theorem isLatest_iff_of_sub {s s' : ChunkStore} (hp : PhysicalSub s s')
    (h : ∀ row, s.IsLatest e timeline component row → s'.Holds e timeline component row)
    (row : QueriedRow) :
    s'.IsLatest e timeline component row ↔ s.IsLatest e timeline component row := by
  refine ⟨fun hl => ?_, fun hl => hl.of_sub hp (h row hl)⟩
  obtain ⟨c, hc, hrest⟩ := hl.holds
  have hrow : s.Holds e timeline component row := ⟨c, hp.some hc, hrest⟩
  obtain ⟨latest, hlatest⟩ := exists_isLatest hrow
  exact ⟨hrow, fun row' hrow' =>
    (hlatest.greatest row' hrow').trans (hl.greatest latest (h latest hlatest))⟩

-- ---------------------------------------------------------------------------
-- What is protected
-- ---------------------------------------------------------------------------

/-- The physical chunks of one index, those that start last first, then those that end
last first. -/
def latestFirst (s : ChunkStore) (p : ChunkIdSetPerTime) : List ChunkId :=
  (p.perStartTime.values.reverse.flatMap (·.toList) ++
    p.perEndTime.values.reverse.flatMap (·.toList)).filter s.isPhysical

/-- A chunk is among the first `n` of the index of some component. -/
def AmongLatest (s : ChunkStore) (n : Nat) (cid : ChunkId) : Prop :=
  ∃ e timeline component p, s.perTimeOfComponent? e timeline component = some p ∧
    cid ∈ (s.latestFirst p).take n

theorem perTimeOfComponent?_eq_some {s : ChunkStore} :
    s.perTimeOfComponent? e timeline component = some p ↔
      ∃ perTimeline, s.temporalChunkIdsPerEntityPerComponent[e]? = some perTimeline ∧
        ∃ perComponent, perTimeline[timeline]? = some perComponent ∧
          perComponent[component]? = some p := by
  rw [perTimeOfComponent?, TreeMap.getD_eq_getD_getElem?, TreeMap.getD_eq_getD_getElem?]
  cases s.temporalChunkIdsPerEntityPerComponent[e]? with
  | none => simp
  | some perTimeline => cases ht : perTimeline[timeline]? <;> simp [ht]

theorem mem_findAllProtectedPhysicalChunkIds {s : ChunkStore} :
    cid ∈ s.findAllProtectedPhysicalChunkIds n ↔ s.AmongLatest n cid := by
  simp only [findAllProtectedPhysicalChunkIds, List.mem_flatMap, OrdMap.mem_values, AmongLatest,
    perTimeOfComponent?_eq_some]
  constructor
  · rintro ⟨perTimeline, ⟨e, he⟩, perComponent, ⟨timeline, ht⟩, p, ⟨component, hp⟩, hm⟩
    exact ⟨e, timeline, component, p, ⟨perTimeline, he, perComponent, ht, hp⟩, hm⟩
  · rintro ⟨e, timeline, component, p, ⟨perTimeline, he, perComponent, ht, hp⟩, hm⟩
    exact ⟨perTimeline, ⟨e, he⟩, perComponent, ⟨timeline, ht⟩, p, ⟨component, hp⟩, hm⟩

def Shielded (s : ChunkStore) (options : GarbageCollectionOptions) (c : Chunk) : Prop :=
  options.isChunkProtected c = true ∨ s.AmongLatest options.protectLatest c.id

def LatestShielded (s : ChunkStore) (options : GarbageCollectionOptions) : Prop :=
  ∀ e timeline component row, s.IsLatest e timeline component row →
    ∃ c, s.Physical c ∧ c.entityPath = e ∧ row ∈ c.queriedRows timeline component ∧
      s.Shielded options c

/-- No target, no budget and no clock changes an answer at the end of time. -/
def KeepsLatest (env : Env) (s : ChunkStore) (options : GarbageCollectionOptions) : Prop :=
  ∀ target timeBudget clock e timeline component row,
    (s.gc env { options with target, timeBudget } clock).1.IsLatest e timeline component row ↔
      s.IsLatest e timeline component row

-- ---------------------------------------------------------------------------
-- What leaves
-- ---------------------------------------------------------------------------

theorem physicalSub_gc (env : Env) (s : ChunkStore) (options : GarbageCollectionOptions)
    (clock : GcClock) : PhysicalSub s (s.gc env options clock).1 :=
  fun cid => (physical_gc_or env s options clock cid).imp id And.left

theorem furthestFirst_none {s : ChunkStore} {options : GarbageCollectionOptions}
    (hf : options.furthestFrom = none) : s.furthestFirst options = [] := by
  rw [furthestFirst, hf]

theorem gcFindCandidates_subset_order {s : ChunkStore} {options : GarbageCollectionOptions}
    (hf : options.furthestFrom = none) :
    s.gcFindCandidates env options target budget elapsed ⊆ s.chunksInPriorityOrder options := by
  unfold gcFindCandidates
  rw [hf]
  dsimp only
  split
  · exact List.nil_subset _
  · split
    · exact List.nil_subset _
    · exact takeChunks_subset

/-- A protected chunk stays, whatever the target and the clock. -/
theorem Shielded.physical_gc {s : ChunkStore} {options : GarbageCollectionOptions}
    (h : Core env pol s) (hr : s.RowsExact) (hf : options.furthestFrom = none)
    (hc : s.Physical c) (hs : s.Shielded options c) (clock : GcClock) :
    (s.gc env options clock).1.Physical c := by
  rcases physical_gc_or env s options clock c.id with he | ⟨-, hm⟩
  · exact he.trans hc
  · obtain ⟨d, hd, hid⟩ := List.mem_map.mp hm
    have hdc : some d = some c := (mem_gcFindCandidates h.keyed hd).1.symm.trans (hid ▸ hc)
    obtain rfl := Option.some.inj hdc
    obtain ⟨hu, hnot⟩ := (mem_chunksInPriorityOrder h hr).mp (gcFindCandidates_subset_order hf hd)
    rcases hs with hp | ha
    · rw [((mem_unprotected h.keyed).mp hu).2.2] at hp
      cases hp
    · exact absurd (mem_findAllProtectedPhysicalChunkIds.mpr ha) hnot

/-- A target beyond all bytes leaves nothing but static and protected chunks. -/
theorem shielded_of_physical_gc {s : ChunkStore} {options : GarbageCollectionOptions}
    (h : Core env pol s) (hr : s.RowsExact) (hf : options.furthestFrom = none)
    (hb : options.timeBudget = none)
    (ht : options.target = .dropAtLeastBytes (env.bytes (s.chunksInPriorityOrder options) + 1))
    (hc : (s.gc env options clock).1.Physical c) (hst : c.isStatic = false) :
    s.Shielded options c := by
  have hcs := (physicalSub_gc env s options clock).some hc
  by_contra hnot
  obtain ⟨hp, ha⟩ := not_or.mp hnot
  have hm : c ∈ s.chunksInPriorityOrder options := (mem_chunksInPriorityOrder h hr).mpr
    ⟨(mem_unprotected h.keyed).mpr ⟨hcs, hst, Bool.eq_false_iff.mpr hp⟩,
      fun hc => ha (mem_findAllProtectedPhysicalChunkIds.mp hc)⟩
  obtain ⟨htakes, -⟩ := takeChunks_spec env
    (env.bytes (s.chunksInPriorityOrder options) + 1) 0 0 (s.chunksInPriorityOrder options)
  have hall := htakes.reached.resolve_right fun hle => by
    have := env.bytes_le htakes.begins.sublist
    rw [Nat.zero_add] at hle
    exact absurd (hle.trans this) (Nat.not_succ_le_self _)
  have hcand : s.gcFindCandidates env options (env.bytes (s.chunksInPriorityOrder options) + 1)
      none clock.mark = s.chunksInPriorityOrder options := by
    rw [gcFindCandidates_eq, if_neg (Nat.succ_ne_zero _), furthestFirst_none hf, takeChunks]
    dsimp only
    rw [if_neg (Nat.not_succ_le_zero _), List.nil_append, hall]
  rw [Physical, ChunkStore.physical_gc env s clock hb, ht,
    GarbageCollectionTarget.targetBytesFromSize, hcand, if_pos (List.mem_map_of_mem hm)] at hc
  cases hc

-- ---------------------------------------------------------------------------
-- The law
-- ---------------------------------------------------------------------------

/-- The answers at the end of time are safe if and only if each of them is in a chunk that
starts or ends late enough to be protected. -/
theorem keepsLatest_iff {s : ChunkStore} (h : Reached env pol config s)
    {options : GarbageCollectionOptions} (hf : options.furthestFrom = none) :
    s.KeepsLatest env options ↔ s.LatestShielded options := by
  have hcore := h.core
  have hr := rowsExact_of_reached h
  constructor
  · intro hk e timeline component row hl
    -- Everything that may go goes, so the chunk of a latest row is one that may not.
    let options' : GarbageCollectionOptions := { options with
      target := .dropAtLeastBytes (env.bytes (s.chunksInPriorityOrder options) + 1)
      timeBudget := none }
    obtain ⟨c, hc, he, hrow, -, htime⟩ := ((hk options'.target none
      ⟨fun _ => 0, 0, fun _ => 0, 0, fun _ => 0⟩ e timeline component row).mpr hl).holds
    obtain ⟨tc, htc⟩ := timeline_of_mem_queriedRows hrow htime
    have hshield : s.Shielded options' c :=
      shielded_of_physical_gc hcore hr hf rfl rfl hc (isStatic_eq_false_of_timeline? htc)
    exact ⟨c, (physicalSub_gc env s _ _).some hc, he, hrow, hshield⟩
  · intro hs target timeBudget clock e timeline component row
    let options' : GarbageCollectionOptions := { options with target, timeBudget }
    refine isLatest_iff_of_sub (physicalSub_gc env s options' clock) (fun row hl => ?_) row
    obtain ⟨c, hc, he, hrow, hshield⟩ := hs e timeline component row hl
    have hstay : (s.gc env options' clock).1.Physical c :=
      @Shielded.physical_gc _ _ _ _ options' hcore hr hf hc hshield clock
    obtain ⟨-, -, -, -, hcell, htime⟩ := hl.holds
    exact ⟨c, hstay, he, hrow, hcell, htime⟩

def wideChunk : Chunk :=
  .ofColumns 1 ["e"] [1, 2] [(⟨"t", .sequence⟩, [.newTemporal 0, .newTemporal 10])]
    [("c", [some [], some []])]

def wideRun (time : Int) : List Op := [.insertChunk wideChunk, .insertChunk (.single 2 3 time)]

def protectLatestOne : GarbageCollectionOptions :=
  { GarbageCollectionOptions.gcEverything with protectLatest := 1 }

theorem reached_wideRun {time : Int} (h : (Chunk.single 2 3 time).WellFormed) :
    Reached .plain .any .COMPACTION_DISABLED (run .plain .COMPACTION_DISABLED (wideRun time)) := by
  have hid : (2 : ChunkId) < 1000 := by decide
  refine reached_run ⟨⟨?_, ?_, trivial, trivial⟩, ⟨h, ?_, trivial, trivial⟩, trivial⟩
  · decide
  · exact Env.plain_not_future (by decide) _
  · exact Env.plain_not_future hid _

/-- The second chunk starts after the first one has ended, and its row is the latest one. -/
theorem keepsLatest_wideRun :
    (run .plain .COMPACTION_DISABLED (wideRun 20)).KeepsLatest .plain protectLatestOne := by
  refine (keepsLatest_iff (reached_wideRun (by decide)) rfl).mpr ?_
  intro e timeline component row hl
  obtain ⟨c, hc, he, hrow, hcell, htime⟩ := hl.holds
  refine ⟨c, hc, he, hrow, .inr ?_⟩
  rw [← mem_findAllProtectedPhysicalChunkIds]
  obtain ⟨tc, htc⟩ := timeline_of_mem_queriedRows hrow htime
  obtain ⟨column, hcol⟩ := component_of_mem_queriedRows hrow hcell
  by_contra hnot
  have hfirst : c = wideChunk := by
    have hall : ∀ c ∈ (run .plain .COMPACTION_DISABLED
        (wideRun 20)).physicalChunksPerChunkId.values, c.id ∉ (run .plain .COMPACTION_DISABLED
          (wideRun 20)).findAllProtectedPhysicalChunkIds 1 → c = wideChunk := by decide
    exact hall c (OrdMap.mem_values.mpr ⟨c.id, hc⟩) hnot
  subst hfirst
  obtain rfl : "t" = timeline := by
    by_contra hne
    simp [wideChunk, Chunk.ofColumns, Chunk.timeline?, OrdMap.lookup_cons, Ne.symm hne] at htc
  obtain rfl : "c" = component := by
    by_contra hne
    simp [wideChunk, Chunk.ofColumns, ChunkComponents.get, hne] at hcol
  subst he
  have hlater := hl.greatest ⟨3, some (⟨"t", .sequence⟩, .newTemporal 20), some ("u8", [])⟩
    ⟨.single 2 3 20, by unfold Physical; decide, rfl, List.mem_singleton_self _, rfl, rfl⟩
  have hless : ∀ row ∈ wideChunk.queriedRows "t" "c", row.key < toLex (.newTemporal 20, 3) := by
    decide
  exact absurd hlater (not_le_of_gt (hless row hrow))

/-- The second chunk lies within the first one and is protected in its place. -/
theorem wideRun_loses_latest :
    Reached .plain .any .COMPACTION_DISABLED (run .plain .COMPACTION_DISABLED (wideRun 5)) ∧
      ¬ (run .plain .COMPACTION_DISABLED (wideRun 5)).KeepsLatest .plain protectLatestOne := by
  refine ⟨reached_wideRun (by decide), fun h => ?_⟩
  have hl : (run .plain .COMPACTION_DISABLED (wideRun 5)).IsLatest ["e"] "t" "c"
      ⟨2, some (⟨"t", .sequence⟩, .newTemporal 10), some ("u8", [])⟩ := by
    refine ⟨⟨wideChunk, by unfold Physical; decide, rfl,
      List.mem_cons_of_mem _ (List.mem_singleton_self _), rfl, rfl⟩, ?_⟩
    rintro row ⟨c, hc, -, hrow, -⟩
    have hall : ∀ c ∈ (run .plain .COMPACTION_DISABLED
        (wideRun 5)).physicalChunksPerChunkId.values, ∀ row ∈ c.queriedRows "t" "c",
          row.key ≤ toLex (.newTemporal 10, 2) := by decide
    exact hall c (OrdMap.mem_values.mpr ⟨c.id, hc⟩) row hrow
  obtain ⟨c, hc, -, hrow, -⟩ := ((h .everything none ⟨fun _ => 0, 0, fun _ => 0, 0, fun _ => 0⟩
    ["e"] "t" "c" _).mpr hl).holds
  have hall : ∀ c ∈ ((run .plain .COMPACTION_DISABLED (wideRun 5)).gc .plain protectLatestOne
      ⟨fun _ => 0, 0, fun _ => 0, 0, fun _ => 0⟩).1.physicalChunksPerChunkId.values,
        ∀ row ∈ c.queriedRows "t" "c", row.rowId ≠ 2 := by decide
  exact hall c (OrdMap.mem_values.mpr ⟨c.id, hc⟩) _ hrow rfl

end ChunkStore

end DimosViewer
