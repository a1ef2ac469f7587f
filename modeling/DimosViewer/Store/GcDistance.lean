import DimosViewer.Store.NextTime

/-!
# Distances of chunks to a pivot

The distance of a sorted time column to a pivot is found next to the partition point, as if all
its times had been looked at.
-/

namespace DimosViewer

open ChunkStore (partitionPoint minDistance)

theorem min?_eq_of_covers [LinearOrder α] {part l : List α} (hsub : ∀ a ∈ part, a ∈ l)
    (hcov : ∀ b ∈ l, ∃ a ∈ part, a ≤ b) : part.min? = l.min? := by
  cases hl : l.min? with
  | none =>
    rw [List.min?_eq_none_iff] at hl ⊢
    refine List.eq_nil_iff_forall_not_mem.mpr fun a ha => ?_
    have := hsub a ha
    rw [hl] at this
    cases this
  | some m =>
    obtain ⟨hm, hle⟩ := List.min?_eq_some_iff.mp hl
    obtain ⟨a, ha, ham⟩ := hcov m hm
    rw [List.min?_eq_some_iff]
    refine ⟨?_, fun b hb => hle b (hsub b hb)⟩
    rwa [← le_antisymm ham (hle a (hsub a ha))]

-- ---------------------------------------------------------------------------
-- One time column
-- ---------------------------------------------------------------------------

def TimeInt.absDiff (t time : TimeInt) : Nat := (t.asI64 - time.asI64).natAbs

theorem TimeInt.absDiff_le_of_le_of_lt {a t time : TimeInt} (hta : t ≤ a) (hlt : a < time) :
    a.absDiff time ≤ t.absDiff time := by
  have h1 : t.asI64 ≤ a.asI64 := hta
  have h2 : a.asI64 < time.asI64 := hlt
  unfold TimeInt.absDiff
  omega

theorem TimeInt.absDiff_le_of_ge_of_le {a t time : TimeInt} (hta : time ≤ a) (hat : a ≤ t) :
    a.absDiff time ≤ t.absDiff time := by
  have h1 : time.asI64 ≤ a.asI64 := hta
  have h2 : a.asI64 ≤ t.asI64 := hat
  unfold TimeInt.absDiff
  omega

namespace ChunkStore

def minDistanceSlow (tc : TimeColumn) (time : TimeInt) : Option Nat :=
  tc.times.map (fun t => (TimeInt.newTemporal t.asI64).absDiff time) |>.min?

def neighbors (times : List TimeInt) (time : TimeInt) : List TimeInt :=
  let pivot := partitionPoint (· < time) times
  [times[pivot - 1]?, times[pivot]?].filterMap id

theorem mem_of_mem_neighbors {times : List TimeInt} {time t : TimeInt}
    (h : t ∈ neighbors times time) : t ∈ times := by
  simp only [neighbors, List.mem_filterMap, List.mem_cons, List.not_mem_nil, or_false, id] at h
  rcases h with ⟨_, rfl | rfl, h⟩
  · exact List.mem_of_getElem? h
  · exact List.mem_of_getElem? h

theorem exists_neighbor_of_lt {times : List TimeInt} {time t : TimeInt}
    (hs : times.Pairwise (· ≤ ·)) (ht : t ∈ times) (hlt : t < time) :
    ∃ a ∈ neighbors times time, a.absDiff time ≤ t.absDiff time := by
  obtain ⟨a, ha, hle⟩ := le_getLast?_of_sorted hs ht hlt
  have hmem := List.mem_of_getLast? ha
  have hpos : 0 < partitionPoint (· < time) times := List.length_pos_of_mem hmem
  have hget : times[partitionPoint (· < time) times - 1]? = some a :=
    (getElem?_pred_partitionPoint _ _ hpos).trans ha
  refine ⟨a, ?_, TimeInt.absDiff_le_of_le_of_lt hle (by simpa using List.mem_takeWhile_imp hmem)⟩
  simp [neighbors, hget]

theorem exists_neighbor_of_ge {times : List TimeInt} {time t : TimeInt}
    (hs : times.Pairwise (· ≤ ·)) (ht : t ∈ times) (hge : time ≤ t) :
    ∃ a ∈ neighbors times time, a.absDiff time ≤ t.absDiff time := by
  obtain ⟨a, ha, hle⟩ : NeighborSearch.Covers (times.find? fun u => !decide (u < time)) t :=
    covers_find?_of_sorted hs ht (by simpa using hge)
  have hget : times[partitionPoint (· < time) times]? = some a :=
    (getElem?_partitionPoint _ _).trans ha
  have htime : time ≤ a := by simpa using List.find?_some ha
  refine ⟨a, ?_, TimeInt.absDiff_le_of_ge_of_le htime hle⟩
  simp [neighbors, hget]

theorem minDistance_eq_slow {tc : TimeColumn} (h : tc.WellFormed) (time : TimeInt) :
    minDistance tc time = minDistanceSlow tc time := by
  by_cases hs : tc.isSorted = true
  · have hall : tc.times.map (fun t => (TimeInt.newTemporal t.asI64).absDiff time) =
        tc.times.map (·.absDiff time) :=
      List.map_congr_left fun t ht => by rw [TimeInt.newTemporal_asI64_eq (h.temporal t ht)]
    have hfast : minDistance tc time = ((neighbors tc.times time).map (·.absDiff time)).min? := by
      rw [minDistance, if_pos hs, neighbors, List.map_filterMap]
      rfl
    rw [hfast, minDistanceSlow, hall]
    refine min?_eq_of_covers (fun d hd => ?_) fun d hd => ?_
    · obtain ⟨t, ht, rfl⟩ := List.mem_map.mp hd
      exact List.mem_map_of_mem (mem_of_mem_neighbors ht)
    · obtain ⟨t, ht, rfl⟩ := List.mem_map.mp hd
      have hpairs := h.pairwise hs
      obtain ⟨a, ha, hle⟩ : ∃ a ∈ neighbors tc.times time, a.absDiff time ≤ t.absDiff time := by
        rcases lt_or_ge t time with hlt | hge
        · exact exists_neighbor_of_lt hpairs ht hlt
        · exact exists_neighbor_of_ge hpairs ht hge
      exact ⟨_, List.mem_map_of_mem ha, hle⟩
  · rw [minDistance, if_neg hs]
    rfl

-- ---------------------------------------------------------------------------
-- All chunks
-- ---------------------------------------------------------------------------

def findTemporalChunksFurthestFromSlow (s : ChunkStore) (timeline : TimelineName)
    (time : TimeInt) : List Chunk :=
  let distances := s.physicalChunksPerChunkId.values.filterMap fun c => do
    let tc ← c.timeline? timeline
    let dist ← minDistanceSlow tc time
    return (c, dist)
  (distances.insertionSort fun a b => b.2 ≤ a.2).map Prod.fst

/-- The chunks come in the same order however their distances are found. -/
theorem findTemporalChunksFurthestFrom_eq_slow {s : ChunkStore}
    (h : ∀ c ∈ s.physicalChunksPerChunkId.values, c.WellFormed) (timeline : TimelineName)
    (time : TimeInt) :
    s.findTemporalChunksFurthestFrom timeline time =
      s.findTemporalChunksFurthestFromSlow timeline time := by
  have hdist : ∀ c ∈ s.physicalChunksPerChunkId.values, ∀ tc, c.timeline? timeline = some tc →
      minDistance tc time = minDistanceSlow tc time :=
    fun c hc tc htc => minDistance_eq_slow ((h c hc).timeline_of_lookup htc).1 time
  rw [findTemporalChunksFurthestFrom, findTemporalChunksFurthestFromSlow]
  congr 2
  refine List.filterMap_congr fun c hc => ?_
  cases htc : c.timeline? timeline with
  | none => rfl
  | some tc => simp only [Option.bind_eq_bind, Option.bind_some, hdist c hc tc htc]

def tiedRun : List Op :=
  [.insertChunk (.ofColumns 1 ["e"] [1, 2]
      [(⟨"t", .sequence⟩, [.newTemporal 8, .newTemporal 3])] [("c", [some [], some []])]),
    .insertChunk (.single 2 3 7), .insertChunk (.single 3 4 20)]

theorem findTemporalChunksFurthestFrom_eq_slow_tiedRun :
    (run .plain .COMPACTION_DISABLED tiedRun).findTemporalChunksFurthestFrom "t"
        (.newTemporal 5) =
      (run .plain .COMPACTION_DISABLED tiedRun).findTemporalChunksFurthestFromSlow "t"
        (.newTemporal 5) :=
  findTemporalChunksFurthestFrom_eq_slow (by decide +kernel) "t" (.newTemporal 5)

end ChunkStore

end DimosViewer
