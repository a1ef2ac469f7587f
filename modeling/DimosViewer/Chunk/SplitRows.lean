import Mathlib.Algebra.Order.BigOperators.Group.List
import DimosViewer.Chunk.DeriveLaws
import DimosViewer.Chunk.SplitLaws

/-!
# Rows of the pieces of a split

The pieces have all rows and columns of the chunk. A chunk that comes out of a split in one piece
meets the row thresholds.
-/

namespace DimosViewer.Chunk

-- ---------------------------------------------------------------------------
-- Slices
-- ---------------------------------------------------------------------------

def componentTypes (c : Chunk) : List (ComponentIdentifier × DataType) :=
  c.components.map fun column => (column.component, column.dataType)

/-- A chunk with some of the rows of another one, its columns all there and its flags still true. -/
structure IsSlice (c p : Chunk) : Prop where
  aligned : p.Aligned
  entityPath : p.entityPath = c.entityPath
  columnTypes : p.columnTypes = c.columnTypes
  componentTypes : p.componentTypes = c.componentTypes
  isSorted : c.isSorted = true → p.isSorted = true
  isTimeSorted : c.isTimeSorted = true → p.isTimeSorted = true
  sound : c.Sound → p.Sound
  numRows_le : p.numRows ≤ c.numRows
  rowIds_ne : p.rowIds ≠ []

theorem IsSlice.refl {c : Chunk} (h : c.Aligned) (hn : c.rowIds ≠ []) : IsSlice c c :=
  ⟨h, rfl, rfl, rfl, fun hs => hs, fun hs => hs, fun hs => hs, le_rfl, hn⟩

theorem IsSlice.trans {a b c : Chunk} (h : IsSlice a b) (h' : IsSlice b c) : IsSlice a c where
  aligned := h'.aligned
  entityPath := h'.entityPath.trans h.entityPath
  columnTypes := h'.columnTypes.trans h.columnTypes
  componentTypes := h'.componentTypes.trans h.componentTypes
  isSorted := h'.isSorted ∘ h.isSorted
  isTimeSorted := h'.isTimeSorted ∘ h.isTimeSorted
  sound := h'.sound ∘ h.sound
  numRows_le := h'.numRows_le.trans h.numRows_le
  rowIds_ne := h'.rowIds_ne

theorem rowSliced_componentTypes (c : Chunk) (id : ChunkId) (index len : Nat) :
    (c.rowSliced id index len).componentTypes = c.componentTypes := by
  have h : (c.emptied id).componentTypes = c.componentTypes := by
    simp [componentTypes, emptied, List.map_map, Function.comp_def]
  dsimp only [rowSliced]
  split
  · exact h
  · split
    · exact h
    · simp [componentTypes, List.map_map, Function.comp_def, SerializedComponentColumn.rowSliced]

theorem TimeColumn.isSorted_rowSliced {tc : TimeColumn} (h : tc.isSorted = true)
    (index len : Nat) : (tc.rowSliced index len).isSorted = true := by
  dsimp only [TimeColumn.rowSliced]
  split
  · rfl
  · split
    · rfl
    · simp [h, TimeColumn.new]

theorem isSorted_rowSliced {c : Chunk} (h : c.isSorted = true) (id : ChunkId) (index len : Nat) :
    (c.rowSliced id index len).isSorted = true := by
  dsimp only [rowSliced]
  split
  · rfl
  · split
    · rfl
    · simp [h]

theorem isTimeSorted_rowSliced {c : Chunk} (h : c.isTimeSorted = true) (id : ChunkId)
    (index len : Nat) : (c.rowSliced id index len).isTimeSorted = true := by
  have h0 : (c.emptied id).isTimeSorted = true := by
    simp [isTimeSorted, emptied, TimeColumn.emptied, TimeColumn.new]
  dsimp only [rowSliced]
  split
  · exact h0
  · split
    · exact h0
    · refine List.all_eq_true.mpr fun entry he => ?_
      obtain ⟨old, hold, rfl⟩ := List.mem_map.mp he
      exact TimeColumn.isSorted_rowSliced (List.all_eq_true.mp h old hold) _ _

theorem rowSliced_aligned {c : Chunk} (h : c.Aligned) (id : ChunkId) (index len : Nat) :
    (c.rowSliced id index len).Aligned := by
  refine (c.rowSliced_isSelection id index len).aligned h (fun i hi => ?_) ?_
    (rowSliced_componentNames c id index len)
  · have := List.mem_range'_1.mp hi
    omega
  · have ht := congrArg (List.map Prod.fst) (rowSliced_columnTypes c id index len)
    simpa [columnTypes, Function.comp_def] using ht

theorem rowSliced_isSlice {c : Chunk} (h : c.Aligned) (hi : index < c.numRows) (hl : 0 < len)
    (id : ChunkId) : IsSlice c (c.rowSliced id index len) where
  aligned := rowSliced_aligned h id index len
  entityPath := rowSliced_entityPath c id index len
  columnTypes := rowSliced_columnTypes c id index len
  componentTypes := rowSliced_componentTypes c id index len
  isSorted hs := isSorted_rowSliced hs id index len
  isTimeSorted hs := isTimeSorted_rowSliced hs id index len
  sound hs := hs.rowSliced id index len
  numRows_le := by
    rw [numRows, rowSliced_rowIds, List.length_take, List.length_drop, numRows]
    omega
  rowIds_ne := by
    rw [rowSliced_rowIds, ← List.length_pos_iff, List.length_take, List.length_drop]
    unfold numRows at hi
    omega

-- ---------------------------------------------------------------------------
-- Partitions
-- ---------------------------------------------------------------------------

structure IsPartition (cs ds : List Chunk) : Prop where
  rows : ds.flatMap rows = cs.flatMap rows
  isSlice : ∀ p ∈ ds, ∃ c ∈ cs, IsSlice c p

namespace IsPartition

theorem refl {c : Chunk} (h : c.Aligned) (hn : c.rowIds ≠ []) : IsPartition [c] [c] where
  rows := rfl
  isSlice p hp := by
    obtain rfl := List.mem_singleton.mp hp
    exact ⟨p, hp, .refl h hn⟩

theorem nil : IsPartition [] [] := ⟨rfl, fun _ hp => absurd hp List.not_mem_nil⟩

theorem trans (h : IsPartition cs ds) (h' : IsPartition ds es) : IsPartition cs es where
  rows := h'.rows.trans h.rows
  isSlice p hp := by
    obtain ⟨d, hd, hpd⟩ := h'.isSlice p hp
    obtain ⟨c, hc, hdc⟩ := h.isSlice d hd
    exact ⟨c, hc, hdc.trans hpd⟩

theorem append (h : IsPartition cs ds) (h' : IsPartition cs' ds') :
    IsPartition (cs ++ cs') (ds ++ ds') where
  rows := by rw [List.flatMap_append, List.flatMap_append, h.rows, h'.rows]
  isSlice p hp := by
    rcases List.mem_append.mp hp with hp | hp
    · obtain ⟨c, hc, hpc⟩ := h.isSlice p hp
      exact ⟨c, List.mem_append_left _ hc, hpc⟩
    · obtain ⟨c, hc, hpc⟩ := h'.isSlice p hp
      exact ⟨c, List.mem_append_right _ hc, hpc⟩

theorem length_le (h : IsPartition cs ds) : ds.length ≤ (cs.flatMap Chunk.rows).length := by
  rw [← h.rows, List.length_flatMap]
  have hone : ∀ n ∈ ds.map fun p => p.rows.length, 1 ≤ n := by
    intro n hn
    obtain ⟨p, hp, rfl⟩ := List.mem_map.mp hn
    obtain ⟨_, -, hpc⟩ := h.isSlice p hp
    exact length_rows p ▸ List.length_pos_of_ne_nil hpc.rowIds_ne
  have hsum := List.length_le_sum_of_one_le _ hone
  rwa [List.length_map] at hsum

end IsPartition

-- ---------------------------------------------------------------------------
-- Thresholds
-- ---------------------------------------------------------------------------

/-- The row thresholds. A threshold of zero is none. -/
structure MeetsThresholds (cfg : ChunkSplitConfig) (p : Chunk) : Prop where
  maxRows : 0 < cfg.chunkMaxRows → p.numRows ≤ cfg.chunkMaxRows
  maxRowsIfUnsorted : 0 < cfg.chunkMaxRowsIfUnsorted → p.isTimeSorted = false →
    p.numRows ≤ cfg.chunkMaxRowsIfUnsorted

theorem MeetsThresholds.slice {cfg : ChunkSplitConfig} {c p : Chunk} (h : c.MeetsThresholds cfg)
    (hp : IsSlice c p) : p.MeetsThresholds cfg where
  maxRows h0 := hp.numRows_le.trans (h.maxRows h0)
  maxRowsIfUnsorted h0 hs := by
    have hc : c.isTimeSorted = false := by
      by_contra hc
      rw [hp.isTimeSorted (Bool.not_eq_false _ ▸ hc)] at hs
      cases hs
    exact hp.numRows_le.trans (h.maxRowsIfUnsorted h0 hc)

theorem two_le_length_splitBounds (h0 : 0 < target) (ht : target < n) :
    2 ≤ (splitBounds n target n 0).length := by
  obtain ⟨fuel, rfl⟩ : ∃ fuel, n = fuel + 2 := ⟨n - 2, by omega⟩
  simp [splitBounds, ht]

/-- Only the byte threshold may ask for a split into one piece. -/
theorem meetsThresholds_of_target {cfg : ChunkSplitConfig} {c : Chunk} (sizeBytes : Chunk → Nat)
    (h : ∀ target, c.splitTargetRows sizeBytes cfg = some target → c.numRows ≤ target) :
    c.MeetsThresholds cfg := by
  by_cases hone : c.numRows ≤ 1
  · exact ⟨fun h0 => hone.trans h0, fun h0 _ => hone.trans h0⟩
  unfold splitTargetRows at h
  dsimp only at h
  rw [if_neg hone] at h
  by_cases hunsorted : 0 < cfg.chunkMaxRowsIfUnsorted ∧
      cfg.chunkMaxRowsIfUnsorted < c.numRows ∧ ¬ c.isTimeSorted = true
  · rw [if_pos hunsorted] at h
    have := h _ rfl
    omega
  rw [if_neg hunsorted] at h
  have hu : 0 < cfg.chunkMaxRowsIfUnsorted → c.isTimeSorted = false →
      c.numRows ≤ cfg.chunkMaxRowsIfUnsorted := by
    intro h0 hs
    by_contra hlt
    exact hunsorted ⟨h0, Nat.lt_of_not_le hlt, by simp [hs]⟩
  by_cases hrows : 0 < cfg.chunkMaxRows ∧ cfg.chunkMaxRows < c.numRows
  · rw [if_pos hrows] at h
    have := h _ rfl
    omega
  · exact ⟨fun h0 => Nat.le_of_not_lt fun hlt => hrows ⟨h0, hlt⟩, hu⟩

-- ---------------------------------------------------------------------------
-- One split
-- ---------------------------------------------------------------------------

theorem splitChunkIfNeeded_isPartition {c : Chunk} (h : c.Aligned) (hn : c.rowIds ≠ [])
    (sizeBytes : Chunk → Nat) (newId : Nat → ChunkId) (n : Nat) (cfg : ChunkSplitConfig) :
    IsPartition [c] (c.splitChunkIfNeeded sizeBytes newId n cfg).1 := by
  unfold splitChunkIfNeeded
  cases ht : c.splitTargetRows sizeBytes cfg with
  | none => exact .refl h hn
  | some target =>
    have hpos := splitTargetRows_pos ht
    refine ⟨?_, fun p hp => ?_⟩
    · have hb := splitBounds_flatMap c.rows hpos (Nat.sub_le c.rows.length 0)
      rw [List.drop_zero, ← List.zipIdx_map_fst 0 (splitBounds _ _ _ _), List.flatMap_map,
        length_rows] at hb
      rw [List.flatMap_map, List.flatMap_singleton]
      simp only [rows_rowSliced_eq h]
      exact hb
    · obtain ⟨⟨bound, i⟩, hm, rfl⟩ := List.mem_map.mp hp
      have hb := mem_splitBounds hpos (List.fst_mem_of_mem_zipIdx hm)
      exact ⟨c, List.mem_singleton_self c, rowSliced_isSlice h hb.2 hb.1 _⟩

theorem splitChunkIfNeeded_ne_nil {c : Chunk} (h : c.Aligned) (hn : c.rowIds ≠ [])
    (sizeBytes : Chunk → Nat) (newId : Nat → ChunkId) (n : Nat) (cfg : ChunkSplitConfig) :
    (c.splitChunkIfNeeded sizeBytes newId n cfg).1 ≠ [] := by
  intro hnil
  have hrows := (splitChunkIfNeeded_isPartition h hn sizeBytes newId n cfg).rows
  rw [hnil, List.flatMap_nil, List.flatMap_singleton] at hrows
  have hlen := congrArg List.length hrows
  rw [length_rows, List.length_nil] at hlen
  exact hn (List.eq_nil_of_length_eq_zero hlen.symm)

/-- Where a split makes no progress, there is nothing left to split by rows. -/
theorem meetsThresholds_of_length_eq_one {c : Chunk} (h : c.Aligned) (hn : c.rowIds ≠ [])
    (hone : (c.splitChunkIfNeeded sizeBytes newId n cfg).1.length = 1) :
    ∀ p ∈ (c.splitChunkIfNeeded sizeBytes newId n cfg).1, p.MeetsThresholds cfg := by
  have hc : c.MeetsThresholds cfg := by
    refine meetsThresholds_of_target sizeBytes fun target ht => Nat.le_of_not_lt fun hlt => ?_
    have htwo := two_le_length_splitBounds (splitTargetRows_pos ht) hlt
    simp only [splitChunkIfNeeded, ht, List.length_map, List.length_zipIdx] at hone
    omega
  intro p hp
  obtain ⟨c', hc', hslice⟩ := (splitChunkIfNeeded_isPartition h hn sizeBytes newId n cfg).isSlice p hp
  obtain rfl := List.mem_singleton.mp hc'
  exact hc.slice hslice

end DimosViewer.Chunk
