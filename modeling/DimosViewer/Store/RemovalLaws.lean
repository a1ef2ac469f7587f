import Mathlib.Data.Finset.Card
import DimosViewer.Store.Slots

/-!
# Laws of removal

What a removal takes away, and what it leaves alone.
-/

namespace DimosViewer.ChunkStore

variable {env : Env} {reason : ChunkDeletionReason}

-- ---------------------------------------------------------------------------
-- Frames
-- ---------------------------------------------------------------------------

/-- The records about chunks that are no longer there are the same. -/
structure SameLineage (s s' : ChunkStore) : Prop where
  config : s'.config = s.config
  lineage : s'.chunksLineage = s.chunksLineage
  danglingSplits : s'.danglingSplits = s.danglingSplits
  leakyCompactions : s'.leakyCompactions = s.leakyCompactions
  insertId : s'.insertId = s.insertId
  issued : s'.issued = s.issued
  archive : s'.archive = s.archive

theorem SameLineage.refl (s : ChunkStore) : SameLineage s s := by constructor <;> rfl

theorem SameLineage.trans {s s' s'' : ChunkStore} (h : SameLineage s s')
    (h' : SameLineage s' s'') : SameLineage s s'' where
  config := h'.config.trans h.config
  lineage := h'.lineage.trans h.lineage
  danglingSplits := h'.danglingSplits.trans h.danglingSplits
  leakyCompactions := h'.leakyCompactions.trans h.leakyCompactions
  insertId := h'.insertId.trans h.insertId
  issued := h'.issued.trans h.issued
  archive := h'.archive.trans h.archive

structure SameIndices (s s' : ChunkStore) : Prop extends SameLineage s s' where
  perComponent : s'.temporalChunkIdsPerEntityPerComponent = s.temporalChunkIdsPerEntityPerComponent
  perEntity : s'.temporalChunkIdsPerEntity = s.temporalChunkIdsPerEntity
  staticIds : s'.staticChunkIdsPerEntity = s.staticChunkIdsPerEntity

/-- At most the temporal indices have changed. -/
structure SamePhysical (s s' : ChunkStore) : Prop extends SameLineage s s' where
  physical : s'.physicalChunksPerChunkId = s.physicalChunksPerChunkId
  minRowIds : s'.physicalChunkIdsPerMinRowId = s.physicalChunkIdsPerMinRowId
  staticIds : s'.staticChunkIdsPerEntity = s.staticChunkIdsPerEntity
  temporalStats : s'.temporalPhysicalChunksStats = s.temporalPhysicalChunksStats
  staticStats : s'.staticChunksStats = s.staticChunksStats
  statsUnderflow : s'.statsUnderflow = s.statsUnderflow

theorem SameIndices.refl (s : ChunkStore) : SameIndices s s := ⟨.refl s, rfl, rfl, rfl⟩

theorem SameIndices.trans {s s' s'' : ChunkStore} (h : SameIndices s s')
    (h' : SameIndices s' s'') : SameIndices s s'' where
  toSameLineage := h.toSameLineage.trans h'.toSameLineage
  perComponent := h'.perComponent.trans h.perComponent
  perEntity := h'.perEntity.trans h.perEntity
  staticIds := h'.staticIds.trans h.staticIds

structure SameTemporal (s s' : ChunkStore) : Prop extends SameLineage s s' where
  perComponent : s'.temporalChunkIdsPerEntityPerComponent = s.temporalChunkIdsPerEntityPerComponent
  perEntity : s'.temporalChunkIdsPerEntity = s.temporalChunkIdsPerEntity

theorem SameTemporal.refl (s : ChunkStore) : SameTemporal s s := ⟨.refl s, rfl, rfl⟩

theorem SameTemporal.trans {s s' s'' : ChunkStore} (h : SameTemporal s s')
    (h' : SameTemporal s' s'') : SameTemporal s s'' where
  toSameLineage := h.toSameLineage.trans h'.toSameLineage
  perComponent := h'.perComponent.trans h.perComponent
  perEntity := h'.perEntity.trans h.perEntity

theorem SameIndices.at_eq {s s' : ChunkStore} (h : SameIndices s s') (slot : Slot) :
    s'.at slot = s.at slot := by
  cases slot with
  | component e timeline component => rw [«at», «at», h.perComponent]
  | entity e timeline => rw [«at», «at», h.perEntity]

theorem SameTemporal.at_eq {s s' : ChunkStore} (h : SameTemporal s s') (slot : Slot) :
    s'.at slot = s.at slot := by
  cases slot with
  | component e timeline component => rw [«at», «at», h.perComponent]
  | entity e timeline => rw [«at», «at», h.perEntity]

def PhysicalSub (s s' : ChunkStore) : Prop :=
  ∀ key : ChunkId, s'.physicalChunksPerChunkId[key]? = s.physicalChunksPerChunkId[key]? ∨
    s'.physicalChunksPerChunkId[key]? = none

theorem PhysicalSub.refl (s : ChunkStore) : PhysicalSub s s := fun _ => .inl rfl

theorem PhysicalSub.of_eq {s s' : ChunkStore}
    (h : s'.physicalChunksPerChunkId = s.physicalChunksPerChunkId) : PhysicalSub s s' :=
  fun key => .inl (by rw [h])

theorem PhysicalSub.trans {s s' s'' : ChunkStore} (h : PhysicalSub s s')
    (h' : PhysicalSub s' s'') : PhysicalSub s s'' := by
  intro key
  rcases h' key with h' | h'
  · exact h'.symm ▸ h key
  · exact .inr h'

theorem PhysicalSub.some {s s' : ChunkStore} {key : ChunkId} (h : PhysicalSub s s')
    (hc : s'.physicalChunksPerChunkId[key]? = some c) :
    s.physicalChunksPerChunkId[key]? = some c := by
  rcases h key with h | h
  · rwa [← h]
  · rw [hc] at h
    cases h

theorem PhysicalSub.none {s s' : ChunkStore} {key : ChunkId} (h : PhysicalSub s s')
    (hc : s.physicalChunksPerChunkId[key]? = none) :
    s'.physicalChunksPerChunkId[key]? = none := by
  rcases h key with h | h
  · rwa [h]
  · exact h

theorem physicalSub_erase {s s' : ChunkStore} {key : ChunkId}
    (h : s'.physicalChunksPerChunkId = s.physicalChunksPerChunkId.erase key) :
    PhysicalSub s s' := by
  intro key'
  rw [h, OrdMap.getElem?_erase]
  split
  · exact .inr rfl
  · exact .inl rfl

-- ---------------------------------------------------------------------------
-- Shallow removal
-- ---------------------------------------------------------------------------

theorem removeShallow_sameIndices (env : Env) (reason : ChunkDeletionReason) (s : ChunkStore) (c : Chunk) :
    SameIndices s (s.removeShallow env reason c).1 := by
  unfold removeShallow
  cases c.rowIdMin <;> dsimp only <;> split <;>
    exact ⟨⟨rfl, rfl, rfl, rfl, rfl, rfl, rfl⟩, rfl, rfl, rfl⟩

theorem removeShallow_physical (env : Env) (reason : ChunkDeletionReason) (s : ChunkStore) (c : Chunk) (id : ChunkId) :
    (s.removeShallow env reason c).1.physicalChunksPerChunkId[id]? =
      if c.id = id then none else s.physicalChunksPerChunkId[id]? := by
  unfold removeShallow
  cases c.rowIdMin <;> dsimp only <;> split <;> rename_i h
  · rw [← h]
    split <;> simp_all
  · exact OrdMap.getElem?_erase _ _ _
  · rw [← h]
    split <;> simp_all
  · exact OrdMap.getElem?_erase _ _ _

theorem removeShallow_deletion (env : Env) (reason : ChunkDeletionReason) (s : ChunkStore) (c : Chunk) :
    (s.removeShallow env reason c).2 =
      s.physicalChunksPerChunkId[c.id]?.map (⟨·, reason⟩) := by
  unfold removeShallow
  cases c.rowIdMin <;> dsimp only <;> split <;> rename_i h <;> rw [h] <;> rfl

/-- Removing a list of chunks keeps what removing one of them keeps. -/
theorem removeChunksShallow_induction (inv : ChunkStore → Prop) {chunks : List Chunk}
    (hs : ∀ s, ∀ c ∈ chunks, inv s → inv (s.removeShallow env reason c).1)
    (exhausted : Nat → Bool) (h : inv s) :
    inv (s.removeChunksShallow env reason exhausted chunks).1 := by
  induction chunks generalizing s exhausted with
  | nil => exact h
  | cons c rest ih =>
    have hc := hs s c List.mem_cons_self h
    have hrest : ∀ s, ∀ c ∈ rest, inv s → inv (s.removeShallow env reason c).1 :=
      fun s c' hc' => hs s c' (List.mem_cons_of_mem _ hc')
    rw [removeChunksShallow]
    split <;> rename_i he
    · rw [he] at hc
      exact ih hrest exhausted hc
    · rw [he] at hc
      split
      · exact hc
      · exact ih hrest _ hc

theorem removeChunksShallow_sameIndices (env : Env) (reason : ChunkDeletionReason) (s : ChunkStore) (exhausted : Nat → Bool)
    (chunks : List Chunk) : SameIndices s (s.removeChunksShallow env reason exhausted chunks).1 :=
  removeChunksShallow_induction (SameIndices s)
    (fun s' c _ h => h.trans (removeShallow_sameIndices _ _ s' c)) exhausted (.refl s)

theorem removeChunksShallow_physical (env : Env) (reason : ChunkDeletionReason) (s : ChunkStore) (exhausted : Nat → Bool)
    (chunks : List Chunk) (id : ChunkId) :
    let s' := (s.removeChunksShallow env reason exhausted chunks).1
    s'.physicalChunksPerChunkId[id]? = s.physicalChunksPerChunkId[id]? ∨
      s'.physicalChunksPerChunkId[id]? = none ∧ id ∈ chunks.map (·.id) := by
  refine removeChunksShallow_induction (fun s' =>
    s'.physicalChunksPerChunkId[id]? = s.physicalChunksPerChunkId[id]? ∨
      s'.physicalChunksPerChunkId[id]? = none ∧ id ∈ chunks.map (·.id)) ?_ exhausted (.inl rfl)
  intro s' c hc h
  rw [removeShallow_physical _ _]
  by_cases hid : c.id = id
  · rw [if_pos hid]
    exact .inr ⟨rfl, List.mem_map.mpr ⟨c, hc, hid⟩⟩
  · rwa [if_neg hid]

def physicalAmong (s : ChunkStore) (chunks : List Chunk) : Finset ChunkId :=
  (chunks.map (·.id)).toFinset.filter fun cid => s.physicalChunksPerChunkId[cid]? ≠ none

theorem physicalAmong_removeShallow (env : Env) (reason : ChunkDeletionReason) (s : ChunkStore)
    (c : Chunk) (rest : List Chunk) :
    (s.removeShallow env reason c).1.physicalAmong rest =
      (s.physicalAmong (c :: rest)).erase c.id := by
  ext cid
  simp only [physicalAmong, removeShallow_physical, Finset.mem_filter, Finset.mem_erase,
    List.mem_toFinset, List.map_cons, List.mem_cons]
  by_cases he : c.id = cid
  · simp [he]
  · simp [he, Ne.symm he]

def Uncut (exhausted : Nat → Bool) (chunks : List Chunk) : Prop :=
  ∀ k, k + 1 < (chunks.map (·.id)).toFinset.card → exhausted k = false

theorem removeChunksShallow_physicalAmong (env : Env) (reason : ChunkDeletionReason)
    (s : ChunkStore) (h : ∀ k, k + 1 < (s.physicalAmong chunks).card → exhausted k = false) :
    (s.removeChunksShallow env reason exhausted chunks).1.physicalAmong chunks = ∅ := by
  have hgone : ∀ s : ChunkStore, ∀ chunks, s.physicalAmong chunks = ∅ ↔
      ∀ cid ∈ chunks.map (·.id), s.physicalChunksPerChunkId[cid]? = none := by
    intro s chunks
    simp [physicalAmong, Finset.filter_eq_empty_iff]
  induction chunks generalizing s exhausted with
  | nil => rfl
  | cons c rest ih =>
    have hp := removeShallow_physical env reason s c
    have hd := removeShallow_deletion env reason s c
    have hone := physicalAmong_removeShallow env reason s c rest
    -- The first chunk is gone after its own round.
    have hfirst : ∀ exhausted, ((s.removeShallow env reason c).1.removeChunksShallow env reason
        exhausted rest).1.physicalChunksPerChunkId[c.id]? = none := fun exhausted =>
      (removeChunksShallow_physical env reason _ exhausted rest c.id).elim
        (fun h => h.trans ((hp c.id).trans (if_pos rfl))) And.left
    have hrest : ∀ exhausted', (∀ k, k + 1 < ((s.removeShallow env reason c).1.physicalAmong
        rest).card → exhausted' k = false) → ((s.removeShallow env reason c).1.removeChunksShallow
          env reason exhausted' rest).1.physicalAmong (c :: rest) = ∅ := by
      intro exhausted' h'
      refine (hgone _ _).mpr fun cid hc => ?_
      rcases List.mem_cons.mp hc with rfl | hc
      · exact hfirst exhausted'
      · exact (hgone _ _).mp (ih _ h') cid hc
    rw [removeChunksShallow]
    split <;> rename_i he <;> rw [he] at hp hd hone hrest
    · refine hrest _ fun k hk => h k (hk.trans_le ?_)
      rw [hone]
      exact Finset.card_erase_le
    · obtain ⟨stored, hst, -⟩ := Option.map_eq_some_iff.mp hd.symm
      have hmem : c.id ∈ s.physicalAmong (c :: rest) :=
        Finset.mem_filter.mpr ⟨by simp, by rw [hst]; exact Option.some_ne_none _⟩
      have hcard := Finset.card_erase_add_one hmem
      rw [← hone] at hcard
      split
      · rename_i hex
        -- The budget is used up, so this was the last of the physical chunks.
        refine (hgone _ _).mpr fun cid hc => ?_
        rcases List.mem_cons.mp hc with rfl | hc
        · exact (hp c.id).trans (if_pos rfl)
        · refine (hgone _ _).mp (Finset.card_eq_zero.mp ?_) cid hc
          by_contra hne
          have hlt : 0 + 1 < (s.physicalAmong (c :: rest)).card := by
            rw [← hcard]
            exact Nat.succ_lt_succ (Nat.pos_of_ne_zero hne)
          exact absurd (hex.symm.trans (h 0 hlt)) Bool.noConfusion
      · exact hrest _ fun k hk => h (k + 1) (by omega)

theorem removeChunksShallow_uncut (env : Env) (reason : ChunkDeletionReason) (s : ChunkStore)
    (h : Uncut exhausted chunks) (hid : cid ∈ chunks.map (·.id)) :
    (s.removeChunksShallow env reason exhausted chunks).1.physicalChunksPerChunkId[cid]? = none := by
  by_contra hne
  have hempty : cid ∈ (∅ : Finset ChunkId) := by
    rw [← removeChunksShallow_physicalAmong env reason s
      fun k hk => h k (hk.trans_le (Finset.card_filter_le _ _))]
    exact Finset.mem_filter.mpr ⟨List.mem_toFinset.mpr hid, hne⟩
  cases hempty

theorem uncut_unlimited (chunks : List Chunk) : Uncut unlimited chunks := fun _ _ => rfl

theorem removeChunksShallow_unlimited (env : Env) (reason : ChunkDeletionReason) (s : ChunkStore) (chunks : List Chunk) (id : ChunkId) :
    (s.removeChunksShallow env reason unlimited chunks).1.physicalChunksPerChunkId[id]? =
      if id ∈ chunks.map (·.id) then none else s.physicalChunksPerChunkId[id]? := by
  induction chunks generalizing s with
  | nil => rfl
  | cons c rest ih =>
    have hc := removeShallow_physical env reason s c id
    have hstep : (s.removeChunksShallow env reason unlimited (c :: rest)).1 =
        ((s.removeShallow env reason c).1.removeChunksShallow env reason unlimited rest).1 := by
      rw [removeChunksShallow]
      split <;> rename_i he <;> rw [he]
      rfl
    rw [hstep, ih, hc, List.map_cons]
    simp only [List.mem_cons]
    by_cases hid : id ∈ rest.map (·.id)
    · simp [hid]
    · simp [hid, eq_comm]

def Keyed (s : ChunkStore) : Prop :=
  ∀ {key : ChunkId} {c : Chunk}, s.physicalChunksPerChunkId[key]? = some c → c.id = key

structure Deletes (s s' : ChunkStore) (deletions : List ChunkStoreDiffDeletion) : Prop where
  physical : ∀ id, s'.physicalChunksPerChunkId[id]? =
    if id ∈ deletions.map (·.chunk.id) then none else s.physicalChunksPerChunkId[id]?
  isPhysical : ∀ id ∈ deletions.map (·.chunk.id), s.physicalChunksPerChunkId[id]? ≠ none
  nodup : (deletions.map (·.chunk.id)).Nodup

theorem Deletes.of_eq {s s' : ChunkStore}
    (h : s'.physicalChunksPerChunkId = s.physicalChunksPerChunkId) : Deletes s s' [] :=
  ⟨fun _ => by rw [h]; rfl, fun _ h => (nomatch h), .nil⟩

theorem Deletes.trans {s s' s'' : ChunkStore} (h : Deletes s s' dels) (h' : Deletes s' s'' dels') :
    Deletes s s'' (dels ++ dels') where
  physical cid := by
    rw [h'.physical, h.physical, List.map_append]
    by_cases hm : cid ∈ dels'.map (·.chunk.id) <;> simp [hm]
  isPhysical cid hm := by
    rw [List.map_append, List.mem_append] at hm
    rcases hm with hm | hm
    · exact h.isPhysical cid hm
    · have hne := h'.isPhysical cid hm
      rw [h.physical] at hne
      split at hne
      · exact absurd rfl hne
      · exact hne
  nodup := by
    rw [List.map_append, List.nodup_append]
    refine ⟨h.nodup, h'.nodup, fun cid hm cid' hm' he => ?_⟩
    subst he
    exact h'.isPhysical cid hm' ((h.physical cid).trans (if_pos hm))

theorem Deletes.keyed {s s' : ChunkStore} (h : Deletes s s' dels) (hk : s.Keyed) : s'.Keyed := by
  intro key c hc
  rw [h.physical] at hc
  split at hc
  · cases hc
  · exact hk hc

theorem Deletes.single {s s' : ChunkStore} {c : Chunk} {reason : ChunkDeletionReason}
    (hc : s.physicalChunksPerChunkId[c.id]? = some c)
    (h : s'.physicalChunksPerChunkId = s.physicalChunksPerChunkId.erase c.id) :
    Deletes s s' [⟨c, reason⟩] where
  physical cid := by
    rw [h, OrdMap.getElem?_erase]
    simp [eq_comm]
  isPhysical cid hm := by
    obtain rfl := List.mem_singleton.mp hm
    rw [hc]
    exact Option.some_ne_none c
  nodup := List.nodup_singleton _

theorem removeChunksShallow_deletes (env : Env) (reason : ChunkDeletionReason) {s : ChunkStore}
    (hk : s.Keyed) (exhausted : Nat → Bool)
    (chunks : List Chunk) :
    Deletes s (s.removeChunksShallow env reason exhausted chunks).1
      (s.removeChunksShallow env reason exhausted chunks).2 := by
  induction chunks generalizing s exhausted with
  | nil => exact ⟨fun _ => rfl, fun _ h => (nomatch h), .nil⟩
  | cons c rest ih =>
    have hp := removeShallow_physical env reason s c
    have hd := removeShallow_deletion env reason s c
    have hk' : (s.removeShallow env reason c).1.Keyed := by
      intro key d h
      rw [hp] at h
      split at h
      · cases h
      · exact hk h
    rw [removeChunksShallow]
    split <;> rename_i he <;> rw [he] at hp hd hk'
    · -- The chunk was not physical.
      have hnone := Option.map_eq_none_iff.mp hd.symm
      have hsame : ∀ id, s.physicalChunksPerChunkId[id]? = _ := fun id => by
        have h := hp id
        split at h
        · rename_i heq
          exact heq ▸ hnone.trans (heq ▸ h).symm
        · exact h.symm
      have hih := ih hk' exhausted
      exact ⟨fun id => by rw [hih.physical, hsame id],
        fun id hid => hsame id ▸ hih.isPhysical id hid, hih.nodup⟩
    · obtain ⟨stored, hst, rfl⟩ := Option.map_eq_some_iff.mp hd.symm
      have hid := hk hst
      split
      · refine ⟨fun id => ?_, ?_, List.nodup_singleton _⟩
        · rw [hp id]
          simp [hid, eq_comm]
        · intro id h
          obtain rfl := List.mem_singleton.mp h
          dsimp only
          rw [hid, hst]
          exact Option.some_ne_none _
      · have hih := ih hk' (fun k => exhausted (k + 1))
        refine ⟨fun id => ?_, ?_, ?_⟩
        · rw [hih.physical, hp id]
          simp only [List.map_cons, List.mem_cons, hid, @eq_comm _ id]
          split <;> split <;> simp_all
        · intro id h
          rcases List.mem_cons.mp h with rfl | h
          · dsimp only
            rw [hid, hst]
            exact Option.some_ne_none _
          · have hne := hih.isPhysical id h
            rw [hp id] at hne
            split at hne
            · exact absurd rfl hne
            · exact hne
        · refine List.nodup_cons.mpr ⟨fun h => ?_, hih.nodup⟩
          have hne := hih.isPhysical _ h
          rw [hp, if_pos hid.symm] at hne
          exact hne rfl

-- ---------------------------------------------------------------------------
-- Deep removal
-- ---------------------------------------------------------------------------

theorem sweepIndices_induction (inv : ChunkStore → Prop) {chunks : List Chunk}
    (hs : ∀ s, ∀ c ∈ chunks, inv s → inv (s.removeFromIndices c)) (h : inv s) :
    inv (s.sweepIndices reason chunks).1 := by
  induction chunks generalizing s with
  | nil => exact h
  | cons c rest ih =>
    exact ih (fun s c' hc' => hs s c' (List.mem_cons_of_mem _ hc')) (hs s c List.mem_cons_self h)

theorem sweepIndices_samePhysical (reason : ChunkDeletionReason) (s : ChunkStore) (chunks : List Chunk) :
    SamePhysical s (s.sweepIndices reason chunks).1 := by
  refine sweepIndices_induction (SamePhysical s) ?_ ⟨.refl s, rfl, rfl, rfl, rfl, rfl, rfl⟩
  intro s' c _ h
  have hl : SameLineage s' (s'.removeFromIndices c) := ⟨rfl, rfl, rfl, rfl, rfl, rfl, rfl⟩
  exact ⟨h.toSameLineage.trans hl, h.physical, h.minRowIds, h.staticIds, h.temporalStats,
    h.staticStats, h.statsUnderflow⟩

theorem removeChunksDeep_sameLineage (env : Env) (reason : ChunkDeletionReason) (s : ChunkStore) (exhausted : Nat → Bool)
    (chunks : List Chunk) : SameLineage s (s.removeChunksDeep env reason exhausted chunks).1 :=
  (removeChunksShallow_sameIndices _ _ s exhausted chunks).toSameLineage.trans
    (sweepIndices_samePhysical _ _ chunks).toSameLineage

theorem removeChunksDeep_staticIds (env : Env) (reason : ChunkDeletionReason) (s : ChunkStore) (exhausted : Nat → Bool)
    (chunks : List Chunk) : (s.removeChunksDeep env reason exhausted chunks).1.staticChunkIdsPerEntity
      = s.staticChunkIdsPerEntity :=
  (sweepIndices_samePhysical _ _ chunks).staticIds.trans
    (removeChunksShallow_sameIndices _ _ s exhausted chunks).staticIds

theorem wasRemoved_of_mem {s : ChunkStore} {c : Chunk} (h : (timeline, tc) ∈ c.timelines)
    (hs : c.id ∈ (s.at (.entity c.entityPath timeline)).startIds tc.timeRange.min) :
    s.wasRemoved c = true := by
  rw [wasRemoved, Bool.or_eq_true]
  exact .inr (List.any_eq_true.mpr ⟨_, h, ChunkIdSetPerTime.hasKeys_of_mem_startIds hs⟩)

theorem hasKeys_removeFromIndices (s : ChunkStore) {c : Chunk} (h : c.WellFormed) (slot : Slot)
    (range : AbsoluteTimeRange) :
    ((s.removeFromIndices c).at slot).hasKeys range = (s.at slot).hasKeys range := by
  rw [at_removeFromIndices h]
  cases c.rangeAt slot with
  | none => rfl
  | some r =>
    simp [ChunkIdSetPerTime.hasKeys, ChunkIdSetPerTime.removeRange, OrdMap.contains_eraseAt]

theorem wasRemoved_removeFromIndices {s : ChunkStore} {d : Chunk} (h : d.WellFormed) (c : Chunk) :
    (s.removeFromIndices d).wasRemoved c = s.wasRemoved c := by
  have hc := fun e timeline component => hasKeys_removeFromIndices s h
    (.component e timeline component)
  have he := fun e timeline => hasKeys_removeFromIndices s h (.entity e timeline)
  simp only [«at», show (default : ChunkIdSetPerTimePerComponentPerTimeline) = ∅ from rfl,
    show (default : ChunkIdSetPerTimePerComponent) = ∅ from rfl] at hc he
  simp only [wasRemoved, hc, he]

theorem sweepIndices_deletions {s : ChunkStore} {chunks : List Chunk}
    (hw : ∀ c ∈ chunks, c.WellFormed) (hr : ∀ c ∈ chunks, s.wasRemoved c = true) :
    (s.sweepIndices reason chunks).2 = chunks.map (⟨·, reason⟩) := by
  induction chunks generalizing s with
  | nil => rfl
  | cons c rest ih =>
    have hrest := @ih (s.removeFromIndices c) (fun d hd => hw d (List.mem_cons_of_mem _ hd))
      fun d hd => by
        rw [wasRemoved_removeFromIndices (hw c List.mem_cons_self)]
        exact hr d (List.mem_cons_of_mem _ hd)
    simp only [sweepIndices, hr c List.mem_cons_self, if_true, hrest, List.map_cons]

theorem mem_startIds_sweepIndices {chunks : List Chunk} (hw : ∀ c ∈ chunks, c.WellFormed)
    {s : ChunkStore} :
    x ∈ ((s.sweepIndices reason chunks).1.at slot).startIds time ↔
      x ∈ (s.at slot).startIds time ∧
        ∀ c ∈ chunks, c.id = x → ∀ range, c.rangeAt slot = some range → range.min ≠ time := by
  induction chunks generalizing s with
  | nil => simp [sweepIndices]
  | cons c rest ih =>
    rw [sweepIndices]
    simp only [ih fun c hc => hw c (List.mem_cons_of_mem _ hc),
      at_removeFromIndices (hw c List.mem_cons_self), List.forall_mem_cons]
    cases hr : c.rangeAt slot with
    | none => simp
    | some range =>
      simp only [Option.elim_some, ChunkIdSetPerTime.mem_startIds_removeRange, Option.some.injEq,
        forall_eq']
      grind

theorem mem_endIds_sweepIndices {chunks : List Chunk} (hw : ∀ c ∈ chunks, c.WellFormed)
    {s : ChunkStore} :
    x ∈ ((s.sweepIndices reason chunks).1.at slot).endIds time ↔
      x ∈ (s.at slot).endIds time ∧
        ∀ c ∈ chunks, c.id = x → ∀ range, c.rangeAt slot = some range → range.max ≠ time := by
  induction chunks generalizing s with
  | nil => simp [sweepIndices]
  | cons c rest ih =>
    rw [sweepIndices]
    simp only [ih fun c hc => hw c (List.mem_cons_of_mem _ hc),
      at_removeFromIndices (hw c List.mem_cons_self), List.forall_mem_cons]
    cases hr : c.rangeAt slot with
    | none => simp
    | some range =>
      simp only [Option.elim_some, ChunkIdSetPerTime.mem_endIds_removeRange, Option.some.injEq,
        forall_eq']
      grind

theorem removeChunksShallow_physicalSub (env : Env) (reason : ChunkDeletionReason) (s : ChunkStore) (exhausted : Nat → Bool)
    (chunks : List Chunk) :
    PhysicalSub s (s.removeChunksShallow env reason exhausted chunks).1 :=
  fun key => (removeChunksShallow_physical _ _ s exhausted chunks key).imp_right And.left

theorem removeChunksDeep_physicalSub (env : Env) (reason : ChunkDeletionReason) (s : ChunkStore) (exhausted : Nat → Bool)
    (chunks : List Chunk) : PhysicalSub s (s.removeChunksDeep env reason exhausted chunks).1 :=
  (removeChunksShallow_physicalSub _ _ s exhausted chunks).trans
    (.of_eq (sweepIndices_samePhysical _ _ chunks).physical)

end DimosViewer.ChunkStore
