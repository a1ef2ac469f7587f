import DimosViewer.Store.DropLaws

/-!
# Every operation is a trace

So what every step keeps holds in every state of a run.
-/

namespace DimosViewer.ChunkStore

open Reach (Reachable Trace)
open Std (TreeMap)

variable {env : Env} {pol : Policy} {config : ChunkStoreConfig}

-- ---------------------------------------------------------------------------
-- Drops
-- ---------------------------------------------------------------------------

theorem nodup_ids_values {s : ChunkStore} (hk : s.Keyed) :
    (s.physicalChunksPerChunkId.values.map (·.id)).Nodup := by
  have hkeys : s.physicalChunksPerChunkId.values.map (·.id) = s.physicalChunksPerChunkId.keys := by
    rw [OrdMap.values_eq_map_toList, ← TreeMap.map_fst_toList_eq_keys, List.map_map]
    refine List.map_congr_left fun entry he => ?_
    exact hk (TreeMap.mem_toList_iff_getElem?_eq_some.mp he)
  rw [hkeys]
  exact TreeMap.nodup_keys

theorem nodup_values {s : ChunkStore} (hk : s.Keyed) : s.physicalChunksPerChunkId.values.Nodup :=
  (nodup_ids_values hk).of_map _

theorem dropTimeRange_cases {s : ChunkStore} (h : Core env pol s) (timeline : TimelineName)
    (dropRange : AbsoluteTimeRange) (deepRemoval : Bool) (reason : ChunkDeletionReason) :
    s.dropTimeRange env timeline dropRange deepRemoval reason = (s, []) ∨
      ∃ n drops news s' deletions, s.issued ≤ n ∧
        { s with issued := n }.dropChunks env deepRemoval reason drops = (s', deletions) ∧
        Trace (Step env pol) { s with issued := n } (deletions.map .deletion) s' ∧
        SameLineage { s with issued := n } s' ∧ PhysicalSub { s with issued := n } s' ∧
        (news.map (·.id)).Nodup ∧ (∀ d ∈ news, Fresh env pol s' d) ∧
        s.dropTimeRange env timeline dropRange deepRemoval reason =
          ((s'.reinsertChunks env news).1,
            deletions.map .deletion ++ (s'.reinsertChunks env news).2) := by
  have hvalues : ∀ c ∈ s.physicalChunksPerChunkId.values, s.Physical c :=
    fun c hc => physical_of_mem_values h.keyed hc
  obtain ⟨hle, hsub, hrem, hnodup, hst⟩ := planDrops_spec env
    (fun c hc => (h.storable (hvalues c hc)).wellFormed) s.issued timeline dropRange
  unfold dropTimeRange
  split
  · exact .inl rfl
  generalize planDrops env.newId timeline dropRange s.issued s.physicalChunksPerChunkId.values =
    plan at hle hsub hrem hnodup hst
  obtain ⟨drops, news, n⟩ := plan
  dsimp only at hle hsub hrem hnodup hst ⊢
  have hdrops : ∀ c ∈ drops, s.Physical c := fun c hc => hvalues c (hsub.subset hc)
  have hcore : Core env pol { s with issued := n } := h.draw hle
  obtain ⟨ht, hl, hp, hidx⟩ := trace_dropChunks deepRemoval reason
    ((hsub.map (·.id)).nodup (nodup_ids_values h.keyed)) hst hcore hdrops
  refine .inr ⟨n, drops, news, _, _, hle, rfl, ht, hl, hp, hnodup, fun d hd => ?_, rfl⟩
  obtain ⟨c, hc, hr⟩ := hrem d hd
  obtain ⟨k, -, -, hk⟩ := hr.drawn
  refine ⟨⟨fun hx => ?_, ⟨k, hk⟩, hr.isStatic_eq.trans (hst c hc)⟩, hr.wellFormed,
    pol.closed hr.entityPath (fun entry he => hr.columnTypes ▸ he) (h.allowed (hdrops c hc)), ?_⟩
  · exact h.indexes ((hidx _ hx).of_same (fun slot => by cases slot <;> rfl) rfl rfl)
      (DrawnIn.future hr.drawn)
  · rw [hl.issued]
    exact DrawnIn.not_future hr.drawn

theorem trace_dropTimeRange {s : ChunkStore} (h : Core env pol s) (timeline : TimelineName)
    (dropRange : AbsoluteTimeRange) (deepRemoval : Bool) (reason : ChunkDeletionReason) :
    let result := s.dropTimeRange env timeline dropRange deepRemoval reason
    Trace (Step env pol) s result.2 result.1 := by
  rcases dropTimeRange_cases h timeline dropRange deepRemoval reason with
    he | ⟨n, drops, news, s', deletions, hle, -, ht, -, -, hnodup, hfresh, he⟩
  · rw [he]
    exact .refl
  · have ht' := trace_reinsertChunks hnodup
      (ht.invariant (fun _ _ _ hs ht => ht.core hs) (h.draw hle)) hfresh
    rw [he]
    exact ((Trace.single (.draw hle)).trans ht).trans ht'

-- ---------------------------------------------------------------------------
-- Operations and runs
-- ---------------------------------------------------------------------------

theorem Op.trace {s : ChunkStore} {op : Op} (h : Core env pol s) (hop : op.Legal env pol s) :
    Trace (Step env pol) s (s.apply env op).2 (s.apply env op).1 := by
  cases op with
  | insertChunk c =>
    obtain ⟨hw, hf, ha, hi⟩ := hop
    exact trace_insertChunk h hw hf ha (.inl hi)
  | insertRrdManifest manifest => exact trace_insertRrdManifest hop
  | gc options clock => exact trace_gc h hop
  | dropTimeRange timeline dropRange deepRemoval reason =>
    exact trace_dropTimeRange h timeline dropRange deepRemoval reason
  | dropEntityPath e => exact .single (.dropEntityPath e)

theorem Core.apply {s : ChunkStore} {op : Op} (h : Core env pol s) (hop : op.Legal env pol s) :
    Core env pol (s.apply env op).1 :=
  (Op.trace h hop).invariant (fun _ _ _ hs ht => ht.core hs) h

abbrev Reached (env : Env) (pol : Policy) (config : ChunkStoreConfig) (s : ChunkStore) : Prop :=
  Reachable (ChunkStore.new config) (fun s op => (s.apply env op).1) (fun s op => op.Legal env pol s) s

theorem at_new (config : ChunkStoreConfig) (slot : Slot) :
    (ChunkStore.new config).at slot = default := by
  cases slot <;> rfl

theorem Core.new (env : Env) (pol : Policy) (config : ChunkStoreConfig) :
    Core env pol (ChunkStore.new config) where
  physical h := by simp [ChunkStore.new] at h
  pieces _ _ _ _ h := by simp [ChunkStore.new] at h
  keyed h := by simp [ChunkStore.new] at h
  storable h := by simp [ChunkStore.new] at h
  allowed h := by simp [ChunkStore.new] at h
  mentions h := by cases h <;> simp_all [ChunkStore.new]
  indexes h := by
    cases h with
    | start hx => exact (ChunkIdSetPerTime.not_mem_startIds_default (at_new config _ ▸ hx)).elim
    | stop hx => exact (ChunkIdSetPerTime.not_mem_endIds_default (at_new config _ ▸ hx)).elim
    | static hx => simp [ChunkStore.new, staticChunkId?] at hx
    | archive hx => simp [ChunkStore.new] at hx

theorem Reached.core {s : ChunkStore} (h : Reached env pol config s) : Core env pol s :=
  h.invariant (.new env pol config) fun _ _ hs hop => hs.apply hop

theorem Reached.invariant {inv : ChunkStore → Prop} {s : ChunkStore}
    (h : Reached env pol config s) (h0 : inv (ChunkStore.new config))
    (hs : ∀ s es s', Core env pol s → inv s → Step env pol s es s' → inv s') : inv s := by
  refine Reachable.invariant_with (fun _ => Reached.core) h0 (fun s op hcore hi hop => ?_) h
  exact ((Op.trace hcore hop).invariant
    (fun s es s' (hi : Core env pol s ∧ inv s) ht => ⟨ht.core hi.1, hs s es s' hi.1 hi.2 ht⟩)
    ⟨hcore, hi⟩).2

-- ---------------------------------------------------------------------------
-- Runs on fixed inputs
-- ---------------------------------------------------------------------------

def Legals (env : Env) (pol : Policy) (s : ChunkStore) : List Op → Prop
  | [] => True
  | op :: rest => op.Legal env pol s ∧ Legals env pol (s.apply env op).1 rest

theorem reached_foldl {s : ChunkStore} {ops : List Op} (h : Reached env pol config s)
    (hops : Legals env pol s ops) :
    Reached env pol config (ops.foldl (fun s op => (s.apply env op).1) s) := by
  induction ops generalizing s with
  | nil => exact h
  | cons op rest ih => exact ih (h.step hops.1) hops.2

theorem reached_run {ops : List Op} (h : Legals env pol (ChunkStore.new config) ops) :
    Reached env pol config (run env config ops) := reached_foldl .init h

end DimosViewer.ChunkStore

namespace DimosViewer

/-- Surroundings in which every row is one byte, and which draw ids from 1000 on. -/
def Env.plain : Env where
  sizeBytes c := c.numRows
  newId n := 1000 + n
  newId_injective _ _ h := Nat.add_left_cancel h
  hashOrder _ ids := ids
  hashOrder_perm _ ids := .refl ids

/-- A chunk from its columns, its flags computed. -/
def Chunk.ofColumns (id : ChunkId) (entityPath : EntityPath) (rowIds : List RowId)
    (timelines : List (Timeline × List TimeInt))
    (components : List (ComponentIdentifier × List (Option Cell))) : Chunk where
  id := id
  entityPath := entityPath
  isSorted := isSortedList rowIds
  rowIds := rowIds
  timelines := timelines.map fun (timeline, times) => (timeline.name, .new none timeline times)
  components := components.map fun (component, cells) => ⟨component, "u8", cells⟩

def Chunk.single (id : ChunkId) (rowId : RowId) (time : Int) : Chunk :=
  .ofColumns id ["e"] [rowId] [(⟨"t", .sequence⟩, [.newTemporal time])] [("c", [some []])]

theorem Env.plain_not_future {cid : ChunkId} (h : cid < 1000) (n : Nat) :
    ¬ Env.plain.Future n cid := by
  rintro ⟨k, -, rfl⟩
  exact absurd h (Nat.not_lt.mpr (Nat.le_add_right 1000 k))

end DimosViewer
