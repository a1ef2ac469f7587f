import DimosViewer.EntityDb.ChunkFetcher
import Mathlib.Algebra.Order.BigOperators.Group.Finset

/-!
# Laws of prefetching

With budgets that are never filled, each chunk is handled when its turn comes: a call goes through
all chunks up to its stage. What was requested is then read off the chunks that were visited.
-/

namespace DimosViewer

open Std (TreeMap)

-- ---------------------------------------------------------------------------
-- Rows of the manifest
-- ---------------------------------------------------------------------------

def RrdManifestIndex.ofManifest (parts : List ManifestPart) : RrdManifestIndex :=
  parts.foldl (fun index part => index.append part.toRrdManifestDelta) {}

def RowsMatch (chunkIds : List ChunkId) (rootChunks : TreeMap ChunkId RootChunkInfo) : Prop :=
  ∀ (chunk : ChunkId) (info : RootChunkInfo), rootChunks[chunk]? = some info →
    chunkIds[info.rowId]? = some chunk

namespace RowsMatch

theorem append (h : RowsMatch chunkIds rootChunks) (more : List ChunkId) :
    RowsMatch (chunkIds ++ more) rootChunks := by
  intro chunk info hinfo
  have hlt := (List.getElem?_eq_some_iff.mp (h chunk info hinfo)).1
  rw [List.getElem?_append_left hlt]
  exact h chunk info hinfo

theorem insert (h : RowsMatch chunkIds rootChunks) (hrow : chunkIds[info.rowId]? = some chunk) :
    RowsMatch chunkIds (rootChunks.insert chunk info) := by
  intro c info' hinfo
  rw [TreeMap.getElem?_insert] at hinfo
  split at hinfo
  · rename_i heq
    obtain rfl := Std.LawfulEqCmp.eq_of_compare heq
    obtain rfl := Option.some.inj hinfo
    exact hrow
  · exact h c info' hinfo

theorem modify (h : RowsMatch chunkIds rootChunks) {f : RootChunkInfo → RootChunkInfo}
    (hf : ∀ info, (f info).rowId = info.rowId) (chunk : ChunkId) :
    RowsMatch chunkIds (rootChunks.modify chunk f) := by
  intro c info hinfo
  rw [TreeMap.getElem?_modify] at hinfo
  split at hinfo
  · rename_i heq
    obtain rfl := Std.LawfulEqCmp.eq_of_compare heq
    obtain ⟨info', hinfo', rfl⟩ := Option.map_eq_some_iff.mp hinfo
    rw [hf]
    exact h chunk info' hinfo'
  · exact h c info hinfo

theorem map (h : RowsMatch chunkIds rootChunks) {f : ChunkId → RootChunkInfo → RootChunkInfo}
    (hf : ∀ chunk info, (f chunk info).rowId = info.rowId) :
    RowsMatch chunkIds (rootChunks.map f) := by
  intro c info hinfo
  rw [TreeMap.getElem?_map] at hinfo
  obtain ⟨info', hinfo', rfl⟩ := Option.map_eq_some_iff.mp hinfo
  rw [hf]
  exact h c info' hinfo'

theorem rowId_injective {c c' : ChunkId} {info info' : RootChunkInfo}
    (h : RowsMatch chunkIds rootChunks) (hc : rootChunks[c]? = some info)
    (hc' : rootChunks[c']? = some info') (hrow : info.rowId = info'.rowId) : c = c' := by
  have := h c info hc
  rw [hrow, h c' info' hc'] at this
  exact (Option.some.inj this).symm

theorem foldl_insert {entries : List ((ChunkId × EntityPath) × Nat)} (n : Nat)
    (h : RowsMatch chunkIds rootChunks)
    (hall : ∀ entry ∈ entries, chunkIds[n + entry.2]? = some entry.1.1) :
    RowsMatch chunkIds (entries.foldl (fun rootChunks ((chunk, entityPath), row) =>
      rootChunks.insert chunk { entityPath, rowId := n + row }) rootChunks) := by
  induction entries generalizing rootChunks with
  | nil => exact h
  | cons entry rest ih =>
    obtain ⟨⟨chunk, entityPath⟩, row⟩ := entry
    obtain ⟨hrow, hrest⟩ := List.forall_mem_cons.mp hall
    exact ih (h.insert hrow) hrest

theorem foldl_addTemporal (h : RowsMatch chunkIds rootChunks)
    (entries : List (EntityPath × Timeline × ComponentIdentifier × ChunkId ×
      RrdManifestTemporalMapEntry)) :
    RowsMatch chunkIds (entries.foldl (fun rootChunks (_, timeline, _, chunk, entry) =>
      rootChunks.modify chunk (RrdManifestIndex.addTemporal · timeline entry)) rootChunks) := by
  induction entries generalizing rootChunks with
  | nil => exact h
  | cons entry rest ih =>
    obtain ⟨_, timeline, _, chunk, entry⟩ := entry
    exact ih (h.modify (f := (RrdManifestIndex.addTemporal · timeline entry)) (fun _ => rfl) chunk)

theorem appendManifest {index : RrdManifestIndex} (h : RowsMatch chunkIds index.rootChunks)
    (hlen : index.numRows = chunkIds.length) (part : ManifestPart) :
    RowsMatch (chunkIds ++ part.colChunkIds)
      (index.append part.toRrdManifestDelta).rootChunks := by
  refine ((h.append _).foldl_insert _ ?_).foldl_addTemporal _
  rintro ⟨⟨chunk, entityPath⟩, row⟩ hmem
  rw [hlen, List.getElem?_append_right (Nat.le_add_right _ _), Nat.add_sub_cancel_left]
  have hget := (List.mem_zipIdx_iff_getElem?.mp hmem)
  simp only at hget
  rw [List.getElem?_zip_eq_some] at hget
  exact hget.1

theorem ofManifest (parts : List ManifestPart) :
    RowsMatch (ManifestColumns.concat parts).chunkIds
      (RrdManifestIndex.ofManifest parts).rootChunks := by
  have hfold : ∀ (parts : List ManifestPart) (chunkIds : List ChunkId) (index : RrdManifestIndex),
      RowsMatch chunkIds index.rootChunks → index.numRows = chunkIds.length →
      RowsMatch (chunkIds ++ parts.flatMap (·.colChunkIds))
        (parts.foldl (fun index part => index.append part.toRrdManifestDelta) index).rootChunks := by
    intro parts
    induction parts with
    | nil => exact fun chunkIds index h _ => by simpa using h
    | cons part parts ih =>
      intro chunkIds index h hlen
      rw [List.flatMap_cons, ← List.append_assoc]
      refine ih _ _ (h.appendManifest hlen part) ?_
      simp [RrdManifestIndex.append, hlen]
  exact hfold parts [] {} (by intro chunk info h; simp at h) rfl

end RowsMatch

-- ---------------------------------------------------------------------------
-- Batches
-- ---------------------------------------------------------------------------

namespace RemainingByteBudget

variable {budget : RemainingByteBudget} {bytes : Nat}

theorem tryFitInMemory_of_lt (h : bytes < budget.remainingBytesInMemory) (required : Bool) :
    budget.tryFitInMemory bytes required =
      (true, { budget with remainingBytesInMemory := budget.remainingBytesInMemory - bytes }) := by
  have hne : budget.remainingBytesInMemory - bytes ≠ 0 := by omega
  simp [tryFitInMemory, hne]

theorem tryFitOnWire_of_lt (h : bytes < budget.remainingBytesOnWire)
    (hle : budget.remainingBytesOnWire ≤ i64Max) :
    budget.tryFitOnWire bytes =
      (true, { budget with remainingBytesOnWire := budget.remainingBytesOnWire - bytes }) := by
  have hpos : 0 < budget.remainingBytesOnWire := by omega
  have hmin : i64Min < 0 := by decide
  have hsub : saturatingSub budget.remainingBytesOnWire bytes =
      budget.remainingBytesOnWire - bytes := by
    unfold saturatingSub
    omega
  simp [tryFitOnWire, hpos, hsub]

end RemainingByteBudget

namespace ChunkRequestBatcher

def requestedRows (batcher : ChunkRequestBatcher) : List Nat :=
  batcher.toLoad.flatMap (·.rows) ++ batcher.currentBatch.rowIndices

/-- The batches that are complete say which chunks they load. -/
def NamesChunks (batcher : ChunkRequestBatcher) : Prop :=
  ∀ batch ∈ batcher.toLoad, batch.rowIndices = batch.rows.toFinset ∧
    batch.rootChunkIds = (batch.rows.map (batcher.manifest.chunkIds.getD · 0)).toFinset

@[simp] theorem manifest_finishBatch (batcher : ChunkRequestBatcher) :
    batcher.finishBatch.manifest = batcher.manifest := by
  simp only [finishBatch]
  split <;> rfl

theorem requestedRows_finishBatch (batcher : ChunkRequestBatcher) :
    batcher.finishBatch.requestedRows = batcher.requestedRows := by
  simp only [finishBatch]
  split
  · rfl
  · simp [requestedRows]

theorem rowIndices_finishBatch (batcher : ChunkRequestBatcher) :
    batcher.finishBatch.currentBatch.rowIndices = [] := by
  simp only [finishBatch]
  split
  · rename_i h
    simpa using h
  · rfl

theorem NamesChunks.finishBatch {batcher : ChunkRequestBatcher} (h : batcher.NamesChunks) :
    batcher.finishBatch.NamesChunks := by
  simp only [ChunkRequestBatcher.finishBatch]
  split
  · exact h
  · intro batch hbatch
    rcases List.mem_append.mp hbatch with hbatch | hbatch
    · exact h batch hbatch
    · obtain rfl := List.mem_singleton.mp hbatch
      exact ⟨rfl, rfl⟩

theorem tryFetch_of_lt (batcher : ChunkRequestBatcher) (row : Nat) (budget : RemainingByteBudget)
    (h : batcher.manifest.chunkByteSize.getD row 0 < budget.remainingBytesOnWire)
    (hle : budget.remainingBytesOnWire ≤ i64Max) :
    ∃ batcher' : ChunkRequestBatcher, batcher.tryFetch row budget =
        (true, batcher', { budget with
          remainingBytesOnWire :=
            budget.remainingBytesOnWire - batcher.manifest.chunkByteSize.getD row 0 }) ∧
      batcher'.manifest = batcher.manifest ∧
      batcher'.requestedRows = batcher.requestedRows ++ [row] ∧
      (batcher.NamesChunks → batcher'.NamesChunks) := by
  simp only [tryFetch, RemainingByteBudget.tryFitOnWire_of_lt h hle, if_true]
  refine ⟨_, rfl, ?_⟩
  split
  · refine ⟨by simp, ?_, fun h => NamesChunks.finishBatch h⟩
    rw [requestedRows_finishBatch]
    simp [requestedRows]
  · exact ⟨rfl, by simp [requestedRows], fun h => h⟩

end ChunkRequestBatcher

-- ---------------------------------------------------------------------------
-- Budgets that are never filled
-- ---------------------------------------------------------------------------

namespace FetchSource

def known (s : FetchSource) : Finset ChunkId := s.rootChunks.keys.toFinset

def physical (s : FetchSource) : Finset ChunkId := s.store.physicalChunksPerChunkId.keys.toFinset

def memorySize (s : FetchSource) (manifest : ManifestColumns) (chunk : ChunkId) : Nat :=
  (s.rootChunks[chunk]?).elim 0 fun info => manifest.chunkByteSizeUncompressed.getD info.rowId 0

def wireSize (s : FetchSource) (manifest : ManifestColumns) (chunk : ChunkId) : Nat :=
  (s.rootChunks[chunk]?).elim 0 fun info => manifest.chunkByteSize.getD info.rowId 0

def physicalSize (env : Env) (s : FetchSource) (chunk : ChunkId) : Nat :=
  (s.store.physicalChunksPerChunkId[chunk]?).elim 0 env.sizeBytes

theorem mem_known {s : FetchSource} : c ∈ s.known ↔ ∃ info, s.rootChunks[c]? = some info := by
  rw [known, List.mem_toFinset, TreeMap.mem_keys, ← TreeMap.isSome_getElem?_iff_mem,
    Option.isSome_iff_exists]

theorem mem_physical {s : FetchSource} :
    c ∈ s.physical ↔ ∃ chunk, s.store.physicalChunksPerChunkId[c]? = some chunk := by
  rw [physical, List.mem_toFinset, TreeMap.mem_keys, ← TreeMap.isSome_getElem?_iff_mem,
    Option.isSome_iff_exists]

end FetchSource

structure Affords (env : Env) (source : FetchSource) (manifest : ManifestColumns)
    (visited kept : Finset ChunkId) (budget : RemainingByteBudget) : Prop where
  memory : ∑ c ∈ source.known \ visited, source.memorySize manifest c +
    ∑ c ∈ source.physical \ kept, source.physicalSize env c < budget.remainingBytesInMemory
  total : budget.remainingBytesInMemory ≤ budget.totalBytesInMemory
  wire : (∑ c ∈ source.known \ visited, source.wireSize manifest c : Nat) <
    budget.remainingBytesOnWire
  wire_le : budget.remainingBytesOnWire ≤ i64Max

theorem sum_sdiff_insert {s t : Finset ChunkId} {c : ChunkId} (hs : c ∈ s) (ht : c ∉ t)
    (f : ChunkId → Nat) : f c + ∑ x ∈ s \ insert c t, f x = ∑ x ∈ s \ t, f x := by
  rw [Finset.sdiff_insert]
  exact Finset.add_sum_erase _ f (Finset.mem_sdiff.mpr ⟨hs, ht⟩)

theorem sum_sdiff_mono {s t t' : Finset ChunkId} (h : t ⊆ t') (f : ChunkId → Nat) :
    ∑ x ∈ s \ t', f x ≤ ∑ x ∈ s \ t, f x :=
  Finset.sum_le_sum_of_subset (Finset.sdiff_subset_sdiff le_rfl h)

namespace ChunkFetcher

/-- Physical chunks that are not kept yet are paid for once. -/
theorem protectPhysical_of_affords (env : Env) (source : FetchSource) (required : Bool) (n : Nat)
    (ids : List ChunkId) (kept : Finset ChunkId) (budget : RemainingByteBudget)
    (h : n + ∑ c ∈ source.physical \ kept, source.physicalSize env c <
      budget.remainingBytesInMemory) :
    ∃ kept' remaining, protectPhysical env source.store required ids kept budget =
        (true, kept', { budget with remainingBytesInMemory := remaining }) ∧
      remaining ≤ budget.remainingBytesInMemory ∧
      n + ∑ c ∈ source.physical \ kept', source.physicalSize env c < remaining := by
  induction ids generalizing kept budget with
  | nil => exact ⟨kept, _, rfl, le_rfl, h⟩
  | cons id ids ih =>
    rw [protectPhysical]
    split
    · exact ih kept budget h
    · rename_i hid
      cases hchunk : source.store.physicalChunksPerChunkId[id]? with
      | none => exact ih kept budget h
      | some chunk =>
        have hsum := sum_sdiff_insert (FetchSource.mem_physical.mpr ⟨chunk, hchunk⟩) hid
          (source.physicalSize env)
        have hsize : source.physicalSize env id = env.sizeBytes chunk := by
          simp [FetchSource.physicalSize, hchunk]
        have hfits : env.sizeBytes chunk < budget.remainingBytesInMemory := by omega
        simp only [RemainingByteBudget.tryFitInMemory_of_lt hfits]
        obtain ⟨kept', remaining, heq, hle, hlt⟩ := ih (insert id kept) { budget with
          remainingBytesInMemory := budget.remainingBytesInMemory - env.sizeBytes chunk }
          (by simp only; omega)
        exact ⟨kept', remaining, heq, hle.trans (Nat.sub_le _ _), hlt⟩

structure Progress (env : Env) (f : ChunkFetcher) (budget : RemainingByteBudget)
    (done : List PrioritizedRootChunk) : Prop where
  affords : Affords env f.source f.requestBatcher.manifest f.visitedRootChunks
    f.protectedChunks.physical budget
  visited : f.visitedRootChunks = (done.map (·.rootChunkId)).toFinset
  unfilled : f.state.memoryBudgetFilled = false
  nodup : f.requestBatcher.requestedRows.Nodup
  rows : ∀ row, row ∈ f.requestBatcher.requestedRows ↔ ∃ c ∈ f.visitedRootChunks, ∃ info,
    f.source.rootChunks[c]? = some info ∧ info.state = .unloaded ∧ info.rowId = row
  names : f.requestBatcher.NamesChunks
  loaded : ∃ b, f.state.allRequiredAreLoaded = some b ∧ (b = true ↔
    ∀ p ∈ done, p.stage = .required → ∀ info, f.source.rootChunks[p.rootChunkId]? = some info →
      info.state = .fullyLoaded)

-- ---------------------------------------------------------------------------
-- One chunk
-- ---------------------------------------------------------------------------

def newRows (source : FetchSource) (chunk : ChunkId) : List Nat :=
  match source.rootChunks[chunk]? with
  | some info => if info.state = .unloaded then [info.rowId] else []
  | none => []

def blocks (source : FetchSource) (chunk : PrioritizedRootChunk) : Bool :=
  chunk.stage.isRequired &&
    (source.rootChunks[chunk.rootChunkId]?).any fun info => info.state ≠ .fullyLoaded

theorem mem_newRows {source : FetchSource} : row ∈ newRows source c ↔
    ∃ info, source.rootChunks[c]? = some info ∧ info.state = .unloaded ∧ info.rowId = row := by
  unfold newRows
  cases source.rootChunks[c]? with
  | none => simp
  | some info =>
    by_cases hstate : info.state = .unloaded
    · simp [hstate, eq_comm]
    · simp [hstate]

theorem blocks_iff {source : FetchSource} : blocks source chunk ↔ chunk.stage = .required ∧
    ∃ info, source.rootChunks[chunk.rootChunkId]? = some info ∧ info.state ≠ .fullyLoaded := by
  have hrequired : chunk.stage.isRequired ↔ chunk.stage = .required := by
    cases chunk.stage <;> simp [FetchStage.isRequired]
  simp [blocks, hrequired, Option.any_eq_true]

theorem Progress.visit {env : Env} {f f' : ChunkFetcher} {budget budget' : RemainingByteBudget}
    {done : List PrioritizedRootChunk} {chunk : PrioritizedRootChunk}
    (h : Progress env f budget done) (hnew : chunk.rootChunkId ∉ f.visitedRootChunks)
    (hmatch : RowsMatch f.requestBatcher.manifest.chunkIds f.source.rootChunks)
    (hsource : f'.source = f.source)
    (hvisited : f'.visitedRootChunks = insert chunk.rootChunkId f.visitedRootChunks)
    (haffords : Affords env f'.source f'.requestBatcher.manifest f'.visitedRootChunks
      f'.protectedChunks.physical budget')
    (hunfilled : f'.state.memoryBudgetFilled = false)
    (hrows : f'.requestBatcher.requestedRows =
      f.requestBatcher.requestedRows ++ newRows f.source chunk.rootChunkId)
    (hnames : f'.requestBatcher.NamesChunks)
    (hloaded : f'.state.allRequiredAreLoaded =
      if blocks f.source chunk then some false else f.state.allRequiredAreLoaded) :
    Progress env f' budget' (done ++ [chunk]) where
  affords := haffords
  visited := by
    rw [hvisited, h.visited]
    ext c
    simp
  unfilled := hunfilled
  nodup := by
    rw [hrows]
    refine List.nodup_append.mpr ⟨h.nodup, ?_, ?_⟩
    · unfold newRows
      cases f.source.rootChunks[chunk.rootChunkId]? with
      | none => simp
      | some info => by_cases hstate : info.state = .unloaded <;> simp [hstate]
    · rintro row hrow row' hrow' rfl
      obtain ⟨c, hc, info, hinfo, -, rfl⟩ := (h.rows row).mp hrow
      obtain ⟨info', hinfo', -, heq⟩ := mem_newRows.mp hrow'
      exact hnew (hmatch.rowId_injective hinfo' hinfo heq ▸ hc)
  rows := by
    intro row
    rw [hrows, List.mem_append, h.rows, mem_newRows, hsource, hvisited]
    simp [or_comm]
  names := hnames
  loaded := by
    obtain ⟨b, hb, hiff⟩ := h.loaded
    rw [hloaded, hsource]
    by_cases hblocks : blocks f.source chunk
    · refine ⟨false, by rw [if_pos hblocks], ?_⟩
      obtain ⟨hstage, info, hinfo, hstate⟩ := blocks_iff.mp hblocks
      simp only [Bool.false_eq_true, false_iff]
      exact fun hall => hstate (hall chunk (by simp) hstage info hinfo)
    · refine ⟨b, by rw [if_neg hblocks, hb], ?_⟩
      rw [hiff]
      constructor
      · intro hall p hp hstage info hinfo
        rcases List.mem_append.mp hp with hp | hp
        · exact hall p hp hstage info hinfo
        · obtain rfl := List.mem_singleton.mp hp
          exact by_contra fun hne => hblocks (blocks_iff.mpr ⟨hstage, info, hinfo, hne⟩)
      · exact fun hall p hp => hall p (List.mem_append_left _ hp)

theorem Progress.again {env : Env} {f : ChunkFetcher} {budget : RemainingByteBudget}
    {done : List PrioritizedRootChunk} {chunk : PrioritizedRootChunk}
    (h : Progress env f budget done) (hold : chunk.rootChunkId ∈ f.visitedRootChunks)
    (hsorted : ∀ p ∈ done, p.stage ≤ chunk.stage) : Progress env f budget (done ++ [chunk]) := by
  obtain ⟨p, hp, hroot⟩ : ∃ p ∈ done, p.rootChunkId = chunk.rootChunkId := by
    simpa [h.visited] using hold
  refine ⟨h.affords, ?_, h.unfilled, h.nodup, h.rows, h.names, ?_⟩
  · rw [h.visited]
    ext c
    simp only [List.map_append, List.map_cons, List.map_nil, List.mem_toFinset, List.mem_append,
      List.mem_singleton]
    refine ⟨.inl, fun hc => hc.elim id ?_⟩
    rintro rfl
    exact List.mem_map.mpr ⟨p, hp, hroot⟩
  · obtain ⟨b, hb, hiff⟩ := h.loaded
    refine ⟨b, hb, hiff.trans ⟨fun hall q hq hstage info hinfo => ?_, fun hall q hq =>
      hall q (List.mem_append_left _ hq)⟩⟩
    rcases List.mem_append.mp hq with hq | hq
    · exact hall q hq hstage info hinfo
    · obtain rfl := List.mem_singleton.mp hq
      have hrequired : p.stage = .required := by
        have hle := FetchStage.le_required_iff.mp (hstage ▸ hsorted p hp)
        cases hstage : p.stage with
        | required => rfl
        | similar d => simp [hstage, FetchStage.isRequired] at hle
        | everything => simp [hstage, FetchStage.isRequired] at hle
      exact hall p hp hrequired info (hroot ▸ hinfo)

/-- A known chunk that is visited is paid for out of the sums over those that are not. -/
theorem Progress.affords_visit {env : Env} {f : ChunkFetcher} {budget : RemainingByteBudget}
    {done : List PrioritizedRootChunk} {c : ChunkId} {info : RootChunkInfo}
    (h : Progress env f budget done) (hnew : c ∉ f.visitedRootChunks)
    (hinfo : f.source.rootChunks[c]? = some info) :
    f.requestBatcher.manifest.chunkByteSizeUncompressed.getD info.rowId 0 +
        (∑ c ∈ f.source.known \ insert c f.visitedRootChunks,
            f.source.memorySize f.requestBatcher.manifest c +
          ∑ c ∈ f.source.physical \ f.protectedChunks.physical, f.source.physicalSize env c) <
      budget.remainingBytesInMemory ∧
    ((f.requestBatcher.manifest.chunkByteSize.getD info.rowId 0 +
        ∑ c ∈ f.source.known \ insert c f.visitedRootChunks,
          f.source.wireSize f.requestBatcher.manifest c : Nat) : Int) <
      budget.remainingBytesOnWire := by
  have hknown := FetchSource.mem_known.mpr ⟨info, hinfo⟩
  have hmemory := sum_sdiff_insert hknown hnew (f.source.memorySize f.requestBatcher.manifest)
  have hwire := sum_sdiff_insert hknown hnew (f.source.wireSize f.requestBatcher.manifest)
  have hsize : f.source.memorySize f.requestBatcher.manifest c =
      f.requestBatcher.manifest.chunkByteSizeUncompressed.getD info.rowId 0 := by
    simp [FetchSource.memorySize, hinfo]
  have hwsize : f.source.wireSize f.requestBatcher.manifest c =
      f.requestBatcher.manifest.chunkByteSize.getD info.rowId 0 := by
    simp [FetchSource.wireSize, hinfo]
  obtain ⟨ham, hat, haw, hawl⟩ := h.affords
  rw [← hmemory, hsize] at ham
  rw [← hwire, hwsize] at haw
  exact ⟨by omega, haw⟩

theorem Progress.request {env : Env} {f : ChunkFetcher} {budget : RemainingByteBudget}
    {done : List PrioritizedRootChunk} {chunk : PrioritizedRootChunk} {info : RootChunkInfo}
    (h : Progress env f budget done) (hnew : chunk.rootChunkId ∉ f.visitedRootChunks)
    (hmatch : RowsMatch f.requestBatcher.manifest.chunkIds f.source.rootChunks)
    (hinfo : f.source.rootChunks[chunk.rootChunkId]? = some info)
    (hstate : info.state ≠ .fullyLoaded) :
    ∃ f' budget', ({ f with visitedRootChunks := insert chunk.rootChunkId f.visitedRootChunks } :
        ChunkFetcher).request budget chunk info = (true, f', budget') ∧
      Progress env f' budget' (done ++ [chunk]) ∧ f'.source = f.source ∧
      f'.requestBatcher.manifest = f.requestBatcher.manifest := by
  obtain ⟨hmemory, hwire⟩ := h.affords_visit hnew hinfo
  obtain ⟨ham, hat, haw, hawl⟩ := h.affords
  have hblocks : blocks f.source chunk = chunk.stage.isRequired := by
    simp [blocks, hinfo, hstate]
  have hkept : f.protectedChunks.physical ⊆ f.protectedChunks.physical ∪
      (f.source.store.collectPhysicalDescendentsOf chunk.rootChunkId).toFinset :=
    Finset.subset_union_left
  have hkept := sum_sdiff_mono (s := f.source.physical) hkept (f.source.physicalSize env)
  have hsmall : ¬ budget.totalBytesInMemory <
      f.requestBatcher.manifest.chunkByteSizeUncompressed.getD info.rowId 0 := by omega
  have hfits : f.requestBatcher.manifest.chunkByteSizeUncompressed.getD info.rowId 0 <
      budget.remainingBytesInMemory := by omega
  -- The state is the same whether the update is made or not.
  let state := { f.state with allRequiredAreLoaded :=
    if chunk.stage.isRequired then some false else f.state.allRequiredAreLoaded }
  have hstart : (if chunk.stage.isRequired then
      ({ f with
        visitedRootChunks := insert chunk.rootChunkId f.visitedRootChunks
        state := { f.state with allRequiredAreLoaded := some false } } : ChunkFetcher)
      else { f with visitedRootChunks := insert chunk.rootChunkId f.visitedRootChunks }) =
      { f with visitedRootChunks := insert chunk.rootChunkId f.visitedRootChunks, state } := by
    cases hrequired : chunk.stage.isRequired <;> simp [state, hrequired]
  have hloaded : state.allRequiredAreLoaded =
      if blocks f.source chunk then some false else f.state.allRequiredAreLoaded := by
    rw [hblocks]
  simp only [ChunkFetcher.request, hstart, if_neg hsmall,
    RemainingByteBudget.tryFitInMemory_of_lt hfits]
  by_cases hunloaded : info.state = .unloaded
  · obtain ⟨batcher, hfetch, hmanifest, hrows, hnames⟩ :=
      f.requestBatcher.tryFetch_of_lt info.rowId ({ budget with
        remainingBytesInMemory := budget.remainingBytesInMemory -
          f.requestBatcher.manifest.chunkByteSizeUncompressed.getD info.rowId 0 })
        (by simp only; omega) hawl
    simp only [if_pos hunloaded, hfetch]
    refine ⟨_, _, rfl, ?_, rfl, hmanifest⟩
    refine h.visit hnew hmatch rfl rfl ⟨?_, ?_, ?_, ?_⟩ h.unfilled ?_ (hnames h.names) hloaded
    · simp only [hmanifest]
      omega
    · simp only
      omega
    · simp only [hmanifest]
      omega
    · simp only
      omega
    · rw [hrows]
      simp [newRows, hinfo, hunloaded]
  · simp only [if_neg hunloaded]
    refine ⟨_, _, rfl, ?_, rfl, rfl⟩
    refine h.visit hnew hmatch rfl rfl ⟨?_, ?_, ?_, hawl⟩ h.unfilled ?_ h.names hloaded
    · simp only
      omega
    · simp only
      omega
    · simp only
      omega
    · simp [newRows, hinfo, hunloaded]

theorem Progress.keep {env : Env} {f : ChunkFetcher} {budget : RemainingByteBudget}
    {done : List PrioritizedRootChunk} {chunk : PrioritizedRootChunk} {info : RootChunkInfo}
    (h : Progress env f budget done) (hnew : chunk.rootChunkId ∉ f.visitedRootChunks)
    (hmatch : RowsMatch f.requestBatcher.manifest.chunkIds f.source.rootChunks)
    (hinfo : f.source.rootChunks[chunk.rootChunkId]? = some info)
    (hstate : info.state = .fullyLoaded) :
    ∃ f' budget', ({ f with visitedRootChunks := insert chunk.rootChunkId f.visitedRootChunks } :
        ChunkFetcher).keep env budget chunk = (true, f', budget') ∧
      Progress env f' budget' (done ++ [chunk]) ∧ f'.source = f.source ∧
      f'.requestBatcher.manifest = f.requestBatcher.manifest := by
  obtain ⟨hmemory, hwire⟩ := h.affords_visit hnew hinfo
  obtain ⟨ham, hat, haw, hawl⟩ := h.affords
  have hblocks : blocks f.source chunk = false := by
    simp [blocks, hinfo, hstate]
  obtain ⟨kept, remaining, heq, hle, hlt⟩ := protectPhysical_of_affords env f.source
    chunk.stage.isRequired (∑ c ∈ f.source.known \ insert chunk.rootChunkId f.visitedRootChunks,
      f.source.memorySize f.requestBatcher.manifest c)
    (f.source.store.collectPhysicalDescendentsOf chunk.rootChunkId) f.protectedChunks.physical
    budget (by omega)
  simp only [ChunkFetcher.keep, heq, h.unfilled]
  refine ⟨_, _, rfl, ?_, rfl, rfl⟩
  refine h.visit hnew hmatch rfl rfl ⟨hlt, hle.trans hat, ?_, hawl⟩ rfl ?_ h.names ?_
  · simp only
    omega
  · simp [newRows, hinfo, hstate]
  · simp [hblocks]

theorem Progress.handle {env : Env} {f : ChunkFetcher} {budget : RemainingByteBudget}
    {done : List PrioritizedRootChunk} {chunk : PrioritizedRootChunk}
    (h : Progress env f budget done)
    (hmatch : RowsMatch f.requestBatcher.manifest.chunkIds f.source.rootChunks)
    (hsorted : ∀ p ∈ done, p.stage ≤ chunk.stage) :
    ∃ f' budget', f.handle env budget chunk = (true, f', budget') ∧
      Progress env f' budget' (done ++ [chunk]) ∧ f'.source = f.source ∧
      f'.requestBatcher.manifest = f.requestBatcher.manifest := by
  unfold ChunkFetcher.handle
  split
  · exact ⟨f, budget, rfl, h.again ‹_› hsorted, rfl, rfl⟩
  · rename_i hnew
    simp only
    split
    · rename_i hnone
      refine ⟨_, _, rfl, ?_, rfl, rfl⟩
      have hunknown : chunk.rootChunkId ∉ f.source.known := by
        rw [FetchSource.mem_known]
        simp [hnone]
      have hsame : f.source.known \ insert chunk.rootChunkId f.visitedRootChunks =
          f.source.known \ f.visitedRootChunks := by
        rw [Finset.sdiff_insert, Finset.erase_eq_of_notMem]
        exact fun hc => hunknown (Finset.mem_sdiff.mp hc).1
      refine h.visit hnew hmatch rfl rfl ⟨?_, h.affords.total, ?_, h.affords.wire_le⟩ h.unfilled ?_
        h.names ?_
      · simpa only [hsame] using h.affords.memory
      · simpa only [hsame] using h.affords.wire
      · simp [newRows, hnone]
      · simp [blocks, hnone]
    · rename_i info hinfo
      cases hstate : info.state with
      | unloaded => exact h.request hnew hmatch hinfo (by simp [hstate])
      | inTransit => exact h.request hnew hmatch hinfo (by simp [hstate])
      | fullyLoaded => exact h.keep hnew hmatch hinfo hstate

-- ---------------------------------------------------------------------------
-- One call
-- ---------------------------------------------------------------------------

def after (chunks : List PrioritizedRootChunk) (toState : FetchStage) :
    List PrioritizedRootChunk :=
  chunks.filter fun p => toState < p.stage

def upTo (chunks : List PrioritizedRootChunk) (toState : FetchStage) :
    List PrioritizedRootChunk :=
  chunks.filter fun p => p.stage ≤ toState

theorem mem_upTo : p ∈ upTo chunks toState ↔ p ∈ chunks ∧ p.stage ≤ toState := by
  simp [upTo]

theorem mem_after : p ∈ after chunks toState ↔ p ∈ chunks ∧ toState < p.stage := by
  simp [after]

theorem Progress.take {env : Env} {f : ChunkFetcher} {budget : RemainingByteBudget}
    {done : List PrioritizedRootChunk} (h : Progress env f budget done) :
    Progress env f.takeChunk.2 budget done ∧ f.takeChunk.2.source = f.source ∧
      f.takeChunk.2.requestBatcher = f.requestBatcher := by
  unfold takeChunk
  split
  · exact ⟨⟨h.affords, h.visited, h.unfilled, h.nodup, h.rows, h.names, h.loaded⟩, rfl, rfl⟩
  · exact ⟨⟨h.affords, h.visited, h.unfilled, h.nodup, h.rows, h.names, h.loaded⟩, rfl, rfl⟩

theorem Progress.peek {env : Env} {f : ChunkFetcher} {budget : RemainingByteBudget}
    {done : List PrioritizedRootChunk} (h : Progress env f budget done) :
    Progress env f.peekChunk budget done ∧ f.peekChunk.source = f.source ∧
      f.peekChunk.requestBatcher = f.requestBatcher := by
  unfold peekChunk
  split
  · obtain ⟨h, hsource, hbatcher⟩ := h.take
    exact ⟨⟨h.affords, h.visited, h.unfilled, h.nodup, h.rows, h.names, h.loaded⟩, hsource,
      hbatcher⟩
  · exact ⟨h, rfl, rfl⟩

/-- The loop goes through all chunks up to its stage and leaves the others. -/
theorem Progress.fetchLoop {env : Env} {f : ChunkFetcher} {budget : RemainingByteBudget}
    {done : List PrioritizedRootChunk} (toState : FetchStage) (h : Progress env f budget done)
    (hmatch : RowsMatch f.requestBatcher.manifest.chunkIds f.source.rootChunks)
    (hsorted : (done ++ f.pending).Pairwise fun p q => p.stage ≤ q.stage) :
    ∃ f' budget', f.fetchLoop env budget toState = (f', budget') ∧
      Progress env f' budget' (done ++ upTo f.pending toState) ∧
      f'.pending = after f.pending toState ∧ f'.source = f.source ∧
      f'.requestBatcher.manifest = f.requestBatcher.manifest := by
  fun_induction ChunkFetcher.fetchLoop env f budget toState generalizing done with
  | case1 f budget peeked =>
    rename_i hstop
    obtain ⟨hpeek, hsource, hbatcher⟩ := h.peek
    have hall : ∀ p ∈ f.pending, toState < p.stage := by
      rw [nextChunk_peekChunk] at hstop
      cases hpending : f.pending with
      | nil => simp
      | cons chunk rest =>
        have hlt : toState < chunk.stage := by simpa [hpending] using hstop
        have hrest := (List.pairwise_cons.mp (hpending ▸ (List.pairwise_append.mp hsorted).2.1)).1
        exact List.forall_mem_cons.mpr ⟨hlt, fun p hp => hlt.trans_le (hrest p hp)⟩
    have hnone : upTo f.pending toState = [] :=
      List.filter_eq_nil_iff.mpr fun p hp => by simpa using (hall p hp).not_ge
    refine ⟨_, _, rfl, by simpa [hnone] using hpeek, ?_, hsource, by rw [hbatcher]⟩
    rw [pending_peekChunk, after, List.filter_eq_self.mpr]
    simpa using hall
  | case2 f budget peeked hgo f' =>
    rename_i htake
    obtain ⟨hpeek, hsource, hbatcher⟩ := h.peek
    obtain ⟨htaken, hsource', hbatcher'⟩ := hpeek.take
    have hempty : f.pending = [] := by
      rw [← pending_peekChunk, pending_eq_takeChunk, htake]
    rw [htake] at htaken hsource' hbatcher'
    refine ⟨_, _, rfl, by simpa [hempty, upTo] using htaken, ?_, hsource'.trans hsource,
      by rw [hbatcher', hbatcher]⟩
    rw [pending_takeChunk_of_none htake, hempty]
    rfl
  | case3 f budget peeked hgo chunk taken htake handled budget' =>
    rename_i hhandle
    obtain ⟨hpeek, hsource, hbatcher⟩ := h.peek
    obtain ⟨htaken, hsource', hbatcher'⟩ := hpeek.take
    have hpending : f.pending = chunk :: taken.pending := by
      rw [← pending_peekChunk, pending_eq_takeChunk, htake]
    rw [htake] at htaken hsource' hbatcher'
    obtain ⟨_, _, heq, -⟩ := htaken.handle
      (by rw [hsource', hsource, hbatcher', hbatcher]; exact hmatch)
      (fun p hp => (List.pairwise_append.mp hsorted).2.2 p hp chunk (by simp [hpending]))
    simp [hhandle] at heq
  | case4 f budget peeked hgo chunk taken htake handled left hhandle =>
    rename_i ih
    obtain ⟨hpeek, hsource, hbatcher⟩ := h.peek
    obtain ⟨htaken, hsource', hbatcher'⟩ := hpeek.take
    have hpending : f.pending = chunk :: taken.pending := by
      rw [← pending_peekChunk, pending_eq_takeChunk, htake]
    have hle : chunk.stage ≤ toState := by
      rw [nextChunk_peekChunk, hpending] at hgo
      exact FetchStage.not_lt_iff.mp (by simpa using hgo)
    rw [htake] at htaken hsource' hbatcher'
    have hmatch' : RowsMatch taken.requestBatcher.manifest.chunkIds taken.source.rootChunks := by
      rw [hsource', hsource, hbatcher', hbatcher]
      exact hmatch
    obtain ⟨_, _, heq, hprogress, hhandled, hmanifest⟩ := htaken.handle hmatch'
      (fun p hp => (List.pairwise_append.mp hsorted).2.2 p hp chunk (by simp [hpending]))
    have hkept := taken.pending_handle env budget chunk
    rw [hhandle] at heq hkept
    obtain ⟨rfl, rfl⟩ := Prod.mk.inj (Prod.mk.inj heq).2
    obtain ⟨f', budget', hloop, hprogress', hafter, hlast, hmanifest'⟩ := ih hprogress
      (by rw [hhandled, hmanifest]; exact hmatch')
      (by rw [hkept]; simpa [hpending] using hsorted)
    refine ⟨f', budget', hloop, ?_, ?_, ?_, ?_⟩
    · rw [hkept] at hprogress'
      simpa [hpending, upTo, hle] using hprogress'
    · rw [hafter, hkept, hpending, after, after,
        List.filter_cons_of_neg (by simpa using FetchStage.not_lt_iff.mpr hle)]
    · rw [hlast, hhandled, hsource', hsource]
    · rw [hmanifest', hmanifest, hbatcher', hbatcher]

def opened (f : ChunkFetcher) : ChunkFetcher :=
  if f.state.allRequiredAreLoaded.isNone then
    { f with state := { f.state with allRequiredAreLoaded := some true } } else f

theorem Progress.opened {env : Env} {f : ChunkFetcher} {budget : RemainingByteBudget}
    {done : List PrioritizedRootChunk} (h : Progress env f budget done) : f.opened = f := by
  obtain ⟨b, hb, -⟩ := h.loaded
  simp [ChunkFetcher.opened, hb]

theorem pending_opened (f : ChunkFetcher) : f.opened.pending = f.pending := by
  unfold opened
  split <;> rfl

theorem upTo_append_after {chunks : List PrioritizedRootChunk} (toState : FetchStage)
    (h : chunks.Pairwise fun p q => p.stage ≤ q.stage) :
    upTo chunks toState ++ after chunks toState = chunks := by
  induction chunks with
  | nil => rfl
  | cons chunk rest ih =>
    obtain ⟨hhead, hrest⟩ := List.pairwise_cons.mp h
    by_cases hle : chunk.stage ≤ toState
    · have hafter : after (chunk :: rest) toState = after rest toState :=
        List.filter_cons_of_neg (by simpa using FetchStage.not_lt_iff.mpr hle)
      have hupTo : upTo (chunk :: rest) toState = chunk :: upTo rest toState :=
        List.filter_cons_of_pos (by simpa using hle)
      rw [hafter, hupTo, List.cons_append, ih hrest]
    · have hlt : toState < chunk.stage := not_not.mp (mt FetchStage.not_lt_iff.mp hle)
      have hall : ∀ p ∈ chunk :: rest, toState < p.stage :=
        List.forall_mem_cons.mpr ⟨hlt, fun p hp => hlt.trans_le (hhead p hp)⟩
      have hupTo : upTo (chunk :: rest) toState = [] :=
        List.filter_eq_nil_iff.mpr fun p hp => by simpa using (hall p hp).not_ge
      have hafter : after (chunk :: rest) toState = chunk :: rest :=
        List.filter_eq_self.mpr (by simpa using hall)
      rw [hupTo, hafter, List.nil_append]

theorem Progress.fetch {env : Env} {f : ChunkFetcher} {budget : RemainingByteBudget}
    {done : List PrioritizedRootChunk} (toState : FetchStage)
    (h : Progress env f.opened budget done)
    (hmatch : RowsMatch f.opened.requestBatcher.manifest.chunkIds f.opened.source.rootChunks)
    (hsorted : (done ++ f.pending).Pairwise fun p q => p.stage ≤ q.stage) :
    ∃ f' budget', f.fetch env budget toState = (f', budget') ∧
      Progress env f' budget' (done ++ upTo f.pending toState) ∧
      f'.pending = after f.pending toState ∧ f'.source = f.opened.source ∧
      f'.requestBatcher.manifest = f.opened.requestBatcher.manifest := by
  rw [← pending_opened] at hsorted ⊢
  obtain ⟨f', budget', hloop, hprogress, hafter, hsource, hmanifest⟩ :=
    h.fetchLoop toState hmatch hsorted
  obtain ⟨hpeek, hsource', hbatcher⟩ := hprogress.peek
  have hnext : (f'.peekChunk.nextChunk.any (·.stage.isRequired)) = false := by
    rw [nextChunk_peekChunk, hafter, Option.any_eq_false]
    intro chunk hchunk
    have hlt := (mem_after.mp (List.mem_of_head? hchunk)).2
    rw [Bool.eq_false_iff, ne_eq, ← FetchStage.le_required_iff]
    exact fun hle => ((FetchStage.required_le toState).trans_lt hlt).not_ge hle
  refine ⟨f'.peekChunk, budget', ?_, hpeek, by rw [pending_peekChunk, hafter],
    hsource'.trans hsource, by rw [hbatcher, hmanifest]⟩
  unfold ChunkFetcher.fetch ChunkFetcher.opened at *
  simp only [hloop, hnext, Bool.false_eq_true, if_false]

def fetches (env : Env) (f : ChunkFetcher) (budget : RemainingByteBudget)
    (toStates : List FetchStage) : ChunkFetcher × RemainingByteBudget :=
  toStates.foldl (fun (f, budget) toState => f.fetch env budget toState) (f, budget)

theorem upTo_upTo {chunks : List PrioritizedRootChunk} {toState toState' : FetchStage}
    (h : toState ≤ toState') : upTo (upTo chunks toState) toState' = upTo chunks toState := by
  refine List.filter_eq_self.mpr fun p hp => ?_
  exact decide_eq_true ((mem_upTo.mp hp).2.trans h)

/-- Calls with increasing stages do what the last one would have done alone. -/
theorem Progress.fetches {env : Env} {chunks : List PrioritizedRootChunk} {last : FetchStage}
    (hsorted : chunks.Pairwise fun p q => p.stage ≤ q.stage) {toStates : List FetchStage}
    {f : ChunkFetcher} {budget : RemainingByteBudget} {done : List PrioritizedRootChunk}
    (hstates : toStates.Pairwise (· ≤ ·)) (hlast : toStates.getLast? = some last)
    (h : Progress env f.opened budget done) (hchunks : done ++ f.pending = chunks)
    (hmatch : RowsMatch f.opened.requestBatcher.manifest.chunkIds f.opened.source.rootChunks)
    (hdone : ∀ toState ∈ toStates, upTo done toState = done) :
    ∃ f' budget', f.fetches env budget toStates = (f', budget') ∧
      Progress env f' budget' (upTo chunks last) ∧ f'.source = f.opened.source ∧
      f'.requestBatcher.manifest = f.opened.requestBatcher.manifest := by
  induction toStates generalizing f budget done with
  | nil => simp at hlast
  | cons toState rest ih =>
    obtain ⟨hhead, hrest⟩ := List.pairwise_cons.mp hstates
    obtain ⟨f', budget', hfetch, hprogress, hafter, hsource, hmanifest⟩ :=
      h.fetch toState hmatch (hchunks ▸ hsorted)
    have hupTo : done ++ upTo f.pending toState = upTo chunks toState := by
      rw [← hchunks, upTo, upTo, List.filter_append]
      exact congrArg (· ++ _) (hdone toState List.mem_cons_self).symm
    rw [hupTo] at hprogress
    cases rest with
    | nil =>
      obtain rfl : toState = last := by simpa using hlast
      exact ⟨f', budget', hfetch, hprogress, hsource, hmanifest⟩
    | cons next rest =>
      have hpending : after f.pending toState = after chunks toState := by
        have hnone : after done toState = [] := by
          refine List.filter_eq_nil_iff.mpr fun p hp => ?_
          rw [← hdone toState List.mem_cons_self, mem_upTo] at hp
          simpa using FetchStage.not_lt_iff.mpr hp.2
        rw [← hchunks, after, after, List.filter_append]
        exact (congrArg (· ++ _) hnone).symm
      obtain ⟨f'', budget'', hfetches, hprogress', hsource', hmanifest'⟩ := ih hrest
        (by simpa using hlast) (hprogress.opened.symm ▸ hprogress)
        (by rw [hafter, hpending, upTo_append_after toState hsorted])
        (by rw [hprogress.opened, hsource, hmanifest]; exact hmatch)
        (fun toState' h' => upTo_upTo (hhead toState' h'))
      rw [hprogress.opened] at hsource' hmanifest'
      refine ⟨f'', budget'', ?_, hprogress', hsource'.trans hsource, hmanifest'.trans hmanifest⟩
      rw [← hfetches, ChunkFetcher.fetches, List.foldl_cons]
      simp only [hfetch]
      rfl

end ChunkFetcher

end DimosViewer
