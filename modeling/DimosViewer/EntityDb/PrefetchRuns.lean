import DimosViewer.EntityDb.PrefetchLaws
import DimosViewer.Store.RunLaws

/-!
# Prefetching

A fetcher over the root chunks of a manifest yields them by priority. With room for all of them, its
batches have each chunk that is not loaded and has enough priority once, and it knows in the end
whether all that is required was loaded.
-/

namespace DimosViewer

open Std (TreeMap)

-- ---------------------------------------------------------------------------
-- What has priority
-- ---------------------------------------------------------------------------

theorem mem_dedupRuns [DecidableEq α] {a : α} {l : List α} : a ∈ dedupRuns l ↔ a ∈ l := by
  fun_induction dedupRuns l with
  | case1 => rfl
  | case2 b => rfl
  | case3 b rest ih => simp [ih]
  | case4 b c rest hne ih => rw [List.mem_cons, ih, List.mem_cons (b := b)]

theorem mem_sortDedup : c ∈ sortDedup ids ↔ c ∈ ids := by
  rw [sortDedup, mem_dedupRuns, List.mem_mergeSort]

namespace ChunkPrioritizer

end ChunkPrioritizer

namespace FetchSource

variable (s : FetchSource) (tracker : QueriedChunkIdTracker)

/-- A root chunk was reported as missing, is static, or has a high priority and starts at or before
the time cursor. -/
def IsRequired (c : ChunkId) : Prop :=
  (∃ id ∈ tracker.missingVirtual, c ∈ s.store.findRootChunks id) ∨
    c ∈ s.prioritizer.staticChunkIds ∨
    ∃ cursor, s.timeCursor = some cursor ∧ ∃ chunk ∈ s.highPrioChunks cursor,
      chunk.timeRange.min ≤ cursor.time ∧ chunk.chunkId = c

inductive Prioritized : FetchStage → ChunkId → Prop where
  | required (h : s.IsRequired tracker c) : Prioritized .required c
  | similar (hcursor : s.timeCursor = some cursor) (hquery : cursor.query stage = some query)
      (hempty : query.isEmpty = false)
      (hmap : s.prioritizer.rootChunkIntervals cursor.timeline = some map)
      (he : e ∈ map.entries) (hoverlap : e.1.1 ≤ query.max ∧ query.min ≤ e.1.2)
      (hinterest : s.isInteresting e.2 = true) :
      Prioritized (.similar (cursor.offset stage (AbsoluteTimeRange.new e.1.1 e.1.2).min)) e.2
  | everything (h : c ∈ s.rootChunkKeys) : Prioritized .everything c

variable {s tracker}

theorem mem_takeWhile_of_pairwise {chunks : List HighPrioChunk} {time : TimeInt}
    (h : chunks.Pairwise fun a b => a.timeRange.min ≤ b.timeRange.min) :
    chunk ∈ chunks.takeWhile (·.timeRange.min ≤ time) ↔
      chunk ∈ chunks ∧ chunk.timeRange.min ≤ time := by
  induction chunks with
  | nil => simp
  | cons head rest ih =>
    obtain ⟨hhead, hrest⟩ := List.pairwise_cons.mp h
    by_cases hle : head.timeRange.min ≤ time
    · rw [List.takeWhile_cons_of_pos (by simpa using hle), List.mem_cons, ih hrest, List.mem_cons]
      constructor
      · rintro (rfl | ⟨hmem, hchunk⟩)
        · exact ⟨.inl rfl, hle⟩
        · exact ⟨.inr hmem, hchunk⟩
      · rintro ⟨rfl | hmem, hchunk⟩
        · exact .inl rfl
        · exact .inr ⟨hmem, hchunk⟩
    · rw [List.takeWhile_cons_of_neg (by simpa using hle)]
      simp only [List.not_mem_nil, false_iff, not_and]
      intro hmem hchunk
      rcases List.mem_cons.mp hmem with rfl | hmem
      · exact hle hchunk
      · exact hle ((hhead chunk hmem).trans hchunk)

theorem take_highPrioIdx (cursor : PrefetchTimeCursor) :
    (s.highPrioChunks cursor).take (((s.highPrioIdx cursor .uninited).filter
        (· < (s.highPrioChunks cursor).length)).elim 0 (· + 1)) =
      (s.highPrioChunks cursor).takeWhile (·.timeRange.min ≤ cursor.time) := by
  have hprefix := List.takeWhile_prefix (fun chunk => chunk.timeRange.min ≤ cursor.time)
    (l := s.highPrioChunks cursor)
  have heq := List.prefix_iff_eq_take.mp hprefix
  simp only [highPrioIdx]
  split
  · rename_i hlen
    rw [List.length_eq_zero_iff.mp hlen]
    rfl
  · rename_i n hlen
    have hlt : n < (s.highPrioChunks cursor).length := by
      have := hprefix.length_le
      omega
    rw [hlen] at heq
    simp only [Option.filter_some, hlt, decide_true, if_true, Option.elim_some]
    exact heq.symm

theorem mem_highPrioFrom : p ∈ s.highPrioFrom .uninited ↔
    ∃ cursor, s.timeCursor = some cursor ∧ ∃ chunk ∈ s.highPrioChunks cursor,
      chunk.timeRange.min ≤ cursor.time ∧ p = .required chunk.chunkId := by
  unfold highPrioFrom
  cases s.timeCursor with
  | none => simp
  | some cursor =>
    simp only [Option.elim_some]
    have hsorted := (s.prioritizer.highPriorityChunks cursor.timeline.name).sorted
    rw [take_highPrioIdx]
    simp only [List.mem_map, List.mem_reverse, highPrioChunks, mem_takeWhile_of_pairwise hsorted]
    constructor
    · rintro ⟨chunk, ⟨hmem, hle⟩, rfl⟩
      exact ⟨cursor, rfl, chunk, hmem, hle, rfl⟩
    · rintro ⟨_, hcursor, chunk, hmem, hle, rfl⟩
      obtain rfl := Option.some.inj hcursor
      exact ⟨chunk, ⟨hmem, hle⟩, rfl⟩

theorem mem_requiredChunks :
    p ∈ s.requiredChunks tracker ↔ ∃ c, s.IsRequired tracker c ∧ p = .required c := by
  simp only [requiredChunks, staticFrom, List.drop_zero, List.mem_append, List.mem_map,
    missingRoots, mem_sortDedup, List.mem_flatMap, mem_highPrioFrom]
  constructor
  · rintro ((⟨c, h, rfl⟩ | ⟨c, h, rfl⟩) | ⟨cursor, hcursor, chunk, hmem, hle, rfl⟩)
    · exact ⟨c, .inl h, rfl⟩
    · exact ⟨c, .inr (.inl h), rfl⟩
    · exact ⟨_, .inr (.inr ⟨cursor, hcursor, chunk, hmem, hle, rfl⟩), rfl⟩
  · rintro ⟨c, h | h | ⟨cursor, hcursor, chunk, hmem, hle, rfl⟩, rfl⟩
    · exact .inl (.inl ⟨c, h, rfl⟩)
    · exact .inl (.inr ⟨c, h, rfl⟩)
    · exact .inr ⟨cursor, hcursor, chunk, hmem, hle, rfl⟩

theorem mem_timeQueries_iff : p ∈ s.timeQueries ↔
    (∃ stage, p ∈ s.timeQueryChunks stage none true) ∨
      (∃ stage, p ∈ s.timeQueryChunks stage none false) ∨ p ∈ s.everythingChunks := by
  have hstages : ∀ interesting, (p ∈ s.timeQueryChunks .afterCursor none interesting ∨
      p ∈ s.laterTimeQueries .afterCursor interesting) ↔
      ∃ stage, p ∈ s.timeQueryChunks stage none interesting := by
    intro interesting
    simp only [laterTimeQueries, TimeRangeStage.following, List.mem_flatMap, List.mem_cons,
      List.not_mem_nil, or_false]
    constructor
    · rintro (h | ⟨stage, -, h⟩)
      · exact ⟨_, h⟩
      · exact ⟨stage, h⟩
    · rintro ⟨stage, h⟩
      cases stage with
      | afterCursor => exact .inl h
      | beforeCursor => exact .inr ⟨_, .inl rfl, h⟩
      | afterCursorOutsideLoop => exact .inr ⟨_, .inr (.inl rfl), h⟩
      | beforeCursorOutsideLoop => exact .inr ⟨_, .inr (.inr rfl), h⟩
  rw [timeQueries, afterTimeQueries, List.mem_append, List.mem_append, hstages, List.mem_append,
    List.mem_append, hstages]

theorem mem_remaining_start (hknown : c ∈ s.rootChunkKeys) :
    ⟨stage, c⟩ ∈ s.remaining (.start tracker) ↔ s.Prioritized tracker stage c := by
  show _ ∈ s.requiredChunks tracker ++ s.timeQueries ↔ _
  rw [List.mem_append, mem_requiredChunks, mem_timeQueries_iff]
  constructor
  · rintro (⟨c, h, heq⟩ | ⟨_, h⟩ | ⟨_, h⟩ | h)
    · obtain ⟨rfl, rfl⟩ := PrioritizedRootChunk.mk.inj heq
      exact .required h
    · obtain ⟨cursor, query, map, hcursor, hquery, hempty, hmap, e, he, hoverlap, hinterest, heq⟩ :=
        mem_timeQueryChunks.mp h
      obtain ⟨rfl, rfl⟩ := PrioritizedRootChunk.mk.inj heq
      exact .similar hcursor hquery hempty hmap he hoverlap hinterest
    · obtain rfl : stage = .everything := stage_of_mem_timeQueryChunks h
      exact .everything hknown
    · obtain ⟨c', hmem, heq⟩ := List.mem_map.mp h
      obtain ⟨rfl, rfl⟩ := PrioritizedRootChunk.mk.inj heq
      exact .everything hmem
  · intro h
    cases h with
    | required h => exact .inl ⟨c, h, rfl⟩
    | similar hcursor hquery hempty hmap he hoverlap hinterest =>
      exact .inr (.inl ⟨_, mem_timeQueryChunks.mpr
        ⟨_, _, _, hcursor, hquery, hempty, hmap, _, he, hoverlap, hinterest, rfl⟩⟩)
    | everything h => exact .inr (.inr (.inr (List.mem_map.mpr ⟨c, h, rfl⟩)))

end FetchSource

namespace ChunkFetcher

inductive Yields : ChunkFetcher → List PrioritizedRootChunk → Prop where
  | ends (h : f.takeChunk = (none, f')) : Yields f []
  | yields (h : f.takeChunk = (some chunk, f')) (hrest : Yields f' rest) : Yields f (chunk :: rest)

theorem yields_pending (f : ChunkFetcher) : f.Yields f.pending := by
  induction hlen : f.pending.length generalizing f with
  | zero =>
    have hpending := List.length_eq_zero_iff.mp hlen
    rw [hpending]
    rw [pending_eq_takeChunk] at hpending
    rcases htake : f.takeChunk with ⟨_ | chunk, f'⟩
    · exact .ends htake
    · simp [htake] at hpending
  | succ n ih =>
    have hpending := f.pending_eq_takeChunk
    rcases htake : f.takeChunk with ⟨_ | chunk, f'⟩
    · simp [hpending, htake] at hlen
    · simp only [htake] at hpending
      rw [hpending] at hlen ⊢
      exact .yields htake (ih f' (Nat.succ.inj hlen))

end ChunkFetcher

-- ---------------------------------------------------------------------------
-- A whole pass
-- ---------------------------------------------------------------------------

/-- The budgets are larger than all root chunks and all loaded chunks together. -/
structure Ample (env : Env) (source : FetchSource) (manifest : ManifestColumns)
    (budget : RemainingByteBudget) : Prop where
  memory : ∑ c ∈ source.known, source.memorySize manifest c +
    ∑ c ∈ source.physical, source.physicalSize env c < budget.remainingBytesInMemory
  total : budget.remainingBytesInMemory ≤ budget.totalBytesInMemory
  wire : (∑ c ∈ source.known, source.wireSize manifest c : Nat) < budget.remainingBytesOnWire
  wire_le : budget.remainingBytesOnWire ≤ i64Max

theorem foldl_tryFitInMemory (env : Env) (source : FetchSource) (n : Nat) {ids : List ChunkId}
    (hnodup : ids.Nodup) (kept : Finset ChunkId) (hnew : ∀ id ∈ ids, id ∉ kept)
    (budget : RemainingByteBudget)
    (h : n + ∑ c ∈ source.physical \ kept, source.physicalSize env c <
      budget.remainingBytesInMemory) :
    ∃ remaining, ids.foldl (fun budget id =>
        match source.store.physicalChunksPerChunkId[id]? with
        | some chunk => (budget.tryFitInMemory (env.sizeBytes chunk) true).2
        | none => budget) budget = { budget with remainingBytesInMemory := remaining } ∧
      remaining ≤ budget.remainingBytesInMemory ∧
      n + ∑ c ∈ source.physical \ (kept ∪ ids.toFinset), source.physicalSize env c < remaining := by
  induction ids generalizing kept budget with
  | nil => exact ⟨_, rfl, le_rfl, by simpa using h⟩
  | cons id ids ih =>
    obtain ⟨hid, hnodup⟩ := List.nodup_cons.mp hnodup
    obtain ⟨hidNew, hnew⟩ := List.forall_mem_cons.mp hnew
    have hunion : kept ∪ (id :: ids).toFinset = insert id kept ∪ ids.toFinset := by
      rw [List.toFinset_cons, Finset.union_insert, Finset.insert_union]
    have hnew : ∀ id' ∈ ids, id' ∉ insert id kept := by
      intro id' hmem hid'
      rcases Finset.mem_insert.mp hid' with rfl | hid'
      · exact hid hmem
      · exact hnew id' hmem hid'
    rw [List.foldl_cons, hunion]
    cases hchunk : source.store.physicalChunksPerChunkId[id]? with
    | none =>
      have hsame : source.physical \ insert id kept = source.physical \ kept := by
        rw [Finset.sdiff_insert, Finset.erase_eq_of_notMem]
        intro hmem
        obtain ⟨chunk, hsome⟩ := FetchSource.mem_physical.mp (Finset.mem_sdiff.mp hmem).1
        simp [hchunk] at hsome
      exact ih hnodup _ hnew budget (by rwa [hsame])
    | some chunk =>
      have hsum := sum_sdiff_insert (FetchSource.mem_physical.mpr ⟨chunk, hchunk⟩) hidNew
        (source.physicalSize env)
      have hsize : source.physicalSize env id = env.sizeBytes chunk := by
        simp [FetchSource.physicalSize, hchunk]
      have hfits : env.sizeBytes chunk < budget.remainingBytesInMemory := by omega
      simp only [RemainingByteBudget.tryFitInMemory_of_lt hfits]
      obtain ⟨remaining, heq, hle, hlt⟩ := ih hnodup _ hnew { budget with
        remainingBytesInMemory := budget.remainingBytesInMemory - env.sizeBytes chunk }
        (by simp only; omega)
      exact ⟨remaining, heq, hle.trans (Nat.sub_le _ _), hlt⟩

namespace ChunkFetcher

def loadedBy (manifest : ManifestColumns) (batches : List RequestBatch) : List ChunkId :=
  batches.flatMap fun batch => batch.rows.map (manifest.chunkIds.getD · 0)

theorem flatMap_rows_finish (batcher : ChunkRequestBatcher) :
    batcher.finish.flatMap (·.rows) = batcher.requestedRows := by
  rw [← batcher.requestedRows_finishBatch, ChunkRequestBatcher.requestedRows,
    batcher.rowIndices_finishBatch, List.append_nil]
  rfl

theorem Progress.loadedBy_finish {env : Env} {f : ChunkFetcher} {budget : RemainingByteBudget}
    {done : List PrioritizedRootChunk} (h : Progress env f budget done)
    (hmatch : RowsMatch f.requestBatcher.manifest.chunkIds f.source.rootChunks) :
    (loadedBy f.requestBatcher.manifest f.finish.2).Nodup ∧
      ∀ c, c ∈ loadedBy f.requestBatcher.manifest f.finish.2 ↔
        (∃ info, f.source.rootChunks[c]? = some info ∧ info.state = .unloaded) ∧
          ∃ p ∈ done, p.rootChunkId = c := by
  have hrows : loadedBy f.requestBatcher.manifest f.finish.2 =
      f.requestBatcher.requestedRows.map (f.requestBatcher.manifest.chunkIds.getD · 0) := by
    rw [loadedBy, ← List.map_flatMap, ← flatMap_rows_finish]
    rfl
  have hid : ∀ c info, f.source.rootChunks[c]? = some info →
      f.requestBatcher.manifest.chunkIds.getD info.rowId 0 = c := by
    intro c info hinfo
    rw [List.getD_eq_getElem?_getD, hmatch c info hinfo, Option.getD_some]
  have hvisited : ∀ c, c ∈ f.visitedRootChunks ↔ ∃ p ∈ done, p.rootChunkId = c := by
    intro c
    rw [h.visited, List.mem_toFinset, List.mem_map]
  rw [hrows]
  refine ⟨h.nodup.map_on ?_, fun c => ?_⟩
  · intro row hrow row' hrow' heq
    obtain ⟨c, -, info, hinfo, -, rfl⟩ := (h.rows row).mp hrow
    obtain ⟨c', -, info', hinfo', -, rfl⟩ := (h.rows row').mp hrow'
    rw [hid c info hinfo, hid c' info' hinfo'] at heq
    obtain rfl := heq
    rw [Option.some.inj (hinfo.symm.trans hinfo')]
  · rw [List.mem_map]
    constructor
    · rintro ⟨row, hrow, rfl⟩
      obtain ⟨c, hc, info, hinfo, hstate, rfl⟩ := (h.rows row).mp hrow
      rw [hid c info hinfo]
      exact ⟨⟨info, hinfo, hstate⟩, (hvisited c).mp hc⟩
    · rintro ⟨⟨info, hinfo, hstate⟩, hdone⟩
      exact ⟨info.rowId, (h.rows _).mpr ⟨c, (hvisited c).mpr hdone, info, hinfo, hstate, rfl⟩,
        hid c info hinfo⟩

theorem Progress.names_finish {env : Env} {f : ChunkFetcher} {budget : RemainingByteBudget}
    {done : List PrioritizedRootChunk} (h : Progress env f budget done) :
    ∀ batch ∈ f.finish.2, batch.rowIndices = batch.rows.toFinset ∧
      batch.rootChunkIds =
        (batch.rows.map (f.requestBatcher.manifest.chunkIds.getD · 0)).toFinset := by
  have hnames := h.names.finishBatch
  unfold ChunkRequestBatcher.NamesChunks at hnames
  rwa [ChunkRequestBatcher.manifest_finishBatch] at hnames

end ChunkFetcher

namespace ChunkPrioritizer

def rootChunksOf (parts : List ManifestPart) (states : ChunkId → LoadState) :
    TreeMap ChunkId RootChunkInfo :=
  (RrdManifestIndex.ofManifest parts).rootChunks.map fun chunk info =>
    { info with state := states chunk }

theorem rowsMatch_rootChunksOf (parts : List ManifestPart) (states : ChunkId → LoadState) :
    RowsMatch (ManifestColumns.concat parts).chunkIds (rootChunksOf parts states) :=
  (RowsMatch.ofManifest parts).map fun _ _ => rfl

theorem state_rootChunksOf (h : (rootChunksOf parts states)[c]? = some info) :
    info.state = states c := by
  rw [rootChunksOf, TreeMap.getElem?_map] at h
  obtain ⟨_, -, rfl⟩ := Option.map_eq_some_iff.mp h
  rfl

variable {env : Env} {p : ChunkPrioritizer} {store : ChunkStore} {manifest : ManifestColumns}
  {options : ChunkPrefetchOptions} {timeCursor : Option PrefetchTimeCursor}
  {rootChunks : TreeMap ChunkId RootChunkInfo} {rootChunkKeys : List ChunkId}
  {tracker : QueriedChunkIdTracker} {budget budget' : RemainingByteBudget} {start : ChunkFetcher}

theorem progress_prepareChunkFetcher
    (h : p.prepareChunkFetcher env store manifest options timeCursor rootChunks rootChunkKeys
      tracker budget = (start, budget'))
    (hample : Ample env start.source manifest budget) :
    ChunkFetcher.Progress env start.opened budget' [] := by
  obtain ⟨rfl, hbudget⟩ := Prod.mk.inj h
  obtain ⟨hmemory, htotal, hwire, hwireLe⟩ := hample
  obtain ⟨remaining, heq, hle, hlt⟩ := foldl_tryFitInMemory env _ _ tracker.usedPhysical_nodup
    ∅ (fun _ _ => Finset.notMem_empty _) _ (by rw [Finset.sdiff_empty]; exact hmemory)
  rw [Finset.empty_union] at hlt
  obtain rfl := hbudget.symm.trans heq
  refine ⟨⟨?_, hle.trans htotal, ?_, hwireLe⟩, rfl, rfl, List.nodup_nil, ?_, ?_, true, rfl, ?_⟩
  · show ∑ c ∈ _ \ (∅ : Finset ChunkId), _ + _ < _
    rw [Finset.sdiff_empty]
    exact hlt
  · show ((∑ c ∈ _ \ (∅ : Finset ChunkId), _ : Nat) : Int) < _
    rw [Finset.sdiff_empty]
    exact hwire
  · intro row
    refine ⟨fun hrow => absurd hrow List.not_mem_nil, ?_⟩
    rintro ⟨c, hc, -⟩
    exact absurd hc (Finset.notMem_empty c)
  · simp [ChunkRequestBatcher.NamesChunks, ChunkFetcher.opened]
  · simp

/-- Prefetching is ordered, ends, and with budgets that are large enough is complete and without
duplicates. -/
theorem fetches_prioritized {parts : List ManifestPart} {states : ChunkId → LoadState}
    (h : p.prepareChunkFetcher env store (.concat parts) options timeCursor
      (rootChunksOf parts states) rootChunkKeys tracker budget = (start, budget'))
    (hkeys : rootChunkKeys.Perm (rootChunksOf parts states).keys)
    (hloop : ∀ cursor r, timeCursor = some cursor → cursor.loopRange = some r →
      r.contains cursor.time) :
    (∃ yielded, start.Yields yielded ∧ yielded.Pairwise (fun a b => a.stage ≤ b.stage) ∧
      ∀ c ∈ rootChunkKeys, ∀ stage,
        ⟨stage, c⟩ ∈ yielded ↔ start.source.Prioritized tracker stage c) ∧
    (Ample env start.source (.concat parts) budget →
      ∀ toStates last, toStates.Pairwise (· ≤ ·) → toStates.getLast? = some last →
      ∀ p' batches, (start.fetches env budget' toStates).1.finish = (p', batches) →
        (ChunkFetcher.loadedBy (.concat parts) batches).Nodup ∧
        (∀ c, c ∈ ChunkFetcher.loadedBy (.concat parts) batches ↔ c ∈ rootChunkKeys ∧
          states c = .unloaded ∧ ∃ stage ≤ last, start.source.Prioritized tracker stage c) ∧
        (∀ batch ∈ batches, batch.rowIndices = batch.rows.toFinset ∧ batch.rootChunkIds =
          (batch.rows.map ((ManifestColumns.concat parts).chunkIds.getD · 0)).toFinset) ∧
        (p'.latestResult.bind (·.allRequiredAreLoaded) = some true ↔
          ∀ c ∈ rootChunkKeys, start.source.IsRequired tracker c → states c = .fullyLoaded)) := by
  have hknown : ∀ c, c ∈ rootChunkKeys ↔ ∃ info, (rootChunksOf parts states)[c]? = some info := by
    intro c
    rw [hkeys.mem_iff, TreeMap.mem_keys, ← TreeMap.isSome_getElem?_iff_mem,
      Option.isSome_iff_exists]
  have hstart := (Prod.mk.inj h).1
  have hpending : start.pending = start.source.remaining (.start tracker) := by
    rw [← hstart]
    rfl
  have hsorted : start.pending.Pairwise fun a b => a.stage ≤ b.stage := by
    rw [hpending]
    refine FetchSource.remaining_pairwise ?_ tracker
    rw [← hstart]
    exact hloop
  have hrootChunks : start.source.rootChunks = rootChunksOf parts states := by
    rw [← hstart]
  have hrootKeys : start.source.rootChunkKeys = rootChunkKeys := by
    rw [← hstart]
  have hmanifest : start.requestBatcher.manifest = .concat parts := by
    rw [← hstart]
  have hyielded : ∀ c ∈ rootChunkKeys, ∀ stage,
      ⟨stage, c⟩ ∈ start.pending ↔ start.source.Prioritized tracker stage c := by
    intro c hc stage
    rw [hpending]
    exact FetchSource.mem_remaining_start (hrootKeys ▸ hc)
  refine ⟨⟨start.pending, start.yields_pending, hsorted, hyielded⟩, ?_⟩
  intro hample toStates last hstates hlast p' batches hfinish
  have hopened : start.opened.source = start.source ∧
      start.opened.requestBatcher = start.requestBatcher := by
    unfold ChunkFetcher.opened
    split <;> exact ⟨rfl, rfl⟩
  have hmatch : RowsMatch start.opened.requestBatcher.manifest.chunkIds
      start.opened.source.rootChunks := by
    rw [hopened.1, hopened.2, hmanifest, hrootChunks]
    exact rowsMatch_rootChunksOf parts states
  obtain ⟨f, left, hfetches, hprogress, hsource, hmanifest'⟩ :=
    (progress_prepareChunkFetcher h hample).fetches hsorted hstates hlast rfl hmatch
      (fun _ _ => rfl)
  rw [hfetches] at hfinish
  have hcols : f.requestBatcher.manifest = .concat parts := by
    rw [hmanifest', hopened.2, hmanifest]
  have hbatches : f.finish.2 = batches := congrArg Prod.snd hfinish
  rw [← hopened.1, ← hsource] at hrootChunks
  obtain ⟨hnodup, hmem⟩ := hprogress.loadedBy_finish (by
    rw [hcols, hrootChunks]
    exact rowsMatch_rootChunksOf parts states)
  have hnames := hprogress.names_finish
  rw [hcols, hbatches] at hnodup hmem hnames
  refine ⟨hnodup, fun c => ?_, hnames, ?_⟩
  · rw [hmem, hrootChunks]
    constructor
    · rintro ⟨⟨info, hinfo, hstate⟩, ⟨stage, _⟩, hp, rfl⟩
      obtain ⟨hp, hle⟩ := ChunkFetcher.mem_upTo.mp hp
      have hc := (hknown _).mpr ⟨info, hinfo⟩
      exact ⟨hc, state_rootChunksOf hinfo ▸ hstate, stage, hle, (hyielded _ hc stage).mp hp⟩
    · rintro ⟨hc, hstate, stage, hle, hpriority⟩
      obtain ⟨info, hinfo⟩ := (hknown c).mp hc
      exact ⟨⟨info, hinfo, (state_rootChunksOf hinfo).trans hstate⟩, ⟨stage, c⟩,
        ChunkFetcher.mem_upTo.mpr ⟨(hyielded c hc stage).mpr hpriority, hle⟩, rfl⟩
  · obtain ⟨b, hb, hiff⟩ := hprogress.loaded
    have hresult : p'.latestResult.bind (·.allRequiredAreLoaded) = some b := by
      have hprioritizer : f.finish.1 = p' := congrArg Prod.fst hfinish
      rw [← hprioritizer]
      simp [ChunkFetcher.finish, hb]
    rw [hresult, Option.some.injEq, hiff, hrootChunks]
    constructor
    · intro hall c hc hrequired
      obtain ⟨info, hinfo⟩ := (hknown c).mp hc
      rw [← state_rootChunksOf hinfo]
      exact hall ⟨.required, c⟩ (ChunkFetcher.mem_upTo.mpr
        ⟨(hyielded c hc _).mpr (.required hrequired), FetchStage.required_le last⟩) rfl info hinfo
    · rintro hall ⟨stage, c⟩ hp rfl info hinfo
      have hc := (hknown c).mpr ⟨info, hinfo⟩
      cases (hyielded c hc _).mp (ChunkFetcher.mem_upTo.mp hp).1 with
      | required hrequired => exact (state_rootChunksOf hinfo).trans (hall c hc hrequired)

/-- A static chunk, which is loaded, and another one. -/
def twoRoots : ManifestPart where
  staticMap := [(["e"], "c", 1)]
  temporalMap := [(["e"], ⟨"t", .sequence⟩, "c", 2, ⟨⟨.newTemporal 0, .newTemporal 0⟩, 1⟩)]
  colChunkIds := [1, 2]
  colChunkEntityPath := [["e"], ["e"]]
  colChunkByteSize := [10, 10]
  colChunkByteSizeUncompressed := [20, 20]
  length_entityPath := rfl
  length_byteSize := rfl
  length_uncompressed := rfl

def firstLoaded (c : ChunkId) : LoadState := if c = 1 then .fullyLoaded else .unloaded

/-- A cursor in a loop, which covers a distance of one in one nanosecond. -/
def loopingCursor : PrefetchTimeCursor where
  timeline := ⟨"t", .sequence⟩
  time := .newTemporal 5
  loopRange := some ⟨.newTemporal 0, .newTemporal 9⟩
  realTimeOffset t := some t.asI64.toNat
  realTimeOffset_mono a b _ h := by
    show compare a.asI64.toNat b.asI64.toNat ≠ .gt
    rw [ne_eq, Nat.compare_eq_gt, not_lt]
    exact Int.toNat_le_toNat (TimeInt.le_iff.mp h)

def twoRootsStart : ChunkFetcher × RemainingByteBudget :=
  prepareChunkFetcher .plain {} (.new .DEFAULT) (.concat [twoRoots]) ⟨15⟩ (some loopingCursor)
    (rootChunksOf [twoRoots] firstLoaded) [1, 2] {} ⟨100, 100, 100⟩

def twoRootsBatches : List RequestBatch :=
  (twoRootsStart.1.fetches .plain twoRootsStart.2 [.required, .everything]).1.finish.2

theorem fetches_prioritized_twoRoots :
    (ChunkFetcher.loadedBy (.concat [twoRoots]) twoRootsBatches).Nodup ∧
      2 ∈ ChunkFetcher.loadedBy (.concat [twoRoots]) twoRootsBatches := by
  have hstart : prepareChunkFetcher .plain {} (.new .DEFAULT) (.concat [twoRoots]) ⟨15⟩
      (some loopingCursor) (rootChunksOf [twoRoots] firstLoaded) [1, 2] {} ⟨100, 100, 100⟩ =
      (twoRootsStart.1, twoRootsStart.2) := rfl
  have hkeys : [1, 2].Perm (rootChunksOf [twoRoots] firstLoaded).keys := by decide +kernel
  have hloop : ∀ cursor r, some loopingCursor = some cursor → cursor.loopRange = some r →
      r.contains cursor.time := by
    rintro cursor r hcursor hr
    obtain rfl := Option.some.inj hcursor
    obtain rfl := Option.some.inj hr
    decide
  have hample : Ample .plain twoRootsStart.1.source (.concat [twoRoots]) ⟨100, 100, 100⟩ :=
    ⟨by decide +kernel, by decide, by decide +kernel, by decide⟩
  obtain ⟨hnodup, hmem, -⟩ := (fetches_prioritized hstart hkeys hloop).2 hample
    [.required, .everything] .everything (by decide) rfl _ _ rfl
  exact ⟨hnodup, (hmem 2).mpr ⟨by decide, rfl, .everything, le_rfl, .everything (by decide)⟩⟩

end ChunkPrioritizer

end DimosViewer
