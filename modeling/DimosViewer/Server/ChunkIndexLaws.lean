import DimosViewer.Server.DatasetLayers

/-!
# What the index operations do

Storing appends the rows of the chunks that are stored, removing filters by segment and
layer, and each call does so to every index that it concerns and to no other.
-/

namespace DimosViewer.Server

theorem LanceDataset.append_ok (t : LanceDataset) (batches : List (List IndexRow)) :
    t.append (batches.map .ok) = .ok ⟨t.rows ++ batches.flatten⟩ := by
  have h : (batches.map (Except.ok (ε := StoreError))).mapM id = .ok batches := by
    induction batches with
    | nil => rfl
    | cons batch batches ih =>
      rw [List.map_cons, List.mapM_cons, ih]
      rfl
  rw [append, h]
  rfl

-- ---------------------------------------------------------------------------
-- Stores
-- ---------------------------------------------------------------------------

namespace ResolvedStore

theorem collectPhysicalChunks_of_loads {store : ResolvedStore} (h : store.loads = true) :
    store.collectPhysicalChunks = .ok store.chunks := by
  unfold loads at h
  unfold chunks
  match hc : store.collectPhysicalChunks with
  | .ok found => rfl
  | .error err => rw [hc] at h; cases h

theorem collectPhysicalChunks_of_not_loads {store : ResolvedStore} (h : store.loads = false) :
    ∃ err, store.collectPhysicalChunks = .error err := by
  unfold loads at h
  match hc : store.collectPhysicalChunks with
  | .ok found => rw [hc] at h; cases h
  | .error err => exact ⟨err, rfl⟩

theorem chunks_eq {store : ResolvedStore} (h : store.collectPhysicalChunks = .ok found) :
    store.chunks = found := by
  rw [chunks, h]
  rfl

end ResolvedStore

def LayerStore.layerChunks (store : LayerStore) : List LayerChunk :=
  store.2.2.chunks.map fun chunk => (store.1, store.2.1, chunk)

-- ---------------------------------------------------------------------------
-- One index
-- ---------------------------------------------------------------------------

namespace Index

variable {env : Backend} {config : IndexConfig} {chunk : LayerChunk} {chunks : List LayerChunk}

/-- The chunk has the timeline and the component, and an instance of it. -/
def yields (env : Backend) (config : IndexConfig) (chunk : LayerChunk) : Bool :=
  match prepare env config chunk with
  | .ok (some _) => true
  | _ => false

/-- The chunk has the timeline and the component, but no instance of it. -/
def failsOn (env : Backend) (config : IndexConfig) (chunk : LayerChunk) : Bool :=
  match prepare env config chunk with
  | .error _ => true
  | .ok _ => false

def batchRows (env : Backend) (config : IndexConfig) (chunk : LayerChunk) : List IndexRow :=
  match prepare env config chunk with
  | .ok (some rows) => rows
  | _ => []

theorem rowsOf_eq : rowsOf env config chunk =
    if chunk.2.2.entityPath = config.column.entityPath then batchRows env config chunk else [] :=
  rfl

theorem prepareRecordBatch_none {chunk : Chunk} (h : chunk.components.get component = none) :
    prepareRecordBatch env indexType segmentId layer timeline component chunk = .ok none := by
  unfold prepareRecordBatch
  split
  case h_1 _ _ _ hc => cases h.symm.trans hc
  case h_2 => rfl

theorem batchRows_nil (h : chunk.2.2.components.get config.column.component = none) :
    batchRows env config chunk = [] := by
  have hp : prepare env config chunk = .ok none := prepareRecordBatch_none h
  rw [batchRows, hp]

theorem tag_of_prepareRecordBatch {chunk : Chunk}
    (h : prepareRecordBatch env indexType segmentId layer timeline component chunk =
      .ok (some rows)) (hr : r ∈ rows) :
    (r.rerunSegmentId, r.rerunSegmentLayer) = (segmentId, layer) := by
  unfold prepareRecordBatch at h
  split at h
  case h_2 => cases h
  case h_1 timeline column _ _ =>
    by_cases hn : (if indexType ≠ .vectorIvfPq ∨ !env.isNumeric column.dataType then
        (column.listArray.map fun x => (x.map (·.length)).getD 0).sum
      else column.numValid) = 0
    · rw [if_pos hn] at h
      cases h
    · rw [if_neg hn] at h
      obtain rfl := Option.some.inj (Except.ok.inj h)
      obtain ⟨⟨cell, time⟩, -, hr⟩ := List.mem_flatMap.mp hr
      cases cell with
      | none => cases hr
      | some cell =>
        dsimp only at hr
        split at hr
        · obtain ⟨⟨v, i⟩, -, rfl⟩ := List.mem_map.mp hr
          rfl
        · cases List.mem_singleton.mp hr
          rfl

theorem tag_of_mem_rowsOf (h : r ∈ rowsOf env config chunk) :
    (r.rerunSegmentId, r.rerunSegmentLayer) = (chunk.1, chunk.2.1) := by
  rw [rowsOf_eq] at h
  split at h
  case isFalse => cases h
  case isTrue =>
    unfold batchRows at h
    split at h
    case h_1 hp => exact tag_of_prepareRecordBatch hp h
    case h_2 => cases h

def extend (env : Backend) (chunks : List LayerChunk) (ix : Index) : Index :=
  { ix with lanceDataset := ⟨ix.lanceDataset.rows ++ chunks.flatMap (batchRows env ix.config)⟩ }

@[simp] theorem extend_config (chunks : List LayerChunk) (ix : Index) :
    (extend env chunks ix).config = ix.config := rfl

theorem filterMap_transpose (h : ∀ chunk ∈ chunks, failsOn env config chunk = false) :
    chunks.filterMap (fun chunk => transpose (prepare env config chunk)) =
      ((chunks.filter (yields env config)).map (batchRows env config)).map .ok := by
  induction chunks with
  | nil => rfl
  | cons chunk chunks ih =>
    have hf := h chunk List.mem_cons_self
    specialize ih fun c hc => h c (List.mem_cons_of_mem _ hc)
    match hp : prepare env config chunk with
    | .error e => simp [failsOn, hp] at hf
    | .ok none => simpa [yields, transpose, hp] using ih
    | .ok (some rows) => simpa [yields, batchRows, transpose, hp] using ih

theorem flatMap_filter_yields (chunks : List LayerChunk) :
    (chunks.filter (yields env config)).flatMap (batchRows env config) =
      chunks.flatMap (batchRows env config) := by
  induction chunks with
  | nil => rfl
  | cons chunk chunks ih =>
    rw [List.flatMap_cons, ← ih, List.filter_cons]
    split
    case isTrue => rw [List.flatMap_cons]
    case isFalse h =>
      have hr : batchRows env config chunk = [] := by
        unfold yields at h
        unfold batchRows
        split at h
        · exact absurd rfl h
        · rfl
      rw [hr, List.nil_append]

theorem storeChunks_ok {ix : Index} (h : ∀ chunk ∈ chunks, failsOn env ix.config chunk = false)
    (hy : ∃ chunk ∈ chunks, yields env ix.config chunk = true) :
    ix.storeChunks env chunks = .ok (extend env chunks ix) := by
  obtain ⟨chunk, hc, hy⟩ := hy
  unfold storeChunks
  rw [filterMap_transpose h]
  match hb : chunks.filter (yields env ix.config) with
  | [] => exact absurd hy (List.filter_eq_nil_iff.mp hb chunk hc)
  | first :: rest =>
    have ha := ix.lanceDataset.append_ok ((first :: rest).map (batchRows env ix.config))
    rw [← List.flatMap_def, ← hb, flatMap_filter_yields, hb] at ha
    dsimp only [List.map_cons] at ha ⊢
    rw [ha]
    rfl

theorem storeChunks_one {ix : Index} (h : yields env ix.config chunk = true) :
    ix.storeChunks env [chunk] = .ok (extend env [chunk] ix) := by
  refine storeChunks_ok (fun c hc => ?_) ⟨chunk, List.mem_singleton_self _, h⟩
  cases List.mem_singleton.mp hc
  unfold yields at h
  unfold failsOn
  split at h
  case h_1 hp => rw [hp]
  case h_2 => cases h

theorem storeChunks_one_error {ix : Index} (h : yields env ix.config chunk = false) :
    ∃ e, ix.storeChunks env [chunk] = .error e := by
  unfold storeChunks
  match hp : prepare env ix.config chunk with
  | .error e => exact ⟨_, by simp [transpose, hp]; rfl⟩
  | .ok none => exact ⟨_, by simp [transpose, hp]; rfl⟩
  | .ok (some rows) => simp [yields, hp] at h

end Index

-- ---------------------------------------------------------------------------
-- All indexes of a dataset
-- ---------------------------------------------------------------------------

namespace DatasetChunkIndexes

variable {indexes : DatasetChunkIndexes} {column : IndexColumn}

theorem get_set (indexes : DatasetChunkIndexes) (column : IndexColumn) (ix : Index)
    (other : IndexColumn) :
    (indexes.set column ix).get other = if other = column then some ix else indexes.get other := by
  unfold get set
  by_cases he : other.entityPath = column.entityPath
  · rw [he, AList.lookup_insert, Option.bind_some]
    by_cases hc : other.component = column.component
    · rw [hc, AList.lookup_insert, if_pos (by cases other; cases column; simp_all)]
    · rw [AList.lookup_insert_ne hc, if_neg fun h => hc (congrArg _ h)]
      cases indexes.lookup column.entityPath with
      | none => rfl
      | some => rfl
  · rw [AList.lookup_insert_ne he, if_neg fun h => he (congrArg _ h)]

theorem get_deleteIndexes (indexes : DatasetChunkIndexes) (column other : IndexColumn) :
    (indexes.deleteIndexes column).2.get other =
      if other = column then none else indexes.get other := by
  have hne : (indexes.get column = none → (if other = column then none else indexes.get other) =
      indexes.get other) := by
    intro h
    split
    case isTrue he => rw [he, h]
    case isFalse => rfl
  unfold deleteIndexes
  split
  case h_1 h => exact (hne (by simp [get, h])).symm
  case h_2 pathIndexes h =>
    split
    case h_1 hc => exact (hne (by simp [get, h, hc])).symm
    case h_2 ix hc =>
      unfold get
      by_cases he : other.entityPath = column.entityPath
      · rw [he, AList.lookup_insert, Option.bind_some]
        by_cases hc : other.component = column.component
        · rw [hc, AList.lookup_erase, if_pos (by cases other; cases column; simp_all)]
        · rw [AList.lookup_erase_ne hc, if_neg fun h => hc (congrArg _ h), h, Option.bind_some]
      · rw [AList.lookup_insert_ne he, if_neg fun h => he (congrArg _ h)]

theorem mem_columns (h : indexes.get column = some ix) : column ∈ indexes.columns := by
  obtain ⟨pathIndexes, hp, hc⟩ := Option.bind_eq_some_iff.mp h
  exact List.mem_flatMap.mpr ⟨⟨column.entityPath, pathIndexes⟩, AList.mem_lookup_iff.mp hp,
    List.mem_map.mpr ⟨⟨column.component, ix⟩, AList.mem_lookup_iff.mp hc, rfl⟩⟩

theorem get_updateAll (update : κ → Index → Except StoreError Index) (g : κ → Index → Index)
    (hg : ∀ k ix, (g k ix).config = ix.config) (work : List (IndexColumn × κ))
    (indexes : DatasetChunkIndexes)
    (hu : ∀ w ∈ work, ∀ ix ix', indexes.get w.1 = some ix → ix'.config = ix.config →
      update w.2 ix' = .ok (g w.2 ix')) :
    ∃ indexes', updateAll update work indexes = (.ok (), indexes') ∧
      ∀ column, indexes'.get column = (indexes.get column).map fun ix =>
        (work.filter (·.1 = column)).foldl (fun ix w => g w.2 ix) ix := by
  induction work generalizing indexes with
  | nil => exact ⟨indexes, rfl, fun column => by cases indexes.get column <;> rfl⟩
  | cons w rest ih =>
    obtain ⟨target, item⟩ := w
    unfold updateAll
    match ht : indexes.get target with
    | none =>
      obtain ⟨indexes', ho, hi⟩ := ih indexes fun w hw => hu w (List.mem_cons_of_mem _ hw)
      refine ⟨indexes', ho, fun column => ?_⟩
      rw [hi, List.filter_cons]
      split
      case isTrue he =>
        have he : target = column := by simpa using he
        rw [← he, ht]
        rfl
      case isFalse => rfl
    | some ix =>
      have hs := hu _ List.mem_cons_self ix ix ht rfl
      dsimp only at hs ⊢
      rw [hs]
      obtain ⟨indexes', ho, hi⟩ := ih (indexes.set target (g item ix)) fun w hw jx jx' hj hj' => by
        rw [get_set] at hj
        split at hj
        case isTrue he =>
          obtain rfl := Option.some.inj hj
          exact hu w (List.mem_cons_of_mem _ hw) ix jx' (he ▸ ht) (hj'.trans (hg _ _))
        case isFalse => exact hu w (List.mem_cons_of_mem _ hw) jx jx' hj hj'
      refine ⟨indexes', ho, fun column => ?_⟩
      rw [hi, get_set, List.filter_cons]
      by_cases he : target = column
      · rw [if_pos he.symm, ← he, ht]
        simp
      · rw [if_neg (Ne.symm he)]
        simp [he]

theorem foldl_extend (env : Backend) (work : List (IndexColumn × LayerChunk)) (ix : Index) :
    work.foldl (fun ix w => Index.extend env [w.2] ix) ix =
      Index.extend env (work.map (·.2)) ix := by
  induction work generalizing ix with
  | nil => simp [Index.extend]
  | cons w rest ih =>
    rw [List.foldl_cons, ih]
    simp [Index.extend]

/-- The chunk can be stored in the index it is meant for. -/
def stores (env : Backend) (indexes : DatasetChunkIndexes) (w : IndexColumn × LayerChunk) :
    Bool :=
  (indexes.get w.1).any fun ix => Index.yields env ix.config w.2

theorem storeAll_ok {env : Backend} {work : List (IndexColumn × LayerChunk)}
    (h : ∀ w ∈ work, indexes.stores env w = true) :
    ∃ indexes', indexes.updateAll (fun chunk ix => ix.storeChunks env [chunk]) work =
        (.ok (), indexes') ∧
      ∀ column, indexes'.get column = (indexes.get column).map
        (Index.extend env ((work.filter (·.1 = column)).map (·.2))) := by
  obtain ⟨indexes', ho, hi⟩ := get_updateAll (fun chunk ix => ix.storeChunks env [chunk])
    (fun chunk ix => Index.extend env [chunk] ix) (fun _ _ => rfl) work indexes
    fun w hw ix ix' hget hc => by
      have hs := h w hw
      rw [stores, hget, Option.any_some] at hs
      exact Index.storeChunks_one (hc ▸ hs)
  refine ⟨indexes', ho, fun column => ?_⟩
  rw [hi]
  exact congrArg (Option.map · _) (funext (foldl_extend env _))

theorem storeAll_error {env : Backend} (rest : List (IndexColumn × LayerChunk))
    (h : indexes.stores env w = false) (hw : (indexes.get w.1).isSome) :
    ∃ e, indexes.updateAll (fun chunk ix => ix.storeChunks env [chunk]) (w :: rest) =
      (.error e, indexes) := by
  obtain ⟨ix, hget⟩ := Option.isSome_iff_exists.mp hw
  rw [stores, hget, Option.any_some] at h
  obtain ⟨e, he⟩ := Index.storeChunks_one_error h
  refine ⟨e, ?_⟩
  unfold updateAll
  simp only [hget, he]

theorem worklist_erase (pathIndexes : AList fun _ : ComponentIdentifier => Index)
    (column : IndexColumn) (chunk : LayerChunk) :
    ((pathIndexes.erase column.component).entries.filterMap fun ⟨name, _⟩ =>
      if (chunk.2.2.components.get name).isSome then
        some ((⟨column.entityPath, name⟩ : IndexColumn), chunk)
      else none).filter (·.1 = column) = [] := by
  rw [List.filter_eq_nil_iff]
  intro w hw hwc
  obtain ⟨⟨name, jx⟩, hmem, hs⟩ := List.mem_filterMap.mp hw
  dsimp only at hs
  split at hs
  case isFalse => cases hs
  case isTrue =>
    obtain rfl := Option.some.inj hs
    have hname : name = column.component := congrArg (·.component) (of_decide_eq_true hwc)
    have hin : name ∈ pathIndexes.erase column.component := List.mem_keys_of_mem hmem
    exact (AList.mem_erase.mp hin).1 hname

theorem worklist_column (hget : indexes.get column = some ix) (chunk : LayerChunk) :
    ((indexes.worklist [chunk]).filter (·.1 = column)).map (·.2) =
      if chunk.2.2.entityPath = column.entityPath ∧
        (chunk.2.2.components.get column.component).isSome then [chunk] else [] := by
  obtain ⟨pathIndexes, hp, hc⟩ := Option.bind_eq_some_iff.mp hget
  rw [worklist, List.flatMap_singleton]
  by_cases he : chunk.2.2.entityPath = column.entityPath
  · rw [he, hp]
    have hperm := pathIndexes.entries_perm_erase column.component
    rw [hc] at hperm
    have h := ((hperm.filterMap fun ⟨name, _⟩ =>
        if (chunk.2.2.components.get name).isSome then
          some ((⟨column.entityPath, name⟩ : IndexColumn), chunk)
        else none).filter (·.1 = column)).map (·.2)
    rw [List.filterMap_append, List.filter_append, worklist_erase] at h
    by_cases hs : (chunk.2.2.components.get column.component).isSome
    · rw [if_pos ⟨rfl, hs⟩]
      simpa [hs] using h
    · rw [if_neg fun h => hs h.2]
      simpa [hs] using h
  · rw [if_neg fun h => he h.1, List.map_eq_nil_iff, List.filter_eq_nil_iff]
    intro w hw hwc
    split at hw
    case h_1 => cases hw
    case h_2 =>
      obtain ⟨⟨name, jx⟩, -, hs⟩ := List.mem_filterMap.mp hw
      dsimp only at hs
      split at hs
      case isFalse => cases hs
      case isTrue =>
        obtain rfl := Option.some.inj hs
        exact he (congrArg (·.entityPath) (of_decide_eq_true hwc))

theorem worklist_flatMap (chunks : List LayerChunk) :
    indexes.worklist chunks = chunks.flatMap fun chunk => indexes.worklist [chunk] := by
  simp only [worklist, List.flatMap_singleton]

theorem flatMap_worklist (hget : indexes.get column = some ix) (hc : ix.config.column = column)
    (chunks : List LayerChunk) :
    (((indexes.worklist chunks).filter (·.1 = column)).map (·.2)).flatMap
        (Index.batchRows env ix.config) = chunks.flatMap (Index.rowsOf env ix.config) := by
  induction chunks with
  | nil => rfl
  | cons chunk chunks ih =>
    rw [worklist_flatMap, List.flatMap_cons, ← worklist_flatMap, List.filter_append,
      List.map_append, List.flatMap_append, ih, worklist_column hget, List.flatMap_cons,
      Index.rowsOf_eq, hc]
    by_cases he : chunk.2.2.entityPath = column.entityPath
    · rw [if_pos he]
      match hs : chunk.2.2.components.get column.component with
      | some _ => simp [he]
      | none => simp [Index.batchRows_nil (hc.symm ▸ hs)]
    · simp [he]

theorem isSome_of_mem_worklist (hw : w ∈ indexes.worklist chunks) : (indexes.get w.1).isSome := by
  obtain ⟨chunk, -, hw⟩ := List.mem_flatMap.mp hw
  split at hw
  case h_1 => cases hw
  case h_2 pathIndexes hp =>
    obtain ⟨⟨name, jx⟩, hmem, hs⟩ := List.mem_filterMap.mp hw
    dsimp only at hs
    split at hs
    case isFalse => cases hs
    case isTrue =>
      obtain rfl := Option.some.inj hs
      rw [get, hp, Option.bind_some, AList.lookup_isSome]
      exact List.mem_keys_of_mem hmem

-- ---------------------------------------------------------------------------
-- The calls
-- ---------------------------------------------------------------------------

theorem onLayerAdded_eq (env : Backend) (indexes : DatasetChunkIndexes)
    (h : indexes.entries.isEmpty = true ∨ resolved.loads = true) :
    indexes.onLayerAdded env segmentId resolved layerName overwritten =
      indexes.updateAll (fun chunk ix => ix.storeChunks env [chunk])
        (indexes.worklist (resolved.chunks.map fun chunk => (segmentId, layerName, chunk))) := by
  unfold onLayerAdded
  split
  case isFalse hne => rw [ResolvedStore.collectPhysicalChunks_of_loads (h.resolve_left hne)]
  case isTrue h =>
    have he : ∀ e, indexes.lookup e = none := by
      intro e
      rw [AList.lookup_eq_none, AList.mem_keys, AList.keys, List.isEmpty_iff.mp h]
      exact List.not_mem_nil
    have hw : indexes.worklist
        (resolved.chunks.map fun chunk => (segmentId, layerName, chunk)) = [] :=
      List.flatMap_eq_nil_iff.mpr fun chunk _ => by rw [he]
    rw [hw]
    rfl

def kept (removedLayers : List (SegmentId × String)) (ix : Index) : Index :=
  { ix with lanceDataset := ix.lanceDataset.delete removedLayers }

theorem kept_kept (removedLayers : List (SegmentId × String)) (ix : Index) :
    kept removedLayers (kept removedLayers ix) = kept removedLayers ix := by
  simp [kept, LanceDataset.delete, List.filter_filter]

theorem foldl_kept (removedLayers : List (SegmentId × String)) (ix : Index)
    {work : List (IndexColumn × Unit)} (h : work ≠ []) :
    work.foldl (fun ix _ => kept removedLayers ix) ix = kept removedLayers ix := by
  induction work generalizing ix with
  | nil => exact absurd rfl h
  | cons w rest ih =>
    rw [List.foldl_cons]
    by_cases hr : rest = []
    · rw [hr]
      rfl
    · rw [ih _ hr, kept_kept]

theorem onLayersRemoved_ok (env : Backend) (indexes : DatasetChunkIndexes)
    (h : removedLayers ≠ []) :
    ∃ indexes', indexes.onLayersRemoved env removedLayers = (.ok (), indexes') ∧
      ∀ column, indexes'.get column = (indexes.get column).map (kept removedLayers) := by
  obtain ⟨indexes', ho, hi⟩ := get_updateAll (fun () ix => ix.removeLayers env removedLayers)
    (fun _ => kept removedLayers) (fun _ _ => rfl) (indexes.columns.map (·, ())) indexes
    fun w hw ix ix' hget hc => by
      rw [Index.removeLayers, if_neg (by simpa using h)]
      rfl
  refine ⟨indexes', ho, fun column => ?_⟩
  rw [hi]
  match hget : indexes.get column with
  | none => rfl
  | some ix =>
    have hm : (column, ()) ∈ (indexes.columns.map (·, ())).filter (·.1 = column) :=
      List.mem_filter.mpr ⟨List.mem_map.mpr ⟨column, mem_columns hget, rfl⟩, by simp⟩
    exact congrArg some (foldl_kept _ _ (List.ne_nil_of_mem hm))

theorem exists_of_findDatatypes {stores : List LayerStore}
    (h : findDatatypes entityPath component timelineName stores = some types) :
    ∃ store ∈ stores, ∃ chunk ∈ LayerStore.layerChunks store,
      chunk.2.2.entityPath = entityPath ∧ (chunk.2.2.components.get component).isSome ∧
        (chunk.2.2.timeline? timelineName).isSome := by
  induction stores with
  | nil => cases h
  | cons store stores ih =>
    unfold findDatatypes at h
    split at h
    case h_1 => cases h
    case h_2 chunks hchunks =>
      dsimp only at h
      split at h
      case h_2 =>
        obtain ⟨store, hm, hs⟩ := ih h
        exact ⟨store, List.mem_cons_of_mem _ hm, hs⟩
      case h_1 types hf =>
        obtain ⟨chunk, hm, hc⟩ := List.exists_of_findSome?_eq_some hf
        split at hc
        case isFalse => cases hc
        case isTrue he =>
          split at hc
          case h_2 => cases hc
          case h_1 column timeline hcol htl =>
            refine ⟨_, List.mem_cons_self, (_, _, chunk), List.mem_map.mpr ⟨chunk, ?_, rfl⟩, he,
              by rw [hcol]; rfl, by rw [htl]; rfl⟩
            rwa [ResolvedStore.chunks_eq hchunks]

theorem createIndex_ok {env : Backend} {stores : List LayerStore}
    (h : createIndex env stores config = .ok ix) :
    ix = ⟨config, {}⟩ ∧ (env.createLanceDataset config).toBool ∧
      (createLanceIndex env config.properties).toBool ∧
      (findDatatypes config.column.entityPath config.column.component config.timeIndex
        stores).isSome := by
  unfold createIndex at h
  split at h
  case h_1 => cases h
  case h_2 types hf =>
    cases hd : env.createLanceDataset config with
    | error e => rw [hd] at h; cases h
    | ok =>
      cases hx : createLanceIndex env config.properties with
      | error e => rw [hd, hx] at h; cases h
      | ok =>
        rw [hd, hx] at h
        cases h
        exact ⟨rfl, rfl, rfl, by rw [hf]; rfl⟩

/-- A chunk with the timeline and the component gives a batch or an error. -/
theorem yields_of_not_failsOn {env : Backend} {chunk : LayerChunk}
    (hc : (chunk.2.2.components.get config.column.component).isSome)
    (ht : (chunk.2.2.timeline? config.timeIndex).isSome)
    (hf : Index.failsOn env config chunk = false) : Index.yields env config chunk = true := by
  obtain ⟨column, hcol⟩ := Option.isSome_iff_exists.mp hc
  obtain ⟨timeline, htl⟩ := Option.isSome_iff_exists.mp ht
  obtain ⟨id, layerName, chunk⟩ := chunk
  unfold Index.failsOn at hf
  unfold Index.yields
  cases hp : Index.prepare env config (id, layerName, chunk) with
  | error e => rw [hp] at hf; cases hf
  | ok batch =>
    cases batch with
    | some rows => rfl
    | none =>
      unfold Index.prepare prepareRecordBatch at hp
      dsimp only at hcol htl hp
      rw [hcol, htl] at hp
      dsimp only at hp
      split_ifs at hp <;> cases hp

theorem flatMap_backfill (env : Backend) (config : IndexConfig) (chunks : List LayerChunk) :
    (chunks.filter fun chunk => chunk.2.2.entityPath = config.column.entityPath &&
        (chunk.2.2.components.get config.column.component).isSome).flatMap
          (Index.batchRows env config) = chunks.flatMap (Index.rowsOf env config) := by
  induction chunks with
  | nil => rfl
  | cons chunk chunks ih =>
    rw [List.flatMap_cons, ← ih, List.filter_cons, Index.rowsOf_eq]
    by_cases he : chunk.2.2.entityPath = config.column.entityPath
    · cases hs : chunk.2.2.components.get config.column.component with
      | some _ => simp [he]
      | none => simp [Index.batchRows_nil hs]
    · simp [he]

theorem backfill_ok (column : IndexColumn) {stores : List LayerStore}
    (h : ∀ store ∈ stores, store.2.2.loads = true) :
    backfill column stores = .ok ((stores.flatMap LayerStore.layerChunks).filter
      fun chunk => chunk.2.2.entityPath = column.entityPath &&
        (chunk.2.2.components.get column.component).isSome) := by
  unfold backfill
  suffices hs : ∀ found : List LayerChunk, stores.foldlM (m := Except StoreError)
      (fun backfill store => do
        let chunks ← store.2.2.collectPhysicalChunks
        return backfill ++ (chunks.filter fun chunk => chunk.entityPath = column.entityPath &&
          (chunk.components.get column.component).isSome).map (store.1, store.2.1, ·)) found =
      .ok (found ++ (stores.flatMap LayerStore.layerChunks).filter
        fun chunk => chunk.2.2.entityPath = column.entityPath &&
          (chunk.2.2.components.get column.component).isSome) from hs []
  induction stores with
  | nil => exact fun found => congrArg Except.ok (List.append_nil found).symm
  | cons store stores ih =>
    intro found
    specialize ih fun store hm => h store (List.mem_cons_of_mem _ hm)
    have hloads := ResolvedStore.collectPhysicalChunks_of_loads (h store List.mem_cons_self)
    rw [List.foldlM_cons]
    simp only [hloads, bind, Except.bind, pure, Except.pure]
    refine (ih _).trans ?_
    rw [List.flatMap_cons, List.filter_append, List.append_assoc, LayerStore.layerChunks,
      List.filter_map]
    rfl

theorem addIndex_cases (env : Backend) (indexes : DatasetChunkIndexes)
    (stores : List LayerStore) (config : IndexConfig)
    (h : indexes.get config.column = none → (env.createLanceDataset config).toBool →
      (createLanceIndex env config.properties).toBool →
        (findDatatypes config.column.entityPath config.column.component config.timeIndex
          stores).isSome →
          (∀ store ∈ stores, store.2.2.loads = true) ∧
            ∀ chunk ∈ stores.flatMap LayerStore.layerChunks,
              chunk.2.2.entityPath = config.column.entityPath →
                Index.failsOn env config chunk = false) :
    (∃ e, indexes.addIndex env stores config = (.error e, indexes)) ∨
      indexes.addIndex env stores config = (.ok (), (indexes.set config.column ⟨config, {}⟩).set
        config.column ⟨config, ⟨(stores.flatMap LayerStore.layerChunks).flatMap
          (Index.rowsOf env config)⟩⟩) := by
  unfold addIndex
  cases hget : indexes.get config.column with
  | some ix => exact .inl ⟨_, rfl⟩
  | none =>
    cases hx : createIndex env stores config with
    | error e => exact .inl ⟨e, rfl⟩
    | ok ix =>
      obtain ⟨rfl, hd, hl, htypes⟩ := createIndex_ok hx
      obtain ⟨hloads, hf⟩ := h hget hd hl htypes
      obtain ⟨types, htypes⟩ := Option.isSome_iff_exists.mp htypes
      obtain ⟨store, hstore, chunk, hm, he, hc, ht⟩ := exists_of_findDatatypes htypes
      replace hm : chunk ∈ stores.flatMap LayerStore.layerChunks :=
        List.mem_flatMap.mpr ⟨store, hstore, hm⟩
      rw [backfill_ok config.column hloads]
      generalize stores.flatMap LayerStore.layerChunks = chunks at hf hm ⊢
      have hmem : ∀ chunk, chunk ∈ chunks.filter (fun chunk =>
          chunk.2.2.entityPath = config.column.entityPath &&
            (chunk.2.2.components.get config.column.component).isSome) ↔
          chunk ∈ chunks ∧ chunk.2.2.entityPath = config.column.entityPath ∧
            (chunk.2.2.components.get config.column.component).isSome := by
        intro chunk
        simp
      have hs : (⟨config, {}⟩ : Index).storeChunks env _ = _ := Index.storeChunks_ok
        (fun chunk hb => hf chunk ((hmem chunk).mp hb).1 ((hmem chunk).mp hb).2.1)
        ⟨chunk, (hmem chunk).mpr ⟨hm, he, hc⟩, yields_of_not_failsOn hc ht (hf chunk hm he)⟩
      refine .inr ?_
      rw [← flatMap_backfill]
      dsimp only [Except.bind] at hs ⊢
      rw [hs]
      rfl

theorem updateAll_error (indexes : DatasetChunkIndexes)
    (update : κ → Index → Except StoreError Index)
    (h : ∀ k ix, update k ix = .error e) (work : List (IndexColumn × κ)) :
    (indexes.updateAll update work).2 = indexes := by
  induction work with
  | nil => rfl
  | cons w rest ih =>
    unfold updateAll
    split
    case h_1 => exact ih
    case h_2 => rw [h]

theorem onLayersRemoved_nil (env : Backend) (indexes : DatasetChunkIndexes) :
    ∃ result indexes', indexes.onLayersRemoved env [] = (result, indexes') ∧
      (∀ column, indexes'.get column = indexes.get column) ∧
      ∀ e, result = .error e → indexes' = indexes := by
  match hd : env.deleteNothing with
  | .ok () =>
    obtain ⟨indexes', ho, hi⟩ := get_updateAll (fun () ix => ix.removeLayers env [])
      (fun _ ix => ix) (fun _ _ => rfl) (indexes.columns.map (·, ())) indexes
      fun w hw ix ix' hget hc => by
        rw [Index.removeLayers, if_pos List.isEmpty_nil, hd]
        rfl
    refine ⟨.ok (), indexes', ho, fun column => ?_, nofun⟩
    rw [hi]
    cases indexes.get column with
    | none => rfl
    | some ix => simp
  | .error e =>
    have h := indexes.updateAll_error (fun () ix => ix.removeLayers env []) (fun _ ix => by
      rw [Index.removeLayers, if_pos List.isEmpty_nil, hd]
      rfl) (indexes.columns.map (·, ()))
    exact ⟨_, _, rfl, fun column => congrArg (·.get column) h, fun _ _ => h⟩

end DatasetChunkIndexes

end DimosViewer.Server
