import DimosViewer.Server.ChunkIndexLaws

/-!
# The indexes in step with the layers

A call keeps the indexes in step with the layers unless it replaces or skips a layer
that an index has rows of, or meets a chunk that an index cannot store or a file that cannot be
read.
-/

namespace DimosViewer.Server.DatasetInner

open Reach (Reachable)

variable {env : Backend} {ds ds' : DatasetInner}

-- ---------------------------------------------------------------------------
-- Layers
-- ---------------------------------------------------------------------------

def tagged (segmentId : SegmentId) (layerName : String) (chunks : List Chunk) : List LayerChunk :=
  chunks.map fun chunk => (segmentId, layerName, chunk)

def withSegment (ds : DatasetInner) (segmentId : SegmentId) (segment : Segment) : DatasetInner :=
  { ds with segments := ds.segments.insert segmentId segment }

def withoutSegment (ds : DatasetInner) (segmentId : SegmentId) : DatasetInner :=
  { ds with segments := ds.segments.erase segmentId }

theorem layerChunks_segment (ds : DatasetInner) (segmentId : SegmentId) :
    ds.layerChunks.Perm (((ds.segments.lookup segmentId).getD {}).layerChunks segmentId ++
      (ds.withoutSegment segmentId).layerChunks) := by
  refine (ds.segments.flatMap_perm_erase (fun e => e.2.layerChunks e.1) segmentId).trans ?_
  cases ds.segments.lookup segmentId with
  | none => exact .refl _
  | some segment => exact .of_eq (congrArg (· ++ _) (List.append_nil _))

theorem layers_segment (ds : DatasetInner) (segmentId : SegmentId) :
    ds.layers.Perm (((ds.segments.lookup segmentId).getD {}).layerList segmentId ++
      (ds.withoutSegment segmentId).layers) := by
  refine (ds.segments.flatMap_perm_erase (fun e => e.2.layerList e.1) segmentId).trans ?_
  cases ds.segments.lookup segmentId with
  | none => exact .refl _
  | some segment => exact .of_eq (congrArg (· ++ _) (List.append_nil _))

theorem layerChunks_layer (s : Segment) (segmentId : SegmentId) (layerName : String) :
    (s.layerChunks segmentId).Perm
      (tagged segmentId layerName ((s.layers.lookup layerName).elim [] (·.chunks)) ++
        Segment.layerChunks segmentId ⟨s.layers.erase layerName⟩) := by
  refine (s.layers.flatMap_perm_erase (fun e => tagged segmentId e.1 e.2.chunks) layerName).trans ?_
  cases s.layers.lookup layerName with
  | none => exact .refl _
  | some layer => exact .of_eq (congrArg (· ++ _) (List.append_nil _))

theorem lookup_getD (ds : DatasetInner) (segmentId : SegmentId) (layerName : String) :
    ((ds.segments.lookup segmentId).getD {}).layers.lookup layerName =
      ds.layer segmentId layerName := by
  unfold layer
  cases ds.segments.lookup segmentId with
  | none => exact AList.lookup_empty layerName
  | some segment => rfl

def withLayer (ds : DatasetInner) (segmentId : SegmentId) (layerName : String) (new : Layer) :
    DatasetInner :=
  ds.withSegment segmentId
    ⟨((ds.segments.lookup segmentId).getD {}).layers.insert layerName new⟩

def withoutLayer (ds : DatasetInner) (segmentId : SegmentId) (layerName : String) : DatasetInner :=
  ds.withSegment segmentId ⟨((ds.segments.lookup segmentId).getD {}).layers.erase layerName⟩

theorem layerChunks_withoutLayer (ds : DatasetInner) (segmentId : SegmentId)
    (layerName : String) :
    ds.layerChunks.Perm ((ds.withoutLayer segmentId layerName).layerChunks ++
      tagged segmentId layerName ((ds.layer segmentId layerName).elim [] (·.chunks))) := by
  refine (ds.layerChunks_segment segmentId).trans ?_
  refine ((layerChunks_layer _ segmentId layerName).append_right _).trans ?_
  rw [lookup_getD, List.append_assoc]
  exact List.perm_append_comm

theorem layerChunks_withLayer (ds : DatasetInner) (segmentId : SegmentId) (layerName : String)
    (new : Layer) :
    (ds.withLayer segmentId layerName new).layerChunks.Perm
      ((ds.withoutLayer segmentId layerName).layerChunks ++
        tagged segmentId layerName new.chunks) := by
  have h : (ds.withLayer segmentId layerName new).layerChunks =
      (tagged segmentId layerName new.chunks ++ Segment.layerChunks segmentId
        ⟨((ds.segments.lookup segmentId).getD {}).layers.erase layerName⟩) ++
      (ds.withoutSegment segmentId).layerChunks := rfl
  rw [h, List.append_assoc]
  exact List.perm_append_comm

theorem layers_withSegment (ds : DatasetInner) (segmentId : SegmentId) :
    (ds.withSegment segmentId ((ds.segments.lookup segmentId).getD {})).layers.Perm ds.layers :=
  (ds.layers_segment segmentId).symm

-- ---------------------------------------------------------------------------
-- The invariant
-- ---------------------------------------------------------------------------

/-- The indexes are in step, and each is registered under the column it is of. -/
structure InStep (env : Backend) (ds : DatasetInner) : Prop where
  mirrored : ds.Mirrored env
  registered : ∀ column ix, ds.indexes.get column = some ix → ix.config.column = column

theorem InStep.congr (h : ds.InStep env) (hl : ds'.layerChunks.Perm ds.layerChunks)
    (hi : ∀ column, ds'.indexes.get column = ds.indexes.get column) : ds'.InStep env := by
  refine ⟨fun column ix hget => ?_, fun column ix hget => h.registered _ _ (hi column ▸ hget)⟩
  rw [show (ds'.layerChunks : Multiset LayerChunk) = ds.layerChunks from Multiset.coe_eq_coe.mpr hl]
  exact h.mirrored column ix (hi column ▸ hget)

theorem InStep.drop (h : ds.InStep env) {old : List LayerChunk}
    (hl : ds.layerChunks.Perm (ds'.layerChunks ++ old)) (hi : ds'.indexes = ds.indexes)
    (ho : ∀ w ∈ ds.indexes.worklist old, ds.indexes.stores env w = false) : ds'.InStep env := by
  refine ⟨fun column ix hget => ?_, fun column ix hget => h.registered _ _ (hi ▸ hget)⟩
  rw [hi] at hget
  have hm := h.mirrored column ix hget
  rw [Multiset.coe_eq_coe.mpr hl, ← Multiset.coe_add] at hm
  refine hm.remove ?_
  rw [Multiset.coe_bind, ← DatasetChunkIndexes.flatMap_worklist hget (h.registered column ix hget),
    Multiset.coe_eq_zero, List.flatMap_eq_nil_iff]
  intro chunk hc
  obtain ⟨w, hw, rfl⟩ := List.mem_map.mp hc
  obtain ⟨hw, hwc⟩ := List.mem_filter.mp hw
  have hs := ho w hw
  rw [DatasetChunkIndexes.stores, of_decide_eq_true hwc, hget, Option.any_some] at hs
  unfold Index.yields at hs
  unfold Index.batchRows
  split at hs
  · cases hs
  · rfl

-- ---------------------------------------------------------------------------
-- Adding a layer
-- ---------------------------------------------------------------------------

theorem InStep.store (h : ds.InStep env) {chunks : List LayerChunk}
    (hl : ds'.layerChunks.Perm (ds.layerChunks ++ chunks))
    (hi : ∀ column, ds'.indexes.get column = (ds.indexes.get column).map
      (Index.extend env (((ds.indexes.worklist chunks).filter (·.1 = column)).map (·.2)))) :
    ds'.InStep env := by
  refine ⟨fun column ix hget => ?_, fun column ix hget => ?_⟩
  · rw [hi] at hget
    obtain ⟨jx, hj, rfl⟩ := Option.map_eq_some_iff.mp hget
    have ha := (h.mirrored column jx hj).add (chunks : Multiset LayerChunk)
    rw [Index.extend_config, Multiset.coe_eq_coe.mpr hl, ← Multiset.coe_add]
    convert ha using 1
    rw [Index.extend, DatasetChunkIndexes.flatMap_worklist hj (h.registered column jx hj),
      ← Multiset.coe_add, Multiset.coe_bind]
  · rw [hi] at hget
    obtain ⟨jx, hj, rfl⟩ := Option.map_eq_some_iff.mp hget
    exact h.registered column jx hj

/-- What is asked of a layer for its chunks to be stored: every index that one of them
belongs to finds its timeline there, and an instance. -/
def Storable (env : Backend) (ds : DatasetInner) (chunks : List LayerChunk) : Prop :=
  ∀ w ∈ ds.indexes.worklist chunks, ds.indexes.stores env w = true

def Unindexed (env : Backend) (ds : DatasetInner) (chunks : List LayerChunk) : Prop :=
  ∀ w ∈ ds.indexes.worklist chunks, ds.indexes.stores env w = false

instance : Decidable (Storable env ds chunks) :=
  inferInstanceAs (Decidable (∀ w ∈ _, _))

instance : Decidable (Unindexed env ds chunks) :=
  inferInstanceAs (Decidable (∀ w ∈ _, _))

theorem layerChunks_eq (ds : DatasetInner) :
    ds.layerChunks = ds.layers.flatMap fun (id, name, layer) => tagged id name layer.chunks := by
  unfold layers
  rw [List.flatMap_assoc]
  refine congrArg (List.flatMap · _) (funext fun ⟨id, segment⟩ => ?_)
  dsimp only
  rw [Segment.layerList.eq_def, List.flatMap_map]
  rfl

theorem flatMap_layerStores (ds : DatasetInner) :
    ds.layerStores.flatMap LayerStore.layerChunks = ds.layerChunks := by
  rw [layerChunks_eq, layerStores, List.flatMap_map]
  rfl

theorem InStep.of_unchanged (h : ds.InStep env) (hu : ds.Unchanged ds') : ds'.InStep env := by
  refine h.congr ?_ fun column => by rw [hu.2]
  rw [layerChunks_eq, layerChunks_eq]
  exact hu.1.flatMap_right _

theorem Unchanged.refl (ds : DatasetInner) : ds.Unchanged ds := ⟨.refl _, rfl⟩

/-- A call either leaves the indexes in step or fails and changes nothing. -/
def Sound (env : Backend) (before : DatasetInner) (p : Except StoreError Unit × DatasetInner) :
    Prop :=
  p.2.InStep env ∧ ∀ e, p.1 = .error e → before.Unchanged p.2

theorem InStep.failed (h : ds.InStep env) (hu : ds.Unchanged ds') : Sound env ds (.error e, ds') :=
  ⟨h.of_unchanged hu, fun _ _ => hu⟩

theorem Sound.kept (h : Sound env ds p) : Kept env ds p.2 p.1 := by
  match hp : p.1 with
  | .ok () => exact h.1.mirrored
  | .error e => exact h.2 e hp

-- ---------------------------------------------------------------------------
-- The conditions
-- ---------------------------------------------------------------------------

/-- The chunks can be loaded, if there is any index to load them for. -/
def Readable (ds : DatasetInner) (resolved : ResolvedStore) : Prop :=
  ds.indexes.entries.isEmpty = true ∨ resolved.loads = true

/-- What is asked of `add_layer` where a layer of that name may be registered already. -/
def AddConforms (env : Backend) (ds : DatasetInner) (segmentId : SegmentId) (layerName : String)
    (resolved : ResolvedStore) (onDuplicate : IfDuplicateBehavior) : Prop :=
  let new := tagged segmentId layerName resolved.chunks
  match ds.layer segmentId layerName, onDuplicate with
  | none, _ => ds.Readable resolved ∧ ds.Storable env new
  | some old, .overwrite =>
    ds.Unindexed env (tagged segmentId layerName old.chunks) ∧ ds.Readable resolved ∧
      ds.Storable env new
  -- Nothing is stored: the chunks cannot be loaded, there is no index for them, or the first
  -- of them fails.
  | some _, .skip => ∀ w ∈ (ds.indexes.worklist new).head?, ds.indexes.stores env w = false
  | some _, .error => True

/-- The calls that keep the indexes in step. -/
def Conforms (env : Backend) (ds : DatasetInner) : Call → Prop
  | .createIndex config =>
    ds.indexes.get config.column = none → (env.createLanceDataset config).toBool →
      (createLanceIndex env config.properties).toBool →
        (findDatatypes config.column.entityPath config.column.component config.timeIndex
          ds.layerStores).isSome →
          (∀ store ∈ ds.layerStores, store.2.2.loads = true) ∧
            ∀ chunk ∈ ds.layerChunks, chunk.2.2.entityPath = config.column.entityPath →
              Index.failsOn env config chunk = false
  | .deleteIndexes _ => True
  | .addLayer segmentId layerName _ resolved onDuplicate =>
    (env.mergeSchema (ds.layerStores.map (·.2.2)) resolved).toBool →
      ds.AddConforms env segmentId layerName resolved onDuplicate
  | .removeLayers _ _ => True

instance : Decidable (Readable ds resolved) := inferInstanceAs (Decidable (_ ∨ _))

instance : Decidable (AddConforms env ds segmentId layerName resolved onDuplicate) := by
  unfold AddConforms
  dsimp only
  split <;> infer_instance

instance : ∀ call, Decidable (Conforms env ds call)
  | .createIndex _ => inferInstanceAs (Decidable (_ → _ → _ → _ → _ ∧ ∀ chunk ∈ _, _ → _))
  | .deleteIndexes _ => inferInstanceAs (Decidable True)
  | .addLayer .. => inferInstanceAs (Decidable (_ → AddConforms ..))
  | .removeLayers .. => inferInstanceAs (Decidable True)

-- ---------------------------------------------------------------------------
-- The calls
-- ---------------------------------------------------------------------------

theorem InStep.inserted (h : ds.InStep env) (segmentId : SegmentId) (layerName : String)
    (layer : Layer) (overwritten : Bool) (hr : ds.Readable layer.resolved)
    (hs : ds.Storable env (tagged segmentId layerName layer.chunks))
    (ho : ∀ old, ds.layer segmentId layerName = some old →
      ds.Unindexed env (tagged segmentId layerName old.chunks)) :
    ∃ indexes, ds.indexes.onLayerAdded env segmentId layer.resolved layerName overwritten =
        (.ok (), indexes) ∧
      InStep env { ds.withLayer segmentId layerName layer with indexes } := by
  have hbase : (ds.withoutLayer segmentId layerName).InStep env := by
    refine h.drop (ds.layerChunks_withoutLayer segmentId layerName) rfl ?_
    cases hl : ds.layer segmentId layerName with
    | none => exact fun w hw => absurd hw List.not_mem_nil
    | some old => exact ho old hl
  obtain ⟨indexes, ho, hi⟩ := DatasetChunkIndexes.storeAll_ok hs
  refine ⟨indexes, (DatasetChunkIndexes.onLayerAdded_eq env ds.indexes hr).trans ho, ?_⟩
  exact hbase.store (ds.layerChunks_withLayer segmentId layerName layer) hi

/-- The chunks of a layer that is skipped are not stored, if none of them can be. -/
theorem skipped (segmentId : SegmentId) (layerName : String)
    (hs : ∀ w ∈ (ds.indexes.worklist (tagged segmentId layerName resolved.chunks)).head?,
      ds.indexes.stores env w = false) :
    ∃ result, ds.indexes.onLayerAdded env segmentId resolved layerName true =
      (result, ds.indexes) := by
  by_cases hr : ds.Readable resolved
  case neg =>
    obtain ⟨hne, hloads⟩ := not_or.mp hr
    obtain ⟨err, herr⟩ := ResolvedStore.collectPhysicalChunks_of_not_loads
      (Bool.eq_false_iff.mpr hloads)
    exact ⟨.error err, by rw [DatasetChunkIndexes.onLayerAdded, if_neg hne, herr]⟩
  case pos =>
  rw [DatasetChunkIndexes.onLayerAdded_eq env ds.indexes hr]
  change ∃ result, ds.indexes.updateAll _ (ds.indexes.worklist (tagged ..)) = _
  match hw : ds.indexes.worklist (tagged segmentId layerName resolved.chunks) with
  | [] => exact ⟨.ok (), rfl⟩
  | w :: rest =>
    rw [hw] at hs
    obtain ⟨e, he⟩ := DatasetChunkIndexes.storeAll_error rest (hs w rfl)
      (DatasetChunkIndexes.isSome_of_mem_worklist (hw ▸ List.mem_cons_self))
    exact ⟨.error e, he⟩

theorem InStep.addLayer (h : ds.InStep env)
    (hc : (env.mergeSchema (ds.layerStores.map (·.2.2)) resolved).toBool →
      ds.AddConforms env segmentId layerName resolved onDuplicate) :
    Sound env ds (ds.addLayer env segmentId layerName slot resolved onDuplicate) := by
  unfold DatasetInner.addLayer
  cases hm : env.mergeSchema (ds.layerStores.map (·.2.2)) resolved with
  | error e => exact h.failed (.refl ds)
  | ok =>
    rw [hm] at hc
    specialize hc rfl
    unfold AddConforms at hc
    dsimp only [Segment.insertLayer]
    have hlook := ds.lookup_getD segmentId layerName
    cases hl : ds.layer segmentId layerName with
    | none =>
      rw [hl] at hc hlook
      rw [if_neg (AList.lookup_eq_none.mp hlook)]
      dsimp only at hc ⊢
      obtain ⟨indexes, hr, hi⟩ := h.inserted segmentId layerName ⟨slot, resolved⟩ false hc.1
        hc.2 (fun old ho => nomatch hl.symm.trans ho)
      rw [hr]
      exact ⟨hi, nofun⟩
    | some old =>
      rw [hl] at hc hlook
      have hin : layerName ∈ ((ds.segments.lookup segmentId).getD {}).layers :=
        AList.lookup_isSome.mp (hlook ▸ rfl)
      rw [if_pos hin]
      cases onDuplicate with
      | overwrite =>
        dsimp only at hc ⊢
        obtain ⟨indexes, hr, hi⟩ := h.inserted segmentId layerName ⟨slot, resolved⟩ true hc.2.1
          hc.2.2 (fun _ ho => Option.some.inj (hl.symm.trans ho) ▸ hc.1)
        rw [hr]
        exact ⟨hi, nofun⟩
      | skip =>
        dsimp only at hc ⊢
        obtain ⟨result, hr⟩ := skipped segmentId layerName hc
        rw [hr]
        exact ⟨h.of_unchanged ⟨ds.layers_withSegment segmentId, rfl⟩,
          fun _ _ => ⟨ds.layers_withSegment segmentId, rfl⟩⟩
      | error => exact h.failed ⟨ds.layers_withSegment segmentId, rfl⟩

theorem InStep.createIndex (h : ds.InStep env) (hc : ds.Conforms env (.createIndex config)) :
    Sound env ds (ds.perform env (.createIndex config)) := by
  unfold perform
  dsimp only
  rw [Conforms, ← flatMap_layerStores] at hc
  have hcases := ds.indexes.addIndex_cases env ds.layerStores config hc
  rw [flatMap_layerStores] at hcases
  obtain ⟨e, hr⟩ | hr := hcases
  · rw [hr]
    exact h.failed (.refl ds)
  · rw [hr]
    refine ⟨⟨fun column ix hget => ?_, fun column ix hget => ?_⟩, nofun⟩
    · simp only [DatasetChunkIndexes.get_set] at hget
      split at hget
      case isTrue =>
        obtain rfl := Option.some.inj hget
        exact (Multiset.coe_bind _ _).symm
      case isFalse => exact h.mirrored column ix hget
    · simp only [DatasetChunkIndexes.get_set] at hget
      split at hget
      case isTrue he =>
        obtain rfl := Option.some.inj hget
        exact he.symm
      case isFalse => exact h.registered column ix hget

theorem InStep.deleteIndexes (h : ds.InStep env) :
    Sound env ds (ds.perform env (.deleteIndexes column)) := by
  refine ⟨⟨fun other ix hget => ?_, fun other ix hget => ?_⟩, nofun⟩
  all_goals
    rw [perform, DatasetChunkIndexes.get_deleteIndexes] at hget
    split at hget
  · cases hget
  · exact h.mirrored other ix hget
  · cases hget
  · exact h.registered other ix hget

-- ---------------------------------------------------------------------------
-- Removing layers
-- ---------------------------------------------------------------------------

def dropped (segmentsToDrop : List SegmentId) (layersToDrop : List String)
    (layer : SegmentId × String) : Bool :=
  (segmentsToDrop.isEmpty || segmentsToDrop.contains layer.1) &&
    (layersToDrop.isEmpty || layersToDrop.contains layer.2)

theorem layerList_retainLayers (s : Segment) (segmentId : SegmentId) (keep : String → Bool) :
    (s.retainLayers fun name _ => keep name).layerList segmentId =
      (s.layerList segmentId).filter fun (_, name, _) => keep name := by
  unfold Segment.layerList Segment.retainLayers
  rw [List.map_eq_flatMap, AList.flatMap_retain, List.map_eq_flatMap, List.filter_flatMap]
  refine congrArg (List.flatMap · _) (funext fun ⟨name, layer⟩ => ?_)
  cases hk : keep name <;> simp [hk]

theorem removeLayers_layers (env : Backend) (ds : DatasetInner) (segmentsToDrop : List SegmentId)
    (layersToDrop : List String) :
    (ds.removeLayers env segmentsToDrop layersToDrop).2.layers =
      ds.layers.filter fun (id, name, _) => !dropped segmentsToDrop layersToDrop (id, name) := by
  unfold layers removeLayers
  dsimp only
  rw [AList.flatMap_retain, List.filter_flatMap]
  refine congrArg (List.flatMap · _) (funext fun ⟨id, segment⟩ => ?_)
  dsimp only
  by_cases hd : (segmentsToDrop.isEmpty || segmentsToDrop.contains id) = true
  · have hf : (segment.layerList id).filter (fun (id, name, _) =>
        !dropped segmentsToDrop layersToDrop (id, name)) =
        (segment.retainLayers fun name _ =>
          !(layersToDrop.isEmpty || layersToDrop.contains name)).layerList id := by
      rw [layerList_retainLayers segment id fun name =>
        !(layersToDrop.isEmpty || layersToDrop.contains name)]
      refine List.filter_congr fun layer hl => ?_
      obtain ⟨e, -, rfl⟩ := List.mem_map.mp hl
      simp only [dropped, hd, Bool.true_and]
    rw [hf, if_pos hd]
    split
    case isTrue => rfl
    case isFalse h =>
      rw [Segment.layerList.eq_def, List.eq_nil_of_length_eq_zero (Nat.eq_zero_of_not_pos h)]
      rfl
  · rw [if_neg hd]
    refine (List.filter_eq_self.mpr fun layer hl => ?_).symm
    obtain ⟨e, -, rfl⟩ := List.mem_map.mp hl
    simp only [dropped, Bool.not_eq_true _ ▸ hd, Bool.false_and, Bool.not_false]

theorem mem_removedLayers (ds : DatasetInner) (segmentsToDrop : List SegmentId)
    (layersToDrop : List String) (layer : SegmentId × String) :
    layer ∈ (ds.segments.entries.flatMap fun ⟨segmentId, segment⟩ =>
        if segmentsToDrop.isEmpty || segmentsToDrop.contains segmentId then
          (segment.layers.keys.filter fun name =>
            layersToDrop.isEmpty || layersToDrop.contains name).map (segmentId, ·)
        else []) ↔
      layer ∈ (ds.layers.map fun (id, name, _) => (id, name)) ∧
        dropped segmentsToDrop layersToDrop layer = true := by
  obtain ⟨id, name⟩ := layer
  have hl : (id, name) ∈ (ds.layers.map fun (id, name, _) => (id, name)) ↔
      ∃ segment, ⟨id, segment⟩ ∈ ds.segments.entries ∧ name ∈ segment.layers.keys := by
    simp only [layers, Segment.layerList, List.mem_map, List.mem_flatMap, AList.keys, List.keys]
    constructor
    · rintro ⟨_, ⟨⟨_, segment⟩, hs, e, he, rfl⟩, heq⟩
      cases heq
      exact ⟨segment, hs, e, he, rfl⟩
    · rintro ⟨segment, hs, ⟨_, layer⟩, he, rfl⟩
      exact ⟨_, ⟨⟨id, segment⟩, hs, _, he, rfl⟩, rfl⟩
  rw [hl, List.mem_flatMap, dropped, Bool.and_eq_true]
  constructor
  · rintro ⟨⟨_, segment⟩, hs, hm⟩
    dsimp only at hm
    split at hm
    case isFalse => cases hm
    case isTrue hd =>
      obtain ⟨_, hn, heq⟩ := List.mem_map.mp hm
      cases heq
      obtain ⟨hk, hn⟩ := List.mem_filter.mp hn
      exact ⟨⟨segment, hs, hk⟩, hd, hn⟩
  · rintro ⟨⟨segment, hs, hk⟩, hd, hn⟩
    refine ⟨⟨id, segment⟩, hs, ?_⟩
    dsimp only
    rw [if_pos hd]
    exact List.mem_map.mpr ⟨name, List.mem_filter.mpr ⟨hk, hn⟩, rfl⟩

theorem InStep.removeLayers (h : ds.InStep env) (segmentsToDrop : List SegmentId)
    (layersToDrop : List String) :
    Sound env ds (ds.perform env (.removeLayers segmentsToDrop layersToDrop)) := by
  have hlayers := ds.removeLayers_layers env segmentsToDrop layersToDrop
  have hmem := ds.mem_removedLayers segmentsToDrop layersToDrop
  unfold perform
  unfold DatasetInner.removeLayers at hlayers ⊢
  dsimp only at hlayers ⊢
  generalize ds.segments.entries.flatMap _ = removed at hlayers hmem ⊢
  generalize ds.segments.retain _ = segments at hlayers ⊢
  by_cases hr : removed = []
  · -- Nothing goes.
    obtain ⟨result, indexes, ho, hi, he⟩ := ds.indexes.onLayersRemoved_nil env
    rw [hr] at hlayers ⊢
    rw [ho] at hlayers ⊢
    have hsame : layers { segments, indexes } = ds.layers := by
      rw [hlayers, List.filter_eq_self]
      intro layer hl
      rw [Bool.not_eq_true', ← Bool.not_eq_true]
      intro hd
      have hin := (hmem (layer.1, layer.2.1)).mpr ⟨List.mem_map.mpr ⟨layer, hl, rfl⟩, hd⟩
      rw [hr] at hin
      cases hin
    refine ⟨h.congr ?_ hi, fun e hx => ⟨.of_eq hsame, ?_⟩⟩
    · rw [layerChunks_eq, layerChunks_eq, hsame]
    · cases result with
      | ok => cases hx
      | error e' => exact he e' rfl
  · obtain ⟨indexes, ho, hi⟩ := ds.indexes.onLayersRemoved_ok env hr
    rw [ho] at hlayers ⊢
    have hchunks : layerChunks { segments, indexes } =
        ds.layerChunks.filter fun c => decide ((c.1, c.2.1) ∉ removed) := by
      rw [layerChunks_eq, hlayers, ds.layerChunks_eq]
      refine View.flatMap_filter fun ⟨id, name, layer⟩ hl chunk hc => ?_
      obtain ⟨_, -, rfl⟩ := List.mem_map.mp hc
      have hm := hmem (id, name)
      rw [and_iff_right (List.mem_map.mpr ⟨_, hl, rfl⟩)] at hm
      simp [hm]
    refine ⟨⟨fun column ix hget => ?_, fun column ix hget => ?_⟩, nofun⟩
    all_goals
      dsimp only at hget
      rw [hi] at hget
      obtain ⟨jx, hj, rfl⟩ := Option.map_eq_some_iff.mp hget
    · rw [hchunks]
      exact (h.mirrored column jx hj).filter (· ∉ removed) (fun c => (c.1, c.2.1))
        (fun r => (r.rerunSegmentId, r.rerunSegmentLayer))
        fun chunk r hr => Index.tag_of_mem_rowsOf hr
    · exact h.registered column jx hj

theorem InStep.perform (h : ds.InStep env) :
    ∀ call, ds.Conforms env call → Sound env ds (ds.perform env call)
  | .createIndex _, hc => h.createIndex hc
  | .deleteIndexes _, _ => h.deleteIndexes
  | .addLayer .., hc => h.addLayer hc
  | .removeLayers .., _ => h.removeLayers _ _

theorem inStep_new (env : Backend) : InStep env {} :=
  ⟨fun _ _ h => (nomatch h), fun _ _ h => (nomatch h)⟩

theorem inStep_of_reachable (h : Reachable {} (next env) (Conforms env) ds) : ds.InStep env :=
  h.invariant (inStep_new env) fun _ call hi hc => (hi.perform call hc).1

/-- Tables that take everything, and components that are not numbers. -/
def permissive : Backend where
  isNumeric _ := false
  createLanceDataset _ := .ok ()
  createLanceIndex _ := .ok ()
  deleteNothing := .ok ()
  mergeSchema _ _ := .ok ()

def oneRow (id : ChunkId) : Chunk where
  id := id
  entityPath := ["points"]
  isSorted := true
  rowIds := [1]
  timelines := [("frame", .new (some true) ⟨"frame", .sequence⟩ [.ZERO])]
  components := [⟨"text", "utf8", [some [.bytes [104, 105]]]⟩]

def textIndex : IndexConfig := ⟨"frame", ⟨["points"], "text"⟩, .inverted true "simple"⟩

def indexedCalls : List Call :=
  [.addLayer "run" "base" 0 (.lazy (.ok [oneRow 1])) .error, .createIndex textIndex]

theorem indexed_reachable :
    Reachable {} (next permissive) (Conforms permissive)
      (indexedCalls.foldl (next permissive) {}) :=
  Reachable.init.foldl (by decide +kernel)

end DimosViewer.Server.DatasetInner
