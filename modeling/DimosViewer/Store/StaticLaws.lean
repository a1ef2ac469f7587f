import DimosViewer.Store.RemovalLaws

/-!
# Laws of static chunks

Which columns of an incoming chunk take the static place of their component, and
what the removal of the overwritten chunks leaves alone.
-/

namespace DimosViewer.ChunkStore

open Std (TreeMap)

variable {env : Env}

-- ---------------------------------------------------------------------------
-- The static index
-- ---------------------------------------------------------------------------

theorem overwriteComponent_eq (c : Chunk) (acc : ChunkStore × TreeMap ChunkId RowId)
    (column : SerializedComponentColumn) :
    ∃ staticIds, (overwriteComponent c acc column).1 =
      { acc.1 with staticChunkIdsPerEntity := staticIds } := by
  unfold overwriteComponent
  dsimp only
  split
  · exact ⟨_, rfl⟩
  split
  · exact ⟨_, rfl⟩
  split
  · exact ⟨_, rfl⟩
  split
  · split <;> exact ⟨_, rfl⟩
  · exact ⟨_, rfl⟩

theorem overwriteComponents_eq (c : Chunk) (columns : ChunkComponents)
    (acc : ChunkStore × TreeMap ChunkId RowId) :
    ∃ staticIds, (columns.foldl (overwriteComponent c) acc).1 =
      { acc.1 with staticChunkIdsPerEntity := staticIds } := by
  induction columns generalizing acc with
  | nil => exact ⟨_, rfl⟩
  | cons column rest ih =>
    obtain ⟨ids, h⟩ := overwriteComponent_eq c acc column
    obtain ⟨ids', h'⟩ := ih (overwriteComponent c acc column)
    exact ⟨ids', by rw [List.foldl_cons, h', h]⟩

/-- A column that takes the static place of its component. -/
def TakesOver (s : ChunkStore) (c : Chunk) (column : SerializedComponentColumn) : Prop :=
  column.listArray ≠ [] ∧ ∃ rowIds, c.rowIdRangePerComponent.lookup column.component = some rowIds ∧
    ∀ cur, s.staticChunkId? c.entityPath column.component = some cur →
      s.defendingRowId column.component cur < rowIds.2

theorem staticChunkId?_upsert (s : ChunkStore) (e e' : EntityPath)
    (component component' : ComponentIdentifier) (cid : ChunkId) :
    { s with staticChunkIdsPerEntity :=
        OrdMap.upsert s.staticChunkIdsPerEntity e (·.insert component cid) }.staticChunkId? e'
        component' =
      if e = e' ∧ component = component' then some cid else s.staticChunkId? e' component' := by
  unfold staticChunkId?
  have h := OrdMap.getD_upsert s.staticChunkIdsPerEntity e e' (·.insert component cid)
  have hd : (default : ChunkIdPerComponent) = ∅ := rfl
  simp only [hd] at h ⊢
  rw [h]
  by_cases he : e = e'
  · subst he
    rw [if_pos rfl, OrdMap.getElem?_insert]
    simp
  · simp [he]

theorem overwriteComponent_staticChunkId? (c : Chunk) (acc : ChunkStore × TreeMap ChunkId RowId)
    (column : SerializedComponentColumn) (e : EntityPath) (component : ComponentIdentifier) :
    ((overwriteComponent c acc column).1.staticChunkId? e component =
        if c.entityPath = e ∧ column.component = component then some c.id
        else acc.1.staticChunkId? e component) ∧ TakesOver acc.1 c column ∨
      (overwriteComponent c acc column).1.staticChunkId? e component =
        acc.1.staticChunkId? e component ∧ ¬ TakesOver acc.1 c column := by
  obtain ⟨s, overwritten⟩ := acc
  unfold overwriteComponent TakesOver
  dsimp only
  split
  · rename_i hempty
    exact .inr ⟨rfl, fun h => h.1 (List.isEmpty_iff.mp hempty)⟩
  rename_i hempty
  split
  · rename_i hl
    refine .inr ⟨rfl, fun h => ?_⟩
    obtain ⟨-, rowIds, hr, -⟩ := h
    rw [hl] at hr
    cases hr
  rename_i rowIdMin rowIdMax hl
  have hne : column.listArray ≠ [] := fun h => hempty (List.isEmpty_iff.mpr h)
  split
  · rename_i hcur
    refine .inl ⟨staticChunkId?_upsert .., hne, _, hl, fun cur hc => ?_⟩
    rw [staticChunkId?, hcur] at hc
    cases hc
  rename_i cur hcur
  split
  · rename_i hlt
    refine .inl ⟨?_, hne, _, hl, fun cur' hc => ?_⟩
    · split <;> exact staticChunkId?_upsert ..
    · rw [staticChunkId?, hcur] at hc
      cases hc
      exact hlt
  · rename_i hlt
    refine .inr ⟨rfl, fun h => ?_⟩
    obtain ⟨-, rowIds, hr, hd⟩ := h
    rw [hl] at hr
    cases hr
    exact hlt (hd cur hcur)

/-- A walk over columns of distinct components decides each of them as the first one. -/
theorem overwriteComponents_staticChunkId? (c : Chunk) (columns : ChunkComponents)
    (hn : (columns.map (·.component)).Nodup) (acc : ChunkStore × TreeMap ChunkId RowId)
    (e : EntityPath) (component : ComponentIdentifier) :
    ((columns.foldl (overwriteComponent c) acc).1.staticChunkId? e component = some c.id ∧
        c.entityPath = e ∧ ∃ column ∈ columns, column.component = component ∧
          TakesOver acc.1 c column) ∨
      (columns.foldl (overwriteComponent c) acc).1.staticChunkId? e component =
        acc.1.staticChunkId? e component ∧ (c.entityPath = e → ∀ column ∈ columns,
          column.component = component → ¬ TakesOver acc.1 c column) := by
  induction columns generalizing acc with
  | nil => exact .inr ⟨rfl, fun _ _ h => nomatch h⟩
  | cons column rest ih =>
    rw [List.map_cons, List.nodup_cons] at hn
    rw [List.foldl_cons]
    -- The other columns do not see what this one changes.
    have hsame : ∀ column' ∈ rest, TakesOver (overwriteComponent c acc column).1 c column' ↔
        TakesOver acc.1 c column' := by
      intro column' hm
      obtain ⟨ids, he⟩ := overwriteComponent_eq c acc column
      have hne : column.component ≠ column'.component :=
        fun h => hn.1 (h ▸ List.mem_map_of_mem hm)
      have hid : (overwriteComponent c acc column).1.staticChunkId? c.entityPath
          column'.component = acc.1.staticChunkId? c.entityPath column'.component := by
        rcases overwriteComponent_staticChunkId? c acc column c.entityPath
          column'.component with ⟨h, -⟩ | ⟨h, -⟩
        · rw [h, if_neg fun h => hne h.2]
        · exact h
      have hdef : ∀ cur, (overwriteComponent c acc column).1.defendingRowId column'.component
          cur = acc.1.defendingRowId column'.component cur := by
        intro cur
        rw [he]
        rfl
      simp only [TakesOver, hid, hdef]
    rcases ih hn.2 (overwriteComponent c acc column) with ⟨h, hce, col, hm, hcc, ht⟩ | ⟨h, hno⟩
    · exact .inl ⟨h, hce, col, List.mem_cons_of_mem _ hm, hcc, (hsame col hm).mp ht⟩
    · rcases overwriteComponent_staticChunkId? c acc column e component with ⟨h1, ht⟩ | ⟨h1, ht⟩
      · by_cases hcc : c.entityPath = e ∧ column.component = component
        · rw [if_pos hcc] at h1
          exact .inl ⟨h.trans h1, hcc.1, column, List.mem_cons_self, hcc.2, ht⟩
        · rw [if_neg hcc] at h1
          refine .inr ⟨h.trans h1, fun hce col hm hc => ?_⟩
          rcases List.mem_cons.mp hm with rfl | hm
          · exact absurd ⟨hce, hc⟩ hcc
          · exact fun ht => hno hce col hm hc ((hsame col hm).mpr ht)
      · refine .inr ⟨h.trans h1, fun hce col hm hc => ?_⟩
        rcases List.mem_cons.mp hm with rfl | hm
        · exact ht
        · exact fun ht => hno hce col hm hc ((hsame col hm).mpr ht)
-- ---------------------------------------------------------------------------
-- Overwritten chunks
-- ---------------------------------------------------------------------------

theorem removeIfDangling_frame (env : Env) (e : EntityPath) (s : ChunkStore) (cid : ChunkId) (rowId : RowId) :
    SameTemporal s (s.removeIfDangling env e cid rowId).1 ∧
      PhysicalSub s (s.removeIfDangling env e cid rowId).1 := by
  unfold removeIfDangling
  split
  · exact ⟨.refl s, .refl s⟩
  split
  · exact ⟨.refl s, .refl s⟩
  dsimp only
  split
  · exact ⟨⟨⟨rfl, rfl, rfl, rfl, rfl, rfl, rfl⟩, rfl, rfl⟩, .of_eq rfl⟩
  · exact ⟨⟨⟨rfl, rfl, rfl, rfl, rfl, rfl, rfl⟩, rfl, rfl⟩, physicalSub_erase rfl⟩

theorem removeAllDangling_frame (env : Env) (e : EntityPath) (s : ChunkStore) (l : List (ChunkId × RowId)) :
    SameTemporal s (s.removeAllDangling env e l).1 ∧
      PhysicalSub s (s.removeAllDangling env e l).1 := by
  induction l generalizing s with
  | nil => exact ⟨.refl s, .refl s⟩
  | cons entry rest ih =>
    have h := removeIfDangling_frame env e s entry.1 entry.2
    have h' := ih (s.removeIfDangling env e entry.1 entry.2).1
    exact ⟨h.1.trans h'.1, h.2.trans h'.2⟩

theorem removeIfDangling_staticIds (e : EntityPath) (s : ChunkStore) (cid : ChunkId)
    (rowId : RowId) : (s.removeIfDangling env e cid rowId).1.staticChunkIdsPerEntity =
      s.staticChunkIdsPerEntity := by
  unfold removeIfDangling
  split
  · rfl
  split
  · rfl
  dsimp only
  split <;> rfl

theorem removeAllDangling_staticIds (e : EntityPath) (s : ChunkStore)
    (l : List (ChunkId × RowId)) : (s.removeAllDangling env e l).1.staticChunkIdsPerEntity =
      s.staticChunkIdsPerEntity := by
  induction l generalizing s with
  | nil => rfl
  | cons entry rest ih =>
    exact (ih _).trans (removeIfDangling_staticIds e s entry.1 entry.2)

theorem removeIfDangling_deletes (env : Env) {s : ChunkStore} (hk : s.Keyed) (e : EntityPath) (cid : ChunkId)
    (rowIdMin : RowId) : ∃ dels, (s.removeIfDangling env e cid rowIdMin).2 = dels.map .deletion ∧
      Deletes s (s.removeIfDangling env e cid rowIdMin).1 dels := by
  unfold removeIfDangling
  split
  · exact ⟨[], rfl, .of_eq rfl⟩
  split
  · exact ⟨[], rfl, .of_eq rfl⟩
  dsimp only
  split
  · exact ⟨[], rfl, .of_eq rfl⟩
  · rename_i removed hr
    obtain rfl := hk hr
    exact ⟨[⟨removed, .overwrite⟩], rfl, .single hr rfl⟩

theorem removeAllDangling_deletes (env : Env) {s : ChunkStore} (hk : s.Keyed) (e : EntityPath)
    (l : List (ChunkId × RowId)) : ∃ dels, (s.removeAllDangling env e l).2 = dels.map .deletion ∧
      Deletes s (s.removeAllDangling env e l).1 dels := by
  induction l generalizing s with
  | nil => exact ⟨[], rfl, .of_eq rfl⟩
  | cons entry rest ih =>
    obtain ⟨dels, he, hd⟩ := removeIfDangling_deletes env hk e entry.1 entry.2
    obtain ⟨dels', he', hd'⟩ := ih (hd.keyed hk)
    refine ⟨dels ++ dels', ?_, hd.trans hd'⟩
    rw [removeAllDangling, List.map_append, ← he, ← he']

theorem storeStatic_staticChunkId? (s : ChunkStore) (c : Chunk)
    (lineage : ChunkDirectLineageReport) (e : EntityPath) (component : ComponentIdentifier) :
    (s.storeStatic env c lineage).1.staticChunkId? e component =
      (c.components.foldl (overwriteComponent c) (s, ∅)).1.staticChunkId? e component := by
  rw [staticChunkId?, storeStatic, removeAllDangling_staticIds]
  rfl

theorem storeStatic_frame (env : Env) (s : ChunkStore) (c : Chunk) (lineage : ChunkDirectLineageReport) :
    SameTemporal s (s.storeStatic env c lineage).1 ∧
      PhysicalSub s (s.storeStatic env c lineage).1 := by
  obtain ⟨ids, h⟩ := overwriteComponents_eq c c.components (s, ∅)
  have hf := removeAllDangling_frame env c.entityPath
    { (c.components.foldl (overwriteComponent c) (s, ∅)).1 with
      staticChunksStats := (c.components.foldl (overwriteComponent c) (s, ∅)).1.staticChunksStats +
        ChunkStoreChunkStats.fromChunk env c }
    ((env.hashOrder (c.components.foldl (overwriteComponent c) (s, ∅)).1.insertId
      (c.components.foldl (overwriteComponent c) (s, ∅)).2.keys).filterMap fun id =>
        (c.components.foldl (overwriteComponent c) (s, ∅)).2[id]?.map (id, ·))
  have h0 : SameTemporal s { (c.components.foldl (overwriteComponent c) (s, ∅)).1 with
      staticChunksStats := (c.components.foldl (overwriteComponent c) (s, ∅)).1.staticChunksStats +
        ChunkStoreChunkStats.fromChunk env c } := by
    rw [h]
    exact ⟨⟨rfl, rfl, rfl, rfl, rfl, rfl, rfl⟩, rfl, rfl⟩
  refine ⟨h0.trans hf.1, PhysicalSub.trans (.of_eq ?_) hf.2⟩
  rw [h]

theorem storeStatic_deletes (env : Env) {s : ChunkStore} (hk : s.Keyed) (c : Chunk)
    (lineage : ChunkDirectLineageReport) : ∃ dels,
      (s.storeStatic env c lineage).2 = .addition ⟨c, c, lineage⟩ :: dels.map .deletion ∧
        Deletes s (s.storeStatic env c lineage).1 dels := by
  obtain ⟨ids, h⟩ := overwriteComponents_eq c c.components (s, ∅)
  unfold storeStatic
  dsimp only
  generalize List.filterMap _ _ = order
  generalize ho : c.components.foldl (overwriteComponent c) (s, ∅) = o at h ⊢
  have hk' : Keyed { o.1 with
      staticChunksStats := o.1.staticChunksStats + ChunkStoreChunkStats.fromChunk env c } := by
    rw [h]
    exact hk
  obtain ⟨dels, he, hd⟩ := removeAllDangling_deletes env hk' c.entityPath order
  refine ⟨dels, congrArg _ he, ?_⟩
  rw [h] at hd ⊢
  exact ⟨hd.physical, hd.isPhysical, hd.nodup⟩

end DimosViewer.ChunkStore
