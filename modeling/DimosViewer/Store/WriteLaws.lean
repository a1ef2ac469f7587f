import DimosViewer.Reach
import DimosViewer.Store.StaticLaws
import DimosViewer.Chunk.SplitLaws

/-!
# Laws of insertion

What each write leaves alone, which neighbor is elected, and what becomes of a
chunk that is not refused.
-/

namespace DimosViewer

open Std (TreeMap TreeSet)

def Env.Future (env : Env) (n : Nat) (id : ChunkId) : Prop := ∃ k, n ≤ k ∧ id = env.newId k

theorem Env.Future.mono {env : Env} {cid : ChunkId} (h : env.Future n' cid) (hn : n ≤ n') :
    env.Future n cid := by
  obtain ⟨k, hk, rfl⟩ := h
  exact ⟨k, hn.trans hk, rfl⟩

theorem DrawnIn.future {env : Env} {cid : ChunkId} (h : Chunk.DrawnIn env.newId n n' cid) :
    env.Future n cid := by
  obtain ⟨k, hk, -, rfl⟩ := h
  exact ⟨k, hk, rfl⟩

theorem DrawnIn.not_future {env : Env} {cid : ChunkId} (h : Chunk.DrawnIn env.newId n n' cid) :
    ¬ env.Future n' cid := by
  rintro ⟨k, hk, he⟩
  exact h.ne_newId env.newId_injective hk he

structure Chunk.Storable (c : Chunk) : Prop where
  wellFormed : c.WellFormed
  isSorted : c.isSorted = true
  rowIds_ne : c.rowIds ≠ []

theorem Chunk.IsPiece.storable {c p : Chunk} (h : Chunk.IsPiece c p) : p.Storable :=
  ⟨h.wellFormed, h.isSorted, h.rowIds_ne⟩

namespace ChunkStore

variable {env : Env}

-- ---------------------------------------------------------------------------
-- Entity drops
-- ---------------------------------------------------------------------------

theorem mem_sortedIds : cid ∈ sortedIds ids ↔ cid ∈ ids := by
  rw [sortedIds, TreeSet.mem_toList, TreeSet.mem_ofList, List.contains_iff_mem]

theorem mem_staticIdsOf {s : ChunkStore} :
    cid ∈ s.staticIdsOf e ↔ ∃ component, s.staticChunkId? e component = some cid := by
  rw [staticIdsOf, mem_sortedIds, OrdMap.mem_values]
  rfl

theorem mem_temporalIdsOf {s : ChunkStore} :
    cid ∈ s.temporalIdsOf e ↔
      ∃ timeline time, cid ∈ (s.at (.entity e timeline)).startIds time := by
  rw [temporalIdsOf, mem_sortedIds, List.mem_flatMap]
  simp only [OrdMap.mem_values, OrdMap.mem_flatMap_values]
  constructor
  · rintro ⟨p, ⟨timeline, hp⟩, time, hx⟩
    refine ⟨timeline, time, ?_⟩
    have hp : (s.temporalChunkIdsPerEntity.getD e default)[timeline]? = some p := hp
    rwa [«at», TreeMap.getD_eq_getD_getElem?, hp]
  · rintro ⟨timeline, time, hx⟩
    rw [«at», TreeMap.getD_eq_getD_getElem?] at hx
    cases hp : (s.temporalChunkIdsPerEntity.getD e default)[timeline]? with
    | none => simp [hp] at hx
    | some p =>
      rw [hp] at hx
      exact ⟨p, ⟨timeline, hp⟩, time, hx⟩

theorem forgetMinRowId_eq (s : ChunkStore) (cid : ChunkId) :
    ∃ minRowIds, s.forgetMinRowId cid = { s with physicalChunkIdsPerMinRowId := minRowIds } := by
  unfold forgetMinRowId
  split <;> exact ⟨_, rfl⟩

theorem forgetMinRowIds_eq (s : ChunkStore) (ids : List ChunkId) :
    ∃ minRowIds, ids.foldl forgetMinRowId s =
      { s with physicalChunkIdsPerMinRowId := minRowIds } := by
  induction ids generalizing s with
  | nil => exact ⟨_, rfl⟩
  | cons cid rest ih =>
    obtain ⟨ids', h⟩ := ih (s.forgetMinRowId cid)
    obtain ⟨_, h'⟩ := forgetMinRowId_eq s cid
    exact ⟨ids', by rw [List.foldl_cons, h, h']⟩

/-- What a subtraction of statistics may change. -/
def OnlyStats (sub : ChunkStore → Chunk → ChunkStore) : Prop :=
  ∀ s c, SameIndices s (sub s c) ∧
    (sub s c).physicalChunksPerChunkId = s.physicalChunksPerChunkId ∧
    (sub s c).physicalChunkIdsPerMinRowId = s.physicalChunkIdsPerMinRowId

theorem onlyStats_temporal : OnlyStats fun s c => s.subTemporalStats (.fromChunk env c) :=
  fun _ _ => ⟨⟨⟨rfl, rfl, rfl, rfl, rfl, rfl, rfl⟩, rfl, rfl, rfl⟩, rfl, rfl⟩

theorem onlyStats_static : OnlyStats fun s c => s.subStaticStats (.fromChunk env c) :=
  fun _ _ => ⟨⟨⟨rfl, rfl, rfl, rfl, rfl, rfl, rfl⟩, rfl, rfl, rfl⟩, rfl, rfl⟩

theorem dropPhysical_sameIndices (hs : OnlyStats sub) (s : ChunkStore) (ids : List ChunkId) :
    SameIndices s (s.dropPhysical sub ids).1 := by
  induction ids generalizing s with
  | nil => exact .refl s
  | cons cid rest ih =>
    rw [dropPhysical]
    split
    · exact ih s
    · rename_i c _
      have he : SameIndices s
          { s with physicalChunksPerChunkId := s.physicalChunksPerChunkId.erase cid } :=
        ⟨⟨rfl, rfl, rfl, rfl, rfl, rfl, rfl⟩, rfl, rfl, rfl⟩
      exact (he.trans (hs _ c).1).trans (ih _)

theorem dropPhysical_physical (hs : OnlyStats sub) (s : ChunkStore) (ids : List ChunkId)
    (key : ChunkId) :
    (s.dropPhysical sub ids).1.physicalChunksPerChunkId[key]? =
      if key ∈ ids then none else s.physicalChunksPerChunkId[key]? := by
  induction ids generalizing s with
  | nil => rfl
  | cons cid rest ih =>
    rw [dropPhysical]
    split
    · rename_i hn
      rw [ih]
      by_cases hk : key = cid
      · subst hk
        simp [hn]
      · simp [hk]
    · rw [ih, (hs _ _).2.1, OrdMap.getElem?_erase]
      by_cases hk : key = cid
      · subst hk
        simp
      · simp [hk, Ne.symm hk]

theorem mem_dropPhysical {s : ChunkStore} (hs : OnlyStats sub) (hk : s.Keyed)
    (ids : List ChunkId) (key : ChunkId) :
    key ∈ (s.dropPhysical sub ids).2.map (·.id) ↔
      key ∈ ids ∧ s.physicalChunksPerChunkId[key]? ≠ none := by
  induction ids generalizing s with
  | nil => simp [dropPhysical]
  | cons cid rest ih =>
    rw [dropPhysical]
    split
    · rename_i hn
      rw [ih hk]
      by_cases hkey : key = cid
      · subst hkey
        simp [hn]
      · simp [hkey]
    · rename_i c hc
      have hk' : (sub { s with
          physicalChunksPerChunkId := s.physicalChunksPerChunkId.erase cid } c).Keyed := by
        intro key d hd
        rw [(hs _ _).2.1, OrdMap.getElem?_erase] at hd
        split at hd
        · cases hd
        · exact hk hd
      simp only [List.map_cons, List.mem_cons, ih hk', (hs _ _).2.1, OrdMap.getElem?_erase, hk hc]
      by_cases hkey : key = cid
      · subst hkey
        simp [hc]
      · simp [hkey, Ne.symm hkey]

theorem dropPhysicals_sameIndices (s : ChunkStore) (ids ids' : List ChunkId) :
    SameIndices s
      ((s.dropPhysical (fun s c => s.subStaticStats (.fromChunk env c)) ids).1.dropPhysical
        (fun s c => s.subTemporalStats (.fromChunk env c)) ids').1 :=
  (dropPhysical_sameIndices onlyStats_static s ids).trans
    (dropPhysical_sameIndices onlyStats_temporal _ ids')

theorem dropEntityPath_eq (env : Env) (s : ChunkStore) (e : EntityPath) :
    ∃ minRowIds, ∀ s0, s0 = { s.eraseEntity e with physicalChunkIdsPerMinRowId := minRowIds } →
      (s.dropEntityPath env e).1 =
        ((s0.dropPhysical (fun s c => s.subStaticStats (.fromChunk env c)) (s.staticIdsOf e)).1
          |>.dropPhysical (fun s c => s.subTemporalStats (.fromChunk env c)) (s.temporalIdsOf e)).1 ∧
      (s.dropEntityPath env e).2 =
        ((s0.dropPhysical (fun s c => s.subStaticStats (.fromChunk env c)) (s.staticIdsOf e)).2 ++
          ((s0.dropPhysical (fun s c => s.subStaticStats (.fromChunk env c)) (s.staticIdsOf e)).1
            |>.dropPhysical (fun s c => s.subTemporalStats (.fromChunk env c))
              (s.temporalIdsOf e)).2).map fun c => .deletion ⟨c, .explicitDrop⟩ := by
  obtain ⟨minRowIds, h⟩ := forgetMinRowIds_eq (s.eraseEntity e) (s.staticIdsOf e ++ s.temporalIdsOf e)
  rw [List.foldl_append] at h
  refine ⟨minRowIds, fun s0 h0 => ?_⟩
  subst h0
  rw [← h]
  exact ⟨rfl, rfl⟩

theorem dropEntityPath_sameErased (env : Env) (s : ChunkStore) (e : EntityPath) :
    SameIndices (s.eraseEntity e) (s.dropEntityPath env e).1 := by
  obtain ⟨minRowIds, h⟩ := dropEntityPath_eq env s e
  rw [(h _ rfl).1]
  have h0 : SameIndices (s.eraseEntity e)
      { s.eraseEntity e with physicalChunkIdsPerMinRowId := minRowIds } :=
    ⟨⟨rfl, rfl, rfl, rfl, rfl, rfl, rfl⟩, rfl, rfl, rfl⟩
  exact h0.trans (dropPhysicals_sameIndices _ _ _)

theorem dropEntityPath_sameLineage (env : Env) (s : ChunkStore) (e : EntityPath) :
    SameLineage s (s.dropEntityPath env e).1 := by
  have h0 : SameLineage s (s.eraseEntity e) := ⟨rfl, rfl, rfl, rfl, rfl, rfl, rfl⟩
  exact h0.trans (dropEntityPath_sameErased _ s e).toSameLineage

theorem dropEntityPath_physical (env : Env) (s : ChunkStore) (e : EntityPath) (key : ChunkId) :
    (s.dropEntityPath env e).1.physicalChunksPerChunkId[key]? =
      if key ∈ s.staticIdsOf e ∨ key ∈ s.temporalIdsOf e then none
      else s.physicalChunksPerChunkId[key]? := by
  obtain ⟨minRowIds, h⟩ := dropEntityPath_eq env s e
  rw [(h _ rfl).1, dropPhysical_physical onlyStats_temporal,
    dropPhysical_physical onlyStats_static]
  by_cases hs : key ∈ s.staticIdsOf e <;> by_cases ht : key ∈ s.temporalIdsOf e <;>
    simp [hs, ht, eraseEntity]

theorem dropEntityPath_physicalSub (env : Env) (s : ChunkStore) (e : EntityPath) :
    PhysicalSub s (s.dropEntityPath env e).1 := by
  intro key
  rw [dropEntityPath_physical _]
  split
  · exact .inr rfl
  · exact .inl rfl

theorem at_dropEntityPath (s : ChunkStore) (e : EntityPath) (slot : Slot) :
    (s.dropEntityPath env e).1.at slot =
      if e = slot.entityPath then default else s.at slot := by
  rw [(dropEntityPath_sameErased _ s e).at_eq]
  by_cases h : e = slot.entityPath
  · rw [if_pos h]
    subst h
    cases slot <;> simp only [«at», eraseEntity, OrdMap.getD_erase, Slot.entityPath] <;> rfl
  · rw [if_neg h]
    cases slot <;> rw [Slot.entityPath] at h <;>
      simp only [«at», eraseEntity, OrdMap.getD_erase, if_neg h]

theorem staticChunkId?_dropEntityPath (s : ChunkStore) (e e' : EntityPath)
    (component : ComponentIdentifier) :
    (s.dropEntityPath env e).1.staticChunkId? e' component =
      if e = e' then none else s.staticChunkId? e' component := by
  rw [staticChunkId?, (dropEntityPath_sameErased _ s e).staticIds]
  simp only [eraseEntity, OrdMap.getD_erase, staticChunkId?]
  by_cases h : e = e' <;> simp [h]

theorem mem_dropEntityPath_deletions (env : Env) {s : ChunkStore} (hk : s.Keyed) (e : EntityPath) :
    ∃ chunks : List Chunk, (s.dropEntityPath env e).2 =
        chunks.map (fun c => .deletion ⟨c, .explicitDrop⟩) ∧
      ∀ key, key ∈ chunks.map (·.id) ↔
        (key ∈ s.staticIdsOf e ∨ key ∈ s.temporalIdsOf e) ∧
          s.physicalChunksPerChunkId[key]? ≠ none := by
  obtain ⟨minRowIds, h⟩ := dropEntityPath_eq env s e
  refine ⟨_, (h _ rfl).2, fun key => ?_⟩
  have hk0 : Keyed { s.eraseEntity e with physicalChunkIdsPerMinRowId := minRowIds } := hk
  have hk' : ({ s.eraseEntity e with physicalChunkIdsPerMinRowId := minRowIds }.dropPhysical
      (fun s c => s.subStaticStats (.fromChunk env c)) (s.staticIdsOf e)).1.Keyed := by
    intro key c hc
    rw [dropPhysical_physical onlyStats_static] at hc
    split at hc
    · cases hc
    · exact hk hc
  rw [List.map_append, List.mem_append, mem_dropPhysical onlyStats_static hk0,
    mem_dropPhysical onlyStats_temporal hk', dropPhysical_physical onlyStats_static]
  by_cases hs : key ∈ s.staticIdsOf e <;> simp [hs, eraseEntity]

-- ---------------------------------------------------------------------------
-- Election
-- ---------------------------------------------------------------------------

theorem candidatePoints_pos_of_foldl {s : ChunkStore} {c : Chunk} {cid : ChunkId}
    (l : List (ChunkId × Nat)) (points : TreeMap ChunkId Nat)
    (hp : 0 < points.getD cid 0 → 0 < s.candidatePoints env c cid)
    (h : 0 < (l.foldl (fun points (id, weight) =>
      OrdMap.upsert points id (· + s.candidatePoints env c id * weight)) points).getD cid 0) :
    0 < s.candidatePoints env c cid := by
  induction l generalizing points with
  | nil => exact hp h
  | cons entry rest ih =>
    refine ih _ ?_ h
    intro hpos
    have hd := OrdMap.getD_upsert points entry.1 cid
      (· + s.candidatePoints env c entry.1 * entry.2)
    have hdef : (default : Nat) = 0 := rfl
    rw [hdef] at hd
    rw [hd] at hpos
    split at hpos
    · rename_i he
      rw [he] at hpos
      rcases Nat.eq_zero_or_pos (s.candidatePoints env c cid) with hz | hz
      · rw [hz, Nat.zero_mul, Nat.add_zero] at hpos
        exact hp hpos
      · exact hz
    · exact hp hpos

theorem candidatePoints_pos_of_candidates {s : ChunkStore} {c : Chunk} {cid : ChunkId}
    (h : 0 < (s.candidates env c).getD cid 0) : 0 < s.candidatePoints env c cid :=
  candidatePoints_pos_of_foldl _ ∅ (fun h => by simp at h) h

theorem candidatePoints_pos {s : ChunkStore} {c : Chunk} {cid : ChunkId}
    (h : 0 < s.candidatePoints env c cid) :
    ∃ candidate, s.physicalChunksPerChunkId[cid]? = some candidate ∧ c.id ≠ cid ∧
      c.concatenable candidate = true ∧ s.descendsFromASplit cid = false := by
  unfold candidatePoints at h
  split at h
  · cases h
  rename_i candidate hc
  split at h
  · cases h
  rename_i hne
  split at h
  · cases h
  rename_i hcat
  split at h
  · cases h
  rename_i hsplit
  exact ⟨candidate, hc, hne, by simpa using hcat, by simpa using hsplit⟩

structure Elects (s : ChunkStore) (c elected : Chunk) : Prop where
  physical : s.physicalChunksPerChunkId[elected.id]? = some elected
  ne : c.id ≠ elected.id
  concatenable : c.concatenable elected = true
  notSplit : s.descendsFromASplit c.id = false
  notSplit' : s.descendsFromASplit elected.id = false

theorem elects_of_elected {s : ChunkStore} {c elected : Chunk} (hk : s.Keyed)
    (h : s.findAndElectCompactionCandidate env c = some elected) : s.Elects c elected := by
  unfold findAndElectCompactionCandidate at h
  split at h
  · cases h
  rename_i hsplit
  split at h
  · cases h
  obtain ⟨⟨cid, points⟩, hm, hf⟩ := List.exists_of_findSome?_eq_some h
  obtain ⟨hm, hpos⟩ := List.mem_filter.mp hm
  rw [List.mem_reverse, List.mem_insertionSort] at hm
  obtain ⟨_, -, he⟩ := List.mem_map.mp hm
  cases he
  obtain ⟨candidate, hc, hne, hcat, hsplit'⟩ :=
    candidatePoints_pos (candidatePoints_pos_of_candidates (of_decide_eq_true hpos))
  obtain rfl := Option.some.inj (hf.symm.trans hc)
  obtain rfl := hk hf
  exact ⟨hf, hne, hcat, by simpa using hsplit, hsplit'⟩

theorem Elects.isStatic_eq {s : ChunkStore} {c elected : Chunk} (h : s.Elects c elected) :
    elected.isStatic = c.isStatic := by
  have hc := h.concatenable
  simp only [Chunk.concatenable, Bool.and_eq_true] at hc
  have hl := Chunk.length_timelines_eq hc.1.2
  rw [Bool.eq_iff_iff, Chunk.isStatic, Chunk.isStatic, List.isEmpty_iff_length_eq_zero,
    List.isEmpty_iff_length_eq_zero, hl]

theorem Elects.entityPath_eq {s : ChunkStore} {c elected : Chunk} (h : s.Elects c elected) :
    elected.entityPath = c.entityPath := by
  have hc := h.concatenable
  simp only [Chunk.concatenable, Bool.and_eq_true, Chunk.sameEntityPaths,
    decide_eq_true_iff] at hc
  exact hc.1.1.symm

-- ---------------------------------------------------------------------------
-- Announcements
-- ---------------------------------------------------------------------------

theorem staticChunkId?_announceStatic (s : ChunkStore) (e e' : EntityPath)
    (component component' : ComponentIdentifier) (cid : ChunkId) :
    (s.announceStatic (e, component, cid)).staticChunkId? e' component' =
      if e = e' ∧ component = component' then some cid else s.staticChunkId? e' component' :=
  staticChunkId?_upsert s e e' component component' cid

theorem at_announceTemporal (s : ChunkStore) (e : EntityPath) (timeline : Timeline)
    (component : ComponentIdentifier) (cid : ChunkId) (entry : RrdManifestTemporalMapEntry)
    (slot : Slot) :
    (s.announceTemporal (e, timeline, component, cid, entry)).at slot =
      if slot = .component e timeline.name component ∨ slot = .entity e timeline.name then
        (s.at slot).insertRange cid entry.timeRange
      else s.at slot := by
  cases slot with
  | component e' name component' =>
    simp only [announceTemporal, «at», Slot.component.injEq, reduceCtorEq, or_false,
      OrdMap.getD_upsert]
    by_cases he : e = e'
    · by_cases hn : timeline.name = name
      · by_cases hc : component = component'
        · simp [he, hn, hc, OrdMap.getD_upsert]
        · simp [he, hn, hc, Ne.symm hc, OrdMap.getD_upsert]
      · simp [he, hn, Ne.symm hn, OrdMap.getD_upsert]
    · simp [he, Ne.symm he]
  | entity e' name =>
    simp only [announceTemporal, «at», Slot.entity.injEq, reduceCtorEq, false_or,
      OrdMap.getD_upsert]
    by_cases he : e = e'
    · by_cases hn : timeline.name = name
      · simp [he, hn, OrdMap.getD_upsert]
      · simp [he, hn, Ne.symm hn, OrdMap.getD_upsert]
    · simp [he, Ne.symm he]

-- ---------------------------------------------------------------------------
-- Compactions
-- ---------------------------------------------------------------------------

theorem sweepIndices_deletions_sublist (s : ChunkStore) (reason : ChunkDeletionReason)
    (chunks : List Chunk) : ((s.sweepIndices reason chunks).2.map (·.chunk)).Sublist chunks := by
  induction chunks generalizing s with
  | nil => exact .slnil
  | cons c rest ih =>
    rw [sweepIndices]
    dsimp only
    split
    · exact (ih _).cons_cons c
    · exact (ih _).cons c

theorem mem_compactionSources {s : ChunkStore} {c elected : Chunk} {reason : ChunkDeletionReason}
    (h : (compactionSources c (s.sweepIndices reason [elected]).2)[key]? = some d) :
    key = c.id ∧ d = c ∨ key = elected.id ∧ d = elected := by
  have hs := sweepIndices_deletions_sublist s reason [elected]
  generalize (s.sweepIndices reason [elected]).2 = deletions at h hs
  rcases deletions with _ | ⟨deletion, rest⟩
  · rw [compactionSources, List.foldl_nil, OrdMap.getElem?_insert] at h
    split at h
    · cases h
      rename_i hk
      exact .inl ⟨hk.symm, rfl⟩
    · simp at h
  · have hl := hs.length_le
    simp only [List.map_cons, List.length_cons, List.length_map, List.length_nil] at hl
    obtain rfl := List.eq_nil_of_length_eq_zero (by omega : rest.length = 0)
    have hm : deletion.chunk ∈ [elected] := hs.subset (by simp)
    rw [List.mem_singleton] at hm
    rw [compactionSources, List.foldl_cons, List.foldl_nil, OrdMap.getElem?_insert,
      OrdMap.getElem?_insert, hm] at h
    split at h
    · cases h
      rename_i hk
      exact .inr ⟨hk.symm, rfl⟩
    · split at h
      · cases h
        rename_i hk
        exact .inl ⟨hk.symm, rfl⟩
      · simp at h

theorem getElem?_foldl_insert (m : TreeMap ChunkId ChunkId) (keys : List ChunkId)
    (value key : ChunkId) :
    (keys.foldl (·.insert · value) m)[key]? = if key ∈ keys then some value else m[key]? := by
  induction keys generalizing m with
  | nil => rfl
  | cons k rest ih =>
    rw [List.foldl_cons, ih, OrdMap.getElem?_insert]
    by_cases hk : k = key
    · simp [hk]
    · simp [hk, Ne.symm hk]

theorem at_insertPhysical (s : ChunkStore) (c : Chunk) (slot : Slot) :
    (s.insertPhysical c).at slot = s.at slot := by cases slot <;> rfl

theorem insertPhysical_physical (s : ChunkStore) (c : Chunk) (key : ChunkId) :
    (s.insertPhysical c).physicalChunksPerChunkId[key]? =
      if c.id = key then some c else s.physicalChunksPerChunkId[key]? :=
  OrdMap.getElem?_insert _ _ _ _

theorem replaceElected_sameLineage (env : Env) (s : ChunkStore) (elected compacted : Chunk) :
    SameLineage s (s.replaceElected env elected compacted).1 := by
  have h : SameLineage s (s.insertIntoIndices env compacted) :=
    ⟨rfl, rfl, rfl, rfl, rfl, rfl, rfl⟩
  exact h.trans (removeChunksDeep_sameLineage _ _ _ _ _)

theorem replaceElected_physical (env : Env) (s : ChunkStore) (elected compacted : Chunk) (key : ChunkId) :
    (s.replaceElected env elected compacted).1.physicalChunksPerChunkId[key]? =
      if key = elected.id then none else s.physicalChunksPerChunkId[key]? := by
  have h := removeChunksShallow_unlimited env .compaction
    (s.insertIntoIndices env compacted) [elected] key
  have h' := sweepIndices_samePhysical .compaction
    ((s.insertIntoIndices env compacted).removeChunksShallow env .compaction unlimited
      [elected]).1 [elected]
  rw [replaceElected, removeChunksDeep, h'.physical, h]
  simp [insertIntoIndices]

theorem replaceElected_staticIds (s : ChunkStore) (elected compacted : Chunk) :
    (s.replaceElected env elected compacted).1.staticChunkIdsPerEntity =
      s.staticChunkIdsPerEntity := by
  rw [replaceElected, removeChunksDeep_staticIds _ _]
  rfl

def sourcesOf (env : Env) (s : ChunkStore) (c elected compacted : Chunk) : TreeMap ChunkId Chunk :=
  compactionSources c (s.replaceElected env elected compacted).2

theorem compactInto_eq (s : ChunkStore) (c elected compacted : Chunk) :
    s.compactInto env c elected compacted =
      ((s.replaceElected env elected compacted).1.recordCompaction
        (s.sourcesOf env c elected compacted) compacted.id,
        .addition ⟨c, compacted, .compactedFrom (s.sourcesOf env c elected compacted)⟩) := rfl

theorem mem_sourcesOf {s : ChunkStore} {c elected compacted : Chunk}
    (h : key ∈ (s.sourcesOf env c elected compacted).keys) : key = c.id ∨ key = elected.id := by
  rw [TreeMap.mem_keys, TreeMap.mem_iff_isSome_getElem?, Option.isSome_iff_exists] at h
  obtain ⟨d, hd⟩ := h
  exact (mem_compactionSources hd).imp And.left And.left

theorem id_mem_sourcesOf (s : ChunkStore) (c elected compacted : Chunk) :
    c.id ∈ (s.sourcesOf env c elected compacted).keys := by
  have key : ∀ (deletions : List ChunkStoreDiffDeletion) (srcs : TreeMap ChunkId Chunk),
      c.id ∈ srcs → c.id ∈ deletions.foldl
        (fun srcs deletion => srcs.insert deletion.chunk.id deletion.chunk) srcs := by
    intro deletions
    induction deletions with
    | nil => exact fun _ h => h
    | cons deletion rest ih =>
      intro srcs h
      exact ih _ (TreeMap.mem_insert.mpr (.inr h))
  exact TreeMap.mem_keys.mpr (key _ _ TreeMap.mem_insert_self)

theorem compactInto_leaky (s : ChunkStore) (c elected compacted : Chunk) (key : ChunkId) :
    (s.compactInto env c elected compacted).1.leakyCompactions[key]? =
      if key ∈ (s.sourcesOf env c elected compacted).keys then some compacted.id
      else s.leakyCompactions[key]? := by
  rw [compactInto_eq, recordCompaction, getElem?_foldl_insert,
    (replaceElected_sameLineage _ s elected compacted).leakyCompactions]

theorem compactInto_lineage (s : ChunkStore) (c elected compacted : Chunk) (key : ChunkId) :
    (s.compactInto env c elected compacted).1.chunksLineage[key]? =
      if compacted.id = key then
        some (.compactedFrom (s.sourcesOf env c elected compacted).keys)
      else s.chunksLineage[key]? := by
  rw [compactInto_eq, recordCompaction, OrdMap.getElem?_insert,
    (replaceElected_sameLineage _ s elected compacted).lineage]

end ChunkStore

end DimosViewer
