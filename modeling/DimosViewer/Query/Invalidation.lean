import DimosViewer.Query.LatestRows
import DimosViewer.Query.LoggedRows
import DimosViewer.Store.Replay

/-!
# What the events invalidate

The store tells the caches of every chunk that it adds or deletes. A cache gives up what it knows
from the first row of the chunk on, and keeps what is older.
-/

namespace DimosViewer

open Grouping
open Reach (Reachable Trace)
open Std (TreeMap TreeSet)

variable {e : EntityPath} {component : ComponentIdentifier}

-- ---------------------------------------------------------------------------
-- Deletions
-- ---------------------------------------------------------------------------

namespace ChunkStore

variable {env : Env} {pol : Policy} {s s' : ChunkStore} {c : Chunk} {key : ChunkId}

theorem removeChunksShallow_kept (reason : ChunkDeletionReason) (exhausted : Nat → Bool)
    (chunks : List Chunk) (hc : s.physicalChunksPerChunkId[key]? = some c) :
    (s.removeChunksShallow env reason exhausted chunks).1.physicalChunksPerChunkId[key]? = some c ∨
      ⟨c, reason⟩ ∈ (s.removeChunksShallow env reason exhausted chunks).2 := by
  induction chunks generalizing s exhausted with
  | nil => exact .inl hc
  | cons d rest ih =>
    have hp := removeShallow_physical env reason s d key
    have hd := removeShallow_deletion env reason s d
    rw [removeChunksShallow]
    generalize s.removeShallow env reason d = removed at hp hd
    obtain ⟨s1, deletion⟩ := removed
    dsimp only at hp hd
    by_cases hid : d.id = key
    · rw [hid, hc, Option.map_some] at hd
      subst hd
      refine .inr ?_
      dsimp only
      split
      · exact List.mem_singleton_self _
      · exact List.mem_cons_self
    · rw [if_neg hid, hc] at hp
      cases deletion with
      | none => exact ih _ hp
      | some deletion =>
        dsimp only
        split
        · exact .inl hp
        · exact (ih _ hp).imp_right (List.mem_cons_of_mem _)

theorem removeChunksDeep_kept (hcore : Core env pol s) (hf : s.Findable) {chunks : List Chunk}
    (hp : ∀ d ∈ chunks, s.Physical d) (hst : ∀ d ∈ chunks, d.isStatic = false)
    (reason : ChunkDeletionReason) (exhausted : Nat → Bool)
    (hc : s.physicalChunksPerChunkId[key]? = some c) :
    (s.removeChunksDeep env reason exhausted chunks).1.physicalChunksPerChunkId[key]? = some c ∨
      ⟨c, reason⟩ ∈ (s.removeChunksDeep env reason exhausted chunks).2 := by
  rw [removeChunksDeep_deletions hf hcore hp hst, removeChunksDeep,
    (sweepIndices_samePhysical reason _ chunks).physical]
  rcases removeChunksShallow_physical env reason s exhausted chunks key with he | ⟨-, hm⟩
  · exact .inl (he.trans hc)
  · obtain ⟨d, hd, rfl⟩ := List.mem_map.mp hm
    obtain rfl := Option.some.inj ((hp d hd).symm.trans hc)
    exact .inr (List.mem_map.mpr ⟨d, hd, rfl⟩)

theorem dropPhysical_kept {sub : ChunkStore → Chunk → ChunkStore} (hs : OnlyStats sub)
    (ids : List ChunkId) (hc : s.physicalChunksPerChunkId[key]? = some c) :
    (s.dropPhysical sub ids).1.physicalChunksPerChunkId[key]? = some c ∨
      c ∈ (s.dropPhysical sub ids).2 := by
  induction ids generalizing s with
  | nil => exact .inl hc
  | cons cid rest ih =>
    rw [dropPhysical]
    split
    · exact ih hc
    · rename_i d hd
      by_cases hid : cid = key
      · subst hid
        obtain rfl := Option.some.inj (hc.symm.trans hd)
        exact .inr List.mem_cons_self
      · refine (ih ?_).imp_right (List.mem_cons_of_mem _)
        rw [(hs _ _).2.1, OrdMap.getElem?_erase, if_neg hid]
        exact hc

theorem dropEntityPath_kept (env : Env) (e : EntityPath)
    (hc : s.physicalChunksPerChunkId[key]? = some c) :
    (s.dropEntityPath env e).1.physicalChunksPerChunkId[key]? = some c ∨
      .deletion ⟨c, .explicitDrop⟩ ∈ (s.dropEntityPath env e).2 := by
  obtain ⟨minRowIds, h⟩ := dropEntityPath_eq env s e
  obtain ⟨he, hdiffs⟩ := h _ rfl
  rw [he, hdiffs]
  have hc0 : { s.eraseEntity e with
      physicalChunkIdsPerMinRowId := minRowIds }.physicalChunksPerChunkId[key]? = some c := hc
  rcases dropPhysical_kept (@onlyStats_static env) (s.staticIdsOf e) hc0 with hc1 | hm
  · have hkept := dropPhysical_kept (@onlyStats_temporal env) (s.temporalIdsOf e) hc1
    exact hkept.imp_right fun hm => List.mem_map.mpr ⟨c, List.mem_append_right _ hm, rfl⟩
  · exact .inr (List.mem_map.mpr ⟨c, List.mem_append_left _ hm, rfl⟩)

def OnlyDeletes (diffs : List ChunkStoreDiff) : Prop :=
  ∀ add, ChunkStoreDiff.addition add ∉ diffs

theorem Step.kept (hcore : Core env pol s) (hf : s.Findable) (hu : pol.unique)
    (hs : Step env pol s diffs s') (hd : OnlyDeletes diffs)
    (hc : s.physicalChunksPerChunkId[key]? = some c) :
    s'.physicalChunksPerChunkId[key]? = some c ∨ ∃ reason, .deletion ⟨c, reason⟩ ∈ diffs := by
  have hdeletion {reason : ChunkDeletionReason} {deletions : List ChunkStoreDiffDeletion}
      (hm : ⟨c, reason⟩ ∈ deletions) :
      ∃ reason, .deletion ⟨c, reason⟩ ∈ deletions.map ChunkStoreDiff.deletion :=
    ⟨reason, List.mem_map_of_mem hm⟩
  cases hs with
  | draw _ | nextInsert | forgetSplit _ | recordSplit _ _ _ | recordLineage _ _
  | announceStatic _ _ | announceTemporal _ _ | announced _ => exact .inl hc
  | @replaceVirtual d reason hw hp =>
    refine .inl ?_
    rw [removeChunksDeep, (sweepIndices_samePhysical reason _ [d]).physical,
      removeChunksShallow_unlimited, if_neg]
    · exact hc
    · intro hm
      rw [List.mem_singleton.mp hm, hp] at hc
      cases hc
  | store hc' _ hp _ _ hst =>
    cases hst with
    | @static lineage _ _ =>
      obtain ⟨deletions, he, -⟩ := storeStatic_deletes env hcore.keyed _ lineage
      rw [he] at hd
      exact (hd _ List.mem_cons_self).elim
    | asIs _ _ _ => exact (hd _ (List.mem_singleton_self _)).elim
    | compacted _ => exact (hd _ (List.mem_singleton_self _)).elim
  | removeShallow reason exhausted _ _ =>
    exact (removeChunksShallow_kept reason exhausted _ hc).imp_right hdeletion
  | removeDeep reason hp hst =>
    exact (removeChunksDeep_kept hcore hf hp (hst hu) reason _ hc).imp_right hdeletion
  | sweep reason hp hst _ =>
    exact (removeChunksDeep_kept hcore hf hp hst reason _ hc).imp_right hdeletion
  | dropEntityPath e => exact (dropEntityPath_kept env e hc).imp_right fun hm => ⟨_, hm⟩

theorem kept_of_trace (hu : pol.unique)
    (hpol : ∀ {exhausted chunks}, pol.sweep exhausted chunks → Uncut exhausted chunks)
    (hcore : Core env pol s) (hf : s.Findable) (ht : Trace (Step env pol) s diffs s')
    (hd : OnlyDeletes diffs) (hc : s.physicalChunksPerChunkId[key]? = some c) :
    s'.physicalChunksPerChunkId[key]? = some c ∨ ∃ reason, .deletion ⟨c, reason⟩ ∈ diffs := by
  suffices h : (Core env pol s' ∧ s'.Findable) ∧ (s'.physicalChunksPerChunkId[key]? = some c ∨
      ∃ reason, .deletion ⟨c, reason⟩ ∈ diffs) from h.2
  induction ht with
  | refl => exact ⟨⟨hcore, hf⟩, .inl hc⟩
  | @tail es s1 es' s2 _ hs ih =>
    obtain ⟨⟨hcore1, hf1⟩, hkept⟩ := ih fun add hm => hd add (List.mem_append_left _ hm)
    refine ⟨⟨hs.core hcore1, hs.findable hcore1 hpol hf1⟩, ?_⟩
    rcases hkept with hc1 | ⟨reason, hm⟩
    · rcases hs.kept hcore1 hf1 hu (fun add hm => hd add (List.mem_append_right _ hm)) hc1 with
        hc2 | ⟨reason, hm⟩
      · exact .inl hc2
      · exact .inr ⟨reason, List.mem_append_right _ hm⟩
    · exact .inr ⟨reason, List.mem_append_left _ hm⟩

-- ---------------------------------------------------------------------------
-- What is reported
-- ---------------------------------------------------------------------------

def TellsStatic (diffs : List ChunkStoreDiff) (e : EntityPath) (component : ComponentIdentifier) :
    Prop :=
  ∃ add, .addition add ∈ diffs ∧ add.chunkBeforeProcessing.isStatic = true ∧
    add.chunkAfterProcessing.entityPath = e ∧
      ∃ column ∈ add.chunkAfterProcessing.components, column.component = component

theorem Step.static (hno : ∀ archive entry, ¬ pol.announceStatic archive entry)
    (hcore : Core env pol s) (hs : Step env pol s diffs s')
    (h : (s'.staticChunkId? e component).isSome) :
    (s.staticChunkId? e component).isSome ∨ TellsStatic diffs e component := by
  have hsame (he : s'.staticChunkIdsPerEntity = s.staticChunkIdsPerEntity) :
      (s.staticChunkId? e component).isSome ∨ TellsStatic diffs e component := by
    rw [staticChunkId?, he] at h
    exact .inl h
  cases hs with
  | draw _ | nextInsert | forgetSplit _ | recordSplit _ _ _ | recordLineage _ _
  | announceTemporal _ _ | announced _ => exact hsame rfl
  | announceStatic _ ha => exact (hno _ _ ha).elim
  | replaceVirtual _ _ _ | removeDeep _ _ _ | sweep _ _ _ _ =>
    exact hsame (removeChunksDeep_staticIds _ _ _ _ _)
  | removeShallow _ _ _ _ => exact hsame (removeChunksShallow_sameIndices _ _ _ _ _).staticIds
  | @store _ c _ hc _ _ _ _ hst =>
    cases hst with
    | @static lineage hst _ =>
      obtain ⟨deletions, he, -⟩ := storeStatic_deletes env hcore.keyed c lineage
      have h : ((s.storeStatic env c lineage).1.staticChunkId? e component).isSome := h
      rw [storeStatic_staticChunkId?] at h
      rcases overwriteComponents_staticChunkId? c c.components hc.wellFormed.components_nodup
        (s, ∅) e component with ⟨-, he', column, hm, hcolumn, -⟩ | ⟨hx, -⟩
      · exact .inr ⟨_, he ▸ List.mem_cons_self, hst, he', column, hm, hcolumn⟩
      · exact .inl (hx ▸ h)
    | asIs _ _ _ => exact hsame rfl
    | @compacted n elected compacted _ =>
      refine hsame ?_
      rw [compactInto_eq]
      exact replaceElected_staticIds { s with issued := n } elected compacted
  | dropEntityPath e' =>
    rw [staticChunkId?_dropEntityPath] at h
    split at h
    · cases h
    · exact .inl h

theorem static_of_trace (hno : ∀ archive entry, ¬ pol.announceStatic archive entry)
    (hcore : Core env pol s) (ht : Trace (Step env pol) s diffs s')
    (h : (s'.staticChunkId? e component).isSome) :
    (s.staticChunkId? e component).isSome ∨ TellsStatic diffs e component := by
  induction ht with
  | refl => exact .inl h
  | @tail es s1 es' s2 ht hs ih =>
    have hcore1 := ht.invariant (fun _ _ _ hs ht => ht.core hs) hcore
    rcases hs.static hno hcore1 h with h | ⟨add, hm, htells⟩
    · exact (ih h).imp_right fun ⟨add, hm, htells⟩ => ⟨add, List.mem_append_left _ hm, htells⟩
    · exact .inr ⟨add, List.mem_append_right _ hm, htells⟩

def TellsRow (diffs : List ChunkStoreDiff) (e : EntityPath) (row : RowData) : Prop :=
  ∃ diff ∈ diffs, ∃ c, diff.touched? = some c ∧ c.WellFormed ∧ c.isStatic = false ∧
    c.entityPath = e ∧ row ∈ c.rows

/-- Every row that comes or goes is reported, and every component that becomes static. -/
structure Reports (s s' : ChunkStore) (diffs : List ChunkStoreDiff) : Prop where
  rows : ∀ e row, ((e, row) ∈ s.rowLog ↔ (e, row) ∈ s'.rowLog) ∨ TellsRow diffs e row
  static : ∀ e component, (s'.staticChunkId? e component).isSome →
    (s.staticChunkId? e component).isSome ∨ TellsStatic diffs e component

theorem tellsRow_of_lost (hu : pol.unique)
    (hpol : ∀ {exhausted chunks}, pol.sweep exhausted chunks → Uncut exhausted chunks)
    (hcore : Core env pol s) (hf : s.Findable) (ht : Trace (Step env pol) s diffs s')
    (hd : OnlyDeletes diffs) {row : RowData} (hrow : (e, row) ∈ s.rowLog)
    (hnot : (e, row) ∉ s'.rowLog) : TellsRow diffs e row := by
  obtain ⟨c, hphys, he, hst, hmem⟩ := (mem_rowLog hcore).mp hrow
  have hcore' := ht.invariant (fun _ _ _ hs ht => ht.core hs) hcore
  rcases kept_of_trace hu hpol hcore hf ht hd hphys with hkept | ⟨reason, hm⟩
  · exact absurd ((mem_rowLog hcore').mpr ⟨c, hkept, he, hst, hmem⟩) hnot
  · exact ⟨_, hm, c, rfl, (hcore.storable hphys).wellFormed, hst, he, hmem⟩

theorem Lands.tellsRow (h : Lands s s' c diffs) (hst : c.isStatic = false)
    (hcore : Core env pol s') {row : RowData} (hrow : row ∈ c.rows) :
    TellsRow diffs c.entityPath row := by
  cases h with
  | @pieces pieces hrows hpieces hdiffs _ _ hphys =>
    rw [← hrows] at hrow
    obtain ⟨p, hp, hrow⟩ := List.mem_flatMap.mp hrow
    obtain ⟨diff, hdiff, ht⟩ := hdiffs p hp
    have hget := (hphys p.id p).mpr (.inl ⟨hp, rfl⟩)
    exact ⟨diff, hdiff, p, ht, (hcore.storable hget).wellFormed, (hpieces p hp).2.1,
      (hpieces p hp).1, hrow⟩
  | @merged elected compacted _ _ hconcat _ hdiff _ hget =>
    obtain ⟨diff, hdiff, ht⟩ := hdiff
    have hphys := (hget compacted.id).trans (if_pos rfl)
    obtain ⟨he, he'⟩ := hconcat.isStatic_eq
    refine ⟨diff, hdiff, compacted, ht, (hcore.storable hphys).wellFormed,
      he.trans (he'.trans hst), hconcat.entityPath.trans hconcat.concatenable.2, ?_⟩
    exact hconcat.rows.mem_iff.mpr (List.mem_append_right _ hrow)

variable {types : EntityPath → TimelineName → Timeline} {kind : ChunkId → Bool}
  {config : ChunkStoreConfig}

theorem tellsRow_insertChunk (h : Core env (.typed types kind) s) (hpop : s.Populated)
    (hop : (Op.insertChunk c).Legal env (.typed types kind) s) (hu : s.Unused c.id) {row : RowData}
    (hnew : (e, row) ∈ c.accepted) : TellsRow (s.apply env (.insertChunk c)).2 e row := by
  have hcore : Core env (.typed types kind) (s.apply env (.insertChunk c)).1 := h.apply hop
  obtain ⟨hw, hissued, hc, -⟩ := hop
  rw [Chunk.accepted] at hnew
  split at hnew
  case isFalse => cases Multiset.notMem_zero _ hnew
  case isTrue haccepted =>
  obtain rfl := entityPath_of_mem_logged hnew
  cases hst : c.isStatic with
  | true =>
    rw [Chunk.logged, hst] at hnew
    cases Multiset.notMem_zero _ hnew
  | false =>
    obtain ⟨diffs, he, hlands⟩ := lands_insertChunk h
      ⟨hu, ⟨hw, haccepted.2.2, haccepted.1⟩, haccepted.2.1⟩ hst hissued hpop hc
      fun d hd => h.allowed hd
    rw [Chunk.logged_of_temporal hst] at hnew
    obtain ⟨row', hrow, heq⟩ := List.mem_map.mp (Multiset.mem_coe.mp hnew)
    cases heq
    have hdiffs : (s.apply env (.insertChunk c)).2 = diffs := by
      rw [apply]
      dsimp only
      rw [he]
      rfl
    rw [hdiffs]
    exact hlands.tellsRow hst hcore hrow

theorem onlyDeletes_map (deletions : List ChunkStoreDiffDeletion) :
    OnlyDeletes (deletions.map .deletion) := by
  intro add hm
  obtain ⟨deletion, -, hd⟩ := List.mem_map.mp hm
  cases hd

/-- The events of an operation tell of every row that it adds or takes away. -/
theorem reports_apply (hkind : ∀ n, kind (env.newId n) = false)
    (h : Reached env (.typed types kind) config s) (hpop : s.Populated) {op : Op}
    (hop : op.Legal env (.typed types kind) s) (hfresh : op.Fresh s) :
    Reports s (s.apply env op).1 (s.apply env op).2 := by
  have hcore := h.core
  have htrace := Op.trace hcore hop
  have hu : (Policy.typed types kind).unique := trivial
  have hpol {exhausted chunks} (hs : (Policy.typed types kind).sweep exhausted chunks) :
      Uncut exhausted chunks := hs
  have hf : s.Findable := (consistent_of_recorded (h.of_le Policy.typed_le_recorded)).findable
  refine ⟨fun e row => ?_, fun e component =>
    static_of_trace (fun _ _ hno => hno) hcore htrace⟩
  -- Deletions are reported up to some state, after which no row goes.
  have hgone {s1 : ChunkStore} {diffs diffs' : List ChunkStoreDiff}
      (hle : (s.apply env op).1.rowLog ≤ s.rowLog)
      (ht : Trace (Step env (.typed types kind)) s diffs s1) (hd : OnlyDeletes diffs) (hle1 : s1.rowLog ≤ (s.apply env op).1.rowLog)
      (he : (s.apply env op).2 = diffs ++ diffs') :
      ((e, row) ∈ s.rowLog ↔ (e, row) ∈ (s.apply env op).1.rowLog) ∨
        TellsRow (s.apply env op).2 e row := by
    by_cases hstays : (e, row) ∈ (s.apply env op).1.rowLog
    · exact .inl (iff_of_true (Multiset.mem_of_le hle hstays) hstays)
    by_cases hrow : (e, row) ∈ s.rowLog
    · obtain ⟨diff, hdiff, htells⟩ := tellsRow_of_lost hu hpol hcore hf
        ht hd hrow fun hm => hstays (Multiset.mem_of_le hle1 hm)
      exact .inr ⟨diff, he ▸ List.mem_append_left _ hdiff, htells⟩
    · exact .inl (iff_of_false hrow hstays)
  obtain ⟨hle, heq, -⟩ := rowLog_apply hkind h hpop hop hfresh
  cases op with
  | insertChunk c =>
    have hlog : (s.apply env (.insertChunk c)).1.rowLog = c.accepted + s.rowLog := heq rfl
    by_cases hnew : (e, row) ∈ c.accepted
    · exact .inr (tellsRow_insertChunk hcore hpop hop hfresh hnew)
    · rw [hlog, Multiset.mem_add]
      exact .inl (or_iff_right hnew).symm
  | insertRrdManifest manifest =>
    have hlog : (s.apply env (.insertRrdManifest manifest)).1.rowLog = s.rowLog := heq rfl
    exact .inl (by rw [hlog])
  | gc options clock =>
    refine hgone hle htrace ?_ le_rfl (List.append_nil _).symm
    have he : (s.apply env (.gc options clock)).2 = _ := (gc_eq env s options clock).2
    rw [he]
    exact onlyDeletes_map _
  | dropTimeRange timeline dropRange deepRemoval reason =>
    have htypes (c : Chunk) (hc : (Policy.typed types kind).chunk c) : HasTypes types c := hc
    obtain ⟨-, -, s1, deletions, diffs, ht, hle1, he⟩ := rowLog_dropTimeRange htypes hcore hpop
      timeline dropRange deepRemoval reason
    exact hgone (hle.trans (Multiset.filter_le _ _)) ht (onlyDeletes_map deletions) hle1 he
  | dropEntityPath e' =>
    refine hgone (hle.trans (Multiset.filter_le _ _)) htrace ?_ le_rfl (List.append_nil _).symm
    obtain ⟨chunks, he, -⟩ := mem_dropEntityPath_deletions env hcore.keyed e'
    have he : (s.apply env (.dropEntityPath e')).2 =
        (chunks.map (⟨·, .explicitDrop⟩)).map .deletion := by
      rw [List.map_map]
      exact he
    rw [he]
    exact onlyDeletes_map _

end ChunkStore

-- ---------------------------------------------------------------------------
-- Events
-- ---------------------------------------------------------------------------

namespace QueryCache

namespace CompactedEvents

structure Grows (events events' : CompactedEvents) : Prop where
  latestAt : ∀ key m, events.temporalLatestAt.lookup key = some m →
    ∃ m' ≤ m, events'.temporalLatestAt.lookup key = some m'
  static : ∀ key, (events.static.lookup key).isSome → (events'.static.lookup key).isSome

variable {events events' events'' : CompactedEvents}

theorem Grows.refl (events : CompactedEvents) : Grows events events :=
  ⟨fun _ m hm => ⟨m, le_rfl, hm⟩, fun _ h => h⟩

theorem Grows.trans (h : Grows events events') (h' : Grows events' events'') :
    Grows events events'' where
  latestAt key m hm := by
    obtain ⟨m', hle, hm'⟩ := h.latestAt key m hm
    obtain ⟨m'', hle', hm''⟩ := h'.latestAt key m' hm'
    exact ⟨m'', hle'.trans hle, hm''⟩
  static key hm := h'.static key (h.static key hm)

theorem grows_foldl {f : CompactedEvents → α → CompactedEvents}
    (hf : ∀ events x, Grows events (f events x)) (l : List α) (events : CompactedEvents) :
    Grows events (l.foldl f events) := by
  induction l generalizing events with
  | nil => exact .refl events
  | cons x rest ih => exact (hf events x).trans (ih (f events x))

theorem grows_foldl_of_mem {f : CompactedEvents → α → CompactedEvents}
    (hf : ∀ events x, Grows events (f events x)) {l : List α} {x : α} (hx : x ∈ l)
    (events : CompactedEvents) : ∃ before, Grows (f before x) (l.foldl f events) := by
  induction l generalizing events with
  | nil => cases hx
  | cons y rest ih =>
    rcases List.mem_cons.mp hx with rfl | hx
    · exact ⟨events, grows_foldl hf rest _⟩
    · exact ih hx (f events y)

theorem grows_addStatic (events : CompactedEvents) (e : EntityPath)
    (component : ComponentIdentifier) (chunkIds : List ChunkId) :
    Grows events (events.addStatic e component chunkIds) where
  latestAt _ m hm := ⟨m, le_rfl, hm⟩
  static key hm := by
    rw [addStatic, lookup_upsertEntry]
    split
    · rfl
    · exact hm

theorem grows_addLatestAt (events : CompactedEvents) (key : QueryCacheKey) (time : TimeInt) :
    Grows events (events.addLatestAt key time) where
  latestAt key' m hm := by
    rw [addLatestAt, lookup_upsertEntry]
    split
    case isTrue he =>
      subst he
      rw [hm]
      exact ⟨_, min_le_left _ _, rfl⟩
    case isFalse => exact ⟨m, le_rfl, hm⟩
  static _ hm := hm

theorem grows_addRange (events : CompactedEvents) (key : QueryCacheKey)
    (chunkIds : List ChunkId) : Grows events (events.addRange key chunkIds) :=
  ⟨fun _ m hm => ⟨m, le_rfl, hm⟩, fun _ h => h⟩

theorem grows_addStaticChunk (events : CompactedEvents) (c : Chunk) (chunkIds : List ChunkId) :
    Grows events (events.addStaticChunk c chunkIds) :=
  grows_foldl (fun events _ => grows_addStatic events _ _ _) _ events

theorem grows_addLatestAtChunk (events : CompactedEvents) (c : Chunk) :
    Grows events (events.addLatestAtChunk c) :=
  grows_foldl (fun events _ => grows_addLatestAt events _ _) _ events

theorem grows_addRangeChunk (events : CompactedEvents) (c : Chunk) (chunkIds : List ChunkId) :
    Grows events (events.addRangeChunk c chunkIds) :=
  grows_foldl (fun events _ => grows_addRange events _ _) _ events

theorem grows_compact (events : CompactedEvents) (diff : ChunkStoreDiff) :
    Grows events (events.compact diff) := by
  cases diff with
  | virtualAddition manifest =>
    rw [compact]
    refine .trans ?_ (grows_foldl ?_ _ _)
    · exact grows_foldl (fun events entry => grows_addStatic events _ _ _) _ _
    · exact fun events entry => (grows_addLatestAt events _ _).trans (grows_addRange _ _ _)
  | addition add =>
    refine .trans ?_ ((grows_addLatestAtChunk _ _).trans (grows_addRangeChunk _ _ _))
    split
    · exact grows_addStaticChunk _ _ _
    · exact .refl events
  | deletion del =>
    refine .trans ?_ ((grows_addLatestAtChunk _ _).trans (grows_addRangeChunk _ _ _))
    split
    · exact grows_addStaticChunk _ _ _
    · exact .refl events

theorem mem_keysOf {c : Chunk} {timeline : TimelineName} {range : AbsoluteTimeRange}
    (h : c.rangeAt (.component e timeline component) = some range) :
    (⟨e, timeline, component⟩, range) ∈ keysOf c := by
  obtain rfl := ChunkStore.entityPath_of_rangeAt h
  rw [Chunk.rangeAt, if_pos rfl] at h
  obtain ⟨tc, htc, hr⟩ := Option.bind_eq_some_iff.mp h
  obtain ⟨column, hcolumn, hrange⟩ := Option.bind_eq_some_iff.mp hr
  obtain ⟨hm, rfl⟩ := Chunk.component_of_get hcolumn
  refine List.mem_flatMap.mpr ⟨(timeline, tc.timeRangePerComponent c.components), ?_, ?_⟩
  · exact List.mem_map.mpr ⟨(timeline, tc), mem_of_lookup htc, rfl⟩
  · refine List.mem_map.mpr ⟨(column.component, range), ?_, rfl⟩
    exact List.mem_filterMap.mpr ⟨column, hm, by rw [hrange, Option.map_some]⟩

theorem lookup_addLatestAtChunk {c : Chunk} {key : QueryCacheKey} {range : AbsoluteTimeRange}
    (h : (key, range) ∈ keysOf c) (events : CompactedEvents) :
    ∃ m ≤ range.min, (events.addLatestAtChunk c).temporalLatestAt.lookup key = some m := by
  obtain ⟨before, hgrows⟩ := grows_foldl_of_mem (f := fun events (entry : QueryCacheKey ×
    AbsoluteTimeRange) => events.addLatestAt entry.1 entry.2.min)
    (fun events _ => grows_addLatestAt events _ _) h events
  have hone : ∃ m ≤ range.min,
      (before.addLatestAt key range.min).temporalLatestAt.lookup key = some m := by
    rw [addLatestAt, lookup_upsertEntry, if_pos rfl]
    exact ⟨_, min_le_right _ _, rfl⟩
  obtain ⟨m, hle, hm⟩ := hone
  obtain ⟨m', hle', hm'⟩ := hgrows.latestAt key m hm
  exact ⟨m', hle'.trans hle, hm'⟩

theorem lookup_compact {diff : ChunkStoreDiff} {c : Chunk} (ht : diff.touched? = some c)
    {timeline : TimelineName} {range : AbsoluteTimeRange}
    (h : c.rangeAt (.component e timeline component) = some range) (events : CompactedEvents) :
    ∃ m ≤ range.min,
      (events.compact diff).temporalLatestAt.lookup ⟨e, timeline, component⟩ = some m := by
  have hadd (events : CompactedEvents) (chunk : Chunk) (chunkIds : List ChunkId) : ∃ m ≤ range.min,
      ((events.addLatestAtChunk c).addRangeChunk chunk chunkIds).temporalLatestAt.lookup
        ⟨e, timeline, component⟩ = some m := by
    obtain ⟨m, hle, hm⟩ := lookup_addLatestAtChunk (mem_keysOf h) events
    obtain ⟨m', hle', hm'⟩ := (grows_addRangeChunk _ chunk chunkIds).latestAt _ m hm
    exact ⟨m', hle'.trans hle, hm'⟩
  cases diff with
  | virtualAddition manifest => cases ht
  | addition add =>
    cases ht
    exact hadd _ _ _
  | deletion del =>
    cases ht
    exact hadd _ _ _

theorem static_compact {add : ChunkStoreDiffAddition}
    (hst : add.chunkBeforeProcessing.isStatic = true) {column : SerializedComponentColumn}
    (hm : column ∈ add.chunkAfterProcessing.components) (events : CompactedEvents) :
    ((events.compact (.addition add)).static.lookup
      (add.chunkAfterProcessing.entityPath, column.component)).isSome := by
  refine ((grows_addLatestAtChunk _ _).trans (grows_addRangeChunk _ _ _)).static _ ?_
  rw [hst, if_pos rfl]
  obtain ⟨before, hgrows⟩ := grows_foldl_of_mem
    (f := fun events (column : SerializedComponentColumn) => events.addStatic
      add.chunkAfterProcessing.entityPath column.component
        (add.chunkAfterProcessing.id :: compactedFrom add.directLineage))
    (fun events _ => grows_addStatic events _ _ _) hm events
  refine hgrows.static _ ?_
  rw [addStatic, lookup_upsertEntry, if_pos rfl]
  rfl

end CompactedEvents

-- ---------------------------------------------------------------------------
-- Invalidated caches
-- ---------------------------------------------------------------------------

def dueTimes (events : CompactedEvents) (key : QueryCacheKey) : List TimeInt :=
  (events.static.filter fun event =>
      key.entityPath = event.1.1 ∧ key.component = event.1.2).map (fun _ => .STATIC) ++
    (events.temporalLatestAt.filter fun event => key = event.1).map Prod.snd

def invalidateAll (times : List TimeInt) (cache : LatestAtCache) : LatestAtCache :=
  times.foldl LatestAtCache.invalidate cache

theorem noteClear_latestAtPerCacheKey (caches : QueryCache) (e : EntityPath)
    (component : ComponentIdentifier) :
    (caches.noteClear e component).latestAtPerCacheKey = caches.latestAtPerCacheKey := by
  rw [noteClear]
  split <;> rfl

theorem invalidateAll_append (times times' : List TimeInt) (cache : LatestAtCache) :
    invalidateAll (times ++ times') cache = invalidateAll times' (invalidateAll times cache) :=
  List.foldl_append

theorem lookup_foldl_invalidate (f : QueryCache → α → QueryCache) (time : α → TimeInt)
    (concerns : α → QueryCacheKey → Bool)
    (hf : ∀ caches x (key : QueryCacheKey), (f caches x).latestAtPerCacheKey.lookup key =
      (caches.latestAtPerCacheKey.lookup key).map fun cache =>
        if concerns x key then LatestAtCache.invalidate cache (time x) else cache)
    (l : List α) (caches : QueryCache) (key : QueryCacheKey) :
    (l.foldl f caches).latestAtPerCacheKey.lookup key =
      (caches.latestAtPerCacheKey.lookup key).map
        (invalidateAll ((l.filter (concerns · key)).map time)) := by
  induction l generalizing caches with
  | nil =>
    rw [List.foldl_nil]
    cases caches.latestAtPerCacheKey.lookup key <;> rfl
  | cons x rest ih =>
    rw [List.foldl_cons, ih, hf, Option.map_map, List.filter_cons]
    refine congrArg (Option.map · _) (funext fun cache => ?_)
    cases concerns x key <;> rfl

theorem lookup_onEvents (caches : QueryCache) (diffs : List ChunkStoreDiff) (key : QueryCacheKey) :
    (caches.onEvents diffs).latestAtPerCacheKey.lookup key =
      (caches.latestAtPerCacheKey.lookup key).map
        (invalidateAll (dueTimes (diffs.foldl CompactedEvents.compact {}) key)) := by
  rw [onEvents]
  generalize diffs.foldl CompactedEvents.compact {} = events
  have hrange (caches : QueryCache) : (events.temporalRange.foldl onTemporalRange
      caches).latestAtPerCacheKey = caches.latestAtPerCacheKey := by
    generalize events.temporalRange = l
    induction l generalizing caches with
    | nil => rfl
    | cons x rest ih => exact ih (onTemporalRange caches x)
  rw [hrange, lookup_foldl_invalidate onTemporalLatestAt Prod.snd
      (fun event key => key = event.1) ?temporal,
    lookup_foldl_invalidate onStatic (fun _ => TimeInt.STATIC)
      (fun event key => key.entityPath = event.1.1 ∧ key.component = event.1.2) ?static,
    Option.map_map]
  · refine congrArg (Option.map · _) (funext fun cache => ?_)
    exact (invalidateAll_append _ _ cache).symm
  case temporal =>
    intro caches event key
    rw [onTemporalLatestAt]
    refine (OrdMap.lookup_map_snd _ (fun key cache =>
      if key = event.1 then LatestAtCache.invalidate cache event.2 else cache) key).trans ?_
    rw [noteClear_latestAtPerCacheKey]
    simp only [decide_eq_true_iff]
  case static =>
    rintro caches ⟨⟨e, component⟩, chunkIds⟩ key
    rw [onStatic]
    refine (OrdMap.lookup_map_snd _ (fun (key : QueryCacheKey) cache =>
      if key.entityPath = e ∧ key.component = component then
        LatestAtCache.invalidate cache .STATIC else cache) key).trans ?_
    rw [noteClear_latestAtPerCacheKey]
    simp only [decide_eq_true_iff]

theorem kept_iff {pending : TreeSet TimeInt} {t : TimeInt} :
    LatestAtCache.Kept pending t ↔ ∀ x ∈ pending, t < x := by
  rw [LatestAtCache.Kept]
  constructor
  · intro h x hx
    cases hmin : pending.min? with
    | none =>
      rw [TreeSet.min?_eq_none_iff] at hmin
      have hempty := TreeSet.isEmpty_eq_false_of_contains (TreeSet.mem_iff_contains.mp hx)
      rw [hmin] at hempty
      cases hempty
    | some oldest =>
      have hle := (TreeSet.min?_eq_some_iff_mem_and_forall.mp hmin).2 x hx
      exact (h oldest hmin).trans_le (compare_le_iff_le.mp (Ordering.isLE_iff_ne_gt.mp hle))
  · intro h oldest hmin
    exact h oldest (TreeSet.min?_eq_some_iff_mem_and_forall.mp hmin).1

theorem table_invalidateAll {cache : LatestAtCache} {times : List TimeInt} {t : TimeInt}
    (h : (invalidateAll times cache).table t = some unit) :
    cache.table t = some unit ∧ ∀ x ∈ times, t < x := by
  induction times generalizing cache with
  | nil => exact ⟨h, List.forall_mem_nil _⟩
  | cons x rest ih =>
    obtain ⟨hone, hrest⟩ := ih h
    rw [LatestAtCache.table_apply] at hone
    split at hone
    case isFalse => cases hone
    case isTrue hkept =>
      have hpending : ∀ y ∈ (LatestAtCache.invalidate cache x).pendingInvalidations, t < y :=
        kept_iff.mp hkept
      have hinsert (y) : y ∈ (LatestAtCache.invalidate cache x).pendingInvalidations ↔
          x = y ∨ y ∈ cache.pendingInvalidations := OrdMap.mem_insert _ _ _
      refine ⟨?_, List.forall_mem_cons.mpr ⟨hpending x ((hinsert x).mpr (.inl rfl)), hrest⟩⟩
      rw [LatestAtCache.table_apply, if_pos (kept_iff.mpr fun y hy =>
        hpending y ((hinsert y).mpr (.inr hy)))]
      exact hone

theorem table_onEvents {caches : QueryCache} {diffs : List ChunkStoreDiff} {key : QueryCacheKey}
    {t : TimeInt} (h : ((caches.onEvents diffs).cacheOf key).table t = some unit) :
    (caches.cacheOf key).table t = some unit ∧
      (∀ m, (diffs.foldl CompactedEvents.compact {}).temporalLatestAt.lookup key = some m →
        t < m) ∧
      (((diffs.foldl CompactedEvents.compact {}).static.lookup
        (key.entityPath, key.component)).isSome = true → t < .STATIC) := by
  rw [cacheOf, lookup_onEvents] at h
  cases hc : caches.latestAtPerCacheKey.lookup key with
  | none =>
    rw [hc] at h
    simp [LatestAtCache.table_apply, LatestAtCache.units] at h
  | some cache =>
    rw [hc] at h
    obtain ⟨htable, hdue⟩ := table_invalidateAll h
    rw [cacheOf, hc]
    refine ⟨htable, fun m hm => hdue m ?_, fun hst => hdue .STATIC ?_⟩
    · refine List.mem_append_right _ (List.mem_map.mpr ⟨(key, m), ?_, rfl⟩)
      exact List.mem_filter.mpr ⟨mem_of_lookup hm, decide_eq_true rfl⟩
    · obtain ⟨chunkIds, hst⟩ := Option.isSome_iff_exists.mp hst
      refine List.mem_append_left _
        (List.mem_map.mpr ⟨((key.entityPath, key.component), chunkIds), ?_, rfl⟩)
      exact List.mem_filter.mpr ⟨mem_of_lookup hst, decide_eq_true ⟨rfl, rfl⟩⟩

/-- What a cache still knows after an operation, the operation did not touch. -/
theorem untouched_of_table {s s' : ChunkStore} {diffs : List ChunkStoreDiff}
    (hreports : ChunkStore.Reports s s' diffs) {caches : QueryCache} {timeline : TimelineName}
    {t : TimeInt}
    (h : ((caches.onEvents diffs).cacheOf ⟨e, timeline, component⟩).table t = some unit) :
    (caches.cacheOf ⟨e, timeline, component⟩).table t = some unit ∧
      (TimeInt.MIN ≤ t → s.staticChunkId? e component = none →
        s'.staticChunkId? e component = none) ∧
      ∀ row key, row.latestKey? ⟨timeline, t⟩ component = some key →
        ((e, row) ∈ s.rowLog ↔ (e, row) ∈ s'.rowLog) := by
  obtain ⟨htable, hdue, hstatic⟩ := table_onEvents h
  refine ⟨htable, fun hmin hnone => ?_, fun row key hkey => ?_⟩
  · by_contra hsome
    rcases hreports.static e component (Option.isSome_iff_ne_none.mpr hsome) with
      hs | ⟨add, hm, hst, rfl, column, hcolumn, rfl⟩
    · rw [hnone] at hs
      cases hs
    · obtain ⟨before, hgrows⟩ :=
        CompactedEvents.grows_foldl_of_mem CompactedEvents.grows_compact hm {}
      have hlt := hstatic (hgrows.static _ (CompactedEvents.static_compact hst hcolumn before))
      exact absurd (hmin.trans_lt hlt) (by decide)
  · refine (hreports.rows e row).resolve_right ?_
    rintro ⟨diff, hm, c, ht, hw, hst, rfl, hrow⟩
    obtain ⟨hcell, time, htime, hle, -⟩ := RowData.latestKey?_eq_some.mp hkey
    obtain ⟨i, hi, rfl⟩ := List.mem_map.mp hrow
    have hmem : time.2 ∈ c.timesOf timeline component := (Chunk.mem_timesOf_iff hw.aligned).mpr
      ⟨i, List.mem_range.mp hi, hcell, by rw [htime]; rfl⟩
    obtain ⟨range, hrange, hcontains, -⟩ := hw.exists_range hmem
    obtain ⟨before, hgrows⟩ :=
      CompactedEvents.grows_foldl_of_mem CompactedEvents.grows_compact hm {}
    obtain ⟨m, hmin, hlookup⟩ := CompactedEvents.lookup_compact ht hrange before
    obtain ⟨m', hmin', hlookup'⟩ := hgrows.latestAt _ m hlookup
    have hlt := hdue m' hlookup'
    have hfirst := (AbsoluteTimeRange.contains_iff.mp hcontains).1
    exact absurd (hlt.trans_le (hmin'.trans (hmin.trans hfirst))) (not_lt.mpr hle)

end QueryCache

end DimosViewer
