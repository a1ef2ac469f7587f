import DimosViewer.Query.RangeLaws
import DimosViewer.Store.RunLaws

/-!
# The range cache over whole runs

A cached chunk is made from the only chunk that its id has ever stood for. So it
does not matter when it was cached, for which query, or what has been invalidated.
-/

namespace DimosViewer

open Grouping
open Reach (Reachable)
open Std (TreeMap)

-- ---------------------------------------------------------------------------
-- Ids stand for one content
-- ---------------------------------------------------------------------------

namespace ChunkStore

variable {env : Env} {config : ChunkStoreConfig}

def Policy.truthful : Policy where
  chunk _ := True
  closed _ _ h := h
  insert archive c := ∀ d, archive[c.id]? = some d → d = c
  announceStatic _ _ := True
  announceTemporal _ _ := True
  unique := False
  insert_unique h := h.elim
  sweep _ _ := True

def ArchiveSub (s s' : ChunkStore) : Prop :=
  ∀ (key : ChunkId) d, s.archive[key]? = some d → s'.archive[key]? = some d

theorem ArchiveSub.of_eq {s s' : ChunkStore} (h : s'.archive = s.archive) : ArchiveSub s s' :=
  fun _ _ hd => h ▸ hd

theorem archiveSub_insertPhysical {s : ChunkStore} {c : Chunk}
    (h : ∀ d, s.archive[c.id]? = some d → d = c) : ArchiveSub s (s.insertPhysical c) := by
  intro key d hd
  refine (OrdMap.getElem?_insert _ _ _ _).trans ?_
  split
  case isTrue he => rw [h d (he ▸ hd)]
  case isFalse => exact hd

theorem Stored.archiveSub {pol : Policy} {s s' : ChunkStore} {c : Chunk} (h : Core env pol s)
    (hid : ∀ d, s.archive[c.id]? = some d → d = c) (hs : Stored env s c s' diffs) :
    ArchiveSub s s' := by
  cases hs with
  | @static lineage hst _ =>
    have ha := (storeStatic_frame env s c lineage).1.archive
    have hsub : ArchiveSub _ ((s.storeStatic env c lineage).1.insertPhysical c) :=
      archiveSub_insertPhysical fun d hd => hid d (ha ▸ hd)
    exact fun key d hd => hsub key d (ha.symm ▸ hd)
  | asIs before _ _ =>
    have hsub : ArchiveSub _ ((s.insertIntoIndices env c).insertPhysical c) :=
      archiveSub_insertPhysical hid
    exact hsub
  | @compacted n elected compacted hcomp =>
    have ha := (replaceElected_sameLineage env { s with issued := n } elected compacted).archive
    rw [compactInto_eq]
    have hsub : ArchiveSub ({ s with issued := n }.replaceElected env elected compacted).1
        ((({ s with issued := n }.replaceElected env elected compacted).1.recordCompaction
          (sourcesOf env { s with issued := n } c elected compacted)
          compacted.id).insertPhysical compacted) := by
      refine archiveSub_insertPhysical fun d hd => ?_
      have hd : s.archive[compacted.id]? = some d := (congrArg (·[compacted.id]?) ha).symm.trans hd
      exact absurd (DrawnIn.future hcomp.drawn) (h.indexes (.archive hd))
    exact fun key d hd => hsub key d (ha.symm ▸ hd)

theorem Step.archiveSub {pol : Policy} {s s' : ChunkStore} (h : Core env pol s)
    (hpol : ∀ {archive c}, pol.insert archive c → ∀ d, archive[c.id]? = some d → d = c)
    (hs : Step env pol s diffs s') : ArchiveSub s s' := by
  cases hs with
  | store hc hf hn ha hi hst =>
    refine hst.archiveSub h fun d hd => ?_
    exact hi.elim (fun hi => hpol hi d hd) fun hx => absurd (.archive hd) hx.unindexed
  | removeShallow reason exhausted _ _ =>
    exact .of_eq (removeChunksShallow_sameIndices env reason s exhausted _).archive
  | replaceVirtual reason _ _ => exact .of_eq (removeChunksDeep_sameLineage env reason s _ _).archive
  | removeDeep reason _ _ => exact .of_eq (removeChunksDeep_sameLineage env reason s _ _).archive
  | sweep reason _ _ _ => exact .of_eq (removeChunksDeep_sameLineage env reason s _ _).archive
  | dropEntityPath e => exact .of_eq (dropEntityPath_sameLineage env s e).archive
  | draw _ | nextInsert | forgetSplit _ | recordSplit _ _ _ | recordLineage _ _ | announced _ =>
    exact .of_eq rfl
  | announceStatic _ _ | announceTemporal _ _ => exact .of_eq rfl

theorem archiveSub_apply {s : ChunkStore} {op : Op} (h : Core env .truthful s)
    (hop : op.Legal env .truthful s) : ArchiveSub s (s.apply env op).1 := by
  have hstep : ∀ s1 es s2, Core env .truthful s1 ∧ ArchiveSub s s1 → Step env .truthful s1 es s2 →
      Core env .truthful s2 ∧ ArchiveSub s s2 := fun s1 es s2 hi hs =>
    ⟨hs.core hi.1, fun key d hd => hs.archiveSub hi.1 id key d (hi.2 key d hd)⟩
  exact ((Op.trace h hop).invariant hstep ⟨h, fun _ _ hd => hd⟩).2

end ChunkStore

/-- `Chunk::range` on each relevant chunk. The rows are returned under the id of the stored
chunk, and chunks without rows are left out. -/
def ChunkStore.rangeChunks (newId : Nat → ChunkId) (s : ChunkStore) (query : RangeQuery)
    (entityPath : EntityPath) (component : ComponentIdentifier) : List Chunk :=
  ((s.rangeRelevantChunks .report query entityPath component).chunks.map fun c =>
    (c.range newId query component).withId c.id).filter fun c => !c.isEmpty

def ChunkStore.rangeUncachedComponent (newId : Nat → ChunkId) (s : ChunkStore)
    (query : RangeQuery) (entityPath : EntityPath) (results : RangeResults)
    (component : ComponentIdentifier) : RangeResults :=
  let chunks := s.rangeChunks newId query entityPath component
  { results with
    missingVirtual := results.missingVirtual ++
      (s.rangeRelevantChunks .report query entityPath component).missingVirtual
    components :=
      if chunks.isEmpty then results.components else results.components.insert component chunks }

def ChunkStore.rangeUncached (newId : Nat → ChunkId) (s : ChunkStore) (query : RangeQuery)
    (entityPath : EntityPath) (components : List ComponentIdentifier) : RangeResults :=
  components.foldl (s.rangeUncachedComponent newId query entityPath) { query }

-- ---------------------------------------------------------------------------
-- Coherent caches
-- ---------------------------------------------------------------------------

theorem RangeCachedChunk.new_eq (newId newId' : Nat → ChunkId) (key : QueryCacheKey) (c : Chunk) :
    RangeCachedChunk.new newId key c = RangeCachedChunk.new newId' key c := by
  have hflag : (c.densified (newId 0) key.component).2 = (c.densified (newId' 0) key.component).2 := by
    rw [Chunk.densified, Chunk.densified]
    split
    · rfl
    · split <;> rfl
  have hd := Chunk.densified_withId c (newId 0) (newId' 0) 0 key.component
  have h := Chunk.sortedByTimeline_withId (c.densified (newId 0) key.component).1 newId newId 1 1
    0 c.id key.timelineName
  have h' := Chunk.sortedByTimeline_withId (c.densified (newId' 0) key.component).1 newId newId'
    1 1 0 c.id key.timelineName
  rw [hd] at h
  simp only [RangeCachedChunk.new, hflag, ← h, h']

/-- Every cached chunk was made from the chunk that its id stands for. -/
def RangeCache.Coherent (archive : TreeMap ChunkId Chunk) (cache : RangeCache) : Prop :=
  ∀ (id : ChunkId) cached, cache.chunks[id]? = some cached →
    ∃ c newId, archive[id]? = some c ∧ cached = .new newId cache.cacheKey c

namespace RangeCache

variable {archive : TreeMap ChunkId Chunk} {cache : RangeCache}

theorem Coherent.handlePendingInvalidation (h : cache.Coherent archive) :
    cache.handlePendingInvalidation.Coherent archive := by
  intro id cached hc
  refine h id cached ?_
  rw [RangeCache.handlePendingInvalidation, TreeMap.getElem?_filter'] at hc
  exact (Option.filter_eq_some_iff.mp hc).1

theorem exists_getElem?_fill {newId : Nat → ChunkId} {id : ChunkId} (rawChunks : List Chunk)
    (h : ∃ cached, cache.chunks[id]? = some cached) :
    ∃ cached, (cache.fill newId rawChunks).chunks[id]? = some cached := by
  induction rawChunks generalizing cache with
  | nil => exact h
  | cons raw rest ih =>
    refine @ih { cache with
      chunks := cache.chunks.insertIfNew raw.id (.new newId cache.cacheKey raw) } ?_
    rw [OrdMap.getElem?_insertIfNew]
    split
    · exact ⟨_, rfl⟩
    · exact h

theorem Coherent.fill (newId : Nat → ChunkId) {rawChunks : List Chunk}
    (h : cache.Coherent archive) (hraw : ∀ c ∈ rawChunks, archive[c.id]? = some c) :
    (cache.fill newId rawChunks).Coherent archive ∧
      ∀ c ∈ rawChunks, (cache.fill newId rawChunks).chunks[c.id]? =
        some (.new newId cache.cacheKey c) := by
  induction rawChunks generalizing cache with
  | nil => exact ⟨h, nofun⟩
  | cons raw rest ih =>
    have hcons : cache.fill newId (raw :: rest) = fill newId { cache with
        chunks := cache.chunks.insertIfNew raw.id (.new newId cache.cacheKey raw) } rest := rfl
    have hone : RangeCache.Coherent archive { cache with
        chunks := cache.chunks.insertIfNew raw.id (.new newId cache.cacheKey raw) } := by
      intro id cached hc
      rw [OrdMap.getElem?_insertIfNew] at hc
      split at hc
      case isTrue hnew =>
        cases hc
        exact ⟨raw, newId, hnew.1 ▸ hraw raw List.mem_cons_self, rfl⟩
      case isFalse => exact h id cached hc
    obtain ⟨hco, hget⟩ := ih hone fun c hc => hraw c (List.mem_cons_of_mem _ hc)
    rw [hcons]
    refine ⟨hco, fun c hc => ?_⟩
    rcases List.mem_cons.mp hc with rfl | hc
    · have hkey : ∃ cached, (fill newId { cache with
          chunks := cache.chunks.insertIfNew c.id (.new newId cache.cacheKey c) } rest).chunks[c.id]? =
          some cached := by
        refine exists_getElem?_fill _ ?_
        rw [OrdMap.getElem?_insertIfNew]
        split
        · exact ⟨_, rfl⟩
        case isFalse hold =>
          exact Option.ne_none_iff_exists'.mp fun hnone =>
            hold ⟨rfl, TreeMap.mem_iff_isSome_getElem?.not.mpr (by simp [hnone])⟩
      obtain ⟨cached, hcached⟩ := hkey
      obtain ⟨d, newId', hd, rfl⟩ := hco c.id cached hcached
      obtain rfl := Option.some.inj ((hraw c List.mem_cons_self).symm.trans hd)
      rw [hcached, RangeCachedChunk.new_eq newId' newId]
      rfl
    · exact hget c hc

theorem Coherent.range (newId : Nat → ChunkId) {store : ChunkStore} {query : RangeQuery}
    {entityPath : EntityPath} {component : ComponentIdentifier} (h : cache.Coherent archive)
    (hkey : cache.cacheKey = ⟨entityPath, query.timeline, component⟩)
    (hraw : ∀ c ∈ (store.rangeRelevantChunks .report query entityPath component).chunks,
      archive[c.id]? = some c ∧ c.WellFormed ∧ c.isSorted = true) :
    (cache.range newId store query entityPath component).1.Coherent archive ∧
      (cache.range newId store query entityPath component).1.cacheKey = cache.cacheKey ∧
      (cache.range newId store query entityPath component).2 =
        (store.rangeChunks newId query entityPath component,
          (store.rangeRelevantChunks .report query entityPath component).missingVirtual) := by
  obtain ⟨hco, hget⟩ := h.fill newId fun c hc => (hraw c hc).1
  refine ⟨hco, rfl, Prod.ext ?_ rfl⟩
  rw [RangeCache.range, ChunkStore.rangeChunks]
  dsimp only
  generalize (store.rangeRelevantChunks .report query entityPath component).chunks = raw at hraw hget
  generalize hfill : (cache.fill newId raw).chunks = chunks at hget
  clear hfill hco
  induction raw with
  | nil => rfl
  | cons c rest ih =>
    have ih := ih (fun d hd => hraw d (List.mem_cons_of_mem _ hd))
      fun d hd => hget d (List.mem_cons_of_mem _ hd)
    obtain ⟨-, hw, hs⟩ := hraw c List.mem_cons_self
    have hone := Chunk.range_cached hw hs newId cache.cacheKey query (by rw [hkey])
    have hcomp : cache.cacheKey.component = component := by rw [hkey]
    rw [hcomp] at hone
    rw [List.filterMap_cons, hget c List.mem_cons_self]
    dsimp only
    rw [List.map_cons, List.map_cons, List.filter_cons, List.filter_cons, ih]
    have hid : (RangeCachedChunk.new newId cache.cacheKey c).chunk.id = c.id := rfl
    rcases hone with he | ⟨he, he'⟩
    · rw [he, hid]
    · have hempty (d : Chunk) (i : ChunkId) : (d.withId i).isEmpty = d.isEmpty := rfl
      rw [hempty, hempty, he, he', if_neg (by simp), if_neg (by simp)]

end RangeCache

namespace QueryCache

variable {archive archive' : TreeMap ChunkId Chunk} {caches : QueryCache}

/-- Every cache is coherent and kept under its own key. -/
def Coherent (archive : TreeMap ChunkId Chunk) (caches : QueryCache) : Prop :=
  ∀ entry ∈ caches.rangePerCacheKey, entry.2.cacheKey = entry.1 ∧ entry.2.Coherent archive

theorem Coherent.mono (h : caches.Coherent archive)
    (hsub : ∀ (id : ChunkId) c, archive[id]? = some c → archive'[id]? = some c) :
    caches.Coherent archive' := fun entry he =>
  ⟨(h entry he).1, fun id cached hc =>
    let ⟨c, newId, ha, heq⟩ := (h entry he).2 id cached hc
    ⟨c, newId, hsub id c ha, heq⟩⟩

theorem Coherent.mark (h : caches.Coherent archive) (marked : QueryCacheKey → Prop)
    [DecidablePred marked] (ids : List ChunkId) {caches' : QueryCache}
    (he : caches'.rangePerCacheKey = caches.rangePerCacheKey.map fun (key, cache) =>
      (key, if marked key then RangeCache.invalidate cache ids else cache)) :
    caches'.Coherent archive := by
  intro entry hm
  obtain ⟨⟨key, cache⟩, ho, rfl⟩ := List.mem_map.mp (he ▸ hm)
  obtain ⟨hkey, hco⟩ := h _ ho
  dsimp only
  split
  · exact ⟨hkey, hco⟩
  · exact ⟨hkey, hco⟩

theorem noteClear_rangePerCacheKey (caches : QueryCache) (entityPath : EntityPath)
    (component : ComponentIdentifier) :
    (caches.noteClear entityPath component).rangePerCacheKey = caches.rangePerCacheKey := by
  rw [noteClear]
  split <;> rfl

theorem Coherent.onEvents (h : caches.Coherent archive) (events : List ChunkStoreDiff) :
    (caches.onEvents events).Coherent archive := by
  rw [QueryCache.onEvents]
  refine List.foldlRecOn _ _ (List.foldlRecOn _ _ (List.foldlRecOn _ _ h ?_) ?_) ?_
  · rintro caches h ⟨⟨entityPath, component⟩, ids⟩ -
    refine h.mark (fun key => key.entityPath = entityPath ∧ key.component = component) ids ?_
    rw [onStatic, noteClear_rangePerCacheKey]
  · rintro caches h event -
    intro entry he
    rw [onTemporalLatestAt, noteClear_rangePerCacheKey] at he
    exact h entry he
  · rintro caches h ⟨key, ids⟩ -
    exact h.mark (· = key) ids rfl

theorem coherent_empty (archive : TreeMap ChunkId Chunk) : ({} : QueryCache).Coherent archive :=
  nofun

theorem Coherent.rangeComponent (newId : Nat → ChunkId) {store : ChunkStore} {query : RangeQuery}
    {entityPath : EntityPath} (h : caches.Coherent archive) (results : RangeResults)
    (component : ComponentIdentifier)
    (hraw : ∀ c ∈ (store.rangeRelevantChunks .report query entityPath component).chunks,
      archive[c.id]? = some c ∧ c.WellFormed ∧ c.isSorted = true) :
    (QueryCache.rangeComponent newId store query entityPath (caches, results)
        component).1.Coherent archive ∧
      (QueryCache.rangeComponent newId store query entityPath (caches, results) component).2 =
        store.rangeUncachedComponent newId query entityPath results component := by
  let key : QueryCacheKey := ⟨entityPath, query.timeline, component⟩
  have hold : ((caches.rangePerCacheKey.lookup key).getD { cacheKey := key }).cacheKey = key ∧
      ((caches.rangePerCacheKey.lookup key).getD { cacheKey := key }).Coherent archive := by
    cases hl : caches.rangePerCacheKey.lookup key with
    | none =>
      refine ⟨rfl, fun id cached hc => ?_⟩
      rw [Option.getD_none, TreeMap.getElem?_emptyc] at hc
      cases hc
    | some cache => exact h _ (mem_of_lookup hl)
  obtain ⟨hco, hkey, hres⟩ := hold.2.handlePendingInvalidation.range newId hold.1 hraw
  rw [QueryCache.rangeComponent]
  refine ⟨fun entry he => ?_, ?_⟩
  · rcases mem_upsertEntry he with he | rfl
    · exact h entry he
    · exact ⟨hkey.trans hold.1, hco⟩
  · exact congrArg (fun res : List Chunk × List ChunkId => ({ results with
      missingVirtual := results.missingVirtual ++ res.2
      components :=
        if res.1.isEmpty then results.components
        else results.components.insert component res.1 } : RangeResults)) hres

end QueryCache

namespace ChunkStore

variable {env : Env} {pol : Policy} {config : ChunkStoreConfig}

theorem archived_of_mem_rangeRelevantChunks {s : ChunkStore} (h : Core env pol s) {query : RangeQuery}
    {entityPath : EntityPath} {component : ComponentIdentifier}
    (hc : c ∈ (s.rangeRelevantChunks .report query entityPath component).chunks) :
    s.archive[c.id]? = some c ∧ c.WellFormed ∧ c.isSorted = true := by
  have hphys : ∃ key : ChunkId, s.physicalChunksPerChunkId[key]? = some c := by
    rw [rangeRelevantChunks] at hc
    split at hc
    · obtain ⟨key, -, hk⟩ := List.mem_filterMap.mp hc
      exact ⟨key, hk⟩
    · obtain ⟨key, -, hk⟩ := List.mem_filterMap.mp (List.mem_filter.mp hc).1
      exact ⟨key, hk⟩
  obtain ⟨key, hk⟩ := hphys
  obtain rfl := h.keyed hk
  exact ⟨h.physical hk, (h.storable hk).wellFormed, (h.storable hk).isSorted⟩

theorem rangeUncachedComponent_of_absent {s : ChunkStore} {query : RangeQuery}
    {entityPath : EntityPath} {component : ComponentIdentifier} (newId : Nat → ChunkId)
    (results : RangeResults)
    (h : s.entityHasComponentOnTimeline query.timeline entityPath component = false) :
    s.rangeUncachedComponent newId query entityPath results component = results := by
  rw [entityHasComponentOnTimeline, Bool.or_eq_false_iff, Option.isSome_eq_false_iff,
    Option.isSome_eq_false_iff, Option.isNone_iff_eq_none, Option.isNone_iff_eq_none] at h
  have hnone : s.rangeRelevantChunks .report query entityPath component = ⟨[], [], false⟩ := by
    rw [rangeRelevantChunks, h.1, h.2]
    rfl
  rw [rangeUncachedComponent, rangeChunks, hnone]
  simp

end ChunkStore

-- ---------------------------------------------------------------------------
-- Runs
-- ---------------------------------------------------------------------------

structure QuerySession where
  store : ChunkStore
  caches : QueryCache

namespace QuerySession

inductive Action where
  | mutate (op : ChunkStore.Op)
  | range (newId : Nat → ChunkId) (query : RangeQuery) (entityPath : EntityPath)
      (components : List ComponentIdentifier)
  | clear

def act (env : Env) (session : QuerySession) : Action → QuerySession
  | .mutate op =>
    let (store, events) := session.store.apply env op
    ⟨store, session.caches.onEvents events⟩
  | .range newId query entityPath components =>
    { session with
      caches := (session.caches.range newId session.store query entityPath components).1 }
  | .clear => { session with caches := session.caches.clear }

def Action.Legal (env : Env) (session : QuerySession) : Action → Prop
  | .mutate op => op.Legal env .truthful session.store
  | _ => True

abbrev Reached (env : Env) (config : ChunkStoreConfig) (session : QuerySession) : Prop :=
  Reachable ⟨.new config, {}⟩ (act env) (fun session action => action.Legal env session) session

variable {env : Env} {config : ChunkStoreConfig} {session : QuerySession}

theorem range_spec (hcore : ChunkStore.Core env .truthful session.store)
    (h : session.caches.Coherent session.store.archive) (newId : Nat → ChunkId)
    (query : RangeQuery) (entityPath : EntityPath) (components : List ComponentIdentifier) :
    (session.caches.range newId session.store query entityPath components).1.Coherent
        session.store.archive ∧
      (session.caches.range newId session.store query entityPath components).2 =
        session.store.rangeUncached newId query entityPath components := by
  obtain ⟨store, caches⟩ := session
  rw [QueryCache.range, ChunkStore.rangeUncached]
  generalize ({ query } : RangeResults) = results
  induction components generalizing caches results with
  | nil => exact ⟨h, rfl⟩
  | cons component rest ih =>
    rw [List.filter_cons, List.foldl_cons]
    split
    · obtain ⟨hco, hres⟩ := h.rangeComponent newId results component fun c hc =>
        ChunkStore.archived_of_mem_rangeRelevantChunks hcore hc
      rw [List.foldl_cons, ← hres]
      exact ih (QueryCache.rangeComponent newId store query entityPath (caches, results)
        component).1 hcore hco _
    case isFalse hhas =>
      rw [ChunkStore.rangeUncachedComponent_of_absent newId results (Bool.not_eq_true _ ▸ hhas)]
      exact ih _ hcore h _

def Coherent (env : Env) (session : QuerySession) : Prop :=
  ChunkStore.Core env .truthful session.store ∧ session.caches.Coherent session.store.archive

theorem Reached.coherent (h : Reached env config session) : session.Coherent env := by
  refine Reachable.invariant ⟨.new env _ config, QueryCache.coherent_empty _⟩ ?_ h
  rintro session action ⟨hcore, hco⟩ hok
  cases action with
  | mutate op =>
    refine ⟨hcore.apply hok, ?_⟩
    exact (hco.mono (ChunkStore.archiveSub_apply hcore hok)).onEvents _
  | range newId query entityPath components =>
    exact ⟨hcore, (range_spec hcore hco newId query entityPath components).1⟩
  | clear => exact ⟨hcore, QueryCache.coherent_empty _⟩

/-- At every point of a session, a range query through the caches returns what it returns
without them. -/
theorem range_eq_uncached (h : Reached env config session) (newId : Nat → ChunkId)
    (query : RangeQuery) (entityPath : EntityPath) (components : List ComponentIdentifier) :
    (session.caches.range newId session.store query entityPath components).2 =
      session.store.rangeUncached newId query entityPath components :=
  (range_spec h.coherent.1 h.coherent.2 newId query entityPath components).2

-- ---------------------------------------------------------------------------
-- A run on fixed inputs
-- ---------------------------------------------------------------------------

def rangeRunFirst : Chunk :=
  .ofColumns 1 ["e"] [1, 2] [(⟨"t", .sequence⟩, [.newTemporal 0, .newTemporal 10])]
    [("c", [some [], some []])]

def rangeRunQuery (min max : Int) : RangeQuery where
  timeline := "t"
  range := ⟨.newTemporal min, .newTemporal max⟩
  includeExtendedBounds := false

def rangeRun : QuerySession :=
  [.mutate (.insertChunk rangeRunFirst),
    .range (500 + ·) (rangeRunQuery 0 3) ["e"] ["c"],
    .mutate (.insertChunk (.single 2 3 20))].foldl (act .plain) ⟨.new .COMPACTION_DISABLED, {}⟩

theorem reached_rangeRun : Reached .plain .COMPACTION_DISABLED rangeRun := by
  rw [rangeRun, List.foldl_cons, List.foldl_cons, List.foldl_cons, List.foldl_nil]
  refine .step (.step (.step .init ?_) ?_) ?_
  · refine ⟨by decide, Env.plain_not_future (by decide) _, trivial, fun d hd => ?_⟩
    simp [ChunkStore.new] at hd
  · trivial
  · refine ⟨by decide, Env.plain_not_future (by decide) _, trivial, fun d hd => ?_⟩
    have hnone : ((act .plain ⟨.new .COMPACTION_DISABLED, {}⟩
        (.mutate (.insertChunk rangeRunFirst))).store.archive[(2 : ChunkId)]?).isNone = true := by
      decide +kernel
    have hne := Option.isNone_iff_eq_none.mp hnone ▸ hd
    cases hne

/-- The cached range after a second insertion is the range without the cache. -/
theorem range_eq_uncached_rangeRun :
    (rangeRun.caches.range (500 + ·) rangeRun.store (rangeRunQuery 5 20) ["e"] ["c"]).2 =
      rangeRun.store.rangeUncached (500 + ·) (rangeRunQuery 5 20) ["e"] ["c"] :=
  range_eq_uncached reached_rangeRun _ _ _ _

/-- Where no row of a relevant chunk is in range, `Chunk::range` returns an empty chunk, and
elsewhere one with a new id. The cache returns nothing, and a chunk with the old id. -/
theorem rangeRun_not_chunk_range :
    let direct (query : RangeQuery) :=
      (rangeRun.store.rangeRelevantChunks .report query ["e"] "c").chunks.map
        (·.range (500 + ·) query "c")
    let cached (query : RangeQuery) :=
      ((rangeRun.caches.range (500 + ·) rangeRun.store query ["e"] ["c"]).2.components["c"]?).getD []
    (direct (rangeRunQuery 5 6)).map (·.numRows) = [0] ∧ cached (rangeRunQuery 5 6) = [] ∧
      (direct (rangeRunQuery 10 10)).map (·.id) ≠ (cached (rangeRunQuery 10 10)).map (·.id) := by
  decide +kernel

end QuerySession

end DimosViewer
