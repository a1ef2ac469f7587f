import DimosViewer.Query.StoredRows
import DimosViewer.Store.GcLatest
import DimosViewer.Store.RowLog

/-!
# Logged rows are returned

A store refines a bag of rows: insertions add to it, drops filter it, and a range query reads it,
whatever the chunks, the indices and the caches went through.
-/

namespace DimosViewer

open Reach (Reachable)
open Std (TreeMap)

-- ---------------------------------------------------------------------------
-- The log
-- ---------------------------------------------------------------------------

/-- What an insertion under a new id adds. Without rows, without components or out of order, a chunk
is not stored. -/
def Chunk.accepted (c : Chunk) : RowLog :=
  if c.rowIds ≠ [] ∧ c.components ≠ [] ∧ c.isSorted = true then c.logged else 0

/-- The log after an operation. A collection is free to forget rows, which the log does not. -/
def logAfter (log : RowLog) : ChunkStore.Op → RowLog
  | .insertChunk c => c.accepted + log
  | .insertRrdManifest _ => log
  | .gc _ _ => log
  | .dropTimeRange timeline dropRange _ _ => ChunkStore.outside timeline dropRange log
  | .dropEntityPath e => log.filter fun entry => entry.1 ≠ e

theorem logAfter_mono {log log' : RowLog} (h : log ≤ log') (op : ChunkStore.Op) :
    logAfter log op ≤ logAfter log' op := by
  cases op with
  | insertChunk c => exact add_le_add_right h _
  | insertRrdManifest _ => exact h
  | gc _ _ => exact h
  | dropTimeRange _ _ _ _ => exact Multiset.filter_le_filter _ h
  | dropEntityPath _ => exact Multiset.filter_le_filter _ h

namespace ChunkStore

variable {env : Env} {types : EntityPath → TimelineName → Timeline} {kind : ChunkId → Bool}
  {config : ChunkStoreConfig} {s : ChunkStore}

def Op.isGc : Op → Bool
  | .gc _ _ => true
  | _ => false

theorem HasTypes.closed {c d : Chunk} (he : d.entityPath = c.entityPath)
    (hc : ∀ entry ∈ d.columnTypes, entry ∈ c.columnTypes) (h : HasTypes types c) :
    HasTypes types d := fun entry hm => he ▸ h entry (hc entry hm)

/-- As `recorded`. Timelines keep their types, and ids tell static from temporal chunks. -/
def Policy.typed (types : EntityPath → TimelineName → Timeline) (kind : ChunkId → Bool) : Policy where
  chunk := HasTypes types
  closed := @HasTypes.closed types
  insert archive c := c.isStatic = kind c.id ∧ ∀ d, archive[c.id]? = some d → d = c
  announceStatic _ _ := False
  announceTemporal _ _ := False
  unique := True
  insert_unique _ _ _ _ h hd := congrArg Chunk.isStatic (h.2 _ hd)
  sweep := Uncut

theorem Policy.typed_le_recorded : (Policy.typed types kind).Le .recorded where
  chunk _ := trivial
  insert h := h.2
  announceStatic h := h
  announceTemporal h := h
  sweep h := h

theorem Policy.typed_le_kinded : (Policy.typed types kind).Le (.kinded types kind) where
  chunk h := h
  insert h := ⟨h.1, fun d hd => congrArg Chunk.isStatic (h.2 d hd)⟩
  announceStatic h := h.elim
  announceTemporal h := h.elim
  sweep _ := trivial

theorem kinded_of_typed (hkind : ∀ n, kind (env.newId n) = false)
    (h : Reached env (.typed types kind) config s) : Kinded kind s :=
  (h.of_le Policy.typed_le_kinded).invariant (kinded_new kind config)
    fun _ _ _ hcore hk hs => hs.kinded hk hkind hcore

-- ---------------------------------------------------------------------------
-- Operations
-- ---------------------------------------------------------------------------

def Op.Fresh (s : ChunkStore) : Op → Prop
  | .insertChunk c => s.Unused c.id
  | _ => True

theorem insertChunk_refused (env : Env) {c : Chunk} (hu : s.Unused c.id)
    (hnot : ¬ (c.rowIds ≠ [] ∧ c.components ≠ [] ∧ c.isSorted = true)) :
    (s.insertChunk env c).1 = s := by
  rw [insertChunk_of_unused env hu, insertChunkImpl]
  cases hr : s.refusal c with
  | some result => rfl
  | none =>
    obtain ⟨hne, hcomp, -, hsorted, -⟩ := refusal_eq_none.mp hr
    exact absurd ⟨hne, hcomp, hsorted⟩ hnot

theorem rowLog_insertChunk (hkind : ∀ n, kind (env.newId n) = false)
    (h : Reached env (.typed types kind) config s) (hpop : s.Populated) {c : Chunk}
    (hop : (Op.insertChunk c).Legal env (.typed types kind) s) (hu : s.Unused c.id) :
    (s.insertChunk env c).1.rowLog = c.accepted + s.rowLog ∧ (s.insertChunk env c).1.Populated := by
  obtain ⟨hw, hf, hc, -⟩ := hop
  rw [Chunk.accepted]
  split
  case isFalse hnot =>
    rw [insertChunk_refused env hu hnot, zero_add]
    exact ⟨rfl, hpop⟩
  case isTrue haccepted =>
    have hc' : s.Accepted c := ⟨hu, ⟨hw, haccepted.2.2, haccepted.1⟩, haccepted.2.1⟩
    cases hst : c.isStatic with
    | true =>
      obtain ⟨hlog, hpop'⟩ := @rowLog_insertChunk_static env kind s c (kinded_of_typed hkind h) hc'
        hst hpop
      rw [Chunk.logged, hst, if_pos rfl, zero_add]
      exact ⟨hlog, hpop'⟩
    | false =>
      obtain ⟨diffs, -, hlands⟩ :=
        lands_insertChunk h.core hc' hst hf hpop hc fun d hd => h.core.allowed hd
      exact ⟨hlands.rowLog hst, hlands.populated hpop⟩

theorem mem_temporalIdsOf_iff (h : Reached env .recorded config s) {c : Chunk}
    (hphys : s.Physical c) (hst : c.isStatic = false) {e : EntityPath} :
    c.id ∈ s.temporalIdsOf e ↔ c.entityPath = e := by
  rw [mem_temporalIdsOf]
  constructor
  · rintro ⟨timeline, time, hm⟩
    obtain ⟨d, range, harchive, hrange, -⟩ := indexed_of_recorded h _ _ _ hm
    obtain rfl := Option.some.inj (harchive.symm.trans (h.core.physical hphys))
    rw [Chunk.rangeAt] at hrange
    split at hrange
    · assumption
    · cases hrange
  · rintro rfl
    obtain ⟨⟨timeline, tc⟩, hm⟩ := List.exists_mem_of_ne_nil c.timelines (by
      rintro hnil
      simp [Chunk.isStatic, hnil] at hst)
    have htc : c.timeline? timeline = some tc := (OrdMap.lookup_eq_some_iff_mem
      (h.core.storable hphys).wellFormed.timelines_nodup).mpr hm
    have hrange : c.rangeAt (.entity c.entityPath timeline) = some tc.timeRange := by
      rw [Chunk.rangeAt, if_pos rfl, htc]
      rfl
    exact ⟨timeline, tc.timeRange.min, ((consistent_of_recorded h).findable _ c hphys _ _
      hrange).start⟩

theorem filter_sum_logged (p : EntityPath × RowData → Prop) [DecidablePred p] (chunks : List Chunk) :
    (chunks.map Chunk.logged).sum.filter p = (chunks.map fun c => c.logged.filter p).sum := by
  induction chunks with
  | nil => rfl
  | cons c rest ih => rw [List.map_cons, List.sum_cons, Multiset.filter_add, ih]; rfl

theorem entityPath_of_mem_logged {c : Chunk} {entry : EntityPath × RowData}
    (h : entry ∈ c.logged) : entry.1 = c.entityPath := by
  rw [Chunk.logged] at h
  split at h
  · cases Multiset.notMem_zero _ h
  · obtain ⟨row, -, rfl⟩ := List.mem_map.mp (Multiset.mem_coe.mp h)
    rfl

theorem rowLog_dropEntityPath (hkind : ∀ n, kind (env.newId n) = false)
    (h : Reached env (.typed types kind) config s) (hpop : s.Populated) (e : EntityPath) :
    (s.dropEntityPath env e).1.rowLog = s.rowLog.filter (fun entry => entry.1 ≠ e) ∧
      (s.dropEntityPath env e).1.Populated := by
  have hk := kinded_of_typed hkind h
  have hrec : Reached env .recorded config s := h.of_le Policy.typed_le_recorded
  have hsub := dropEntityPath_physicalSub env s e
  refine ⟨?_, hpop.of_sub hsub⟩
  have hphys := dropEntityPath_physical env s e
  have hremoved : ∀ key : ChunkId,
      (s.dropEntityPath env e).1.physicalChunksPerChunkId[key]? =
        if key ∈ (s.staticIdsOf e ++ s.temporalIdsOf e).dedup then none
        else s.physicalChunksPerChunkId[key]? := by
    intro key
    rw [hphys]
    refine if_congr ?_ rfl rfl
    rw [List.mem_dedup, List.mem_append]
  have hall := OrdMap.total_removed (List.nodup_dedup _) hremoved Chunk.logged
  generalize hids : (s.staticIdsOf e ++ s.temporalIdsOf e).dedup = ids at hall
  have hmem : ∀ key, key ∈ ids ↔ key ∈ s.staticIdsOf e ∨ key ∈ s.temporalIdsOf e := fun key => by
    rw [← hids, List.mem_dedup, List.mem_append]
  have hgone : ((ids.filterMap (s.physicalChunksPerChunkId[·]?)).map fun c =>
      c.logged.filter fun entry => entry.1 ≠ e).sum = 0 := by
    refine List.sum_eq_zero fun log hlog => ?_
    obtain ⟨c, hc, rfl⟩ := List.mem_map.mp hlog
    obtain ⟨key, hkey, hc⟩ := List.mem_filterMap.mp hc
    obtain rfl := h.core.keyed hc
    rw [Multiset.filter_eq_nil]
    intro entry hentry
    rw [entityPath_of_mem_logged hentry, not_not]
    cases hst : c.isStatic with
    | true =>
      rw [Chunk.logged, hst] at hentry
      cases Multiset.notMem_zero _ hentry
    | false =>
      rcases (hmem _).mp hkey with hm | hm
      · obtain ⟨component, hcid⟩ := mem_staticIdsOf.mp hm
        rw [hk.physical hc, hk.static hcid] at hst
        cases hst
      · exact (mem_temporalIdsOf_iff hrec hc hst).mp hm
  have hstays : (s.dropEntityPath env e).1.rowLog.filter (fun entry => entry.1 ≠ e) =
      (s.dropEntityPath env e).1.rowLog := by
    rw [rowLog, OrdMap.total, filter_sum_logged]
    refine congrArg List.sum (List.map_congr_left fun c hc => ?_)
    obtain ⟨key, hc⟩ := OrdMap.mem_values.mp hc
    obtain rfl := h.core.keyed (hsub.some hc)
    refine Multiset.filter_eq_self.mpr fun entry hentry => ?_
    rw [entityPath_of_mem_logged hentry]
    intro he
    cases hst : c.isStatic with
    | true =>
      rw [Chunk.logged, hst] at hentry
      cases Multiset.notMem_zero _ hentry
    | false =>
      have hm := (mem_temporalIdsOf_iff hrec (hsub.some hc) hst).mpr he
      rw [hphys, if_pos (.inr hm)] at hc
      cases hc
  have hall : s.rowLog = ((ids.filterMap (s.physicalChunksPerChunkId[·]?)).map Chunk.logged).sum +
      (s.dropEntityPath env e).1.rowLog := hall
  rw [hall, Multiset.filter_add, filter_sum_logged, hgone, hstays, zero_add]

/-- An operation does to the stored rows what it does to the log. A collection may take some. -/
theorem rowLog_apply (hkind : ∀ n, kind (env.newId n) = false)
    (h : Reached env (.typed types kind) config s) (hpop : s.Populated) {op : Op}
    (hop : op.Legal env (.typed types kind) s) (hfresh : op.Fresh s) :
    (s.apply env op).1.rowLog ≤ logAfter s.rowLog op ∧
      (op.isGc = false → (s.apply env op).1.rowLog = logAfter s.rowLog op) ∧
      (s.apply env op).1.Populated := by
  have hexact {op : Op} (he : (s.apply env op).1.rowLog = logAfter s.rowLog op)
      (hp : (s.apply env op).1.Populated) : (s.apply env op).1.rowLog ≤ logAfter s.rowLog op ∧
        (op.isGc = false → (s.apply env op).1.rowLog = logAfter s.rowLog op) ∧
        (s.apply env op).1.Populated := ⟨he.le, fun _ => he, hp⟩
  cases op with
  | insertChunk c =>
    obtain ⟨hlog, hp⟩ := rowLog_insertChunk hkind h hpop hop hfresh
    exact hexact hlog hp
  | insertRrdManifest manifest =>
    have hstatics : manifest.staticMap = [] := List.eq_nil_iff_forall_not_mem.mpr fun entry he =>
      (hop.1 entry he).2
    have htemporals : manifest.temporalMap = [] := List.eq_nil_iff_forall_not_mem.mpr
      fun entry he => (hop.2 entry he).2
    have hsame : (s.insertRrdManifest manifest).1 = s := by
      rw [insertRrdManifest, hstatics, htemporals]
      rfl
    refine hexact ?_ ?_
    · exact congrArg rowLog hsame
    · exact hsame.symm ▸ hpop
  | gc options clock =>
    have hsub := physicalSub_gc env s options clock
    exact ⟨rowLog_le_of_physicalSub hsub, nofun, hpop.of_sub hsub⟩
  | dropTimeRange timeline dropRange deepRemoval reason =>
    have htypes (c : Chunk) (hc : (Policy.typed types kind).chunk c) : HasTypes types c := hc
    obtain ⟨hlog, hp, -⟩ := rowLog_dropTimeRange htypes h.core hpop timeline dropRange deepRemoval
      reason
    exact hexact hlog hp
  | dropEntityPath e =>
    obtain ⟨hlog, hp⟩ := rowLog_dropEntityPath hkind h hpop e
    exact hexact hlog hp

end ChunkStore

-- ---------------------------------------------------------------------------
-- Sessions
-- ---------------------------------------------------------------------------

structure LoggedSession where
  session : QuerySession
  log : RowLog
  /-- Was anything collected? -/
  collected : Bool

namespace LoggedSession

def new (config : ChunkStoreConfig) : LoggedSession := ⟨⟨.new config, {}⟩, 0, false⟩

def act (env : Env) (state : LoggedSession) (action : QuerySession.Action) : LoggedSession where
  session := state.session.act env action
  log :=
    match action with
    | .mutate op => logAfter state.log op
    | _ => state.log
  collected :=
    match action with
    | .mutate op => state.collected || op.isGc
    | _ => state.collected

variable {env : Env} {types : EntityPath → TimelineName → Timeline} {kind : ChunkId → Bool}
  {config : ChunkStoreConfig} {state : LoggedSession}

/-- Chunks are inserted under ids of their own, with one type for every timeline of an entity. -/
def Legal (env : Env) (types : EntityPath → TimelineName → Timeline) (kind : ChunkId → Bool)
    (state : LoggedSession) : QuerySession.Action → Prop
  | .mutate op =>
    op.Legal env (.typed types kind) state.session.store ∧ op.Fresh state.session.store
  | _ => True

/-- The states of a session, where `kind` says which chunk ids are static. -/
abbrev Reached (env : Env) (types : EntityPath → TimelineName → Timeline) (kind : ChunkId → Bool)
    (config : ChunkStoreConfig) (state : LoggedSession) : Prop :=
  Reachable (new config) (act env) (Legal env types kind) state

theorem Reached.recorded (h : Reached env types kind config state) :
    QuerySession.ReachedRecorded env config state.session ∧
      ChunkStore.Reached env (.typed types kind) config state.session.store := by
  induction h with
  | init => exact ⟨.init, .init⟩
  | @step state action _ hok ih =>
    cases action with
    | mutate op =>
      have hop : QuerySession.Action.Recorded env state.session (.mutate op) :=
        hok.1.of_le ChunkStore.Policy.typed_le_recorded
      exact ⟨.step ih.1 hop, .step ih.2 hok.1⟩
    | range newId query e components =>
      have hop : QuerySession.Action.Recorded env state.session (.range newId query e components) :=
        trivial
      exact ⟨.step ih.1 hop, ih.2⟩
    | clear =>
      have hop : QuerySession.Action.Recorded env state.session .clear := trivial
      exact ⟨.step ih.1 hop, ih.2⟩

/-- The log of a store bounds what it holds, and is all of it as long as nothing was collected. -/
structure Refines (state : LoggedSession) : Prop where
  le : state.session.store.rowLog ≤ state.log
  eq : state.collected = false → state.session.store.rowLog = state.log

structure Keeps (state : LoggedSession) : Prop extends state.Refines where
  populated : state.session.store.Populated

theorem Keeps.act (hkind : ∀ n, kind (env.newId n) = false)
    (hreached : ChunkStore.Reached env (.typed types kind) config state.session.store)
    (h : state.Keeps) {action : QuerySession.Action} (hok : Legal env types kind state action) :
    (state.act env action).Keeps := by
  obtain ⟨hlog, hpop⟩ := h
  cases action with
  | mutate op =>
    obtain ⟨hle, heq, hpop'⟩ := ChunkStore.rowLog_apply hkind hreached hpop hok.1 hok.2
    refine ⟨⟨hle.trans (logAfter_mono hlog.le op), fun hnot => ?_⟩, hpop'⟩
    obtain ⟨hnot, hgc⟩ := Bool.or_eq_false_iff.mp hnot
    exact (heq hgc).trans (congrArg (logAfter · op) (hlog.eq hnot))
  | range newId query e components => exact ⟨⟨hlog.le, hlog.eq⟩, hpop⟩
  | clear => exact ⟨⟨hlog.le, hlog.eq⟩, hpop⟩

theorem keeps_new (config : ChunkStoreConfig) : Keeps (new config) := by
  refine ⟨⟨le_rfl, fun _ => rfl⟩, fun key c hc => ?_⟩
  simp [new, ChunkStore.new] at hc

theorem keeps_of_reached (hkind : ∀ n, kind (env.newId n) = false)
    (h : Reached env types kind config state) : state.Keeps :=
  Reachable.invariant_with (fun _ hr => (Reached.recorded hr).2) (keeps_new config)
    (fun _ _ hreached hkeeps hok => hkeeps.act hkind hreached hok) h

/-- In every run, the rows of the store are those of the log: none is lost, none is made up, and none
is stored twice. -/
theorem refines_of_reached (hkind : ∀ n, kind (env.newId n) = false)
    (h : Reached env types kind config state) : state.Refines := (keeps_of_reached hkind h).toRefines

-- ---------------------------------------------------------------------------
-- Queries
-- ---------------------------------------------------------------------------

theorem answers_rowsOf (s : ChunkStore) (query : RangeQuery) (e : EntityPath)
    (component : ComponentIdentifier) :
    (↑((s.rowsOf e).filter (·.answers query component)) : Multiset RowData) =
      (s.rowLog.filter fun entry => entry.1 = e ∧ entry.2.answers query component).map Prod.snd := by
  rw [ChunkStore.rowsOf, ChunkStore.rowLog, OrdMap.total]
  generalize s.physicalChunksPerChunkId.values = chunks
  induction chunks with
  | nil => rfl
  | cons c rest ih =>
    rw [List.map_cons, List.sum_cons, Multiset.filter_add, Multiset.map_add, ← ih]
    have hone : ((c.logged.filter fun entry => entry.1 = e ∧ entry.2.answers query component).map
        Prod.snd : Multiset RowData) =
          if c.entityPath = e then ↑(c.rows.filter (·.answers query component)) else 0 := by
      cases hst : c.isStatic with
      | true =>
        have hnil : c.rows.filter (·.answers query component) = [] := by
          refine List.filter_eq_nil_iff.mpr fun row hrow ha => ?_
          obtain ⟨i, -, rfl⟩ := List.mem_map.mp hrow
          have htimelines : c.timelines = [] := List.isEmpty_iff.mp hst
          have hnone : c.timeline? query.timeline = none := by
            rw [Chunk.timeline?, htimelines]
            rfl
          simp [RowData.answers, RowData.queried, QueriedRow.answers, Chunk.rowAt, hnone] at ha
        rw [Chunk.logged, hst, hnil]
        simp
      | false =>
        rw [Chunk.logged_of_temporal hst, Multiset.filter_coe, Multiset.map_coe, List.filter_map,
          List.map_map]
        by_cases he : c.entityPath = e
        · simp [he, Function.comp_def]
        · simp [he, Function.comp_def]
    rw [hone, List.filter_cons]
    by_cases he : c.entityPath = e
    · simp only [he, decide_true, if_true, List.flatMap_cons, List.filter_append, Multiset.coe_add]
    · simp only [he, decide_false, Bool.false_eq_true, if_false, zero_add]

variable {query : RangeQuery} {e : EntityPath} {component : ComponentIdentifier}

/-- From logging to querying: at any point of any session that collected nothing, a range query
returns the rows that were logged in the range and not dropped, each as often as it was logged.
Splits, compactions, the indices and the caches do not show. -/
theorem range_returns_logged (hkind : ∀ n, kind (env.newId n) = false)
    (h : Reached env types kind config state) (hall : state.collected = false)
    (newId : Nat → ChunkId) (hext : query.includeExtendedBounds = false)
    (hstatic : state.session.store.staticChunkId? e component = none)
    (hnear : state.session.store.StartsNear query e component)
    (components : List ComponentIdentifier) (hm : component ∈ components) :
    let results := (state.session.caches.range newId state.session.store query e components).2
    (↑(((results.components[component]?).getD []).flatMap Chunk.rows) : Multiset RowData) =
      (state.log.filter fun entry => entry.1 = e ∧ entry.2.answers query component).map
        fun entry => entry.2.kept query component := by
  obtain ⟨hrec, -⟩ := Reached.recorded h
  obtain ⟨hcore, hco⟩ := hrec.reached.coherent
  have hlog := (keeps_of_reached hkind h).eq hall
  have hmap : (fun entry : EntityPath × RowData => entry.2.kept query component) =
      (·.kept query component) ∘ Prod.snd := rfl
  dsimp only
  rw [(QuerySession.range_spec hcore hco newId query e components).2,
    ChunkStore.getD_rangeUncached newId components hm, ← hlog, hmap, ← Multiset.map_map,
    ← answers_rowsOf, Multiset.map_coe, Multiset.coe_eq_coe]
  exact (ChunkStore.rows_rangeChunks hrec.store newId hext hstatic hnear).1

-- ---------------------------------------------------------------------------
-- A run on fixed inputs
-- ---------------------------------------------------------------------------

/-- The second chunk is compacted with the first one, whose later row is dropped. -/
def droppedRun : LoggedSession :=
  [.mutate (.insertChunk QuerySession.rangeRunFirst),
    .range (500 + ·) (QuerySession.rangeRunQuery 0 3) ["e"] ["c"],
    .mutate (.insertChunk (.single 2 3 20)),
    .mutate (.dropTimeRange "t" ⟨.newTemporal 5, .newTemporal 12⟩ true .explicitDrop)].foldl
      (act .plain) (new .DEFAULT)

theorem legal_insertChunk {c : Chunk} (hw : c.WellFormed) (hid : c.id < 1000)
    (ht : ChunkStore.HasTypes types c) (hk : c.isStatic = kind c.id)
    (hnew : (state.session.store.archive[c.id]?).isNone ∧
      (state.session.store.physicalChunksPerChunkId[c.id]?).isNone ∧
      (state.session.store.chunksLineage[c.id]?).isNone ∧
      (state.session.store.leakyCompactions[c.id]?).isNone ∧
      (state.session.store.danglingSplits[c.id]?).isNone) :
    Legal .plain types kind state (.mutate (.insertChunk c)) := by
  simp only [Option.isNone_iff_eq_none] at hnew
  obtain ⟨harchive, hphysical, hlineage, hleaky, hdangling⟩ := hnew
  refine ⟨⟨hw, Env.plain_not_future hid _, ht, hk, fun d hd => ?_⟩, ?_⟩
  · cases harchive ▸ hd
  · exact ⟨hphysical, hlineage, hleaky, hdangling⟩

theorem reached_droppedRun :
    Reached .plain (fun _ _ => ⟨"t", .sequence⟩) (fun _ => false) .DEFAULT droppedRun := by
  rw [droppedRun, List.foldl_cons, List.foldl_cons, List.foldl_cons, List.foldl_cons,
    List.foldl_nil]
  refine .step (.step (.step (.step .init ?_) trivial) ?_) ⟨trivial, trivial⟩
  · refine legal_insertChunk (by decide) (by decide) ?_ rfl (by decide +kernel)
    unfold ChunkStore.HasTypes
    decide
  · refine legal_insertChunk (by decide) (by decide) ?_ rfl (by decide +kernel)
    unfold ChunkStore.HasTypes
    decide

theorem refines_droppedRun : droppedRun.Refines :=
  refines_of_reached (fun _ => rfl) reached_droppedRun

/-- The rows at 0 and at 20 are returned. -/
theorem range_returns_logged_droppedRun :
    let results := (droppedRun.session.caches.range (500 + ·) droppedRun.session.store
      (QuerySession.rangeRunQuery 0 20) ["e"] ["c"]).2
    (↑(((results.components["c"]?).getD []).flatMap Chunk.rows) : Multiset RowData) =
      (droppedRun.log.filter fun entry => entry.1 = ["e"] ∧
        entry.2.answers (QuerySession.rangeRunQuery 0 20) "c").map
          fun entry => entry.2.kept (QuerySession.rangeRunQuery 0 20) "c" := by
  refine range_returns_logged (fun _ => rfl) reached_droppedRun (by decide) (500 + ·) rfl
    (by decide +kernel) (fun start hstart => ?_) ["c"] (List.mem_singleton_self _)
  have hstarts : (droppedRun.session.store.at (.component ["e"] "t" "c")).perStartTime.keys.all
      fun start => decide ((0 : Int) < start.asI64 + i64Max) := by decide +kernel
  exact of_decide_eq_true (List.all_eq_true.mp hstarts start (TreeMap.mem_keys.mpr hstart))

example : (droppedRun.session.store.physicalChunksPerChunkId.values.map (·.rowIds)) = [[1, 3]] := by
  decide +kernel

end LoggedSession

end DimosViewer
