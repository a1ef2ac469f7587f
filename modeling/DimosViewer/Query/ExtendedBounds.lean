import DimosViewer.Query.RangeRuns
import DimosViewer.Store.RangeLookup

/-!
# Extended bounds across chunks

A range query with extended bounds is meant to find the neighbors of its range, also in other
chunks. The chunks that the index yields are filtered by the range that was asked for, so a neighbor
is found only in a chunk that reaches into the range.
-/

namespace DimosViewer

open Reach (Reachable)
open Std (TreeMap)

namespace ChunkStore

variable {env : Env} {config : ChunkStoreConfig}

-- ---------------------------------------------------------------------------
-- Every index entry is that of a chunk
-- ---------------------------------------------------------------------------

/-- Nothing is announced or collected, and an id never stands for other content. -/
def Policy.logged : Policy where
  chunk _ := True
  closed _ _ h := h
  insert archive c := ∀ d, archive[c.id]? = some d → d = c
  announceStatic _ _ := False
  announceTemporal _ _ := False
  unique := False
  insert_unique := Policy.truthful.insert_unique
  sweep _ _ := False

/-- What an index lists is a chunk that starts there. -/
def Indexed (s : ChunkStore) : Prop :=
  ∀ slot key (cid : ChunkId), cid ∈ (s.at slot).startIds key →
    ∃ d range, s.archive[cid]? = some d ∧ d.rangeAt slot = some range ∧ range.min = key

theorem indexed_new (config : ChunkStoreConfig) : (ChunkStore.new config).Indexed := by
  intro slot key cid h
  rw [at_new] at h
  exact (ChunkIdSetPerTime.not_mem_startIds_default h).elim

theorem Indexed.of_sub {s s' : ChunkStore} (h : s.Indexed) (hs : SlotsSub s s' fun _ => False)
    (ha : ArchiveSub s s') : s'.Indexed := by
  intro slot key cid hm
  obtain ⟨d, range, hd, hr⟩ := h slot key cid (((hs slot key cid).1 hm).resolve_right id)
  exact ⟨d, range, ha cid d hd, hr⟩

theorem Indexed.insertPhysical {s : ChunkStore} (h : s.Indexed) {c : Chunk}
    (hid : ∀ d, s.archive[c.id]? = some d → d = c) : (s.insertPhysical c).Indexed :=
  h.of_sub (.of_at (at_insertPhysical s c)) (archiveSub_insertPhysical hid)

theorem Indexed.insert {s s' : ChunkStore} (h : s.Indexed) {c : Chunk} (hw : c.WellFormed)
    (hid : ∀ d, s.archive[c.id]? = some d → d = c)
    (hs : SlotsSub (s.insertIntoIndices env c) s' fun _ => False) (ha : s'.archive = s.archive) :
    (s'.insertPhysical c).Indexed := by
  have hsub : ArchiveSub s (s'.insertPhysical c) := fun key d hd =>
    archiveSub_insertPhysical (fun d hd => hid d (ha ▸ hd)) key d (ha ▸ hd)
  intro slot key cid hm
  rw [at_insertPhysical] at hm
  have hm := ((hs slot key cid).1 hm).resolve_right id
  rw [at_insertIntoIndices env hw] at hm
  cases hr : c.rangeAt slot with
  | none =>
    rw [hr] at hm
    obtain ⟨d, range, hd, hrange⟩ := h slot key cid hm
    exact ⟨d, range, hsub cid d hd, hrange⟩
  | some range =>
    rw [hr, Option.elim_some, ChunkIdSetPerTime.mem_startIds_insertRange] at hm
    obtain ⟨rfl, rfl⟩ | hm := hm
    · exact ⟨c, range, (OrdMap.getElem?_insert _ _ _ _).trans (if_pos rfl), hr, rfl⟩
    · obtain ⟨d, range, hd, hrange⟩ := h slot key cid hm
      exact ⟨d, range, hsub cid d hd, hrange⟩

/-- Nothing is announced, and an id never stands for other content. -/
structure Policy.Traceable (pol : Policy) : Prop where
  noStatic : ∀ archive entry, ¬ pol.announceStatic archive entry
  noTemporal : ∀ archive entry, ¬ pol.announceTemporal archive entry
  insert : ∀ {archive c}, pol.insert archive c → ∀ d, archive[c.id]? = some d → d = c

theorem Policy.logged_traceable : Policy.logged.Traceable := ⟨fun _ _ => id, fun _ _ => id, id⟩

theorem Step.indexed {pol : Policy} (hpol : pol.Traceable) {s s' : ChunkStore}
    (hcore : Core env pol s) (h : s.Indexed) (hs : Step env pol s diffs s') : s'.Indexed := by
  have harchive := hs.archiveSub hcore hpol.insert
  cases hs with
  | draw _ | nextInsert | forgetSplit _ | recordSplit _ _ _ | recordLineage _ _ =>
    exact h.of_sub (.of_at fun slot => by cases slot <;> rfl) harchive
  | announced _ => exact h
  | announceStatic _ hp => exact absurd hp (hpol.noStatic _ _)
  | announceTemporal _ hp => exact absurd hp (hpol.noTemporal _ _)
  | replaceVirtual reason hw _ =>
    refine h.of_sub (slotsSub_removeChunksDeep ?_ reason _ _) harchive
    exact fun d hd => List.mem_singleton.mp hd ▸ hw
  | removeShallow reason exhausted _ _ =>
    exact h.of_sub (.of_at (removeChunksShallow_sameIndices _ _ _ _ _).at_eq) harchive
  | removeDeep reason hp _ | sweep reason hp _ _ =>
    exact h.of_sub (slotsSub_removeChunksDeep
      (fun c hc => (hcore.storable (hp c hc)).wellFormed) reason _ _) harchive
  | dropEntityPath e => exact h.of_sub (slotsSub_dropEntityPath s e _) harchive
  | @store _ c _ hc hf hn ha hi hst =>
    have hid : ∀ d, s.archive[c.id]? = some d → d = c := fun d hd =>
      hi.elim (fun hi => hpol.insert hi d hd) fun hx => absurd (.archive hd) hx.unindexed
    cases hst with
    | @static lineage hst _ =>
      obtain ⟨hl, hp⟩ := storeStatic_frame env s c lineage
      have hs' : Indexed (s.storeStatic env c lineage).1 :=
        h.of_sub (.of_at hl.at_eq) (.of_eq hl.archive)
      exact hs'.insertPhysical fun d hd => hid d (hl.archive ▸ hd)
    | asIs before _ _ => exact h.insert hc.wellFormed hid (.of_at fun _ => rfl) rfl
    | @compacted n elected compacted hcomp =>
      have hel := (hcore.storable hcomp.physical).wellFormed
      have hw : ∀ d ∈ [elected], d.WellFormed := fun d hd => List.mem_singleton.mp hd ▸ hel
      have hrem : SlotsSub ({ s with issued := n }.insertIntoIndices env compacted)
          ({ s with issued := n }.replaceElected env elected compacted).1 fun _ => False :=
        slotsSub_removeChunksDeep hw .compaction unlimited _
      have hn : Indexed { s with issued := n } :=
        h.of_sub (.of_at fun slot => by cases slot <;> rfl) (.of_eq rfl)
      rw [compactInto_eq]
      refine hn.insert (hcomp.storable hc).wellFormed (fun d hd => ?_)
        (hrem.trans (.of_at fun slot => by cases slot <;> rfl))
        (replaceElected_sameLineage env { s with issued := n } elected compacted).archive
      exact absurd (DrawnIn.future hcomp.drawn) (hcore.indexes (.archive hd))

theorem consistent_of_logged {s : ChunkStore} (h : Reached env .logged config s) :
    s.Consistent where
  keyed := h.core.keyed
  findable := h.invariant (findable_new config) fun _ _ _ hcore hf hs =>
    hs.findable hcore (fun hp => hp.elim) hf
  wellFormed hc := (h.core.storable hc).wellFormed

theorem indexed_of_reached {s : ChunkStore} (h : Reached env .logged config s) : s.Indexed :=
  h.invariant (indexed_new config) fun _ _ _ hcore hi hs =>
    hs.indexed Policy.logged_traceable hcore hi

-- ---------------------------------------------------------------------------
-- Neighbors
-- ---------------------------------------------------------------------------

def componentTimes (s : ChunkStore) (e : EntityPath) (timeline : TimelineName)
    (component : ComponentIdentifier) : Set TimeInt :=
  {t | ∃ c, s.Physical c ∧ c.entityPath = e ∧ t ∈ c.timesOf timeline component}

def Returns (s : ChunkStore) (mode : ChunkTrackingMode) (query : RangeQuery) (e : EntityPath)
    (component : ComponentIdentifier) (t : TimeInt) : Prop :=
  ∃ c ∈ (s.rangeRelevantChunks mode query e component).chunks,
    t ∈ c.timesOf query.timeline component

/-- The call returns, and with the last row before the range and the first one after it. -/
structure FindsNeighbors (s : ChunkStore) (mode : ChunkTrackingMode) (query : RangeQuery)
    (e : EntityPath) (component : ComponentIdentifier) : Prop where
  returns : (s.rangeRelevantChunks mode query e component).panicked = false
  before : ∀ t,
    IsGreatest {u ∈ s.componentTimes e query.timeline component | u < query.range.min} t →
    s.Returns mode query e component t
  after : ∀ t, IsLeast {u ∈ s.componentTimes e query.timeline component | query.range.max < u} t →
    s.Returns mode query e component t

def Reaches (s : ChunkStore) (query : RangeQuery) (e : EntityPath)
    (component : ComponentIdentifier) (t : TimeInt) : Prop :=
  ∃ c timeRange, s.Physical c ∧ t ∈ c.timesOf query.timeline component ∧
    c.rangeAt (.component e query.timeline component) = some timeRange ∧
    timeRange.intersects query.range ∧
    ¬ (s.at (.component e query.timeline component)).Hides timeRange (query.range.min.asI64 - 1)

def WalkPhysical (s : ChunkStore) (query : RangeQuery) (e : EntityPath)
    (component : ComponentIdentifier) : Prop :=
  let perTime := s.at (.component e query.timeline component)
  ∀ key (cid : ChunkId), cid ∈ perTime.startIds key → (rangeBounds query perTime).1 ≤ key →
    key ≤ (rangeBounds query perTime).2 → s.physicalChunksPerChunkId.contains cid

theorem panicked_rangeRelevantChunks {s : ChunkStore} {query : RangeQuery}
    (hstatic : s.staticChunkId? e component = none) (mode : ChunkTrackingMode) :
    (s.rangeRelevantChunks mode query e component).panicked = false ↔
      (mode = .panicOnMissing → s.WalkPhysical query e component) := by
  have hwalk : s.WalkPhysical query e component ↔
      ∀ cid ∈ range query (s.perTimeOfComponent? e query.timeline component).toList,
        s.physicalChunksPerChunkId.contains cid := by
    simp only [mem_range_perTime, WalkPhysical]
    exact ⟨fun h cid ⟨key, hm, hmin, hmax⟩ => h key cid hm hmin hmax,
      fun h key cid hm hmin hmax => h cid ⟨key, hm, hmin, hmax⟩⟩
  rw [hwalk, rangeRelevantChunks, hstatic]
  cases mode <;> simp [fromChunkIds]

theorem entityPath_of_rangeAt {c : Chunk} {range : AbsoluteTimeRange}
    (h : c.rangeAt (.component e timeline component) = some range) : c.entityPath = e := by
  rw [Chunk.rangeAt] at h
  split at h
  · assumption
  · cases h

theorem returns_iff {s : ChunkStore} (h : Reached env .logged config s) {query : RangeQuery}
    (hext : query.includeExtendedBounds = true)
    (hstatic : s.staticChunkId? e component = none) (mode : ChunkTrackingMode) (t : TimeInt) :
    s.Returns mode query e component t ↔ s.Reaches query e component t := by
  have hcons := consistent_of_logged h
  have hreach : ChunkIdSetPerTime.reach query = query.range.min.asI64 - 1 := by
    rw [ChunkIdSetPerTime.reach, if_pos hext]
  constructor
  · rintro ⟨c, hc, ht⟩
    obtain ⟨cid, hlisted, hphys⟩ := listed_of_mem_rangeRelevantChunks hstatic hc
    obtain ⟨key, hkey, hbounds⟩ := mem_range_perTime.mp hlisted
    obtain ⟨d, timeRange, harchive, hrange, rfl⟩ := indexed_of_reached h _ _ _ hkey
    obtain rfl := Option.some.inj (harchive.symm.trans (h.core.physical hphys))
    obtain rfl := hcons.keyed hphys
    have he := entityPath_of_rangeAt hrange
    have hw := hcons.wellFormed hphys
    obtain ⟨timeRange', hrange', -, hmin⟩ := hw.exists_range ht
    rw [he] at hrange'
    obtain rfl := Option.some.inj (hrange.symm.trans hrange')
    obtain ⟨-, -, timeRange', hrange', hmeets⟩ :=
      (mem_rangeRelevantChunks_iff hcons.keyed hw hstatic mode he).mp hc
    obtain rfl := Option.some.inj (hrange.symm.trans hrange')
    refine ⟨d, timeRange, hphys, ht, hrange, hmeets, ?_⟩
    rw [← hreach]
    exact (ChunkIdSetPerTime.inBounds_iff (hcons.findable _ d hphys _ _ hrange) hmin hmeets).mp
      hbounds
  · rintro ⟨c, timeRange, hphys, ht, hrange, hmeets, hhides⟩
    have he := entityPath_of_rangeAt hrange
    have hw := hcons.wellFormed hphys
    obtain ⟨timeRange', hrange', -, hmin⟩ := hw.exists_range ht
    rw [he] at hrange'
    obtain rfl := Option.some.inj (hrange.symm.trans hrange')
    refine ⟨c, (mem_rangeRelevantChunks_iff hcons.keyed hw hstatic mode he).mpr
      ⟨hphys, ?_, timeRange, hrange, hmeets⟩, ht⟩
    have hlists := hcons.findable c.id c hphys _ _ hrange
    exact mem_range_perTime.mpr ⟨timeRange.min, hlists.start,
      (ChunkIdSetPerTime.inBounds_iff hlists hmin hmeets).mpr (hreach ▸ hhides)⟩

/-- Neighbors across chunks are found if a chunk of theirs reaches into the range that is asked for,
and no chunk starts so far before the range that it hides it. In the mode `panicOnMissing` no chunk
on the way may be missing. -/
theorem findsNeighbors_iff {s : ChunkStore} (h : Reached env .logged config s) {query : RangeQuery}
    (hext : query.includeExtendedBounds = true) {e : EntityPath} {component : ComponentIdentifier}
    (hstatic : s.staticChunkId? e component = none) (mode : ChunkTrackingMode) :
    s.FindsNeighbors mode query e component ↔
      (mode = .panicOnMissing → s.WalkPhysical query e component) ∧
      (∀ t, IsGreatest {u ∈ s.componentTimes e query.timeline component | u < query.range.min} t →
        s.Reaches query e component t) ∧
      ∀ t, IsLeast {u ∈ s.componentTimes e query.timeline component | query.range.max < u} t →
        s.Reaches query e component t := by
  simp only [← returns_iff h hext hstatic mode, ← panicked_rangeRelevantChunks hstatic mode]
  exact ⟨fun hfinds => ⟨hfinds.returns, hfinds.before, hfinds.after⟩,
    fun ⟨hreturns, hbefore, hafter⟩ => ⟨hreturns, hbefore, hafter⟩⟩

-- ---------------------------------------------------------------------------
-- Runs on fixed inputs
-- ---------------------------------------------------------------------------

def neighborQuery (time : Int) : RangeQuery where
  timeline := "t"
  range := ⟨.newTemporal time, .newTemporal time⟩
  includeExtendedBounds := true

theorem mem_values_of_physical {s : ChunkStore} (h : s.Physical c) :
    c ∈ s.physicalChunksPerChunkId.values :=
  OrdMap.mem_values.mpr ⟨c.id, h⟩

/-- Rows at 0 and 10 in one chunk, the query is between them. -/
theorem findsNeighbors_joint :
    (run .plain .COMPACTION_DISABLED [.insertChunk QuerySession.rangeRunFirst]).FindsNeighbors
      .report (neighborQuery 5) ["e"] "c" := by
  have hreached : Reached .plain .logged .COMPACTION_DISABLED
      (run .plain .COMPACTION_DISABLED [.insertChunk QuerySession.rangeRunFirst]) := by
    refine reached_run ⟨⟨by decide, Env.plain_not_future (by decide) _, trivial, fun d hd => ?_⟩,
      trivial⟩
    simp [ChunkStore.new] at hd
  generalize hs : run .plain .COMPACTION_DISABLED [.insertChunk QuerySession.rangeRunFirst] = s
    at hreached
  have hreaches (t) (ht : t ∈ s.componentTimes ["e"] "t" "c") :
      s.Reaches (neighborQuery 5) ["e"] "c" t := by
    obtain ⟨c, hphys, -, ht⟩ := ht
    have hvalues : s.physicalChunksPerChunkId.values = [QuerySession.rangeRunFirst] :=
      hs ▸ by decide +kernel
    obtain rfl := List.mem_singleton.mp (hvalues ▸ mem_values_of_physical hphys)
    refine ⟨_, ⟨.newTemporal 0, .newTemporal 10⟩, hphys, ht, by decide, by decide, ?_⟩
    rintro ⟨later, -, hlt, hfar⟩
    have hlt : (0 : Int) < later.asI64 := hlt
    have hfar : later.asI64 + i64Max ≤ 5 - 1 := hfar
    unfold i64Max at hfar
    omega
  exact (findsNeighbors_iff hreached rfl (hs ▸ by decide +kernel) .report).mpr
    ⟨fun hmode => absurd hmode (by decide), fun t ht => hreaches t ht.1.1, fun t ht => hreaches t ht.1.1⟩

/-- Rows at 0 and 10 in two chunks. -/
theorem neighbors_not_found :
    let s := run .plain .COMPACTION_DISABLED
      [.insertChunk (.single 1 1 0), .insertChunk (.single 2 2 10)]
    Reached .plain .logged .COMPACTION_DISABLED s ∧
      ¬ s.FindsNeighbors .report (neighborQuery 5) ["e"] "c" := by
  refine ⟨reached_run ⟨⟨by decide, Env.plain_not_future (by decide) _, trivial, fun d hd => ?_⟩,
    ⟨by decide, Env.plain_not_future (by decide) _, trivial, fun d hd => ?_⟩, trivial⟩,
    fun hfinds => ?_⟩
  · simp [ChunkStore.new] at hd
  · have hnone : (((ChunkStore.new .COMPACTION_DISABLED).apply .plain
        (.insertChunk (.single 1 1 0))).1.archive[(2 : ChunkId)]?).isNone = true := by
      decide +kernel
    cases Option.isNone_iff_eq_none.mp hnone ▸ hd
  · have hbefore := hfinds.before (.newTemporal 0) ⟨⟨⟨.single 1 1 0, ?_, rfl, ?_⟩, ?_⟩, ?_⟩
    · obtain ⟨c, hc, -⟩ := hbefore
      have hnil : ((run .plain .COMPACTION_DISABLED [.insertChunk (.single 1 1 0),
          .insertChunk (.single 2 2 10)]).rangeRelevantChunks .report (neighborQuery 5) ["e"]
          "c").chunks = [] := by decide +kernel
      exact absurd (hnil ▸ hc) List.not_mem_nil
    · unfold Physical
      decide +kernel
    · decide
    · decide
    · rintro u ⟨⟨c, hphys, -, hu⟩, hlt⟩
      have hall : ∀ c ∈ (run .plain .COMPACTION_DISABLED [.insertChunk (.single 1 1 0),
          .insertChunk (.single 2 2 10)]).physicalChunksPerChunkId.values,
          ∀ u ∈ c.timesOf "t" "c", u < .newTemporal 5 → u ≤ .newTemporal 0 := by decide +kernel
      exact hall c (mem_values_of_physical hphys) u hu hlt

end ChunkStore

end DimosViewer
