import DimosViewer.Query.Invalidation

/-!
# Latest-at over whole sessions

A query through the caches returns a latest one of the stored rows, whatever was inserted, dropped,
collected and looked up before it.
-/

namespace DimosViewer

open Grouping
open Reach (Reachable)
open Std (TreeMap TreeSet)

variable {query : LatestAtQuery} {e : EntityPath} {component : ComponentIdentifier}

-- ---------------------------------------------------------------------------
-- The latest row at other times
-- ---------------------------------------------------------------------------

theorem RowData.latestKey?_congr {row : RowData} {key : TimeInt ×ₗ RowId} {query' : LatestAtQuery}
    (h : row.latestKey? query component = some key) (ht : query'.timeline = query.timeline)
    (hle : (ofLex key).1 ≤ query'.at') : row.latestKey? query' component = some key := by
  obtain ⟨hcell, time, htime, -, rfl⟩ := latestKey?_eq_some.mp h
  exact latestKey?_eq_some.mpr ⟨hcell, time, ht ▸ htime, hle, rfl⟩

namespace RowLog.IsLatest

variable {log log' : RowLog} {row row' : RowData} {key key' : TimeInt ×ₗ RowId}

theorem congr (h : log.IsLatest e query component row key)
    (hsame : ∀ row key, row.latestKey? query component = some key →
      ((e, row) ∈ log ↔ (e, row) ∈ log')) : log'.IsLatest e query component row key where
  mem := (hsame row key h.answers).mp h.mem
  answers := h.answers
  greatest row' key' hm hkey := h.greatest row' key' ((hsame row' key' hkey).mpr hm) hkey

theorem at_own (h : log.IsLatest e query component row key) :
    log.IsLatest e ⟨query.timeline, (ofLex key).1⟩ component row key where
  mem := h.mem
  answers := RowData.latestKey?_congr h.answers rfl le_rfl
  greatest row' key' hm hkey :=
    h.greatest row' key' hm (RowData.latestKey?_congr hkey rfl
      ((RowData.latestKey?_time_le hkey).trans (RowData.latestKey?_time_le h.answers)))

theorem of_own (h : log.IsLatest e query component row key)
    (h' : log.IsLatest e ⟨query.timeline, (ofLex key).1⟩ component row' key') :
    log.IsLatest e query component row' key' where
  mem := h'.mem
  answers := RowData.latestKey?_congr h'.answers rfl
    ((RowData.latestKey?_time_le h'.answers).trans (RowData.latestKey?_time_le h.answers))
  greatest row'' key'' hm hkey :=
    (h.greatest row'' key'' hm hkey).trans (h'.greatest row key h.mem h.at_own.answers)

end RowLog.IsLatest

def ChunkStore.IsLatestUnit (s : ChunkStore) (query : LatestAtQuery) (e : EntityPath)
    (component : ComponentIdentifier) (unit : UnitChunkShared) : Prop :=
  ∃ row key, unit.chunk.rows = [row] ∧ unit.index query.timeline = some key ∧
    s.rowLog.IsLatest e query component row key

def ChunkStore.OnlyLeast (s : ChunkStore) (query : LatestAtQuery) (e : EntityPath)
    (component : ComponentIdentifier) : Prop :=
  ∀ row key, (e, row) ∈ s.rowLog → row.latestKey? query component = some key →
    key = toLex (TimeInt.MIN, RowId.ZERO)

/-- Every look-up of a query is walkable, those of the tombstones included. -/
def ChunkStore.WalkableFor (s : ChunkStore) (query : LatestAtQuery)
    (e : EntityPath) (components : List ComponentIdentifier) : Prop :=
  (∀ path ∈ e.lineage, s.Walkable query path QueryCache.clearIsRecursive) ∧
    ∀ component ∈ components, s.Walkable query e component

-- ---------------------------------------------------------------------------
-- One look-up
-- ---------------------------------------------------------------------------

namespace LatestAtCache

theorem table_written {cache : LatestAtCache} {perQueryTime : TreeMap TimeInt LatestAtCachedChunk}
    {t : TimeInt} (h : LatestAtCache.table { cache with perQueryTime } t = some unit) :
    Kept cache.pendingInvalidations t ∧ units perQueryTime t = some unit := by
  rw [table_apply] at h
  by_cases hkept : Kept cache.pendingInvalidations t
  · rw [if_pos hkept] at h
    exact ⟨hkept, h⟩
  · rw [if_neg hkept] at h
    cases h

theorem latestAt_cases (unitId : ChunkId) (s : ChunkStore) (query : LatestAtQuery)
    (e : EntityPath) (component : ComponentIdentifier) (cache : LatestAtCache) :
    let found := s.latestFound unitId query.timeline e component query.at'
    let result := cache.handlePendingInvalidation.latestAt unitId s query e component
    result.2.1 = CanonicalMemo.answer (s.latestFound unitId query.timeline e component) cache.table
        query.at' ∧
      (result.2.1 = none → result.2.2 = (s.latestResults query e component).missingVirtual) ∧
      ∀ t unit, result.1.table t = some unit → cache.table t = some unit ∨
        ∃ time unit', found = some (time, unit') ∧ unit = (cache.table time).getD unit' ∧
          (t = time ∨ t = query.at' ∧ ¬ time.isStatic) := by
  have hf := ChunkStore.latestFound.eq_1 unitId s query.timeline e component query.at'
  have hunits : cache.table = units cache.handlePendingInvalidation.perQueryTime := rfl
  have hsame (t unit) (ht : cache.handlePendingInvalidation.table t = some unit) :
      cache.table t = some unit := by
    rw [table_apply] at ht
    split at ht
    · rwa [hunits]
    · cases ht
  rw [hunits] at hsame ⊢
  generalize cache.handlePendingInvalidation = looked at *
  rw [LatestAtCache.latestAt]
  cases hm : looked.perQueryTime[query.at']? with
  | some cached =>
    refine ⟨?_, fun hnone => absurd hnone (Option.some_ne_none _), fun t unit ht => .inl (hsame t unit ht)⟩
    exact (CanonicalMemo.answer_of_some (by rw [units, hm, Option.map_some])).symm
  | none =>
    rw [CanonicalMemo.answer_of_none (by rw [units, hm, Option.map_none])]
    dsimp only
    split
    case isTrue hmissing =>
      rw [hf, if_pos hmissing]
      exact ⟨rfl, fun _ => rfl, fun t unit ht => .inl (hsame t unit ht)⟩
    case isFalse hmissing =>
      rw [if_neg hmissing] at hf
      have hnil : (s.latestResults query e component).missingVirtual = [] := by simpa using hmissing
      cases hmax : maxByKey (latestUnits unitId query component
          (s.latestResults query e component).chunks) with
      | none =>
        rw [hf, hmax]
        exact ⟨rfl, fun _ => hnil.symm, fun t unit ht => .inl (hsame t unit ht)⟩
      | some found =>
        obtain ⟨index, unit⟩ := found
        rw [hf, hmax]
        have hunit : ((looked.perQueryTime[(ofLex index).1]?).getD ⟨unit, false⟩).unit =
            (units looked.perQueryTime (ofLex index).1).getD unit := by
          rw [units]
          cases looked.perQueryTime[(ofLex index).1]? <;> rfl
        dsimp only [Option.map_some]
        generalize (looked.perQueryTime[(ofLex index).1]?).getD ⟨unit, false⟩ = cached at hunit ⊢
        refine ⟨congrArg some hunit, fun hnone => absurd hnone (Option.some_ne_none _), fun t unit' ht => ?_⟩
        have hinsert (m : TreeMap TimeInt LatestAtCachedChunk) (time : TimeInt) (isReference : Bool)
            (hu : units (m.insertIfNew time ⟨cached.unit, isReference⟩) t = some unit') :
            units m t = some unit' ∨ t = time ∧ unit' = cached.unit := by
          rw [units, OrdMap.getElem?_insertIfNew] at hu
          split at hu
          case isTrue hnew =>
            cases hu
            exact .inr ⟨hnew.1.symm, rfl⟩
          case isFalse => exact .inl hu
        have hdata (hu : units (looked.perQueryTime.insertIfNew (ofLex index).1 cached) t =
            some unit') : units looked.perQueryTime t = some unit' ∨
              t = (ofLex index).1 ∧ unit' = cached.unit := hinsert _ _ cached.isReference hu
        obtain ⟨hkept, ht⟩ := table_written ht
        have hcases : units looked.perQueryTime t = some unit' ∨
            unit' = cached.unit ∧
              (t = (ofLex index).1 ∨ t = query.at' ∧ ¬ (ofLex index).1.isStatic) := by
          split at ht
          case isTrue hne =>
            rcases hinsert _ _ _ ht with hu | ⟨rfl, rfl⟩
            · exact (hdata hu).imp_right fun hu => ⟨hu.2, .inl hu.1⟩
            · exact .inr ⟨rfl, .inr ⟨rfl, hne.2⟩⟩
          case isFalse => exact (hdata ht).imp_right fun hu => ⟨hu.2, .inl hu.1⟩
        rcases hcases with hu | ⟨rfl, htime⟩
        · refine .inl (hsame t unit' ?_)
          rw [table_apply, if_pos hkept]
          exact hu
        · exact .inr ⟨_, unit, rfl, hunit, htime⟩

end LatestAtCache

namespace ChunkStore

variable {env : Env} {pol : Policy} {config : ChunkStoreConfig} {kind : ChunkId → Bool}
  {s : ChunkStore} {unitId : ChunkId}

theorem isStatic_of_latestFound (hk : Kinded kind s)
    (hstatic : s.staticChunkId? e component ≠ none)
    (hf : s.latestFound unitId query.timeline e component query.at' = some (time, unit)) :
    time = .STATIC := by
  rw [latestFound] at hf
  split at hf
  · cases hf
  obtain ⟨⟨index, unit'⟩, hmax, heq⟩ := Option.map_eq_some_iff.mp hf
  cases heq
  obtain ⟨c, hc, hu, hi⟩ := mem_latestUnits.mp (maxByKey_spec hmax).1
  have hst : c.isStatic = true := by
    rw [latestResults, latestAtRelevantChunks] at hc
    split at hc
    case h_2 hnone => exact absurd hnone hstatic
    case h_1 cid hsome =>
      obtain ⟨key, hkey, hphys⟩ := List.mem_filterMap.mp hc
      obtain rfl := List.mem_singleton.mp hkey
      exact (hk.physical hphys).trans (hk.static hsome)
  rw [Chunk.latestAt_eq] at hu
  obtain ⟨i, -, hu⟩ := Option.bind_eq_some_iff.mp hu
  have hunit : unit'.chunk.isStatic = true := by
    rw [Chunk.rowSlicedUnit, Chunk.intoUnitWithOriginalChunkId] at hu
    split at hu
    · cases hu
      exact (Chunk.isStatic_rowSliced c unitId i 1).trans hst
    · cases hu
  rw [UnitChunkShared.index, if_pos hunit] at hi
  obtain ⟨rowId, -, rfl⟩ := Option.map_eq_some_iff.mp hi
  rfl

theorem missingVirtual_of_latestFound
    (hf : s.latestFound unitId query.timeline e component query.at' = some found) :
    (s.latestResults query e component).missingVirtual = [] := by
  rw [latestFound] at hf
  split at hf
  case isTrue => cases hf
  case isFalse hmissing => simpa using hmissing

theorem MIN_le_of_isLatest (h : Core env pol s) {key : TimeInt ×ₗ RowId}
    (hlatest : s.rowLog.IsLatest e query component row key) : TimeInt.MIN ≤ (ofLex key).1 := by
  obtain ⟨c, i, hphys, -, hst, -, hcand⟩ := candidate_of_mem_rowLog h hlatest.mem hlatest.answers
  exact hcand.MIN_le (h.storable hphys).wellFormed hst

theorem latestFound_early (h : Reached env .recorded config s)
    (hstatic : s.staticChunkId? e component = none) (hat : ¬ TimeInt.MIN ≤ query.at') :
    s.latestFound unitId query.timeline e component query.at' = none := by
  have hnil : (s.latestResults query e component).chunks = [] := by
    refine List.eq_nil_iff_forall_not_mem.mpr fun c hc => ?_
    obtain ⟨hphys, range, hrange, hle⟩ := range_of_mem_latestResults h hstatic hc
    have hw := (h.core.storable hphys).wellFormed
    rcases hw.rangeAt_min hrange with hm | ⟨-, rfl⟩
    · obtain ⟨i, -, -, htime⟩ := (Chunk.mem_timesOf_iff hw.aligned).mp hm
      obtain ⟨⟨typ, t⟩, hrow, rfl⟩ := Option.map_eq_some_iff.mp htime
      obtain ⟨tc, htc, hrow⟩ := Option.bind_eq_some_iff.mp hrow
      obtain ⟨t', hget, heq⟩ := Option.map_eq_some_iff.mp hrow
      cases heq
      exact hat (((hw.timeline_of_lookup htc).1.temporal _ (List.mem_of_getElem? hget)).trans hle)
    · exact hat (le_trans (by decide) hle)
  rw [latestFound, hnil]
  split <;> rfl

end ChunkStore

-- ---------------------------------------------------------------------------
-- The caches
-- ---------------------------------------------------------------------------

namespace QueryCache

variable {env : Env} {config : ChunkStoreConfig} {kind : ChunkId → Bool} {s s' : ChunkStore}
  {caches : QueryCache}

def Truthful (s : ChunkStore) (caches : QueryCache) : Prop :=
  ∀ e timeline component t unit, TimeInt.MIN ≤ t →
    (caches.cacheOf ⟨e, timeline, component⟩).table t = some unit →
      s.staticChunkId? e component = none ∧ s.IsLatestUnit ⟨timeline, t⟩ e component unit

theorem truthful_empty (s : ChunkStore) : ({} : QueryCache).Truthful s := by
  intro e timeline component t unit _ ht
  rw [LatestAtCache.table_apply] at ht
  simp [cacheOf, LatestAtCache.units] at ht

theorem Truthful.onEvents (h : caches.Truthful s) (hreports : ChunkStore.Reports s s' diffs) :
    (caches.onEvents diffs).Truthful s' := by
  intro e timeline component t unit hmin ht
  obtain ⟨htable, hstatic, hsame⟩ := untouched_of_table hreports ht
  obtain ⟨hnone, row, key, hrows, hindex, hlatest⟩ := h e timeline component t unit hmin htable
  exact ⟨hstatic hmin hnone, row, key, hrows, hindex, hlatest.congr hsame⟩

theorem range_latestAtPerCacheKey (newId : Nat → ChunkId) (caches : QueryCache) (s : ChunkStore)
    (query : RangeQuery) (e : EntityPath) (components : List ComponentIdentifier) :
    (caches.range newId s query e components).1.latestAtPerCacheKey =
      caches.latestAtPerCacheKey := by
  rw [range]
  generalize ({ query } : RangeResults) = results
  generalize components.filter (s.entityHasComponentOnTimeline query.timeline e) = components
  induction components generalizing caches results with
  | nil => rfl
  | cons component rest ih =>
    rw [List.foldl_cons]
    exact ih (rangeComponent newId s query e (caches, results) component).1 _

theorem Truthful.range (h : caches.Truthful s) (newId : Nat → ChunkId) (query : RangeQuery)
    (e : EntityPath) (components : List ComponentIdentifier) :
    (caches.range newId s query e components).1.Truthful s := by
  intro e' timeline component t unit hmin ht
  rw [cacheOf, range_latestAtPerCacheKey] at ht
  exact h e' timeline component t unit hmin ht

theorem cacheOf_lookUp (unitId : ChunkId) (s : ChunkStore) (query : LatestAtQuery) (e : EntityPath)
    (component : ComponentIdentifier) (caches : QueryCache) (key : QueryCacheKey) :
    (caches.lookUp unitId s query e component).1.cacheOf key =
      if key = ⟨e, query.timeline, component⟩ then
        ((caches.cacheOf ⟨e, query.timeline, component⟩).handlePendingInvalidation.latestAt unitId s
          query e component).1
      else caches.cacheOf key := by
  rw [cacheOf, lookUp]
  dsimp only
  rw [lookup_upsertEntry]
  split <;> rfl

/-- A look-up answers with a latest stored row, and the caches stay right. -/
theorem Truthful.lookUp (unitId : ChunkId) (h : ChunkStore.Reached env .recorded config s)
    (hk : ChunkStore.Kinded kind s) (hc : caches.Truthful s)
    (hwalk : s.Walkable query e component) :
    let result := caches.lookUp unitId s query e component
    result.1.Truthful s ∧
      (TimeInt.MIN ≤ query.at' → s.staticChunkId? e component = none →
        (∀ unit, result.2.1 = some unit → s.IsLatestUnit query e component unit) ∧
        (result.2.1 = none → result.2.2 = [] → s.OnlyLeast query e component)) := by
  obtain ⟨hanswer, hmissing, hwritten⟩ := LatestAtCache.latestAt_cases unitId s query e component
    (caches.cacheOf ⟨e, query.timeline, component⟩)
  have hresult : (caches.lookUp unitId s query e component).2 =
      ((caches.cacheOf ⟨e, query.timeline, component⟩).handlePendingInvalidation.latestAt unitId s
        query e component).2 := rfl
  -- What the store says and what the table knows about its time.
  have hfound {time found} (hstatic : s.staticChunkId? e component = none)
      (hf : s.latestFound unitId query.timeline e component query.at' = some (time, found)) :
      let unit := ((caches.cacheOf ⟨e, query.timeline, component⟩).table time).getD found
      s.IsLatestUnit query e component unit ∧
        s.IsLatestUnit ⟨query.timeline, time⟩ e component unit := by
    have hat : TimeInt.MIN ≤ query.at' := by
      by_contra hat
      rw [ChunkStore.latestFound_early h hstatic hat] at hf
      cases hf
    rcases @ChunkStore.latestFound_cases query e component env config s unitId h hat hstatic hwalk
      (ChunkStore.missingVirtual_of_latestFound hf) with
      ⟨hnone, -⟩ | ⟨row, key, unit, hsome, hrows, hindex, hlatest⟩
    · cases hnone.symm.trans hf
    cases hsome.symm.trans hf
    cases htable : (caches.cacheOf ⟨e, query.timeline, component⟩).table (ofLex key).1 with
    | none => exact ⟨⟨row, key, hrows, hindex, hlatest⟩, row, key, hrows, hindex, hlatest.at_own⟩
    | some unit' =>
      obtain ⟨-, row', key', hrows', hindex', hlatest'⟩ := hc e query.timeline component _ unit'
        (ChunkStore.MIN_le_of_isLatest h.core hlatest) htable
      exact ⟨⟨row', key', hrows', hindex', hlatest.of_own hlatest'⟩, row', key', hrows', hindex',
        hlatest'⟩
  refine ⟨fun e' timeline' component' t unit hmin ht => ?_, fun hat hstatic => ?_⟩
  · rw [cacheOf_lookUp] at ht
    split at ht
    case isFalse => exact hc e' timeline' component' t unit hmin ht
    case isTrue hkey =>
    cases hkey
    rcases hwritten t unit ht with ht | ⟨time, found, hf, rfl, htime⟩
    · exact hc e query.timeline component t unit hmin ht
    · cases hstatic : s.staticChunkId? e component with
      | some cid =>
        obtain rfl := ChunkStore.isStatic_of_latestFound hk (by simp [hstatic]) hf
        rcases htime with rfl | ⟨-, hnot⟩
        · exact absurd hmin (by decide)
        · exact absurd rfl hnot
      | none =>
        obtain ⟨hquery, hown⟩ := hfound hstatic hf
        rcases htime with rfl | ⟨rfl, -⟩
        · exact ⟨rfl, hown⟩
        · exact ⟨rfl, hquery⟩
  · rw [hresult, hanswer]
    cases htable : (caches.cacheOf ⟨e, query.timeline, component⟩).table query.at' with
    | some unit =>
      rw [CanonicalMemo.answer_of_some htable]
      refine ⟨fun unit' hu => ?_, fun hnone => absurd hnone (Option.some_ne_none _)⟩
      cases hu
      exact (hc e query.timeline component query.at' unit hat htable).2
    | none =>
      rw [CanonicalMemo.answer_of_none htable] at hanswer ⊢
      cases hf : s.latestFound unitId query.timeline e component query.at' with
      | some found =>
        refine ⟨fun unit hu => ?_, fun hnone => absurd hnone (Option.some_ne_none _)⟩
        cases hu
        exact (hfound hstatic hf).1
      | none =>
        refine ⟨fun unit hu => absurd hu.symm (Option.some_ne_none _), fun _ hnil => ?_⟩
        rw [hf, Option.map_none] at hanswer
        rcases @ChunkStore.latestFound_cases query e component env config s unitId h hat hstatic
          hwalk ((hmissing hanswer).symm.trans hnil) with ⟨-, hleast⟩ | ⟨row, key, unit, hsome, -⟩
        · exact hleast
        · cases hf.symm.trans hsome

-- ---------------------------------------------------------------------------
-- A query
-- ---------------------------------------------------------------------------

theorem components_addResult {results : LatestAtResults} {cached : Option UnitChunkShared}
    {name : ComponentIdentifier}
    (h : (addResult timeline maxClearIndex component cached missing results).components[name]? =
      some unit) : results.components[name]? = some unit ∨ name = component ∧ cached = some unit := by
  rw [addResult] at h
  split at h
  case h_2 => exact .inl h
  case h_1 index cached' hcached =>
    split at h
    case isFalse => exact .inl h
    case isTrue =>
      have h : (results.components.insert component cached')[name]? = some unit := h
      rw [OrdMap.getElem?_insert] at h
      split at h
      case isFalse => exact .inl h
      case isTrue hname =>
        cases h
        obtain ⟨unit', hunit, hindex⟩ := Option.bind_eq_some_iff.mp hcached
        obtain ⟨index', -, heq⟩ := Option.map_eq_some_iff.mp hindex
        cases heq
        exact .inr ⟨hname.symm, hunit⟩

theorem isSome_addResult (timeline : TimelineName) (maxClearIndex : TimeInt ×ₗ RowId)
    (component : ComponentIdentifier) (cached : Option UnitChunkShared) (missing : List ChunkId)
    {results : LatestAtResults} {name : ComponentIdentifier}
    (h : (results.components[name]?).isSome) :
    ((addResult timeline maxClearIndex component cached missing
      results).components[name]?).isSome := by
  rw [addResult]
  split
  case h_2 => exact h
  case h_1 index cached' _ =>
    split
    case isFalse => exact h
    case isTrue =>
      show ((results.components.insert component cached')[name]?).isSome
      rw [OrdMap.getElem?_insert]
      split
      · rfl
      · exact h

theorem missingVirtual_addResult (timeline : TimelineName) (maxClearIndex : TimeInt ×ₗ RowId)
    (component : ComponentIdentifier) (cached : Option UnitChunkShared) (missing : List ChunkId)
    (results : LatestAtResults) :
    (addResult timeline maxClearIndex component cached missing results).missingVirtual =
      results.missingVirtual ++ missing := by
  rw [addResult]
  split
  · split <;> rfl
  · rfl

theorem isSome_addResult_of_unit {results : LatestAtResults} {index : TimeInt ×ₗ RowId}
    (missing : List ChunkId) (hindex : unit.index timeline = some index)
    (hlt : toLex (TimeInt.MIN, RowId.ZERO) < index) :
    ((addResult timeline (toLex (TimeInt.MIN, RowId.ZERO)) component (some unit) missing
      results).components[component]?).isSome := by
  have hgt : compareIndices index (toLex (TimeInt.MIN, RowId.ZERO)) = .gt := by
    have hmin : TimeInt.MIN ≤ (ofLex index).1 := Prod.Lex.monotone_fst _ _ hlt.le
    have hne : (ofLex index).1 ≠ .STATIC := by
      intro he
      rw [he] at hmin
      exact absurd hmin (by decide)
    show (if (ofLex index).1 = .STATIC ∧ TimeInt.MIN = .STATIC then _
      else if TimeInt.MIN = .STATIC then _ else if (ofLex index).1 = .STATIC then _
      else compare index (toLex (TimeInt.MIN, RowId.ZERO))) = .gt
    rw [if_neg fun h => hne h.1, if_neg (by decide), if_neg hne]
    exact compare_gt_iff_gt.mpr hlt
  rw [addResult, Option.bind_some, hindex]
  dsimp only [Option.map_some]
  rw [if_pos (.inr hgt)]
  show ((results.components.insert component unit)[component]?).isSome
  rw [OrdMap.getElem?_insert, if_pos rfl]
  rfl

theorem Truthful.foldl_clearStep (unitId : ChunkId) (h : ChunkStore.Reached env .recorded config s)
    (hk : ChunkStore.Kinded kind s) {paths : List EntityPath} (hc : caches.Truthful s)
    (hwalk : ∀ path ∈ paths, s.Walkable query path clearIsRecursive)
    (acc : (TimeInt ×ₗ RowId) × List ChunkId) :
    (paths.foldl (clearStep unitId s query e) (caches, acc)).1.Truthful s := by
  induction paths generalizing caches acc with
  | nil => exact hc
  | cons path rest ih =>
    have hlook := hc.lookUp unitId h hk (hwalk path List.mem_cons_self)
    exact ih hlook.1 (fun path hm => hwalk path (List.mem_cons_of_mem _ hm)) _

def ShowsLatest (s : ChunkStore) (query : LatestAtQuery) (e : EntityPath)
    (results : LatestAtResults) : Prop :=
  ∀ component unit, results.components[component]? = some unit →
    s.staticChunkId? e component = none → s.IsLatestUnit query e component unit

def Answered (s : ChunkStore) (query : LatestAtQuery) (e : EntityPath) (results : LatestAtResults)
    (component : ComponentIdentifier) : Prop :=
  (results.components[component]?).isSome ∨ results.missingVirtual ≠ [] ∨
    s.OnlyLeast query e component

theorem Answered.addResult {results : LatestAtResults} (h : Answered s query e results name)
    (maxClearIndex : TimeInt ×ₗ RowId) (cached : Option UnitChunkShared) (missing : List ChunkId) :
    Answered s query e (addResult timeline maxClearIndex component cached missing results) name := by
  rcases h with h | h | h
  · exact .inl (isSome_addResult _ _ _ _ _ h)
  · refine .inr (.inl ?_)
    rw [missingVirtual_addResult]
    exact List.append_ne_nil_of_left_ne_nil h _
  · exact .inr (.inr h)

theorem Truthful.foldl_resultStep (unitId : ChunkId) (h : ChunkStore.Reached env .recorded config s)
    (hk : ChunkStore.Kinded kind s) {components : List ComponentIdentifier} (hc : caches.Truthful s)
    (hwalk : ∀ component ∈ components, s.Walkable query e component)
    (maxClearIndex : TimeInt ×ₗ RowId) (results : LatestAtResults) :
    let result := components.foldl (resultStep unitId s query e maxClearIndex) (caches, results)
    result.1.Truthful s ∧ (TimeInt.MIN ≤ query.at' → ShowsLatest s query e results →
      ShowsLatest s query e result.2 ∧
        (maxClearIndex = toLex (TimeInt.MIN, RowId.ZERO) → ∀ name,
          s.staticChunkId? e name = none → (name ∈ components ∨ Answered s query e results name) →
            Answered s query e result.2 name)) := by
  induction components generalizing caches results with
  | nil => exact ⟨hc, fun _ hs => ⟨hs, fun _ name _ ha => ha.resolve_left List.not_mem_nil⟩⟩
  | cons component rest ih =>
    obtain ⟨htruthful, hlook⟩ :=
      hc.lookUp unitId h hk (hwalk component List.mem_cons_self)
    generalize hq : caches.lookUp unitId s query e component = looked at htruthful hlook
    obtain ⟨caches', cached, missing⟩ := looked
    dsimp only at htruthful hlook
    obtain ⟨htruthful', hrest⟩ := ih htruthful (fun name hm => hwalk name (List.mem_cons_of_mem _ hm))
      (addResult query.timeline maxClearIndex component cached missing results)
    rw [List.foldl_cons, resultStep, hq]
    refine ⟨htruthful', fun hat hs => ?_⟩
    have hshows : ShowsLatest s query e
        (addResult query.timeline maxClearIndex component cached missing results) := by
      intro name unit hu hstatic
      rcases components_addResult hu with hold | ⟨rfl, hnew⟩
      · exact hs name unit hold hstatic
      · exact (hlook hat hstatic).1 unit hnew
    obtain ⟨hlatest, hanswered⟩ := hrest hat hshows
    refine ⟨hlatest, fun hmax name hstatic ha => hanswered hmax name hstatic ?_⟩
    rcases ha with hm | ha
    swap
    · exact .inr (ha.addResult _ _ _)
    rcases List.mem_cons.mp hm with rfl | hm
    swap
    · exact .inl hm
    obtain ⟨hunit, hnone⟩ := hlook hat hstatic
    refine .inr ?_
    cases hcached : cached with
    | none =>
      cases hmissing : missing with
      | nil => exact .inr (.inr (hnone hcached hmissing))
      | cons cid rest =>
        refine .inr (.inl ?_)
        rw [missingVirtual_addResult]
        exact List.append_ne_nil_of_right_ne_nil _ (List.cons_ne_nil _ _)
    | some unit =>
      obtain ⟨row, key, -, hindex, hlatest⟩ := hunit unit hcached
      by_cases hlt : toLex (TimeInt.MIN, RowId.ZERO) < key
      · exact .inl (hmax ▸ isSome_addResult_of_unit missing hindex hlt)
      · refine .inr (.inr fun row' key' hm hkey => ?_)
        have hle := (hlatest.greatest row' key' hm hkey).trans (not_lt.mp hlt)
        have hmin : TimeInt.MIN ≤ (ofLex key').1 := by
          obtain ⟨c, i, hphys, -, hst, -, hcand⟩ := ChunkStore.candidate_of_mem_rowLog h.core hm hkey
          exact hcand.MIN_le (h.core.storable hphys).wellFormed hst
        refine le_antisymm hle (Prod.Lex.le_iff.mpr (hmin.lt_or_eq.imp_right fun he => ?_))
        exact ⟨he, Fin.zero_le _⟩

theorem onlyLeast_of_absent (h : ChunkStore.Reached env .recorded config s)
    (hhas : s.entityHasComponentOnTimeline query.timeline e component = false) :
    s.OnlyLeast query e component := by
  intro row key hm hkey
  obtain ⟨c, i, hphys, rfl, hst, -, hcand⟩ := ChunkStore.candidate_of_mem_rowLog h.core hm hkey
  have hcons := ChunkStore.consistent_of_recorded h
  obtain ⟨range, hrange, -⟩ := (hcons.wellFormed hphys).exists_range
    (ChunkStore.mem_timesOf_of_candidate (h.core.storable hphys).wellFormed hst hcand)
  have hstart := (hcons.findable c.id c hphys _ _ hrange).start
  rw [ChunkStore.at_component] at hstart
  rw [ChunkStore.entityHasComponentOnTimeline, Bool.or_eq_false_iff] at hhas
  rw [Option.isSome_eq_false_iff.mp hhas.2 |> Option.isNone_iff_eq_none.mp] at hstart
  cases ChunkIdSetPerTime.not_mem_startIds_default hstart

/-- A query returns latest rows. If no chunk is missing and there are no tombstones, it returns one
for each component that has rows above the least key. -/
theorem Truthful.latestAt (unitId : ChunkId) (h : ChunkStore.Reached env .recorded config s)
    (hk : ChunkStore.Kinded kind s) {components : List ComponentIdentifier} (hc : caches.Truthful s)
    (hwalk : s.WalkableFor query e components) :
    let result := caches.latestAt unitId s query e components
    result.1.Truthful s ∧ (TimeInt.MIN ≤ query.at' → ShowsLatest s query e result.2 ∧
      ((∀ path ∈ e.lineage, path ∉ caches.mightRequireClearing) →
        ∀ component ∈ components, s.staticChunkId? e component = none →
          Answered s query e result.2 component)) := by
  rw [QueryCache.latestAt]
  have hcleared := @Truthful.foldl_clearStep query e env config kind s caches unitId h hk
    (e.lineage.filter caches.mightRequireClearing.contains) hc
    (fun path hm => hwalk.1 path (List.mem_filter.mp hm).1) (toLex (TimeInt.MIN, RowId.ZERO), [])
  have hpaths (hno : ∀ path ∈ e.lineage, path ∉ caches.mightRequireClearing) :
      e.lineage.filter caches.mightRequireClearing.contains = [] := by
    refine List.filter_eq_nil_iff.mpr fun path hm => ?_
    exact fun hcontains => hno path hm (TreeSet.mem_iff_contains.mpr hcontains)
  have hmax (hno : ∀ path ∈ e.lineage, path ∉ caches.mightRequireClearing) :
      ((e.lineage.filter caches.mightRequireClearing.contains).foldl
        (clearStep unitId s query e) (caches, toLex (TimeInt.MIN, RowId.ZERO), [])).2.1 =
          toLex (TimeInt.MIN, RowId.ZERO) := by
    rw [hpaths hno]
    rfl
  generalize (e.lineage.filter caches.mightRequireClearing.contains).foldl
    (clearStep unitId s query e) (caches, toLex (TimeInt.MIN, RowId.ZERO), []) = cleared
    at hcleared hmax ⊢
  obtain ⟨caches', maxClearIndex, missingVirtual⟩ := cleared
  dsimp only at hcleared hmax ⊢
  obtain ⟨htruthful, hrest⟩ := hcleared.foldl_resultStep unitId h hk
    (fun component hm => hwalk.2 component (List.mem_filter.mp hm).1) maxClearIndex
    { entityPath := e, query, missingVirtual }
  refine ⟨htruthful, fun hat => ?_⟩
  obtain ⟨hshows, hanswered⟩ := hrest hat fun component unit hu => by simp at hu
  refine ⟨hshows, fun hno component hm hstatic => ?_⟩
  cases hhas : s.entityHasComponentOnTimeline query.timeline e component with
  | false => exact .inr (.inr (onlyLeast_of_absent h hhas))
  | true => exact hanswered (hmax hno) component hstatic (.inl (List.mem_filter.mpr ⟨hm, hhas⟩))

end QueryCache

-- ---------------------------------------------------------------------------
-- Sessions
-- ---------------------------------------------------------------------------

namespace LoggedSession

inductive Request
  | act (action : QuerySession.Action)
  | latestAt (unitId : ChunkId) (query : LatestAtQuery) (entityPath : EntityPath)
      (components : List ComponentIdentifier)

def serve (env : Env) (state : LoggedSession) : Request → LoggedSession
  | .act action => state.act env action
  | .latestAt unitId query entityPath components =>
    let (caches, _) :=
      state.session.caches.latestAt unitId state.session.store query entityPath components
    { state with session := { state.session with caches } }

def Request.Legal (env : Env) (types : EntityPath → TimelineName → Timeline)
    (kind : ChunkId → Bool) (state : LoggedSession) : Request → Prop
  | .act action => LoggedSession.Legal env types kind state action
  | .latestAt _ query entityPath components =>
    state.session.store.WalkableFor query entityPath components

abbrev Served (env : Env) (types : EntityPath → TimelineName → Timeline) (kind : ChunkId → Bool)
    (config : ChunkStoreConfig) (state : LoggedSession) : Prop :=
  Reachable (new config) (serve env) (fun state request => request.Legal env types kind state) state

variable {env : Env} {types : EntityPath → TimelineName → Timeline} {kind : ChunkId → Bool}
  {config : ChunkStoreConfig} {state : LoggedSession}

structure Good (env : Env) (types : EntityPath → TimelineName → Timeline) (kind : ChunkId → Bool)
    (config : ChunkStoreConfig) (state : LoggedSession) : Prop extends state.Keeps where
  reached : ChunkStore.Reached env (.typed types kind) config state.session.store
  truthful : state.session.caches.Truthful state.session.store

theorem good_of_served (hkind : ∀ n, kind (env.newId n) = false)
    (h : Served env types kind config state) : Good env types kind config state := by
  refine Reachable.invariant ⟨keeps_new config, .init, QueryCache.truthful_empty _⟩ ?_ h
  rintro state request ⟨hkeeps, hreached, htruthful⟩ hok
  cases request with
  | act action =>
    refine ⟨hkeeps.act hkind hreached hok, ?_, ?_⟩
    · cases action with
      | mutate op => exact .step hreached hok.1
      | range newId query e components => exact hreached
      | clear => exact hreached
    · cases action with
      | mutate op =>
        exact htruthful.onEvents
          (ChunkStore.reports_apply hkind hreached hkeeps.populated hok.1 hok.2)
      | range newId query e components => exact htruthful.range newId query e components
      | clear => exact QueryCache.truthful_empty _
  | latestAt unitId query e components =>
    have hrec := hreached.of_le ChunkStore.Policy.typed_le_recorded
    have hk := ChunkStore.kinded_of_typed hkind hreached
    exact ⟨⟨⟨hkeeps.le, hkeeps.eq⟩, hkeeps.populated⟩, hreached,
      (htruthful.latestAt unitId hrec hk hok).1⟩

/-- At any point of any session, what a query shows of a component on the timeline is a latest one
of the stored rows: all that were logged and not dropped, as long as nothing was collected. It shows
such a row for every component that has one, if no chunk is missing and there are no tombstones. -/
theorem latestAt_returns_latest (hkind : ∀ n, kind (env.newId n) = false)
    (h : Served env types kind config state) (unitId : ChunkId) (hat : TimeInt.MIN ≤ query.at')
    (components : List ComponentIdentifier)
    (hwalk : state.session.store.WalkableFor query e components) :
    let results :=
      (state.session.caches.latestAt unitId state.session.store query e components).2
    (state.collected = false → state.session.store.rowLog = state.log) ∧
      (∀ component unit, results.components[component]? = some unit →
        state.session.store.staticChunkId? e component = none →
          ∃ row key, unit.chunk.rows = [row] ∧
            state.session.store.rowLog.IsLatest e query component row key) ∧
      ((∀ path ∈ e.lineage, path ∉ state.session.caches.mightRequireClearing) →
        results.missingVirtual = [] → ∀ component ∈ components,
          state.session.store.staticChunkId? e component = none →
            results.components[component]? = none →
              ∀ row key, (e, row) ∈ state.session.store.rowLog →
                row.latestKey? query component = some key →
                  key = toLex (TimeInt.MIN, RowId.ZERO)) := by
  have hgood := good_of_served hkind h
  have hrec := hgood.reached.of_le ChunkStore.Policy.typed_le_recorded
  have hk := ChunkStore.kinded_of_typed hkind hgood.reached
  obtain ⟨-, hresults⟩ := hgood.truthful.latestAt unitId hrec hk hwalk
  obtain ⟨hshows, hanswered⟩ := hresults hat
  refine ⟨hgood.eq, fun component unit hu hstatic => ?_,
    fun hno hmissing component hm hstatic hnone => ?_⟩
  · obtain ⟨row, key, hrows, -, hlatest⟩ := hshows component unit hu hstatic
    exact ⟨row, key, hrows, hlatest⟩
  · rcases hanswered hno component hm hstatic with ha | ha | ha
    · rw [hnone] at ha
      cases ha
    · exact absurd hmissing ha
    · exact ha

-- ---------------------------------------------------------------------------
-- A run on fixed inputs
-- ---------------------------------------------------------------------------

def latestRunQuery : LatestAtQuery := .new "t" (.newTemporal 15)

/-- The row at 12 is later than what was cached, and is dropped again. -/
def latestRun : LoggedSession :=
  [.act (.mutate (.insertChunk QuerySession.rangeRunFirst)),
    .latestAt 500 latestRunQuery ["e"] ["c"],
    .act (.mutate (.insertChunk (.single 2 3 12))),
    .latestAt 500 latestRunQuery ["e"] ["c"],
    .act (.mutate (.dropTimeRange "t" ⟨.newTemporal 11, .newTemporal 13⟩ true .explicitDrop))].foldl
      (serve .plain) (new .DEFAULT)

theorem walkableFor_latestRunQuery (s : ChunkStore) (h : s.Walkable latestRunQuery ["e"] "c")
    (h' : s.Walkable latestRunQuery ["e"] QueryCache.clearIsRecursive)
    (h'' : s.Walkable latestRunQuery [] QueryCache.clearIsRecursive) :
    s.WalkableFor latestRunQuery ["e"] ["c"] := by
  refine ⟨fun path hm => ?_, fun component hm => List.mem_singleton.mp hm ▸ h⟩
  have hlineage : EntityPath.lineage ["e"] = [["e"], []] := by decide
  rw [hlineage] at hm
  rcases List.mem_cons.mp hm with rfl | hm
  · exact h'
  · exact List.mem_singleton.mp hm ▸ h''

theorem served_latestRun :
    Served .plain (fun _ _ => ⟨"t", .sequence⟩) (fun _ => false) .DEFAULT latestRun := by
  rw [latestRun, List.foldl_cons, List.foldl_cons, List.foldl_cons, List.foldl_cons, List.foldl_cons,
    List.foldl_nil]
  refine .step (.step (.step (.step (.step .init ?_) ?_) ?_) ?_) ⟨trivial, trivial⟩
  · refine legal_insertChunk (by decide) (by decide) ?_ rfl (by decide +kernel)
    unfold ChunkStore.HasTypes
    decide
  · exact walkableFor_latestRunQuery _ (by decide +kernel) (by decide +kernel) (by decide +kernel)
  · refine legal_insertChunk (by decide) (by decide) ?_ rfl (by decide +kernel)
    unfold ChunkStore.HasTypes
    decide
  · exact walkableFor_latestRunQuery _ (by decide +kernel) (by decide +kernel) (by decide +kernel)

/-- The row at 10 is the latest one again. -/
theorem latestAt_returns_latest_latestRun :
    let results := (latestRun.session.caches.latestAt 500 latestRun.session.store latestRunQuery
      ["e"] ["c"]).2
    (latestRun.collected = false → latestRun.session.store.rowLog = latestRun.log) ∧
      (∀ component unit, results.components[component]? = some unit →
        latestRun.session.store.staticChunkId? ["e"] component = none →
          ∃ row key, unit.chunk.rows = [row] ∧
            latestRun.session.store.rowLog.IsLatest ["e"] latestRunQuery component row key) ∧
      ((∀ path ∈ EntityPath.lineage ["e"],
          path ∉ latestRun.session.caches.mightRequireClearing) →
        results.missingVirtual = [] → ∀ component ∈ ["c"],
          latestRun.session.store.staticChunkId? ["e"] component = none →
            results.components[component]? = none →
              ∀ row key, (["e"], row) ∈ latestRun.session.store.rowLog →
                row.latestKey? latestRunQuery component = some key →
                  key = toLex (TimeInt.MIN, RowId.ZERO)) :=
  latestAt_returns_latest (fun _ => rfl) served_latestRun 500 (by decide) ["c"]
    (walkableFor_latestRunQuery _ (by decide +kernel) (by decide +kernel) (by decide +kernel))

end LoggedSession

end DimosViewer
