import DimosViewer.Query.LatestCacheLaws
import DimosViewer.Query.LoggedRows

/-!
# Latest rows

A look-up walks back from the last start before the query time. If no chunk is missing, it finds a
row that no other stored row is later than.
-/

namespace DimosViewer

open Grouping
open Reach (Reachable)
open Std (TreeMap TreeSet)

-- ---------------------------------------------------------------------------
-- The latest row
-- ---------------------------------------------------------------------------

def RowData.latestKey? (query : LatestAtQuery) (component : ComponentIdentifier) (row : RowData) :
    Option (TimeInt ×ₗ RowId) :=
  if (row.cells component).isSome then
    ((row.times query.timeline).filter fun time => time.2 ≤ query.at').map fun time =>
      toLex (time.2, row.rowId)
  else none

variable {query : LatestAtQuery} {e : EntityPath} {component : ComponentIdentifier}

theorem RowData.latestKey?_eq_some {row : RowData} {key : TimeInt ×ₗ RowId} :
    row.latestKey? query component = some key ↔ (row.cells component).isSome ∧
      ∃ time, row.times query.timeline = some time ∧ time.2 ≤ query.at' ∧
        key = toLex (time.2, row.rowId) := by
  rw [latestKey?]
  split
  case isTrue hcell =>
    simp only [Option.map_eq_some_iff, Option.filter_eq_some_iff, decide_eq_true_iff, hcell,
      true_and, and_assoc, @eq_comm _ _ key]
  case isFalse hcell => simp [hcell]

theorem RowData.latestKey?_time_le {row : RowData} {key : TimeInt ×ₗ RowId}
    (h : row.latestKey? query component = some key) : (ofLex key).1 ≤ query.at' := by
  obtain ⟨-, time, -, hle, rfl⟩ := latestKey?_eq_some.mp h
  exact hle

structure RowLog.IsLatest (log : RowLog) (e : EntityPath) (query : LatestAtQuery)
    (component : ComponentIdentifier) (row : RowData) (key : TimeInt ×ₗ RowId) : Prop where
  mem : (e, row) ∈ log
  answers : row.latestKey? query component = some key
  greatest : ∀ row' key', (e, row') ∈ log → row'.latestKey? query component = some key' →
    key' ≤ key

namespace Chunk

theorem candidate_iff {c : Chunk} (hst : c.isStatic = false) {i : Nat} {key : TimeInt ×ₗ RowId} :
    c.Candidate query component i key ↔
      i < c.numRows ∧ (c.rowAt i).latestKey? query component = some key := by
  rw [RowData.latestKey?_eq_some]
  constructor
  · rintro ⟨hi, hcell, _, htime, hat, rfl⟩
    rw [timeAt, hst, if_neg Bool.false_ne_true] at htime
    obtain ⟨time, hrow, rfl⟩ := Option.map_eq_some_iff.mp htime
    exact ⟨hi, hcell, time, hrow, hat, rfl⟩
  · rintro ⟨hi, hcell, time, htime, hat, rfl⟩
    refine ⟨hi, hcell, time.2, ?_, hat, rfl⟩
    rw [timeAt, hst, if_neg Bool.false_ne_true, htime]
    rfl

theorem mem_timesOf_iff {c : Chunk} (h : c.Aligned) {timeline : TimelineName} {t : TimeInt} :
    t ∈ c.timesOf timeline component ↔ ∃ i < c.numRows, ((c.rowAt i).cells component).isSome ∧
      ((c.rowAt i).times timeline).map Prod.snd = some t := by
  rw [timesOf]
  constructor
  · intro ht
    split at ht
    case h_2 => cases ht
    case h_1 tc column htc hcolumn =>
      obtain ⟨⟨t', cell⟩, hm, ht⟩ := List.mem_filterMap.mp ht
      obtain ⟨cell, hcell, rfl⟩ := Option.map_eq_some_iff.mp ht
      obtain ⟨i, hi⟩ := List.getElem?_of_mem hm
      obtain ⟨htime, hcell'⟩ := List.getElem?_zip_eq_some.mp hi
      refine ⟨i, ?_, ?_, ?_⟩
      · rw [← h.length_times htc]
        exact (List.getElem?_eq_some_iff.mp htime).1
      · rw [isSome_cells_rowAt hcolumn, SerializedComponentColumn.isValid,
          List.getD_eq_getElem?_getD, hcell', Option.getD_some]
        exact Option.isSome_iff_exists.mpr ⟨cell, hcell⟩
      · simp [rowAt, htc, htime]
  · rintro ⟨i, -, hcell, htime⟩
    obtain ⟨⟨typ, t'⟩, hrow, rfl⟩ := Option.map_eq_some_iff.mp htime
    obtain ⟨tc, htc, hrow⟩ := Option.bind_eq_some_iff.mp hrow
    obtain ⟨t', hget, heq⟩ := Option.map_eq_some_iff.mp hrow
    cases heq
    obtain ⟨typed, hcell⟩ := Option.isSome_iff_exists.mp hcell
    obtain ⟨column, hcolumn, hcell⟩ := Option.bind_eq_some_iff.mp hcell
    obtain ⟨cell, hcell, -⟩ := Option.map_eq_some_iff.mp hcell
    rw [htc, hcolumn]
    refine List.mem_filterMap.mpr ⟨(t', some cell), ?_, rfl⟩
    exact List.mem_of_getElem?
      (List.getElem?_zip_eq_some.mpr ⟨hget, Option.join_eq_some_iff.mp hcell⟩)

theorem WellFormed.rangeAt_min {c : Chunk} (h : c.WellFormed) {timeline : TimelineName}
    {range : AbsoluteTimeRange}
    (hr : c.rangeAt (.component e timeline component) = some range) :
    range.min ∈ c.timesOf timeline component ∨
      c.timesOf timeline component = [] ∧ range = .EMPTY := by
  rw [rangeAt] at hr
  split at hr
  case isFalse => cases hr
  case isTrue =>
  obtain ⟨tc, htc, hr⟩ := Option.bind_eq_some_iff.mp hr
  obtain ⟨column, hcolumn, hr⟩ := Option.bind_eq_some_iff.mp hr
  have hw := (h.timeline_of_lookup htc).1
  have hlen : tc.times.length = column.listArray.length :=
    (h.aligned.length_times htc).trans (h.aligned.length_listArray hcolumn).symm
  rw [timesOf, htc, hcolumn]
  dsimp only
  rw [TimeColumn.timeRangeOf] at hr
  split at hr
  · cases hr
  case isFalse hne =>
  split at hr
  case isTrue hdense =>
    cases hr
    refine .inl ?_
    rw [SerializedComponentColumn.validEntries_of_dense hdense hlen]
    refine hw.min_mem fun hnil => hne ?_
    rw [hnil] at hlen
    exact List.isEmpty_iff.mpr (List.length_eq_zero_iff.mp hlen.symm)
  case isFalse =>
    cases hr
    have hsub := column.validEntries_sublist tc.times
    generalize column.validEntries tc.times = times at hsub
    by_cases hnil : times = []
    · subst hnil
      exact .inr ⟨rfl, by simp [AbsoluteTimeRange.EMPTY]⟩
    · refine .inl ?_
      obtain ⟨m, hm⟩ := exists_least (isSortedList tc.times) hnil
      have hmem := (least_mem (fun hs => (isSortedList_iff.mp hs).sublist hsub) hm).1
      dsimp only
      rw [TimeInt.elim_newTemporal hm (hw.temporal m (hsub.subset hmem))]
      exact hmem

end Chunk

-- ---------------------------------------------------------------------------
-- The walk
-- ---------------------------------------------------------------------------

theorem ChunkIdSetPerTime.mem_latestAt_iff {p : ChunkIdSetPerTime} {id : ChunkId} :
    id ∈ ChunkStore.latestAt query p ↔ ∃ key last, id ∈ p.startIds key ∧ key ≤ query.at' ∧
      p.lastStart query.at' = some last ∧
      saturatingSub last.asI64 (saturatingCast p.maxIntervalLength) ≤ key.asI64 := by
  rw [ChunkStore.latestAt]
  cases hlast : p.lastStart query.at' with
  | none => simp
  | some last =>
    dsimp only
    have hsorted : (p.entriesUpTo query.at').reverse.Pairwise fun a b =>
        OrderDual.toDual a.1.asI64 ≤ OrderDual.toDual b.1.asI64 :=
      List.pairwise_reverse.mpr (p.entriesUpTo_pairwise query.at')
    have hfilter := takeWhile_le_eq_filter hsorted
      (OrderDual.toDual (saturatingSub last.asI64 (saturatingCast p.maxIntervalLength)))
    simp only [OrderDual.toDual_le_toDual] at hfilter
    rw [hfilter]
    simp only [List.mem_flatMap, List.mem_filter, List.mem_reverse, mem_entriesUpTo,
      decide_eq_true_iff, TreeSet.mem_toList, startIds, OrdMap.mem_setAt_iff]
    constructor
    · rintro ⟨⟨key, ids⟩, ⟨⟨hget, hle⟩, hlower⟩, hid⟩
      exact ⟨key, last, ⟨ids, hget, hid⟩, hle, rfl, hlower⟩
    · rintro ⟨key, _, ⟨ids, hget, hid⟩, hle, ⟨⟩, hlower⟩
      exact ⟨(key, ids), ⟨⟨hget, hle⟩, hlower⟩, hid⟩

namespace ChunkStore

variable {env : Env} {pol : Policy} {config : ChunkStoreConfig} {s : ChunkStore}
  {unitId : ChunkId}

/-- The starts that a look-up may visit lie within `i64::MAX` of each other, and the last one is
not a leftover of a chunk that was removed. -/
structure Walkable (s : ChunkStore) (query : LatestAtQuery) (e : EntityPath)
    (component : ComponentIdentifier) : Prop where
  within : ∀ start ∈ (s.at (.component e query.timeline component)).perStartTime,
    ∀ later ∈ (s.at (.component e query.timeline component)).perStartTime,
      later ≤ query.at' → later.asI64 ≤ start.asI64 + i64Max
  listed : ∀ last, (s.at (.component e query.timeline component)).lastStart query.at' = some last →
    ∃ cid, cid ∈ (s.at (.component e query.timeline component)).startIds last

theorem walkable_iff {p : ChunkIdSetPerTime}
    (hp : s.at (.component e query.timeline component) = p) :
    s.Walkable query e component ↔
      (∀ start ∈ p.perStartTime.keys, ∀ later ∈ p.perStartTime.keys,
        later ≤ query.at' → later.asI64 ≤ start.asI64 + i64Max) ∧
      ∀ last ∈ p.lastStart query.at', (p.startIds last).toList ≠ [] := by
  subst hp
  have hids (ids : ChunkIdSet) : ids.toList ≠ [] ↔ ∃ cid, cid ∈ ids := by
    simp only [← TreeSet.mem_toList]
    exact ⟨List.exists_mem_of_ne_nil _, fun ⟨_, hm⟩ => List.ne_nil_of_mem hm⟩
  simp only [TreeMap.mem_keys, hids]
  exact ⟨fun h => ⟨h.within, h.listed⟩, fun h => ⟨h.1, h.2⟩⟩

instance : Decidable (s.Walkable query e component) := decidable_of_iff' _ (walkable_iff rfl)

theorem mem_latestResults (hstatic : s.staticChunkId? e component = none) {c : Chunk} :
    c ∈ (s.latestResults query e component).chunks ↔
      ∃ cid ∈ latestAt query (s.at (.component e query.timeline component)),
        s.physicalChunksPerChunkId[cid]? = some c := by
  rw [latestResults, latestAtRelevantChunks, hstatic, at_component]
  cases s.perTimeOfComponent? e query.timeline component with
  | none => simp [fromChunkIds, ChunkIdSetPerTime.mem_latestAt_iff,
      ChunkIdSetPerTime.not_mem_startIds_default]
  | some p => exact List.mem_filterMap

theorem physical_of_latest (hstatic : s.staticChunkId? e component = none)
    (hmissing : (s.latestResults query e component).missingVirtual = []) {cid : ChunkId}
    (hm : cid ∈ latestAt query (s.at (.component e query.timeline component))) :
    ∃ c, s.physicalChunksPerChunkId[cid]? = some c := by
  rw [latestResults, latestAtRelevantChunks, hstatic] at hmissing
  rw [at_component] at hm
  cases hp : s.perTimeOfComponent? e query.timeline component with
  | none =>
    rw [hp] at hm
    obtain ⟨key, -, hkey, -⟩ := ChunkIdSetPerTime.mem_latestAt_iff.mp hm
    exact (ChunkIdSetPerTime.not_mem_startIds_default hkey).elim
  | some p =>
    rw [hp] at hm hmissing
    have hcontains := List.filter_eq_nil_iff.mp hmissing cid hm
    rw [Bool.not_eq_true', Bool.not_eq_false, TreeMap.contains_iff_mem,
      TreeMap.mem_iff_isSome_getElem?] at hcontains
    exact Option.isSome_iff_exists.mp hcontains

theorem range_of_mem_latestResults (h : Reached env .recorded config s)
    (hstatic : s.staticChunkId? e component = none) {c : Chunk}
    (hc : c ∈ (s.latestResults query e component).chunks) :
    s.Physical c ∧ ∃ range, c.rangeAt (.component e query.timeline component) = some range ∧
      range.min ≤ query.at' := by
  obtain ⟨cid, hm, hphys⟩ := (mem_latestResults hstatic).mp hc
  obtain ⟨key, -, hkey, hle, -⟩ := ChunkIdSetPerTime.mem_latestAt_iff.mp hm
  obtain ⟨d, range, harchive, hrange, rfl⟩ := indexed_of_recorded h _ _ _ hkey
  obtain rfl := Option.some.inj (harchive.symm.trans (h.core.physical hphys))
  obtain rfl := h.core.keyed hphys
  exact ⟨hphys, range, hrange, hle⟩

theorem not_beforeFirst_of_mem (h : Reached env .recorded config s)
    (hstatic : s.staticChunkId? e component = none) {c : Chunk}
    (hc : c ∈ (s.latestResults query e component).chunks) : ¬ c.BeforeFirst query component := by
  obtain ⟨hphys, range, hrange, hle⟩ := range_of_mem_latestResults h hstatic hc
  have hw := (h.core.storable hphys).wellFormed
  rintro ⟨tc, ht, hts, ⟨first, hfirst, hlt⟩, hcell⟩
  have hsorted := isSortedList_iff.mp ((hw.timeline_of_lookup ht).1.sorted ▸ hts)
  have hhead : tc.times[0]? = some first := by rwa [← List.head?_eq_getElem?]
  have hrow : first ∈ c.timesOf query.timeline component := by
    refine (Chunk.mem_timesOf_iff hw.aligned).mpr ⟨0, ?_, hcell, ?_⟩
    · rw [← hw.aligned.length_times ht]
      exact (List.getElem?_eq_some_iff.mp hhead).1
    · simp [Chunk.rowAt, ht, hhead]
  rcases hw.rangeAt_min hrange with hmin | ⟨hnil, -⟩
  · obtain ⟨i, -, -, htime⟩ := (Chunk.mem_timesOf_iff hw.aligned).mp hmin
    have hi : tc.times[i]? = some range.min := by
      simpa [Chunk.rowAt, ht, Option.map_map, Function.comp_def] using htime
    obtain ⟨times, htimes⟩ : ∃ times, tc.times = first :: times := List.head?_eq_some_iff.mp hfirst
    rw [htimes] at hsorted hi
    refine absurd (hlt.trans_le ?_) (not_lt.mpr hle)
    rcases List.mem_cons.mp (List.mem_of_getElem? hi) with he | hm
    · exact he.ge
    · exact (List.pairwise_cons.mp hsorted).1 _ hm
  · rw [hnil] at hrow
    cases hrow

/-- A chunk with a row in time is visited, or a row that is visited is later. -/
theorem visited_or_later (h : Reached env .recorded config s)
    (hstatic : s.staticChunkId? e component = none) (hwalk : s.Walkable query e component)
    (hmissing : (s.latestResults query e component).missingVirtual = []) {c : Chunk}
    (hphys : s.Physical c) (he : c.entityPath = e) {t : TimeInt}
    (ht : t ∈ c.timesOf query.timeline component) (hat : t ≤ query.at') :
    c ∈ (s.latestResults query e component).chunks ∨
      ∃ d ∈ (s.latestResults query e component).chunks, ∃ i key,
        d.Candidate query component i key ∧ t < (ofLex key).1 := by
  have hcons := consistent_of_recorded h
  obtain ⟨range, hrange, hcontains, hmin⟩ := (hcons.wellFormed hphys).exists_range ht
  rw [he] at hrange
  obtain ⟨hle, hge⟩ := AbsoluteTimeRange.contains_iff.mp hcontains
  have hlists := hcons.findable c.id c hphys _ _ hrange
  have hstart := ChunkIdSetPerTime.mem_of_mem_startIds hlists.start
  obtain ⟨last, hlast, -⟩ := ChunkIdSetPerTime.le_lastStart hstart (hle.trans hat)
  obtain ⟨hlastmem, hlastle⟩ := ChunkIdSetPerTime.lastStart_mem hlast
  have hspan := hwalk.within _ hstart _ hlastmem hlastle
  by_cases hlower : saturatingSub last.asI64 (saturatingCast
      (s.at (.component e query.timeline component)).maxIntervalLength) ≤ range.min.asI64
  · exact .inl ((mem_latestResults hstatic).mpr ⟨c.id, ChunkIdSetPerTime.mem_latestAt_iff.mpr
      ⟨range.min, last, hlists.start, hle.trans hat, hlast, hlower⟩, hphys⟩)
  -- The longest interval is not capped, so the chunk ends before the last start.
  have hlen := range.asI64_sub_le_absLength.trans (Int.ofNat_le.mpr hlists.length)
  have hlow := range.min.lower
  have hcapped : ((s.at (.component e query.timeline component)).maxIntervalLength : Int) <
      i64Max ∧ t < last := by
    rw [TimeInt.lt_iff]
    rw [TimeInt.le_iff] at hge
    unfold saturatingSub saturatingCast at hlower
    unfold i64Min at hlower hlow
    unfold i64Max at hlower hspan ⊢
    omega
  obtain ⟨cid, hcid⟩ := hwalk.listed last hlast
  have hvisited : cid ∈ latestAt query (s.at (.component e query.timeline component)) := by
    refine ChunkIdSetPerTime.mem_latestAt_iff.mpr ⟨last, last, hcid, hlastle, hlast, ?_⟩
    have hlow := last.lower
    have hup := last.upper
    unfold saturatingSub saturatingCast
    omega
  obtain ⟨d, hd⟩ := physical_of_latest hstatic hmissing hvisited
  obtain ⟨d', range', harchive, hrange', hlastmin⟩ := indexed_of_recorded h _ _ _ hcid
  obtain rfl := Option.some.inj (harchive.symm.trans (h.core.physical hd))
  obtain rfl := h.core.keyed hd
  have hw := (h.core.storable hd).wellFormed
  refine .inr ⟨d', (mem_latestResults hstatic).mpr ⟨_, hvisited, hd⟩, ?_⟩
  rcases hw.rangeAt_min hrange' with hm | ⟨-, rfl⟩
  · obtain ⟨i, hi, hcell, htime⟩ := (Chunk.mem_timesOf_iff hw.aligned).mp hm
    obtain ⟨time, htime, htmin⟩ := Option.map_eq_some_iff.mp htime
    rw [hlastmin] at htmin
    refine ⟨i, toLex (time.2, (d'.rowAt i).rowId), ?_, ?_⟩
    · refine (Chunk.candidate_iff (d'.isStatic_eq_false_of_rangeAt hrange')).mpr ⟨hi, ?_⟩
      exact RowData.latestKey?_eq_some.mpr ⟨hcell, time, htime, htmin ▸ hlastle, rfl⟩
    · show t < time.2
      exact htmin ▸ hcapped.2
  · -- An entirely null column would have made the longest interval longer.
    have hlists' := (hcons.findable _ _ hd _ _ hrange').length
    have hempty : (AbsoluteTimeRange.EMPTY.absLength : Int) = 2 ^ 64 - 2 := by decide
    have hbound : (AbsoluteTimeRange.EMPTY.absLength : Int) ≤ _ := Int.ofNat_le.mpr hlists'
    have hmax := hcapped.1
    unfold i64Max at hmax
    omega

-- ---------------------------------------------------------------------------
-- What a look-up finds
-- ---------------------------------------------------------------------------

theorem mem_rowLog (h : Core env pol s) {row : RowData} :
    (e, row) ∈ s.rowLog ↔ ∃ c, s.Physical c ∧ c.entityPath = e ∧ c.isStatic = false ∧
      row ∈ c.rows := by
  have hbind : s.rowLog = Multiset.bind ↑s.physicalChunksPerChunkId.values Chunk.logged := by
    rw [rowLog, OrdMap.total, Multiset.bind, Multiset.map_coe, Multiset.join, Multiset.sum_coe]
  rw [hbind, Multiset.mem_bind]
  constructor
  · rintro ⟨c, hc, hrow⟩
    obtain ⟨key, hphys⟩ := OrdMap.mem_values.mp (Multiset.mem_coe.mp hc)
    obtain rfl := h.keyed hphys
    have he := entityPath_of_mem_logged hrow
    cases hst : c.isStatic with
    | true =>
      rw [Chunk.logged, hst] at hrow
      cases Multiset.notMem_zero _ hrow
    | false =>
      rw [Chunk.logged_of_temporal hst] at hrow
      obtain ⟨row', hrow, heq⟩ := List.mem_map.mp (Multiset.mem_coe.mp hrow)
      cases heq
      exact ⟨c, hphys, rfl, hst, hrow⟩
  · rintro ⟨c, hphys, rfl, hst, hrow⟩
    refine ⟨c, Multiset.mem_coe.mpr (OrdMap.mem_values.mpr ⟨_, hphys⟩), ?_⟩
    rw [Chunk.logged_of_temporal hst]
    exact Multiset.mem_coe.mpr (List.mem_map_of_mem hrow)

theorem candidate_of_mem_rowLog (h : Core env pol s) {row : RowData} {key : TimeInt ×ₗ RowId}
    (hm : (e, row) ∈ s.rowLog) (hkey : row.latestKey? query component = some key) :
    ∃ c i, s.Physical c ∧ c.entityPath = e ∧ c.isStatic = false ∧ row = c.rowAt i ∧
      c.Candidate query component i key := by
  obtain ⟨c, hphys, he, hst, hrow⟩ := (mem_rowLog h).mp hm
  obtain ⟨i, hi, rfl⟩ := List.mem_map.mp hrow
  exact ⟨c, i, hphys, he, hst, rfl, (Chunk.candidate_iff hst).mpr ⟨List.mem_range.mp hi, hkey⟩⟩

theorem mem_timesOf_of_candidate {c : Chunk} (hw : c.WellFormed) (hst : c.isStatic = false)
    {i : Nat} {key : TimeInt ×ₗ RowId} (hc : c.Candidate query component i key) :
    (ofLex key).1 ∈ c.timesOf query.timeline component := by
  obtain ⟨hi, hkey⟩ := (Chunk.candidate_iff hst).mp hc
  obtain ⟨hcell, time, htime, -, rfl⟩ := RowData.latestKey?_eq_some.mp hkey
  refine (Chunk.mem_timesOf_iff hw.aligned).mpr ⟨i, hi, hcell, ?_⟩
  rw [htime]
  rfl

theorem maxByKey_eq_none {κ α : Type} [LinearOrder κ] {l : List (κ × α)}
    (h : maxByKey l = none) : l = [] := by
  induction l using List.reverseRecOn with
  | nil => rfl
  | append_singleton l x _ =>
    rw [maxByKey, List.foldl_append, ← maxByKey] at h
    cases hbest : maxByKey l with
    | none =>
      rw [hbest] at h
      cases h
    | some best =>
      by_cases hlt : x.1 < best.1 <;> simp [hbest, hlt] at h

/-- Without missing chunks a look-up finds a latest stored row, or there is none above the least
key. -/
theorem latestFound_cases (h : Reached env .recorded config s) (hat : TimeInt.MIN ≤ query.at')
    (hstatic : s.staticChunkId? e component = none) (hwalk : s.Walkable query e component)
    (hmissing : (s.latestResults query e component).missingVirtual = []) :
    (s.latestFound unitId query.timeline e component query.at' = none ∧
      ∀ row key, (e, row) ∈ s.rowLog → row.latestKey? query component = some key →
        key = toLex (TimeInt.MIN, RowId.ZERO)) ∨
    ∃ row key unit, s.latestFound unitId query.timeline e component query.at' =
        some ((ofLex key).1, unit) ∧
      unit.chunk.rows = [row] ∧ unit.index query.timeline = some key ∧
      s.rowLog.IsLatest e query component row key := by
  have hspec (c) (hc : c ∈ (s.latestResults query e component).chunks) :=
    have hw := storable_of_mem_latestResults h.core hc
    Chunk.latestAt_rows hw.wellFormed hw.isSorted unitId hat
      (not_beforeFirst_of_mem h hstatic hc)
  have hunits {c unit key} (hc : c ∈ (s.latestResults query e component).chunks)
      (hu : c.latestAt unitId query component = some unit)
      (hi : unit.index query.timeline = some key) :
      (key, unit) ∈ latestUnits unitId query component
        (s.latestResults query e component).chunks := mem_latestUnits.mpr ⟨c, hc, hu, hi⟩
  -- Every row is below a unit, if it is above the least key.
  have hbelow (row key) (hm : (e, row) ∈ s.rowLog)
      (hkey : row.latestKey? query component = some key) :
      key = toLex (TimeInt.MIN, RowId.ZERO) ∨ ∃ entry ∈ latestUnits unitId query component
        (s.latestResults query e component).chunks, key ≤ entry.1 := by
    obtain ⟨c, i, hphys, he, hst, rfl, hcand⟩ := candidate_of_mem_rowLog h.core hm hkey
    have hw := (h.core.storable hphys).wellFormed
    rcases visited_or_later h hstatic hwalk hmissing hphys he
      (mem_timesOf_of_candidate hw hst hcand) (RowData.latestKey?_time_le hkey) with
      hc | ⟨d, hd, j, key', hcand', hlt⟩
    · rcases hspec c hc with ⟨-, hleast⟩ | ⟨unit, j, key', hu, -, hi, -, hgreatest⟩
      · exact .inl (hleast i key hcand).2
      · exact .inr ⟨_, hunits hc hu hi, hgreatest i key hcand⟩
    · rcases hspec d hd with ⟨-, hleast⟩ | ⟨unit, k, key'', hu, -, hi, -, hgreatest⟩
      · rw [(hleast j key' hcand').2] at hlt
        exact absurd (hcand.MIN_le hw hst) (not_le.mpr hlt)
      · refine .inr ⟨_, hunits hd hu hi, le_trans ?_ (hgreatest j key' hcand')⟩
        exact (Prod.Lex.lt_iff.mpr (.inl hlt)).le
  have hempty : (!(s.latestResults query e component).missingVirtual.isEmpty) = false := by
    rw [hmissing]
    rfl
  rw [latestFound, hempty, if_neg Bool.false_ne_true]
  cases hmax : maxByKey (latestUnits unitId query component
      (s.latestResults query e component).chunks) with
  | none =>
    refine .inl ⟨rfl, fun row key hm hkey => (hbelow row key hm hkey).resolve_right ?_⟩
    rintro ⟨entry, hentry, -⟩
    rw [maxByKey_eq_none hmax] at hentry
    cases hentry
  | some found =>
    obtain ⟨key, unit⟩ := found
    obtain ⟨hmem, hle⟩ := maxByKey_spec hmax
    obtain ⟨c, hc, hu, hi⟩ := mem_latestUnits.mp hmem
    rcases hspec c hc with ⟨hnone, -⟩ | ⟨unit', i, key', hu', hrows, hi', hcand, hgreatest⟩
    · cases hnone.symm.trans hu
    obtain rfl := Option.some.inj (hu'.symm.trans hu)
    obtain rfl := Option.some.inj (hi'.symm.trans hi)
    obtain ⟨hphys, range, hrange, -⟩ := range_of_mem_latestResults h hstatic hc
    have hst := c.isStatic_eq_false_of_rangeAt hrange
    obtain ⟨hrow, hkey⟩ := (Chunk.candidate_iff hst).mp hcand
    refine .inr ⟨c.rowAt i, key', unit', rfl, hrows, hi', ?_, hkey, fun row key hm hkey => ?_⟩
    · exact (mem_rowLog h.core).mpr ⟨c, hphys, entityPath_of_rangeAt hrange, hst,
        List.mem_map.mpr ⟨i, List.mem_range.mpr hrow, rfl⟩⟩
    · rcases hbelow row key hm hkey with rfl | ⟨entry, hentry, hkle⟩
      · have hmin := hcand.MIN_le (h.core.storable hphys).wellFormed hst
        exact Prod.Lex.le_iff.mpr (hmin.lt_or_eq.imp_right fun heq => ⟨heq, Fin.zero_le _⟩)
      · exact hkle.trans (hle entry hentry)

end ChunkStore

end DimosViewer
