import Mathlib.Data.List.TakeWhile
import Mathlib.Order.OrderDual
import DimosViewer.NeighborSearch
import DimosViewer.Store.Findable

/-!
# The neighboring times of a time

The next and the previous time with data on a timeline, and the range of all times.
The searches are right for every store that lists its physical chunks.
-/

namespace DimosViewer

open Std (TreeMap TreeSet)
open NeighborSearch (Covers optMin searchIds searchAhead searchAll)
open ChunkStore (partitionPoint)

namespace TimeColumn

def findNextTime (tc : TimeColumn) (after : TimeInt) : Option TimeInt :=
  if tc.isSorted then
    let idx := partitionPoint (· ≤ after) tc.times
    tc.times[idx]?.map (TimeInt.newTemporal ·.asI64)
  else (tc.times.filter (after < ·)).min?.map (TimeInt.newTemporal ·.asI64)

def findPrevTime (tc : TimeColumn) (before : TimeInt) : Option TimeInt :=
  if tc.isSorted then
    let idx := partitionPoint (· < before) tc.times
    if 0 < idx then tc.times[idx - 1]?.map (TimeInt.newTemporal ·.asI64) else none
  else (tc.times.filter (· < before)).max?.map (TimeInt.newTemporal ·.asI64)

end TimeColumn

-- ---------------------------------------------------------------------------
-- In the whole store
-- ---------------------------------------------------------------------------

namespace ChunkStore

def searchChunkByTime (s : ChunkStore) (timeline : TimelineName)
    (search : TimeColumn → Option TimeInt) (id : ChunkId) : Option TimeInt := do
  let chunk ← s.physicalChunksPerChunkId[id]?
  let timeCol ← chunk.timeline? timeline
  search timeCol

def indexEntries (m : TreeMap TimeInt ChunkIdSet) : List (TimeInt × List ChunkId) :=
  m.toList.map fun (time, ids) => (time, ids.toList)

/-- Chunks that start after the time, then chunks that may contain times after it. -/
def nextTimeIn (find : ChunkId → Option TimeInt) (after : TimeInt) (result : Option TimeInt)
    (perTime : ChunkIdSetPerTime) : Option TimeInt :=
  let entries := indexEntries perTime.perStartTime
  searchAll find (searchAhead find result (entries.filter (after < ·.1)))
    (entries.filter (·.1 ≤ after)).reverse

/-- The search for the greatest time is the one for the least in the dual order. -/
def prevTimeIn (find : ChunkId → Option TimeInt) (before : TimeInt) (result : Option TimeInt)
    (perTime : ChunkIdSetPerTime) : Option TimeInt :=
  let entries := indexEntries perTime.perEndTime
  searchAll (α := TimeIntᵒᵈ) find
    (searchAhead (α := TimeIntᵒᵈ) find result (entries.filter (·.1 < before)).reverse)
    (entries.filter (before ≤ ·.1))

def perTimesOf (s : ChunkStore) (timeline : TimelineName) : List ChunkIdSetPerTime :=
  s.temporalChunkIdsPerEntity.values.filterMap (·[timeline]?)

def nextTimeOnTimeline (s : ChunkStore) (timeline : TimelineName) (after : TimeInt) :
    Option TimeInt :=
  (s.perTimesOf timeline).foldl
    (nextTimeIn (s.searchChunkByTime timeline (·.findNextTime after)) after) none

def prevTimeOnTimeline (s : ChunkStore) (timeline : TimelineName) (before : TimeInt) :
    Option TimeInt :=
  (s.perTimesOf timeline).foldl
    (prevTimeIn (s.searchChunkByTime timeline (·.findPrevTime before)) before) none

/-- The first and the last key of the indices, of virtual chunks too. -/
def rangeOfKeys (perTime : ChunkIdSetPerTime) : Option AbsoluteTimeRange := do
  let start ← perTime.perStartTime.keys.head?
  let stop ← perTime.perEndTime.keys.getLast?
  return AbsoluteTimeRange.new start stop

def timeRange (s : ChunkStore) (timeline : TimelineName) : Option AbsoluteTimeRange :=
  match (s.perTimesOf timeline).filterMap rangeOfKeys with
  | [] => none
  | first :: rest => some (rest.foldl AbsoluteTimeRange.union first)

def dataTimes (s : ChunkStore) (timeline : TimelineName) : List TimeInt :=
  s.physicalChunksPerChunkId.values.flatMap fun c => (c.timeline? timeline).elim [] (·.times)

end ChunkStore

-- ---------------------------------------------------------------------------
-- The searches in a column
-- ---------------------------------------------------------------------------

section Lists

variable {α : Type}

theorem getElem?_partitionPoint (p : α → Bool) (l : List α) :
    l[partitionPoint p l]? = l.find? (!p ·) := by
  induction l with
  | nil => rfl
  | cons x rest ih =>
    rw [partitionPoint, List.takeWhile_cons, List.find?_cons]
    cases hp : p x with
    | true => simpa [partitionPoint] using ih
    | false => simp

theorem getElem?_pred_partitionPoint (p : α → Bool) (l : List α)
    (h : 0 < partitionPoint p l) :
    l[partitionPoint p l - 1]? = (l.takeWhile p).getLast? := by
  have hlt : (l.takeWhile p).length - 1 < (l.takeWhile p).length := Nat.sub_lt h Nat.one_pos
  rw [List.getLast?_eq_getElem?, partitionPoint, List.getElem?_eq_getElem hlt]
  obtain ⟨rest, hrest⟩ := List.takeWhile_prefix (l := l) p
  have hleft : (l.takeWhile p ++ rest)[(l.takeWhile p).length - 1]? =
      (l.takeWhile p)[(l.takeWhile p).length - 1]? := List.getElem?_append_left hlt
  rw [← List.getElem?_eq_getElem hlt, ← hleft, hrest]

variable [LinearOrder α] {l : List α} {p : α → Bool} {t : α}

theorem covers_find?_of_sorted (hs : l.Pairwise (· ≤ ·)) (ht : t ∈ l) (hp : p t = true) :
    Covers (l.find? p) t := by
  cases hf : l.find? p with
  | none => exact absurd hp (by simpa using List.find?_eq_none.mp hf t ht)
  | some a =>
    obtain ⟨-, before, rest, rfl, hbefore⟩ := List.find?_eq_some_iff_append.mp hf
    refine ⟨a, rfl, ?_⟩
    rcases List.mem_append.mp ht with ht | ht
    · exact absurd hp (by simpa using hbefore t ht)
    · rcases List.mem_cons.mp ht with rfl | ht
      · exact le_rfl
      · exact (List.pairwise_cons.mp (List.pairwise_append.mp hs).2.1).1 t ht

theorem le_getLast?_of_sorted {b : α} (hs : l.Pairwise (· ≤ ·)) (ht : t ∈ l) (hlt : t < b) :
    ∃ a ∈ (l.takeWhile (· < b)).getLast?, t ≤ a := by
  induction l with
  | nil => cases ht
  | cons x rest ih =>
    rw [List.pairwise_cons] at hs
    have hx : x < b := by
      rcases List.mem_cons.mp ht with rfl | ht
      · exact hlt
      · exact (hs.1 t ht).trans_lt hlt
    rw [List.takeWhile_cons_of_pos (by simpa using hx), List.getLast?_cons]
    refine ⟨_, rfl, ?_⟩
    rcases List.mem_cons.mp ht with rfl | ht
    · cases hl : (rest.takeWhile (· < b)).getLast? with
      | none => exact le_rfl
      | some a => exact hs.1 a ((List.takeWhile_sublist _).subset (List.mem_of_getLast? hl))
    · obtain ⟨a, ha, hle⟩ := ih hs.2 ht
      rw [Option.mem_def.mp ha]
      exact hle

end Lists

namespace TimeColumn.WellFormed

variable {tc : TimeColumn} {t after before : TimeInt}

theorem map_newTemporal (h : tc.WellFormed) {result : Option TimeInt}
    (hr : ∀ t ∈ result, t ∈ tc.times) :
    result.map (TimeInt.newTemporal ·.asI64) = result := by
  cases result with
  | none => rfl
  | some t => exact congrArg some (TimeInt.newTemporal_asI64_eq (h.temporal t (hr t rfl)))

theorem pairwise (h : tc.WellFormed) (hs : tc.isSorted = true) : tc.times.Pairwise (· ≤ ·) :=
  isSortedList_iff.mp (h.sorted.symm.trans hs)

theorem findNextTime_sorted (h : tc.WellFormed) (hs : tc.isSorted = true) :
    tc.findNextTime after = tc.times.find? (after < ·) := by
  have hp : (fun t : TimeInt => !decide (t ≤ after)) = fun t => decide (after < t) := by
    funext t
    simp [← not_le]
  simp only [findNextTime, if_pos hs, getElem?_partitionPoint, hp]
  exact h.map_newTemporal fun t ht => List.mem_of_find?_eq_some ht

theorem findNextTime_unsorted (h : tc.WellFormed) (hs : ¬ tc.isSorted = true) :
    tc.findNextTime after = (tc.times.filter (after < ·)).min? := by
  simp only [findNextTime, if_neg hs]
  exact h.map_newTemporal fun t ht => (List.mem_filter.mp (List.min?_mem ht)).1

theorem findPrevTime_sorted (h : tc.WellFormed) (hs : tc.isSorted = true) :
    tc.findPrevTime before = (tc.times.takeWhile (· < before)).getLast? := by
  simp only [findPrevTime, if_pos hs]
  split
  · rename_i hpos
    rw [getElem?_pred_partitionPoint _ _ hpos]
    exact h.map_newTemporal fun t ht =>
      (List.takeWhile_sublist _).subset (List.mem_of_getLast? ht)
  · rename_i hpos
    rw [List.length_eq_zero_iff.mp (Nat.eq_zero_of_not_pos hpos), List.getLast?_nil]

theorem findPrevTime_unsorted (h : tc.WellFormed) (hs : ¬ tc.isSorted = true) :
    tc.findPrevTime before = (tc.times.filter (· < before)).max? := by
  simp only [findPrevTime, if_neg hs]
  exact h.map_newTemporal fun t ht => (List.mem_filter.mp (List.max?_mem ht)).1

theorem mem_findNextTime (h : tc.WellFormed) (ht : t ∈ tc.findNextTime after) :
    t ∈ tc.times ∧ after < t := by
  by_cases hs : tc.isSorted = true
  · rw [h.findNextTime_sorted hs] at ht
    exact ⟨List.mem_of_find?_eq_some ht, by simpa using List.find?_some ht⟩
  · rw [h.findNextTime_unsorted hs] at ht
    simpa using List.mem_filter.mp (List.min?_mem ht)

theorem covers_findNextTime (h : tc.WellFormed) (ht : t ∈ tc.times) (hlt : after < t) :
    Covers (tc.findNextTime after) t := by
  by_cases hs : tc.isSorted = true
  · rw [h.findNextTime_sorted hs]
    exact covers_find?_of_sorted (h.pairwise hs) ht (by simpa using hlt)
  · rw [h.findNextTime_unsorted hs]
    have hmem : t ∈ tc.times.filter (after < ·) := List.mem_filter.mpr ⟨ht, by simpa using hlt⟩
    cases hm : (tc.times.filter (after < ·)).min? with
    | none =>
      rw [List.min?_eq_none_iff.mp hm] at hmem
      cases hmem
    | some a => exact ⟨a, rfl, (List.min?_eq_some_iff.mp hm).2 t hmem⟩

theorem mem_findPrevTime (h : tc.WellFormed) (ht : t ∈ tc.findPrevTime before) :
    t ∈ tc.times ∧ t < before := by
  by_cases hs : tc.isSorted = true
  · rw [h.findPrevTime_sorted hs] at ht
    have hmem := List.mem_of_getLast? ht
    exact ⟨(List.takeWhile_sublist _).subset hmem, by simpa using List.mem_takeWhile_imp hmem⟩
  · rw [h.findPrevTime_unsorted hs] at ht
    simpa using List.mem_filter.mp (List.max?_mem ht)

theorem covers_findPrevTime (h : tc.WellFormed) (ht : t ∈ tc.times) (hlt : t < before) :
    ∃ a ∈ tc.findPrevTime before, t ≤ a := by
  by_cases hs : tc.isSorted = true
  · rw [h.findPrevTime_sorted hs]
    exact le_getLast?_of_sorted (h.pairwise hs) ht hlt
  · rw [h.findPrevTime_unsorted hs]
    have hmem : t ∈ tc.times.filter (· < before) := List.mem_filter.mpr ⟨ht, by simpa using hlt⟩
    cases hm : (tc.times.filter (· < before)).max? with
    | none =>
      rw [List.max?_eq_none_iff.mp hm] at hmem
      cases hmem
    | some a => exact ⟨a, rfl, (List.max?_eq_some_iff.mp hm).2 t hmem⟩

end TimeColumn.WellFormed

-- ---------------------------------------------------------------------------
-- The searches in the store
-- ---------------------------------------------------------------------------

namespace ChunkStore

/-- The physical chunks are well-formed and listed in all of their slots. -/
structure Consistent (s : ChunkStore) : Prop where
  keyed : s.Keyed
  findable : s.Findable
  wellFormed : ∀ {key : ChunkId} {c : Chunk}, s.physicalChunksPerChunkId[key]? = some c →
    c.WellFormed

variable {s : ChunkStore} {timeline : TimelineName} {t after before : TimeInt}

theorem consistent_of_reached {env : Env} {config : ChunkStoreConfig}
    (h : Reached env .uncut config s) : s.Consistent where
  keyed := h.core.keyed
  findable := findable_of_reached h
  wellFormed hc := (h.core.storable hc).wellFormed

theorem mem_dataTimes : t ∈ s.dataTimes timeline ↔
    ∃ key c tc, s.physicalChunksPerChunkId[(key : ChunkId)]? = some c ∧
      c.timeline? timeline = some tc ∧ t ∈ tc.times := by
  simp only [dataTimes, List.mem_flatMap, OrdMap.mem_values]
  constructor
  · rintro ⟨c, ⟨key, hc⟩, ht⟩
    cases htc : c.timeline? timeline with
    | none =>
      rw [htc] at ht
      cases ht
    | some tc =>
      rw [htc] at ht
      exact ⟨key, c, tc, hc, htc, ht⟩
  · rintro ⟨key, c, tc, hc, htc, ht⟩
    refine ⟨c, ⟨key, hc⟩, ?_⟩
    rw [htc]
    exact ht

theorem mem_searchChunkByTime {search : TimeColumn → Option TimeInt} {id : ChunkId} :
    t ∈ s.searchChunkByTime timeline search id ↔
      ∃ c tc, s.physicalChunksPerChunkId[id]? = some c ∧ c.timeline? timeline = some tc ∧
        t ∈ search tc := by
  simp [searchChunkByTime, Option.bind_eq_some_iff]

theorem mem_indexEntries {m : TreeMap TimeInt ChunkIdSet} {entry : TimeInt × List ChunkId} :
    entry ∈ indexEntries m ↔ ∃ ids, m[entry.1]? = some ids ∧ entry.2 = ids.toList := by
  obtain ⟨key, ids⟩ := entry
  simp [indexEntries, TreeMap.mem_toList_iff_getElem?_eq_some, eq_comm]

theorem indexEntries_pairwise (m : TreeMap TimeInt ChunkIdSet) :
    (indexEntries m).Pairwise (·.1 ≤ ·.1) := by
  rw [indexEntries, List.pairwise_map]
  exact (TreeMap.ordered_keys_toList (t := m)).imp fun h => (compare_lt_iff_lt.mp h).le

theorem exists_entry {m : TreeMap TimeInt ChunkIdSet} {key : TimeInt} {id : ChunkId}
    (h : id ∈ OrdMap.setAt m key) : ∃ entry ∈ indexEntries m, entry.1 = key ∧ id ∈ entry.2 := by
  obtain ⟨ids, hids, hid⟩ := OrdMap.mem_setAt_iff.mp h
  exact ⟨(key, ids.toList), mem_indexEntries.mpr ⟨ids, hids, rfl⟩, rfl,
    TreeSet.mem_toList.mpr hid⟩

section Slots

variable {find : ChunkId → Option TimeInt} {result : Option TimeInt}
  {perTime : ChunkIdSetPerTime} {id : ChunkId}

theorem mem_nextTimeIn (h : t ∈ nextTimeIn find after result perTime) :
    t ∈ result ∨ ∃ id, t ∈ find id := by
  rcases NeighborSearch.mem_searchAll h with h | ⟨_, -, id, -, h⟩
  · rcases NeighborSearch.mem_searchAhead h with h | ⟨_, -, id, -, h⟩
    · exact .inl h
    · exact .inr ⟨id, h⟩
  · exact .inr ⟨id, h⟩

theorem covers_nextTimeIn_of (h : Covers result t) :
    Covers (nextTimeIn find after result perTime) t :=
  NeighborSearch.covers_searchAll.mpr (.inl h.searchAhead)

theorem covers_nextTimeIn {key : TimeInt} (hid : id ∈ perTime.startIds key) (hkey : key ≤ t)
    (hfind : Covers (find id) t) : Covers (nextTimeIn find after result perTime) t := by
  obtain ⟨entry, he, rfl, hid'⟩ := exists_entry hid
  rcases lt_or_ge after entry.1 with hlt | hle
  · refine NeighborSearch.covers_searchAll.mpr (.inl ?_)
    refine NeighborSearch.covers_searchAhead ((indexEntries_pairwise _).filter _)
      (List.mem_filter.mpr ⟨he, by simpa using hlt⟩) hid' hkey hfind
  · refine NeighborSearch.covers_searchAll.mpr (.inr ⟨entry, ?_, id, hid', hfind⟩)
    exact List.mem_reverse.mpr (List.mem_filter.mpr ⟨he, by simpa using hle⟩)

theorem mem_prevTimeIn (h : t ∈ prevTimeIn find before result perTime) :
    t ∈ result ∨ ∃ id, t ∈ find id := by
  rcases NeighborSearch.mem_searchAll (α := TimeIntᵒᵈ) h with h | ⟨_, -, id, -, h⟩
  · rcases NeighborSearch.mem_searchAhead (α := TimeIntᵒᵈ) h with h | ⟨_, -, id, -, h⟩
    · exact .inl h
    · exact .inr ⟨id, h⟩
  · exact .inr ⟨id, h⟩

theorem covers_prevTimeIn_of (h : Covers (α := TimeIntᵒᵈ) result t) :
    Covers (α := TimeIntᵒᵈ) (prevTimeIn find before result perTime) t :=
  (NeighborSearch.covers_searchAll (α := TimeIntᵒᵈ)).mpr (.inl h.searchAhead)

theorem covers_prevTimeIn {key : TimeInt} (hid : id ∈ perTime.endIds key) (hkey : t ≤ key)
    (hfind : Covers (α := TimeIntᵒᵈ) (find id) t) :
    Covers (α := TimeIntᵒᵈ) (prevTimeIn find before result perTime) t := by
  obtain ⟨entry, he, rfl, hid'⟩ := exists_entry hid
  rcases lt_or_ge entry.1 before with hlt | hle
  · refine (NeighborSearch.covers_searchAll (α := TimeIntᵒᵈ)).mpr (.inl ?_)
    refine NeighborSearch.covers_searchAhead (α := TimeIntᵒᵈ) ?_ (?_ : entry ∈ _) hid' hkey hfind
    · exact List.pairwise_reverse.mpr ((indexEntries_pairwise _).filter _)
    · exact List.mem_reverse.mpr (List.mem_filter.mpr ⟨he, decide_eq_true hlt⟩)
  · refine (NeighborSearch.covers_searchAll (α := TimeIntᵒᵈ)).mpr (.inr ⟨entry, ?_, id, hid', hfind⟩)
    exact List.mem_filter.mpr ⟨he, decide_eq_true hle⟩

end Slots

theorem Consistent.exists_perTime (h : s.Consistent) {key : ChunkId} {c : Chunk} {tc : TimeColumn}
    (hc : s.physicalChunksPerChunkId[key]? = some c) (htc : c.timeline? timeline = some tc) :
    ∃ perTime ∈ s.perTimesOf timeline, key ∈ perTime.startIds tc.timeRange.min ∧
      key ∈ perTime.endIds tc.timeRange.max := by
  obtain rfl := h.keyed hc
  have hrange : c.rangeAt (.entity c.entityPath timeline) = some tc.timeRange := by
    simp [Chunk.rangeAt, htc]
  have hslot := h.findable c.id c hc _ _ hrange
  rw [ChunkStore.at, TreeMap.getD_eq_getD_getElem?, TreeMap.getD_eq_getD_getElem?] at hslot
  have hne : ¬ (default : ChunkIdSetPerTime).HasRange c.id tc.timeRange := fun h =>
    ChunkIdSetPerTime.not_mem_startIds_default h.start
  cases hpt : s.temporalChunkIdsPerEntity[c.entityPath]? with
  | none =>
    rw [hpt] at hslot
    exact absurd hslot hne
  | some perTimeline =>
    rw [hpt, Option.getD_some] at hslot
    cases hp : perTimeline[timeline]? with
    | none =>
      rw [hp] at hslot
      exact absurd hslot hne
    | some perTime =>
      rw [hp, Option.getD_some] at hslot
      exact ⟨perTime, List.mem_filterMap.mpr ⟨_, OrdMap.mem_values.mpr ⟨_, hpt⟩, hp⟩,
        hslot.start, hslot.stop⟩

theorem Consistent.exists_column (h : s.Consistent) (ht : t ∈ s.dataTimes timeline) :
    ∃ key c tc perTime, s.physicalChunksPerChunkId[(key : ChunkId)]? = some c ∧
      c.timeline? timeline = some tc ∧ tc.WellFormed ∧ t ∈ tc.times ∧
      perTime ∈ s.perTimesOf timeline ∧ key ∈ perTime.startIds tc.timeRange.min ∧
      key ∈ perTime.endIds tc.timeRange.max := by
  obtain ⟨key, c, tc, hc, htc, ht⟩ := mem_dataTimes.mp ht
  obtain ⟨perTime, hp, hstart, hstop⟩ := h.exists_perTime hc htc
  have hw := ((h.wellFormed hc).timeline_of_lookup htc).1
  exact ⟨key, c, tc, perTime, hc, htc, hw, ht, hp, hstart, hstop⟩

theorem Consistent.mem_nextTime (h : s.Consistent)
    (ht : t ∈ s.nextTimeOnTimeline timeline after) :
    t ∈ s.dataTimes timeline ∧ after < t := by
  refine (NeighborSearch.mem_foldl (s := {u | u ∈ s.dataTimes timeline ∧ after < u})
    (fun result perTime u hu => ?_) ht).resolve_left (by simp)
  refine (mem_nextTimeIn hu).imp_right ?_
  rintro ⟨id, hid⟩
  obtain ⟨c, tc, hc, htc, hu⟩ := mem_searchChunkByTime.mp hid
  have hw := ((h.wellFormed hc).timeline_of_lookup htc).1
  obtain ⟨hmem, hlt⟩ := hw.mem_findNextTime hu
  exact ⟨mem_dataTimes.mpr ⟨id, c, tc, hc, htc, hmem⟩, hlt⟩

theorem Consistent.covers_nextTime (h : s.Consistent) (ht : t ∈ s.dataTimes timeline)
    (hlt : after < t) : Covers (s.nextTimeOnTimeline timeline after) t := by
  obtain ⟨key, c, tc, perTime, hc, htc, hw, ht, hp, hstart, -⟩ := h.exists_column ht
  obtain ⟨a, ha, hle⟩ := hw.covers_findNextTime ht hlt
  refine NeighborSearch.covers_foldl (fun _ _ => covers_nextTimeIn_of) hp fun _ => ?_
  exact covers_nextTimeIn hstart (AbsoluteTimeRange.contains_iff.mp (hw.bounds t ht)).1
    ⟨a, mem_searchChunkByTime.mpr ⟨c, tc, hc, htc, ha⟩, hle⟩

theorem Consistent.nextTime_eq_some_iff (h : s.Consistent) :
    s.nextTimeOnTimeline timeline after = some t ↔
      IsLeast {u | u ∈ s.dataTimes timeline ∧ after < u} t :=
  NeighborSearch.eq_some_iff_isLeast (fun _ => h.mem_nextTime)
    fun _ ht => h.covers_nextTime ht.1 ht.2

theorem Consistent.nextTime_eq_none_iff (h : s.Consistent) :
    s.nextTimeOnTimeline timeline after = none ↔
      {u | u ∈ s.dataTimes timeline ∧ after < u} = ∅ :=
  NeighborSearch.eq_none_iff_empty (fun _ => h.mem_nextTime)
    fun _ ht => h.covers_nextTime ht.1 ht.2

theorem Consistent.mem_prevTime (h : s.Consistent)
    (ht : t ∈ s.prevTimeOnTimeline timeline before) :
    t ∈ s.dataTimes timeline ∧ t < before := by
  refine (NeighborSearch.mem_foldl (s := {u | u ∈ s.dataTimes timeline ∧ u < before})
    (fun result perTime u hu => ?_) ht).resolve_left (by simp)
  refine (mem_prevTimeIn hu).imp_right ?_
  rintro ⟨id, hid⟩
  obtain ⟨c, tc, hc, htc, hu⟩ := mem_searchChunkByTime.mp hid
  have hw := ((h.wellFormed hc).timeline_of_lookup htc).1
  obtain ⟨hmem, hlt⟩ := hw.mem_findPrevTime hu
  exact ⟨mem_dataTimes.mpr ⟨id, c, tc, hc, htc, hmem⟩, hlt⟩

theorem Consistent.covers_prevTime (h : s.Consistent) (ht : t ∈ s.dataTimes timeline)
    (hlt : t < before) : Covers (α := TimeIntᵒᵈ) (s.prevTimeOnTimeline timeline before) t := by
  obtain ⟨key, c, tc, perTime, hc, htc, hw, ht, hp, -, hstop⟩ := h.exists_column ht
  obtain ⟨a, ha, hle⟩ := hw.covers_findPrevTime ht hlt
  refine NeighborSearch.covers_foldl (α := TimeIntᵒᵈ) (fun _ _ => covers_prevTimeIn_of) hp
    fun _ => ?_
  exact covers_prevTimeIn hstop (AbsoluteTimeRange.contains_iff.mp (hw.bounds t ht)).2
    ⟨a, mem_searchChunkByTime.mpr ⟨c, tc, hc, htc, ha⟩, hle⟩

theorem Consistent.prevTime_eq_some_iff (h : s.Consistent) :
    s.prevTimeOnTimeline timeline before = some t ↔
      IsGreatest {u | u ∈ s.dataTimes timeline ∧ u < before} t :=
  NeighborSearch.eq_some_iff_isLeast (α := TimeIntᵒᵈ) (fun _ => h.mem_prevTime)
    fun _ ht => h.covers_prevTime ht.1 ht.2

theorem Consistent.prevTime_eq_none_iff (h : s.Consistent) :
    s.prevTimeOnTimeline timeline before = none ↔
      {u | u ∈ s.dataTimes timeline ∧ u < before} = ∅ :=
  NeighborSearch.eq_none_iff_empty (α := TimeIntᵒᵈ) (fun _ => h.mem_prevTime)
    fun _ ht => h.covers_prevTime ht.1 ht.2

theorem Consistent.temporal (h : s.Consistent) (ht : t ∈ s.dataTimes timeline) :
    TimeInt.MIN ≤ t := by
  obtain ⟨_, _, _, _, _, _, hw, ht, _⟩ := h.exists_column ht
  exact hw.temporal t ht

theorem contains_union_left {r : AbsoluteTimeRange} (h : r.contains t) (other : AbsoluteTimeRange) :
    (r.union other).contains t := by
  rw [AbsoluteTimeRange.contains_iff] at h ⊢
  exact ⟨(min_le_left _ _).trans h.1, h.2.trans (le_max_left _ _)⟩

theorem contains_union_right {r : AbsoluteTimeRange} (h : r.contains t)
    (other : AbsoluteTimeRange) : (other.union r).contains t := by
  rw [AbsoluteTimeRange.contains_iff] at h ⊢
  exact ⟨(min_le_right _ _).trans h.1, h.2.trans (le_max_right _ _)⟩

theorem contains_foldl_union {first : AbsoluteTimeRange} {rest : List AbsoluteTimeRange}
    (h : first.contains t ∨ ∃ r ∈ rest, r.contains t) :
    (rest.foldl AbsoluteTimeRange.union first).contains t := by
  induction rest generalizing first with
  | nil => exact h.resolve_right (by simp)
  | cons r rest ih =>
    refine ih ?_
    rcases h with h | ⟨r', hr', h⟩
    · exact .inl (contains_union_left h r)
    · rcases List.mem_cons.mp hr' with rfl | hr'
      · exact .inl (contains_union_right h first)
      · exact .inr ⟨r', hr', h⟩

theorem exists_minKey {m : TreeMap TimeInt ChunkIdSet} {key : TimeInt} {id : ChunkId}
    (h : id ∈ OrdMap.setAt m key) : ∃ start, m.minKey? = some start ∧ start ≤ key := by
  have hc := OrdMap.contains_of_mem_setAt h
  have hs := TreeMap.isSome_minKey?_of_contains hc
  refine ⟨_, (Option.some_get hs).symm, ?_⟩
  exact compare_le_iff_le.mp (Ordering.isLE_iff_ne_gt.mp (TreeMap.minKey?_le_of_contains hc rfl))

theorem exists_maxKey {m : TreeMap TimeInt ChunkIdSet} {key : TimeInt} {id : ChunkId}
    (h : id ∈ OrdMap.setAt m key) : ∃ stop, m.maxKey? = some stop ∧ key ≤ stop := by
  have hc := OrdMap.contains_of_mem_setAt h
  have hs := TreeMap.isSome_maxKey?_of_contains hc
  refine ⟨_, (Option.some_get hs).symm, ?_⟩
  exact compare_le_iff_le.mp (Ordering.isLE_iff_ne_gt.mp (TreeMap.le_maxKey?_of_contains hc rfl))

theorem Consistent.mem_timeRange (h : s.Consistent) (ht : t ∈ s.dataTimes timeline) :
    ∃ range, s.timeRange timeline = some range ∧ range.contains t := by
  obtain ⟨key, c, tc, perTime, hc, htc, hw, ht, hp, hstart, hstop⟩ := h.exists_column ht
  have hbounds := AbsoluteTimeRange.contains_iff.mp (hw.bounds t ht)
  obtain ⟨start, hs, hs'⟩ := exists_minKey hstart
  obtain ⟨stop, he, he'⟩ := exists_maxKey hstop
  have hmem : AbsoluteTimeRange.new start stop ∈
      (s.perTimesOf timeline).filterMap rangeOfKeys := by
    refine List.mem_filterMap.mpr ⟨perTime, hp, ?_⟩
    rw [rangeOfKeys, ← TreeMap.minKey?_eq_head?_keys, ← TreeMap.maxKey?_eq_getLast?_keys, hs, he]
    rfl
  have hcontains : (AbsoluteTimeRange.new start stop).contains t := by
    rw [AbsoluteTimeRange.contains_iff]
    refine ⟨max_le (hs'.trans hbounds.1) (hw.temporal t ht), ?_⟩
    exact (hbounds.2.trans he').trans (le_max_left _ _)
  rw [timeRange]
  cases hranges : (s.perTimesOf timeline).filterMap rangeOfKeys with
  | nil =>
    rw [hranges] at hmem
    cases hmem
  | cons first rest =>
    rw [hranges] at hmem
    refine ⟨_, rfl, contains_foldl_union ?_⟩
    rcases List.mem_cons.mp hmem with rfl | hmem
    · exact .inl hcontains
    · exact .inr ⟨_, hmem, hcontains⟩

end ChunkStore

end DimosViewer

/-!
## The neighboring times among the indexed chunks

The two searches answer for the physical chunks that the indices list for the timeline. A deep
sweep that the clock cuts short leaves a chunk listed under the wrong times.
-/

namespace DimosViewer.ChunkStore

open Std (TreeMap)

def IndexedFor (s : ChunkStore) (timeline : TimelineName) (id : ChunkId) : Prop :=
  ∃ perTime ∈ s.perTimesOf timeline, ∃ time, id ∈ perTime.startIds time ∨ id ∈ perTime.endIds time

/-- The times of the rows of the physical chunks that are indexed for the timeline. -/
def indexedTimes (s : ChunkStore) (timeline : TimelineName) : Set TimeInt :=
  {t | ∃ (id : ChunkId) (c : Chunk) (tc : TimeColumn), s.physicalChunksPerChunkId[id]? = some c ∧
    s.IndexedFor timeline id ∧ c.timeline? timeline = some tc ∧ t ∈ tc.times}

variable {env : Env} {config : ChunkStoreConfig} {s : ChunkStore}

theorem Consistent.mem_indexedTimes (h : s.Consistent) {timeline : TimelineName} {t : TimeInt} :
    t ∈ s.indexedTimes timeline ↔ t ∈ s.dataTimes timeline := by
  rw [mem_dataTimes]
  constructor
  · rintro ⟨id, c, tc, hc, -, htc, ht⟩
    exact ⟨id, c, tc, hc, htc, ht⟩
  · rintro ⟨id, c, tc, hc, htc, ht⟩
    obtain ⟨perTime, hp, hstart, -⟩ := h.exists_perTime hc htc
    exact ⟨id, c, tc, hc, ⟨perTime, hp, _, .inl hstart⟩, htc, ht⟩

-- ---------------------------------------------------------------------------
-- A sweep cut short
-- ---------------------------------------------------------------------------

/-- Two components in two rows, each row with a cell of one of them. -/
def sparse : Chunk :=
  .ofColumns 2 ["e"] [2, 3] [(⟨"t", .sequence⟩, [.newTemporal 5, .newTemporal 8])]
    [("a", [some [], none]), ("b", [none, some []])]

def sparseManifest : RrdManifest where
  staticMap := []
  temporalMap :=
    [(["e"], ⟨"t", .sequence⟩, "a", 2, ⟨⟨.newTemporal 5, .newTemporal 5⟩, 1⟩),
      (["e"], ⟨"t", .sequence⟩, "b", 2, ⟨⟨.newTemporal 8, .newTemporal 8⟩, 1⟩)]

/-- Two chunks are deeply removed, the clock stops after the first. A third one is protected. -/
def sparseRun (deep : Nat) : List Op :=
  [.insertRrdManifest sparseManifest, .insertChunk (.single 1 1 0), .insertChunk sparse,
    .insertChunk (.single 3 9 6),
    .gc { GarbageCollectionOptions.gcEverything with
      timeBudget := some 10, protectedChunks := [3], performDeepDeletions := true }
      ⟨fun _ => 0, 0, fun _ => 0, 0, fun _ => deep⟩]

theorem legals_sparseRun {pol : Policy} (hchunk : ∀ c, pol.chunk c)
    (hinsert : ∀ archive c, pol.insert archive c)
    (hannounce : ∀ archive entry, pol.announceTemporal archive entry)
    (hsweep : ∀ chunks, pol.sweep (fun _ => budgetExhausted (some 10) deep) chunks) :
    Legals .plain pol (ChunkStore.new .COMPACTION_DISABLED) (sparseRun deep) := by
  have hplain : ∀ c : Chunk, c.WellFormed → c.id < 1000 → ∀ s : ChunkStore,
      (Op.insertChunk c).Legal .plain pol s :=
    fun c hw hid s => ⟨hw, Env.plain_not_future hid _, hchunk c, hinsert _ c⟩
  refine ⟨⟨by simp [sparseManifest], fun entry he => ?_⟩, hplain _ (by decide) (by decide) _,
    hplain _ (by decide) (by decide) _, hplain _ (by decide) (by decide) _, ?_, trivial⟩
  · refine ⟨Env.plain_not_future ?_ _, hannounce _ entry⟩
    rcases List.mem_cons.mp he with rfl | he
    · decide
    · cases List.mem_singleton.mp he
      decide
  · exact hsweep _

/-- The chunk with rows at 5 and 8 is still there and listed, under 8 only, so the search stops at
the chunk at 6. -/
theorem nextTime_sparseRun :
    let s := run .plain .COMPACTION_DISABLED (sparseRun 10)
    Reached .plain .any .COMPACTION_DISABLED s ∧
      s.nextTimeOnTimeline "t" (.newTemporal 0) = some (.newTemporal 6) ∧
      .newTemporal 5 ∈ s.indexedTimes "t" ∧
      ¬ IsLeast {u | u ∈ s.indexedTimes "t" ∧ .newTemporal 0 < u} (.newTemporal 6) := by
  intro s
  have hindexed : .newTemporal 5 ∈ s.indexedTimes "t" := by
    have hlisted : ∃ perTime ∈ s.perTimesOf "t", 2 ∈ perTime.startIds (.newTemporal 8) := by
      decide +kernel
    obtain ⟨perTime, hp, hstart⟩ := hlisted
    exact ⟨2, sparse, _, by decide +kernel, ⟨perTime, hp, _, .inl hstart⟩, rfl, by decide⟩
  refine ⟨?_, by decide +kernel, hindexed, fun hleast => ?_⟩
  · exact reached_run (legals_sparseRun (fun _ => trivial) (fun _ _ => trivial)
      (fun _ _ => trivial) fun _ => trivial)
  · exact absurd (hleast.2 ⟨hindexed, by decide⟩) (by decide)

-- ---------------------------------------------------------------------------
-- Runs
-- ---------------------------------------------------------------------------

/-- The searches find the neighbors of every time while no deep sweep is cut short. -/
theorem neighborTimes_of_reached (h : Reached env .uncut config s) (timeline : TimelineName)
    (cursor : TimeInt) :
    (∀ t, s.nextTimeOnTimeline timeline cursor = some t ↔
        IsLeast {u | u ∈ s.indexedTimes timeline ∧ cursor < u} t) ∧
      (s.nextTimeOnTimeline timeline cursor = none ↔
        {u | u ∈ s.indexedTimes timeline ∧ cursor < u} = ∅) ∧
      (∀ t, s.prevTimeOnTimeline timeline cursor = some t ↔
        IsGreatest {u | u ∈ s.indexedTimes timeline ∧ u < cursor} t) ∧
      (s.prevTimeOnTimeline timeline cursor = none ↔
        {u | u ∈ s.indexedTimes timeline ∧ u < cursor} = ∅) := by
  have hc := consistent_of_reached h
  simp only [hc.mem_indexedTimes]
  exact ⟨fun _ => hc.nextTime_eq_some_iff, hc.nextTime_eq_none_iff,
    fun _ => hc.prevTime_eq_some_iff, hc.prevTime_eq_none_iff⟩

theorem neighborTimes_of_reached_sparseRun :
    let s := run .plain .COMPACTION_DISABLED (sparseRun 0)
    (∀ t, s.nextTimeOnTimeline "t" (.newTemporal 0) = some t ↔
        IsLeast {u | u ∈ s.indexedTimes "t" ∧ .newTemporal 0 < u} t) ∧
      (s.nextTimeOnTimeline "t" (.newTemporal 0) = none ↔
        {u | u ∈ s.indexedTimes "t" ∧ .newTemporal 0 < u} = ∅) ∧
      (∀ t, s.prevTimeOnTimeline "t" (.newTemporal 0) = some t ↔
        IsGreatest {u | u ∈ s.indexedTimes "t" ∧ u < .newTemporal 0} t) ∧
      (s.prevTimeOnTimeline "t" (.newTemporal 0) = none ↔
        {u | u ∈ s.indexedTimes "t" ∧ u < .newTemporal 0} = ∅) := by
  have hr : Reached .plain .uncut .COMPACTION_DISABLED
      (run .plain .COMPACTION_DISABLED (sparseRun 0)) :=
    reached_run (legals_sparseRun (fun _ => trivial) (fun _ _ => trivial)
      (fun _ _ => trivial) fun _ _ _ => rfl)
  exact neighborTimes_of_reached hr "t" (.newTemporal 0)

end DimosViewer.ChunkStore
