import DimosViewer.Store.NextTime

/-!
# What a range query finds in one index

The walk starts at the last start before the range, less the longest interval. That length is capped
at `i64::MAX`, so a start far before the range hides the chunks that start before it.
-/

namespace DimosViewer

open Std (TreeMap)

namespace TimeInt

theorem le_newTemporal_iff {t : TimeInt} (h : MIN < t) {time : Int} :
    t ≤ newTemporal time ↔ t.asI64 ≤ time := by
  have hu := t.upper
  rw [lt_iff] at h
  rw [le_iff, newTemporal_asI64]
  simp only [MIN] at h
  omega

theorem le_saturatingSub_iff {t : TimeInt} (h : MIN < t) {a b : Int} :
    t.asI64 ≤ saturatingSub a b ↔ t.asI64 ≤ a - b := by
  have hu := t.upper
  rw [lt_iff] at h
  simp only [MIN] at h
  unfold saturatingSub
  omega

end TimeInt

namespace ChunkIdSetPerTime

variable {p : ChunkIdSetPerTime} {time key : TimeInt} {id : ChunkId} {range : AbsoluteTimeRange}

theorem mem_entriesUpTo {entry : TimeInt × ChunkIdSet} :
    entry ∈ p.entriesUpTo time ↔ p.perStartTime[entry.1]? = some entry.2 ∧ entry.1 ≤ time := by
  rw [entriesUpTo, List.mem_filter, TreeMap.mem_toList_iff_getElem?_eq_some, decide_eq_true_iff]

theorem entriesUpTo_pairwise (p : ChunkIdSetPerTime) (time : TimeInt) :
    (p.entriesUpTo time).Pairwise fun a b => a.1 ≤ b.1 :=
  ((TreeMap.ordered_keys_toList (t := p.perStartTime)).imp fun h =>
    (compare_lt_iff_lt.mp h).le).filter _

theorem lastStart_mem (h : p.lastStart time = some key) :
    key ∈ p.perStartTime ∧ key ≤ time := by
  obtain ⟨entry, hlast, rfl⟩ := Option.map_eq_some_iff.mp h
  obtain ⟨hget, hle⟩ := mem_entriesUpTo.mp (List.mem_of_getLast? hlast)
  exact ⟨TreeMap.mem_iff_isSome_getElem?.mpr (hget ▸ rfl), hle⟩

theorem le_lastStart (h : key ∈ p.perStartTime) (hle : key ≤ time) :
    ∃ last, p.lastStart time = some last ∧ key ≤ last := by
  obtain ⟨ids, hget⟩ := Option.isSome_iff_exists.mp (TreeMap.mem_iff_isSome_getElem?.mp h)
  have hmem : (key, ids) ∈ p.entriesUpTo time := mem_entriesUpTo.mpr ⟨hget, hle⟩
  obtain ⟨entry, hlast⟩ := Option.isSome_iff_exists.mp
    (List.getLast?_isSome.mpr (List.ne_nil_of_mem hmem))
  refine ⟨entry.1, by rw [lastStart, hlast, Option.map_some], ?_⟩
  obtain ⟨init, hinit⟩ := List.getLast?_eq_some_iff.mp hlast
  have hpair := p.entriesUpTo_pairwise time
  rw [hinit] at hpair
  rw [hinit, List.mem_append, List.mem_singleton] at hmem
  obtain hmem | rfl := hmem
  · exact (List.pairwise_append.mp hpair).2.2 _ hmem _ (List.mem_singleton.mpr rfl)
  · exact le_rfl

theorem mem_of_mem_startIds (h : id ∈ p.startIds key) : key ∈ p.perStartTime := by
  have := OrdMap.contains_of_mem_setAt h
  rwa [TreeMap.contains_iff_mem] at this

theorem mem_range_iff {query : RangeQuery} :
    id ∈ ChunkStore.range query [p] ↔ ∃ key, id ∈ p.startIds key ∧
      (ChunkStore.rangeBounds query p).1 ≤ key ∧ key ≤ (ChunkStore.rangeBounds query p).2 := by
  simp only [ChunkStore.range, List.flatMap_cons, List.flatMap_nil, List.append_nil,
    List.mem_flatMap, List.mem_filter, Bool.and_eq_true, decide_eq_true_iff, startIds,
    OrdMap.mem_setAt_iff, Std.TreeSet.mem_toList]
  constructor
  · rintro ⟨⟨key, ids⟩, ⟨hget, hbounds⟩, hid⟩
    exact ⟨key, ⟨ids, TreeMap.mem_toList_iff_getElem?_eq_some.mp hget, hid⟩, hbounds⟩
  · rintro ⟨key, ⟨ids, hget, hid⟩, hbounds⟩
    exact ⟨(key, ids), ⟨TreeMap.mem_toList_iff_getElem?_eq_some.mpr hget, hbounds⟩, hid⟩

/-- A later start is so far before `reach` that the walk begins there. -/
def Hides (p : ChunkIdSetPerTime) (range : AbsoluteTimeRange) (reach : Int) : Prop :=
  ∃ later ∈ p.perStartTime, range.min < later ∧ later.asI64 + i64Max ≤ reach

def reach (query : RangeQuery) : Int :=
  if query.includeExtendedBounds then query.range.min.asI64 - 1 else query.range.min.asI64

theorem le_queryMin_iff {query : RangeQuery} (h : TimeInt.MIN < key) (length : Nat) :
    key ≤ TimeInt.newTemporal (saturatingSub
        (if query.includeExtendedBounds then
          TimeInt.newTemporal (saturatingSub query.range.min.asI64 1)
        else query.range.min).asI64 (saturatingCast length)) ↔
      key.asI64 ≤ reach query - saturatingCast length := by
  have hcast : 0 ≤ saturatingCast length := by
    unfold saturatingCast i64Max
    omega
  have hlow := query.range.min.lower
  have hup := query.range.min.upper
  rw [TimeInt.le_newTemporal_iff h, TimeInt.le_saturatingSub_iff h, reach]
  rw [TimeInt.lt_iff] at h
  simp only [TimeInt.MIN] at h
  cases query.includeExtendedBounds with
  | false => rfl
  | true =>
    simp only [if_true, TimeInt.newTemporal_asI64]
    unfold saturatingSub
    omega

theorem rangeBounds_snd_ge {query : RangeQuery} (h : key ∈ p.perStartTime)
    (hle : key ≤ query.range.max) : key ≤ (ChunkStore.rangeBounds query p).2 := by
  rw [ChunkStore.rangeBounds]
  dsimp only
  have hmax : key ≤ if query.includeExtendedBounds then
      TimeInt.newTemporal (min i64Max (query.range.max.asI64 + 1)) else query.range.max := by
    have hup := query.range.max.upper
    split
    · rw [TimeInt.le_iff, TimeInt.newTemporal_asI64]
      rw [TimeInt.le_iff] at hle
      omega
    · exact hle
  obtain ⟨last, hlast, hkey⟩ := le_lastStart h hmax
  rw [hlast, Option.getD_some]
  exact hkey.trans (le_max_right _ _)

/-- A range that meets the query is found, unless it is hidden. -/
theorem inBounds_iff {query : RangeQuery} (h : p.HasRange id range) (hmin : TimeInt.MIN ≤ range.min)
    (hmeets : range.intersects query.range) :
    ((ChunkStore.rangeBounds query p).1 ≤ range.min ∧
      range.min ≤ (ChunkStore.rangeBounds query p).2) ↔ ¬ p.Hides range (reach query) := by
  rw [AbsoluteTimeRange.intersects_iff] at hmeets
  rw [and_iff_left (rangeBounds_snd_ge (mem_of_mem_startIds h.start) hmeets.1)]
  rw [ChunkStore.rangeBounds]
  dsimp only
  constructor
  · rintro hle ⟨later, hmem, hlt, hfar⟩
    have hlater : later.asI64 ≤ reach query - saturatingCast p.maxIntervalLength := by
      unfold saturatingCast
      omega
    obtain ⟨last, hlast, hge⟩ :=
      le_lastStart hmem ((le_queryMin_iff (hmin.trans_lt hlt) _).mpr hlater)
    rw [hlast, Option.getD_some] at hle
    exact absurd hlt (not_lt.mpr (hge.trans hle))
  · intro hnot
    generalize hstart : p.lastStart _ = start
    cases start with
    | none => exact hmin
    | some last =>
      by_contra hlt
      rw [Option.getD_some, not_le] at hlt
      obtain ⟨hmem, hle⟩ := lastStart_mem hstart
      refine hnot ⟨last, hmem, hlt, ?_⟩
      have hle := (le_queryMin_iff (hmin.trans_lt hlt) _).mp hle
      -- The chunk is longer than the cast of the longest interval, so the cast is capped.
      have hlen := (range.asI64_sub_le_absLength).trans (Int.ofNat_le.mpr h.length)
      have hreach : reach query ≤ range.max.asI64 := by
        have hmeets := TimeInt.le_iff.mp hmeets.2
        unfold reach
        split <;> omega
      rw [TimeInt.lt_iff] at hlt
      unfold saturatingCast at hle
      omega

end ChunkIdSetPerTime

-- ---------------------------------------------------------------------------
-- The range of a component
-- ---------------------------------------------------------------------------

def Chunk.timesOf (c : Chunk) (timeline : TimelineName) (component : ComponentIdentifier) :
    List TimeInt :=
  match c.timeline? timeline, c.components.get component with
  | some tc, some column => column.validEntries tc.times
  | _, _ => []

theorem TimeInt.MIN_le_newTemporal (time : Int) : MIN ≤ newTemporal time := by
  rw [le_iff, newTemporal_asI64]
  exact le_max_left _ _

theorem TimeColumn.MIN_le_timeRangeOf {tc : TimeColumn} (h : tc.WellFormed)
    {column : SerializedComponentColumn} (hr : tc.timeRangeOf column = some range)
    (ht : t ∈ column.validEntries tc.times) : TimeInt.MIN ≤ range.min := by
  have hmem := (column.validEntries_sublist tc.times).subset ht
  rw [timeRangeOf] at hr
  split at hr
  · cases hr
  · split at hr
    · cases hr
      exact h.temporal _ (h.min_mem (List.ne_nil_of_mem hmem))
    · cases hr
      dsimp only
      generalize (if isSortedList tc.times then _ else _ : Option TimeInt) = o
      cases o with
      | none => decide
      | some time => exact TimeInt.MIN_le_newTemporal _

theorem Chunk.WellFormed.exists_range {c : Chunk} {timeline : TimelineName}
    {component : ComponentIdentifier} (h : c.WellFormed)
    (ht : t ∈ c.timesOf timeline component) :
    ∃ range, c.rangeAt (.component c.entityPath timeline component) = some range ∧
      range.contains t ∧ TimeInt.MIN ≤ range.min := by
  rw [timesOf] at ht
  split at ht
  case h_1 tc column htc hcolumn =>
    have hw := (h.timeline_of_lookup htc).1
    have hne : column.listArray ≠ [] := by
      rintro hnil
      simp [SerializedComponentColumn.validEntries, hnil] at ht
    obtain ⟨range, hr⟩ : ∃ range, tc.timeRangeOf column = some range :=
      Option.isSome_iff_exists.mp (TimeColumn.timeRangeOf_isSome hne)
    refine ⟨range, ?_, TimeColumn.timeRangeOf_contains hw hr ht,
      TimeColumn.MIN_le_timeRangeOf hw hr ht⟩
    rw [rangeAt, if_pos rfl, htc, Option.bind_some, hcolumn, Option.bind_some, hr]
  case h_2 => cases ht

-- ---------------------------------------------------------------------------
-- Relevant chunks
-- ---------------------------------------------------------------------------

namespace ChunkStore

variable {s : ChunkStore} {query : RangeQuery} {e : EntityPath} {component : ComponentIdentifier}

theorem at_component (s : ChunkStore) (e : EntityPath) (timeline : TimelineName)
    (component : ComponentIdentifier) : s.at (.component e timeline component) =
      (s.perTimeOfComponent? e timeline component).getD default := by
  rw [ChunkStore.at, perTimeOfComponent?, TreeMap.getD_eq_getD_getElem?]
  rfl

theorem mem_range_perTime {cid : ChunkId} :
    cid ∈ range query (s.perTimeOfComponent? e query.timeline component).toList ↔
      ∃ key, cid ∈ (s.at (.component e query.timeline component)).startIds key ∧
        (rangeBounds query (s.at (.component e query.timeline component))).1 ≤ key ∧
        key ≤ (rangeBounds query (s.at (.component e query.timeline component))).2 := by
  rw [at_component]
  cases s.perTimeOfComponent? e query.timeline component with
  | none =>
    simp only [Option.toList_none, Option.getD_none]
    constructor
    · intro h
      cases h
    · rintro ⟨key, h, -⟩
      exact (ChunkIdSetPerTime.not_mem_startIds_default h).elim
  | some p => exact ChunkIdSetPerTime.mem_range_iff

theorem listed_of_mem_rangeRelevantChunks {mode : ChunkTrackingMode}
    (hstatic : s.staticChunkId? e component = none)
    (hc : c ∈ (s.rangeRelevantChunks mode query e component).chunks) :
    ∃ cid ∈ range query (s.perTimeOfComponent? e query.timeline component).toList,
      s.physicalChunksPerChunkId[cid]? = some c := by
  rw [rangeRelevantChunks, hstatic] at hc
  exact List.mem_filterMap.mp (List.mem_filter.mp hc).1

/-- A chunk is returned if it is found in the index and meets the range. -/
theorem mem_rangeRelevantChunks_iff (hk : s.Keyed) (hw : c.WellFormed)
    (hstatic : s.staticChunkId? e component = none) (mode : ChunkTrackingMode)
    (he : c.entityPath = e) :
    c ∈ (s.rangeRelevantChunks mode query e component).chunks ↔
      s.physicalChunksPerChunkId[c.id]? = some c ∧
      c.id ∈ range query (s.perTimeOfComponent? e query.timeline component).toList ∧
      ∃ timeRange, c.rangeAt (.component e query.timeline component) = some timeRange ∧
        timeRange.intersects query.range := by
  have hids : (∃ cid ∈ range query (s.perTimeOfComponent? e query.timeline component).toList,
      s.physicalChunksPerChunkId[cid]? = some c) ↔ s.physicalChunksPerChunkId[c.id]? = some c ∧
        c.id ∈ range query (s.perTimeOfComponent? e query.timeline component).toList := by
    constructor
    · rintro ⟨cid, hcid, hc⟩
      obtain rfl := hk hc
      exact ⟨hc, hcid⟩
    · rintro ⟨hc, hcid⟩
      exact ⟨c.id, hcid, hc⟩
  rw [rangeRelevantChunks, hstatic]
  simp only [fromChunkIds, List.mem_filter, List.mem_filterMap]
  rw [hids, and_assoc]
  refine and_congr_right fun _ => and_congr_right fun _ => ?_
  rw [Chunk.rangeAt, if_pos he]
  cases c.timeline? query.timeline with
  | none => simp
  | some tc =>
    dsimp only
    rw [tc.lookup_timeRangePerComponent hw.components_nodup, Option.bind_some]
    cases (c.components.get component).bind tc.timeRangeOf <;> simp

end ChunkStore

end DimosViewer
