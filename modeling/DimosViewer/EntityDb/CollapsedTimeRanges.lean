import DimosViewer.EntityDb.ManifestIndex
import DimosViewer.Store.Basic
import Mathlib.Data.List.Sort

/-!
# Collapsed time ranges

The time ranges in which a timeline has data, merged where they touch. Large chunks that
are loaded are looked into for gaps. `none` stands for an addition that overflows.
-/

namespace DimosViewer

open Std (TreeMap)

namespace CollapsedTimeRanges

/-- Chunks that span more than this are looked into. -/
def largeChunkThreshold (timelineRange : AbsoluteTimeRange) : Nat :=
  max (timelineRange.absLength / 5) 10

/-- `last` is the end of what has been merged. -/
def mergeSorted (last : AbsoluteTimeRange) :
    List AbsoluteTimeRange → Option (List AbsoluteTimeRange)
  | [] => some [last]
  | range :: rest =>
    -- `last.max + 1` is an `i64`.
    if last.max = .MAX then none
    else if range.min.asI64 ≤ last.max.asI64 + 1 then
      if last.max < range.max then mergeSorted { last with max := range.max } rest
      else mergeSorted last rest
    else (mergeSorted range rest).map (last :: ·)

def sortByStart (ranges : List AbsoluteTimeRange) : List AbsoluteTimeRange :=
  ranges.insertionSort (·.min ≤ ·.min)

def mergeAndSortRanges (ranges : List AbsoluteTimeRange) : Option (List AbsoluteTimeRange) :=
  match sortByStart ranges with
  | [] => some []
  | first :: rest => mergeSorted first rest

/-- The loop over the times of a column, where a range was begun at `start`. -/
def splitAtGaps (gapThreshold : Nat) (start prev : TimeInt) :
    List TimeInt → List AbsoluteTimeRange
  | [] => [.new start prev]
  | t :: rest =>
    if gapThreshold < (prev.asI64 - t.asI64).natAbs then
      .new start prev :: splitAtGaps gapThreshold t t rest
    else splitAtGaps gapThreshold start t rest

def splitTimeColumnAtGaps (timeColumn : TimeColumn) (gapThreshold : Nat) :
    List AbsoluteTimeRange :=
  match timeColumn.times with
  | first :: second :: rest =>
    if timeColumn.isSorted then splitAtGaps gapThreshold first first (second :: rest)
    else [timeColumn.timeRange]
  | _ => [timeColumn.timeRange]

def loadedRanges (threshold : Nat) (timeColumn : TimeColumn) : List AbsoluteTimeRange :=
  if threshold < timeColumn.timeRange.absLength then splitTimeColumnAtGaps timeColumn threshold
  else [timeColumn.timeRange]

/-- The ranges of the loaded chunks, and those the manifest gives for chunks that are not. -/
def occupiedRanges (rootChunks : List RootChunkInfo) (timelineRange : AbsoluteTimeRange)
    (physicalChunks : List Chunk) (timelineName : TimelineName) : List AbsoluteTimeRange :=
  (physicalChunks.flatMap fun chunk =>
    match chunk.timeline? timelineName with
    | some timeColumn => loadedRanges (largeChunkThreshold timelineRange) timeColumn
    | none => []) ++
  rootChunks.filterMap fun chunkInfo =>
    if chunkInfo.isFullyLoaded then none
    else (chunkInfo.temporals[timelineName]?).map (·.timeRange)

/-- The outer option is that of the arithmetic, the inner one that of the source. -/
def calculateDataRangesForTimeline (rootChunks : List RootChunkInfo)
    (timelines : TreeMap TimelineName AbsoluteTimeRange) (physicalChunks : List Chunk)
    (timelineName : TimelineName) : Option (Option (List AbsoluteTimeRange)) :=
  match timelines[timelineName]? with
  | none => some none
  | some timelineRange =>
    (mergeAndSortRanges
      (occupiedRanges rootChunks timelineRange physicalChunks timelineName)).map some

-- ---------------------------------------------------------------------------
-- What the ranges promise
-- ---------------------------------------------------------------------------

/-- Sorted ranges with room between them, and the same times as before. -/
structure Collapses (ranges merged : List AbsoluteTimeRange) : Prop where
  apart : merged.Pairwise fun a b => a.min ≤ b.min ∧ a.max.asI64 + 1 < b.min.asI64
  union : ∀ t, (∃ r ∈ merged, r.contains t) ↔ ∃ r ∈ ranges, r.contains t

/-- In the order by start, no range follows one that ends at `TimeInt::MAX`. -/
def OnlyLastReachesMax (ranges : List AbsoluteTimeRange) : Prop :=
  ∀ r ∈ (sortByStart ranges).dropLast, r.max ≠ .MAX

instance (ranges : List AbsoluteTimeRange) : Decidable (OnlyLastReachesMax ranges) := by
  unfold OnlyLastReachesMax
  infer_instance

structure RootRows where
  info : RootChunkInfo
  times : List TimeInt

/-- The manifest knows the extent of each root chunk, and all of a loaded one is in memory. -/
structure Represented (roots : List RootRows) (physicalChunks : List Chunk)
    (timelineName : TimelineName) : Prop where
  listed : ∀ root ∈ roots, ∀ t ∈ root.times, ∃ temporal,
    root.info.temporals[timelineName]? = some temporal ∧ temporal.timeRange.contains t
  loaded : ∀ root ∈ roots, root.info.isFullyLoaded → ∀ t ∈ root.times,
    ∃ chunk ∈ physicalChunks, ∃ timeColumn,
      chunk.timeline? timelineName = some timeColumn ∧ t ∈ timeColumn.times
  wellFormed : ∀ chunk ∈ physicalChunks, ∀ timeColumn,
    chunk.timeline? timelineName = some timeColumn → timeColumn.WellFormed

-- ---------------------------------------------------------------------------
-- Merging
-- ---------------------------------------------------------------------------

/-- The addition overflows just where a range follows one that ends at the last time. -/
theorem isSome_mergeSorted (last : AbsoluteTimeRange) (rest : List AbsoluteTimeRange) :
    (mergeSorted last rest).isSome ↔ ∀ r ∈ (last :: rest).dropLast, r.max ≠ .MAX := by
  induction rest generalizing last with
  | nil => simp [mergeSorted]
  | cons range rest ih =>
    have hdrop : (last :: range :: rest).dropLast = last :: (range :: rest).dropLast := rfl
    rw [hdrop, List.forall_mem_cons, mergeSorted]
    split
    case isTrue hmax => simp [hmax]
    case isFalse hmax =>
      -- A range that starts like this one can stand for it if both end alike.
      have hswap (other : AbsoluteTimeRange) (h : other.max = .MAX ↔ range.max = .MAX) :
          (∀ r ∈ (other :: rest).dropLast, r.max ≠ .MAX) ↔
            ∀ r ∈ (range :: rest).dropLast, r.max ≠ .MAX := by
        cases rest with
        | nil => rfl
        | cons next rest =>
          simp only [List.dropLast_cons_cons, List.forall_mem_cons, ne_eq, h]
      split
      case isTrue =>
        split
        case isTrue => rw [ih, hswap ⟨last.min, range.max⟩ Iff.rfl, and_iff_right hmax]
        case isFalse hle =>
          have hrange : range.max ≠ .MAX :=
            fun h => hmax (le_antisymm (TimeInt.le_MAX _) (h ▸ not_lt.mp hle))
          rw [ih, hswap last (iff_of_false hmax hrange), and_iff_right hmax]
      case isFalse => rw [Option.isSome_map, ih, and_iff_right hmax]

theorem contains_extend {last range : AbsoluteTimeRange} (hstart : last.min ≤ range.min)
    (htouch : range.min.asI64 ≤ last.max.asI64 + 1) (hlt : last.max < range.max) (t : TimeInt) :
    ({ last with max := range.max } : AbsoluteTimeRange).contains t ↔
      last.contains t ∨ range.contains t := by
  simp only [AbsoluteTimeRange.contains_iff, TimeInt.le_iff, TimeInt.lt_iff] at *
  omega

theorem contains_keep {last range : AbsoluteTimeRange} (hstart : last.min ≤ range.min)
    (hle : range.max ≤ last.max) (t : TimeInt) :
    last.contains t ↔ last.contains t ∨ range.contains t := by
  simp only [AbsoluteTimeRange.contains_iff, TimeInt.le_iff] at *
  omega

theorem mergeSorted_collapses {last : AbsoluteTimeRange} {rest : List AbsoluteTimeRange}
    (hsorted : (last :: rest).Pairwise (·.min ≤ ·.min))
    (h : mergeSorted last rest = some merged) :
    Collapses (last :: rest) merged ∧ ∀ r ∈ merged, last.min ≤ r.min := by
  induction rest generalizing last merged with
  | nil =>
    obtain rfl := Option.some.inj h
    exact ⟨⟨List.pairwise_singleton _ _, fun _ => Iff.rfl⟩,
      fun r hr => (List.mem_singleton.mp hr) ▸ le_rfl⟩
  | cons range rest ih =>
    obtain ⟨hlast, hrest⟩ := List.pairwise_cons.mp hsorted
    have hstart := hlast range List.mem_cons_self
    have htail (r : AbsoluteTimeRange) (hr : r ∈ rest) := hlast r (List.mem_cons_of_mem _ hr)
    have hrest' := (List.pairwise_cons.mp hrest).2
    rw [mergeSorted] at h
    split at h
    case isTrue => cases h
    case isFalse =>
      split at h
      case isTrue htouch =>
        split at h
        case isTrue hlt =>
          have hsorted' : (({ last with max := range.max } : AbsoluteTimeRange) :: rest).Pairwise
              (·.min ≤ ·.min) := List.pairwise_cons.mpr ⟨htail, hrest'⟩
          obtain ⟨hc, hge⟩ := ih hsorted' h
          refine ⟨⟨hc.apart, fun t => ?_⟩, hge⟩
          rw [hc.union]
          simp only [List.exists_mem_cons_iff, contains_extend hstart htouch hlt, or_assoc]
        case isFalse hle =>
          obtain ⟨hc, hge⟩ := ih (List.pairwise_cons.mpr ⟨htail, hrest'⟩) h
          refine ⟨⟨hc.apart, fun t => ?_⟩, hge⟩
          rw [hc.union]
          simp only [List.exists_mem_cons_iff, ← or_assoc]
          rw [← contains_keep hstart (not_lt.mp hle)]
      case isFalse hgap =>
        obtain ⟨merged, hmerged, rfl⟩ := Option.map_eq_some_iff.mp h
        obtain ⟨hc, hge⟩ := ih hrest hmerged
        refine ⟨⟨List.pairwise_cons.mpr ⟨fun r hr => ⟨hstart.trans (hge r hr), ?_⟩, hc.apart⟩,
          fun t => ?_⟩, ?_⟩
        · exact (not_le.mp hgap).trans_le (TimeInt.le_iff.mp (hge r hr))
        · rw [List.exists_mem_cons_iff, List.exists_mem_cons_iff, hc.union]
        · exact List.forall_mem_cons.mpr ⟨le_rfl, fun r hr => hstart.trans (hge r hr)⟩

theorem sortByStart_perm (ranges : List AbsoluteTimeRange) :
    (sortByStart ranges).Perm ranges :=
  List.perm_insertionSort _ _

theorem sortByStart_sorted (ranges : List AbsoluteTimeRange) :
    (sortByStart ranges).Pairwise (·.min ≤ ·.min) :=
  List.pairwise_insertionSort _ _

theorem Collapses.of_perm (h : Collapses ranges merged) (hp : ranges.Perm ranges') :
    Collapses ranges' merged :=
  ⟨h.apart, fun t => (h.union t).trans (by simp only [hp.mem_iff])⟩

theorem isSome_mergeAndSortRanges (ranges : List AbsoluteTimeRange) :
    (mergeAndSortRanges ranges).isSome ↔ OnlyLastReachesMax ranges := by
  rw [mergeAndSortRanges, OnlyLastReachesMax]
  cases sortByStart ranges with
  | nil => simp
  | cons first rest => exact isSome_mergeSorted first rest

theorem mergeAndSortRanges_collapses (h : mergeAndSortRanges ranges = some merged) :
    Collapses ranges merged := by
  have hsorted := sortByStart_sorted ranges
  refine .of_perm ?_ (sortByStart_perm ranges)
  rw [mergeAndSortRanges] at h
  cases hs : sortByStart ranges with
  | nil =>
    rw [hs] at h
    obtain rfl := Option.some.inj h
    exact ⟨.nil, fun _ => Iff.rfl⟩
  | cons first rest =>
    rw [hs] at h hsorted
    exact (mergeSorted_collapses hsorted h).1

-- ---------------------------------------------------------------------------
-- Gaps
-- ---------------------------------------------------------------------------

theorem contains_new {start prev t : TimeInt} (hmin : TimeInt.MIN ≤ t) (hstart : start ≤ t)
    (hprev : t ≤ prev) : (AbsoluteTimeRange.new start prev).contains t := by
  rw [AbsoluteTimeRange.contains_iff]
  exact ⟨max_le hstart hmin, hprev.trans (le_max_left _ _)⟩

theorem splitAtGaps_covers {gap : Nat} {start prev t : TimeInt} {rest : List TimeInt}
    (hmin : TimeInt.MIN ≤ t) (hstart : start ≤ prev) (hsorted : (prev :: rest).Pairwise (· ≤ ·))
    (ht : start ≤ t ∧ t ≤ prev ∨ t ∈ rest) :
    ∃ r ∈ splitAtGaps gap start prev rest, r.contains t := by
  induction rest generalizing start prev with
  | nil =>
    obtain ⟨hs, hp⟩ | ht := ht
    · exact ⟨_, List.mem_cons_self, contains_new hmin hs hp⟩
    · cases ht
  | cons next rest ih =>
    obtain ⟨hprev, hrest⟩ := List.pairwise_cons.mp hsorted
    have hnext := hprev next List.mem_cons_self
    rw [splitAtGaps]
    split
    case isTrue =>
      obtain ⟨hs, hp⟩ | ht := ht
      · exact ⟨_, List.mem_cons_self, contains_new hmin hs hp⟩
      · have ht' : next ≤ t ∧ t ≤ next ∨ t ∈ rest := by
          obtain rfl | ht := List.mem_cons.mp ht
          · exact .inl ⟨le_rfl, le_rfl⟩
          · exact .inr ht
        obtain ⟨r, hr, hc⟩ := ih le_rfl hrest ht'
        exact ⟨r, List.mem_cons_of_mem _ hr, hc⟩
    case isFalse =>
      refine ih (hstart.trans hnext) hrest ?_
      obtain ⟨hs, hp⟩ | ht := ht
      · exact .inl ⟨hs, hp.trans hnext⟩
      · obtain rfl | ht := List.mem_cons.mp ht
        · exact .inl ⟨hstart.trans hnext, le_rfl⟩
        · exact .inr ht

theorem loadedRanges_covers {timeColumn : TimeColumn} (hw : timeColumn.WellFormed)
    (ht : t ∈ timeColumn.times) (threshold : Nat) :
    ∃ r ∈ loadedRanges threshold timeColumn, r.contains t := by
  have hwhole : ∃ r ∈ [timeColumn.timeRange], r.contains t :=
    ⟨_, List.mem_cons_self, hw.bounds t ht⟩
  rw [loadedRanges]
  split
  case isFalse => exact hwhole
  case isTrue =>
    rw [splitTimeColumnAtGaps]
    cases htimes : timeColumn.times with
    | nil => exact hwhole
    | cons first rest =>
      cases rest with
      | nil => exact hwhole
      | cons second rest =>
        dsimp only
        split
        case isFalse => exact hwhole
        case isTrue hs =>
          have hsorted : (first :: second :: rest).Pairwise (· ≤ ·) := by
            have h := hw.sorted.symm.trans hs
            rw [isSortedList, decide_eq_true_iff, htimes] at h
            exact List.isChain_iff_pairwise.mp h
          refine splitAtGaps_covers (hw.temporal t ht) le_rfl hsorted ?_
          rw [htimes] at ht
          obtain rfl | ht := List.mem_cons.mp ht
          · exact .inl ⟨le_rfl, le_rfl⟩
          · exact .inr ht

/-- Before merging, every row of a root chunk is in one of the ranges. -/
theorem occupiedRanges_covers (h : Represented roots physicalChunks timelineName)
    (hroot : root ∈ roots) (ht : t ∈ root.times) (timelineRange : AbsoluteTimeRange) :
    ∃ r ∈ occupiedRanges (roots.map (·.info)) timelineRange physicalChunks timelineName,
      r.contains t := by
  by_cases hloaded : root.info.isFullyLoaded
  · obtain ⟨chunk, hchunk, timeColumn, hcolumn, hmem⟩ := h.loaded root hroot hloaded t ht
    obtain ⟨r, hr, hc⟩ := loadedRanges_covers (h.wellFormed chunk hchunk timeColumn hcolumn) hmem
      (largeChunkThreshold timelineRange)
    refine ⟨r, List.mem_append_left _ (List.mem_flatMap.mpr ⟨chunk, hchunk, ?_⟩), hc⟩
    rwa [hcolumn]
  · obtain ⟨temporal, htemporal, hc⟩ := h.listed root hroot t ht
    refine ⟨temporal.timeRange, List.mem_append_right _ (List.mem_filterMap.mpr
      ⟨root.info, List.mem_map_of_mem hroot, ?_⟩), hc⟩
    rw [if_neg hloaded, htemporal]
    rfl

-- ---------------------------------------------------------------------------
-- All ranges
-- ---------------------------------------------------------------------------

/-- Ranges collapse, and cover all rows, if none that ends at `TimeInt::MAX` is followed by
another one. -/
theorem collapses_iff (ranges : List AbsoluteTimeRange) :
    ((∃ merged, mergeAndSortRanges ranges = some merged ∧ Collapses ranges merged) ↔
      OnlyLastReachesMax ranges) ∧
    ∀ roots physicalChunks timelineName timelineRange timelines,
      Represented roots physicalChunks timelineName →
      timelines[timelineName]? = some timelineRange →
      ((∃ merged, calculateDataRangesForTimeline (roots.map (·.info)) timelines physicalChunks
          timelineName = some (some merged) ∧
        ∀ root ∈ roots, ∀ t ∈ root.times, ∃ r ∈ merged, r.contains t) ↔
      OnlyLastReachesMax
        (occupiedRanges (roots.map (·.info)) timelineRange physicalChunks timelineName)) := by
  refine ⟨?_, fun roots physicalChunks timelineName timelineRange timelines hr ht => ?_⟩
  · rw [← isSome_mergeAndSortRanges, Option.isSome_iff_exists]
    exact ⟨fun ⟨merged, h, _⟩ => ⟨merged, h⟩,
      fun ⟨merged, h⟩ => ⟨merged, h, mergeAndSortRanges_collapses h⟩⟩
  · rw [← isSome_mergeAndSortRanges, calculateDataRangesForTimeline, ht, Option.isSome_iff_exists]
    constructor
    · rintro ⟨merged, h, -⟩
      obtain ⟨merged', hm, -⟩ := Option.map_eq_some_iff.mp h
      exact ⟨merged', hm⟩
    · rintro ⟨merged, h⟩
      refine ⟨merged, congrArg (Option.map some) h, fun root hroot t hmem => ?_⟩
      exact ((mergeAndSortRanges_collapses h).union t).mpr (occupiedRanges_covers hr hroot hmem _)

/-- A range up to the last time, and one inside it. -/
theorem overflow_not_collapsed :
    ¬ ∃ merged, mergeAndSortRanges [⟨.ZERO, .MAX⟩, ⟨.newTemporal 5, .newTemporal 7⟩] = some merged ∧
      Collapses [⟨.ZERO, .MAX⟩, ⟨.newTemporal 5, .newTemporal 7⟩] merged := by
  have hnone : mergeAndSortRanges [⟨.ZERO, .MAX⟩, ⟨.newTemporal 5, .newTemporal 7⟩] = none := by
    decide
  rintro ⟨merged, h, -⟩
  rw [hnone] at h
  cases h

def rowAtZero : Chunk where
  id := 0
  entityPath := []
  isSorted := true
  rowIds := [0]
  timelines := [("frame", .new none ⟨"frame", .sequence⟩ [.ZERO])]
  components := []

def loadedRoot : RootRows where
  info := { entityPath := [], rowId := 0, state := .fullyLoaded,
            temporals := (∅ : TreeMap TimelineName TemporalChunkInfo).insert "frame"
              ⟨⟨"frame", .sequence⟩, ⟨.ZERO, .ZERO⟩, 1⟩ }
  times := [.ZERO]

def unloadedRoot : RootRows where
  info := { entityPath := [], rowId := 1, state := .unloaded,
            temporals := (∅ : TreeMap TimelineName TemporalChunkInfo).insert "frame"
              ⟨⟨"frame", .sequence⟩, ⟨.newTemporal 7, .newTemporal 12⟩, 2⟩ }
  times := [.newTemporal 12, .newTemporal 7]

theorem represented_halfLoaded : Represented [loadedRoot, unloadedRoot] [rowAtZero] "frame" := by
  refine ⟨fun root hr t ht => ?_, fun root hr hfull t ht => ?_, fun chunk hc column h => ?_⟩
  · rcases List.mem_pair.mp hr with rfl | rfl
    · obtain rfl := List.mem_singleton.mp ht
      exact ⟨⟨⟨"frame", .sequence⟩, ⟨.ZERO, .ZERO⟩, 1⟩, by simp [loadedRoot], by decide⟩
    · refine ⟨⟨⟨"frame", .sequence⟩, ⟨.newTemporal 7, .newTemporal 12⟩, 2⟩,
        by simp [unloadedRoot], ?_⟩
      rcases List.mem_pair.mp ht with rfl | rfl <;> decide
  · rcases List.mem_pair.mp hr with rfl | rfl
    · exact ⟨rowAtZero, List.mem_cons_self, _, rfl, ht⟩
    · cases hfull
  · obtain rfl := List.mem_singleton.mp hc
    obtain rfl := Option.some.inj h
    decide

theorem collapses_halfLoaded :
    (∃ merged, mergeAndSortRanges [⟨.newTemporal 6, .MAX⟩, ⟨.ZERO, .newTemporal 5⟩] = some merged ∧
      Collapses [⟨.newTemporal 6, .MAX⟩, ⟨.ZERO, .newTemporal 5⟩] merged) ∧
    ∃ merged, calculateDataRangesForTimeline ([loadedRoot, unloadedRoot].map (·.info))
        ((∅ : TreeMap TimelineName AbsoluteTimeRange).insert "frame" ⟨.ZERO, .newTemporal 12⟩)
        [rowAtZero] "frame" = some (some merged) ∧
      ∀ root ∈ [loadedRoot, unloadedRoot], ∀ t ∈ root.times, ∃ r ∈ merged, r.contains t := by
  refine ⟨(collapses_iff _).1.mpr (by decide), ((collapses_iff []).2 _ _ _
    ⟨.ZERO, .newTemporal 12⟩ _ represented_halfLoaded (by simp)).mpr ?_⟩
  have hoccupied : occupiedRanges ([loadedRoot, unloadedRoot].map (·.info))
      ⟨.ZERO, .newTemporal 12⟩ [rowAtZero] "frame" =
        [⟨.ZERO, .ZERO⟩, ⟨.newTemporal 7, .newTemporal 12⟩] := by decide
  rw [hoccupied]
  decide

end CollapsedTimeRanges

end DimosViewer
