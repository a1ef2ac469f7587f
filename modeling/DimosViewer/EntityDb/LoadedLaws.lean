import DimosViewer.EntityDb.ManifestIndex
import DimosViewer.Reach

/-!
# What the counts of the segments say

The count of a segment is the number of its chunks that are not fully loaded. A step
that changes whether a chunk is fully loaded changes the counts of its segments along.
-/

namespace DimosViewer

open Reach (Reachable)
open Std (TreeMap)

-- ---------------------------------------------------------------------------
-- Merging
-- ---------------------------------------------------------------------------

theorem popIncoming_eq_none (h : popIncoming l = none) : l = [] := by
  cases l with
  | nil => rfl
  | cons head l =>
    rw [popIncoming] at h
    split at h
    · cases h
    · split at h <;> cases h

theorem popIncoming_perm {l rest : List TimeRange} (h : popIncoming l = some (range, rest)) :
    l.Perm (range :: rest) := by
  induction l generalizing range rest with
  | nil => cases h
  | cons head l ih =>
    rw [popIncoming] at h
    split at h
    case h_1 hnone =>
      obtain rfl := popIncoming_eq_none hnone
      cases h
      exact .refl _
    case h_2 best others hsome =>
      split at h
      · cases h
        exact .refl _
      · cases h
        exact ((ih hsome).cons head).trans (.swap _ _ _)

namespace Ranges

/-- What a range still costs: more the earlier it starts, and most if it is a point. -/
def cost (range : TimeRange) : Nat :=
  2 * (TimeInt.MAX.asI64 - range.range.min.asI64).toNat +
    if range.range.min = range.range.max then 2 else 1

theorem cost_le_weight (range : TimeRange) : cost range ≤ weight range := by
  rw [cost, weight]
  split <;> omega

theorem cost_delayed {last range : TimeRange} (h : range.range.min ≤ range.range.max)
    (hlast : range.range.min < last.range.max) :
    ((delayed last range).map cost).sum < cost range ∧
      ∀ r ∈ delayed last range, r.range.min ≤ r.range.max := by
  have hmax := range.range.max.upper
  have hmax' := last.range.max.upper
  rw [TimeInt.le_iff] at h
  rw [TimeInt.lt_iff] at hlast
  rw [delayed]
  split
  case isTrue hlt =>
    rw [TimeInt.lt_iff] at hlt
    refine ⟨?_, fun r hr => List.mem_singleton.mp hr ▸ TimeInt.le_iff.mpr (Int.le_of_lt hlt)⟩
    simp only [List.map_cons, List.map_nil, List.sum_cons, List.sum_nil, cost, TimeInt.MAX]
    split <;> split <;> omega
  case isFalse hge =>
    split
    case isTrue hlt =>
      refine ⟨?_, fun r hr => List.mem_singleton.mp hr ▸ hlt.le⟩
      simp only [List.map_cons, List.map_nil, List.sum_cons, List.sum_nil, cost, TimeInt.MAX,
        if_neg hlt.ne]
      split
      · omega
      case isFalse hne =>
        have hne : range.range.min.asI64 ≠ range.range.max.asI64 := fun he => hne (TimeInt.ext he)
        omega
    case isFalse =>
      refine ⟨?_, fun _ hr => absurd hr List.not_mem_nil⟩
      simp only [List.map_nil, List.sum_nil, cost]
      split <;> omega

theorem push_incoming (ranges : Ranges) {range : TimeRange}
    (h : range.range.min ≤ range.range.max) :
    ∃ more, (ranges.push range).incoming = more ++ ranges.incoming ∧
      (more.map cost).sum < cost range ∧ ∀ r ∈ more, r.range.min ≤ r.range.max := by
  have hnone : (([] : List TimeRange).map cost).sum < cost range ∧
      ∀ r ∈ ([] : List TimeRange), r.range.min ≤ r.range.max := by
    refine ⟨?_, fun _ hr => absurd hr List.not_mem_nil⟩
    rw [List.map_nil, List.sum_nil, cost]
    split <;> omega
  rw [push]
  split
  · exact ⟨[], rfl, hnone⟩
  · split
    · exact ⟨[], rfl, hnone⟩
    · split
      · exact ⟨[], rfl, hnone⟩
      case isFalse hlast =>
        split <;> exact ⟨_, rfl, cost_delayed h (not_le.mp hlast)⟩

theorem mergeIn_incoming {fuel : Nat} {ranges : Ranges}
    (h : ∀ r ∈ ranges.incoming, r.range.min ≤ r.range.max)
    (hfuel : (ranges.incoming.map cost).sum ≤ fuel) : (mergeIn fuel ranges).incoming = [] := by
  induction fuel generalizing ranges with
  | zero =>
    rw [mergeIn]
    cases hl : ranges.incoming with
    | nil => rfl
    | cons r rest =>
      rw [hl, List.map_cons, List.sum_cons, cost] at hfuel
      split at hfuel <;> omega
  | succ fuel ih =>
    rw [mergeIn]
    split
    case h_1 hnone => exact popIncoming_eq_none hnone
    case h_2 range rest hsome =>
      have hperm := popIncoming_perm hsome
      have hin : ∀ r ∈ range :: rest, r.range.min ≤ r.range.max := fun r hr =>
        h r (hperm.mem_iff.mpr hr)
      obtain ⟨more, hmore, hcost, hord⟩ :=
        push_incoming { ranges with incoming := rest } (hin range List.mem_cons_self)
      refine ih (fun r hr => ?_) ?_
      · rw [hmore] at hr
        rcases List.mem_append.mp hr with hr | hr
        · exact hord r hr
        · exact hin r (List.mem_cons_of_mem _ hr)
      · rw [hmore, List.map_append, List.sum_append]
        rw [(hperm.map cost).sum_eq, List.map_cons, List.sum_cons] at hfuel
        dsimp only
        omega

theorem mergeRanges_done {ranges : List TimeRange} (h : ∀ r ∈ ranges, r.range.min ≤ r.range.max) :
    (mergeIn (ranges.map weight).sum { incoming := ranges }).incoming = [] := by
  refine mergeIn_incoming h ?_
  induction ranges with
  | nil => exact Nat.le_refl _
  | cons range rest ih =>
    simp only [List.map_cons, List.sum_cons]
    exact Nat.add_le_add (cost_le_weight range)
      (ih fun r hr => h r (List.mem_cons_of_mem _ hr))

end Ranges

-- ---------------------------------------------------------------------------
-- Counts
-- ---------------------------------------------------------------------------

namespace MergedRanges

variable {m : MergedRanges} {paths : ComponentPaths} {isUnloaded isUnloaded' : ChunkId → Bool}

def coveringChunks (m : MergedRanges) (paths : ComponentPaths) (idx : Nat) : List ChunkId :=
  (m.rangesFromChunk.toList.filter fun entry =>
    m.isChunkInteresting paths entry.1 && decide (entry.2.1 ≤ idx ∧ idx ≤ entry.2.2)).map Prod.fst

/-- Every segment counts the chunks that cover it and are unloaded, if any covers it. -/
def Counts (m : MergedRanges) (paths : ComponentPaths) (isUnloaded : ChunkId → Bool) : Prop :=
  ∀ idx range, m.ranges[idx]? = some range →
    range.unloadedCount =
      if m.coveringChunks paths idx = [] then none
      else some ((m.coveringChunks paths idx).countP isUnloaded)

theorem mem_coveringChunks {chunk : ChunkId} {idx : Nat} :
    chunk ∈ m.coveringChunks paths idx ↔ m.isChunkInteresting paths chunk = true ∧
      ∃ segments, m.rangesFromChunk[chunk]? = some segments ∧
        segments.1 ≤ idx ∧ idx ≤ segments.2 := by
  simp only [coveringChunks, List.mem_map, List.mem_filter, Bool.and_eq_true, decide_eq_true_eq]
  constructor
  · rintro ⟨⟨key, segments⟩, ⟨hm, hi, hc⟩, rfl⟩
    exact ⟨hi, segments, TreeMap.mem_toList_iff_getElem?_eq_some.mp hm, hc⟩
  · rintro ⟨hi, segments, hm, hc⟩
    exact ⟨(chunk, segments), ⟨TreeMap.mem_toList_iff_getElem?_eq_some.mpr hm, hi, hc⟩, rfl⟩

theorem nodup_coveringChunks (m : MergedRanges) (paths : ComponentPaths) (idx : Nat) :
    (m.coveringChunks paths idx).Nodup := by
  refine List.Nodup.sublist (List.filter_sublist.map Prod.fst) ?_
  rw [TreeMap.map_fst_toList_eq_keys]
  exact TreeMap.nodup_keys

theorem getElem?_modifyCounts (segments : Nat × Nat) (f : Option Nat → Option Nat)
    (ranges : List ResolvedRange) (idx : Nat) :
    (modifyCounts segments f ranges)[idx]? = (ranges[idx]?).map fun range =>
      if segments.1 ≤ idx ∧ idx ≤ segments.2 then
        { range with unloadedCount := f range.unloadedCount }
      else range := by
  rw [modifyCounts, List.getElem?_mapIdx]

theorem getElem?_foldl_modifyCounts (entries : List (ChunkId × Nat × Nat))
    (ranges : List ResolvedRange) (idx : Nat) :
    (entries.foldl (fun ranges (chunk, segments) => modifyCounts segments
        (fun count => some (count.getD 0 + if isUnloaded chunk then 1 else 0)) ranges)
      ranges)[idx]? =
      (ranges[idx]?).map fun range =>
        let covering := (entries.filter fun entry =>
          decide (entry.2.1 ≤ idx ∧ idx ≤ entry.2.2)).map Prod.fst
        if covering = [] then range
        else { range with
          unloadedCount := some (range.unloadedCount.getD 0 + covering.countP isUnloaded) } := by
  induction entries generalizing ranges with
  | nil => simp
  | cons entry rest ih =>
    obtain ⟨chunk, segments⟩ := entry
    rw [List.foldl_cons, ih, getElem?_modifyCounts, Option.map_map]
    congr 1
    funext range
    dsimp only [Function.comp_apply]
    by_cases hc : segments.1 ≤ idx ∧ idx ≤ segments.2
    · rw [if_pos hc, List.filter_cons_of_pos (by simpa using hc), List.map_cons,
        if_neg (List.cons_ne_nil _ _), List.countP_cons]
      split
      case isTrue hnil => rw [hnil]; simp
      case isFalse => rw [Option.getD_some, Nat.add_assoc, Nat.add_comm (ite _ _ _)]
    · rw [if_neg hc, List.filter_cons_of_neg (by simpa using hc)]

theorem Counts.updateComponentsOfInterest (h : m.Counts paths isUnloaded)
    (interest : Finset ComponentPathKey) :
    (m.updateComponentsOfInterest interest paths isUnloaded).Counts paths isUnloaded := by
  rw [MergedRanges.updateComponentsOfInterest]
  split
  · exact h
  · intro idx range hr
    dsimp only at hr
    rw [getElem?_foldl_modifyCounts, List.getElem?_map, Option.map_map,
      Option.map_eq_some_iff] at hr
    obtain ⟨old, -, rfl⟩ := hr
    have hcovering : coveringChunks { m with componentsOfInterest := interest } paths idx =
        ((m.rangesFromChunk.toList.filter fun entry =>
          isChunkInteresting { m with componentsOfInterest := interest } paths entry.1).filter
            fun entry => decide (entry.2.1 ≤ idx ∧ idx ≤ entry.2.2)).map Prod.fst := by
      rw [coveringChunks, List.filter_filter]
      simp only [Bool.and_comm]
    have hsame : ∀ ranges, coveringChunks { m with componentsOfInterest := interest, ranges } paths
        idx = coveringChunks { m with componentsOfInterest := interest } paths idx := fun _ => rfl
    have hint : ∀ ranges, isChunkInteresting { m with componentsOfInterest := interest, ranges }
        paths = isChunkInteresting { m with componentsOfInterest := interest } paths := fun _ => rfl
    simp only [hsame, hint, hcovering]
    dsimp only [Function.comp_apply]
    split
    · rfl
    · rw [Option.getD_none, Nat.zero_add]

theorem counts_new (ranges : List TimeRange) (interest : Finset ComponentPathKey) :
    (MergedRanges.new ranges interest paths isUnloaded).Counts paths isUnloaded := by
  refine Counts.updateComponentsOfInterest (fun idx range hr => ?_) interest
  obtain ⟨old, -, rfl⟩ := Option.map_eq_some_iff.mp (List.getElem?_map.symm.trans hr)
  rw [if_pos]
  refine List.eq_nil_iff_forall_not_mem.mpr fun chunk hc => ?_
  obtain ⟨hi, -⟩ := mem_coveringChunks.mp hc
  cases hp : paths[chunk]? <;> simp [isChunkInteresting, hp] at hi

-- ---------------------------------------------------------------------------
-- Changes of one chunk
-- ---------------------------------------------------------------------------

theorem Counts.congr (h : m.Counts paths isUnloaded)
    (hsame : ∀ idx, ∀ chunk ∈ m.coveringChunks paths idx, isUnloaded' chunk = isUnloaded chunk) :
    m.Counts paths isUnloaded' := by
  intro idx range hr
  have hcount : (m.coveringChunks paths idx).countP isUnloaded' =
      (m.coveringChunks paths idx).countP isUnloaded :=
    List.countP_congr fun chunk hc => by rw [hsame idx chunk hc]
  rw [h idx range hr, hcount]

theorem countP_update {l : List ChunkId} (hl : l.Nodup) {chunk : ChunkId}
    (hother : ∀ c, c ≠ chunk → isUnloaded' c = isUnloaded c) (hf : isUnloaded chunk = false)
    (ht : isUnloaded' chunk = true) :
    l.countP isUnloaded' = l.countP isUnloaded + if chunk ∈ l then 1 else 0 := by
  induction l with
  | nil => rfl
  | cons c rest ih =>
    obtain ⟨hnot, hrest⟩ := List.nodup_cons.mp hl
    rw [List.countP_cons, List.countP_cons, ih hrest]
    by_cases hc : c = chunk
    · subst hc
      simp [hf, ht, hnot]
    · simp [hother c hc, Ne.symm hc, Nat.add_right_comm]

variable {chunk : ChunkId}

theorem Counts.modify (h : m.Counts paths isUnloaded) {segments : Nat × Nat} {f : Nat → Nat}
    (hi : m.isChunkInteresting paths chunk = true)
    (hs : m.rangesFromChunk[chunk]? = some segments)
    (hf : ∀ idx, (m.coveringChunks paths idx).countP isUnloaded' =
      if chunk ∈ m.coveringChunks paths idx then f ((m.coveringChunks paths idx).countP isUnloaded)
      else (m.coveringChunks paths idx).countP isUnloaded) :
    Counts { m with ranges := modifyCounts segments (Option.map f) m.ranges } paths isUnloaded' := by
  intro idx range hr
  dsimp only at hr
  rw [getElem?_modifyCounts, Option.map_eq_some_iff] at hr
  obtain ⟨old, hold, rfl⟩ := hr
  have hmem : chunk ∈ m.coveringChunks paths idx ↔ segments.1 ≤ idx ∧ idx ≤ segments.2 := by
    rw [mem_coveringChunks, hs]
    exact ⟨fun ⟨_, _, he, hc⟩ => Option.some.inj he ▸ hc, fun hc => ⟨hi, _, rfl, hc⟩⟩
  change _ = if m.coveringChunks paths idx = [] then none
    else some ((m.coveringChunks paths idx).countP isUnloaded')
  rw [hf idx]
  split
  case isTrue hc =>
    have hmem' := hmem.mpr hc
    rw [if_neg (List.ne_nil_of_mem hmem'), if_pos hmem', h idx old hold,
      if_neg (List.ne_nil_of_mem hmem')]
    rfl
  case isFalse hc => rw [if_neg (hmem.not.mpr hc), h idx old hold]

theorem Counts.onChunkLoaded (h : m.Counts paths isUnloaded)
    (hother : ∀ c, c ≠ chunk → isUnloaded' c = isUnloaded c) (hf : isUnloaded chunk = true)
    (ht : isUnloaded' chunk = false) : (m.onChunkLoaded chunk paths).Counts paths isUnloaded' := by
  rw [MergedRanges.onChunkLoaded]
  have hnot (hno : ∀ idx, chunk ∉ m.coveringChunks paths idx) : m.Counts paths isUnloaded' :=
    h.congr fun idx c hc => hother c fun he => hno idx (he ▸ hc)
  split
  case isTrue hi =>
    split
    case h_1 hs =>
      refine hnot fun idx hc => ?_
      obtain ⟨-, _, hs', -⟩ := mem_coveringChunks.mp hc
      cases hs.symm.trans hs'
    case h_2 segments hs =>
      refine h.modify hi hs fun idx => ?_
      rw [countP_update (nodup_coveringChunks m paths idx)
        (fun c hc => (hother c hc).symm) ht hf]
      split <;> rfl
  case isFalse hi => exact hnot fun idx hc => hi (mem_coveringChunks.mp hc).1

theorem Counts.onChunkUnloaded (h : m.Counts paths isUnloaded)
    (hother : ∀ c, c ≠ chunk → isUnloaded' c = isUnloaded c) (hf : isUnloaded chunk = false)
    (ht : isUnloaded' chunk = true) :
    (m.onChunkUnloaded chunk paths).Counts paths isUnloaded' := by
  rw [MergedRanges.onChunkUnloaded]
  have hnot (hno : ∀ idx, chunk ∉ m.coveringChunks paths idx) : m.Counts paths isUnloaded' :=
    h.congr fun idx c hc => hother c fun he => hno idx (he ▸ hc)
  split
  case isTrue hi =>
    split
    case h_1 hs =>
      refine hnot fun idx hc => ?_
      obtain ⟨-, _, hs', -⟩ := mem_coveringChunks.mp hc
      cases hs.symm.trans hs'
    case h_2 segments hs =>
      refine h.modify hi hs fun idx => ?_
      rw [countP_update (nodup_coveringChunks m paths idx) hother hf ht]
      split <;> rfl
  case isFalse hi => exact hnot fun idx hc => hi (mem_coveringChunks.mp hc).1

-- ---------------------------------------------------------------------------
-- What is shown as loaded
-- ---------------------------------------------------------------------------

def startOf (startTime : TimeInt) (ranges : List ResolvedRange) : Nat → TimeInt
  | 0 => startTime
  | idx + 1 => (ranges[idx]?).elim startTime (·.endTime)

def Unblocked (ranges : List ResolvedRange) (first : Nat) : Prop :=
  ∀ idx range, first ≤ idx → ranges[idx]? = some range → ∀ n, range.unloadedCount ≠ some (n + 1)

def Spans (startTime : TimeInt) (ranges : List ResolvedRange) (shown : AbsoluteTimeRange) :
    Prop :=
  ∃ first last, first ≤ last ∧ shown.min = startOf startTime ranges first ∧
    (∃ range, ranges[last]? = some range ∧ shown.max = range.endTime) ∧
    ∀ idx range, first ≤ idx → idx ≤ last → ranges[idx]? = some range →
      ∀ n, range.unloadedCount ≠ some (n + 1)

theorem startOf_append (startTime : TimeInt) {ranges : List ResolvedRange} {idx : Nat}
    (h : idx ≤ ranges.length) (more : List ResolvedRange) :
    startOf startTime (ranges ++ more) idx = startOf startTime ranges idx := by
  cases idx with
  | zero => rfl
  | succ idx => rw [startOf, startOf, List.getElem?_append_left h]

theorem startOf_length (startTime : TimeInt) (ranges : List ResolvedRange) (range : ResolvedRange) :
    startOf startTime (ranges ++ [range]) (ranges.length + 1) = range.endTime := by
  rw [startOf, List.getElem?_concat_length]
  rfl

theorem Spans.append {startTime : TimeInt} {ranges : List ResolvedRange}
    (h : Spans startTime ranges shown) (more : List ResolvedRange) :
    Spans startTime (ranges ++ more) shown := by
  obtain ⟨first, last, hle, hmin, ⟨range, hr, hmax⟩, hall⟩ := h
  have hlast := (List.getElem?_eq_some_iff.mp hr).1
  refine ⟨first, last, hle, ?_, ⟨range, ?_, hmax⟩, fun idx r hf hl hr' => ?_⟩
  · rw [startOf_append _ (by omega), hmin]
  · rwa [List.getElem?_append_left hlast]
  · rw [List.getElem?_append_left (by omega)] at hr'
    exact hall idx r hf hl hr'

theorem Unblocked.append {ranges : List ResolvedRange} {first : Nat} (h : Unblocked ranges first)
    {range : ResolvedRange} (hr : ∀ n, range.unloadedCount ≠ some (n + 1)) :
    Unblocked (ranges ++ [range]) first := by
  intro idx r hf hget
  rw [List.getElem?_append] at hget
  split at hget
  · exact h idx r hf hget
  · obtain rfl := List.mem_singleton.mp (List.mem_of_getElem? hget)
    exact hr

theorem unblocked_length (ranges : List ResolvedRange) : Unblocked ranges ranges.length :=
  fun _ _ hf hget => absurd (List.getElem?_eq_some_iff.mp hget).1 (Nat.not_lt.mpr hf)

structure Scanned (startTime : TimeInt) (ranges : List ResolvedRange)
    (loaded : List AbsoluteTimeRange) (inProgress : Option AbsoluteTimeRange)
    (lastEnd : TimeInt) : Prop where
  loaded : ∀ shown ∈ loaded, Spans startTime ranges shown
  pending : ∃ first ≤ ranges.length, Unblocked ranges first ∧
    match inProgress with
    | none => lastEnd = startOf startTime ranges first
    | some progress => first < ranges.length ∧ progress.min = startOf startTime ranges first ∧
      progress.max = startOf startTime ranges ranges.length

theorem spans_of_pending {startTime : TimeInt} {ranges : List ResolvedRange} {first : Nat}
    {progress : AbsoluteTimeRange} (hu : Unblocked ranges first) (hlt : first < ranges.length)
    (hmin : progress.min = startOf startTime ranges first)
    (hmax : progress.max = startOf startTime ranges ranges.length) :
    Spans startTime ranges progress := by
  obtain ⟨last, hlast⟩ := Nat.exists_eq_succ_of_ne_zero (Nat.ne_of_gt (Nat.zero_lt_of_lt hlt))
  obtain ⟨range, hget⟩ : ∃ range, ranges[last]? = some range :=
    ⟨_, List.getElem?_eq_getElem (by omega)⟩
  refine ⟨first, last, by omega, hmin, ⟨range, hget, ?_⟩, fun idx range hf _ hr => hu idx range hf hr⟩
  rw [hmax, hlast, startOf, hget]
  rfl

theorem Scanned.step {startTime lastEnd : TimeInt} {ranges : List ResolvedRange}
    {loaded : List AbsoluteTimeRange} {inProgress : Option AbsoluteTimeRange}
    (h : Scanned startTime ranges loaded inProgress lastEnd) (range : ResolvedRange) :
    let acc := loadedRangesStep (loaded, inProgress, lastEnd) range
    Scanned startTime (ranges ++ [range]) acc.1 acc.2.1 acc.2.2 := by
  obtain ⟨hloaded, first, hfirst, hu, hpending⟩ := h
  have hold : ∀ shown ∈ loaded, Spans startTime (ranges ++ [range]) shown := fun shown hs =>
    (hloaded shown hs).append _
  have hlen : (ranges ++ [range]).length = ranges.length + 1 := List.length_append
  have hend := startOf_length startTime ranges range
  have hstart := startOf_append startTime hfirst [range]
  obtain ⟨endTime, unloadedCount⟩ := range
  -- A segment that waits for a chunk ends the run; any other one is added to it.
  have hblocked : ∀ loaded, (∀ shown ∈ loaded, Spans startTime (ranges ++ [_]) shown) →
      Scanned startTime (ranges ++ [⟨endTime, unloadedCount⟩]) loaded none endTime :=
    fun loaded hl => ⟨hl, ranges.length + 1, hlen.ge, hlen ▸ unblocked_length _, hend.symm⟩
  have hprogress : ∀ min, min = startOf startTime ranges first →
      (∀ n, unloadedCount ≠ some (n + 1)) →
      Scanned startTime (ranges ++ [⟨endTime, unloadedCount⟩]) loaded (some ⟨min, endTime⟩) endTime :=
    fun min hmin hr => ⟨hold, first, by omega, hu.append hr, by omega, hmin.trans hstart.symm,
      by rw [hlen]; exact hend.symm⟩
  cases unloadedCount with
  | none =>
    cases inProgress with
    | none => exact ⟨hold, first, by omega, hu.append nofun, hpending.trans hstart.symm⟩
    | some progress => exact hprogress _ hpending.2.1 nofun
  | some count =>
    cases count with
    | zero =>
      cases inProgress with
      | none => exact hprogress _ hpending nofun
      | some progress => exact hprogress _ hpending.2.1 nofun
    | succ count =>
      cases inProgress with
      | none => exact hblocked loaded hold
      | some progress =>
        refine hblocked _ fun shown hs => ?_
        rcases List.mem_append.mp hs with hs | hs
        · exact hold shown hs
        · rw [List.mem_singleton.mp hs]
          exact (spans_of_pending hu hpending.1 hpending.2.1 hpending.2.2).append _

theorem scanned_foldl (startTime : TimeInt) (ranges : List ResolvedRange) :
    let acc := ranges.foldl loadedRangesStep ([], none, startTime)
    Scanned startTime ranges acc.1 acc.2.1 acc.2.2 := by
  induction ranges using List.reverseRecOn with
  | nil => exact ⟨fun _ hm => absurd hm List.not_mem_nil, 0, Nat.le_refl _, unblocked_length [], rfl⟩
  | append_singleton ranges range ih =>
    rw [List.foldl_append]
    exact ih.step range

/-- What is shown as loaded is spanned by segments that wait for no chunk. -/
theorem spans_loadedRanges (m : MergedRanges) :
    ∀ shown ∈ m.loadedRanges, Spans m.startTime m.ranges shown := by
  obtain ⟨hloaded, first, -, hu, hpending⟩ := scanned_foldl m.startTime m.ranges
  intro shown hs
  rw [loadedRanges] at hs
  generalize m.ranges.foldl loadedRangesStep ([], none, m.startTime) = acc at hs hloaded hpending
  obtain ⟨loaded, inProgress, lastEnd⟩ := acc
  rcases List.mem_append.mp hs with hs | hs
  · exact hloaded shown hs
  · obtain rfl := Option.mem_toList.mp hs
    exact spans_of_pending hu hpending.1 hpending.2.1 hpending.2.2

/-- What is shown as loaded is spanned by segments whose chunks of interest are all loaded. -/
def ShowsLoaded (m : MergedRanges) (paths : ComponentPaths) (isUnloaded : ChunkId → Bool) : Prop :=
  ∀ shown ∈ m.loadedRanges, ∃ first last, first ≤ last ∧
    shown.min = startOf m.startTime m.ranges first ∧
    (∃ range, m.ranges[last]? = some range ∧ shown.max = range.endTime) ∧
    ∀ idx, first ≤ idx → idx ≤ last → ∀ chunk ∈ m.coveringChunks paths idx,
      isUnloaded chunk = false

theorem Counts.showsLoaded (h : m.Counts paths isUnloaded) : m.ShowsLoaded paths isUnloaded := by
  intro shown hs
  obtain ⟨first, last, hle, hmin, ⟨range, hr, hmax⟩, hall⟩ := m.spans_loadedRanges shown hs
  refine ⟨first, last, hle, hmin, ⟨range, hr, hmax⟩, fun idx hf hlast chunk hc => ?_⟩
  obtain ⟨r, hget⟩ : ∃ r, m.ranges[idx]? = some r :=
    ⟨_, List.getElem?_eq_getElem
      (Nat.lt_of_le_of_lt hlast (List.getElem?_eq_some_iff.mp hr).1)⟩
  have hcount := h idx r hget
  rw [if_neg (List.ne_nil_of_mem hc)] at hcount
  rw [Bool.eq_false_iff]
  intro hunloaded
  obtain ⟨n, hn⟩ := Nat.exists_eq_succ_of_ne_zero
    (List.countP_pos_iff.mpr ⟨chunk, hc, hunloaded⟩).ne'
  exact hall idx r hf hlast hget n (hcount.trans (congrArg some hn))

end MergedRanges

end DimosViewer
