import DimosViewer.EntityDb.LoadedRuns
import DimosViewer.EntityDb.Segmentation

/-!
# The times that are shown as loaded

The segments of the loaded ranges come from the time ranges of the manifest, and a chunk
has all segments from the first to the last that depend on it. So what is shown as loaded
overlaps no range of a chunk that still has to be loaded.
-/

namespace DimosViewer

open Grouping (group_eq_filter)
open Reach (Reachable)
open Std (TreeMap)

-- ---------------------------------------------------------------------------
-- Merging
-- ---------------------------------------------------------------------------

namespace Ranges

def Dependent (ranges : List TimeRange) : Prop := ∀ r ∈ ranges, r.dependsOn.Nonempty

theorem dependent_delayed {last range : TimeRange} (hlast : last.dependsOn.Nonempty)
    (hrange : range.dependsOn.Nonempty) : Dependent (delayed last range) := by
  intro r hr
  rw [delayed] at hr
  split at hr
  · exact List.mem_singleton.mp hr ▸ hrange
  · split at hr
    · exact List.mem_singleton.mp hr ▸ hlast
    · exact absurd hr List.not_mem_nil

theorem dependent_push {ranges : Ranges} (h : Dependent (ranges.new ++ ranges.incoming))
    (hrange : range.dependsOn.Nonempty) :
    Dependent ((ranges.push range).new ++ (ranges.push range).incoming) := by
  obtain ⟨new, incoming⟩ := ranges
  rw [Dependent, List.forall_mem_append] at h ⊢
  obtain ⟨hnew, hincoming⟩ := h
  cases new with
  | nil => exact ⟨List.forall_mem_singleton.mpr hrange, hincoming⟩
  | cons last before =>
    obtain ⟨hlast, hbefore⟩ := List.forall_mem_cons.mp hnew
    have hdelayed := List.forall_mem_append.mpr ⟨dependent_delayed hlast hrange, hincoming⟩
    rw [push]
    dsimp only
    split
    · exact ⟨List.forall_mem_cons.mpr ⟨hlast, hbefore⟩, hincoming⟩
    · split
      · exact ⟨List.forall_mem_cons.mpr ⟨hrange, List.forall_mem_cons.mpr ⟨hlast, hbefore⟩⟩,
          hincoming⟩
      · split
        · exact ⟨List.forall_mem_cons.mpr ⟨hlast.mono Finset.subset_union_left, hbefore⟩, hdelayed⟩
        · exact ⟨List.forall_mem_cons.mpr ⟨hlast.mono Finset.subset_union_left,
            List.forall_mem_cons.mpr ⟨hlast, hbefore⟩⟩, hdelayed⟩

theorem Merged.dependent (hm : Merged ranges segments)
    (h : Dependent (ranges.new ++ ranges.incoming)) : Dependent segments := by
  induction hm with
  | done segments => exact fun r hr => h r (List.mem_append_left _ (List.mem_reverse.mp hr))
  | step hs _ ih =>
    obtain ⟨hperm, -⟩ := hs
    rename_i heap rest range
    obtain ⟨hnew, hheap⟩ := List.forall_mem_append.mp h
    have hrest := List.forall_mem_cons.mp fun r hr => hheap r (hperm.mem_iff.mpr hr)
    exact ih (dependent_push (List.forall_mem_append.mpr ⟨hnew, hrest.2⟩) hrest.1)

variable {inputs : List TimeRange}

theorem segmentation_mergeRanges (hvalid : ∀ r ∈ inputs, r.range.min ≤ r.range.max)
    (hchunks : Dependent inputs) : Segmentation inputs (mergeRanges inputs) :=
  Progress.segmentation hvalid hchunks (merged_mergeIn (mergeRanges_done hvalid))
    (.inl ⟨rfl, .refl _⟩)

theorem dependent_mergeRanges (hvalid : ∀ r ∈ inputs, r.range.min ≤ r.range.max)
    (hchunks : Dependent inputs) : Dependent (mergeRanges inputs) :=
  (merged_mergeIn (mergeRanges_done hvalid)).dependent hchunks

end Ranges

theorem pairwise_of_gapless {segments : List TimeRange}
    (hordered : ∀ seg ∈ segments, seg.range.min ≤ seg.range.max)
    (hgapless : segments.IsChain fun seg next => seg.range.max = next.range.min) :
    segments.Pairwise fun seg later => seg.range.max ≤ later.range.min := by
  induction segments with
  | nil => exact .nil
  | cons seg rest ih =>
    have hrest := (List.forall_mem_cons.mp hordered).2
    have hpairwise := ih hrest hgapless.tail
    refine List.pairwise_cons.mpr ⟨fun later hlater => ?_, hpairwise⟩
    cases rest with
    | nil => exact absurd hlater List.not_mem_nil
    | cons next rest =>
      have hnext : seg.range.max ≤ next.range.min := (List.isChain_cons_cons.mp hgapless).1.le
      obtain rfl | hlater := List.mem_cons.mp hlater
      · exact hnext
      · have hlast := (List.pairwise_cons.mp hpairwise).1 later hlater
        exact hnext.trans ((hrest next List.mem_cons_self).trans hlast)

namespace Segmentation

variable {inputs segments : List TimeRange} {seg later : TimeRange} {i j : Nat}

theorem max_le_min (h : Segmentation inputs segments) (hseg : segments[i]? = some seg)
    (hlater : segments[j]? = some later) (hij : i < j) : seg.range.max ≤ later.range.min := by
  obtain ⟨hi, rfl⟩ := List.getElem?_eq_some_iff.mp hseg
  obtain ⟨hj, rfl⟩ := List.getElem?_eq_some_iff.mp hlater
  exact List.pairwise_iff_getElem.mp (pairwise_of_gapless h.ordered h.gapless) i j hi hj hij

theorem max_le_max (h : Segmentation inputs segments) (hseg : segments[i]? = some seg)
    (hlater : segments[j]? = some later) (hij : i ≤ j) : seg.range.max ≤ later.range.max := by
  obtain rfl | hlt := hij.eq_or_lt
  · exact (congrArg (·.range.max) (Option.some.inj (hseg.symm.trans hlater))).le
  · exact (h.max_le_min hseg hlater hlt).trans (h.ordered later (List.mem_of_getElem? hlater))

end Segmentation

-- ---------------------------------------------------------------------------
-- The last segment
-- ---------------------------------------------------------------------------

section ExtendLast

open RrdManifestIndex (extendLast)

variable {segments : List TimeRange} {max : TimeInt}

theorem forall_extendLast {p : TimeRange → Prop} (h : ∀ seg ∈ segments, p seg)
    (hlast : ∀ seg ∈ segments.getLast?, p { seg with range.max := max }) :
    ∀ seg ∈ extendLast max segments, p seg := by
  fun_induction extendLast max segments with
  | case1 => exact h
  | case2 last => exact List.forall_mem_singleton.mpr (hlast last rfl)
  | case3 range rest hne ih =>
    obtain ⟨hrange, hrest⟩ := List.forall_mem_cons.mp h
    refine List.forall_mem_cons.mpr ⟨hrange, ih hrest fun seg hseg => hlast seg ?_⟩
    rwa [List.getLast?_cons_of_ne_nil hne]

theorem exists_extendLast (hlast : ∀ seg ∈ segments.getLast?, seg.range.max ≤ max)
    (hseg : seg ∈ segments) : ∃ ext ∈ extendLast max segments, ext.range.min = seg.range.min ∧
      seg.range.max ≤ ext.range.max ∧ ext.dependsOn = seg.dependsOn := by
  fun_induction extendLast max segments with
  | case1 => exact absurd hseg List.not_mem_nil
  | case2 last =>
    obtain rfl := List.mem_singleton.mp hseg
    exact ⟨_, List.mem_cons_self, rfl, hlast seg rfl, rfl⟩
  | case3 range rest hne ih =>
    obtain rfl | hseg := List.mem_cons.mp hseg
    · exact ⟨seg, List.mem_cons_self, rfl, le_rfl, rfl⟩
    · obtain ⟨ext, hext, hsame⟩ := ih (fun seg hseg => hlast seg (by
        rwa [List.getLast?_cons_of_ne_nil hne])) hseg
      exact ⟨ext, List.mem_cons_of_mem _ hext, hsame⟩

end ExtendLast

-- ---------------------------------------------------------------------------
-- The segments of a chunk
-- ---------------------------------------------------------------------------

namespace MergedRanges

variable {m m' : MergedRanges} {segments : List TimeRange}

def Spanned (spans : TreeMap ChunkId (Nat × Nat)) (segments : List TimeRange) : Prop :=
  ∀ (idx : Nat) (seg : TimeRange), segments[idx]? = some seg → ∀ chunk ∈ seg.dependsOn,
    ∃ span : Nat × Nat, spans[chunk]? = some span ∧ span.1 ≤ idx ∧ idx ≤ span.2

/-- The segments of the account are those of a list. -/
structure Follows (m : MergedRanges) (segments : List TimeRange) : Prop where
  ends : m.ranges.map (·.endTime) = segments.map (·.range.max)
  spanned : Spanned m.rangesFromChunk segments

theorem Follows.congr (h : m.Follows segments)
    (hends : m'.ranges.map (·.endTime) = m.ranges.map (·.endTime))
    (hspans : m'.rangesFromChunk = m.rangesFromChunk) : m'.Follows segments :=
  ⟨hends.trans h.ends, hspans ▸ h.spanned⟩

theorem map_endTime_modifyCounts (span : Nat × Nat) (f : Option Nat → Option Nat)
    (ranges : List ResolvedRange) :
    (modifyCounts span f ranges).map (·.endTime) = ranges.map (·.endTime) := by
  refine List.ext_getElem? fun idx => ?_
  rw [List.getElem?_map, List.getElem?_map, getElem?_modifyCounts, Option.map_map]
  congr 1
  funext range
  dsimp only [Function.comp_apply]
  split <;> rfl

theorem map_endTime_foldl_modifyCounts (f : ChunkId → Option Nat → Option Nat)
    (entries : List (ChunkId × Nat × Nat)) (ranges : List ResolvedRange) :
    (entries.foldl (fun ranges (chunk, span) => modifyCounts span (f chunk) ranges) ranges).map
      (·.endTime) = ranges.map (·.endTime) := by
  induction entries generalizing ranges with
  | nil => rfl
  | cons entry rest ih => rw [List.foldl_cons, ih, map_endTime_modifyCounts]

theorem Follows.updateComponentsOfInterest (h : m.Follows segments)
    (interest : Finset ComponentPathKey) (paths : ComponentPaths) (isUnloaded : ChunkId → Bool) :
    (m.updateComponentsOfInterest interest paths isUnloaded).Follows segments := by
  rw [MergedRanges.updateComponentsOfInterest]
  split
  · exact h
  · refine h.congr ?_ rfl
    refine (map_endTime_foldl_modifyCounts (fun chunk count =>
      some (count.getD 0 + if isUnloaded chunk then 1 else 0)) _ _).trans ?_
    exact List.map_map

theorem Follows.onChunkLoaded (h : m.Follows segments) (chunk : ChunkId) (paths : ComponentPaths) :
    (m.onChunkLoaded chunk paths).Follows segments := by
  rw [MergedRanges.onChunkLoaded]
  split
  · split
    · exact h
    · exact h.congr (map_endTime_modifyCounts _ _ _) rfl
  · exact h

theorem Follows.onChunkUnloaded (h : m.Follows segments) (chunk : ChunkId)
    (paths : ComponentPaths) : (m.onChunkUnloaded chunk paths).Follows segments := by
  rw [MergedRanges.onChunkUnloaded]
  split
  · split
    · exact h
    · exact h.congr (map_endTime_modifyCounts _ _ _) rfl
  · exact h

theorem getElem?_foldl_alter {f : Option (Nat × Nat) → Option (Nat × Nat)}
    (hf : ∀ span, f (f span) = f span) (chunks : List ChunkId)
    (spans : TreeMap ChunkId (Nat × Nat)) (chunk : ChunkId) :
    (chunks.foldl (fun spans chunk => spans.alter chunk f) spans)[chunk]? =
      if chunk ∈ chunks then f spans[chunk]? else spans[chunk]? := by
  induction chunks generalizing spans with
  | nil => rfl
  | cons c rest ih =>
    rw [List.foldl_cons, ih, TreeMap.getElem?_alter, OrdMap.compare_eq_ite]
    by_cases hc : c = chunk
    · subst hc
      rw [if_pos rfl, if_pos List.mem_cons_self, hf, ite_self]
    · rw [if_neg hc]
      simp only [List.mem_cons, Ne.symm hc, false_or]

theorem getElem?_indexRange (spans : TreeMap ChunkId (Nat × Nat)) (idx : Nat) (range : TimeRange)
    (chunk : ChunkId) : (indexRange spans idx range)[chunk]? =
      if chunk ∈ range.dependsOn then some ((spans[chunk]?).elim idx Prod.fst, idx)
      else spans[chunk]? := by
  refine (getElem?_foldl_alter (by rintro (_ | span) <;> rfl) _ spans chunk).trans ?_
  simp only [Finset.mem_sort]
  rcases spans[chunk]? with _ | span <;> rfl

structure Indexed (spans : TreeMap ChunkId (Nat × Nat)) (segments : List TimeRange) : Prop where
  bounded : ∀ (chunk : ChunkId) (span : Nat × Nat), spans[chunk]? = some span →
    span.1 ≤ segments.length
  spanned : Spanned spans segments

theorem Indexed.indexRange {spans : TreeMap ChunkId (Nat × Nat)} (h : Indexed spans segments)
    (range : TimeRange) :
    Indexed (MergedRanges.indexRange spans segments.length range) (segments ++ [range]) := by
  have hfirst (chunk : ChunkId) : (spans[chunk]?).elim segments.length Prod.fst ≤ segments.length := by
    cases hs : spans[chunk]? with
    | none => exact le_rfl
    | some span => exact h.bounded chunk span hs
  refine ⟨fun chunk span hs => ?_, fun idx seg hseg chunk hchunk => ?_⟩
  · rw [getElem?_indexRange] at hs
    rw [List.length_append]
    split at hs
    · cases hs
      exact Nat.le_add_right_of_le (hfirst chunk)
    · exact Nat.le_add_right_of_le (h.bounded chunk span hs)
  · rw [getElem?_indexRange]
    rw [List.getElem?_append] at hseg
    split at hseg
    case isTrue hlt =>
      obtain ⟨span, hs, hle, hge⟩ := h.spanned idx seg hseg chunk hchunk
      split
      · exact ⟨_, rfl, hs ▸ hle, hlt.le⟩
      · exact ⟨span, hs, hle, hge⟩
    case isFalse hge =>
      obtain rfl := List.mem_singleton.mp (List.mem_of_getElem? hseg)
      have hidx : idx - segments.length < 1 := (List.getElem?_eq_some_iff.mp hseg).1
      rw [if_pos hchunk]
      exact ⟨_, rfl, (hfirst chunk).trans (not_lt.mp hge), by dsimp only; omega⟩

theorem indexed_foldl (segments : List TimeRange) :
    Indexed (segments.zipIdx.foldl (fun spans (range, idx) =>
      MergedRanges.indexRange spans idx range) ∅) segments := by
  induction segments using List.reverseRecOn with
  | nil => exact ⟨fun chunk span hs => (by simp at hs), fun idx seg hseg => (by simp at hseg)⟩
  | append_singleton segments range ih =>
    rw [List.zipIdx_append, List.foldl_append, Nat.zero_add]
    exact ih.indexRange range

theorem follows_new (segments : List TimeRange) (interest : Finset ComponentPathKey)
    (paths : ComponentPaths) (isUnloaded : ChunkId → Bool) :
    (MergedRanges.new segments interest paths isUnloaded).Follows segments := by
  refine Follows.updateComponentsOfInterest ⟨List.map_map, ?_⟩ interest paths isUnloaded
  exact (indexed_foldl segments).spanned

variable {inputs : List TimeRange} {seg : TimeRange} {resolved : ResolvedRange} {idx first : Nat}

theorem Follows.endTime_eq (h : m.Follows segments) (hr : m.ranges[idx]? = some resolved) :
    ∃ seg, segments[idx]? = some seg ∧ resolved.endTime = seg.range.max := by
  have hends : (m.ranges.map (·.endTime))[idx]? = (segments.map (·.range.max))[idx]? := by
    rw [h.ends]
  rw [List.getElem?_map, List.getElem?_map, hr] at hends
  obtain ⟨seg, hseg, heq⟩ := Option.map_eq_some_iff.mp hends.symm
  exact ⟨seg, hseg, heq.symm⟩

theorem Follows.max_le_startOf (h : m.Follows segments) (hs : Segmentation inputs segments)
    (hseg : segments[idx]? = some seg) (hlt : idx < first) (hfirst : first < m.ranges.length) :
    seg.range.max ≤ startOf m.startTime m.ranges first := by
  obtain ⟨before, rfl⟩ := Nat.exists_eq_succ_of_ne_zero (Nat.ne_zero_of_lt hlt)
  obtain ⟨resolved, hr⟩ : ∃ resolved, m.ranges[before]? = some resolved :=
    ⟨_, List.getElem?_eq_getElem (by omega)⟩
  obtain ⟨last, hlast, hend⟩ := h.endTime_eq hr
  rw [startOf, hr, Option.elim_some, hend]
  exact hs.max_le_max hseg hlast (Nat.le_of_lt_succ hlt)

/-- What is shown as loaded overlaps no range of a chunk that still has to be loaded: the chunk has
all segments between those at the two ends of its range. -/
theorem ShowsLoaded.apart {paths : ComponentPaths} {isUnloaded : ChunkId → Bool}
    (h : m.ShowsLoaded paths isUnloaded) (hf : m.Follows segments)
    (hs : Segmentation inputs segments) {range : AbsoluteTimeRange} (hrange : range.min ≤ range.max)
    (hcovered : ∀ t, range.contains t →
      ∃ seg ∈ segments, seg.range.contains t ∧ chunk ∈ seg.dependsOn)
    (hi : m.isChunkInteresting paths chunk = true) (hunloaded : isUnloaded chunk = true)
    (hshown : shown ∈ m.loadedRanges) : range.max ≤ shown.min ∨ shown.max ≤ range.min := by
  by_contra hoverlap
  rw [not_or, not_le, not_le] at hoverlap
  obtain ⟨hmin, hmax⟩ := hoverlap
  obtain ⟨first, last, hle, hstart, ⟨resolved, hresolved, hstop⟩, hloaded⟩ := h shown hshown
  obtain ⟨final, hfinal, hend⟩ := hf.endTime_eq hresolved
  have hlength := (List.getElem?_eq_some_iff.mp hresolved).1
  have hat (t : TimeInt) (ht : range.contains t) : ∃ (idx : Nat) (seg : TimeRange),
      segments[idx]? = some seg ∧ seg.range.min ≤ t ∧ t ≤ seg.range.max ∧
        ∃ span : Nat × Nat, m.rangesFromChunk[chunk]? = some span ∧ span.1 ≤ idx ∧ idx ≤ span.2 := by
    obtain ⟨seg, hseg, hin, hchunk⟩ := hcovered t ht
    obtain ⟨idx, hidx⟩ := List.getElem?_of_mem hseg
    obtain ⟨hge, hle⟩ := AbsoluteTimeRange.contains_iff.mp hin
    exact ⟨idx, seg, hidx, hge, hle, hf.spanned idx seg hidx chunk hchunk⟩
  obtain ⟨i, head, hhead, hfrom, -, span, hspan, hi₁, hi₂⟩ :=
    hat range.min (AbsoluteTimeRange.contains_iff.mpr ⟨le_rfl, hrange⟩)
  obtain ⟨j, tail, htail, -, hto, span', hspan', hj₁, hj₂⟩ :=
    hat range.max (AbsoluteTimeRange.contains_iff.mpr ⟨hrange, le_rfl⟩)
  obtain rfl := Option.some.inj (hspan.symm.trans hspan')
  -- The range starts before the last segment that is shown ends, and ends after the first starts.
  have hlast : i ≤ last := not_lt.mp fun hlt =>
    absurd ((hs.max_le_min hfinal hhead hlt).trans hfrom) (not_le.mpr (hend ▸ hstop ▸ hmax))
  have hfirst : first ≤ j := not_lt.mp fun hlt =>
    absurd (hto.trans (hf.max_le_startOf hs htail hlt (by omega))) (not_le.mpr (hstart ▸ hmin))
  have hcounted := hloaded (max i first) (le_max_right _ _) (max_le hlast hle) chunk
    (mem_coveringChunks.mpr ⟨hi, span, hspan, by omega, by omega⟩)
  rw [hunloaded] at hcounted
  cases hcounted

end MergedRanges

-- ---------------------------------------------------------------------------
-- The segments of a timeline
-- ---------------------------------------------------------------------------

namespace RrdManifestIndex

variable {index : RrdManifestIndex} {timeline : TimelineName}

def rangeOf (entry : EntityPath × Timeline × ComponentIdentifier × ChunkId ×
    RrdManifestTemporalMapEntry) : AbsoluteTimeRange := entry.2.2.2.2.timeRange

def Ordered (index : RrdManifestIndex) (timeline : TimelineName) : Prop :=
  ∀ entry ∈ index.manifest, entry.2.1.name = timeline →
    (rangeOf entry).min ≤ (rangeOf entry).max

def Bounded (index : RrdManifestIndex) : Prop :=
  ∀ entry ∈ index.manifest, (rangeOf entry).min ≤ (rangeOf entry).max →
    (rangeOf entry).max ≤ (index.timelines.getD entry.2.1.name .EMPTY).max

def HasRange (index : RrdManifestIndex) (timeline : TimelineName) (chunk : ChunkId)
    (range : AbsoluteTimeRange) : Prop :=
  ∃ chunks ∈ index.componentChunksOnTimeline timeline, .ofChunk chunk range ∈ chunks

/-- The segments of all components, the last of each up to the end of the timeline. -/
def componentSegments (index : RrdManifestIndex) (timeline : TimelineName) : List TimeRange :=
  (index.componentChunksOnTimeline timeline).flatMap fun chunks =>
    extendLast (index.timelines.getD timeline .EMPTY).max (mergeRanges chunks)

def segments (index : RrdManifestIndex) (timeline : TimelineName) : List TimeRange :=
  mergeRanges (index.componentSegments timeline)

theorem mem_componentChunksOnTimeline (h : chunks ∈ index.componentChunksOnTimeline timeline)
    (hr : r ∈ chunks) : ∃ entry ∈ index.manifest, entry.2.1.name = timeline ∧
      r.range = rangeOf entry ∧ r.dependsOn = {entry.2.2.2.1} := by
  rw [componentChunksOnTimeline, List.mem_map] at h
  obtain ⟨⟨key, group⟩, hgroup, rfl⟩ := h
  obtain ⟨⟨chunk, same⟩, hsame, hhead⟩ := List.mem_filterMap.mp hr
  obtain ⟨entry, hentry, rfl⟩ := Option.map_eq_some_iff.mp hhead
  have hmem := List.mem_of_mem_head? hentry
  rw [group_eq_filter hsame, group_eq_filter hgroup] at hmem
  simp only [List.mem_filter, decide_eq_true_eq] at hmem
  obtain ⟨⟨⟨hmanifest, hname⟩, -⟩, hchunk⟩ := hmem
  exact ⟨entry, hmanifest, hname, rfl, congrArg singleton hchunk.symm⟩

section Ordered

variable (ho : index.Ordered timeline) (hb : index.Bounded)

include ho

theorem ordered_chunks (h : chunks ∈ index.componentChunksOnTimeline timeline) :
    (∀ r ∈ chunks, r.range.min ≤ r.range.max) ∧ Ranges.Dependent chunks := by
  refine ⟨fun r hr => ?_, fun r hr => ?_⟩
  · obtain ⟨entry, hentry, hname, hrange, -⟩ := mem_componentChunksOnTimeline h hr
    exact hrange ▸ ho entry hentry hname
  · obtain ⟨entry, -, -, -, hchunk⟩ := mem_componentChunksOnTimeline h hr
    exact hchunk ▸ Finset.singleton_nonempty _

theorem segmentation_chunks (h : chunks ∈ index.componentChunksOnTimeline timeline) :
    Segmentation chunks (mergeRanges chunks) :=
  Ranges.segmentation_mergeRanges (ordered_chunks ho h).1 (ordered_chunks ho h).2

include hb

theorem last_le (h : chunks ∈ index.componentChunksOnTimeline timeline) :
    ∀ seg ∈ (mergeRanges chunks).getLast?,
      seg.range.max ≤ (index.timelines.getD timeline .EMPTY).max := by
  intro seg hseg
  obtain ⟨r, hr, hmax⟩ := ((segmentation_chunks ho h).last seg hseg).1
  obtain ⟨entry, hentry, hname, hrange, -⟩ := mem_componentChunksOnTimeline h hr
  rw [← hmax, hrange, ← hname]
  exact hb entry hentry (ho entry hentry hname)

theorem ordered_componentSegments :
    (∀ r ∈ index.componentSegments timeline, r.range.min ≤ r.range.max) ∧
      Ranges.Dependent (index.componentSegments timeline) := by
  refine forall₂_and.mp fun r hr => ?_
  obtain ⟨chunks, hchunks, hr⟩ := List.mem_flatMap.mp hr
  have hs := segmentation_chunks ho hchunks
  have hd := Ranges.dependent_mergeRanges (ordered_chunks ho hchunks).1 (ordered_chunks ho hchunks).2
  refine forall_extendLast (p := fun seg => seg.range.min ≤ seg.range.max ∧ seg.dependsOn.Nonempty)
    (fun seg hseg => ⟨hs.ordered seg hseg, hd seg hseg⟩) (fun seg hseg => ?_) r hr
  have hmem := List.mem_of_getLast? hseg
  exact ⟨(hs.ordered seg hmem).trans (last_le ho hb hchunks seg hseg), hd seg hmem⟩

theorem segmentation_segments :
    Segmentation (index.componentSegments timeline) (index.segments timeline) :=
  Ranges.segmentation_mergeRanges (ordered_componentSegments ho hb).1
    (ordered_componentSegments ho hb).2

theorem covered_of_hasRange (h : index.HasRange timeline chunk range) (ht : range.contains t) :
    ∃ seg ∈ index.segments timeline, seg.range.contains t ∧ chunk ∈ seg.dependsOn := by
  obtain ⟨chunks, hchunks, hr⟩ := h
  obtain ⟨seg, hseg, hin, hchunk⟩ := (segmentation_chunks ho hchunks).shown _ hr t ht chunk
    (Finset.mem_singleton_self chunk)
  obtain ⟨ext, hext, hmin, hmax, hsame⟩ := exists_extendLast (last_le ho hb hchunks) hseg
  obtain ⟨hge, hle⟩ := AbsoluteTimeRange.contains_iff.mp hin
  exact (segmentation_segments ho hb).shown ext (List.mem_flatMap.mpr ⟨chunks, hchunks, hext⟩) t
    (AbsoluteTimeRange.contains_iff.mpr ⟨hmin ▸ hge, hle.trans hmax⟩) chunk (hsame ▸ hchunk)

end Ordered

-- ---------------------------------------------------------------------------
-- Bounds of the timelines
-- ---------------------------------------------------------------------------

theorem updateTimelineStats_step (timelines : TreeMap TimelineName AbsoluteTimeRange)
    (name : TimelineName) (range : AbsoluteTimeRange) :
    let union := (timelines.getD name .EMPTY).union range
    let timelines' := if union = .EMPTY then timelines else timelines.insert name union
    (∀ other, (timelines.getD other .EMPTY).max ≤ (timelines'.getD other .EMPTY).max) ∧
      (range.min ≤ range.max → range.max ≤ (timelines'.getD name .EMPTY).max) := by
  dsimp only
  split
  case isTrue he =>
    refine ⟨fun _ => le_rfl, fun hle => ?_⟩
    -- Only an empty range leaves an empty timeline empty.
    have hmin : TimeInt.MAX ≤ range.min := (congrArg (·.min) he).ge.trans (min_le_right _ _)
    have hmax : range.max ≤ TimeInt.MIN := (le_max_right _ _).trans (congrArg (·.max) he).le
    exact absurd ((hmin.trans hle).trans hmax) (by decide)
  case isFalse =>
    refine ⟨fun other => ?_, fun _ => ?_⟩
    · rw [OrdMap.getD_insert]
      split
      case isTrue he => exact he ▸ le_max_left _ _
      case isFalse => exact le_rfl
    · rw [OrdMap.getD_insert, if_pos rfl]
      exact le_max_right _ _

theorem updateTimelineStats_max (timelines : TreeMap TimelineName AbsoluteTimeRange)
    (delta : RrdManifestDelta) :
    (∀ other, (timelines.getD other .EMPTY).max ≤
      ((updateTimelineStats timelines delta).getD other .EMPTY).max) ∧
    ∀ entry ∈ delta.temporalMap, (rangeOf entry).min ≤ (rangeOf entry).max →
      (rangeOf entry).max ≤ ((updateTimelineStats timelines delta).getD entry.2.1.name .EMPTY).max := by
  rw [updateTimelineStats]
  generalize delta.temporalMap = entries
  induction entries generalizing timelines with
  | nil => exact ⟨fun _ => le_rfl, fun _ he => absurd he List.not_mem_nil⟩
  | cons entry rest ih =>
    obtain ⟨hold, hnew⟩ := updateTimelineStats_step timelines entry.2.1.name (rangeOf entry)
    obtain ⟨hmono, hrest⟩ := ih _
    refine ⟨fun other => (hold other).trans (hmono other), List.forall_mem_cons.mpr
      ⟨fun hle => (hnew hle).trans (hmono _), hrest⟩⟩

theorem Bounded.append (h : index.Bounded) (delta : RrdManifestDelta) :
    (index.append delta).Bounded := by
  obtain ⟨hmono, hnew⟩ := updateTimelineStats_max index.timelines delta
  intro entry hentry hle
  obtain hold | hdelta := List.mem_append.mp hentry
  · exact (h entry hold hle).trans (hmono _)
  · exact hnew entry hdelta hle

-- ---------------------------------------------------------------------------
-- Runs
-- ---------------------------------------------------------------------------

def Current (index : RrdManifestIndex) : Prop :=
  index.Bounded ∧ ∀ loaded, index.loadedRanges = some loaded →
    loaded.ranges.Follows (index.segments loaded.timeline)

theorem Current.setState (h : index.Current) (chunk : ChunkId) (state : LoadState) :
    (index.setState chunk state).Current := h

theorem Current.foldl_setState (h : index.Current) (chunks : List ChunkId) (state : LoadState) :
    (chunks.foldl (fun index c => index.setState c state) index).Current := by
  induction chunks generalizing index with
  | nil => exact h
  | cons chunk rest ih => exact ih (h.setState chunk state)

theorem Current.markRootAs (h : index.Current) (newState : LoadState) (chunk : ChunkId) :
    (RrdManifestIndex.markRootAs newState index chunk).Current := by
  rw [RrdManifestIndex.markRootAs]
  split
  case h_1 => exact h
  case h_2 info _ =>
    refine ⟨h.1, fun loaded' hl => ?_⟩
    obtain ⟨loaded, hold, rfl⟩ := Option.map_eq_some_iff.mp hl
    have hfollows := h.2 loaded hold
    split
    case isTrue => exact hfollows
    case isFalse =>
      cases newState with
      | unloaded => exact hfollows.onChunkUnloaded chunk _
      | inTransit => exact hfollows
      | fullyLoaded => exact hfollows.onChunkLoaded chunk _

theorem Current.markRootsAs (h : index.Current) (newState : LoadState) (roots : List ChunkId) :
    (roots.foldl (RrdManifestIndex.markRootAs newState) index).Current := by
  induction roots generalizing index with
  | nil => exact h
  | cons root rest ih => exact ih (h.markRootAs newState root)

theorem Current.updateLoadedRanges (h : index.Current) (timeline : TimelineName) :
    (index.updateLoadedRanges timeline).Current := by
  rw [RrdManifestIndex.updateLoadedRanges]
  split
  case h_1 loaded hl =>
    refine ⟨h.1, fun loaded' hl' => ?_⟩
    obtain rfl := Option.some.inj hl'
    exact (h.2 loaded (Option.filter_eq_some_iff.mp hl).1).updateComponentsOfInterest _ _ _
  case h_2 =>
    split
    case h_1 => exact h
    case h_2 range hrange =>
      refine ⟨h.1, fun loaded hl => ?_⟩
      obtain rfl := Option.some.inj hl
      have hd : index.timelines.getD timeline .EMPTY = range := by
        rw [TreeMap.getD_eq_getD_getElem?, hrange, Option.getD_some]
      exact hd ▸ MergedRanges.follows_new (index.segments timeline) _ _ _

theorem Current.act (h : index.Current) (action : Action) : (index.act action).Current := by
  cases action with
  | append delta => exact ⟨h.1.append delta, fun loaded (hl : none = some loaded) => nomatch hl⟩
  | setComponentsOfInterest interest => exact h
  | handleFetchResult chunks timeline =>
    have hset := h.foldl_setState chunks .inTransit
    cases timeline with
    | none => exact hset
    | some timeline => exact hset.updateLoadedRanges timeline
  | cancelOutdatedRequests cancelled =>
    rw [RrdManifestIndex.act, RrdManifestIndex.cancelOutdatedRequests]
    split
    · exact h.foldl_setState cancelled .unloaded
    · exact h
  | onEvent store event =>
    rw [RrdManifestIndex.act, onEvents]
    split
    · cases event with
      | addition add => exact h.markRootsAs .fullyLoaded _
      | virtualAddition manifest => exact h
      | deletion del => exact h.markRootsAs .unloaded _
    · exact h

theorem current_of_reached (h : Reached ok index) : index.Current :=
  h.invariant ⟨fun _ he => absurd he List.not_mem_nil, fun loaded (hl : none = some loaded) =>
    nomatch hl⟩ fun _ action hs _ => hs.act action

/-- What is shown as loaded at most touches the time ranges of a chunk of interest that still has
to be loaded. -/
def ShownLoaded (index : RrdManifestIndex) (loaded : LoadedRanges) : Prop :=
  ∀ shown ∈ loaded.ranges.loadedRanges, ∀ chunk range,
    loaded.ranges.isChunkInteresting index.componentPathsFromRootId chunk = true →
    index.isUnloaded chunk = true → index.HasRange loaded.timeline chunk range →
    range.max ≤ shown.min ∨ shown.max ≤ range.min

theorem Current.shownLoaded (h : index.Current) (hl : index.loadedRanges = some loaded)
    (ho : index.Ordered loaded.timeline)
    (hshows : loaded.ranges.ShowsLoaded index.componentPathsFromRootId index.isUnloaded) :
    index.ShownLoaded loaded := by
  intro shown hshown chunk range hi hunloaded hrange
  obtain ⟨chunks, hchunks, hr⟩ := id hrange
  exact hshows.apart (h.2 loaded hl) (segmentation_segments ho h.1)
    ((ordered_chunks ho hchunks).1 _ hr) (fun _ => covered_of_hasRange ho h.1 hrange) hi hunloaded
    hshown

/-- In a run that is not disturbed, every segment counts the chunks of interest that cover it and
are not fully loaded, and what is shown as loaded at most touches their time ranges. -/
theorem counts_of_reached (h : Reached Undisturbed index) :
    ∀ loaded, index.loadedRanges = some loaded →
      loaded.ranges.Counts index.componentPathsFromRootId index.isUnloaded ∧
        (index.Ordered loaded.timeline → index.ShownLoaded loaded) := fun loaded hl =>
  have hcounts := tracked_of_reached h loaded hl
  ⟨hcounts, fun ho => (current_of_reached h).shownLoaded hl ho hcounts.showsLoaded⟩

-- ---------------------------------------------------------------------------
-- A run on fixed inputs
-- ---------------------------------------------------------------------------

def pointsDelta (points : List (ChunkId × Int)) : RrdManifestDelta where
  staticMap := []
  temporalMap := points.map fun (chunk, time) =>
    (["e"], ⟨"t", .sequence⟩, "c", chunk, ⟨⟨.newTemporal time, .newTemporal time⟩, 1⟩)
  colChunkIds := points.map Prod.fst
  colChunkEntityPath := points.map fun _ => ["e"]

def eventsOf (store : ChunkStore) : List ChunkStore.Op → List Action
  | [] => []
  | op :: rest =>
    let (store, events) := store.apply .plain op
    events.map (.onEvent store) ++ eventsOf store rest

/-- The chunks at 0 and 5 are loaded, the one at 10 is requested in vain, and the first is dropped
again. -/
def pointsRun : List Action :=
  let delta := pointsDelta [(1, 0), (2, 5), (3, 10)]
  let store := ChunkStore.run .plain .COMPACTION_DISABLED [.insertRrdManifest delta.toRrdManifest]
  [.append delta, .setComponentsOfInterest {⟨["e"], "c"⟩}, .handleFetchResult [] (some "t")] ++
    eventsOf store [.insertChunk (.single 1 1 0), .insertChunk (.single 2 2 5),
      .dropTimeRange "t" ⟨.newTemporal 0, .newTemporal 0⟩ true .explicitDrop] ++
    [.handleFetchResult [3] (some "t"), .cancelOutdatedRequests [3]]

instance (index : RrdManifestIndex) (chunk : ChunkId) : Decidable (index.Counted chunk) :=
  match hl : index.loadedRanges with
  | none => .isFalse fun ⟨_, h, _⟩ => nomatch hl.symm.trans h
  | some loaded =>
    if h : loaded.ranges.isChunkInteresting index.componentPathsFromRootId chunk = true ∧
        (loaded.ranges.rangesFromChunk[chunk]?).isSome = true then
      .isTrue ⟨loaded, hl, h.1, Option.isSome_iff_exists.mp h.2⟩
    else
      .isFalse fun ⟨_, hl', hi, segments, hs⟩ => by
        obtain rfl := Option.some.inj (hl.symm.trans hl')
        exact h ⟨hi, Option.isSome_iff_exists.mpr ⟨segments, hs⟩⟩

instance (index : RrdManifestIndex) (action : Action) : Decidable (index.Undisturbed action) := by
  cases action with
  | onEvent store event => cases event <;> unfold Undisturbed <;> infer_instance
  | _ => unfold Undisturbed; infer_instance

theorem counts_of_reached_pointsRun :
    ∃ loaded, (pointsRun.foldl act {}).loadedRanges = some loaded ∧
      loaded.ranges.Counts (pointsRun.foldl act {}).componentPathsFromRootId
          (pointsRun.foldl act {}).isUnloaded ∧
        (pointsRun.foldl act {}).ShownLoaded loaded := by
  obtain ⟨loaded, hl⟩ : ∃ loaded, (pointsRun.foldl act {}).loadedRanges = some loaded :=
    Option.isSome_iff_exists.mp (by decide +kernel)
  obtain ⟨hcounts, hshown⟩ :=
    counts_of_reached (Reachable.foldl .init (by decide +kernel)) loaded hl
  refine ⟨loaded, hl, hcounts, hshown fun entry hentry _ => ?_⟩
  have hall : ∀ entry ∈ (pointsRun.foldl act {}).manifest,
      (rangeOf entry).min ≤ (rangeOf entry).max := by decide +kernel
  exact hall entry hentry

/-- The segment from 5 to 10 depends on the second chunk alone, and the third chunk is not loaded:
the end of what is shown is a time that is missing. -/
theorem pointsRun_shows_missing :
    ∃ index, Reached Undisturbed index ∧ ∃ loaded, index.loadedRanges = some loaded ∧
      ∃ shown ∈ loaded.ranges.loadedRanges, ∃ t chunk range, shown.contains t ∧
        loaded.ranges.isChunkInteresting index.componentPathsFromRootId chunk = true ∧
        index.isUnloaded chunk = true ∧ index.HasRange loaded.timeline chunk range ∧
        range.contains t := by
  let missing : AbsoluteTimeRange := ⟨.newTemporal 10, .newTemporal 10⟩
  have heval : (pointsRun.foldl act {}).loadedRanges.map (fun loaded =>
      (loaded.ranges.loadedRanges, loaded.ranges.isChunkInteresting
          (pointsRun.foldl act {}).componentPathsFromRootId 3, loaded.timeline)) =
        some ([⟨.newTemporal 5, .newTemporal 10⟩], true, "t") := by
    decide +kernel
  have hunloaded : (pointsRun.foldl act {}).isUnloaded 3 = true := by decide +kernel
  have hrange : (pointsRun.foldl act {}).HasRange "t" 3 missing := by
    unfold HasRange
    decide +kernel
  obtain ⟨loaded, hl, he⟩ := Option.map_eq_some_iff.mp heval
  obtain ⟨hshown, hi, htimeline⟩ : _ ∧ _ ∧ _ := by simpa using he
  exact ⟨_, Reachable.foldl .init (by decide +kernel), loaded, hl, ⟨.newTemporal 5, .newTemporal 10⟩,
    hshown ▸ List.mem_cons_self, .newTemporal 10, 3, missing, by decide, hi, hunloaded,
    htimeline ▸ hrange, by decide⟩

end RrdManifestIndex

end DimosViewer
