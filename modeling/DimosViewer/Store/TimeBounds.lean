import DimosViewer.Store.IndexKeys
import DimosViewer.Store.NextTime
import Mathlib.Data.Set.Lattice

/-!
# Time bounds

The first and the last time of an entity, and of all entities, are read from the first
and the last key of an index. They are those of the listed chunks as long as no key lies before
all that is listed, or after it.
-/

namespace DimosViewer

open Std (TreeMap)

namespace ChunkStore

-- ---------------------------------------------------------------------------
-- What the bounds are read from
-- ---------------------------------------------------------------------------

/-- One round of `entity_min_time`. -/
def minWithFirstKey (timeMin : TimeInt) (perTime : ChunkIdSetPerTime) : TimeInt :=
  match perTime.perStartTime.keys.head? with
  | none => timeMin
  | some time => min timeMin time

/-- The time `MAX` stands for nothing found. -/
def entityMinTime (s : ChunkStore) (timeline : TimelineName) (entityPath : EntityPath) :
    Option TimeInt := do
  let perTimeline ← s.temporalChunkIdsPerEntityPerComponent[entityPath]?
  let perComponent ← perTimeline[timeline]?
  let timeMin := perComponent.values.foldl minWithFirstKey TimeInt.MAX
  if timeMin ≠ .MAX then some timeMin else none

def entityTimeRange (s : ChunkStore) (timeline : TimelineName) (entityPath : EntityPath) :
    Option AbsoluteTimeRange := do
  rangeOfKeys (← s.perTimeOfEntity? entityPath timeline)

def IsSpan (starts stops : Set TimeInt) : Option AbsoluteTimeRange → Prop
  | none => starts = ∅ ∧ stops = ∅
  | some range => IsLeast starts range.min ∧ IsGreatest stops range.max

def IsFirst (starts : Set TimeInt) : Option TimeInt → Prop
  | none => starts = ∅
  | some time => IsLeast starts time

def componentStarts (s : ChunkStore) (e : EntityPath) (timeline : TimelineName) : Set TimeInt :=
  ⋃ component, (s.at (.component e timeline component)).starts

/-- The bounds are those of the chunks that are listed, physical or not. -/
structure TimeBoundsExact (s : ChunkStore) : Prop where
  entityTimeRange : ∀ timeline e, IsSpan (s.at (.entity e timeline)).starts
    (s.at (.entity e timeline)).stops (s.entityTimeRange timeline e)
  entityMinTime : ∀ timeline e, IsFirst (s.componentStarts e timeline) (s.entityMinTime timeline e)
  timeRange : ∀ timeline, IsSpan (⋃ e, (s.at (.entity e timeline)).starts)
    (⋃ e, (s.at (.entity e timeline)).stops) (s.timeRange timeline)

-- ---------------------------------------------------------------------------
-- Keys and what is listed under them
-- ---------------------------------------------------------------------------

theorem isLeast_of_listed_le {keys listed : Set TimeInt} (h : IsLeast keys t)
    (hsub : listed ⊆ keys) (hl : ∃ l ∈ listed, l ≤ t) : IsLeast listed t := by
  obtain ⟨l, hl, hle⟩ := hl
  obtain rfl := le_antisymm hle (h.2 (hsub hl))
  exact ⟨hl, fun k hk => h.2 (hsub hk)⟩

theorem isGreatest_of_le_listed {keys listed : Set TimeInt} (h : IsGreatest keys t)
    (hsub : listed ⊆ keys) (hl : ∃ l ∈ listed, t ≤ l) : IsGreatest listed t := by
  obtain ⟨l, hl, hle⟩ := hl
  obtain rfl := le_antisymm (h.2 (hsub hl)) hle
  exact ⟨hl, fun k hk => h.2 (hsub hk)⟩

theorem isLeast_head?_keys {m : TreeMap TimeInt ChunkIdSet} (h : m.keys.head? = some t) :
    IsLeast {k | k ∈ m} t := by
  rw [← TreeMap.minKey?_eq_head?_keys, TreeMap.minKey?_eq_some_iff_mem_and_forall] at h
  exact ⟨h.1, fun k hk => compare_le_iff_le.mp (Ordering.isLE_iff_ne_gt.mp (h.2 k hk))⟩

theorem isGreatest_getLast?_keys {m : TreeMap TimeInt ChunkIdSet}
    (h : m.keys.getLast? = some t) : IsGreatest {k | k ∈ m} t := by
  rw [← TreeMap.maxKey?_eq_getLast?_keys, TreeMap.maxKey?_eq_some_iff_mem_and_forall] at h
  exact ⟨h.1, fun k hk => compare_le_iff_le.mp (Ordering.isLE_iff_ne_gt.mp (h.2 k hk))⟩

theorem setOf_mem_eq_empty {m : TreeMap TimeInt ChunkIdSet} (h : m.keys = []) :
    {k | k ∈ m} = ∅ := by
  refine Set.eq_empty_iff_forall_notMem.mpr fun k hk => ?_
  have hm : k ∈ m.keys := TreeMap.mem_keys.mpr hk
  rw [h] at hm
  cases hm

/-- The keys span what is listed if something is listed at or beyond each of them. -/
theorem isSpan_rangeOfKeys {p : ChunkIdSetPerTime} (h : p.Regular)
    (hs : IsCoinitialFor p.startKeys p.starts) (he : IsCofinalFor p.endKeys p.stops) :
    IsSpan p.starts p.stops (rangeOfKeys p) := by
  have hnone : p.startKeys = ∅ ∨ p.endKeys = ∅ → p.starts = ∅ ∧ p.stops = ∅ := by
    intro hor
    have hboth : p.startKeys = ∅ ∧ p.endKeys = ∅ := by
      rw [← Set.not_nonempty_iff_eq_empty, ← Set.not_nonempty_iff_eq_empty, h.paired, and_self]
      rcases hor with hor | hor
      · rw [← h.paired, hor]
        exact Set.not_nonempty_empty
      · rw [hor]
        exact Set.not_nonempty_empty
    exact ⟨Set.subset_eq_empty p.starts_subset hboth.1, Set.subset_eq_empty p.stops_subset hboth.2⟩
  unfold rangeOfKeys
  cases hstart : p.perStartTime.keys.head? with
  | none => exact hnone (.inl (setOf_mem_eq_empty (List.head?_eq_none_iff.mp hstart)))
  | some start =>
    cases hstop : p.perEndTime.keys.getLast? with
    | none => exact hnone (.inr (setOf_mem_eq_empty (List.getLast?_eq_none_iff.mp hstop)))
    | some stop =>
      have hleast : IsLeast p.startKeys start := isLeast_head?_keys hstart
      have hgreatest : IsGreatest p.endKeys stop := isGreatest_getLast?_keys hstop
      have hmin : start.saturatedTemporal = start := max_eq_left (h.start _ hleast.1)
      have hmax : stop.saturatedTemporal = stop := max_eq_left (h.stop _ hgreatest.1)
      show IsLeast p.starts start.saturatedTemporal ∧ IsGreatest p.stops stop.saturatedTemporal
      rw [hmin, hmax]
      exact ⟨isLeast_of_listed_le hleast p.starts_subset (hs hleast.1),
        isGreatest_of_le_listed hgreatest p.stops_subset (he hgreatest.1)⟩

-- ---------------------------------------------------------------------------
-- All entities
-- ---------------------------------------------------------------------------

theorem IsSpan.union {starts stops starts' stops' : Set TimeInt} {range range' : AbsoluteTimeRange}
    (h : IsSpan starts stops (some range)) (h' : IsSpan starts' stops' (some range')) :
    IsSpan (starts ∪ starts') (stops ∪ stops') (some (range.union range')) :=
  ⟨h.1.union h'.1, h.2.union h'.2⟩

theorem isSpan_foldl_union {ps : List ChunkIdSetPerTime}
    (hp : ∀ p ∈ ps, IsSpan p.starts p.stops (rangeOfKeys p)) {starts stops : Set TimeInt}
    {range : AbsoluteTimeRange} (h : IsSpan starts stops (some range)) :
    IsSpan (starts ∪ ⋃ p ∈ ps, p.starts) (stops ∪ ⋃ p ∈ ps, p.stops)
      (some ((ps.filterMap rangeOfKeys).foldl AbsoluteTimeRange.union range)) := by
  induction ps generalizing starts stops range with
  | nil => simpa using h
  | cons p rest ih =>
    have hone := hp p List.mem_cons_self
    have hrest := fun q hq => hp q (List.mem_cons_of_mem _ hq)
    simp only [List.mem_cons, Set.iUnion_iUnion_eq_or_left, ← Set.union_assoc]
    cases hr : rangeOfKeys p with
    | none =>
      rw [hr] at hone
      rw [hone.1, hone.2, Set.union_empty, Set.union_empty, List.filterMap_cons_none hr]
      exact ih hrest h
    | some range' =>
      rw [hr] at hone
      rw [List.filterMap_cons_some hr, List.foldl_cons]
      exact ih hrest (h.union hone)

theorem isSpan_timeRange_of_perTimes {s : ChunkStore} {timeline : TimelineName}
    (hp : ∀ p ∈ s.perTimesOf timeline, IsSpan p.starts p.stops (rangeOfKeys p)) :
    IsSpan (⋃ p ∈ s.perTimesOf timeline, p.starts) (⋃ p ∈ s.perTimesOf timeline, p.stops)
      (s.timeRange timeline) := by
  unfold timeRange
  revert hp
  generalize s.perTimesOf timeline = ps
  intro hp
  induction ps with
  | nil => exact ⟨by simp, by simp⟩
  | cons p rest ih =>
    have hone := hp p List.mem_cons_self
    have hrest := fun q hq => hp q (List.mem_cons_of_mem _ hq)
    simp only [List.mem_cons, Set.iUnion_iUnion_eq_or_left]
    cases hr : rangeOfKeys p with
    | none =>
      rw [hr] at hone
      rw [hone.1, hone.2, Set.empty_union, Set.empty_union, List.filterMap_cons_none hr]
      exact ih hrest
    | some range =>
      rw [hr] at hone
      rw [List.filterMap_cons_some hr]
      exact isSpan_foldl_union hrest hone

theorem at_entity (s : ChunkStore) (e : EntityPath) (timeline : TimelineName) :
    s.at (.entity e timeline) = (s.perTimeOfEntity? e timeline).getD default := by
  rw [ChunkStore.at, perTimeOfEntity?, TreeMap.getD_eq_getD_getElem?]
  rfl

theorem mem_perTimesOf_iff {s : ChunkStore} {timeline : TimelineName} {p : ChunkIdSetPerTime} :
    p ∈ s.perTimesOf timeline ↔ ∃ e, s.perTimeOfEntity? e timeline = some p := by
  simp only [perTimesOf, List.mem_filterMap, OrdMap.mem_values, perTimeOfEntity?,
    TreeMap.getD_eq_getD_getElem?]
  constructor
  · rintro ⟨perTimeline, ⟨e, he⟩, hp⟩
    exact ⟨e, by rwa [he]⟩
  · rintro ⟨e, hp⟩
    cases he : s.temporalChunkIdsPerEntity[e]? with
    | none => simp [he] at hp
    | some perTimeline => exact ⟨perTimeline, ⟨e, he⟩, by rwa [he] at hp⟩

theorem iUnion_at_entity (f : ChunkIdSetPerTime → Set TimeInt) (hf : f default = ∅)
    (s : ChunkStore) (timeline : TimelineName) :
    ⋃ e, f (s.at (.entity e timeline)) = ⋃ p ∈ s.perTimesOf timeline, f p := by
  ext t
  simp only [Set.mem_iUnion, exists_prop, mem_perTimesOf_iff, at_entity]
  constructor
  · rintro ⟨e, ht⟩
    cases hp : s.perTimeOfEntity? e timeline with
    | none =>
      rw [hp, Option.getD_none, hf] at ht
      exact ht.elim
    | some p => exact ⟨p, ⟨e, hp⟩, by rwa [hp] at ht⟩
  · rintro ⟨p, ⟨e, hp⟩, ht⟩
    exact ⟨e, by rwa [hp]⟩

-- ---------------------------------------------------------------------------
-- The components of an entity
-- ---------------------------------------------------------------------------

def componentStartKeys (s : ChunkStore) (e : EntityPath) (timeline : TimelineName) :
    Set TimeInt :=
  ⋃ component, (s.at (.component e timeline component)).startKeys

theorem isLeast_union_of_isLeast {a b : Set TimeInt} (h : IsLeast a m) (h' : IsLeast ({m} ∪ b) t) :
    IsLeast (a ∪ b) t := by
  refine ⟨?_, fun k hk => ?_⟩
  · rcases h'.1 with rfl | ht
    · exact .inl h.1
    · exact .inr ht
  rcases hk with hk | hk
  · exact (h'.2 (.inl rfl)).trans (h.2 hk)
  · exact h'.2 (.inr hk)

theorem isLeast_foldl_minWithFirstKey (ps : List ChunkIdSetPerTime) (time : TimeInt) :
    IsLeast ({time} ∪ ⋃ p ∈ ps, p.startKeys) (ps.foldl minWithFirstKey time) := by
  induction ps generalizing time with
  | nil => simp
  | cons p rest ih =>
    simp only [List.mem_cons, Set.iUnion_iUnion_eq_or_left, ← Set.union_assoc, List.foldl_cons]
    refine isLeast_union_of_isLeast ?_ (ih (minWithFirstKey time p))
    unfold minWithFirstKey
    cases hstart : p.perStartTime.keys.head? with
    | none =>
      have hnil : p.startKeys = ∅ := setOf_mem_eq_empty (List.head?_eq_none_iff.mp hstart)
      rw [hnil, Set.union_empty]
      exact isLeast_singleton
    | some start => exact isLeast_singleton.union (isLeast_head?_keys hstart)

def perComponentOf (s : ChunkStore) (e : EntityPath) (timeline : TimelineName) :
    ChunkIdSetPerTimePerComponent :=
  (s.temporalChunkIdsPerEntityPerComponent.getD e ∅).getD timeline ∅

theorem componentStartKeys_eq (s : ChunkStore) (e : EntityPath) (timeline : TimelineName) :
    s.componentStartKeys e timeline = ⋃ p ∈ (s.perComponentOf e timeline).values, p.startKeys := by
  ext t
  simp only [componentStartKeys, Set.mem_iUnion, exists_prop, OrdMap.mem_values]
  have hat : ∀ component, s.at (.component e timeline component) =
      ((s.perComponentOf e timeline)[component]?).getD default := by
    intro component
    rw [ChunkStore.at, perComponentOf, TreeMap.getD_eq_getD_getElem?]
    rfl
  simp only [hat]
  constructor
  · rintro ⟨component, ht⟩
    cases hp : (s.perComponentOf e timeline)[component]? with
    | none =>
      rw [hp, Option.getD_none, ChunkIdSetPerTime.startKeys_default] at ht
      exact ht.elim
    | some p => exact ⟨p, ⟨component, hp⟩, by rwa [hp] at ht⟩
  · rintro ⟨p, ⟨component, hp⟩, ht⟩
    exact ⟨component, by rwa [hp]⟩

theorem entityMinTime_eq (s : ChunkStore) (timeline : TimelineName) (e : EntityPath) :
    s.entityMinTime timeline e =
      if (s.perComponentOf e timeline).values.foldl minWithFirstKey .MAX ≠ .MAX then
        some ((s.perComponentOf e timeline).values.foldl minWithFirstKey .MAX)
      else none := by
  have hper : s.perComponentOf e timeline =
      ((s.temporalChunkIdsPerEntityPerComponent[e]?).getD ∅)[timeline]?.getD ∅ := by
    rw [perComponentOf, TreeMap.getD_eq_getD_getElem?, TreeMap.getD_eq_getD_getElem?]
  have hnil : (∅ : ChunkIdSetPerTimePerComponent).values = [] := rfl
  rw [hper, entityMinTime]
  cases he : s.temporalChunkIdsPerEntityPerComponent[e]? with
  | none => simp [hnil]
  | some perTimeline => cases ht : perTimeline[timeline]? <;> simp [ht, hnil]

/-- The first key of all components is listed, and is found unless it is `MAX`. -/
theorem isFirst_entityMinTime {s : ChunkStore} {e : EntityPath} {timeline : TimelineName}
    (hc : IsCoinitialFor (s.componentStartKeys e timeline ∩ Set.Iio .MAX)
      (s.componentStarts e timeline))
    (hmax : s.componentStarts e timeline ⊆ {.MAX} → s.componentStarts e timeline = ∅) :
    IsFirst (s.componentStarts e timeline) (s.entityMinTime timeline e) := by
  have hsub : s.componentStarts e timeline ⊆ s.componentStartKeys e timeline :=
    Set.iUnion_mono fun _ => ChunkIdSetPerTime.starts_subset _
  have hleast := isLeast_foldl_minWithFirstKey (s.perComponentOf e timeline).values .MAX
  rw [← componentStartKeys_eq] at hleast
  rw [entityMinTime_eq]
  generalize (s.perComponentOf e timeline).values.foldl minWithFirstKey .MAX = timeMin at hleast ⊢
  split
  · rename_i hne
    have hkeys : IsLeast (s.componentStartKeys e timeline) timeMin :=
      ⟨hleast.1.resolve_left hne, fun k hk => hleast.2 (.inr hk)⟩
    exact isLeast_of_listed_le hkeys hsub (hc ⟨hkeys.1, lt_of_le_of_ne timeMin.le_MAX hne⟩)
  · rename_i heq
    refine hmax fun t ht => ?_
    have hle := hleast.2 (.inr (hsub ht))
    rw [not_ne_iff.mp heq] at hle
    exact le_antisymm t.le_MAX hle

-- ---------------------------------------------------------------------------
-- All bounds
-- ---------------------------------------------------------------------------

def AllRegular (s : ChunkStore) : Prop := ∀ slot, (s.at slot).Regular

theorem allRegular_of_reached {env : Env} {config : ChunkStoreConfig} {s : ChunkStore}
    (h : Reached env .unannounced config s) : s.AllRegular := by
  have h0 : (ChunkStore.new config).AllRegular := by
    intro slot
    rw [at_new]
    exact ChunkIdSetPerTime.regular_default
  exact h.invariant h0 fun _ _ _ hcore hr hs slot => (hs.keysGrow hcore slot).regular (hr slot)

theorem timeBoundsExact_of_covered {s : ChunkStore} (hr : s.AllRegular)
    (hstart : ∀ e timeline, IsCoinitialFor (s.at (.entity e timeline)).startKeys
      (s.at (.entity e timeline)).starts)
    (hstop : ∀ e timeline, IsCofinalFor (s.at (.entity e timeline)).endKeys
      (s.at (.entity e timeline)).stops)
    (hcomponent : ∀ e timeline, IsCoinitialFor (s.componentStartKeys e timeline ∩ Set.Iio .MAX)
      (s.componentStarts e timeline))
    (hmax : ∀ e timeline, s.componentStarts e timeline ⊆ {.MAX} →
      s.componentStarts e timeline = ∅) : s.TimeBoundsExact := by
  have hspan : ∀ e timeline p, s.perTimeOfEntity? e timeline = some p →
      IsSpan p.starts p.stops (rangeOfKeys p) := by
    intro e timeline p hp
    have hat : s.at (.entity e timeline) = p := by rw [at_entity, hp, Option.getD_some]
    exact isSpan_rangeOfKeys (hat ▸ hr _) (hat ▸ hstart e timeline) (hat ▸ hstop e timeline)
  refine ⟨fun timeline e => ?_, fun timeline e => ?_, fun timeline => ?_⟩
  · rw [at_entity, entityTimeRange]
    cases hp : s.perTimeOfEntity? e timeline with
    | none => exact ⟨ChunkIdSetPerTime.starts_default, ChunkIdSetPerTime.stops_default⟩
    | some p => exact hspan e timeline p hp
  · exact isFirst_entityMinTime (hcomponent e timeline) (hmax e timeline)
  · rw [iUnion_at_entity _ ChunkIdSetPerTime.starts_default,
      iUnion_at_entity _ ChunkIdSetPerTime.stops_default]
    refine isSpan_timeRange_of_perTimes fun p hp => ?_
    obtain ⟨e, hp⟩ := mem_perTimesOf_iff.mp hp
    exact hspan e timeline p hp

end ChunkStore

end DimosViewer
