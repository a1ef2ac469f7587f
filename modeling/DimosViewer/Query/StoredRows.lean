import DimosViewer.Query.ExtendedBounds
import DimosViewer.Query.RangeFilter

/-!
# The rows that a range query returns

A range query goes through the caches, the indices and the chunks. What comes out are the rows of the
physical chunks that have a cell and a time in the range, each one once.
-/

namespace DimosViewer

open Reach (Reachable)
open Std (TreeMap TreeSet)

-- ---------------------------------------------------------------------------
-- One chunk
-- ---------------------------------------------------------------------------

namespace RowData

def kept (query : RangeQuery) (component : ComponentIdentifier) (row : RowData) : RowData where
  rowId := row.rowId
  times timeline :=
    if query.keepExtraTimelines = true ∨ timeline = query.timeline then row.times timeline else none
  cells c := if query.keepExtraComponents = true ∨ c = component then row.cells c else none

def answers (query : RangeQuery) (component : ComponentIdentifier) (row : RowData) : Bool :=
  (row.queried query.timeline component).answers query.range

@[simp] theorem times_kept (query : RangeQuery) (component : ComponentIdentifier) (row : RowData) :
    (row.kept query component).times query.timeline = row.times query.timeline := by
  simp [kept]

@[simp] theorem cells_kept (query : RangeQuery) (component : ComponentIdentifier) (row : RowData) :
    (row.kept query component).cells component = row.cells component := by
  simp [kept]

end RowData

namespace Chunk

theorem lookup_timelineSliced (c : Chunk) (id : ChunkId) (timeline name : TimelineName) :
    (c.timelineSliced id timeline).timeline? name =
      if name = timeline then c.timeline? name else none := by
  rw [timelineSliced, timeline?]
  dsimp only
  split
  case isTrue h =>
    subst h
    cases c.timeline? name <;> simp
  case isFalse h =>
    have hne : (name == timeline) = false := beq_false_of_ne h
    cases c.timeline? timeline <;> simp [List.lookup_cons, hne]

theorem get_componentSliced (c : Chunk) (id : ChunkId) (component name : ComponentIdentifier) :
    (c.componentSliced id component).components.get name =
      if name = component then c.components.get name else none := by
  rw [componentSliced]
  dsimp only
  split
  case isTrue h =>
    subst h
    cases hc : c.components.get name with
    | none => rfl
    | some column =>
      have hname := component_of_get hc
      simp [ChunkComponents.get, hname]
  case isFalse h =>
    cases hc : c.components.get component with
    | none => rfl
    | some column =>
      have hname := component_of_get hc
      simp [ChunkComponents.get, hname, Ne.symm h]

theorem lookup_rangeColumns (c : Chunk) (newId : Nat → ChunkId) (query : RangeQuery)
    (component : ComponentIdentifier) (name : TimelineName) :
    (c.rangeColumns newId query component).timeline? name =
      if query.keepExtraTimelines = true ∨ name = query.timeline then c.timeline? name else none := by
  rw [rangeColumns]
  cases query.keepExtraComponents <;> cases query.keepExtraTimelines
  · exact (c.lookup_timelineSliced (newId 0) query.timeline name).trans (by simp)
  · simp [componentSliced, timeline?]
  · exact (c.lookup_timelineSliced (newId 0) query.timeline name).trans (by simp)
  · simp

theorem getComponent_rangeColumns (c : Chunk) (newId : Nat → ChunkId) (query : RangeQuery)
    (component name : ComponentIdentifier) :
    (c.rangeColumns newId query component).components.get name =
      if query.keepExtraComponents = true ∨ name = component then c.components.get name
      else none := by
  rw [rangeColumns]
  cases query.keepExtraComponents <;> cases query.keepExtraTimelines
  · exact (get_componentSliced (c.timelineSliced (newId 0) query.timeline) (newId 1) component
      name).trans (by simp [timelineSliced])
  · exact (get_componentSliced c (newId 1) component name).trans (by simp)
  · simp [timelineSliced]
  · simp

theorem rows_rangeColumns (c : Chunk) (newId : Nat → ChunkId) (query : RangeQuery)
    (component : ComponentIdentifier) :
    (c.rangeColumns newId query component).rows = c.rows.map (·.kept query component) := by
  rw [rows, rows, numRows, rowIds_rangeColumns, List.map_map]
  refine List.map_congr_left fun i _ => RowData.ext ?_ (funext fun name => ?_)
    (funext fun name => ?_)
  · simp [rowAt, RowData.kept, rowIds_rangeColumns]
  · simp only [rowAt, RowData.kept, Function.comp_apply, lookup_rangeColumns]
    split <;> rfl
  · simp only [rowAt, RowData.kept, Function.comp_apply, getComponent_rangeColumns]
    split <;> rfl

theorem rows_range {c : Chunk} (h : c.WellFormed) (hs : c.isSorted = true)
    (newId : Nat → ChunkId) {query : RangeQuery} {component : ComponentIdentifier}
    (hget : c.components.get component = some column)
    (ht : c.timeline? query.timeline = some tc) (hext : query.includeExtendedBounds = false) :
    (c.range newId query component).rows.Perm
        ((c.rows.filter (·.answers query component)).map (·.kept query component)) ∧
      ((c.range newId query component).queriedRows query.timeline component).Pairwise
        (·.key ≤ ·.key) := by
  by_cases he : c.isEmpty = true
  · have hnil : c.rows = [] := by
      rw [← List.length_eq_zero_iff, length_rows, numRows, List.isEmpty_iff.mp he]
      rfl
    rw [range, if_pos he, queriedRows, hnil]
    exact ⟨.refl _, .nil⟩
  · have hx := h.rangeColumns newId query component
    have htx := c.timeline?_rangeColumns newId query component
    have hgetx := c.get_rangeColumns newId query component
    have hrx := c.rows_rangeColumns newId query component
    have hsx := c.isSorted_rangeColumns newId query component
    rw [range_eq he, if_neg (by simp [isStatic_eq_false (htx.trans ht)]), htx, ht, rangeRows]
    generalize c.rangeColumns newId query component = x at *
    have hd := densified_wellFormed hx (newId 2) component
    have hrd := rows_densified hx (newId 2) (hgetx.trans hget)
    have hsd := isSorted_densified (hsx.trans hs) (newId 2) component
    have htd := isSome_timeline?_densified x (newId 2) component query.timeline
    rw [htx, ht] at htd
    generalize (x.densified (newId 2) component).1 = d at *
    obtain ⟨tcd, htd⟩ := Option.isSome_iff_exists.mp htd
    have hr := sortedByTimeline_wellFormed hd newId 3 query.timeline
    have hperm := (sortedByTimeline_sameRows hd newId 3 query.timeline).rows
    have hkeys := (queriedRows_sortedByTimeline hd hsd htd newId 3 component).2
    have htr := isSome_timeline?_sortedByTimeline d newId 3 query.timeline query.timeline
    rw [htd] at htr
    obtain ⟨tcr, htr⟩ := Option.isSome_iff_exists.mp htr
    have htimes := isSortedList_iff.mp
      ((hr.timeline_of_lookup htr).1.sorted ▸ hd.isSorted_sortedByTimeline 3 htr)
    have hslice := rows_rangeSliced hr.aligned htr htimes (newId 5) c.numRows hext
    refine ⟨?_, ?_⟩
    · rw [hslice]
      refine (hperm.filter _).trans ?_
      rw [hrd, hrx, List.filter_filter, List.filter_map]
      refine .of_eq (congrArg _ (List.filter_congr fun row _ => ?_))
      simp [RowData.answers, RowData.queried, QueriedRow.answers, Bool.and_comm]
    · rw [queriedRows_rangeSliced hr.aligned htr htimes (newId 5) c.numRows hext]
      exact hkeys.filter _

end Chunk

-- ---------------------------------------------------------------------------
-- The index
-- ---------------------------------------------------------------------------

namespace ChunkStore

variable {env : Env} {config : ChunkStoreConfig} {s : ChunkStore} {query : RangeQuery}
  {e : EntityPath} {component : ComponentIdentifier}

/-- As `logged`, and chunks may be collected if the clock does not cut the sweep short. -/
def Policy.recorded : Policy := { Policy.logged with sweep := Uncut }

theorem Policy.recorded_traceable : Policy.recorded.Traceable := ⟨fun _ _ => id, fun _ _ => id, id⟩

structure Policy.Le (pol pol' : Policy) : Prop where
  chunk : ∀ {c}, pol.chunk c → pol'.chunk c
  insert : ∀ {archive c}, pol.insert archive c → pol'.insert archive c
  announceStatic : ∀ {archive entry}, pol.announceStatic archive entry →
    pol'.announceStatic archive entry
  announceTemporal : ∀ {archive entry}, pol.announceTemporal archive entry →
    pol'.announceTemporal archive entry
  sweep : ∀ {exhausted chunks}, pol.sweep exhausted chunks → pol'.sweep exhausted chunks

theorem Op.Legal.of_le {pol pol' : Policy} {op : Op} (h : op.Legal env pol s) (hle : pol.Le pol') :
    op.Legal env pol' s := by
  cases op with
  | insertChunk c => exact ⟨h.1, h.2.1, hle.chunk h.2.2.1, hle.insert h.2.2.2⟩
  | insertRrdManifest manifest =>
    exact ⟨fun entry he => ⟨(h.1 entry he).1, hle.announceStatic (h.1 entry he).2⟩,
      fun entry he => ⟨(h.2 entry he).1, hle.announceTemporal (h.2 entry he).2⟩⟩
  | gc options clock => exact hle.sweep h
  | dropTimeRange timeline dropRange deepRemoval reason => trivial
  | dropEntityPath entityPath => trivial

theorem Reached.of_le {pol pol' : Policy} (h : Reached env pol config s) (hle : pol.Le pol') :
    Reached env pol' config s := h.mono fun _ _ hop => hop.of_le hle

theorem Policy.recorded_le_truthful : Policy.recorded.Le .truthful where
  chunk h := h
  insert h := h
  announceStatic h := h.elim
  announceTemporal h := h.elim
  sweep _ := trivial

theorem consistent_of_recorded (h : Reached env .recorded config s) : s.Consistent where
  keyed := h.core.keyed
  findable := h.invariant (findable_new config) fun _ _ _ hcore hf hs => hs.findable hcore id hf
  wellFormed hc := (h.core.storable hc).wellFormed

theorem indexed_of_recorded (h : Reached env .recorded config s) : s.Indexed :=
  h.invariant (indexed_new config) fun _ _ _ hcore hi hs =>
    hs.indexed Policy.recorded_traceable hcore hi

/-- No chunk starts `i64::MAX` or more before the range. -/
def StartsNear (s : ChunkStore) (query : RangeQuery) (e : EntityPath)
    (component : ComponentIdentifier) : Prop :=
  ∀ start ∈ (s.at (.component e query.timeline component)).perStartTime,
    query.range.min.asI64 < start.asI64 + i64Max

theorem StartsNear.not_hides (h : s.StartsNear query e component)
    (hext : query.includeExtendedBounds = false) (range : AbsoluteTimeRange) :
    ¬ (s.at (.component e query.timeline component)).Hides range
      (ChunkIdSetPerTime.reach query) := by
  rintro ⟨later, hmem, -, hfar⟩
  rw [ChunkIdSetPerTime.reach, if_neg (by simp [hext])] at hfar
  exact absurd hfar (not_le.mpr (h later hmem))

theorem nodup_range (hindexed : s.Indexed) (query : RangeQuery) (e : EntityPath)
    (component : ComponentIdentifier) :
    (range query (s.perTimeOfComponent? e query.timeline component).toList).Nodup := by
  cases hp : s.perTimeOfComponent? e query.timeline component with
  | none => exact List.nodup_nil
  | some p =>
    have hat : s.at (.component e query.timeline component) = p := by
      rw [at_component, hp, Option.getD_some]
    rw [range, Option.toList_some, List.flatMap_singleton, List.nodup_flatMap]
    refine ⟨fun entry _ => entry.2.distinct_toList.imp fun hne heq =>
      hne (compare_eq_iff_eq.mpr heq), ?_⟩
    refine (List.Pairwise.filter _ (TreeMap.distinct_keys_toList (t := p.perStartTime))).imp_of_mem ?_
    intro a b ha hb hne cid hm hm'
    -- Both entries hold the start time of the one chunk with this id.
    have hstart (entry : TimeInt × ChunkIdSet)
        (hentry : entry ∈ p.perStartTime.toList.filter fun entry =>
          (rangeBounds query p).1 ≤ entry.1 && entry.1 ≤ (rangeBounds query p).2)
        (hm : cid ∈ entry.2.toList) : ∃ d timeRange, s.archive[cid]? = some d ∧
          d.rangeAt (.component e query.timeline component) = some timeRange ∧
          timeRange.min = entry.1 := by
      refine hindexed _ _ _ ?_
      rw [hat, ChunkIdSetPerTime.startIds, OrdMap.mem_setAt_iff]
      exact ⟨entry.2, TreeMap.mem_toList_iff_getElem?_eq_some.mp (List.mem_filter.mp hentry).1,
        TreeSet.mem_toList.mp hm⟩
    obtain ⟨d, timeRange, hd, hrange, hkey⟩ := hstart a ha hm
    obtain ⟨d', timeRange', hd', hrange', hkey'⟩ := hstart b hb hm'
    obtain rfl := Option.some.inj (hd.symm.trans hd')
    obtain rfl := Option.some.inj (hrange.symm.trans hrange')
    exact hne (compare_eq_iff_eq.mpr (hkey.symm.trans hkey'))

theorem mem_timesOf_of_answers {c : Chunk} {row : RowData} (hrow : row ∈ c.rows)
    (ha : row.answers query component = true) :
    ∃ t ∈ c.timesOf query.timeline component, query.range.contains t := by
  obtain ⟨i, -, rfl⟩ := List.mem_map.mp hrow
  obtain ⟨hcell, htime⟩ := Bool.and_eq_true_iff.mp ha
  obtain ⟨typed, hcell⟩ := Option.isSome_iff_exists.mp hcell
  obtain ⟨column, hcolumn, hcell⟩ := Option.bind_eq_some_iff.mp hcell
  obtain ⟨cell, hcell, -⟩ := Option.map_eq_some_iff.mp hcell
  obtain ⟨⟨timeline, t⟩, htime, hin⟩ := (Option.any_eq_true _ _).mp htime
  obtain ⟨tc, htc, htime⟩ := Option.bind_eq_some_iff.mp htime
  obtain ⟨t', hget, heq⟩ := Option.map_eq_some_iff.mp htime
  obtain rfl := congrArg Prod.snd heq
  refine ⟨t', ?_, AbsoluteTimeRange.contains_iff.mpr (of_decide_eq_true hin)⟩
  rw [Chunk.timesOf, htc, hcolumn]
  refine List.mem_filterMap.mpr ⟨(t', some cell), ?_, rfl⟩
  exact List.mem_of_getElem? (List.getElem?_zip_eq_some.mpr ⟨hget, Option.join_eq_some_iff.mp hcell⟩)

theorem physical_of_relevant (h : Reached env .recorded config s)
    (hstatic : s.staticChunkId? e component = none)
    (hc : c ∈ (s.rangeRelevantChunks .report query e component).chunks) :
    s.Physical c ∧ ∃ timeRange,
      c.rangeAt (.component e query.timeline component) = some timeRange := by
  obtain ⟨cid, hlisted, hphys⟩ := listed_of_mem_rangeRelevantChunks hstatic hc
  obtain ⟨key, hkey, -⟩ := mem_range_perTime.mp hlisted
  obtain ⟨d, timeRange, harchive, hrange, -⟩ := indexed_of_recorded h _ _ _ hkey
  obtain rfl := Option.some.inj (harchive.symm.trans (h.core.physical hphys))
  obtain rfl := h.core.keyed hphys
  exact ⟨hphys, timeRange, hrange⟩

/-- A chunk with a row that answers is looked up. -/
theorem relevant_of_answers (h : Reached env .recorded config s)
    (hext : query.includeExtendedBounds = false)
    (hstatic : s.staticChunkId? e component = none) (hnear : s.StartsNear query e component)
    {c : Chunk} (hphys : s.Physical c) (he : c.entityPath = e) {row : RowData}
    (hrow : row ∈ c.rows) (ha : row.answers query component = true) :
    c ∈ (s.rangeRelevantChunks .report query e component).chunks := by
  have hcons := consistent_of_recorded h
  have hw := hcons.wellFormed hphys
  obtain ⟨t, ht, hin⟩ := mem_timesOf_of_answers hrow ha
  obtain ⟨timeRange, hrange, hcontains, hmin⟩ := hw.exists_range ht
  rw [he] at hrange
  have hmeets : timeRange.intersects query.range := by
    rw [AbsoluteTimeRange.contains_iff] at hin hcontains
    exact AbsoluteTimeRange.intersects_iff.mpr
      ⟨hcontains.1.trans hin.2, hin.1.trans hcontains.2⟩
  have hlists := hcons.findable c.id c hphys _ _ hrange
  refine (mem_rangeRelevantChunks_iff hcons.keyed hw hstatic .report he).mpr
    ⟨hphys, ?_, timeRange, hrange, hmeets⟩
  exact mem_range_perTime.mpr ⟨timeRange.min, hlists.start,
    (ChunkIdSetPerTime.inBounds_iff hlists hmin hmeets).mpr (hnear.not_hides hext timeRange)⟩

theorem nodup_relevant (h : Reached env .recorded config s)
    (hstatic : s.staticChunkId? e component = none) :
    (s.rangeRelevantChunks .report query e component).chunks.Nodup := by
  rw [rangeRelevantChunks, hstatic]
  refine List.Nodup.filter _ (List.Nodup.filterMap ?_
    (nodup_range (indexed_of_recorded h) query e component))
  intro cid cid' c hc hc'
  exact (h.core.keyed hc).symm.trans (h.core.keyed hc')

-- ---------------------------------------------------------------------------
-- All rows
-- ---------------------------------------------------------------------------

def rowsOf (s : ChunkStore) (e : EntityPath) : List RowData :=
  (s.physicalChunksPerChunkId.values.filter (·.entityPath = e)).flatMap Chunk.rows

theorem perm_flatMap_of_subset {l l' : List α} {f : α → List β} (hl : l.Nodup) (hl' : l'.Nodup)
    (hsub : l ⊆ l') (h : ∀ a ∈ l', f a ≠ [] → a ∈ l) : (l.flatMap f).Perm (l'.flatMap f) := by
  classical
  have hkept : l.Perm (l'.filter (· ∈ l)) := by
    refine (List.perm_ext_iff_of_nodup hl (hl'.filter _)).mpr fun a => ?_
    rw [List.mem_filter, decide_eq_true_iff, and_iff_right_of_imp (@hsub a)]
  refine (hkept.flatMap_right f).trans (.of_eq ?_)
  clear hkept hl hl' hsub
  induction l' with
  | nil => rfl
  | cons a rest ih =>
    have ih := ih fun b hb => h b (List.mem_cons_of_mem a hb)
    rw [List.filter_cons, List.flatMap_cons]
    by_cases ha : a ∈ l
    · rw [if_pos (decide_eq_true ha), List.flatMap_cons, ih]
    · have hnil : f a = [] := not_not.mp (mt (h a List.mem_cons_self) ha)
      rw [if_neg (by simpa using ha), hnil, ih, List.nil_append]

/-- The rows of the chunks that a range query returns are the stored rows that answer. -/
theorem rows_rangeChunks (h : Reached env .recorded config s) (newId : Nat → ChunkId)
    (hext : query.includeExtendedBounds = false)
    (hstatic : s.staticChunkId? e component = none) (hnear : s.StartsNear query e component) :
    ((s.rangeChunks newId query e component).flatMap Chunk.rows).Perm
        (((s.rowsOf e).filter (·.answers query component)).map (·.kept query component)) ∧
      ∀ c ∈ s.rangeChunks newId query e component,
        (c.queriedRows query.timeline component).Pairwise (·.key ≤ ·.key) := by
  have hrange (c) (hc : c ∈ (s.rangeRelevantChunks .report query e component).chunks) :
      (c.range newId query component).rows.Perm
          ((c.rows.filter (·.answers query component)).map (·.kept query component)) ∧
        ((c.range newId query component).queriedRows query.timeline component).Pairwise
          (·.key ≤ ·.key) := by
    obtain ⟨hphys, timeRange, hr⟩ := physical_of_relevant h hstatic hc
    obtain ⟨hw, hs, -⟩ := h.core.storable hphys
    rw [Chunk.rangeAt, if_pos (entityPath_of_rangeAt hr)] at hr
    obtain ⟨tc, ht, hr⟩ := Option.bind_eq_some_iff.mp hr
    obtain ⟨column, hget, -⟩ := Option.bind_eq_some_iff.mp hr
    exact Chunk.rows_range hw hs newId hget ht hext
  constructor
  · have hrows : (s.rangeChunks newId query e component).flatMap Chunk.rows =
        (s.rangeRelevantChunks .report query e component).chunks.flatMap
          fun c => (c.range newId query component).rows := by
      rw [rangeChunks]
      generalize (s.rangeRelevantChunks .report query e component).chunks = l
      induction l with
      | nil => rfl
      | cons c rest ih =>
        rw [List.map_cons, List.flatMap_cons, ← ih, List.filter_cons]
        split
        · rfl
        case isFalse hempty =>
          have hnil : (c.range newId query component).rows = [] := by
            have hempty : ((c.range newId query component).withId c.id).isEmpty = true := by
              simpa using hempty
            rw [← List.length_eq_zero_iff, Chunk.length_rows]
            exact List.length_eq_zero_iff.mpr (List.isEmpty_iff.mp hempty)
          rw [hnil]
          rfl
    rw [hrows, rowsOf, List.filter_flatMap, List.map_flatMap]
    refine (List.Perm.flatMap_left _ fun c hc => (hrange c hc).1).trans ?_
    refine perm_flatMap_of_subset (nodup_relevant h hstatic) ((nodup_values h.core.keyed).filter _)
      (fun c hc => ?_) fun c hc hne => ?_
    · obtain ⟨hphys, timeRange, hr⟩ := physical_of_relevant h hstatic hc
      exact List.mem_filter.mpr ⟨mem_values_of_physical hphys,
        decide_eq_true (entityPath_of_rangeAt hr)⟩
    · obtain ⟨hvalue, he⟩ := List.mem_filter.mp hc
      obtain ⟨key, hphys⟩ := OrdMap.mem_values.mp hvalue
      obtain rfl := h.core.keyed hphys
      obtain ⟨row, hrow⟩ := List.exists_mem_of_ne_nil _ (mt List.map_eq_nil_iff.mpr hne)
      obtain ⟨hrow, ha⟩ := List.mem_filter.mp hrow
      exact relevant_of_answers h hext hstatic hnear hphys (of_decide_eq_true he) hrow ha
  · intro c hc
    obtain ⟨d, hd, rfl⟩ := List.mem_map.mp (List.mem_filter.mp hc).1
    exact (hrange d hd).2

theorem getD_rangeUncached (newId : Nat → ChunkId) (components : List ComponentIdentifier)
    (hm : component ∈ components) :
    ((s.rangeUncached newId query e components).components[component]?).getD [] =
      s.rangeChunks newId query e component := by
  have hstep (results : RangeResults) (name : ComponentIdentifier) :
      ((s.rangeUncachedComponent newId query e results name).components[component]?).getD [] =
        if name = component ∧ s.rangeChunks newId query e component ≠ [] then
          s.rangeChunks newId query e component
        else (results.components[component]?).getD [] := by
    rw [rangeUncachedComponent]
    dsimp only
    by_cases hname : name = component
    · subst hname
      by_cases hnil : s.rangeChunks newId query e name = []
      · simp [hnil]
      · simp [hnil]
    · split <;> simp [hname, TreeMap.getElem?_insert]
  have hkeep (results : RangeResults)
      (hr : (results.components[component]?).getD [] = s.rangeChunks newId query e component)
      (rest : List ComponentIdentifier) :
      ((rest.foldl (s.rangeUncachedComponent newId query e) results).components[component]?).getD
        [] = s.rangeChunks newId query e component := by
    induction rest generalizing results with
    | nil => exact hr
    | cons name rest ih => exact ih _ ((hstep results name).trans (by rw [hr, ite_self]))
  rw [rangeUncached]
  have hinit : (({ query } : RangeResults).components[component]?).getD [] = [] := by simp
  generalize ({ query } : RangeResults) = results at hinit
  induction components generalizing results with
  | nil => cases hm
  | cons name rest ih =>
    rw [List.foldl_cons]
    have hname := hstep results name
    rw [hinit] at hname
    by_cases hne : name = component ∧ s.rangeChunks newId query e component ≠ []
    · exact hkeep _ (hname.trans (if_pos hne)) rest
    · rw [if_neg hne] at hname
      rcases List.mem_cons.mp hm with rfl | hm
      · refine hkeep _ (hname.trans ?_) rest
        exact (Decidable.not_not.mp fun hnil => hne ⟨rfl, hnil⟩).symm
      · exact ih hm _ hname

end ChunkStore

-- ---------------------------------------------------------------------------
-- Sessions
-- ---------------------------------------------------------------------------

namespace QuerySession

open ChunkStore (Policy)

variable {env : Env} {config : ChunkStoreConfig} {session : QuerySession} {query : RangeQuery}
  {e : EntityPath} {component : ComponentIdentifier}

def Action.Recorded (env : Env) (session : QuerySession) : Action → Prop
  | .mutate op => op.Legal env .recorded session.store
  | _ => True

abbrev ReachedRecorded (env : Env) (config : ChunkStoreConfig) (session : QuerySession) : Prop :=
  Reachable ⟨.new config, {}⟩ (act env) (fun session action => action.Recorded env session) session

theorem ReachedRecorded.reached (h : ReachedRecorded env config session) :
    Reached env config session := by
  refine h.mono fun session action hok => ?_
  cases action with
  | mutate op => exact hok.of_le ChunkStore.Policy.recorded_le_truthful
  | range newId query entityPath components => trivial
  | clear => trivial

theorem ReachedRecorded.store (h : ReachedRecorded env config session) :
    ChunkStore.Reached env .recorded config session.store := by
  induction h with
  | init => exact .init
  | @step session action _ hok ih =>
    cases action with
    | mutate op => exact ih.step hok
    | range newId query entityPath components => exact ih
    | clear => exact ih

/-- Through caches and indices, a range query returns the stored rows that answer, each one as often
as it is stored, and each chunk in the order of time and row id. -/
theorem rows_range_perm (h : ReachedRecorded env config session) (newId : Nat → ChunkId)
    (hext : query.includeExtendedBounds = false)
    (hstatic : session.store.staticChunkId? e component = none)
    (hnear : session.store.StartsNear query e component) (components : List ComponentIdentifier)
    (hm : component ∈ components) :
    let results := (session.caches.range newId session.store query e components).2
    let chunks := (results.components[component]?).getD []
    (chunks.flatMap Chunk.rows).Perm
        (((session.store.rowsOf e).filter (·.answers query component)).map
          (·.kept query component)) ∧
      ∀ c ∈ chunks, (c.queriedRows query.timeline component).Pairwise (·.key ≤ ·.key) := by
  obtain ⟨hcore, hco⟩ := h.reached.coherent
  dsimp only
  rw [(range_spec hcore hco newId query e components).2, ChunkStore.getD_rangeUncached newId components hm]
  exact ChunkStore.rows_rangeChunks h.store newId hext hstatic hnear

theorem reachedRecorded_rangeRun : ReachedRecorded .plain .COMPACTION_DISABLED rangeRun := by
  rw [rangeRun, List.foldl_cons, List.foldl_cons, List.foldl_cons, List.foldl_nil]
  refine .step (.step (.step .init ?_) ?_) ?_
  · refine ⟨by decide, Env.plain_not_future (by decide) _, trivial, fun d hd => ?_⟩
    simp [ChunkStore.new] at hd
  · trivial
  · refine ⟨by decide, Env.plain_not_future (by decide) _, trivial, fun d hd => ?_⟩
    have hnone : ((act .plain ⟨.new .COMPACTION_DISABLED, {}⟩
        (.mutate (.insertChunk rangeRunFirst))).store.archive[(2 : ChunkId)]?).isNone = true := by
      decide +kernel
    cases Option.isNone_iff_eq_none.mp hnone ▸ hd

/-- Rows of two chunks, after a query that cached one of them. -/
theorem rows_range_perm_rangeRun :
    let results := (rangeRun.caches.range (500 + ·) rangeRun.store (rangeRunQuery 5 20) ["e"] ["c"]).2
    let chunks := (results.components["c"]?).getD []
    (chunks.flatMap Chunk.rows).Perm
        (((rangeRun.store.rowsOf ["e"]).filter (·.answers (rangeRunQuery 5 20) "c")).map
          (·.kept (rangeRunQuery 5 20) "c")) ∧
      ∀ c ∈ chunks, (c.queriedRows "t" "c").Pairwise (·.key ≤ ·.key) := by
  refine rows_range_perm reachedRecorded_rangeRun (500 + ·) rfl (by decide +kernel)
    (fun start hstart => ?_) ["c"] (List.mem_singleton_self _)
  have hstarts : (rangeRun.store.at (.component ["e"] "t" "c")).perStartTime.keys.all fun start =>
      decide ((5 : Int) < start.asI64 + i64Max) := by decide +kernel
  exact of_decide_eq_true (List.all_eq_true.mp hstarts start (TreeMap.mem_keys.mpr hstart))

end QuerySession

end DimosViewer
