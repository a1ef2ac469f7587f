import DimosViewer.Query.LatestRows
import DimosViewer.Store.TimeBounds

/-!
# Covered keys

A key is covered if something is listed that lies as far out, or is among the rows that are still to
be stored. What stores the rows of a chunk, as a whole, in pieces or along with those of a neighbor,
keeps the keys covered.
-/

namespace DimosViewer

-- ---------------------------------------------------------------------------
-- The rows that belong into a slot
-- ---------------------------------------------------------------------------

/-- The time of a row in a slot. The slot of a component asks for a cell. -/
def RowData.timeIn (row : RowData) : Slot → Option TimeInt
  | .entity _ timeline => (row.times timeline).map Prod.snd
  | .component _ timeline component =>
    if (row.cells component).isSome then (row.times timeline).map Prod.snd else none

def RowLog.timesAt (log : RowLog) (slot : Slot) : Set TimeInt :=
  {t | ∃ row, (slot.entityPath, row) ∈ log ∧ row.timeIn slot = some t}

@[simp] theorem RowLog.timesAt_zero (slot : Slot) : RowLog.timesAt 0 slot = ∅ := by
  simp [timesAt]

theorem RowLog.timesAt_add (log log' : RowLog) (slot : Slot) :
    RowLog.timesAt (log + log') slot = log.timesAt slot ∪ log'.timesAt slot := by
  ext t
  simp [timesAt, or_and_right, exists_or]

theorem RowLog.timesAt_mono {log log' : RowLog} (h : log ≤ log') (slot : Slot) :
    log.timesAt slot ⊆ log'.timesAt slot :=
  fun _ ⟨row, hm, ht⟩ => ⟨row, Multiset.mem_of_le h hm, ht⟩

/-- Every row has a cell, and none is at `MAX`. -/
def RowLog.Finite (log : RowLog) : Prop :=
  ∀ entry ∈ log, (∃ component, (entry.2.cells component).isSome) ∧
    ∀ timeline time, entry.2.times timeline = some time → time.2 < .MAX

theorem RowLog.Finite.mono {log log' : RowLog} (h : log'.Finite) (hle : log ≤ log') : log.Finite :=
  fun entry hm => h entry (Multiset.mem_of_le hle hm)

theorem Chunk.finite_logged {c : Chunk} (component : ComponentIdentifier)
    (hcells : ∀ row ∈ c.rows, (row.cells component).isSome)
    (htimes : ∀ entry ∈ c.timelines, ∀ t ∈ entry.2.times, t < .MAX) : c.logged.Finite := by
  rw [Chunk.logged]
  split
  case isTrue => exact fun entry hm => absurd hm (Multiset.notMem_zero entry)
  case isFalse =>
    intro entry hm
    obtain ⟨row, hrow, rfl⟩ := List.mem_map.mp hm
    refine ⟨⟨component, hcells row hrow⟩, fun timeline time ht => ?_⟩
    obtain ⟨i, -, rfl⟩ := List.mem_map.mp hrow
    obtain ⟨tc, htc, ht⟩ := Option.bind_eq_some_iff.mp ht
    obtain ⟨t, hget, rfl⟩ := Option.map_eq_some_iff.mp ht
    obtain ⟨before, after, hsplit, -⟩ := List.lookup_eq_some_iff.mp htc
    exact htimes (timeline, tc) (by simp [hsplit]) t (List.mem_of_getElem? hget)

/-- The slots that a chunk may belong into. -/
def Chunk.slots (c : Chunk) : List Slot :=
  c.timelines.flatMap fun entry => .entity c.entityPath entry.1 ::
    c.components.map fun column => .component c.entityPath entry.1 column.component

theorem Chunk.mem_slots_of_rangeAt {c : Chunk} {slot : Slot} {range : AbsoluteTimeRange}
    (h : c.rangeAt slot = some range) : slot ∈ c.slots := by
  have htimeline : ∀ {timeline tc}, c.timeline? timeline = some tc → (timeline, tc) ∈ c.timelines := by
    intro timeline tc ht
    obtain ⟨before, after, hsplit, -⟩ := List.lookup_eq_some_iff.mp ht
    simp [hsplit]
  cases slot with
  | entity e timeline =>
    obtain ⟨rfl, hr⟩ := Option.ite_none_right_eq_some.mp h
    obtain ⟨tc, ht, -⟩ := Option.map_eq_some_iff.mp hr
    exact List.mem_flatMap.mpr ⟨_, htimeline ht, List.mem_cons_self⟩
  | component e timeline component =>
    obtain ⟨rfl, hr⟩ := Option.ite_none_right_eq_some.mp h
    obtain ⟨tc, ht, hr⟩ := Option.bind_eq_some_iff.mp hr
    obtain ⟨column, hc, -⟩ := Option.bind_eq_some_iff.mp hr
    refine List.mem_flatMap.mpr ⟨_, htimeline ht, List.mem_cons_of_mem _ ?_⟩
    rw [ChunkComponents.get] at hc
    have hname := List.find?_some hc
    exact List.mem_map.mpr ⟨column, List.mem_of_find?_eq_some hc, by rw [beq_iff_eq.mp hname]⟩

namespace Chunk

theorem mem_timesAt_logged {c : Chunk} (hst : c.isStatic = false) {slot : Slot} :
    t ∈ c.logged.timesAt slot ↔ c.entityPath = slot.entityPath ∧
      ∃ i < c.numRows, (c.rowAt i).timeIn slot = some t := by
  rw [logged_of_temporal hst]
  simp only [RowLog.timesAt, Set.mem_ofPred_eq, Multiset.mem_coe, List.mem_map, Prod.mk.injEq,
    rows, List.mem_range]
  constructor
  · rintro ⟨_, ⟨_, ⟨i, hi, rfl⟩, he, rfl⟩, ht⟩
    exact ⟨he, i, hi, ht⟩
  · rintro ⟨he, i, hi, ht⟩
    exact ⟨_, ⟨_, ⟨i, hi, rfl⟩, he, rfl⟩, ht⟩

theorem mem_timesAt_component {c : Chunk} (h : c.Aligned) (hst : c.isStatic = false) :
    t ∈ c.logged.timesAt (.component e timeline component) ↔
      c.entityPath = e ∧ t ∈ c.timesOf timeline component := by
  rw [mem_timesAt_logged hst, mem_timesOf_iff h]
  refine and_congr_right fun _ => exists_congr fun i => and_congr_right fun _ => ?_
  rw [RowData.timeIn]
  split
  case isTrue hcell => exact (and_iff_right hcell).symm
  case isFalse hcell => exact iff_of_false nofun fun hnot => hcell hnot.1

theorem mem_timesAt_entity {c : Chunk} (h : c.Aligned) (hst : c.isStatic = false) :
    t ∈ c.logged.timesAt (.entity e timeline) ↔
      c.entityPath = e ∧ ∃ tc, c.timeline? timeline = some tc ∧ t ∈ tc.times := by
  rw [mem_timesAt_logged hst]
  refine and_congr_right fun _ => ⟨?_, ?_⟩
  · rintro ⟨i, -, ht⟩
    obtain ⟨time, hrow, rfl⟩ := Option.map_eq_some_iff.mp ht
    obtain ⟨tc, htc, hrow⟩ := Option.bind_eq_some_iff.mp hrow
    obtain ⟨t, hget, rfl⟩ := Option.map_eq_some_iff.mp hrow
    exact ⟨tc, htc, List.mem_of_getElem? hget⟩
  · rintro ⟨tc, htc, ht⟩
    obtain ⟨i, hi⟩ := List.getElem?_of_mem ht
    refine ⟨i, ?_, ?_⟩
    · rw [← h.length_times htc]
      exact (List.getElem?_eq_some_iff.mp hi).1
    · simp [RowData.timeIn, rowAt, htc, hi]

theorem rangeAt_of_mem_timesAt {c : Chunk} (h : c.WellFormed) (hst : c.isStatic = false)
    {slot : Slot} (ht : t ∈ c.logged.timesAt slot) :
    ∃ range, c.rangeAt slot = some range ∧ range.contains t := by
  cases slot with
  | entity e timeline =>
    obtain ⟨he, tc, htc, ht⟩ := (mem_timesAt_entity h.aligned hst).mp ht
    refine ⟨tc.timeRange, ?_, (h.timeline_of_lookup htc).1.bounds t ht⟩
    rw [rangeAt, if_pos he, htc]
    rfl
  | component e timeline component =>
    obtain ⟨he, ht⟩ := (mem_timesAt_component h.aligned hst).mp ht
    rw [timesOf] at ht
    split at ht
    case h_2 => cases ht
    case h_1 tc column htc hcolumn =>
      have hne : column.listArray ≠ [] := by
        intro hnil
        have hzip : tc.times.zip column.listArray = [] := by rw [hnil, List.zip_nil_right]
        rw [SerializedComponentColumn.validEntries, hzip] at ht
        cases ht
      have hsome : (tc.timeRangeOf column).isSome := TimeColumn.timeRangeOf_isSome hne
      obtain ⟨range, hr⟩ := Option.isSome_iff_exists.mp hsome
      refine ⟨range, ?_, TimeColumn.timeRangeOf_contains (h.timeline_of_lookup htc).1 hr ht⟩
      rw [rangeAt, if_pos he, htc, hcolumn]
      exact hr

theorem mem_timesAt_of_rangeAt_entity {c : Chunk} (h : c.Storable) (hst : c.isStatic = false)
    {range : AbsoluteTimeRange} (hr : c.rangeAt (.entity e timeline) = some range) :
    range.min ∈ c.logged.timesAt (.entity e timeline) ∧
      range.max ∈ c.logged.timesAt (.entity e timeline) := by
  rw [rangeAt] at hr
  split at hr
  case isFalse => cases hr
  case isTrue he =>
    obtain ⟨tc, htc, rfl⟩ := Option.map_eq_some_iff.mp hr
    obtain ⟨hw, hlen⟩ := h.wellFormed.timeline_of_lookup htc
    have hne : tc.times ≠ [] := by
      intro hnil
      rw [hnil] at hlen
      exact h.rowIds_ne (List.length_eq_zero_iff.mp hlen.symm)
    exact ⟨(mem_timesAt_entity h.wellFormed.aligned hst).mpr ⟨he, tc, htc, hw.min_mem hne⟩,
      (mem_timesAt_entity h.wellFormed.aligned hst).mpr ⟨he, tc, htc, hw.max_mem hne⟩⟩

theorem nonempty_timesAt_of_rangeAt {c : Chunk} (h : c.Storable) {slot : Slot}
    {range : AbsoluteTimeRange} (hr : c.rangeAt slot = some range) :
    (c.logged.timesAt (.entity slot.entityPath slot.timeline)).Nonempty := by
  have hst := c.isStatic_eq_false_of_rangeAt hr
  have hentity : ∃ range, c.rangeAt (.entity slot.entityPath slot.timeline) = some range := by
    cases slot with
    | entity e timeline => exact ⟨range, hr⟩
    | component e timeline component =>
      rw [rangeAt] at hr
      split at hr
      case isFalse => cases hr
      case isTrue he =>
        obtain ⟨tc, htc, -⟩ := Option.bind_eq_some_iff.mp hr
        refine ⟨tc.timeRange, ?_⟩
        rw [rangeAt, Slot.entityPath, Slot.timeline, if_pos he, htc]
        rfl
  obtain ⟨range, hr⟩ := hentity
  exact ⟨_, (mem_timesAt_of_rangeAt_entity h hst hr).1⟩

end Chunk

theorem Chunk.isSome_rangeAt_entity {c d : Chunk} (hpath : c.entityPath = d.entityPath)
    (htypes : c.columnTypes = d.columnTypes) (e : EntityPath) (timeline : TimelineName) :
    (c.rangeAt (.entity e timeline)).isSome = (d.rangeAt (.entity e timeline)).isSome := by
  have hcolumn := congrArg (Option.isSome <| List.lookup timeline ·) htypes
  rw [← columnAt_map_fst, ← columnAt_map_fst, Option.isSome_map, Option.isSome_map, columnAt,
    columnAt, Option.isSome_map, Option.isSome_map] at hcolumn
  rw [rangeAt, rangeAt, hpath]
  split
  · rw [Option.isSome_map, Option.isSome_map, hcolumn]
  · rfl

/-- The start `MAX` in the slot of a component stands for no cell at all. -/
def Slot.proper : Slot → Set TimeInt
  | .component .. => Set.Iio .MAX
  | .entity .. => Set.univ

theorem Slot.proper_of_le {slot : Slot} (h : t ≤ t') (ht : t' ∈ slot.proper) : t ∈ slot.proper := by
  cases slot with
  | component => exact lt_of_le_of_lt h ht
  | entity => trivial

theorem Chunk.mem_timesAt_of_rangeAt {c : Chunk} (h : c.Storable) {slot : Slot}
    {range : AbsoluteTimeRange} (hr : c.rangeAt slot = some range) (hp : range.min ∈ slot.proper) :
    range.min ∈ c.logged.timesAt slot := by
  have hst := c.isStatic_eq_false_of_rangeAt hr
  cases slot with
  | entity e timeline => exact (mem_timesAt_of_rangeAt_entity h hst hr).1
  | component e timeline component =>
    have he : c.entityPath = e := by
      rw [rangeAt] at hr
      split at hr
      case isTrue he => exact he
      case isFalse => cases hr
    rcases h.wellFormed.rangeAt_min hr with hm | ⟨-, rfl⟩
    · exact (mem_timesAt_component h.wellFormed.aligned hst).mpr ⟨he, hm⟩
    · exact (lt_irrefl TimeInt.MAX hp).elim

-- ---------------------------------------------------------------------------
-- Keys that are covered
-- ---------------------------------------------------------------------------

namespace ChunkStore

open ChunkIdSetPerTime (KeysGrow)

/-- The starts in a slot, with those of rows that are still to be stored. -/
def startsWith (s : ChunkStore) (log : RowLog) (slot : Slot) : Set TimeInt :=
  slot.proper ∩ ((s.at slot).starts ∪ log.timesAt slot)

def stopsWith (s : ChunkStore) (log : RowLog) (slot : Slot) : Set TimeInt :=
  (s.at slot).stops ∪ log.timesAt slot

/-- Once the rows of the log are stored, something is listed for each key that lies as far out, and
`MAX` is not all that is listed for components. -/
structure KeysCovered (s : ChunkStore) (log : RowLog) : Prop where
  start : ∀ e timeline, IsCoinitialFor (s.at (.entity e timeline)).startKeys
    (s.startsWith log (.entity e timeline))
  stop : ∀ e timeline, IsCofinalFor (s.at (.entity e timeline)).endKeys
    (s.stopsWith log (.entity e timeline))
  component : ∀ e timeline, IsCoinitialFor (s.componentStartKeys e timeline ∩ Set.Iio .MAX)
    (⋃ component, s.startsWith log (.component e timeline component))
  max : ∀ e timeline,
    (s.componentStarts e timeline ∪ log.timesAt (.entity e timeline)).Nonempty →
    (⋃ component, s.startsWith log (.component e timeline component)).Nonempty

/-- From the log `log` to the log `log'` rows are stored, and all starts and ends are kept. -/
structure Carries (s : ChunkStore) (log : RowLog) (s' : ChunkStore) (log' : RowLog) : Prop where
  startKeys : ∀ slot, IsCoinitialFor (slot.proper ∩ (s'.at slot).startKeys)
    ((s.at slot).startKeys ∪ s'.startsWith log' slot)
  endKeys : ∀ e timeline, IsCofinalFor (s'.at (.entity e timeline)).endKeys
    ((s.at (.entity e timeline)).endKeys ∪ s'.stopsWith log' (.entity e timeline))
  start : ∀ slot, IsCoinitialFor (s.startsWith log slot) (s'.startsWith log' slot)
  stop : ∀ e timeline, IsCofinalFor (s.stopsWith log (.entity e timeline))
    (s'.stopsWith log' (.entity e timeline))
  occupied : ∀ e timeline,
    (s'.componentStarts e timeline ∪ log'.timesAt (.entity e timeline)).Nonempty →
    (s.componentStarts e timeline ∪ log.timesAt (.entity e timeline)).Nonempty

variable {env : Env} {s s' s'' : ChunkStore} {log log' log'' : RowLog}

theorem Carries.trans (h : Carries s log s' log') (h' : Carries s' log' s'' log'') :
    Carries s log s'' log'' where
  startKeys slot := by
    intro key hkey
    obtain ⟨t, ht | ht, hle⟩ := h'.startKeys slot hkey
    · obtain ⟨t', ht' | ht', hle'⟩ := h.startKeys slot ⟨Slot.proper_of_le hle hkey.1, ht⟩
      · exact ⟨t', .inl ht', hle'.trans hle⟩
      · obtain ⟨u, hu, hle''⟩ := h'.start slot ht'
        exact ⟨u, .inr hu, hle''.trans (hle'.trans hle)⟩
    · exact ⟨t, .inr ht, hle⟩
  endKeys e timeline := by
    intro key hkey
    obtain ⟨t, ht | ht, hle⟩ := h'.endKeys e timeline hkey
    · obtain ⟨t', ht' | ht', hle'⟩ := h.endKeys e timeline ht
      · exact ⟨t', .inl ht', hle.trans hle'⟩
      · obtain ⟨u, hu, hle''⟩ := h'.stop e timeline ht'
        exact ⟨u, .inr hu, hle.trans (hle'.trans hle'')⟩
    · exact ⟨t, .inr ht, hle⟩
  start slot := (h.start slot).trans (h'.start slot)
  stop e timeline := (h.stop e timeline).trans (h'.stop e timeline)
  occupied e timeline ht := h.occupied e timeline (h'.occupied e timeline ht)

theorem KeysCovered.carries (h : s.KeysCovered log) (hc : Carries s log s' log') :
    s'.KeysCovered log' where
  start e timeline := by
    intro key hkey
    obtain ⟨t, ht | ht, hle⟩ := hc.startKeys (.entity e timeline) ⟨trivial, hkey⟩
    · obtain ⟨u, hu, hle'⟩ := ((h.start e timeline).trans (hc.start _)) ht
      exact ⟨u, hu, hle'.trans hle⟩
    · exact ⟨t, ht, hle⟩
  stop e timeline := by
    intro key hkey
    obtain ⟨t, ht | ht, hle⟩ := hc.endKeys e timeline hkey
    · obtain ⟨u, hu, hle'⟩ := ((h.stop e timeline).trans (hc.stop e timeline)) ht
      exact ⟨u, hu, hle.trans hle'⟩
    · exact ⟨t, ht, hle⟩
  component e timeline := by
    rintro key ⟨hkey, hmax⟩
    obtain ⟨component, hkey⟩ := Set.mem_iUnion.mp hkey
    obtain ⟨t, ht | ht, hle⟩ := hc.startKeys (.component e timeline component) ⟨hmax, hkey⟩
    · obtain ⟨u, hu, hle'⟩ := h.component e timeline
        ⟨Set.mem_iUnion.mpr ⟨component, ht⟩, lt_of_le_of_lt hle hmax⟩
      obtain ⟨component', hu⟩ := Set.mem_iUnion.mp hu
      obtain ⟨v, hv, hle''⟩ := hc.start _ hu
      exact ⟨v, Set.mem_iUnion.mpr ⟨component', hv⟩, hle''.trans (hle'.trans hle)⟩
    · exact ⟨t, Set.mem_iUnion.mpr ⟨component, ht⟩, hle⟩
  max e timeline ht := by
    obtain ⟨t, ht⟩ := h.max e timeline (hc.occupied e timeline ht)
    obtain ⟨component, ht⟩ := Set.mem_iUnion.mp ht
    obtain ⟨u, hu, -⟩ := hc.start _ ht
    exact ⟨u, Set.mem_iUnion.mpr ⟨component, hu⟩⟩

theorem Carries.of_at (h : ∀ slot, s'.at slot = s.at slot) (log : RowLog) :
    Carries s log s' log where
  startKeys slot := .of_subset fun _ hkey => .inl (h slot ▸ hkey.2)
  endKeys e timeline := .of_subset fun _ hkey => .inl (h _ ▸ hkey)
  start slot := .of_subset (by rw [startsWith, startsWith, h])
  stop e timeline := .of_subset (by rw [stopsWith, stopsWith, h])
  occupied e timeline := by simp only [componentStarts, h, imp_self]

theorem Carries.of_at_trans (h : ∀ slot, s'.at slot = s.at slot) (hc : Carries s' log s'' log') :
    Carries s log s'' log' := (Carries.of_at h log).trans hc

theorem Carries.trans_of_at (hc : Carries s log s' log') (h : ∀ slot, s''.at slot = s'.at slot) :
    Carries s log s'' log' := hc.trans (.of_at h log')

theorem keysCovered_new (config : ChunkStoreConfig) : (ChunkStore.new config).KeysCovered 0 where
  start e timeline key hkey := by
    rw [at_new, ChunkIdSetPerTime.startKeys_default] at hkey
    exact hkey.elim
  stop e timeline key hkey := by
    rw [at_new, ChunkIdSetPerTime.endKeys_default] at hkey
    exact hkey.elim
  component e timeline key hkey := by
    obtain ⟨component, hkey⟩ := Set.mem_iUnion.mp hkey.1
    rw [at_new, ChunkIdSetPerTime.startKeys_default] at hkey
    exact hkey.elim
  max e timeline ht := by
    simp only [componentStarts, at_new, ChunkIdSetPerTime.starts_default, Set.iUnion_empty,
      RowLog.timesAt_zero, Set.union_empty, Set.not_nonempty_empty] at ht

theorem startsWith_zero (s : ChunkStore) (slot : Slot) :
    s.startsWith 0 slot = slot.proper ∩ (s.at slot).starts := by
  rw [startsWith, RowLog.timesAt_zero, Set.union_empty]

theorem KeysCovered.timeBoundsExact (h : s.KeysCovered 0) (hr : s.AllRegular) :
    s.TimeBoundsExact := by
  refine timeBoundsExact_of_covered hr (fun e timeline => ?_) (fun e timeline => ?_)
    (fun e timeline => ?_) fun e timeline hsub => ?_
  · refine (h.start e timeline).mono_right ?_
    rw [startsWith_zero]
    exact Set.inter_subset_right
  · have hstop := h.stop e timeline
    rwa [stopsWith, RowLog.timesAt_zero, Set.union_empty] at hstop
  · refine (h.component e timeline).mono_right (Set.iUnion_mono fun component => ?_)
    rw [startsWith_zero]
    exact Set.inter_subset_right
  · by_contra hne
    obtain ⟨t, ht⟩ := h.max e timeline
      ((Set.nonempty_iff_ne_empty.mpr hne).mono Set.subset_union_left)
    obtain ⟨component, ht⟩ := Set.mem_iUnion.mp ht
    rw [startsWith_zero] at ht
    obtain ⟨hlt, ht⟩ := ht
    obtain rfl := hsub (Set.mem_iUnion.mpr ⟨component, ht⟩)
    exact lt_irrefl TimeInt.MAX hlt

-- ---------------------------------------------------------------------------
-- Storing rows
-- ---------------------------------------------------------------------------

theorem startKeys_of_keysGrow {slot : Slot} (h : KeysGrow (s.at slot) (s'.at slot)) (log : RowLog) :
    IsCoinitialFor (slot.proper ∩ (s'.at slot).startKeys)
      ((s.at slot).startKeys ∪ s'.startsWith log slot) :=
  .of_subset fun _ hkey => (h.start hkey.2).imp_right fun ht => ⟨hkey.1, .inl ht⟩

theorem endKeys_of_keysGrow {slot : Slot} (h : KeysGrow (s.at slot) (s'.at slot)) (log : RowLog) :
    IsCofinalFor (s'.at slot).endKeys ((s.at slot).endKeys ∪ s'.stopsWith log slot) :=
  .of_subset fun _ hkey => (h.stop hkey).imp_right .inl

theorem Lists.covers {c : Chunk} (h : s.Lists c) (hw : c.WellFormed) (hst : c.isStatic = false)
    {slot : Slot} (ht : t ∈ c.logged.timesAt slot) (log : RowLog) :
    (t ∈ slot.proper → ∃ u ∈ s.startsWith log slot, u ≤ t) ∧ ∃ u ∈ s.stopsWith log slot, t ≤ u := by
  obtain ⟨range, hr, hin⟩ := Chunk.rangeAt_of_mem_timesAt hw hst ht
  obtain ⟨hmin, hmax⟩ := AbsoluteTimeRange.contains_iff.mp hin
  have hlisted := h slot range hr
  exact ⟨fun hp => ⟨range.min, ⟨Slot.proper_of_le hmin hp, .inl ⟨c.id, hlisted.start⟩⟩, hmin⟩,
    range.max, .inl ⟨c.id, hlisted.stop⟩, hmax⟩

theorem carries_insertIntoIndices (env : Env) (s : ChunkStore) {c : Chunk} (h : c.Storable)
    (hst : c.isStatic = false) (log : RowLog) :
    Carries s (c.logged + log) (s.insertIntoIndices env c) log := by
  have hlists := lists_insertIntoIndices env s h.wellFormed
  have hat := fun slot => at_insertIntoIndices env h.wellFormed s slot
  have hstarts : ∀ slot, (s.at slot).starts ⊆ ((s.insertIntoIndices env c).at slot).starts := by
    rintro slot t ⟨cid, hm⟩
    refine ⟨cid, ?_⟩
    rw [hat]
    cases c.rangeAt slot with
    | none => exact hm
    | some range => exact ChunkIdSetPerTime.mem_startIds_insertRange.mpr (.inr hm)
  have hstops : ∀ slot, (s.at slot).stops ⊆ ((s.insertIntoIndices env c).at slot).stops := by
    rintro slot t ⟨cid, hm⟩
    refine ⟨cid, ?_⟩
    rw [hat]
    cases c.rangeAt slot with
    | none => exact hm
    | some range => exact ChunkIdSetPerTime.mem_endIds_insertRange.mpr (.inr hm)
  refine ⟨fun slot => startKeys_of_keysGrow (keysGrow_insertIntoIndices env s h slot) log,
    fun e timeline => endKeys_of_keysGrow (keysGrow_insertIntoIndices env s h _) log,
    fun slot => ?_, fun e timeline => ?_, fun e timeline => ?_⟩
  · rintro t ⟨hp, ht | ht⟩
    · exact ⟨t, ⟨hp, .inl (hstarts slot ht)⟩, le_rfl⟩
    · rw [RowLog.timesAt_add] at ht
      rcases ht with ht | ht
      · exact (hlists.covers h.wellFormed hst ht log).1 hp
      · exact ⟨t, ⟨hp, .inr ht⟩, le_rfl⟩
  · rintro t (ht | ht)
    · exact ⟨t, .inl (hstops _ ht), le_rfl⟩
    · rw [RowLog.timesAt_add] at ht
      rcases ht with ht | ht
      · exact (hlists.covers h.wellFormed hst ht log).2
      · exact ⟨t, .inr ht, le_rfl⟩
  · rw [RowLog.timesAt_add]
    rintro ⟨t, ht | ht⟩
    · obtain ⟨component, cid, hm⟩ := Set.mem_iUnion.mp ht
      rw [hat] at hm
      cases hr : c.rangeAt (.component e timeline component) with
      | none =>
        rw [hr] at hm
        exact ⟨t, .inl (Set.mem_iUnion.mpr ⟨component, cid, hm⟩)⟩
      | some range =>
        obtain ⟨u, hu⟩ := Chunk.nonempty_timesAt_of_rangeAt h hr
        exact ⟨u, .inr (.inl hu)⟩
    · exact ⟨t, .inr (.inr ht)⟩

theorem mem_startIds_removeChunksDeep {chunks : List Chunk} (hw : ∀ c ∈ chunks, c.WellFormed)
    {reason : ChunkDeletionReason} {exhausted : Nat → Bool} {slot : Slot} {cid : ChunkId} :
    cid ∈ ((s.removeChunksDeep env reason exhausted chunks).1.at slot).startIds t ↔
      cid ∈ (s.at slot).startIds t ∧
        ∀ c ∈ chunks, c.id = cid → ∀ range, c.rangeAt slot = some range → range.min ≠ t := by
  rw [removeChunksDeep, mem_startIds_sweepIndices hw,
    (removeChunksShallow_sameIndices env reason s exhausted chunks).at_eq]

theorem mem_endIds_removeChunksDeep {chunks : List Chunk} (hw : ∀ c ∈ chunks, c.WellFormed)
    {reason : ChunkDeletionReason} {exhausted : Nat → Bool} {slot : Slot} {cid : ChunkId} :
    cid ∈ ((s.removeChunksDeep env reason exhausted chunks).1.at slot).endIds t ↔
      cid ∈ (s.at slot).endIds t ∧
        ∀ c ∈ chunks, c.id = cid → ∀ range, c.rangeAt slot = some range → range.max ≠ t := by
  rw [removeChunksDeep, mem_endIds_sweepIndices hw,
    (removeChunksShallow_sameIndices env reason s exhausted chunks).at_eq]

/-- A chunk goes while another one is listed that has its rows. -/
theorem carries_removeChunksDeep (env : Env) (reason : ChunkDeletionReason) (log : RowLog)
    {c d : Chunk} (hc : c.Storable) (hd : d.WellFormed) (hst : d.isStatic = false)
    (hlists : s.Lists d) (hne : d.id ≠ c.id) (hrows : c.logged ≤ d.logged) :
    Carries s log (s.removeChunksDeep env reason unlimited [c]).1 log := by
  have hws : ∀ e ∈ [c], e.WellFormed := fun e he => List.mem_singleton.mp he ▸ hc.wellFormed
  have hstays : (s.removeChunksDeep env reason unlimited [c]).1.Lists d :=
    hlists.removeChunksDeep hws (fun hm => hne (List.mem_singleton.mp hm)) reason unlimited
  have hkeys := fun slot => keys_removeChunksDeep env reason s unlimited hws slot
  refine ⟨fun slot => .of_subset fun key hkey => .inl ((hkeys slot).1 ▸ hkey.2),
    fun e timeline => .of_subset fun key hkey => .inl ((hkeys _).2 ▸ hkey), fun slot => ?_,
    fun e timeline => ?_, fun e timeline => Set.Nonempty.mono ?_⟩
  · rintro t ⟨hp, ⟨cid, hm⟩ | ht⟩
    · by_cases hgone : ∃ range, c.id = cid ∧ c.rangeAt slot = some range ∧ range.min = t
      · obtain ⟨range, rfl, hr, rfl⟩ := hgone
        have hmem := RowLog.timesAt_mono hrows slot (Chunk.mem_timesAt_of_rangeAt hc hr hp)
        exact (hstays.covers hd hst hmem log).1 hp
      · refine ⟨t, ⟨hp, .inl ⟨cid, (mem_startIds_removeChunksDeep hws).mpr ⟨hm, ?_⟩⟩⟩, le_rfl⟩
        exact List.forall_mem_singleton.mpr fun hid range hr he => hgone ⟨range, hid, hr, he⟩
    · exact ⟨t, ⟨hp, .inr ht⟩, le_rfl⟩
  · rintro t (⟨cid, hm⟩ | ht)
    · by_cases hgone : ∃ range, c.id = cid ∧ c.rangeAt (.entity e timeline) = some range ∧
          range.max = t
      · obtain ⟨range, rfl, hr, rfl⟩ := hgone
        have hmem := RowLog.timesAt_mono hrows _ (Chunk.mem_timesAt_of_rangeAt_entity hc
          (c.isStatic_eq_false_of_rangeAt hr) hr).2
        exact (hstays.covers hd hst hmem log).2
      · refine ⟨t, .inl ⟨cid, (mem_endIds_removeChunksDeep hws).mpr ⟨hm, ?_⟩⟩, le_rfl⟩
        exact List.forall_mem_singleton.mpr fun hid range hr he => hgone ⟨range, hid, hr, he⟩
    · exact ⟨t, .inr ht, le_rfl⟩
  · refine Set.union_subset_union_left _ (Set.iUnion_mono fun component => ?_)
    rintro t ⟨cid, hm⟩
    exact ⟨cid, ((mem_startIds_removeChunksDeep hws).mp hm).1⟩

theorem carries_compactInto {pol : Policy} (h : Core env pol s) {c elected compacted : Chunk}
    (hc : c.Storable) (hcomp : Compacts env s n c elected compacted)
    (hconcat : Chunk.IsConcat elected c compacted) (log : RowLog) :
    Carries s (c.logged + log) ({ s with issued := n }.compactInto env c elected compacted).1
      log := by
  have hel := h.storable hcomp.physical
  have hs := hcomp.storable hc
  have hst : compacted.isStatic = false := by
    rw [hconcat.isStatic_eq.1, Chunk.isStatic_eq_of_columnTypes hconcat.concatenable.1]
    exact hcomp.temporal
  have hne : compacted.id ≠ elected.id := fun he =>
    h.mentions (.physical hcomp.physical) (he ▸ DrawnIn.future hcomp.drawn)
  have hlogged := hconcat.logged
  -- The rows of both chunks are stored, those of the elected one once more.
  have hmore : Carries s (c.logged + log) { s with issued := n } (compacted.logged + log) := by
    have hat : ∀ slot, ({ s with issued := n } : ChunkStore).at slot = s.at slot :=
      fun slot => by cases slot <;> rfl
    have hle : c.logged ≤ compacted.logged := hlogged ▸ le_add_of_nonneg_left (Multiset.zero_le _)
    have hsub : ∀ slot, RowLog.timesAt (c.logged + log) slot ⊆
        RowLog.timesAt (compacted.logged + log) slot :=
      RowLog.timesAt_mono (add_le_add_left hle _)
    refine ⟨fun slot => .of_subset fun key hkey => .inl (hat slot ▸ hkey.2),
      fun e timeline => .of_subset fun key hkey => .inl (hat _ ▸ hkey), fun slot => .of_subset ?_,
      fun e timeline => .of_subset ?_, fun e timeline => ?_⟩
    · rw [startsWith, startsWith, hat]
      exact Set.inter_subset_inter_right _ (Set.union_subset_union_right _ (hsub slot))
    · rw [stopsWith, stopsWith, hat]
      exact Set.union_subset_union_right _ (hsub _)
    · simp only [componentStarts, hat, RowLog.timesAt_add]
      rintro ⟨t, ht | ht | ht⟩
      · exact ⟨t, .inl ht⟩
      · obtain ⟨range, hr, -⟩ := Chunk.rangeAt_of_mem_timesAt hs.wellFormed hst ht
        have hsome := Chunk.isSome_rangeAt_entity
          (hconcat.entityPath.trans hconcat.concatenable.2)
          (hconcat.columnTypes.trans hconcat.concatenable.1) e timeline
        rw [hr, eq_comm] at hsome
        obtain ⟨range, hr⟩ := Option.isSome_iff_exists.mp hsome
        exact ⟨_, .inr (.inl (Chunk.mem_timesAt_of_rangeAt_entity hc hcomp.temporal hr).1)⟩
      · exact ⟨t, .inr (.inr ht)⟩
  have hindexed := carries_insertIntoIndices env { s with issued := n } hs hst log
  have hremoved := carries_removeChunksDeep env .compaction log hel hs.wellFormed hst
    (lists_insertIntoIndices env { s with issued := n } hs.wellFormed) hne
    (hlogged ▸ le_add_of_nonneg_right (Multiset.zero_le _))
  rw [compactInto_eq]
  exact (hmore.trans hindexed).trans (hremoved.trans_of_at fun slot => by cases slot <;> rfl)

theorem carries_storePieces (env : Env) (c : Chunk) (pieces : List Chunk) {rest : List Chunk}
    (hp : ∀ p ∈ rest, PieceOk c p) (s : ChunkStore) (log : RowLog) :
    Carries s ((rest.map Chunk.logged).sum + log) (rest.foldl (storePiece env c pieces) s) log := by
  induction rest generalizing s with
  | nil =>
    rw [List.map_nil, List.sum_nil, zero_add]
    exact .of_at (fun _ => rfl) log
  | cons p rest ih =>
    have hpo := hp p List.mem_cons_self
    have hrest := ih (fun q hq => hp q (List.mem_cons_of_mem _ hq)) (storePiece env c pieces s p)
    have hone : Carries s (p.logged + ((rest.map Chunk.logged).sum + log))
        (storePiece env c pieces s p) ((rest.map Chunk.logged).sum + log) :=
      Carries.of_at_trans (fun slot => by cases slot <;> rfl)
        ((carries_insertIntoIndices env _ hpo.storable hpo.temporal _).trans_of_at
          (at_insertPhysical _ p))
    rw [List.map_cons, List.sum_cons, add_assoc]
    exact hone.trans hrest

variable {pol : Policy} {types : EntityPath → TimelineName → Timeline}

/-- After its insertion a chunk is stored, and all stored chunks have components. -/
structure Stores (s : ChunkStore) (c : Chunk) (s' : ChunkStore) : Prop where
  carries : ∀ log, Carries s (c.logged + log) s' log
  populated : s'.Populated

theorem populated_insertPhysical (h : s.Populated) {c : Chunk} (hc : c.components ≠ []) :
    (s.insertPhysical c).Populated := by
  intro key d hd
  rw [insertPhysical_physical] at hd
  split at hd
  · cases hd
    exact hc
  · exact h key d hd

theorem stores_storeWhole {c : Chunk} (h : Core env pol s) (hc : c.Storable)
    (hcomp : c.components ≠ []) (hpop : s.Populated) (ht : HasTypes types c)
    (hts : ∀ d, s.Physical d → HasTypes types d) :
    Stores s c (s.storeWhole env c .volatile).1 := by
  cases hst : c.isStatic with
  | true =>
    obtain ⟨hl, hp⟩ := storeStatic_frame env { s with insertId := s.insertId + 1 } c .volatile
    have he : (s.storeWhole env c .volatile).1 =
        (({ s with insertId := s.insertId + 1 }.storeStatic env c .volatile).1).insertPhysical c := by
      rw [storeWhole, hst]
      rfl
    rw [he]
    refine ⟨fun log => ?_, populated_insertPhysical (Populated.of_sub hpop hp) hcomp⟩
    have hnone : c.logged = 0 := by rw [Chunk.logged, hst, if_pos rfl]
    rw [hnone, zero_add]
    refine .of_at (fun slot => ?_) log
    rw [at_insertPhysical, hl.at_eq]
    cases slot <;> rfl
  | false =>
    have hat : ∀ slot, ({ s with insertId := s.insertId + 1 } : ChunkStore).at slot = s.at slot :=
      fun slot => by cases slot <;> rfl
    rcases storeWhole_cases h hc hcomp hst hpop ht hts .volatile with
      he | ⟨n, elected, compacted, hcompacts, hconcat, hne, he⟩ <;> rw [he]
    · exact ⟨fun log => Carries.of_at_trans hat
        ((carries_insertIntoIndices env _ hc hst log).trans_of_at (at_insertPhysical _ c)),
        populated_insertPhysical hpop hcomp⟩
    · refine ⟨fun log => Carries.of_at_trans hat
        ((carries_compactInto h.nextInsert hc hcompacts hconcat log).trans_of_at
          (at_insertPhysical _ compacted)), populated_insertPhysical (fun key d hd => ?_) hne⟩
      rw [compactInto_eq] at hd
      have hget := (replaceElected_physical env
        { s with insertId := s.insertId + 1, issued := n } elected compacted key).symm.trans hd
      split at hget
      · cases hget
      · exact hpop key d hget

theorem stores_insertChunk {c : Chunk} (h : Core env pol s) (hw : c.WellFormed)
    (hroot : s.isRootChunk c.id = true) (hr : s.refusal c = none) (hf : ¬ env.Future s.issued c.id)
    (hpop : s.Populated) (ht : HasTypes types c) (hts : ∀ d, s.Physical d → HasTypes types d) :
    Stores (s.prepare env c .volatile).1 c (s.insertChunk env c).1 := by
  obtain ⟨hne, hcomp, hphys, hsorted, -⟩ := refusal_eq_none.mp hr
  have hc : c.Storable := ⟨hw, hsorted, hne⟩
  have hcore := h.prepare hw hphys hf .volatile
  have hsub := (prepare_prepared env s c .volatile).physicalSub
  have hwhole : ∀ n, (s.prepare env c .volatile).1.issued ≤ n →
      Stores (s.prepare env c .volatile).1 c
        ({ (s.prepare env c .volatile).1 with issued := n }.storeWhole env c .volatile).1 := by
    intro n hn
    have hstores := stores_storeWhole (hcore.draw hn) hc hcomp (Populated.of_sub hpop hsub) ht
      fun d hd => hts d (hsub.some hd)
    exact ⟨fun log => Carries.of_at_trans (fun slot => by cases slot <;> rfl)
      (hstores.carries log), hstores.populated⟩
  cases hst : c.isStatic with
  | true =>
    have he : s.insertChunk env c = s.insertChunkImpl env 1 c .volatile := by
      rw [insertChunk, hroot]
      rfl
    rw [he, insertChunkImpl_whole hr 1 .volatile rfl (splitChunks_whole (.inl hst))
      (Nat.lt_irrefl 1) rfl]
    exact hwhole _ le_rfl
  | false =>
    rcases insertChunk_root_cases h hw hroot hr hst hf with
      ⟨n, hn, he⟩ | ⟨n, pieces, s0, rfl, -, hrows, hok, hnodup, -, he⟩ <;> rw [he]
    · exact hwhole n hn
    · have hsum : (pieces.map Chunk.logged).sum = c.logged := by
        rw [Chunk.sum_logged fun p hp => ⟨(hok p hp).shape.1, (hok p hp).temporal⟩, hrows,
          Chunk.logged_of_temporal hst]
      refine ⟨fun log => ?_, fun key d hd => ?_⟩
      · rw [← hsum]
        exact Carries.of_at_trans (fun slot => by cases slot <;> rfl)
          (carries_storePieces env c pieces hok _ log)
      · rcases (storePieces_physical c pieces hnodup _ key d).mp hd with ⟨hm, -⟩ | ⟨-, hd⟩
        · exact (hok d hm).components_ne
        · exact hpop key d (hsub.some hd)

theorem stores_reinsertChunks (htypes : ∀ c, pol.chunk c → HasTypes types c) {news : List Chunk}
    (hn : (news.map (·.id)).Nodup) (h : Core env pol s) (hpop : s.Populated)
    (hnews : ∀ c ∈ news, Leftover env pol s c) :
    Carries s (news.map Chunk.logged).sum (s.reinsertChunks env news).1 0 ∧
      (s.reinsertChunks env news).1.Populated := by
  induction news generalizing s with
  | nil => exact ⟨.of_at (fun _ => rfl) 0, hpop⟩
  | cons c rest ih =>
    rw [List.map_cons, List.nodup_cons] at hn
    generalize hq : c.sortIfUnsorted env.newId s.issued = q
    obtain ⟨c', n⟩ := q
    obtain ⟨hfresh, hacc, hlogged, hdrawn, hcore, hrest⟩ :=
      (hnews c List.mem_cons_self).reinserted h hq
    have hstores := stores_insertChunk hdrawn hfresh.wellFormed (isRootChunk_of_unused hacc.toUnused)
      hacc.refusal hfresh.issued hpop (htypes _ hfresh.allowed) fun d hd => htypes _ (hdrawn.allowed hd)
    rw [prepare_of_unused env hacc.toUnused] at hstores
    obtain ⟨hcarries, hpop'⟩ := ih hn.2 hcore hstores.populated fun d hd =>
      hrest d (fun he => hn.1 (he ▸ List.mem_map_of_mem hd)) (hnews d (List.mem_cons_of_mem _ hd))
    rw [reinsertChunks]
    simp only [hq]
    refine ⟨Carries.trans ?_ hcarries, hpop'⟩
    rw [List.map_cons, List.sum_cons, ← hlogged]
    exact Carries.of_at_trans (fun slot => by cases slot <;> rfl) (hstores.carries _)

end ChunkStore

end DimosViewer
