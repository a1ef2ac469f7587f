import DimosViewer.Store.CoveredKeys

/-!
# Bounds in runs

A deep removal leaves the keys of what it takes out of the indices. The bounds stay exact in the
runs whose removals leave something that starts as early and something that ends as late, be it
listed already or among the rows that the operation stores.
-/

namespace DimosViewer

open Reach (Reachable)
open Std (TreeSet)

namespace ChunkStore

variable {env : Env} {pol : Policy} {types : EntityPath → TimelineName → Timeline}
  {s s' s'' : ChunkStore} {log : RowLog}

-- ---------------------------------------------------------------------------
-- Removals that spare the bounds
-- ---------------------------------------------------------------------------

/-- The starts that are listed for more than the ranges of the chunks that go. -/
def keptStarts (s : ChunkStore) (gone : List Chunk) (slot : Slot) : Set TimeInt :=
  {t | ∃ cid ∈ (s.at slot).startIds t,
    ∀ c ∈ gone, c.id = cid → ∀ range, c.rangeAt slot = some range → range.min ≠ t}

def keptStops (s : ChunkStore) (gone : List Chunk) (slot : Slot) : Set TimeInt :=
  {t | ∃ cid ∈ (s.at slot).endIds t,
    ∀ c ∈ gone, c.id = cid → ∀ range, c.rangeAt slot = some range → range.max ≠ t}

/-- When some chunks leave the indices and rows are stored: no start lies before all that stays and
all that is stored, no end behind it, and not all component starts are `MAX`. -/
structure Spares (s : ChunkStore) (gone : List Chunk) (log : RowLog) : Prop where
  start : ∀ e timeline, IsCoinitialFor (s.at (.entity e timeline)).starts
    (s.keptStarts gone (.entity e timeline) ∪ log.timesAt (.entity e timeline))
  stop : ∀ e timeline, IsCofinalFor (s.at (.entity e timeline)).stops
    (s.keptStops gone (.entity e timeline) ∪ log.timesAt (.entity e timeline))
  component : ∀ e timeline, IsCoinitialFor (s.componentStarts e timeline ∩ Set.Iio .MAX)
    (⋃ component, s.keptStarts gone (.component e timeline component) ∪
      log.timesAt (.component e timeline component))
  max : ∀ e timeline, ((⋃ component, s.keptStarts gone (.component e timeline component)) ∪
      log.timesAt (.entity e timeline)).Nonempty →
    ∃ t < TimeInt.MAX, ∃ component, t ∈ s.keptStarts gone (.component e timeline component) ∪
      log.timesAt (.component e timeline component)

structure Removed (s : ChunkStore) (gone : List Chunk) (s' : ChunkStore) : Prop where
  startKeys : ∀ slot, (s'.at slot).startKeys = (s.at slot).startKeys
  endKeys : ∀ slot, (s'.at slot).endKeys = (s.at slot).endKeys
  start : ∀ slot t cid, cid ∈ (s'.at slot).startIds t ↔ cid ∈ (s.at slot).startIds t ∧
    ∀ c ∈ gone, c.id = cid → ∀ range, c.rangeAt slot = some range → range.min ≠ t
  stop : ∀ slot t cid, cid ∈ (s'.at slot).endIds t ↔ cid ∈ (s.at slot).endIds t ∧
    ∀ c ∈ gone, c.id = cid → ∀ range, c.rangeAt slot = some range → range.max ≠ t

theorem Removed.of_at (h : ∀ slot, s'.at slot = s.at slot) : Removed s [] s' where
  startKeys slot := by rw [h]
  endKeys slot := by rw [h]
  start slot t cid := by simp [h]
  stop slot t cid := by simp [h]

theorem Removed.append {gone gone' : List Chunk} (h : Removed s gone s')
    (h' : Removed s' gone' s'') : Removed s (gone ++ gone') s'' where
  startKeys slot := (h'.startKeys slot).trans (h.startKeys slot)
  endKeys slot := (h'.endKeys slot).trans (h.endKeys slot)
  start slot t cid := by rw [h'.start, h.start, List.forall_mem_append, and_assoc]
  stop slot t cid := by rw [h'.stop, h.stop, List.forall_mem_append, and_assoc]

theorem Removed.of_at_removed {gone : List Chunk} (h : ∀ slot, s'.at slot = s.at slot)
    (h' : Removed s' gone s'') : Removed s gone s'' := (Removed.of_at h).append h'

theorem Removed.removed_of_at {gone : List Chunk} (h : Removed s gone s')
    (h' : ∀ slot, s''.at slot = s'.at slot) : Removed s gone s'' :=
  List.append_nil gone ▸ h.append (.of_at h')

theorem removed_removeChunksDeep (env : Env) (reason : ChunkDeletionReason)
    (exhausted : Nat → Bool) (s : ChunkStore) {gone : List Chunk}
    (hw : ∀ c ∈ gone, c.WellFormed) :
    Removed s gone (s.removeChunksDeep env reason exhausted gone).1 where
  startKeys slot := (keys_removeChunksDeep env reason s exhausted hw slot).1
  endKeys slot := (keys_removeChunksDeep env reason s exhausted hw slot).2
  start _ _ _ := mem_startIds_removeChunksDeep hw
  stop _ _ _ := mem_endIds_removeChunksDeep hw

/-- A removal that spares the bounds. The chunks `back` go too, but their rows are stored again. -/
theorem KeysCovered.removed (back : List Chunk) {gone : List Chunk} (h : s.KeysCovered 0)
    (hs : s.Spares gone log) (hr : Removed s (back ++ gone) s')
    (hback : ∀ c ∈ back, c.Storable ∧ c.logged ≤ log) : s'.KeysCovered log := by
  have hstart : ∀ slot, slot.proper ∩ (s.keptStarts gone slot ∪ log.timesAt slot) ⊆
      s'.startsWith log slot := by
    rintro slot t ⟨hp, ⟨cid, hm, hkept⟩ | ht⟩
    · by_cases hgone : ∃ c ∈ back, ∃ range, c.rangeAt slot = some range ∧ range.min = t
      · obtain ⟨c, hc, range, hrange, rfl⟩ := hgone
        obtain ⟨hstorable, hle⟩ := hback c hc
        exact ⟨hp, .inr (RowLog.timesAt_mono hle slot
          (Chunk.mem_timesAt_of_rangeAt hstorable hrange hp))⟩
      · refine ⟨hp, .inl ⟨cid, (hr.start slot t cid).mpr ⟨hm, ?_⟩⟩⟩
        refine List.forall_mem_append.mpr ⟨fun c hc _ range hrange he => ?_, hkept⟩
        exact hgone ⟨c, hc, range, hrange, he⟩
    · exact ⟨hp, .inr ht⟩
  have hstop : ∀ e timeline, s.keptStops gone (.entity e timeline) ∪
      log.timesAt (.entity e timeline) ⊆ s'.stopsWith log (.entity e timeline) := by
    rintro e timeline t (⟨cid, hm, hkept⟩ | ht)
    · by_cases hgone : ∃ c ∈ back, ∃ range, c.rangeAt (.entity e timeline) = some range ∧
          range.max = t
      · obtain ⟨c, hc, range, hrange, rfl⟩ := hgone
        obtain ⟨hstorable, hle⟩ := hback c hc
        exact .inr (RowLog.timesAt_mono hle _ (Chunk.mem_timesAt_of_rangeAt_entity hstorable
          (c.isStatic_eq_false_of_rangeAt hrange) hrange).2)
      · refine .inl ⟨cid, (hr.stop _ t cid).mpr ⟨hm, ?_⟩⟩
        refine List.forall_mem_append.mpr ⟨fun c hc _ range hrange he => ?_, hkept⟩
        exact hgone ⟨c, hc, range, hrange, he⟩
    · exact .inr ht
  have hkept : ∀ slot, (s'.at slot).starts ⊆ s.keptStarts gone slot := by
    rintro slot t ⟨cid, hm⟩
    obtain ⟨hm, hnot⟩ := (hr.start slot t cid).mp hm
    exact ⟨cid, hm, fun c hc => hnot c (List.mem_append_right _ hc)⟩
  refine ⟨fun e timeline => ?_, fun e timeline => ?_, fun e timeline => ?_, fun e timeline ht => ?_⟩
  · rw [hr.startKeys]
    refine ((h.start e timeline).trans ?_).trans ((hs.start e timeline).mono_right ?_)
    · rw [startsWith_zero]
      exact .of_subset Set.inter_subset_right
    · exact fun t ht => hstart _ ⟨trivial, ht⟩
  · rw [hr.endKeys]
    refine ((h.stop e timeline).trans ?_).trans ((hs.stop e timeline).mono_right (hstop e timeline))
    rw [stopsWith, RowLog.timesAt_zero, Set.union_empty]
  · rintro key ⟨hkey, hmax⟩
    have hkey : key ∈ s.componentStartKeys e timeline := by
      simpa only [componentStartKeys, hr.startKeys] using hkey
    obtain ⟨t, ht, hle⟩ := h.component e timeline ⟨hkey, hmax⟩
    obtain ⟨component, ht⟩ := Set.mem_iUnion.mp ht
    rw [startsWith_zero] at ht
    obtain ⟨u, hu, hle'⟩ := hs.component e timeline ⟨Set.mem_iUnion.mpr ⟨component, ht.2⟩, ht.1⟩
    obtain ⟨component', hu⟩ := Set.mem_iUnion.mp hu
    have hp : u ∈ (Slot.component e timeline component').proper := lt_of_le_of_lt hle' ht.1
    exact ⟨u, Set.mem_iUnion.mpr ⟨component', hstart _ ⟨hp, hu⟩⟩, hle'.trans hle⟩
  · obtain ⟨t, hlt, component, hm⟩ := hs.max e timeline
      (ht.mono (Set.union_subset_union_left _ (Set.iUnion_mono fun component => hkept _)))
    exact ⟨t, Set.mem_iUnion.mpr ⟨component, hstart _ ⟨hlt, hm⟩⟩⟩

/-- The bounds are spared if each chunk that goes leaves another that starts as early and another
that ends as late. -/
theorem KeysCovered.spares_of_outlasted {gone : List Chunk} (h : s.KeysCovered 0) (hlog : log.Finite)
    (hgone : ∀ c ∈ gone, ∀ slot range, c.rangeAt slot = some range →
      (∃ t ∈ s.keptStarts gone slot, t ≤ range.min) ∧ ∃ t ∈ s.keptStops gone slot, range.max ≤ t) :
    s.Spares gone log := by
  have hstart : ∀ slot, IsCoinitialFor (s.at slot).starts (s.keptStarts gone slot) := by
    rintro slot t ⟨cid, hm⟩
    by_cases hkept : ∀ c ∈ gone, c.id = cid → ∀ range, c.rangeAt slot = some range → range.min ≠ t
    · exact ⟨t, ⟨cid, hm, hkept⟩, le_rfl⟩
    · push Not at hkept
      obtain ⟨c, hc, -, range, hr, rfl⟩ := hkept
      exact (hgone c hc slot range hr).1
  have hstop : ∀ slot, IsCofinalFor (s.at slot).stops (s.keptStops gone slot) := by
    rintro slot t ⟨cid, hm⟩
    by_cases hkept : ∀ c ∈ gone, c.id = cid → ∀ range, c.rangeAt slot = some range → range.max ≠ t
    · exact ⟨t, ⟨cid, hm, hkept⟩, le_rfl⟩
    · push Not at hkept
      obtain ⟨c, hc, -, range, hr, rfl⟩ := hkept
      exact (hgone c hc slot range hr).2
  refine ⟨fun e timeline => (hstart _).mono_right Set.subset_union_left,
    fun e timeline => (hstop _).mono_right Set.subset_union_left, ?_, ?_⟩
  · rintro e timeline t ⟨ht, -⟩
    obtain ⟨component, ht⟩ := Set.mem_iUnion.mp ht
    obtain ⟨u, hu, hle⟩ := hstart _ ht
    exact ⟨u, Set.mem_iUnion.mpr ⟨component, .inl hu⟩, hle⟩
  · rintro e timeline ⟨t, ht | ⟨row, hm, ht⟩⟩
    · obtain ⟨component, cid, hm, -⟩ := Set.mem_iUnion.mp ht
      obtain ⟨u, hu⟩ := h.max e timeline ⟨t, .inl (Set.mem_iUnion.mpr ⟨component, cid, hm⟩)⟩
      obtain ⟨component', hu⟩ := Set.mem_iUnion.mp hu
      rw [startsWith_zero] at hu
      obtain ⟨v, hv, hle⟩ := hstart _ hu.2
      exact ⟨v, lt_of_le_of_lt hle hu.1, component', .inl hv⟩
    · obtain ⟨⟨component, hcell⟩, htimes⟩ := hlog _ hm
      obtain ⟨time, hrow, rfl⟩ := Option.map_eq_some_iff.mp ht
      refine ⟨time.2, htimes _ _ hrow, component, .inr ⟨row, hm, ?_⟩⟩
      rw [RowData.timeIn, if_pos hcell]
      exact ht

-- ---------------------------------------------------------------------------
-- Operations
-- ---------------------------------------------------------------------------

def danglingChunks (s : ChunkStore) (cid : ChunkId) : List Chunk :=
  (s.danglingSplits[cid]?.getD []).filterMap (s.physicalChunksPerChunkId[·]?)

def chunksWithin (s : ChunkStore) (timeline : TimelineName) (dropRange : AbsoluteTimeRange) :
    List Chunk :=
  s.physicalChunksPerChunkId.values.filter fun c => c.rows.any (·.within timeline dropRange)

/-- An insertion, a garbage collection or a drop of a time range that spares the bounds. -/
def Op.Spares (env : Env) (s : ChunkStore) : Op → Prop
  | .insertChunk c => s.isRootChunk c.id = true → s.refusal c = none →
    s.Spares (s.danglingChunks c.id) c.logged
  | .insertRrdManifest _ => False
  | .gc options clock => s.Spares (s.gcCandidates env options clock).1 0
  | .dropTimeRange timeline dropRange deepRemoval _ =>
    s.Spares (if deepRemoval then s.chunksWithin timeline dropRange else [])
      (outside timeline dropRange ((s.chunksWithin timeline dropRange).map Chunk.logged).sum)
  | .dropEntityPath _ => False

theorem removed_prepare {c : Chunk} (h : Core env pol s) (hw : c.WellFormed)
    (hphys : s.physicalChunksPerChunkId[c.id]? = none) (lineage : ChunkDirectLineageReport) :
    ∃ back, (∀ d ∈ back, d = c) ∧
      Removed s (back ++ s.danglingChunks c.id) (s.prepare env c lineage).1 := by
  have hc : ∀ d ∈ [c], d = c := fun d hd => List.mem_singleton.mp hd
  obtain ⟨hl, -⟩ := replaceVirtual_frame env s c
  have hfirst : ∃ back, (∀ d ∈ back, d = c) ∧ Removed s back (s.replaceVirtual env c).1 ∧
      ∀ key : ChunkId, (s.replaceVirtual env c).1.physicalChunksPerChunkId[key]? =
        s.physicalChunksPerChunkId[key]? := by
    rcases replaceVirtual_eq env s c with he | he <;> rw [he]
    · exact ⟨[], List.forall_mem_nil _, .of_at fun _ => rfl, fun _ => rfl⟩
    · refine ⟨[c], hc, removed_removeChunksDeep _ _ _ _ fun d hd => hc d hd ▸ hw, fun key => ?_⟩
      have hget := removeChunksShallow_unlimited env .virtualToPhysicalReplacement s [c] key
      rw [removeChunksDeep, (sweepIndices_samePhysical _ _ _).physical, hget]
      split
      case isTrue hm =>
        rw [List.map_singleton, List.mem_singleton] at hm
        rw [hm, hphys]
      case isFalse => rfl
  obtain ⟨back, hback, hremoved, hget⟩ := hfirst
  have hdangling : s.danglingChunks c.id = (s.replaceVirtual env c).1.danglingChunks c.id := by
    simp only [danglingChunks, hl.danglingSplits, hget]
  have hclean : Removed (s.replaceVirtual env c).1 (s.danglingChunks c.id)
      ((s.replaceVirtual env c).1.cleanUpDanglingSplits env c).1 := by
    rw [hdangling, danglingChunks, cleanUpDanglingSplits]
    cases (s.replaceVirtual env c).1.danglingSplits[c.id]? with
    | none => exact .of_at fun _ => rfl
    | some ids =>
      refine .of_at_removed (fun slot => by cases slot <;> rfl)
        (removed_removeChunksDeep _ _ _ _ fun d hd => ?_)
      obtain ⟨key, -, hd⟩ := List.mem_filterMap.mp hd
      exact (h.storable (hget key ▸ hd)).wellFormed
  exact ⟨back, hback, (hremoved.append hclean).removed_of_at fun slot => by cases slot <;> rfl⟩

theorem removed_gc (h : Core env pol s) (options : GarbageCollectionOptions) (clock : GcClock) :
    Removed s (s.gcCandidates env options clock).1 (s.gc env options clock).1 := by
  obtain ⟨hcandidates, -⟩ := gcCandidates_spec env h.keyed options clock
  rw [(gc_eq env s options clock).1]
  refine .of_at_removed (removeChunksShallow_sameIndices _ _ _ _ _).at_eq
    (removed_removeChunksDeep _ _ _ _ fun c hc => ?_)
  exact (h.storable (hcandidates c (List.mem_append_left _ hc)).1).wellFormed

theorem removed_dropChunks (deepRemoval : Bool) (reason : ChunkDeletionReason) (s : ChunkStore)
    {chunks : List Chunk} (hw : ∀ c ∈ chunks, c.WellFormed) :
    Removed s (if deepRemoval then chunks else [])
      (s.dropChunks env deepRemoval reason chunks).1 := by
  induction chunks generalizing s with
  | nil =>
    rw [ite_self]
    exact .of_at fun _ => rfl
  | cons c rest ih =>
    have hrest := fun s => ih s fun d hd => hw d (List.mem_cons_of_mem _ hd)
    rw [dropChunks]
    cases deepRemoval with
    | false =>
      exact .of_at_removed (removeChunksShallow_sameIndices env reason s unlimited [c]).at_eq
        (hrest _)
    | true =>
      have hone := removed_removeChunksDeep env reason unlimited s fun d hd =>
        List.mem_singleton.mp hd ▸ hw c List.mem_cons_self
      exact hone.append (hrest _)

-- ---------------------------------------------------------------------------
-- Runs
-- ---------------------------------------------------------------------------

def Policy.unannouncedTyped (types : EntityPath → TimelineName → Timeline) : Policy :=
  { Policy.unannounced with chunk := HasTypes types, closed := @HasTypes.closed types }

theorem Policy.unannouncedTyped_le :
    (Policy.unannouncedTyped types).Le .unannounced where
  chunk _ := trivial
  insert h := h
  announceStatic h := h
  announceTemporal h := h
  sweep h := h

def SparedRun (env : Env) (types : EntityPath → TimelineName → Timeline)
    (config : ChunkStoreConfig) (s : ChunkStore) : Prop :=
  Reachable (ChunkStore.new config) (fun s op => (s.apply env op).1)
    (fun s op => op.Legal env (.unannouncedTyped types) s ∧ op.Spares env s) s

theorem SparedRun.reached {config : ChunkStoreConfig} (h : SparedRun env types config s) :
    Reached env (.unannouncedTyped types) config s := h.mono fun _ _ hop => hop.1

structure Sound (s : ChunkStore) : Prop where
  keysCovered : s.KeysCovered 0
  populated : s.Populated

theorem Sound.insertChunk {c : Chunk} (h : s.Sound) (hcore : Core env (.unannouncedTyped types) s)
    (hop : (Op.insertChunk c).Legal env (.unannouncedTyped types) s)
    (hs : (Op.insertChunk c).Spares env s) : (s.insertChunk env c).1.Sound := by
  obtain ⟨hw, hf, ht, -⟩ := hop
  rcases insertChunk_cases hcore hw hf with ⟨result, he, -⟩ | ⟨-, -, -, hroot, hr, -⟩
  · rw [he]
    exact h
  · obtain ⟨hc, hphys⟩ := refusal_storable hw hr
    obtain ⟨back, hback, hremoved⟩ := removed_prepare hcore hw hphys .volatile
    have hcovered := h.keysCovered.removed back (hs hroot hr) hremoved fun d hd => by
      rw [hback d hd]
      exact ⟨hc, le_rfl⟩
    have hstores := stores_insertChunk hcore hw hroot hr hf h.populated ht fun d hd =>
      hcore.allowed hd
    have hcarries := hstores.carries 0
    rw [add_zero] at hcarries
    exact ⟨hcovered.carries hcarries, hstores.populated⟩

theorem Sound.gc {options : GarbageCollectionOptions} {clock : GcClock} (h : s.Sound)
    (hcore : Core env (.unannouncedTyped types) s) (hs : (Op.gc options clock).Spares env s) :
    (s.gc env options clock).1.Sound where
  keysCovered := h.keysCovered.removed [] hs (removed_gc hcore options clock)
    (List.forall_mem_nil _)
  populated := h.populated.of_sub (physicalSub_gc env s options clock)

theorem Sound.dropTimeRange {timeline : TimelineName} {dropRange : AbsoluteTimeRange}
    {deepRemoval : Bool} {reason : ChunkDeletionReason} (h : s.Sound)
    (hcore : Core env (.unannouncedTyped types) s)
    (hs : (Op.dropTimeRange timeline dropRange deepRemoval reason).Spares env s) :
    (s.dropTimeRange env timeline dropRange deepRemoval reason).1.Sound := by
  rcases lt_or_ge dropRange.max dropRange.min with hlt | hle
  · rw [ChunkStore.dropTimeRange, if_pos hlt]
    exact h
  obtain ⟨drops, news, n, s', deletions, hdrop⟩ :=
    dropping hcore h.populated hle timeline deepRemoval reason
  have hstorable : ∀ c ∈ s.physicalChunksPerChunkId.values, c.Storable :=
    fun c hc => hcore.storable (physical_of_mem_values hcore.keyed hc)
  have hdrops : s.chunksWithin timeline dropRange = drops := by
    rw [chunksWithin, ← drops_planDrops env hstorable hle s.issued timeline, hdrop.planned]
  have hnews := (logged_planDrops env (fun c hc => (hstorable c hc).wellFormed) hle s.issued
    timeline).1
  rw [hdrop.planned] at hnews
  have hremoved := @removed_dropChunks env deepRemoval reason { s with issued := n } drops
    fun c hc => (hcore.storable (hdrop.physical c hc)).wellFormed
  rw [hdrop.dropped] at hremoved
  have hs : s.Spares (if deepRemoval then drops else [])
      (outside timeline dropRange (drops.map Chunk.logged).sum) := hdrops ▸ hs
  have hcovered := h.keysCovered.removed [] hs
    (hremoved.of_at_removed fun slot => by cases slot <;> rfl) (List.forall_mem_nil _)
  obtain ⟨hcarries, hpop⟩ := stores_reinsertChunks (fun _ ht => ht) hdrop.news_nodup hdrop.core
    (h.populated.of_sub hdrop.sub) hdrop.leftover
  rw [hdrop.eq hle]
  exact ⟨hcovered.carries (hnews ▸ hcarries), hpop⟩

theorem SparedRun.sound {config : ChunkStoreConfig} (h : SparedRun env types config s) :
    s.Sound := by
  refine Reachable.invariant_with (fun _ h => (SparedRun.reached h).core)
    ⟨keysCovered_new config, fun key c hc => ?_⟩ (fun s op hcore hs hop => ?_) h
  · simp [ChunkStore.new] at hc
  cases op with
  | insertChunk c => exact hs.insertChunk hcore hop.1 hop.2
  | insertRrdManifest manifest => exact hop.2.elim
  | gc options clock => exact hs.gc hcore hop.2
  | dropTimeRange timeline dropRange deepRemoval reason => exact hs.dropTimeRange hcore hop.2
  | dropEntityPath e => exact hop.2.elim

/-- In runs whose operations spare the bounds, all bounds are exact. -/
theorem timeBoundsExact_of_spared {config : ChunkStoreConfig} (h : SparedRun env types config s) :
    s.TimeBoundsExact :=
  h.sound.keysCovered.timeBoundsExact
    (allRegular_of_reached (h.reached.of_le Policy.unannouncedTyped_le))

theorem SparedRun.insertChunk {config : ChunkStoreConfig} {c : Chunk}
    (h : SparedRun env types config s)
    (hop : (Op.insertChunk c).Legal env (.unannouncedTyped types) s)
    (hd : s.danglingChunks c.id = []) (hlog : c.logged.Finite) :
    SparedRun env types config (s.apply env (.insertChunk c)).1 := by
  refine Reachable.step h ⟨hop, fun _ _ => ?_⟩
  rw [hd]
  exact h.sound.keysCovered.spares_of_outlasted hlog (List.forall_mem_nil _)

def middleChunk : Chunk :=
  .ofColumns 2 ["e"] [2, 3] [(⟨"t", .sequence⟩, [5, 8].map TimeInt.newTemporal)]
    [("c", [some [], some []])]

def spareMiddleRun : List Op :=
  [.insertChunk (.single 1 1 0), .insertChunk middleChunk, .insertChunk (.single 4 4 10),
    .dropTimeRange "t" ⟨.newTemporal 4, .newTemporal 6⟩ true .explicitDrop]

/-- Of three chunks, the one in the middle is cut: a row is dropped, the other one stays. -/
theorem timeBoundsExact_spareMiddleRun :
    (run .plain .COMPACTION_DISABLED spareMiddleRun).TimeBoundsExact := by
  let types : EntityPath → TimelineName → Timeline := fun _ _ => ⟨"t", .sequence⟩
  have hinsert : ∀ {s : ChunkStore} {c : Chunk}, SparedRun .plain types .COMPACTION_DISABLED s →
      (∀ entry ∈ c.columnTypes, entry.2 = ⟨"t", .sequence⟩) → c.WellFormed → c.id < 1000 →
      s.danglingChunks c.id = [] → c.logged.Finite →
      SparedRun .plain types .COMPACTION_DISABLED (s.apply .plain (.insertChunk c)).1 := by
    intro s c h ht hw hid hd hlog
    exact h.insertChunk ⟨hw, Env.plain_not_future hid _, fun entry he => (ht entry he), trivial⟩
      hd hlog
  have h1 := hinsert (c := .single 1 1 0) .init (by decide) (by decide) (by decide) (by decide)
    (Chunk.finite_logged "c" (by decide) (by decide))
  have h2 := hinsert (c := middleChunk) h1 (by decide) (by decide) (by decide) (by decide)
    (Chunk.finite_logged "c" (by decide) (by decide))
  have h3 := hinsert (c := .single 4 4 10) h2 (by decide) (by decide) (by decide) (by decide)
    (Chunk.finite_logged "c" (by decide) (by decide))
  have hwithin : (run .plain .COMPACTION_DISABLED (spareMiddleRun.take 3)).chunksWithin "t"
      ⟨.newTemporal 4, .newTemporal 6⟩ = [middleChunk] := by decide
  have hspares : (Op.dropTimeRange "t" ⟨.newTemporal 4, .newTemporal 6⟩ true .explicitDrop).Spares
      .plain (run .plain .COMPACTION_DISABLED (spareMiddleRun.take 3)) := by
    show ChunkStore.Spares _ _ _
    rw [if_pos rfl, hwithin]
    refine h3.sound.keysCovered.spares_of_outlasted (.mono ?_ (Multiset.filter_le _ _)) ?_
    · rw [List.map_singleton, List.sum_singleton]
      exact Chunk.finite_logged "c" (by decide) (by decide)
    · intro c hc slot range hr
      obtain rfl := List.mem_singleton.mp hc
      have hslot : slot ∈ [Slot.entity ["e"] "t", .component ["e"] "t" "c"] :=
        Chunk.mem_slots_of_rangeAt hr
      have hrange : ∀ slot ∈ [Slot.entity ["e"] "t", .component ["e"] "t" "c"],
          middleChunk.rangeAt slot = some ⟨.newTemporal 5, .newTemporal 8⟩ ∧
          1 ∈ ((run .plain .COMPACTION_DISABLED (spareMiddleRun.take 3)).at slot).startIds
            (.newTemporal 0) ∧
          4 ∈ ((run .plain .COMPACTION_DISABLED (spareMiddleRun.take 3)).at slot).endIds
            (.newTemporal 10) := by decide
      obtain ⟨hmiddle, hstart, hstop⟩ := hrange slot hslot
      obtain rfl := Option.some.inj (hmiddle.symm.trans hr)
      refine ⟨⟨_, ⟨1, hstart, ?_⟩, by decide⟩, _, ⟨4, hstop, ?_⟩, by decide⟩
      · exact List.forall_mem_singleton.mpr fun he => absurd he (by decide)
      · exact List.forall_mem_singleton.mpr fun he => absurd he (by decide)
  exact timeBoundsExact_of_spared (Reachable.step h3 ⟨trivial, hspares⟩)

/-- Two chunks are inserted, and the time of the first one is dropped. -/
def dropFirstRun : List Op :=
  [.insertChunk (.single 1 1 0), .insertChunk (.single 2 2 10),
    .dropTimeRange "t" ⟨.newTemporal 0, .newTemporal 0⟩ true .explicitDrop]

/-- The key of the first chunk is still there. -/
theorem dropFirstRun_stale :
    Reached .plain .unannounced .COMPACTION_DISABLED
        (run .plain .COMPACTION_DISABLED dropFirstRun) ∧
      ¬ (run .plain .COMPACTION_DISABLED dropFirstRun).TimeBoundsExact := by
  refine ⟨reached_run ⟨⟨?_, ?_, trivial, trivial⟩, ⟨?_, ?_, trivial, trivial⟩, trivial, trivial⟩,
    fun h => ?_⟩
  · decide
  · exact Env.plain_not_future (by decide) _
  · decide
  · exact Env.plain_not_future (by decide) _
  · have hrange : (run .plain .COMPACTION_DISABLED dropFirstRun).entityTimeRange "t" ["e"] =
        some ⟨.newTemporal 0, .newTemporal 10⟩ := by decide
    have hspan := h.entityTimeRange "t" ["e"]
    rw [hrange] at hspan
    obtain ⟨cid, hm⟩ := hspan.1.1
    have hnone : (((run .plain .COMPACTION_DISABLED dropFirstRun).at
        (.entity ["e"] "t")).startIds (.newTemporal 0)).toList = [] := by decide
    rw [← TreeSet.mem_toList, hnone] at hm
    cases hm

end ChunkStore

end DimosViewer
