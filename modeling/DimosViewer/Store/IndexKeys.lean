import DimosViewer.Store.RangeLookup
import Mathlib.Order.Bounds.Basic

/-!
# The keys of an index

A removal takes ids out of the sets of an index and leaves the keys. So a key is there
because an id was listed under it at some time, and nothing says that one still is.
-/

namespace DimosViewer

open Std (TreeMap)

-- ---------------------------------------------------------------------------
-- One slot
-- ---------------------------------------------------------------------------

namespace ChunkIdSetPerTime

def startKeys (p : ChunkIdSetPerTime) : Set TimeInt := {t | t ∈ p.perStartTime}

def endKeys (p : ChunkIdSetPerTime) : Set TimeInt := {t | t ∈ p.perEndTime}

def starts (p : ChunkIdSetPerTime) : Set TimeInt := {t | ∃ cid, cid ∈ p.startIds t}

def stops (p : ChunkIdSetPerTime) : Set TimeInt := {t | ∃ cid, cid ∈ p.endIds t}

theorem starts_subset (p : ChunkIdSetPerTime) : p.starts ⊆ p.startKeys :=
  fun _ ⟨_, h⟩ => TreeMap.mem_iff_contains.mpr (OrdMap.contains_of_mem_setAt h)

theorem stops_subset (p : ChunkIdSetPerTime) : p.stops ⊆ p.endKeys :=
  fun _ ⟨_, h⟩ => TreeMap.mem_iff_contains.mpr (OrdMap.contains_of_mem_setAt h)

@[simp] theorem startKeys_insertRange (p : ChunkIdSetPerTime) (cid : ChunkId)
    (range : AbsoluteTimeRange) :
    (p.insertRange cid range).startKeys = insert range.min p.startKeys := by
  ext t
  exact OrdMap.contains_insertAt.trans (or_congr_left eq_comm)

@[simp] theorem endKeys_insertRange (p : ChunkIdSetPerTime) (cid : ChunkId)
    (range : AbsoluteTimeRange) :
    (p.insertRange cid range).endKeys = insert range.max p.endKeys := by
  ext t
  exact OrdMap.contains_insertAt.trans (or_congr_left eq_comm)

@[simp] theorem startKeys_removeRange (p : ChunkIdSetPerTime) (cid : ChunkId)
    (range : AbsoluteTimeRange) : (p.removeRange cid range).startKeys = p.startKeys := by
  ext t
  exact iff_of_eq (congrArg (· = true) OrdMap.contains_eraseAt)

@[simp] theorem endKeys_removeRange (p : ChunkIdSetPerTime) (cid : ChunkId)
    (range : AbsoluteTimeRange) : (p.removeRange cid range).endKeys = p.endKeys := by
  ext t
  exact iff_of_eq (congrArg (· = true) OrdMap.contains_eraseAt)

@[simp] theorem starts_default : (default : ChunkIdSetPerTime).starts = ∅ :=
  Set.eq_empty_iff_forall_notMem.mpr fun _ ⟨_, h⟩ => not_mem_startIds_default h

@[simp] theorem stops_default : (default : ChunkIdSetPerTime).stops = ∅ :=
  Set.eq_empty_iff_forall_notMem.mpr fun _ ⟨_, h⟩ => not_mem_endIds_default h

@[simp] theorem startKeys_default : (default : ChunkIdSetPerTime).startKeys = ∅ :=
  Set.eq_empty_iff_forall_notMem.mpr fun _ => TreeMap.not_mem_emptyc

@[simp] theorem endKeys_default : (default : ChunkIdSetPerTime).endKeys = ∅ :=
  Set.eq_empty_iff_forall_notMem.mpr fun _ => TreeMap.not_mem_emptyc

/-- The two maps have keys together, and all of them are temporal. -/
structure Regular (p : ChunkIdSetPerTime) : Prop where
  paired : p.startKeys.Nonempty ↔ p.endKeys.Nonempty
  start : ∀ t ∈ p.startKeys, TimeInt.MIN ≤ t
  stop : ∀ t ∈ p.endKeys, TimeInt.MIN ≤ t

/-- What a step does to the keys: a new one has an id. -/
structure KeysGrow (p p' : ChunkIdSetPerTime) : Prop where
  start : p'.startKeys ⊆ p.startKeys ∪ p'.starts
  stop : p'.endKeys ⊆ p.endKeys ∪ p'.stops
  regular : p.Regular → p'.Regular

theorem KeysGrow.of_eq {p p' : ChunkIdSetPerTime} (hs : p'.startKeys = p.startKeys)
    (he : p'.endKeys = p.endKeys) : KeysGrow p p' where
  start := hs ▸ Set.subset_union_left
  stop := he ▸ Set.subset_union_left
  regular h := ⟨hs ▸ he ▸ h.paired, hs ▸ h.start, he ▸ h.stop⟩

theorem KeysGrow.refl (p : ChunkIdSetPerTime) : KeysGrow p p := .of_eq rfl rfl

theorem regular_default : (default : ChunkIdSetPerTime).Regular := ⟨by simp, by simp, by simp⟩

theorem keysGrow_default (p : ChunkIdSetPerTime) : KeysGrow p default where
  start := by simp
  stop := by simp
  regular _ := regular_default

theorem KeysGrow.of_insertRange {p p' : ChunkIdSetPerTime} {cid : ChunkId}
    {range : AbsoluteTimeRange} (hmin : TimeInt.MIN ≤ range.min) (hmax : TimeInt.MIN ≤ range.max)
    (hs : p'.startKeys = insert range.min p.startKeys)
    (he : p'.endKeys = insert range.max p.endKeys)
    (hstart : cid ∈ p'.startIds range.min) (hstop : cid ∈ p'.endIds range.max) :
    KeysGrow p p' where
  start := by
    rw [hs]
    exact Set.insert_subset (.inr ⟨cid, hstart⟩) Set.subset_union_left
  stop := by
    rw [he]
    exact Set.insert_subset (.inr ⟨cid, hstop⟩) Set.subset_union_left
  regular h := by
    refine ⟨?_, ?_, ?_⟩
    · rw [hs, he]
      exact iff_of_true (Set.insert_nonempty _ _) (Set.insert_nonempty _ _)
    · rw [hs]
      exact Set.forall_mem_insert.mpr ⟨hmin, h.start⟩
    · rw [he]
      exact Set.forall_mem_insert.mpr ⟨hmax, h.stop⟩

end ChunkIdSetPerTime

-- ---------------------------------------------------------------------------
-- The range of a chunk in a slot
-- ---------------------------------------------------------------------------

theorem TimeColumn.MIN_le_of_timeRangeOf {tc : TimeColumn} (h : tc.WellFormed)
    (hne : tc.times ≠ []) {column : SerializedComponentColumn}
    (hr : tc.timeRangeOf column = some range) :
    TimeInt.MIN ≤ range.min ∧ TimeInt.MIN ≤ range.max := by
  rw [timeRangeOf] at hr
  split at hr
  · cases hr
  · split at hr
    · cases hr
      exact ⟨h.temporal _ (h.min_mem hne), h.temporal _ (h.max_mem hne)⟩
    · cases hr
      dsimp only
      generalize (if isSortedList tc.times then _ else _ : Option TimeInt) = first
      generalize (if isSortedList tc.times then _ else _ : Option TimeInt) = last
      constructor
      · cases first with
        | none => decide
        | some time => exact TimeInt.MIN_le_newTemporal _
      · cases last with
        | none => exact le_rfl
        | some time => exact TimeInt.MIN_le_newTemporal _

theorem Chunk.Storable.MIN_le_rangeAt {c : Chunk} (h : c.Storable) {slot : Slot}
    {range : AbsoluteTimeRange} (hr : c.rangeAt slot = some range) :
    TimeInt.MIN ≤ range.min ∧ TimeInt.MIN ≤ range.max := by
  have htimes : ∀ {timeline tc}, c.timeline? timeline = some tc →
      tc.WellFormed ∧ tc.times ≠ [] := by
    intro timeline tc ht
    obtain ⟨hw, hlen⟩ := h.wellFormed.timeline_of_lookup ht
    refine ⟨hw, fun hnil => h.rowIds_ne ?_⟩
    rw [hnil] at hlen
    exact List.length_eq_zero_iff.mp hlen.symm
  cases slot with
  | entity e timeline =>
    rw [rangeAt] at hr
    split at hr
    · obtain ⟨tc, ht, rfl⟩ := Option.map_eq_some_iff.mp hr
      obtain ⟨hw, hne⟩ := htimes ht
      exact ⟨hw.temporal _ (hw.min_mem hne), hw.temporal _ (hw.max_mem hne)⟩
    · cases hr
  | component e timeline component =>
    rw [rangeAt] at hr
    split at hr
    · obtain ⟨tc, ht, hr⟩ := Option.bind_eq_some_iff.mp hr
      obtain ⟨column, -, hr⟩ := Option.bind_eq_some_iff.mp hr
      obtain ⟨hw, hne⟩ := htimes ht
      exact TimeColumn.MIN_le_of_timeRangeOf hw hne hr
    · cases hr

-- ---------------------------------------------------------------------------
-- Steps
-- ---------------------------------------------------------------------------

namespace ChunkStore

open ChunkIdSetPerTime (KeysGrow)

variable {env : Env} {pol : Policy} {config : ChunkStoreConfig}

theorem keys_removeFromIndices (s : ChunkStore) {c : Chunk} (h : c.WellFormed) (slot : Slot) :
    ((s.removeFromIndices c).at slot).startKeys = (s.at slot).startKeys ∧
      ((s.removeFromIndices c).at slot).endKeys = (s.at slot).endKeys := by
  rw [at_removeFromIndices h]
  cases c.rangeAt slot with
  | none => exact ⟨rfl, rfl⟩
  | some range => exact ⟨by simp, by simp⟩

theorem keys_removeChunksDeep (env : Env) (reason : ChunkDeletionReason) (s : ChunkStore)
    (exhausted : Nat → Bool) {chunks : List Chunk} (hw : ∀ c ∈ chunks, c.WellFormed)
    (slot : Slot) :
    ((s.removeChunksDeep env reason exhausted chunks).1.at slot).startKeys =
        (s.at slot).startKeys ∧
      ((s.removeChunksDeep env reason exhausted chunks).1.at slot).endKeys =
        (s.at slot).endKeys := by
  have hs := removeChunksShallow_sameIndices env reason s exhausted chunks
  refine sweepIndices_induction (fun s' => (s'.at slot).startKeys = (s.at slot).startKeys ∧
    (s'.at slot).endKeys = (s.at slot).endKeys) (fun s' c hc h => ?_) ?_
  · obtain ⟨h1, h2⟩ := keys_removeFromIndices s' (hw c hc) slot
    exact ⟨h1.trans h.1, h2.trans h.2⟩
  · rw [hs.at_eq]
    exact ⟨rfl, rfl⟩

theorem KeysGrow.of_at {s s' : ChunkStore} (h : ∀ slot, s'.at slot = s.at slot) (slot : Slot) :
    KeysGrow (s.at slot) (s'.at slot) := h slot ▸ .refl _

theorem keysGrow_insertIntoIndices (env : Env) (s : ChunkStore) {c : Chunk} (h : c.Storable)
    (slot : Slot) : KeysGrow (s.at slot) ((s.insertIntoIndices env c).at slot) := by
  rw [at_insertIntoIndices env h.wellFormed]
  cases hr : c.rangeAt slot with
  | none => exact .refl _
  | some range =>
    obtain ⟨hmin, hmax⟩ := h.MIN_le_rangeAt hr
    have hlisted := ChunkIdSetPerTime.hasRange_insertRange (s.at slot) c.id range
    exact .of_insertRange hmin hmax (ChunkIdSetPerTime.startKeys_insertRange _ _ _)
      (ChunkIdSetPerTime.endKeys_insertRange _ _ _) hlisted.start hlisted.stop

theorem keysGrow_replaceElected (env : Env) (s : ChunkStore) {elected compacted : Chunk}
    (h : compacted.Storable) (hw : elected.WellFormed) (hne : compacted.id ≠ elected.id)
    (slot : Slot) :
    KeysGrow (s.at slot) ((s.replaceElected env elected compacted).1.at slot) := by
  have hws : ∀ d ∈ [elected], d.WellFormed := fun d hd => List.mem_singleton.mp hd ▸ hw
  obtain ⟨hs, he⟩ := keys_removeChunksDeep env .compaction (s.insertIntoIndices env compacted)
    unlimited hws slot
  rw [at_insertIntoIndices env h.wellFormed] at hs he
  cases hr : compacted.rangeAt slot with
  | none =>
    rw [hr] at hs he
    exact .of_eq hs he
  | some range =>
    rw [hr] at hs he
    obtain ⟨hmin, hmax⟩ := h.MIN_le_rangeAt hr
    have hlists : (s.replaceElected env elected compacted).1.Lists compacted :=
      (lists_insertIntoIndices env s h.wellFormed).removeChunksDeep hws
        (fun hm => hne (List.mem_singleton.mp hm)) _ _
    have hlisted := hlists slot range hr
    exact .of_insertRange hmin hmax (hs.trans (ChunkIdSetPerTime.startKeys_insertRange _ _ _))
      (he.trans (ChunkIdSetPerTime.endKeys_insertRange _ _ _)) hlisted.start hlisted.stop

/-- Nothing is announced: all keys come from chunks. -/
def Policy.unannounced : Policy :=
  { Policy.any with announceStatic := fun _ _ => False, announceTemporal := fun _ _ => False }

theorem Step.keysGrow {s s' : ChunkStore} (hcore : Core env .unannounced s)
    (hs : Step env .unannounced s diffs s') (slot : Slot) :
    KeysGrow (s.at slot) (s'.at slot) := by
  have hwell : ∀ {chunks : List Chunk}, (∀ c ∈ chunks, s.Physical c) →
      ∀ c ∈ chunks, c.WellFormed := fun hp c hc => (hcore.storable (hp c hc)).wellFormed
  have hdeep : ∀ reason exhausted {chunks : List Chunk}, (∀ c ∈ chunks, c.WellFormed) →
      KeysGrow (s.at slot) ((s.removeChunksDeep env reason exhausted chunks).1.at slot) :=
    fun reason exhausted _ hw =>
      .of_eq (keys_removeChunksDeep env reason s exhausted hw slot).1
        (keys_removeChunksDeep env reason s exhausted hw slot).2
  cases hs with
  | draw _ | nextInsert | forgetSplit _ | recordSplit _ _ _ | recordLineage _ _ =>
    exact KeysGrow.of_at (fun slot => by cases slot <;> rfl) slot
  | announced _ => exact .refl _
  | announceStatic _ hp | announceTemporal _ hp => exact hp.elim
  | replaceVirtual reason hw _ =>
    exact hdeep reason _ fun d hd => List.mem_singleton.mp hd ▸ hw
  | removeShallow reason exhausted _ _ =>
    exact KeysGrow.of_at (removeChunksShallow_sameIndices _ _ _ _ _).at_eq slot
  | removeDeep reason hp _ => exact hdeep reason _ (hwell hp)
  | sweep reason hp _ _ => exact hdeep reason _ (hwell hp)
  | dropEntityPath e =>
    rw [at_dropEntityPath]
    split
    · exact ChunkIdSetPerTime.keysGrow_default _
    · exact .refl _
  | store hc _ _ _ _ hst =>
    cases hst with
    | @static lineage _ _ =>
      obtain ⟨hl, -⟩ := storeStatic_frame env s _ lineage
      rw [at_insertPhysical]
      exact KeysGrow.of_at hl.at_eq slot
    | asIs before _ _ =>
      rw [at_insertPhysical]
      exact keysGrow_insertIntoIndices env s hc slot
    | @compacted n elected compacted hcomp =>
      have hel := (hcore.storable hcomp.physical).wellFormed
      have hne : compacted.id ≠ elected.id := fun he =>
        hcore.mentions (.physical hcomp.physical) (he ▸ DrawnIn.future hcomp.drawn)
      have hgrow := keysGrow_replaceElected env { s with issued := n } (hcomp.storable hc) hel hne
        slot
      have hat : ({ s with issued := n } : ChunkStore).at slot = s.at slot := by
        cases slot <;> rfl
      rw [at_insertPhysical, compactInto_eq]
      rw [hat] at hgrow
      cases slot <;> exact hgrow

end ChunkStore

end DimosViewer
