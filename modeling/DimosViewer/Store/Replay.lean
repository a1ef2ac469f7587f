import Mathlib.Data.Finset.Basic
import DimosViewer.Store.Findable

/-!
# The events reproduce the store

A subscriber that folds the events holds exactly the ids of the physical chunks,
if no deep sweep is cut short and none is given a chunk twice.
-/

namespace DimosViewer

open Reach (Reachable)
open Std (TreeMap)

-- ---------------------------------------------------------------------------
-- The subscriber
-- ---------------------------------------------------------------------------

/-- An addition takes out the sources of a compaction, then adds the new chunk. -/
def ChunkStoreDiff.replay (ids : Finset ChunkId) : ChunkStoreDiff → Finset ChunkId
  | .addition add =>
    match add.directLineage with
    | .compactedFrom sources => insert add.chunkAfterProcessing.id (ids.filter (· ∉ sources.keys))
    | _ => insert add.chunkAfterProcessing.id ids
  | .virtualAddition _ => ids
  | .deletion del => ids.erase del.chunk.id

def ChunkStoreDiff.deletedId? : ChunkStoreDiff → Option ChunkId
  | .deletion del => some del.chunk.id
  | _ => none

namespace ChunkStore

variable {env : Env} {pol : Policy} {config : ChunkStoreConfig}

def physicalIds (s : ChunkStore) : Finset ChunkId := s.physicalChunksPerChunkId.keys.toFinset

theorem mem_physicalIds {s : ChunkStore} {cid : ChunkId} :
    cid ∈ s.physicalIds ↔ s.physicalChunksPerChunkId[cid]? ≠ none := by
  rw [physicalIds, List.mem_toFinset, TreeMap.mem_keys, TreeMap.mem_iff_isSome_getElem?,
    Option.isSome_iff_ne_none]

theorem physicalIds_eq {s s' : ChunkStore}
    (h : s'.physicalChunksPerChunkId = s.physicalChunksPerChunkId) :
    s'.physicalIds = s.physicalIds := by
  rw [physicalIds, h, physicalIds]

def Replays (s : ChunkStore) (es : List ChunkStoreDiff) (s' : ChunkStore) : Prop :=
  es.foldl ChunkStoreDiff.replay s.physicalIds = s'.physicalIds

theorem mem_foldl_deletions {ids : Finset ChunkId} {dels : List ChunkStoreDiffDeletion} :
    cid ∈ (dels.map ChunkStoreDiff.deletion).foldl ChunkStoreDiff.replay ids ↔
      cid ∈ ids ∧ cid ∉ dels.map (·.chunk.id) := by
  induction dels generalizing ids with
  | nil => simp
  | cons del rest ih =>
    rw [List.map_cons, List.foldl_cons, ih]
    simp only [ChunkStoreDiff.replay, Finset.mem_erase, List.map_cons, List.mem_cons, not_or]
    exact ⟨fun ⟨⟨h1, h2⟩, h3⟩ => ⟨h2, h1, h3⟩, fun ⟨h2, h1, h3⟩ => ⟨⟨h1, h2⟩, h3⟩⟩

theorem replays_deletions {s s' : ChunkStore} {dels : List ChunkStoreDiffDeletion}
    (h : ∀ cid, s'.physicalChunksPerChunkId[cid]? ≠ none ↔
      s.physicalChunksPerChunkId[cid]? ≠ none ∧ cid ∉ dels.map (·.chunk.id)) :
    Replays s (dels.map .deletion) s' := by
  ext cid
  rw [mem_foldl_deletions, mem_physicalIds, mem_physicalIds, h]

theorem Deletes.replays {s s' : ChunkStore} (h : Deletes s s' dels) :
    Replays s (dels.map .deletion) s' := by
  refine replays_deletions fun cid => ?_
  rw [h.physical]
  by_cases hm : cid ∈ dels.map (·.chunk.id) <;> simp [hm]

theorem replays_nil {s s' : ChunkStore}
    (h : s'.physicalChunksPerChunkId = s.physicalChunksPerChunkId) : Replays s [] s' :=
  (physicalIds_eq h).symm

-- ---------------------------------------------------------------------------
-- Removals
-- ---------------------------------------------------------------------------

theorem Lists.wasRemoved {s : ChunkStore} {c : Chunk} (h : s.Lists c) (hst : c.isStatic = false) :
    s.wasRemoved c = true := by
  obtain ⟨⟨timeline, tc⟩, rest, ht⟩ := List.exists_cons_of_ne_nil
    (fun hnil => by simp [Chunk.isStatic, hnil] at hst : c.timelines ≠ [])
  have hr : c.rangeAt (.entity c.entityPath timeline) = some tc.timeRange := by
    simp [Chunk.rangeAt, Chunk.timeline?, ht]
  exact wasRemoved_of_mem (ht ▸ List.mem_cons_self) (h _ _ hr).start

theorem removeChunksDeep_deletions {s : ChunkStore} {chunks : List Chunk} (hf : s.Findable)
    (hcore : Core env pol s) (hp : ∀ c ∈ chunks, s.Physical c)
    (hst : ∀ c ∈ chunks, c.isStatic = false) (reason : ChunkDeletionReason)
    (exhausted : Nat → Bool) :
    (s.removeChunksDeep env reason exhausted chunks).2 = chunks.map (⟨·, reason⟩) := by
  have hs := removeChunksShallow_sameIndices env reason s exhausted chunks
  refine sweepIndices_deletions (fun c hc => (hcore.storable (hp c hc)).wellFormed) fun c hc => ?_
  exact ((hf _ _ (hp c hc)).of_at hs.at_eq).wasRemoved (hst c hc)

theorem replays_removeChunksDeep {s : ChunkStore} {chunks : List Chunk} (hf : s.Findable)
    (hcore : Core env pol s) (hp : ∀ c ∈ chunks, s.Physical c)
    (hst : ∀ c ∈ chunks, c.isStatic = false) (reason : ChunkDeletionReason)
    (hcut : Uncut exhausted chunks) :
    Replays s ((s.removeChunksDeep env reason exhausted chunks).2.map .deletion)
      (s.removeChunksDeep env reason exhausted chunks).1 := by
  rw [removeChunksDeep_deletions hf hcore hp hst]
  refine replays_deletions fun cid => ?_
  rw [List.map_map]
  show _ ↔ _ ∧ cid ∉ chunks.map (·.id)
  have hsame := (sweepIndices_samePhysical reason
    (s.removeChunksShallow env reason exhausted chunks).1 chunks).physical
  rw [removeChunksDeep, hsame]
  rcases removeChunksShallow_physical env reason s exhausted chunks cid with he | ⟨he, hm⟩
  · rw [he]
    refine ⟨fun h => ⟨h, fun hm => h ?_⟩, And.left⟩
    rw [← he]
    exact removeChunksShallow_uncut env reason s hcut hm
  · rw [he]
    exact ⟨fun h => absurd rfl h, fun h => absurd hm h.2⟩

theorem replays_replaceVirtual {s : ChunkStore} {c : Chunk} (reason : ChunkDeletionReason)
    (hp : s.physicalChunksPerChunkId[c.id]? = none) :
    Replays s ((s.removeChunksDeep env reason unlimited [c]).2.map .deletion)
      (s.removeChunksDeep env reason unlimited [c]).1 := by
  refine replays_deletions fun cid => ?_
  have hsub := sweepIndices_deletions_sublist
    (s.removeChunksShallow env reason unlimited [c]).1 reason [c]
  have hsame := (sweepIndices_samePhysical reason
    (s.removeChunksShallow env reason unlimited [c]).1 [c]).physical
  rw [removeChunksDeep, hsame, removeChunksShallow_unlimited]
  have hdel : cid ∈ ((s.removeChunksShallow env reason unlimited [c]).1.sweepIndices reason
      [c]).2.map (·.chunk.id) → cid = c.id := by
    intro hm
    obtain ⟨del, hd, rfl⟩ := List.mem_map.mp hm
    rw [List.mem_singleton.mp (hsub.subset (List.mem_map_of_mem hd))]
  by_cases hc : cid = c.id
  · subst hc
    simp [hp]
  · simp [hc, mt hdel hc]

-- ---------------------------------------------------------------------------
-- Additions
-- ---------------------------------------------------------------------------

theorem mem_physicalIds_insertPhysical {s : ChunkStore} {c : Chunk} {cid : ChunkId} :
    cid ∈ (s.insertPhysical c).physicalIds ↔ cid = c.id ∨ cid ∈ s.physicalIds := by
  rw [mem_physicalIds, mem_physicalIds, insertPhysical_physical]
  by_cases h : c.id = cid
  · simp [h]
  · simp [h, Ne.symm h]

theorem replay_addition_plain (ids : Finset ChunkId) (before after : Chunk)
    {lineage : ChunkDirectLineageReport} (h : IsPlain lineage) :
    ChunkStoreDiff.replay ids (.addition ⟨before, after, lineage⟩) = insert after.id ids := by
  cases lineage with
  | compactedFrom sources => exact absurd rfl (h sources)
  | _ => rfl

theorem elected_mem_sourcesOf {s : ChunkStore} {c elected compacted : Chunk} (hf : s.Lists elected)
    (hst : elected.isStatic = false) (hw : compacted.WellFormed) :
    elected.id ∈ (s.sourcesOf env c elected compacted).keys := by
  have hs := removeChunksShallow_sameIndices env .compaction
    (s.insertIntoIndices env compacted) unlimited [elected]
  have hl : (s.insertIntoIndices env compacted).Lists elected := hf.insertIntoIndices hw
  have hr := (hl.of_at hs.at_eq).wasRemoved hst
  rw [sourcesOf, replaceElected, removeChunksDeep]
  simp only [sweepIndices, hr, if_true, compactionSources, List.foldl_cons, List.foldl_nil]
  exact TreeMap.mem_keys.mpr TreeMap.mem_insert_self

theorem Stored.replays {s s' : ChunkStore} {c : Chunk} (h : Core env pol s) (hf : s.Findable)
    (hc : c.Storable) (hp : s.physicalChunksPerChunkId[c.id]? = none)
    (hs : Stored env s c s' diffs) : Replays s diffs s' := by
  cases hs with
  | @static lineage hst hplain =>
    obtain ⟨dels, he, hd⟩ := storeStatic_deletes env h.keyed c lineage
    ext cid
    rw [he, List.foldl_cons, replay_addition_plain _ _ _ hplain, mem_foldl_deletions,
      mem_physicalIds_insertPhysical, Finset.mem_insert, mem_physicalIds, mem_physicalIds,
      hd.physical]
    by_cases hm : cid ∈ dels.map (·.chunk.id)
    · have hne : cid ≠ c.id := fun hcid => hd.isPhysical cid hm (hcid ▸ hp)
      simp [hm, hne]
    · simp [hm]
  | asIs before hst hplain =>
    ext cid
    rw [List.foldl_cons, List.foldl_nil, replay_addition_plain _ _ _ hplain,
      mem_physicalIds_insertPhysical, Finset.mem_insert]
    rfl
  | @compacted n elected compacted hcomp =>
    have hst : elected.isStatic = false := hcomp.isStatic_eq.trans hcomp.temporal
    have hmem : elected.id ∈ (sourcesOf env { s with issued := n } c elected compacted).keys :=
      elected_mem_sourcesOf ((hf _ _ hcomp.physical).of_at fun slot => by cases slot <;> rfl) hst
        (hcomp.storable hc).wellFormed
    have hphys := replaceElected_physical env { s with issued := n } elected compacted
    ext cid
    rw [compactInto_eq, mem_physicalIds_insertPhysical]
    simp only [List.foldl_cons, List.foldl_nil, ChunkStoreDiff.replay, Finset.mem_insert,
      Finset.mem_filter, mem_physicalIds, recordCompaction, hphys]
    refine or_congr_right ⟨?_, fun hcid => ?_⟩
    · rintro ⟨hcid, hm⟩
      have hne : cid ≠ elected.id := fun he => hm (he ▸ hmem)
      rwa [if_neg hne]
    · split at hcid
      · exact absurd rfl hcid
      · refine ⟨hcid, fun hm => ?_⟩
        rcases mem_sourcesOf hm with rfl | rfl
        · exact hcid hp
        · contradiction

-- ---------------------------------------------------------------------------
-- Steps
-- ---------------------------------------------------------------------------

theorem replays_dropEntityPath {s : ChunkStore} (hk : s.Keyed) (e : EntityPath) :
    Replays s (s.dropEntityPath env e).2 (s.dropEntityPath env e).1 := by
  obtain ⟨chunks, he, hm⟩ := mem_dropEntityPath_deletions env hk e
  have hmap : (s.dropEntityPath env e).2 =
      (chunks.map (⟨·, .explicitDrop⟩)).map ChunkStoreDiff.deletion := by
    rw [he, List.map_map]
    rfl
  rw [hmap]
  refine replays_deletions fun cid => ?_
  rw [List.map_map]
  show _ ↔ _ ∧ cid ∉ chunks.map (·.id)
  rw [hm, dropEntityPath_physical]
  by_cases hcid : cid ∈ s.staticIdsOf e ∨ cid ∈ s.temporalIdsOf e <;> simp [hcid]

theorem Step.replays {s s' : ChunkStore} (hcore : Core env pol s) (hf : s.Findable)
    (hu : pol.unique)
    (hpol : ∀ {exhausted chunks}, pol.sweep exhausted chunks → Uncut exhausted chunks)
    (hs : Step env pol s diffs s') : Replays s diffs s' := by
  cases hs with
  | draw _ | nextInsert | forgetSplit _ | recordSplit _ _ _ | recordLineage _ _
  | announceStatic _ _ | announceTemporal _ _ | announced _ => exact replays_nil rfl
  | replaceVirtual reason _ hp => exact replays_replaceVirtual reason hp
  | store hc _ hp _ _ hst => exact hst.replays hcore hf hc hp
  | removeShallow reason exhausted hp _ =>
    exact (removeChunksShallow_deletes env reason hcore.keyed exhausted _).replays
  | removeDeep reason hp hst =>
    exact replays_removeChunksDeep hf hcore hp (hst hu) reason (uncut_unlimited _)
  | sweep reason hp hst hok => exact replays_removeChunksDeep hf hcore hp hst reason (hpol hok)
  | dropEntityPath e => exact replays_dropEntityPath hcore.keyed e

-- ---------------------------------------------------------------------------
-- Runs with a subscriber
-- ---------------------------------------------------------------------------

def applySubscribed (env : Env) (st : ChunkStore × Finset ChunkId) (op : Op) :
    ChunkStore × Finset ChunkId :=
  let (s, es) := st.1.apply env op
  (s, es.foldl ChunkStoreDiff.replay st.2)

/-- A new store and what its subscriber holds, after any operations. -/
abbrev Subscribed (env : Env) (pol : Policy) (config : ChunkStoreConfig)
    (st : ChunkStore × Finset ChunkId) : Prop :=
  Reachable (ChunkStore.new config, ∅) (applySubscribed env) (fun st op => op.Legal env pol st.1) st

/-- An id stands for chunks of one kind, and every deep sweep of the garbage
collector goes to its end and over distinct chunks. -/
def Policy.exact : Policy where
  chunk _ := True
  closed _ _ h := h
  insert archive c := ∀ d, archive[c.id]? = some d → d.isStatic = c.isStatic
  announceStatic _ _ := True
  announceTemporal _ _ := True
  unique := True
  insert_unique _ _ _ _ h hd := h _ hd
  sweep exhausted chunks := Uncut exhausted chunks ∧ (chunks.map (·.id)).Nodup

theorem Op.replays {s : ChunkStore} {op : Op} (hcore : Core env .exact s) (hf : s.Findable)
    (hop : op.Legal env .exact s) :
    (s.apply env op).1.Findable ∧ Replays s (s.apply env op).2 (s.apply env op).1 := by
  obtain ⟨⟨-, hf'⟩, hr⟩ := (Op.trace hcore hop).foldl_eq
    (fun s es s' (hi : Core env .exact s ∧ s.Findable) ht =>
      ⟨⟨ht.core hi.1, ht.findable hi.1 And.left hi.2⟩, ht.replays hi.1 hi.2 trivial And.left⟩)
    ⟨hcore, hf⟩
  exact ⟨hf', hr⟩

theorem Subscribed.eq {st : ChunkStore × Finset ChunkId} (h : Subscribed env .exact config st) :
    (Core env .exact st.1 ∧ st.1.Findable) ∧ st.2 = st.1.physicalIds := by
  induction h with
  | init => exact ⟨⟨.new env _ config, findable_new config⟩, rfl⟩
  | step _ hop ih =>
    obtain ⟨⟨hcore, hf⟩, he⟩ := ih
    obtain ⟨hf', hr⟩ := Op.replays hcore hf hop
    refine ⟨⟨hcore.apply hop, hf'⟩, ?_⟩
    rw [applySubscribed, he]
    exact hr

theorem filterMap_deletedId? (dels : List ChunkStoreDiffDeletion) :
    (dels.map ChunkStoreDiff.deletion).filterMap ChunkStoreDiff.deletedId? =
      dels.map (·.chunk.id) := by
  rw [List.filterMap_map, ← List.filterMap_eq_map]
  rfl

/-- One call reports a chunk twice only if it was given the chunk twice. -/
theorem gc_deletedIds_nodup {s : ChunkStore} (hk : s.Keyed) (options : GarbageCollectionOptions)
    (clock : GcClock) (h : ((s.gcCandidates env options clock).1.map (·.id)).Nodup) :
    ((s.gc env options clock).2.1.filterMap ChunkStoreDiff.deletedId?).Nodup := by
  obtain ⟨-, hne⟩ := gcCandidates_spec env hk options clock
  rw [(gc_eq env s options clock).2]
  unfold gcDropAtLeastNumBytes
  generalize s.gcCandidates env options clock = candidates at h hne
  obtain ⟨deep, shallow⟩ := candidates
  dsimp only at h hne ⊢
  rw [filterMap_deletedId?, List.map_append, List.nodup_append]
  generalize hq : s.removeChunksShallow env .garbageCollection
    (fun k => budgetExhausted (sweepTimeBudget options clock) (clock.shallow k)) shallow = q
  have hdel := removeChunksShallow_deletes env .garbageCollection hk
    (fun k => budgetExhausted (sweepTimeBudget options clock) (clock.shallow k)) shallow
  have hphys := removeChunksShallow_physical env .garbageCollection s
    (fun k => budgetExhausted (sweepTimeBudget options clock) (clock.shallow k)) shallow
  rw [hq] at hdel hphys
  have hsub := (sweepIndices_deletions_sublist (q.1.removeChunksShallow env .garbageCollection
    (fun k => budgetExhausted (remainingBudget options clock) (clock.deep k)) deep).1
      .garbageCollection deep).map (·.id)
  rw [List.map_map] at hsub
  refine ⟨hdel.nodup, hsub.nodup h, fun cid hm cid' hm' he => ?_⟩
  subst he
  obtain ⟨c, hc, hcid⟩ := List.mem_map.mp (hsub.subset hm')
  -- What the shallow part reports is one of its own chunks.
  have hin : cid ∈ shallow.map (·.id) := by
    rcases hphys cid with he | ⟨-, hin⟩
    · rw [hdel.physical, if_pos hm] at he
      exact absurd he.symm (hdel.isPhysical cid hm)
    · exact hin
  obtain ⟨d, hd, hdid⟩ := List.mem_map.mp hin
  exact hne c hc d hd (hcid.trans hdid.symm)

/-- After every operation the subscriber holds the ids of the physical chunks, and
one call of the garbage collector reports a chunk at most once. -/
theorem subscriber_eq_physicalIds {st : ChunkStore × Finset ChunkId}
    (h : Subscribed env .exact config st) :
    (∀ cid, cid ∈ st.2 ↔ st.1.physicalChunksPerChunkId[cid]? ≠ none) ∧
      ∀ options clock, (Op.gc options clock).Legal env .exact st.1 →
        ((st.1.gc env options clock).2.1.filterMap ChunkStoreDiff.deletedId?).Nodup := by
  obtain ⟨⟨hcore, -⟩, he⟩ := h.eq
  refine ⟨fun cid => ?_, fun options clock hop => gc_deletedIds_nodup hcore.keyed options clock hop.2⟩
  rw [he, mem_physicalIds]

def subscribedRun (env : Env) (config : ChunkStoreConfig) (ops : List Op) :
    ChunkStore × Finset ChunkId :=
  ops.foldl (applySubscribed env) (ChunkStore.new config, ∅)

theorem subscribed_foldl {st : ChunkStore × Finset ChunkId} {ops : List Op}
    (h : Subscribed env pol config st) (hops : Legals env pol st.1 ops) :
    Subscribed env pol config (ops.foldl (applySubscribed env) st) := by
  induction ops generalizing st with
  | nil => exact h
  | cons op rest ih => exact ih (h.step hops.1) hops.2

theorem subscriber_eq_physicalIds_busyRun :
    let st := subscribedRun .plain .DEFAULT busyRun
    st.2 = {3, 5} ∧ (∀ cid, cid ∈ st.2 ↔ st.1.physicalChunksPerChunkId[cid]? ≠ none) ∧
      ((st.1.gc .plain .gcEverything ⟨fun _ => 0, 0, fun _ => 0, 0, fun _ => 0⟩).2.1.filterMap
        ChunkStoreDiff.deletedId?).Nodup := by
  have h : Subscribed .plain .exact .DEFAULT (subscribedRun .plain .DEFAULT busyRun) :=
    subscribed_foldl .init (legals_busyRun
      (fun c _ _ hnew => ⟨trivial, fun d hd => by
        rw [hnew] at hd
        cases hd⟩)
      fun _ _ huncut hids => ⟨huncut, hids⟩)
  have hgc := subscriber_eq_physicalIds h
  exact ⟨by decide, hgc.1, hgc.2 _ _ ⟨fun _ _ => rfl, by decide⟩⟩

/-- The budget runs out after the first of two chunks: both are reported, but the
second one is still there. -/
theorem sweepRun_not_replayed :
    Subscribed .plain .any .COMPACTION_DISABLED
        (subscribedRun .plain .COMPACTION_DISABLED (sweepRun 10)) ∧
      2 ∉ (subscribedRun .plain .COMPACTION_DISABLED (sweepRun 10)).2 ∧
        (subscribedRun .plain .COMPACTION_DISABLED
          (sweepRun 10)).1.physicalChunksPerChunkId[2]? ≠ none := by
  refine ⟨subscribed_foldl .init ⟨⟨by decide, ?_, trivial, trivial⟩,
    ⟨by decide, ?_, trivial, trivial⟩, trivial, trivial⟩, by decide, by decide⟩
  · exact Env.plain_not_future (by decide) _
  · exact Env.plain_not_future (by decide) _

end ChunkStore

end DimosViewer
