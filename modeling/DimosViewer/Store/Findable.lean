import DimosViewer.Store.RunLaws

/-!
# Physical chunks stay findable

Every physical chunk is in the slots of its ranges, unless a sweep is cut short:
the physical part of a deep removal stops with the clock, the sweep of the
indices does not.
-/

namespace DimosViewer

-- ---------------------------------------------------------------------------
-- One slot
-- ---------------------------------------------------------------------------

/-- A chunk is listed under both ends of its range, which is not too long. -/
structure ChunkIdSetPerTime.HasRange (p : ChunkIdSetPerTime) (cid : ChunkId)
    (range : AbsoluteTimeRange) : Prop where
  start : cid ∈ p.startIds range.min
  stop : cid ∈ p.endIds range.max
  length : range.absLength ≤ p.maxIntervalLength

namespace ChunkIdSetPerTime

theorem hasRange_insertRange (p : ChunkIdSetPerTime) (cid : ChunkId) (range : AbsoluteTimeRange) :
    (p.insertRange cid range).HasRange cid range where
  start := mem_startIds_insertRange.mpr (.inl ⟨rfl, rfl⟩)
  stop := mem_endIds_insertRange.mpr (.inl ⟨rfl, rfl⟩)
  length := le_max_right _ _

theorem HasRange.insertRange {p : ChunkIdSetPerTime} (h : p.HasRange cid range) (cid' : ChunkId)
    (range' : AbsoluteTimeRange) : (p.insertRange cid' range').HasRange cid range where
  start := mem_startIds_insertRange.mpr (.inr h.start)
  stop := mem_endIds_insertRange.mpr (.inr h.stop)
  length := h.length.trans (le_max_left _ _)

theorem HasRange.removeRange {p : ChunkIdSetPerTime} {cid cid' : ChunkId}
    (h : p.HasRange cid range) (hne : cid ≠ cid') (range' : AbsoluteTimeRange) :
    (p.removeRange cid' range').HasRange cid range where
  start := mem_startIds_removeRange.mpr ⟨fun he => hne he.2, h.start⟩
  stop := mem_endIds_removeRange.mpr ⟨fun he => hne he.2, h.stop⟩
  length := h.length

end ChunkIdSetPerTime

namespace ChunkStore

variable {env : Env} {pol : Policy} {config : ChunkStoreConfig}

-- ---------------------------------------------------------------------------
-- One chunk
-- ---------------------------------------------------------------------------

def Lists (s : ChunkStore) (c : Chunk) : Prop :=
  ∀ slot range, c.rangeAt slot = some range → (s.at slot).HasRange c.id range

theorem Lists.of_at {s s' : ChunkStore} (h : s.Lists c) (hat : ∀ slot, s'.at slot = s.at slot) :
    s'.Lists c := fun slot range hr => hat slot ▸ h slot range hr

theorem lists_of_isStatic (s : ChunkStore) {c : Chunk} (h : c.isStatic = true) : s.Lists c := by
  intro slot range hr
  rw [c.isStatic_eq_false_of_rangeAt hr] at h
  cases h

theorem lists_insertIntoIndices (env : Env) (s : ChunkStore) {c : Chunk} (hw : c.WellFormed) :
    (s.insertIntoIndices env c).Lists c := by
  intro slot range hr
  rw [at_insertIntoIndices env hw, hr]
  exact ChunkIdSetPerTime.hasRange_insertRange _ _ _

theorem Lists.insertIntoIndices {s : ChunkStore} (h : s.Lists d) {c : Chunk} (hw : c.WellFormed) :
    (s.insertIntoIndices env c).Lists d := by
  intro slot range hr
  rw [at_insertIntoIndices env hw]
  cases c.rangeAt slot with
  | none => exact h slot range hr
  | some range' => exact (h slot range hr).insertRange _ _

theorem Lists.removeFromIndices {s : ChunkStore} (h : s.Lists d) {c : Chunk} (hw : c.WellFormed)
    (hne : d.id ≠ c.id) : (s.removeFromIndices c).Lists d := by
  intro slot range hr
  rw [at_removeFromIndices hw]
  cases c.rangeAt slot with
  | none => exact h slot range hr
  | some range' => exact (h slot range hr).removeRange hne _

theorem Lists.removeChunksDeep {s : ChunkStore} (h : s.Lists d) {chunks : List Chunk}
    (hw : ∀ c ∈ chunks, c.WellFormed) (hne : d.id ∉ chunks.map (·.id))
    (reason : ChunkDeletionReason) (exhausted : Nat → Bool) :
    (s.removeChunksDeep env reason exhausted chunks).1.Lists d := by
  have hs := removeChunksShallow_sameIndices env reason s exhausted chunks
  refine sweepIndices_induction (·.Lists d) (fun s c hc hl => ?_) (h.of_at hs.at_eq)
  exact hl.removeFromIndices (hw c hc) fun he => hne (List.mem_map.mpr ⟨c, hc, he.symm⟩)

theorem Lists.announceTemporal {s : ChunkStore} (h : s.Lists d) (entry : EntityPath × Timeline ×
    ComponentIdentifier × ChunkId × RrdManifestTemporalMapEntry) :
    (s.announceTemporal entry).Lists d := by
  obtain ⟨e, timeline, component, cid, entry⟩ := entry
  intro slot range hr
  rw [at_announceTemporal]
  split
  · exact (h slot range hr).insertRange _ _
  · exact h slot range hr

theorem Lists.mem_temporalIdsOf {s : ChunkStore} {c : Chunk} (h : s.Lists c)
    (hst : c.isStatic = false) : c.id ∈ s.temporalIdsOf c.entityPath := by
  obtain ⟨⟨timeline, tc⟩, rest, ht⟩ := List.exists_cons_of_ne_nil
    (fun hnil => by simp [Chunk.isStatic, hnil] at hst : c.timelines ≠ [])
  have hr : c.rangeAt (.entity c.entityPath timeline) = some tc.timeRange := by
    simp [Chunk.rangeAt, Chunk.timeline?, ht]
  exact ChunkStore.mem_temporalIdsOf.mpr ⟨timeline, _, (h _ _ hr).start⟩

-- ---------------------------------------------------------------------------
-- All physical chunks
-- ---------------------------------------------------------------------------

def Findable (s : ChunkStore) : Prop :=
  ∀ (cid : ChunkId) c, s.physicalChunksPerChunkId[cid]? = some c → s.Lists c

theorem Findable.of_sub {s s' : ChunkStore} (h : s.Findable) (hp : PhysicalSub s s')
    (hl : ∀ c, s.Lists c → s'.Lists c) : s'.Findable :=
  fun _ _ hc => hl _ (h _ _ (hp.some hc))

theorem Findable.of_same {s s' : ChunkStore} (h : s.Findable) (hp : PhysicalSub s s')
    (hat : ∀ slot, s'.at slot = s.at slot) : s'.Findable :=
  h.of_sub hp fun _ hl => hl.of_at hat

theorem Findable.insertPhysical {s : ChunkStore} (h : s.Findable) (hc : s.Lists c) :
    (s.insertPhysical c).Findable := by
  intro cid d hd
  rw [insertPhysical_physical] at hd
  refine Lists.of_at ?_ (at_insertPhysical s c)
  split at hd
  · exact Option.some.inj hd ▸ hc
  · exact h _ _ hd

theorem Findable.removeChunksDeep {s : ChunkStore} (h : s.Findable) (hk : s.Keyed)
    {chunks : List Chunk} (hw : ∀ c ∈ chunks, c.WellFormed) {reason : ChunkDeletionReason}
    {exhausted : Nat → Bool} (hgone : ∀ c ∈ chunks,
      (s.removeChunksDeep env reason exhausted chunks).1.physicalChunksPerChunkId[c.id]? = none) :
    (s.removeChunksDeep env reason exhausted chunks).1.Findable := by
  intro cid d hd
  have hd' := (removeChunksDeep_physicalSub env reason s exhausted chunks).some hd
  refine (h _ _ hd').removeChunksDeep hw (fun hm => ?_) reason exhausted
  obtain ⟨c, hc, he⟩ := List.mem_map.mp hm
  rw [← hk hd', ← he, hgone c hc] at hd
  cases hd

theorem removeChunksDeep_uncut (env : Env) (reason : ChunkDeletionReason) (s : ChunkStore)
    (h : Uncut exhausted chunks) (hc : c ∈ chunks) :
    (s.removeChunksDeep env reason exhausted chunks).1.physicalChunksPerChunkId[c.id]? = none := by
  rw [ChunkStore.removeChunksDeep, (sweepIndices_samePhysical reason _ chunks).physical]
  exact removeChunksShallow_uncut env reason s h (List.mem_map_of_mem hc)

theorem Findable.dropEntityPath {s : ChunkStore} (h : s.Findable) (hk : s.Keyed) (e : EntityPath) :
    (s.dropEntityPath env e).1.Findable := by
  intro cid c hc
  have hc' := (dropEntityPath_physicalSub env s e).some hc
  cases hst : c.isStatic with
  | true => exact lists_of_isStatic _ hst
  | false =>
    have hne : e ≠ c.entityPath := by
      rintro rfl
      have hm := (h _ _ hc').mem_temporalIdsOf hst
      rw [hk hc'] at hm
      rw [dropEntityPath_physical, if_pos (.inr hm)] at hc
      cases hc
    intro slot range hr
    have hslot : slot.entityPath = c.entityPath := by
      cases slot <;> simp only [Chunk.rangeAt] at hr <;> split at hr <;> simp_all [Slot.entityPath]
    rw [at_dropEntityPath, if_neg (hslot ▸ hne)]
    exact h _ _ hc' slot range hr

theorem Findable.stored {s s' : ChunkStore} {c : Chunk} (h : s.Findable) (hcore : Core env pol s)
    (hc : c.Storable) (hs : Stored env s c s' diffs) : s'.Findable := by
  cases hs with
  | @static lineage hst _ =>
    obtain ⟨hl, hp⟩ := storeStatic_frame env s c lineage
    exact Findable.insertPhysical (h.of_same hp hl.at_eq) (lists_of_isStatic _ hst)
  | asIs before hst _ =>
    have hp : PhysicalSub s (s.insertIntoIndices env c) := .of_eq rfl
    exact Findable.insertPhysical (h.of_sub hp fun _ hl => hl.insertIntoIndices hc.wellFormed)
      (lists_insertIntoIndices env s hc.wellFormed)
  | @compacted n elected compacted hcomp =>
    have hw := (hcomp.storable hc).wellFormed
    have hel : elected.WellFormed := (hcore.storable hcomp.physical).wellFormed
    have hne : compacted.id ≠ elected.id := fun he =>
      hcore.mentions (.physical hcomp.physical) (he ▸ DrawnIn.future hcomp.drawn)
    have hp : PhysicalSub s ({ s with issued := n }.insertIntoIndices env compacted) := .of_eq rfl
    have h1 : Findable ({ s with issued := n }.insertIntoIndices env compacted) :=
      h.of_sub hp fun d hl => Lists.insertIntoIndices
        (hl.of_at fun slot => by cases slot <;> rfl) hw
    have hw' : ∀ d ∈ [elected], d.WellFormed := fun d hd => List.mem_singleton.mp hd ▸ hel
    have h2 : Findable ({ s with issued := n }.replaceElected env elected compacted).1 :=
      h1.removeChunksDeep hcore.keyed hw'
        fun d hd => removeChunksDeep_uncut _ _ _ (uncut_unlimited _) hd
    have hlist : Lists ({ s with issued := n }.replaceElected env elected compacted).1 compacted :=
      (lists_insertIntoIndices env _ hw).removeChunksDeep hw'
        (fun hm => hne (List.mem_singleton.mp hm)) _ _
    rw [compactInto_eq]
    have hp' : PhysicalSub ({ s with issued := n }.replaceElected env elected compacted).1
      (({ s with issued := n }.replaceElected env elected compacted).1.recordCompaction
        (sourcesOf env { s with issued := n } c elected compacted) compacted.id) := .of_eq rfl
    exact Findable.insertPhysical (h2.of_same hp' fun slot => by cases slot <;> rfl)
      (hlist.of_at fun slot => by cases slot <;> rfl)

theorem Step.findable {s s' : ChunkStore} (hcore : Core env pol s)
    (hpol : ∀ {exhausted chunks}, pol.sweep exhausted chunks → Uncut exhausted chunks)
    (h : s.Findable) (hs : Step env pol s diffs s') : s'.Findable := by
  cases hs with
  | draw _ | nextInsert | forgetSplit _ | recordSplit _ _ _ | recordLineage _ _ | announceStatic _ _ =>
    exact h.of_same (.of_eq rfl) fun slot => by cases slot <;> rfl
  | @announceTemporal entry _ _ =>
    have hp : PhysicalSub s (s.announceTemporal entry) := .of_eq rfl
    exact h.of_sub hp fun _ hl => hl.announceTemporal entry
  | announced _ => exact h
  | replaceVirtual reason hw hp =>
    refine h.removeChunksDeep hcore.keyed (fun d hd => List.mem_singleton.mp hd ▸ hw) ?_
    exact fun d hd => removeChunksDeep_uncut _ _ _ (uncut_unlimited _) hd
  | store hc _ _ _ _ hst => exact h.stored hcore hc hst
  | removeShallow reason exhausted _ _ =>
    exact h.of_same (removeChunksShallow_physicalSub _ _ _ _ _)
      (removeChunksShallow_sameIndices _ _ _ _ _).at_eq
  | removeDeep reason hp _ =>
    exact h.removeChunksDeep hcore.keyed (fun c hc => (hcore.storable (hp c hc)).wellFormed)
      fun d hd => removeChunksDeep_uncut _ _ _ (uncut_unlimited _) hd
  | sweep reason hp _ hok =>
    exact h.removeChunksDeep hcore.keyed (fun c hc => (hcore.storable (hp c hc)).wellFormed)
      fun d hd => removeChunksDeep_uncut _ _ _ (hpol hok) hd
  | dropEntityPath e => exact h.dropEntityPath hcore.keyed e

theorem findable_new (config : ChunkStoreConfig) : (ChunkStore.new config).Findable := by
  intro cid c hc
  simp [ChunkStore.new] at hc

-- ---------------------------------------------------------------------------
-- Runs
-- ---------------------------------------------------------------------------

/-- The clock never stops the physical part of a deep sweep. -/
def Policy.uncut : Policy := { Policy.any with sweep := Uncut }

/-- Every physical chunk is listed in all of its slots. -/
theorem findable_of_reached {s : ChunkStore} (h : Reached env .uncut config s) : s.Findable :=
  h.invariant (findable_new config) fun _ _ _ hcore hf hs => hs.findable hcore id hf

def sweepRun (deep : Nat) : List Op :=
  [.insertChunk (.single 1 1 0), .insertChunk (.single 2 2 10),
    .gc { GarbageCollectionOptions.gcEverything with
      timeBudget := some 10, performDeepDeletions := true } ⟨fun _ => 0, 0, fun _ => 0, 0, fun _ => deep⟩]

def staticSingle (id : ChunkId) (rowId : RowId) : Chunk := .ofColumns id ["e"] [rowId] [] [("c", [some []])]

def busyChunks : List Chunk :=
  [.single 1 1 0, .single 2 2 10, staticSingle 4 4, staticSingle 5 5, .single 3 3 20]

/-- Two chunks are compacted, a static one is overwritten, a deep collection removes what is
temporal, and a chunk comes after it. -/
def busyRun : List Op :=
  (busyChunks.take 4).map .insertChunk ++
    [.gc { GarbageCollectionOptions.gcEverything with performDeepDeletions := true }
        ⟨fun _ => 0, 0, fun _ => 0, 0, fun _ => 0⟩,
      .insertChunk (.single 3 3 20)]

theorem legals_busyRun {pol : Policy}
    (hinsert : ∀ c ∈ busyChunks, ∀ archive : Std.TreeMap ChunkId Chunk,
      archive[c.id]? = none → pol.chunk c ∧ pol.insert archive c)
    (hsweep : ∀ exhausted chunks, Uncut exhausted chunks → (chunks.map (·.id)).Nodup →
      pol.sweep exhausted chunks) :
    Legals .plain pol (ChunkStore.new .DEFAULT) busyRun := by
  have hplain : ∀ (c : Chunk) (s : ChunkStore), c ∈ busyChunks → c.WellFormed → c.id < 1000 →
      s.archive[c.id]? = none → (Op.insertChunk c).Legal .plain pol s :=
    fun c s hc hw hid hnew => ⟨hw, Env.plain_not_future hid _, hinsert c hc _ hnew⟩
  refine ⟨hplain _ _ ?_ ?_ ?_ ?_, hplain _ _ ?_ ?_ ?_ ?_, hplain _ _ ?_ ?_ ?_ ?_,
    hplain _ _ ?_ ?_ ?_ ?_, hsweep _ _ (fun _ _ => rfl) ?_, hplain _ _ ?_ ?_ ?_ ?_, trivial⟩
  all_goals decide

theorem findable_of_reached_busyRun :
    (run .plain .DEFAULT busyRun).physicalChunksPerChunkId.keys = [3, 5] ∧
      (run .plain .DEFAULT busyRun).Findable :=
  ⟨by decide, findable_of_reached (reached_run (legals_busyRun
    (fun _ _ _ _ => ⟨trivial, trivial⟩) fun _ _ h _ => h))⟩

/-- The second chunk is still physical when its index entries go. -/
theorem sweepRun_not_findable :
    Reached .plain .any .COMPACTION_DISABLED (run .plain .COMPACTION_DISABLED (sweepRun 10)) ∧
      ¬ (run .plain .COMPACTION_DISABLED (sweepRun 10)).Findable := by
  refine ⟨reached_run ⟨⟨?_, ?_, trivial, trivial⟩, ⟨?_, ?_, trivial, trivial⟩, trivial, trivial⟩,
    fun h => ?_⟩
  · decide
  · exact Env.plain_not_future (by decide) _
  · decide
  · exact Env.plain_not_future (by decide) _
  · have hstart := (h 2 (.single 2 2 10) (by decide) (.entity ["e"] "t")
      ⟨.newTemporal 10, .newTemporal 10⟩ (by decide)).start
    revert hstart
    decide

end ChunkStore

end DimosViewer
