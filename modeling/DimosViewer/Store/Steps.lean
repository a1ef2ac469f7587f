import DimosViewer.Store.WriteLaws

/-!
# The steps of a store

Every operation is a sequence of a few kinds of steps. A step states all that is
known when it is taken, so an invariant is proved by cases on the steps and
needs to look at no operation.
-/

namespace DimosViewer.ChunkStore

open Std (TreeMap)

-- ---------------------------------------------------------------------------
-- Names in use
-- ---------------------------------------------------------------------------

inductive Mentions (s : ChunkStore) (cid : ChunkId) : Prop
  | physical {c} : s.physicalChunksPerChunkId[cid]? = some c → Mentions s cid
  | lineage {l} : s.chunksLineage[cid]? = some l → Mentions s cid
  | source {compacted} : s.leakyCompactions[cid]? = some compacted → Mentions s cid
  | compacted {source : ChunkId} : s.leakyCompactions[source]? = some cid → Mentions s cid
  | parent {pieces} : s.danglingSplits[cid]? = some pieces → Mentions s cid
  | piece {parent : ChunkId} {pieces} : s.danglingSplits[parent]? = some pieces → cid ∈ pieces →
    Mentions s cid

inductive Indexes (s : ChunkStore) (cid : ChunkId) : Prop
  | start {slot time} : cid ∈ (s.at slot).startIds time → Indexes s cid
  | stop {slot time} : cid ∈ (s.at slot).endIds time → Indexes s cid
  | static {e component} : s.staticChunkId? e component = some cid → Indexes s cid
  | archive {c} : s.archive[cid]? = some c → Indexes s cid

/-- What a run may be asked to respect: which chunks there are, which are inserted
or announced given the archive, whether an id stands for chunks of one kind, and
how the clock may cut a deep sweep. -/
structure Policy where
  chunk : Chunk → Prop
  closed : ∀ {c d : Chunk}, d.entityPath = c.entityPath →
    (∀ entry ∈ d.columnTypes, entry ∈ c.columnTypes) → chunk c → chunk d
  insert : TreeMap ChunkId Chunk → Chunk → Prop
  announceStatic : TreeMap ChunkId Chunk → EntityPath × ComponentIdentifier × ChunkId → Prop
  announceTemporal : TreeMap ChunkId Chunk → EntityPath × Timeline × ComponentIdentifier ×
    ChunkId × RrdManifestTemporalMapEntry → Prop
  unique : Prop
  insert_unique : unique → ∀ {archive c d}, insert archive c → archive[c.id]? = some d →
    d.isStatic = c.isStatic
  sweep : (Nat → Bool) → List Chunk → Prop

def Policy.any : Policy where
  chunk _ := True
  closed _ _ h := h
  insert _ _ := True
  announceStatic _ _ := True
  announceTemporal _ _ := True
  unique := False
  insert_unique h := h.elim
  sweep _ _ := True

/-- The archive knows all physical chunks, and the pieces of splits as temporal. -/
structure Archived (pol : Policy) (s : ChunkStore) : Prop where
  physical : ∀ {key : ChunkId} {c}, s.physicalChunksPerChunkId[key]? = some c →
    s.archive[key]? = some c
  pieces : pol.unique → ∀ {parent piece : ChunkId} {pieces},
    s.danglingSplits[parent]? = some pieces → piece ∈ pieces →
      ∃ d, s.archive[piece]? = some d ∧ d.isStatic = false

/-- The physical chunks are in order, and no id in use is handed out again. -/
structure Core (env : Env) (pol : Policy) (s : ChunkStore) : Prop extends Archived pol s where
  keyed : s.Keyed
  storable : ∀ {key : ChunkId} {c}, s.physicalChunksPerChunkId[key]? = some c → c.Storable
  allowed : ∀ {key : ChunkId} {c}, s.physicalChunksPerChunkId[key]? = some c → pol.chunk c
  mentions : ∀ {cid}, s.Mentions cid → ¬ env.Future s.issued cid
  indexes : ∀ {cid}, s.Indexes cid → ¬ env.Future s.issued cid

-- ---------------------------------------------------------------------------
-- Steps
-- ---------------------------------------------------------------------------

def Physical (s : ChunkStore) (c : Chunk) : Prop := s.physicalChunksPerChunkId[c.id]? = some c

/-- The lineage of a chunk that is stored as it is. -/
def IsPlain (lineage : ChunkDirectLineageReport) : Prop :=
  ∀ sources, lineage ≠ .compactedFrom sources

structure Compacts (env : Env) (s : ChunkStore) (n : Nat) (c elected compacted : Chunk) : Prop
    extends Elects s c elected where
  temporal : c.isStatic = false
  isMerge : Chunk.IsMerge elected c compacted
  isSorted : compacted.isSorted = true
  drawn : Chunk.DrawnIn env.newId s.issued n compacted.id

/-- A chunk of the store's own making, under a drawn id that nothing refers to. -/
structure OwnMade (env : Env) (s : ChunkStore) (c : Chunk) : Prop where
  unindexed : ¬ s.Indexes c.id
  drawn : ∃ k, c.id = env.newId k
  temporal : c.isStatic = false

/-- How a chunk that is not split becomes physical. The `before` of an event is the
chunk that was split, if there is one. -/
inductive Stored (env : Env) (s : ChunkStore) (c : Chunk) :
    ChunkStore → List ChunkStoreDiff → Prop
  | static {lineage} : c.isStatic = true → IsPlain lineage →
    Stored env s c ((s.storeStatic env c lineage).1.insertPhysical c)
      (s.storeStatic env c lineage).2
  | asIs (before) {lineage} : c.isStatic = false → IsPlain lineage →
    Stored env s c ((s.insertIntoIndices env c).insertPhysical c) [.addition ⟨before, c, lineage⟩]
  | compacted {n elected compacted} : Compacts env s n c elected compacted →
    Stored env s c
      (({ s with issued := n }.compactInto env c elected compacted).1.insertPhysical compacted)
      [({ s with issued := n }.compactInto env c elected compacted).2]

inductive Step (env : Env) (pol : Policy) : ChunkStore → List ChunkStoreDiff → ChunkStore → Prop
  | draw {s n} : s.issued ≤ n → Step env pol s [] { s with issued := n }
  | nextInsert {s} : Step env pol s [] { s with insertId := s.insertId + 1 }
  | announceStatic {s entry} : ¬ env.Future s.issued entry.2.2 →
    pol.announceStatic s.archive entry → Step env pol s [] (s.announceStatic entry)
  | announceTemporal {s entry} : ¬ env.Future s.issued entry.2.2.2.1 →
    pol.announceTemporal s.archive entry → Step env pol s [] (s.announceTemporal entry)
  | announced {s} (manifest) : Step env pol s [.virtualAddition manifest] s
  | replaceVirtual {s c} (reason) : c.WellFormed → s.physicalChunksPerChunkId[c.id]? = none →
    Step env pol s ((s.removeChunksDeep env reason unlimited [c]).2.map .deletion)
      (s.removeChunksDeep env reason unlimited [c]).1
  | forgetSplit {s} (cid) :
    Step env pol s [] { s with danglingSplits := s.danglingSplits.erase cid }
  | recordSplit {s cid pieces} : ¬ env.Future s.issued cid →
    (∀ piece ∈ pieces, ¬ env.Future s.issued piece) →
    (∀ piece ∈ pieces, ∃ d, s.archive[piece]? = some d ∧ d.isStatic = false) →
    Step env pol s [] { s with danglingSplits := s.danglingSplits.insert cid pieces }
  | recordLineage {s cid} (lineage) : ¬ env.Future s.issued cid →
    Step env pol s [] (s.recordLineage cid lineage)
  | store {s s' c diffs} : c.Storable → ¬ env.Future s.issued c.id →
    s.physicalChunksPerChunkId[c.id]? = none → pol.chunk c →
    (pol.insert s.archive c ∨ OwnMade env s c) → Stored env s c s' diffs → Step env pol s diffs s'
  | removeShallow {s chunks} (reason exhausted) : (∀ c ∈ chunks, s.Physical c) →
    (∀ c ∈ chunks, c.isStatic = false) →
    Step env pol s ((s.removeChunksShallow env reason exhausted chunks).2.map .deletion)
      (s.removeChunksShallow env reason exhausted chunks).1
  | removeDeep {s chunks} (reason) : (∀ c ∈ chunks, s.Physical c) →
    (pol.unique → ∀ c ∈ chunks, c.isStatic = false) →
    Step env pol s ((s.removeChunksDeep env reason unlimited chunks).2.map .deletion)
      (s.removeChunksDeep env reason unlimited chunks).1
  | sweep {s exhausted chunks} (reason) : (∀ c ∈ chunks, s.Physical c) →
    (∀ c ∈ chunks, c.isStatic = false) → pol.sweep exhausted chunks →
    Step env pol s ((s.removeChunksDeep env reason exhausted chunks).2.map .deletion)
      (s.removeChunksDeep env reason exhausted chunks).1
  | dropEntityPath {s} (entityPath) :
    Step env pol s (s.dropEntityPath env entityPath).2 (s.dropEntityPath env entityPath).1

variable {env : Env} {pol : Policy}

-- ---------------------------------------------------------------------------
-- The core is kept by every step
-- ---------------------------------------------------------------------------

theorem Mentions.of_same {s s' : ChunkStore} {cid : ChunkId} (hl : SameLineage s s')
    (hp : PhysicalSub s s') (h : s'.Mentions cid) : s.Mentions cid := by
  cases h with
  | physical h => exact .physical (hp.some h)
  | lineage h => exact .lineage (hl.lineage ▸ h)
  | source h => exact .source (hl.leakyCompactions ▸ h)
  | compacted h => exact .compacted (hl.leakyCompactions ▸ h)
  | parent h => exact .parent (hl.danglingSplits ▸ h)
  | piece h hm => exact .piece (hl.danglingSplits ▸ h) hm

/-- The records name no more than before, but for `fresh` ids. -/
structure RecordsSub (s s' : ChunkStore) (fresh : ChunkId → Prop) : Prop where
  lineage : ∀ key l, s'.chunksLineage[key]? = some l →
    (∃ l', s.chunksLineage[key]? = some l') ∨ fresh key
  leaky : ∀ (key x : ChunkId), s'.leakyCompactions[key]? = some x →
    s.leakyCompactions[key]? = some x ∨ (s.Mentions key ∨ fresh key) ∧ fresh x
  dangling : ∀ (key : ChunkId) pieces, s'.danglingSplits[key]? = some pieces →
    s.danglingSplits[key]? = some pieces ∨ fresh key ∧ ∀ piece ∈ pieces, fresh piece

theorem Mentions.of_sub {fresh : ChunkId → Prop} {s s' : ChunkStore} {cid : ChunkId}
    (hp : PhysicalSub s s') (hr : RecordsSub s s' fresh) (h : s'.Mentions cid) :
    s.Mentions cid ∨ fresh cid := by
  cases h with
  | physical h => exact .inl (.physical (hp.some h))
  | lineage h =>
    rcases hr.lineage _ _ h with ⟨l', h⟩ | h
    · exact .inl (.lineage h)
    · exact .inr h
  | source h =>
    rcases hr.leaky _ _ h with h | ⟨h, -⟩
    · exact .inl (.source h)
    · exact h
  | compacted h =>
    rcases hr.leaky _ _ h with h | ⟨-, h⟩
    · exact .inl (.compacted h)
    · exact .inr h
  | parent h =>
    rcases hr.dangling _ _ h with h | ⟨h, -⟩
    · exact .inl (.parent h)
    · exact .inr h
  | piece h hm =>
    rcases hr.dangling _ _ h with h | ⟨-, h⟩
    · exact .inl (.piece h hm)
    · exact .inr (h _ hm)

/-- The temporal slots hold no more than before, but for `fresh` ids. -/
def SlotsSub (s s' : ChunkStore) (fresh : ChunkId → Prop) : Prop :=
  ∀ slot time x, (x ∈ (s'.at slot).startIds time → x ∈ (s.at slot).startIds time ∨ fresh x) ∧
    (x ∈ (s'.at slot).endIds time → x ∈ (s.at slot).endIds time ∨ fresh x)

theorem SlotsSub.of_at {s s' : ChunkStore} {fresh : ChunkId → Prop} (h : ∀ slot, s'.at slot = s.at slot) :
    SlotsSub s s' fresh := by
  intro slot time x
  rw [h]
  exact ⟨.inl, .inl⟩

theorem SlotsSub.mono {s s' : ChunkStore} {fresh fresh' : ChunkId → Prop} (h : SlotsSub s s' fresh)
    (hf : ∀ cid, fresh cid → fresh' cid) : SlotsSub s s' fresh' := fun slot time x =>
  ⟨fun hx => ((h slot time x).1 hx).imp_right (hf x), fun hx => ((h slot time x).2 hx).imp_right (hf x)⟩

theorem SlotsSub.trans {s s' s'' : ChunkStore} {fresh : ChunkId → Prop} (h : SlotsSub s s' fresh)
    (h' : SlotsSub s' s'' fresh) : SlotsSub s s'' fresh := fun slot time x =>
  ⟨fun hx => ((h' slot time x).1 hx).elim (h slot time x).1 .inr,
    fun hx => ((h' slot time x).2 hx).elim (h slot time x).2 .inr⟩

theorem Indexes.of_sub (fresh : ChunkId → Prop) {s s' : ChunkStore} {cid : ChunkId} (hs : SlotsSub s s' fresh)
    (hst : ∀ e component x, s'.staticChunkId? e component = some x →
      s.staticChunkId? e component = some x ∨ fresh x)
    (ha : ∀ x c, s'.archive[x]? = some c → s.archive[x]? = some c ∨ fresh x)
    (h : s'.Indexes cid) : s.Indexes cid ∨ fresh cid := by
  cases h with
  | start h => exact ((hs _ _ _).1 h).imp_left .start
  | stop h => exact ((hs _ _ _).2 h).imp_left .stop
  | static h => exact (hst _ _ _ h).imp_left .static
  | archive h => exact (ha _ _ h).imp_left .archive

theorem Indexes.of_same {s s' : ChunkStore} {cid : ChunkId} (h : s'.Indexes cid)
    (hat : ∀ slot, s'.at slot = s.at slot)
    (hst : s'.staticChunkIdsPerEntity = s.staticChunkIdsPerEntity) (ha : s'.archive = s.archive) :
    s.Indexes cid := by
  have hsub : SlotsSub s s' fun _ => False := .of_at hat
  refine (h.of_sub _ hsub (fun e component x hx => .inl ?_)
    fun _ _ hx => .inl (ha ▸ hx)).resolve_right id
  rwa [staticChunkId?, hst] at hx

theorem Archived.mono {s s' : ChunkStore} (h : Archived pol s) (hp : PhysicalSub s s')
    (ha : s'.archive = s.archive) (hd : ∀ (parent : ChunkId) pieces,
      s'.danglingSplits[parent]? = some pieces → s.danglingSplits[parent]? = some pieces) :
    Archived pol s' where
  physical hc := ha ▸ h.physical (hp.some hc)
  pieces hpol _ _ _ hd' hm := ha ▸ h.pieces hpol (hd _ _ hd') hm

theorem Archived.of_same {s s' : ChunkStore} (h : Archived pol s) (hl : SameLineage s s')
    (hp : PhysicalSub s s') : Archived pol s' :=
  h.mono hp hl.archive fun _ _ hd => hl.danglingSplits ▸ hd

theorem Core.mono {s s' : ChunkStore} (h : Core env pol s) (ha : Archived pol s')
    (hp : PhysicalSub s s') (hi : s.issued ≤ s'.issued)
    (hm : ∀ cid, s'.Mentions cid → s.Mentions cid ∨ ¬ env.Future s'.issued cid)
    (hx : ∀ cid, s'.Indexes cid → s.Indexes cid ∨ ¬ env.Future s'.issued cid) :
    Core env pol s' where
  toArchived := ha
  keyed hc := h.keyed (hp.some hc)
  storable hc := h.storable (hp.some hc)
  allowed hc := h.allowed (hp.some hc)
  mentions hc := (hm _ hc).elim (fun hc hf => h.mentions hc (hf.mono hi)) id
  indexes hc := (hx _ hc).elim (fun hc hf => h.indexes hc (hf.mono hi)) id

theorem slotsSub_removeChunksDeep {s : ChunkStore} {chunks : List Chunk}
    (hw : ∀ c ∈ chunks, c.WellFormed) (reason : ChunkDeletionReason) (exhausted : Nat → Bool)
    (fresh : ChunkId → Prop) :
    SlotsSub s (s.removeChunksDeep env reason exhausted chunks).1 fresh := by
  intro slot time x
  have h := removeChunksShallow_sameIndices env reason s exhausted chunks
  refine ⟨fun hx => .inl ?_, fun hx => .inl ?_⟩
  · have hx := (mem_startIds_sweepIndices hw).mp hx
    rw [h.at_eq] at hx
    exact hx.1
  · have hx := (mem_endIds_sweepIndices hw).mp hx
    rw [h.at_eq] at hx
    exact hx.1

theorem Core.of_same {s s' : ChunkStore} (h : Core env pol s) (hl : SameIndices s s')
    (hp : PhysicalSub s s') : Core env pol s' := by
  exact h.mono (h.toArchived.of_same hl.toSameLineage hp) hp hl.issued.ge
    (fun _ hm => .inl (hm.of_same hl.toSameLineage hp)) fun _ hx => .inl (hx.of_same hl.at_eq hl.staticIds hl.archive)

theorem slotsSub_dropEntityPath (s : ChunkStore) (e : EntityPath) (fresh : ChunkId → Prop) :
    SlotsSub s (s.dropEntityPath env e).1 fresh := by
  intro slot time x
  rw [at_dropEntityPath]
  split
  · exact ⟨fun h => (ChunkIdSetPerTime.not_mem_startIds_default h).elim,
      fun h => (ChunkIdSetPerTime.not_mem_endIds_default h).elim⟩
  · exact ⟨.inl, .inl⟩

theorem Core.dropEntityPath {s : ChunkStore} (h : Core env pol s) (e : EntityPath) :
    Core env pol (s.dropEntityPath env e).1 := by
  have hl := dropEntityPath_sameLineage env s e
  have hp := dropEntityPath_physicalSub env s e
  have hs : SlotsSub s (s.dropEntityPath env e).1 fun _ => False := slotsSub_dropEntityPath s e _
  refine h.mono (h.toArchived.of_same hl hp) hp hl.issued.ge
    (fun _ hm => .inl (hm.of_same hl hp)) fun _ hx => ?_
  have hx := hx.of_sub _ hs (fun e component x hx => .inl ?_)
    (fun x c hx => .inl (hl.archive ▸ hx))
  · exact .inl (hx.resolve_right id)
  · rw [staticChunkId?_dropEntityPath] at hx
    split at hx
    · cases hx
    · exact hx

theorem Indexes.of_insertPhysical {s : ChunkStore} {c : Chunk} {cid : ChunkId}
    (h : (s.insertPhysical c).Indexes cid) : s.Indexes cid ∨ cid = c.id := by
  have hs : SlotsSub s (s.insertPhysical c) (· = c.id) := .of_at (at_insertPhysical s c)
  refine h.of_sub _ hs (fun _ _ _ hx => .inl hx) fun x d hd => ?_
  rw [ChunkStore.insertPhysical, OrdMap.getElem?_insert] at hd
  split at hd
  · rename_i heq
    exact .inr heq.symm
  · exact .inl hd

theorem slotsSub_insertIntoIndices {s : ChunkStore} {c : Chunk} (hw : c.WellFormed) :
    SlotsSub s (s.insertIntoIndices env c) fun cid => cid = c.id ∧ c.isStatic = false := by
  intro slot time x
  rw [at_insertIntoIndices env hw]
  cases hr : c.rangeAt slot with
  | none => exact ⟨.inl, .inl⟩
  | some range =>
    have hst := c.isStatic_eq_false_of_rangeAt hr
    simp only [Option.elim_some, ChunkIdSetPerTime.mem_startIds_insertRange,
      ChunkIdSetPerTime.mem_endIds_insertRange, hst, and_true]
    exact ⟨fun h => h.symm.imp_right And.right, fun h => h.symm.imp_right And.right⟩

theorem Indexes.of_insertIntoIndices {s : ChunkStore} {c : Chunk} {cid : ChunkId}
    (hw : c.WellFormed) (h : (s.insertIntoIndices env c).Indexes cid) :
    s.Indexes cid ∨ cid = c.id := by
  have hs : SlotsSub s (s.insertIntoIndices env c) (· = c.id) :=
    (slotsSub_insertIntoIndices hw).mono fun _ => And.left
  exact h.of_sub _ hs (fun _ _ _ hx => .inl hx) fun _ _ hx => .inl hx

theorem Indexes.of_removeChunksDeep {s : ChunkStore} {chunks : List Chunk} {cid : ChunkId}
    (hw : ∀ c ∈ chunks, c.WellFormed) {reason : ChunkDeletionReason} {exhausted : Nat → Bool}
    (h : (s.removeChunksDeep env reason exhausted chunks).1.Indexes cid) : s.Indexes cid := by
  have hl := removeChunksDeep_sameLineage env reason s exhausted chunks
  refine (h.of_sub (fun _ => False) (slotsSub_removeChunksDeep hw reason exhausted _)
    (fun e component x hx => .inl ?_) fun x c hx => .inl (hl.archive ▸ hx)).resolve_right id
  rwa [staticChunkId?, removeChunksDeep_staticIds] at hx

theorem Core.removeChunksDeep {s : ChunkStore} {chunks : List Chunk} (h : Core env pol s)
    (hw : ∀ c ∈ chunks, c.WellFormed) (reason : ChunkDeletionReason) (exhausted : Nat → Bool) :
    Core env pol (s.removeChunksDeep env reason exhausted chunks).1 := by
  have hl := removeChunksDeep_sameLineage env reason s exhausted chunks
  have hp := removeChunksDeep_physicalSub env reason s exhausted chunks
  exact h.mono (h.toArchived.of_same hl hp) hp hl.issued.ge
    (fun _ hm => .inl (hm.of_same hl hp)) fun _ hx => .inl (hx.of_removeChunksDeep hw)

theorem Indexes.of_storeStatic {s : ChunkStore} {c : Chunk} {cid : ChunkId} (hw : c.WellFormed)
    {lineage : ChunkDirectLineageReport} (h : (s.storeStatic env c lineage).1.Indexes cid) :
    s.Indexes cid ∨ cid = c.id := by
  obtain ⟨hl, hp⟩ := storeStatic_frame env s c lineage
  have hsub : SlotsSub s (s.storeStatic env c lineage).1 (· = c.id) := .of_at hl.at_eq
  refine h.of_sub _ hsub (fun e component x hx => ?_) fun x c hx => .inl (hl.archive ▸ hx)
  rw [storeStatic_staticChunkId?] at hx
  rcases overwriteComponents_staticChunkId? c c.components hw.components_nodup (s, ∅) e
    component with ⟨ht, -⟩ | ⟨ht, -⟩
  · rw [ht] at hx
    exact .inr (Option.some.inj hx).symm
  · rw [ht] at hx
    exact .inl hx

theorem Archived.insertPhysical {s : ChunkStore} {c : Chunk} (h : Archived pol s)
    (hu : pol.unique → ∀ d, s.archive[c.id]? = some d → d.isStatic = c.isStatic) :
    Archived pol (s.insertPhysical c) where
  physical {key d} hd := by
    rw [insertPhysical_physical] at hd
    refine (OrdMap.getElem?_insert _ _ _ _).trans ?_
    split at hd
    · rwa [if_pos ‹_›]
    · rw [if_neg ‹_›]
      exact h.physical hd
  pieces hpol parent piece pieces hd hm := by
    obtain ⟨d, ha, hst⟩ := h.pieces hpol hd hm
    by_cases he : c.id = piece
    · exact ⟨c, (OrdMap.getElem?_insert _ _ _ _).trans (if_pos he),
        (hu hpol d (he ▸ ha)).symm.trans hst⟩
    · exact ⟨d, (OrdMap.getElem?_insert _ _ _ _).trans ((if_neg he).trans ha), hst⟩

theorem Core.insertPhysical {s : ChunkStore} {c : Chunk} (h : Core env pol s) (hs : c.Storable)
    (ha : pol.chunk c) (hf : ¬ env.Future s.issued c.id)
    (hu : pol.unique → ∀ d, s.archive[c.id]? = some d → d.isStatic = c.isStatic) :
    Core env pol (s.insertPhysical c) where
  toArchived := h.toArchived.insertPhysical hu
  keyed {key d} hd := by
    rw [insertPhysical_physical] at hd
    split at hd
    · cases hd
      assumption
    · exact h.keyed hd
  storable {key d} hd := by
    rw [insertPhysical_physical] at hd
    split at hd
    · cases hd
      exact hs
    · exact h.storable hd
  allowed {key d} hd := by
    rw [insertPhysical_physical] at hd
    split at hd
    · cases hd
      exact ha
    · exact h.allowed hd
  mentions {cid} hm := by
    cases hm with
    | physical hd =>
      rw [insertPhysical_physical] at hd
      split at hd
      · rename_i heq
        exact heq ▸ hf
      · exact h.mentions (.physical hd)
    | lineage hd => exact h.mentions (.lineage hd)
    | source hd => exact h.mentions (.source hd)
    | compacted hd => exact h.mentions (.compacted hd)
    | parent hd => exact h.mentions (.parent hd)
    | piece hd hm => exact h.mentions (.piece hd hm)
  indexes {cid} hx := by
    rcases hx.of_insertPhysical with hx | rfl
    · exact h.indexes hx
    · exact hf

theorem Compacts.storable {s : ChunkStore} {n : Nat} {c elected compacted : Chunk}
    (h : Compacts env s n c elected compacted) (hc : c.Storable) : compacted.Storable := by
  refine ⟨h.isMerge.wellFormed, h.isSorted, fun hnil => hc.rowIds_ne ?_⟩
  have hp := h.isMerge.rowIds
  rw [hnil] at hp
  exact (List.append_eq_nil_iff.mp hp.nil_eq.symm).2

theorem Compacts.issued_le {s : ChunkStore} {n : Nat} {c elected compacted : Chunk}
    (h : Compacts env s n c elected compacted) : s.issued ≤ n := by
  obtain ⟨k, hk, hk', -⟩ := h.drawn
  exact hk.trans hk'.le

theorem Core.draw {s : ChunkStore} (h : Core env pol s) (hn : s.issued ≤ n) :
    Core env pol { s with issued := n } := by
  have hr : RecordsSub s { s with issued := n } fun _ => False :=
    ⟨fun _ l h => .inl ⟨l, h⟩, fun _ _ h => .inl h, fun _ _ h => .inl h⟩
  have hp : PhysicalSub s { s with issued := n } := .of_eq rfl
  have hat : ∀ slot, { s with issued := n }.at slot = s.at slot := fun slot => by cases slot <;> rfl
  exact h.mono (h.toArchived.mono hp rfl fun _ _ hd => hd) hp hn (fun key hm => .inl ((hm.of_sub hp hr).resolve_right id))
    fun key hx => .inl (hx.of_same hat rfl rfl)

theorem Core.insertIntoIndices {s : ChunkStore} {c : Chunk} (h : Core env pol s)
    (hw : c.WellFormed) (hf : ¬ env.Future s.issued c.id) :
    Core env pol (s.insertIntoIndices env c) := by
  have hl : SameLineage s (s.insertIntoIndices env c) := ⟨rfl, rfl, rfl, rfl, rfl, rfl, rfl⟩
  have hp : PhysicalSub s (s.insertIntoIndices env c) := .of_eq rfl
  refine h.mono (h.toArchived.of_same hl hp) hp le_rfl (fun cid hm => .inl (hm.of_same hl hp))
    fun cid hx => (hx.of_insertIntoIndices hw).imp_right ?_
  rintro rfl
  exact hf

theorem Core.recordCompaction {s : ChunkStore} (h : Core env pol s) (srcs : TreeMap ChunkId Chunk)
    (hs : ∀ key ∈ srcs.keys, ¬ env.Future s.issued key) (hf : ¬ env.Future s.issued cid) :
    Core env pol (s.recordCompaction srcs cid) := by
  have hr : RecordsSub s (s.recordCompaction srcs cid) (¬ env.Future s.issued ·) := by
    refine ⟨fun key l hd => ?_, fun key x hd => ?_, fun _ _ hd => .inl hd⟩
    · rw [ChunkStore.recordCompaction, OrdMap.getElem?_insert] at hd
      split at hd
      · rename_i heq
        exact .inr (heq ▸ hf)
      · exact .inl ⟨l, hd⟩
    · rw [ChunkStore.recordCompaction, getElem?_foldl_insert] at hd
      split at hd
      · rename_i hk
        cases hd
        exact .inr ⟨.inr (hs key hk), hf⟩
      · exact .inl hd
  have hat : ∀ slot, (s.recordCompaction srcs cid).at slot = s.at slot :=
    fun slot => by cases slot <;> rfl
  have hp : PhysicalSub s (s.recordCompaction srcs cid) := .of_eq rfl
  exact h.mono (h.toArchived.mono hp rfl fun _ _ hd => hd) hp le_rfl
    (fun key hm => hm.of_sub hp hr) fun key hx => .inl (hx.of_same hat rfl rfl)

theorem Core.stored {s s' : ChunkStore} {c : Chunk} (h : Core env pol s) (hc : c.Storable)
    (hf : ¬ env.Future s.issued c.id) (ha : pol.chunk c)
    (hi : pol.insert s.archive c ∨ OwnMade env s c) (hs : Stored env s c s' diffs) :
    Core env pol s' := by
  have hu : pol.unique → ∀ d, s.archive[c.id]? = some d → d.isStatic = c.isStatic :=
    fun hpol d hd => hi.elim (fun hi => pol.insert_unique hpol hi hd)
      fun hx => absurd (.archive hd) hx.unindexed
  cases hs with
  | @static lineage hst _ =>
    obtain ⟨hl, hp⟩ := storeStatic_frame env s c lineage
    have hcore : Core env pol (s.storeStatic env c lineage).1 := by
      refine h.mono (h.toArchived.of_same hl.toSameLineage hp) hp hl.issued.ge (fun _ hm => .inl (hm.of_same hl.toSameLineage hp)) fun _ hx => ?_
      rcases hx.of_storeStatic hc.wellFormed with hx | rfl
      · exact .inl hx
      · rw [hl.issued]
        exact .inr hf
    exact hcore.insertPhysical hc ha (hl.issued ▸ hf) fun hpol d hd => hu hpol d (hl.archive ▸ hd)
  | asIs before hst _ =>
    exact (h.insertIntoIndices hc.wellFormed hf).insertPhysical hc ha hf hu
  | @compacted n elected compacted hcomp =>
    have hf' := DrawnIn.not_future hcomp.drawn
    have hcs := hcomp.storable hc
    have helected := h.storable hcomp.physical
    have hcore : Core env pol ({ s with issued := n }.replaceElected env elected compacted).1 :=
      ((h.draw hcomp.issued_le).insertIntoIndices hcs.wellFormed hf').removeChunksDeep
        (fun d hd => by rw [List.mem_singleton.mp hd]; exact helected.wellFormed) _ _
    have hissued := (replaceElected_sameLineage env { s with issued := n } elected
      compacted).issued
    rw [compactInto_eq]
    refine Core.insertPhysical (hcore.recordCompaction _ ?_ ?_) hcs ?_ ?_ ?_
    · intro key hk hfut
      rw [hissued] at hfut
      rcases mem_sourcesOf hk with rfl | rfl
      · exact hf (hfut.mono hcomp.issued_le)
      · exact h.mentions (.physical hcomp.physical) (hfut.mono hcomp.issued_le)
    · rwa [hissued]
    · exact pol.closed hcomp.isMerge.entityPath
        (fun entry he => (hcomp.isMerge.columnTypes entry he).1) (h.allowed hcomp.physical)
    · intro hfut
      rw [ChunkStore.recordCompaction, hissued] at hfut
      exact hf' hfut
    · intro _ d hd
      rw [ChunkStore.recordCompaction, (replaceElected_sameLineage env _ elected
        compacted).archive] at hd
      exact absurd (DrawnIn.future hcomp.drawn) (h.indexes (.archive hd))

theorem Stored.slotsSub {s s' : ChunkStore} {c : Chunk} (h : Core env pol s) (hc : c.Storable)
    (hs : Stored env s c s' diffs) :
    SlotsSub s s' fun cid => cid = c.id ∧ c.isStatic = false ∨ env.Future s.issued cid := by
  cases hs with
  | @static lineage hst _ =>
    refine .of_at fun slot => ?_
    rw [at_insertPhysical, (storeStatic_frame env s c lineage).1.at_eq]
  | asIs before hst _ =>
    have hi : SlotsSub s (s.insertIntoIndices env c) _ := slotsSub_insertIntoIndices hc.wellFormed
    exact (hi.mono fun _ => .inl).trans (.of_at (at_insertPhysical _ c))
  | @compacted n elected compacted hcomp =>
    have hel := (h.storable hcomp.physical).wellFormed
    have hw : ∀ d ∈ [elected], d.WellFormed := fun d hd => List.mem_singleton.mp hd ▸ hel
    have hins : SlotsSub s ({ s with issued := n }.insertIntoIndices env compacted)
        fun cid => cid = c.id ∧ c.isStatic = false ∨ env.Future s.issued cid := by
      have h0 : SlotsSub s { s with issued := n } fun cid => cid = compacted.id ∧
          compacted.isStatic = false := .of_at fun slot => by cases slot <;> rfl
      refine (h0.trans (slotsSub_insertIntoIndices (hcomp.storable hc).wellFormed)).mono ?_
      rintro _ ⟨rfl, -⟩
      exact .inr (DrawnIn.future hcomp.drawn)
    have hrem : SlotsSub _ ({ s with issued := n }.replaceElected env elected compacted).1
        fun cid => cid = c.id ∧ c.isStatic = false ∨ env.Future s.issued cid :=
      slotsSub_removeChunksDeep hw .compaction unlimited _
    rw [compactInto_eq]
    refine (hins.trans hrem).trans (.of_at fun slot => ?_)
    rw [at_insertPhysical]
    cases slot <;> rfl

theorem Core.announceStatic {s : ChunkStore} (h : Core env pol s)
    {entry : EntityPath × ComponentIdentifier × ChunkId} (hf : ¬ env.Future s.issued entry.2.2) :
    Core env pol (s.announceStatic entry) := by
  obtain ⟨e, component, cid⟩ := entry
  have hr : RecordsSub s (s.announceStatic (e, component, cid)) (· = cid) := by
    refine ⟨fun key l hd => ?_, fun _ _ hd => .inl hd, fun _ _ hd => .inl hd⟩
    rw [ChunkStore.announceStatic, OrdMap.getElem?_insert] at hd
    split at hd
    · rename_i heq
      exact .inr heq.symm
    · exact .inl ⟨l, hd⟩
  have hsub : SlotsSub s (s.announceStatic (e, component, cid)) (· = cid) :=
    .of_at fun slot => by cases slot <;> rfl
  have hstatic : ∀ e' component' x, (s.announceStatic (e, component, cid)).staticChunkId? e'
      component' = some x → s.staticChunkId? e' component' = some x ∨ x = cid := by
    intro e' component' x hx
    rw [staticChunkId?_announceStatic] at hx
    split at hx
    · exact .inr (Option.some.inj hx).symm
    · exact .inl hx
  have hcid : ∀ key, key = cid → ¬ env.Future s.issued key := fun key hk => hk ▸ hf
  have hp : PhysicalSub s (s.announceStatic (e, component, cid)) := .of_eq rfl
  exact h.mono (h.toArchived.mono hp rfl fun _ _ hd => hd) hp le_rfl
    (fun key hm => (hm.of_sub hp hr).imp_right (hcid key))
    fun key hx => (hx.of_sub _ hsub hstatic fun _ _ hx => .inl hx).imp_right (hcid key)

theorem slotsSub_announceTemporal (s : ChunkStore) (entry : EntityPath × Timeline ×
    ComponentIdentifier × ChunkId × RrdManifestTemporalMapEntry) :
    SlotsSub s (s.announceTemporal entry) (· = entry.2.2.2.1) := by
  obtain ⟨e, timeline, component, cid, entry⟩ := entry
  intro slot time x
  rw [at_announceTemporal]
  split
  · simp only [ChunkIdSetPerTime.mem_startIds_insertRange,
      ChunkIdSetPerTime.mem_endIds_insertRange]
    exact ⟨fun h => h.symm.imp_right And.right, fun h => h.symm.imp_right And.right⟩
  · exact ⟨.inl, .inl⟩

theorem Core.announceTemporal {s : ChunkStore} (h : Core env pol s)
    {entry : EntityPath × Timeline × ComponentIdentifier × ChunkId × RrdManifestTemporalMapEntry}
    (hf : ¬ env.Future s.issued entry.2.2.2.1) : Core env pol (s.announceTemporal entry) := by
  obtain ⟨e, timeline, component, cid, entry⟩ := entry
  have hr : RecordsSub s (s.announceTemporal (e, timeline, component, cid, entry)) (· = cid) := by
    refine ⟨fun key l hd => ?_, fun _ _ hd => .inl hd, fun _ _ hd => .inl hd⟩
    rw [ChunkStore.announceTemporal, OrdMap.getElem?_insert] at hd
    split at hd
    · rename_i heq
      exact .inr heq.symm
    · exact .inl ⟨l, hd⟩
  have hsub : SlotsSub s (s.announceTemporal (e, timeline, component, cid, entry)) (· = cid) :=
    slotsSub_announceTemporal s _
  have hcid : ∀ key, key = cid → ¬ env.Future s.issued key := fun key hk => hk ▸ hf
  have hp : PhysicalSub s (s.announceTemporal (e, timeline, component, cid, entry)) := .of_eq rfl
  exact h.mono (h.toArchived.mono hp rfl fun _ _ hd => hd) hp le_rfl
    (fun key hm => (hm.of_sub hp hr).imp_right (hcid key))
    fun key hx => (hx.of_sub _ hsub (fun _ _ _ hx => .inl hx) fun _ _ hx => .inl hx).imp_right
      (hcid key)

theorem Core.of_records {s s' : ChunkStore} (h : Core env pol s) (ha' : Archived pol s')
    (hp : PhysicalSub s s') (hi : s'.issued = s.issued) (hat : ∀ slot, s'.at slot = s.at slot)
    (hst : s'.staticChunkIdsPerEntity = s.staticChunkIdsPerEntity) (ha : s'.archive = s.archive)
    (hr : RecordsSub s s' (¬ env.Future s.issued ·)) : Core env pol s' := by
  exact h.mono ha' hp hi.ge (fun key hm => hi ▸ hm.of_sub hp hr)
    fun key hx => .inl (hx.of_same hat hst ha)

theorem Core.recordSplit {s : ChunkStore} (h : Core env pol s) (hf : ¬ env.Future s.issued cid)
    (hp : ∀ piece ∈ pieces, ¬ env.Future s.issued piece)
    (ha : ∀ piece ∈ pieces, ∃ d, s.archive[piece]? = some d ∧ d.isStatic = false) :
    Core env pol { s with danglingSplits := s.danglingSplits.insert cid pieces } := by
  refine h.of_records ⟨h.toArchived.physical, fun hpol parent piece pieces' hd hm => ?_⟩
    (.of_eq rfl) rfl (fun slot => by cases slot <;> rfl) rfl rfl
    ⟨fun _ l hd => .inl ⟨l, hd⟩, fun _ _ hd => .inl hd, fun key pieces' hd => ?_⟩
  · rw [OrdMap.getElem?_insert] at hd
    split at hd
    · cases hd
      exact ha _ hm
    · exact h.pieces hpol hd hm
  · rw [OrdMap.getElem?_insert] at hd
    split at hd
    · rename_i heq
      cases hd
      exact .inr ⟨heq ▸ hf, hp⟩
    · exact .inl hd

theorem Core.forgetSplit {s : ChunkStore} (h : Core env pol s) (cid : ChunkId) :
    Core env pol { s with danglingSplits := s.danglingSplits.erase cid } := by
  have herase : ∀ (key : ChunkId) pieces, (s.danglingSplits.erase cid)[key]? = some pieces →
      s.danglingSplits[key]? = some pieces := by
    intro key pieces hd
    rw [OrdMap.getElem?_erase] at hd
    split at hd
    · cases hd
    · exact hd
  exact h.of_records (h.toArchived.mono (.of_eq rfl) rfl herase) (.of_eq rfl) rfl
    (fun slot => by cases slot <;> rfl) rfl rfl
    ⟨fun _ l hd => .inl ⟨l, hd⟩, fun _ _ hd => .inl hd, fun key pieces hd => .inl (herase _ _ hd)⟩

theorem Core.recordLineage {s : ChunkStore} (h : Core env pol s)
    (lineage : ChunkDirectLineageReport) (hf : ¬ env.Future s.issued cid) :
    Core env pol (s.recordLineage cid lineage) := by
  refine h.of_records (h.toArchived.mono (.of_eq rfl) rfl fun _ _ hd => hd) (.of_eq rfl) rfl
    (fun slot => by cases slot <;> rfl) rfl rfl ⟨fun key l hd => ?_, fun _ _ hd => .inl hd, fun _ _ hd => .inl hd⟩
  simp only [ChunkStore.recordLineage, OrdMap.getElem?_insertIfNew] at hd
  split at hd
  · rename_i heq
    exact .inr (heq.1 ▸ hf)
  · exact .inl ⟨l, hd⟩

theorem Core.nextInsert {s : ChunkStore} (h : Core env pol s) :
    Core env pol { s with insertId := s.insertId + 1 } :=
  h.of_records (h.toArchived.mono (.of_eq rfl) rfl fun _ _ hd => hd) (.of_eq rfl) rfl
    (fun slot => by cases slot <;> rfl) rfl rfl ⟨fun _ l hd => .inl ⟨l, hd⟩, fun _ _ hd => .inl hd, fun _ _ hd => .inl hd⟩

theorem Step.core {s s' : ChunkStore} (h : Core env pol s) (hs : Step env pol s diffs s') :
    Core env pol s' := by
  cases hs with
  | draw hn => exact h.draw hn
  | nextInsert => exact h.nextInsert
  | announceStatic hf _ => exact h.announceStatic hf
  | announceTemporal hf _ => exact h.announceTemporal hf
  | announced _ => exact h
  | replaceVirtual reason hw _ =>
    exact h.removeChunksDeep (fun d hd => List.mem_singleton.mp hd ▸ hw) reason _
  | forgetSplit cid => exact h.forgetSplit cid
  | recordSplit hf hp ha => exact h.recordSplit hf hp ha
  | recordLineage lineage hf => exact h.recordLineage lineage hf
  | store hc hf _ ha hi hst => exact h.stored hc hf ha hi hst
  | removeShallow reason exhausted _ _ =>
    exact h.of_same (removeChunksShallow_sameIndices _ _ _ _ _) (removeChunksShallow_physicalSub _ _ _ _ _)
  | removeDeep reason hp _ =>
    exact h.removeChunksDeep (fun c hc => (h.storable (hp c hc)).wellFormed) reason _
  | sweep reason hp _ _ =>
    exact h.removeChunksDeep (fun c hc => (h.storable (hp c hc)).wellFormed) reason _
  | dropEntityPath e => exact h.dropEntityPath e

end DimosViewer.ChunkStore
