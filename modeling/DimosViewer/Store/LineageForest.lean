import DimosViewer.DerivationForest
import DimosViewer.Store.GcLatest
import DimosViewer.Store.RunLaws

/-!
# Lineage is a forest

Splits and compactions derive chunks under ids of their own. Compacted chunks have later ids than
their sources, and neither the sources nor the parents of splits come from a split.
-/

namespace DimosViewer

open DerivationForest

open Classical in
/-- Ids that are drawn later rank higher, all others rank lowest. -/
noncomputable def Env.rank (env : Env) (cid : ChunkId) : Nat :=
  if h : ∃ k, cid = env.newId k then h.choose + 1 else 0

theorem Env.rank_newId (env : Env) (k : Nat) : env.rank (env.newId k) = k + 1 := by
  have h : ∃ j, env.newId k = env.newId j := ⟨k, rfl⟩
  rw [rank, dif_pos h, ← env.newId_injective h.choose_spec]

theorem Env.rank_le {env : Env} {cid : ChunkId} (h : ¬ env.Future n cid) : env.rank cid ≤ n := by
  by_cases hk : ∃ k, cid = env.newId k
  · obtain ⟨k, rfl⟩ := hk
    rw [env.rank_newId]
    exact Nat.lt_of_not_le fun hle => h ⟨k, hle, rfl⟩
  · rw [rank, dif_neg hk]
    exact Nat.zero_le n

theorem DrawnIn.lt_rank {env : Env} {cid : ChunkId} (h : Chunk.DrawnIn env.newId n n' cid) :
    n < env.rank cid := by
  obtain ⟨k, hk, -, rfl⟩ := h
  rw [env.rank_newId]
  exact Nat.lt_succ_of_le hk

-- ---------------------------------------------------------------------------
-- Lineage as a forest
-- ---------------------------------------------------------------------------

def ChunkDirectLineage.origin : ChunkDirectLineage → Origin ChunkId
  | .splitFrom parent _ => .cut parent
  | .compactedFrom ids => .merged ids
  | .rootFromManifest _ => .root
  | .volatile => .root

namespace ChunkStore

open Std (TreeMap)

variable {env : Env} {pol : Policy}

def origin (s : ChunkStore) (cid : ChunkId) : Option (Origin ChunkId) :=
  s.chunksLineage[cid]?.map (·.origin)

theorem origin_eq_none {s : ChunkStore} (h : s.chunksLineage[cid]? = none) :
    s.origin cid = none := by rw [origin, h, Option.map_none]

theorem isRootChunk_iff_origin {s : ChunkStore} :
    s.isRootChunk cid = true ↔ s.origin cid = none ∨ s.origin cid = some .root := by
  rw [isRootChunk, origin]
  cases s.chunksLineage[cid]? with
  | none => simp
  | some l => cases l <;> simp [ChunkDirectLineage.origin]

theorem whole_of_not_split {s : ChunkStore} (h : s.descendsFromASplit cid = false)
    (hr : s.origin cid = some o) : Whole s.origin cid := by
  rw [descendsFromASplit] at h
  rw [origin] at hr
  cases hl : s.chunksLineage[cid]? with
  | none =>
    rw [hl] at hr
    cases hr
  | some l =>
    rw [hl] at h
    cases l with
    | splitFrom parent siblings => cases h
    | compactedFrom ids => exact .inr ⟨ids, by simp [origin, hl, ChunkDirectLineage.origin]⟩
    | rootFromManifest => exact .inl (by simp [origin, hl, ChunkDirectLineage.origin])
    | volatile => exact .inl (by simp [origin, hl, ChunkDirectLineage.origin])

structure Tracked (env : Env) (s : ChunkStore) : Prop where
  ordered : Ordered s.origin env.rank
  physical : ∀ {key : ChunkId} {c}, s.physicalChunksPerChunkId[key]? = some c →
    ∃ o, s.origin key = some o
  leaky : ∀ {source compacted : ChunkId}, s.leakyCompactions[source]? = some compacted →
    env.rank source < env.rank compacted

namespace Tracked

theorem new (env : Env) (config : ChunkStoreConfig) : Tracked env (ChunkStore.new config) where
  ordered _ _ h := by simp [origin, ChunkStore.new] at h
  physical h := by simp [ChunkStore.new] at h
  leaky h := by simp [ChunkStore.new] at h

theorem of_same {s s' : ChunkStore} (h : Tracked env s) (hl : s'.chunksLineage = s.chunksLineage)
    (hk : s'.leakyCompactions = s.leakyCompactions) (hp : PhysicalSub s s') : Tracked env s' := by
  have horigin : s'.origin = s.origin := by
    funext cid
    rw [origin, hl, origin]
  refine ⟨horigin ▸ h.ordered, fun hc => ?_, fun hc => h.leaky (hk ▸ hc)⟩
  exact horigin ▸ h.physical (hp.some hc)

theorem setRoot {s s' : ChunkStore} (h : Tracked env s) (hroot : s.isRootChunk cid = true)
    (hl : ∀ key : ChunkId, s'.origin key = if cid = key then some .root else s.origin key)
    (hk : s'.leakyCompactions = s.leakyCompactions) (hp : PhysicalSub s s') : Tracked env s' where
  ordered := by
    rcases isRootChunk_iff_origin.mp hroot with hnone | hsome
    · have hadmits : Admits s.origin env.rank cid .root := trivial
      exact h.ordered.add hnone hadmits hl
    · refine h.ordered.congr fun key => ?_
      rw [hl]
      split
      · rename_i he
        rw [← he, hsome]
      · rfl
  physical {key _} hc := by
    rw [hl]
    split
    · exact ⟨_, rfl⟩
    · exact h.physical (hp.some hc)
  leaky hc := h.leaky (hk ▸ hc)

theorem storePiece {s : ChunkStore} {c p : Chunk} (h : Tracked env s) (pieces : List Chunk)
    (hc : s.origin c.id = some .root) (hp : s.chunksLineage[p.id]? = none) :
    Tracked env (ChunkStore.storePiece env c pieces s p) := by
  have hl : ∀ key : ChunkId, (ChunkStore.storePiece env c pieces s p).origin key =
      if p.id = key then some (.cut c.id) else s.origin key := by
    intro key
    have hnot : p.id ∉ s.chunksLineage := by
      rw [TreeMap.mem_iff_isSome_getElem?, hp]
      exact Bool.false_ne_true
    rw [origin, storePiece_lineage]
    by_cases hk : p.id = key
    · rw [if_pos hk, if_pos ⟨hk, hnot⟩]
      rfl
    · rw [if_neg hk, if_neg fun ⟨he, _⟩ => hk he]
      rfl
  have hadmits : Admits s.origin env.rank p.id (.cut c.id) := hc
  refine ⟨h.ordered.add (origin_eq_none hp) hadmits hl, fun {key d} hd => ?_, fun hk => h.leaky hk⟩
  rw [hl]
  by_cases hk : p.id = key
  · exact ⟨_, if_pos hk⟩
  · have hphys := insertPhysical_physical ({ s.recordLineage p.id
      (.splitFrom c (pieces.filter (·.id ≠ p.id))) with
        insertId := s.insertId + 1 }.insertIntoIndices env p) p key
    rw [if_neg hk] at hphys ⊢
    exact h.physical (hphys.symm.trans hd)

theorem storePieces {c : Chunk} (pieces : List Chunk) {rest : List Chunk}
    (hn : (rest.map (·.id)).Nodup) {s : ChunkStore} (h : Tracked env s)
    (hc : s.origin c.id = some .root) (hp : ∀ p ∈ rest, s.chunksLineage[p.id]? = none) :
    Tracked env (rest.foldl (ChunkStore.storePiece env c pieces) s) := by
  induction rest generalizing s with
  | nil => exact h
  | cons p rest ih =>
    rw [List.map_cons, List.nodup_cons] at hn
    have hpl := hp p List.mem_cons_self
    have hkept : ∀ key : ChunkId, p.id ≠ key →
        (ChunkStore.storePiece env c pieces s p).chunksLineage[key]? = s.chunksLineage[key]? :=
      fun key hne => (storePiece_lineage c pieces s p key).trans (if_neg fun ⟨he, _⟩ => hne he)
    have hne : p.id ≠ c.id := by
      intro he
      rw [← he, origin_eq_none hpl] at hc
      cases hc
    refine ih hn.2 (h.storePiece pieces hc hpl) ?_ fun q hq => ?_
    · rw [origin, hkept _ hne]
      exact hc
    · rw [hkept _ fun he => hn.1 (he ▸ List.mem_map_of_mem hq)]
      exact hp q (List.mem_cons_of_mem _ hq)

theorem insertPhysical {s : ChunkStore} {c : Chunk} (h : Tracked env s)
    (hc : s.origin c.id = some o) : Tracked env (s.insertPhysical c) := by
  refine ⟨h.ordered, fun {key d} hd => ?_, fun hk => h.leaky hk⟩
  rw [insertPhysical_physical] at hd
  split at hd
  · rename_i he
    exact he ▸ ⟨o, hc⟩
  · exact h.physical hd

theorem compactInto {s : ChunkStore} {c elected compacted : Chunk} (h : Tracked env s)
    (hcore : Core env pol s) (hc : s.origin c.id = some o) (hf : ¬ env.Future s.issued c.id)
    (hcomp : Compacts env s n c elected compacted) :
    Tracked env ({ s with issued := n }.compactInto env c elected compacted).1 := by
  obtain ⟨oe, he⟩ := h.physical hcomp.physical
  have hfe : ¬ env.Future s.issued elected.id := hcore.mentions (.physical hcomp.physical)
  have hnew : s.chunksLineage[compacted.id]? = none := Option.eq_none_iff_forall_not_mem.mpr
    fun _ hl => hcore.mentions (.lineage hl) (DrawnIn.future hcomp.drawn)
  have hsources : ∀ key ∈ ({ s with issued := n }.sourcesOf env c elected compacted).keys,
      env.rank key < env.rank compacted.id ∧ Whole s.origin key := by
    intro key hkey
    rcases mem_sourcesOf hkey with rfl | rfl
    · exact ⟨(Env.rank_le hf).trans_lt (DrawnIn.lt_rank hcomp.drawn),
        whole_of_not_split hcomp.notSplit hc⟩
    · exact ⟨(Env.rank_le hfe).trans_lt (DrawnIn.lt_rank hcomp.drawn),
        whole_of_not_split hcomp.notSplit' he⟩
  have hadmits : Admits s.origin env.rank compacted.id
      (.merged ({ s with issued := n }.sourcesOf env c elected compacted).keys) :=
    ⟨List.ne_nil_of_mem (id_mem_sourcesOf _ c elected compacted), hsources⟩
  have hl : ∀ key : ChunkId,
      ({ s with issued := n }.compactInto env c elected compacted).1.origin key =
        if compacted.id = key then
          some (.merged ({ s with issued := n }.sourcesOf env c elected compacted).keys)
        else s.origin key := by
    intro key
    rw [origin, compactInto_lineage]
    by_cases hk : compacted.id = key
    · rw [if_pos hk, if_pos hk]
      rfl
    · rw [if_neg hk, if_neg hk]
      rfl
  refine ⟨h.ordered.add (origin_eq_none hnew) hadmits hl, fun {key d} hd => ?_,
    fun {source target} hd => ?_⟩
  · have hphys := replaceElected_physical env { s with issued := n } elected compacted key
    rw [hl]
    split
    · exact ⟨_, rfl⟩
    · have hd := hphys.symm.trans hd
      split at hd
      · cases hd
      · exact h.physical hd
  · rw [compactInto_leaky] at hd
    split at hd
    · rename_i hkey
      exact Option.some.inj hd ▸ (hsources source hkey).1
    · exact h.leaky hd

theorem stored {s s' : ChunkStore} {c : Chunk} (h : Tracked env s) (hcore : Core env pol s)
    (hc : s.origin c.id = some o) (hf : ¬ env.Future s.issued c.id)
    (hst : Stored env s c s' diffs) : Tracked env s' := by
  cases hst with
  | @static lineage _ _ =>
    obtain ⟨hsame, hsub⟩ := storeStatic_frame env s c lineage
    have hstatic := h.of_same hsame.lineage hsame.leakyCompactions hsub
    refine hstatic.insertPhysical (o := o) ?_
    rw [origin, hsame.lineage]
    exact hc
  | asIs _ _ _ =>
    have hindexed : Tracked env (s.insertIntoIndices env c) := h.of_same rfl rfl (.of_eq rfl)
    exact hindexed.insertPhysical hc
  | @compacted n elected compacted hcomp =>
    refine (h.compactInto hcore hc hf hcomp).insertPhysical
      (o := .merged ({ s with issued := n }.sourcesOf env c elected compacted).keys) ?_
    rw [origin, compactInto_lineage, if_pos rfl]
    rfl

theorem inserted {s s' : ChunkStore} {c : Chunk} (h : Tracked env s) (hcore : Core env pol s)
    (hw : c.WellFormed) (hphys : s.physicalChunksPerChunkId[c.id]? = none)
    (hf : ¬ env.Future s.issued c.id) (hroot : s.isRootChunk c.id = true)
    (hins : Inserted env s c .volatile s' diffs) : Tracked env s' := by
  have hprep := prepare_prepared env s c .volatile
  have hcore1 := hcore.prepare hw hphys hf .volatile
  have hrecord : ∀ key : ChunkId, (s.prepare env c .volatile).1.origin key =
      if c.id = key then some .root else s.origin key := by
    intro key
    rw [origin, hprep.lineage_eq, OrdMap.getElem?_insertIfNew]
    by_cases hk : c.id = key
    · subst hk
      rw [if_pos rfl]
      by_cases hm : c.id ∈ s.chunksLineage
      · rw [if_neg fun hn => hn.2 hm]
        refine (isRootChunk_iff_origin.mp hroot).resolve_left fun hnone => ?_
        rw [TreeMap.mem_iff_isSome_getElem?] at hm
        rw [origin, Option.map_eq_none_iff] at hnone
        rw [hnone] at hm
        cases hm
      · rw [if_pos ⟨rfl, hm⟩]
        rfl
    · rw [if_neg hk, if_neg fun hn => hk hn.1]
      rfl
  have h1 := h.setRoot hroot hrecord hprep.leaky hprep.physicalSub
  have hc1 : (s.prepare env c .volatile).1.origin c.id = some .root :=
    (hrecord c.id).trans (if_pos rfl)
  cases hins with
  | @whole s0 s1 s' n prepared diffs hq hn h0 hst =>
    rw [hq] at hprep hcore1 h1 hc1
    subst h0
    have hstart : Tracked env { s1 with issued := n, insertId := s1.insertId + 1 } :=
      h1.of_same rfl rfl (.of_eq rfl)
    have hcore2 : Core env pol { s1 with issued := n, insertId := s1.insertId + 1 } :=
      (hcore1.draw hn).nextInsert
    exact hstart.stored hcore2 hc1 (fun hfut => hf (hprep.issued ▸ hfut.mono hn)) hst
  | @split s0 s1 n prepared pieces hq hs hl hok hn h0 =>
    rw [hq] at hprep hcore1 h1 hc1
    have hm := unused_pieces hcore1 (fun hfut => hf (hprep.issued ▸ hfut)) hs hl h0
    subst h0
    have hstart : Tracked env { s1 with
        issued := n, danglingSplits := s1.danglingSplits.insert c.id (pieces.map (·.id)) } :=
      h1.of_same rfl rfl (.of_eq rfl)
    exact hstart.storePieces pieces hn hc1 fun p hp => (hm p hp).lineage

theorem insertChunk {s : ChunkStore} {c : Chunk} (h : Tracked env s) (hcore : Core env pol s)
    (hw : c.WellFormed) (hf : ¬ env.Future s.issued c.id) :
    Tracked env (s.insertChunk env c).1 := by
  rcases insertChunk_cases hcore hw hf with ⟨result, he, -⟩ | ⟨s', diffs, he, hroot, hr, hins⟩
  · rw [he]
    exact h
  · rw [he]
    exact h.inserted hcore hw (refusal_storable hw hr).2 hf hroot hins

theorem announced {announce : ChunkStore → α → ChunkStore} {idOf : α → ChunkId}
    (ho : ∀ s entry key, (announce s entry).origin key =
      if idOf entry = key then some .root else s.origin key)
    (hk : ∀ s entry, (announce s entry).leakyCompactions = s.leakyCompactions)
    (hp : ∀ s entry, PhysicalSub s (announce s entry)) {entries : List α} {s : ChunkStore}
    (h : Tracked env s) (hroot : ∀ entry ∈ entries, s.isRootChunk (idOf entry) = true) :
    Tracked env (entries.foldl announce s) ∧
      ∀ cid, s.isRootChunk cid = true → (entries.foldl announce s).isRootChunk cid = true := by
  induction entries generalizing s with
  | nil => exact ⟨h, fun _ hr => hr⟩
  | cons entry rest ih =>
    have hkept : ∀ cid, s.isRootChunk cid = true → (announce s entry).isRootChunk cid = true := by
      intro cid hr
      refine isRootChunk_iff_origin.mpr ?_
      rw [ho]
      split
      · exact .inr rfl
      · exact isRootChunk_iff_origin.mp hr
    have hone := h.setRoot (hroot entry List.mem_cons_self) (ho s entry) (hk s entry) (hp s entry)
    obtain ⟨hrest, hroots⟩ := ih hone fun e he => hkept _ (hroot e (List.mem_cons_of_mem _ he))
    exact ⟨hrest, fun cid hr => hroots cid (hkept cid hr)⟩

theorem origin_insert (s s' : ChunkStore) {l : ChunkDirectLineage} (hl : l.origin = .root)
    (h : s'.chunksLineage = s.chunksLineage.insert cid l) (key : ChunkId) :
    s'.origin key = if cid = key then some .root else s.origin key := by
  rw [origin, h, OrdMap.getElem?_insert]
  split
  · rw [Option.map_some, hl]
  · rfl

theorem insertRrdManifest {s : ChunkStore} {manifest : RrdManifest} (h : Tracked env s)
    (hstatic : ∀ entry ∈ manifest.staticMap, s.isRootChunk entry.2.2 = true)
    (htemporal : ∀ entry ∈ manifest.temporalMap, s.isRootChunk entry.2.2.2.1 = true) :
    Tracked env (s.insertRrdManifest manifest).1 := by
  have hs : Tracked env (manifest.staticMap.foldl announceStatic s) ∧ ∀ cid,
      s.isRootChunk cid = true →
        (manifest.staticMap.foldl announceStatic s).isRootChunk cid = true :=
    announced (fun s entry => origin_insert s (s.announceStatic entry) rfl rfl) (fun _ _ => rfl) (fun _ _ => .of_eq rfl)
      h hstatic
  have ht := announced (fun s entry => origin_insert s (s.announceTemporal entry) rfl rfl)
    (fun _ _ => rfl) (fun _ _ => .of_eq rfl) hs.1
    fun entry he => hs.2 _ (htemporal entry he)
  exact ht.1

end Tracked

-- ---------------------------------------------------------------------------
-- Runs
-- ---------------------------------------------------------------------------

theorem gc_sameLineage (env : Env) (s : ChunkStore) (options : GarbageCollectionOptions)
    (clock : GcClock) : SameLineage s (s.gc env options clock).1 := by
  rw [(gc_eq env s options clock).1]
  exact (removeChunksShallow_sameIndices _ _ _ _ _).toSameLineage.trans
    (removeChunksDeep_sameLineage _ _ _ _ _)

/-- A manifest names no chunk that was derived by a split or a compaction. -/
def Op.Underived (s : ChunkStore) : Op → Prop
  | .insertRrdManifest manifest =>
    (∀ entry ∈ manifest.staticMap, s.isRootChunk entry.2.2 = true) ∧
      ∀ entry ∈ manifest.temporalMap, s.isRootChunk entry.2.2.2.1 = true
  | _ => True

/-- The states of the runs whose manifests are disjoint from the derived ids. -/
abbrev ReachedUnderived (env : Env) (pol : Policy) (config : ChunkStoreConfig) (s : ChunkStore) :
    Prop :=
  Reach.Reachable (ChunkStore.new config) (fun s op => (s.apply env op).1)
    (fun s op => op.Legal env pol s ∧ op.Underived s) s

theorem Tracked.dropTimeRange {s : ChunkStore} (h : Tracked env s) (hcore : Core env pol s)
    (timeline : TimelineName) (dropRange : AbsoluteTimeRange) (deepRemoval : Bool)
    (reason : ChunkDeletionReason) :
    Tracked env (s.dropTimeRange env timeline dropRange deepRemoval reason).1 := by
  rcases dropTimeRange_cases hcore timeline dropRange deepRemoval reason with
    he | ⟨n, drops, news, s', deletions, hle, -, ht, hl, hsub, hnodup, hfresh, he⟩
  · rw [he]
    exact h
  · have hdrawn : Tracked env { s with issued := n } := h.of_same rfl rfl (.of_eq rfl)
    have hcore' := ht.invariant (fun _ _ _ hs ht => ht.core hs) (hcore.draw hle)
    rw [he]
    exact reinsertChunks_invariant (fun s n hs => hs.of_same rfl rfl (.of_eq rfl))
      (fun s c hs hc hi => hi.insertChunk hs hc.wellFormed hc.issued) hnodup hcore' hfresh
      (hdrawn.of_same hl.lineage hl.leakyCompactions hsub)

theorem Tracked.apply {s : ChunkStore} {op : Op} (h : Tracked env s) (hcore : Core env pol s)
    (hop : op.Legal env pol s) (hu : op.Underived s) : Tracked env (s.apply env op).1 := by
  cases op with
  | insertChunk c => exact h.insertChunk hcore hop.1 hop.2.1
  | insertRrdManifest manifest => exact h.insertRrdManifest hu.1 hu.2
  | gc options clock =>
    have hl := gc_sameLineage env s options clock
    exact h.of_same hl.lineage hl.leakyCompactions (physicalSub_gc env s options clock)
  | dropTimeRange timeline dropRange deepRemoval reason =>
    exact h.dropTimeRange hcore timeline dropRange deepRemoval reason
  | dropEntityPath e =>
    have hl := dropEntityPath_sameLineage env s e
    exact h.of_same hl.lineage hl.leakyCompactions (dropEntityPath_physicalSub env s e)

theorem ReachedUnderived.reached {config : ChunkStoreConfig} {s : ChunkStore}
    (h : ReachedUnderived env pol config s) : Reached env pol config s :=
  h.mono fun _ _ hop => hop.1

theorem ReachedUnderived.tracked {config : ChunkStoreConfig} {s : ChunkStore}
    (h : ReachedUnderived env pol config s) : Tracked env s := by
  refine Reach.Reachable.invariant_with (fun s hr => ?_) (.new env config)
    (fun s op hcore hi hop => hi.apply hcore hop.1 hop.2) h
  exact ReachedUnderived.reached hr |>.core

-- ---------------------------------------------------------------------------
-- The recursions over the lineage
-- ---------------------------------------------------------------------------

/-- The recursion of `descends_from_a_split` with debug assertions. The result is `none` where the
assertion fails, or where the recursion goes on. -/
def descendsFromASplitDeep (s : ChunkStore) : Nat → ChunkId → Bool → Option Bool
  | 0, _, _ => none
  | fuel + 1, id, compactionFound =>
    match s.chunksLineage[id]? with
    | some (.splitFrom _ _) => if compactionFound then none else some true
    | some (.compactedFrom ids) => ids.anyM fun id => s.descendsFromASplitDeep fuel id true
    | _ => some false

def recorded (s : ChunkStore) : Finset ChunkId := s.chunksLineage.keys.toFinset

theorem mem_recorded {s : ChunkStore} (h : s.origin cid = some o) : cid ∈ s.recorded := by
  obtain ⟨l, hl, -⟩ := Option.map_eq_some_iff.mp h
  refine List.mem_toFinset.mpr (TreeMap.mem_keys.mpr ?_)
  rw [TreeMap.mem_iff_isSome_getElem?, hl]
  rfl

theorem height_le_size (s : ChunkStore) (rank : ChunkId → Nat) (cid : ChunkId) :
    height s.recorded rank cid ≤ s.chunksLineage.size := by
  refine (height_le _ _ _).trans ((List.toFinset_card_le _).trans ?_)
  exact TreeMap.length_keys.le

theorem lineage_of_whole {s : ChunkStore} (h : Whole s.origin cid) :
    (∃ isStatic, s.chunksLineage[cid]? = some (.rootFromManifest isStatic)) ∨
      s.chunksLineage[cid]? = some .volatile ∨
      ∃ ids, s.chunksLineage[cid]? = some (.compactedFrom ids) := by
  obtain ⟨o, ho⟩ := h.recorded
  obtain ⟨l, hl, -⟩ := Option.map_eq_some_iff.mp ho
  cases l with
  | splitFrom parent siblings =>
    simp [Whole, origin, hl, ChunkDirectLineage.origin] at h
  | compactedFrom ids => exact .inr (.inr ⟨ids, hl⟩)
  | rootFromManifest isStatic => exact .inl ⟨isStatic, hl⟩
  | volatile => exact .inr (.inl hl)

theorem anyM_eq_false {p : α → Option Bool} {l : List α} (h : ∀ a ∈ l, p a = some false) :
    l.anyM p = some false := by
  induction l with
  | nil => rfl
  | cons a rest ih =>
    rw [List.anyM, h a List.mem_cons_self]
    exact ih fun b hb => h b (List.mem_cons_of_mem _ hb)

theorem lower_of_compacted {s : ChunkStore} (h : Ordered s.origin rank)
    (hl : s.chunksLineage[cid]? = some (.compactedFrom ids)) (hy : y ∈ ids) :
    Whole s.origin y ∧ height s.recorded rank y < height s.recorded rank cid := by
  have ho : s.origin cid = some (.merged ids) := by simp [origin, hl, ChunkDirectLineage.origin]
  obtain ⟨hlt, hwhole⟩ := h.whole_of_merged ho hy
  exact ⟨hwhole, height_lt (mem_recorded ho) hlt⟩

theorem descendsFromASplitDeep_whole {s : ChunkStore} (h : Ordered s.origin rank)
    (hx : Whole s.origin cid) (hf : height s.recorded rank cid ≤ fuel) (found : Bool) :
    s.descendsFromASplitDeep fuel cid found = some false := by
  induction fuel generalizing cid found with
  | zero =>
    obtain ⟨o, ho⟩ := hx.recorded
    exact absurd (height_pos (mem_recorded ho)) (Nat.not_lt.mpr hf)
  | succ fuel ih =>
    rw [descendsFromASplitDeep]
    rcases lineage_of_whole hx with ⟨isStatic, hl⟩ | hl | ⟨ids, hl⟩
    · rw [hl]
    · rw [hl]
    · rw [hl]
      refine anyM_eq_false fun y hy => ?_
      obtain ⟨hwhole, hlt⟩ := lower_of_compacted h hl hy
      exact ih hwhole (by omega) true

/-- The assertions of the deep recursion hold, and it finds what the shallow look finds. -/
theorem descendsFromASplitDeep_eq {s : ChunkStore} (h : Ordered s.origin rank)
    (hf : s.chunksLineage.size < fuel) (cid : ChunkId) :
    s.descendsFromASplitDeep fuel cid false = some (s.descendsFromASplit cid) := by
  cases hs : s.descendsFromASplit cid with
  | true =>
    rw [descendsFromASplit] at hs
    obtain ⟨fuel, rfl⟩ : ∃ k, fuel = k + 1 := ⟨fuel - 1, by omega⟩
    rw [descendsFromASplitDeep]
    split at hs
    · rename_i hl
      rw [hl]
      rfl
    · cases hs
  | false =>
    cases ho : s.origin cid with
    | some o =>
      exact descendsFromASplitDeep_whole h (whole_of_not_split hs ho)
        ((s.height_le_size rank cid).trans hf.le) false
    | none =>
      rw [origin, Option.map_eq_none_iff] at ho
      obtain ⟨fuel, rfl⟩ : ∃ k, fuel = k + 1 := ⟨fuel - 1, by omega⟩
      rw [descendsFromASplitDeep, ho]

theorem collectRootIdsIn_whole {s : ChunkStore} (h : Ordered s.origin rank)
    (hx : Whole s.origin cid) (hf : height s.recorded rank cid ≤ fuel)
    (hf' : height s.recorded rank cid ≤ fuel') :
    s.collectRootIdsIn fuel cid = s.collectRootIdsIn fuel' cid ∧
      s.collectRootIdsIn fuel cid ≠ [] := by
  have hpos : 0 < height s.recorded rank cid := by
    obtain ⟨o, ho⟩ := hx.recorded
    exact height_pos (mem_recorded ho)
  induction fuel generalizing cid fuel' with
  | zero => omega
  | succ fuel ih =>
    obtain ⟨fuel', rfl⟩ : ∃ k, fuel' = k + 1 := ⟨fuel' - 1, by omega⟩
    rw [collectRootIdsIn, collectRootIdsIn]
    rcases lineage_of_whole hx with ⟨isStatic, hl⟩ | hl | ⟨ids, hl⟩
    · rw [hl]
      exact ⟨rfl, List.cons_ne_nil _ _⟩
    · rw [hl]
      exact ⟨rfl, List.cons_ne_nil _ _⟩
    · have hsource : ∀ y ∈ ids, s.collectRootIdsIn fuel y = s.collectRootIdsIn fuel' y ∧
          s.collectRootIdsIn fuel y ≠ [] := by
        intro y hy
        obtain ⟨hwhole, hlt⟩ := lower_of_compacted h hl hy
        obtain ⟨o, ho⟩ := hwhole.recorded
        exact ih hwhole (by omega) (by omega) (height_pos (mem_recorded ho))
      have hne : ids ≠ [] := by
        have ho : s.origin cid = some (.merged ids) := by
          simp [origin, hl, ChunkDirectLineage.origin]
        exact (h cid _ ho).1
      obtain ⟨y, hy⟩ := List.exists_mem_of_ne_nil ids hne
      rw [hl]
      dsimp only
      refine ⟨List.flatMap_congr fun z hz => (hsource z hz).1, fun hnil => ?_⟩
      exact (hsource y hy).2 (List.flatMap_eq_nil_iff.mp hnil y hy)

theorem collectRootIdsIn_eq {s : ChunkStore} (h : Ordered s.origin rank)
    (hx : s.origin cid = some o) (hf : s.chunksLineage.size < fuel) :
    s.collectRootIdsIn fuel cid = s.findRootChunks cid ∧ s.findRootChunks cid ≠ [] := by
  cases hs : s.descendsFromASplit cid with
  | false =>
    have hwhole := whole_of_not_split hs hx
    have hle := s.height_le_size rank cid
    obtain ⟨heq, hne⟩ := collectRootIdsIn_whole h hwhole (hle.trans hf.le) (Nat.le_succ_of_le hle)
    exact ⟨heq, fun hnil => hne (heq.trans hnil)⟩
  | true =>
    rw [descendsFromASplit] at hs
    split at hs
    · rename_i parent siblings hl
      -- One hop leads to the parent, which is a root.
      have hparent : s.origin parent = some .root := h cid (.cut parent)
        (by simp [origin, hl, ChunkDirectLineage.origin])
      have hle := s.height_le_size rank parent
      obtain ⟨fuel, rfl⟩ : ∃ k, fuel = k + 1 := ⟨fuel - 1, by omega⟩
      obtain ⟨heq, hne⟩ := collectRootIdsIn_whole h (.inl hparent)
        (hle.trans (Nat.le_of_lt_succ hf)) hle
      rw [findRootChunks, collectRootIdsIn, collectRootIdsIn, hl]
      exact ⟨heq, fun hnil => hne (heq.trans hnil)⟩
    · cases hs

-- ---------------------------------------------------------------------------
-- The forest
-- ---------------------------------------------------------------------------

def DerivesFrom (s : ChunkStore) (x y : ChunkId) : Prop :=
  (∃ siblings, s.chunksLineage[x]? = some (.splitFrom y siblings)) ∨
    ∃ ids, s.chunksLineage[x]? = some (.compactedFrom ids) ∧ y ∈ ids

theorem derivesFrom_iff_madeOf {s : ChunkStore} : s.DerivesFrom x y ↔ MadeOf s.origin y x := by
  constructor
  · rintro (⟨siblings, hl⟩ | ⟨ids, hl, hy⟩)
    · exact .cut (by simp [origin, hl, ChunkDirectLineage.origin])
    · exact .merged (by simp [origin, hl, ChunkDirectLineage.origin]) hy
  · intro h
    cases h with
    | cut ho =>
      obtain ⟨l, hl, he⟩ := Option.map_eq_some_iff.mp ho
      cases l <;> cases he
      exact .inl ⟨_, hl⟩
    | merged ho hy =>
      obtain ⟨l, hl, he⟩ := Option.map_eq_some_iff.mp ho
      cases l <;> cases he
      exact .inr ⟨_, hl, hy⟩

def IsRecordedRoot (s : ChunkStore) (cid : ChunkId) : Prop :=
  s.chunksLineage[cid]? = some .volatile ∨
    ∃ isStatic, s.chunksLineage[cid]? = some (.rootFromManifest isStatic)

theorem isRecordedRoot_of_origin {s : ChunkStore} (h : s.origin cid = some .root) :
    s.IsRecordedRoot cid := by
  obtain ⟨l, hl, he⟩ := Option.map_eq_some_iff.mp h
  cases l with
  | splitFrom => cases he
  | compactedFrom => cases he
  | rootFromManifest isStatic => exact .inr ⟨isStatic, hl⟩
  | volatile => exact .inl hl

def CompactedInto (s : ChunkStore) (source compacted : ChunkId) : Prop :=
  s.leakyCompactions[source]? = some compacted

/-- The lineage of a store is a forest without cycles in which splits and compactions do not mix. -/
structure LineageForest (s : ChunkStore) : Prop where
  wellFounded : WellFounded fun y x => s.DerivesFrom x y
  leaf : ∀ {x y l}, s.chunksLineage[x]? = some l → Relation.ReflTransGen s.DerivesFrom x y →
    (∀ z, ¬ s.DerivesFrom y z) → s.IsRecordedRoot y
  splitFrom : ∀ {x parent : ChunkId} {siblings},
    s.chunksLineage[x]? = some (.splitFrom parent siblings) → s.IsRecordedRoot parent
  compactedFrom : ∀ {x y : ChunkId} {ids}, s.chunksLineage[x]? = some (.compactedFrom ids) →
    Relation.TransGen s.DerivesFrom x y → s.descendsFromASplit y = false
  shallow : ∀ {fuel}, s.chunksLineage.size < fuel → ∀ cid,
    s.descendsFromASplitDeep fuel cid false = some (s.descendsFromASplit cid)
  leaky : WellFounded fun compacted source => s.CompactedInto source compacted
  leaky_acyclic : ∀ cid, ¬ Relation.TransGen s.CompactedInto cid cid
  roots : ∀ {key : ChunkId} {c}, s.physicalChunksPerChunkId[key]? = some c →
    s.findRootChunks key ≠ [] ∧
      ∀ fuel, s.chunksLineage.size < fuel → s.collectRootIdsIn fuel key = s.findRootChunks key

theorem transGen_madeOf {s : ChunkStore} (h : Relation.TransGen s.DerivesFrom x y) :
    Relation.TransGen (MadeOf s.origin) y x := by
  have heq : s.DerivesFrom = Function.swap (MadeOf s.origin) :=
    funext₂ fun _ _ => propext derivesFrom_iff_madeOf
  exact Relation.transGen_swap.mp (heq ▸ h)

/-- Whatever was inserted, collected and dropped, in whatever order. -/
theorem lineageForest_of_reached {config : ChunkStoreConfig} {s : ChunkStore}
    (h : ReachedUnderived env pol config s) : s.LineageForest := by
  have ht := h.tracked
  have hissued : ∀ source compacted, s.CompactedInto source compacted →
      env.rank compacted ≤ s.issued :=
    fun _ _ hc => Env.rank_le (h.reached.core.mentions (.compacted hc))
  have hleaky : WellFounded fun compacted source => s.CompactedInto source compacted :=
    wellFounded_of_rank (fun _ _ hc => ht.leaky hc) hissued
  constructor
  case wellFounded =>
    exact Subrelation.wf (fun hd => derivesFrom_iff_madeOf.mp hd) ht.ordered.wellFounded
  case leaf =>
    intro x y l hl hxy hleaf
    have hx : s.origin x = some l.origin := by rw [origin, hl, Option.map_some]
    obtain ⟨o, ho⟩ : ∃ o, s.origin y = some o := by
      rcases Relation.reflTransGen_iff_eq_or_transGen.mp hxy with rfl | hxy
      · exact ⟨_, hx⟩
      · exact (ht.ordered.whole_of_transGen (transGen_madeOf hxy)).recorded
    refine isRecordedRoot_of_origin (ht.ordered.root_of_leaf ho fun z hz => ?_)
    exact hleaf z (derivesFrom_iff_madeOf.mpr hz)
  case splitFrom =>
    intro x parent siblings hl
    refine isRecordedRoot_of_origin (ht.ordered x (.cut parent) ?_)
    simp [origin, hl, ChunkDirectLineage.origin]
  case compactedFrom =>
    intro x y ids hl hxy
    have hwhole := ht.ordered.whole_of_transGen (transGen_madeOf hxy)
    rcases lineage_of_whole hwhole with ⟨isStatic, hl⟩ | hl | ⟨ids, hl⟩ <;>
      simp [descendsFromASplit, hl]
  case shallow => exact fun hf cid => descendsFromASplitDeep_eq ht.ordered hf cid
  case leaky => exact hleaky
  case leaky_acyclic =>
    intro cid hcycle
    exact hleaky.transGen.irrefl.irrefl cid (Relation.transGen_swap.mp hcycle)
  case roots =>
    intro key c hc
    obtain ⟨o, ho⟩ := ht.physical hc
    refine ⟨(collectRootIdsIn_eq ht.ordered ho (Nat.lt_succ_self _)).2, fun fuel hf => ?_⟩
    exact (collectRootIdsIn_eq ht.ordered ho hf).1

-- ---------------------------------------------------------------------------
-- A run with a split and a compaction
-- ---------------------------------------------------------------------------

def sortedFive : Chunk :=
  .ofColumns 1 ["e"] [1, 2, 3, 4, 5]
    [(⟨"t", .sequence⟩, [10, 20, 30, 40, 50].map TimeInt.newTemporal)]
    [("c", [some [], some [], some [], none, some []])]

def announcedChunk : RrdManifest :=
  ⟨[], [(["e"], ⟨"t", .sequence⟩, "c", 2, ⟨⟨.newTemporal 60, .newTemporal 60⟩, 1⟩)]⟩

def mixedRun : List Op :=
  [.insertRrdManifest announcedChunk, .insertChunk sortedFive, .insertChunk (.single 2 6 60),
    .insertChunk (.single 3 7 70)]

theorem lineageForest_mixedRun : (run .plain ⟨100, 3, 3⟩ mixedRun).LineageForest := by
  have hnot : ∀ n, ¬ Env.plain.Future n 2 := Env.plain_not_future (by decide)
  have hreached : ReachedUnderived .plain .any ⟨100, 3, 3⟩ (run .plain ⟨100, 3, 3⟩ mixedRun) := by
    refine Reach.Reachable.foldl .init ⟨⟨⟨by simp [announcedChunk], ?_⟩, ?_⟩, ?_, ?_, ?_, trivial⟩
    · simpa [announcedChunk, Policy.any] using hnot _
    · exact ⟨by decide, by decide +kernel⟩
    · exact ⟨⟨by decide +kernel, Env.plain_not_future (by decide) _, trivial, trivial⟩, trivial⟩
    · exact ⟨⟨by decide +kernel, hnot _, trivial, trivial⟩, trivial⟩
    · exact ⟨⟨by decide +kernel, Env.plain_not_future (by decide) _, trivial, trivial⟩, trivial⟩
  exact lineageForest_of_reached hreached

example : (run .plain ⟨100, 3, 3⟩ mixedRun).chunksLineage.toList =
    [(1, .volatile), (2, .rootFromManifest false), (3, .volatile), (1000, .splitFrom 1 [1001]),
      (1001, .splitFrom 1 [1000]), (1002, .compactedFrom [2, 3])] := by decide +kernel

end ChunkStore

end DimosViewer
