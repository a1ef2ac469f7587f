import DimosViewer.Store.OpLaws

/-!
# Drops are traces

A time range is dropped chunk by chunk, then the rests are inserted under new ids.
-/

namespace DimosViewer.ChunkStore

open Reach (Trace)

variable {env : Env} {pol : Policy}

-- ---------------------------------------------------------------------------
-- What an insertion indexes
-- ---------------------------------------------------------------------------

theorem Indexes.of_stored {s s' : ChunkStore} {c : Chunk} {cid : ChunkId} (h : Core env pol s)
    (hc : c.Storable) (hs : Stored env s c s' diffs) (hx : s'.Indexes cid) :
    s.Indexes cid ∨ cid = c.id ∨ env.Future s.issued cid := by
  cases hs with
  | @static lineage hst _ =>
    rcases hx.of_insertPhysical with hx | hx
    · exact (hx.of_storeStatic hc.wellFormed).imp_right .inl
    · exact .inr (.inl hx)
  | asIs before hst _ =>
    rcases hx.of_insertPhysical with hx | hx
    · exact (hx.of_insertIntoIndices hc.wellFormed).imp_right .inl
    · exact .inr (.inl hx)
  | @compacted n elected compacted hcomp =>
    have hfut : env.Future s.issued compacted.id := DrawnIn.future hcomp.drawn
    have hel := (h.storable hcomp.physical).wellFormed
    rcases hx.of_insertPhysical with hx | rfl
    · rw [compactInto_eq] at hx
      have hx : ({ s with issued := n }.replaceElected env elected compacted).1.Indexes cid :=
        hx.of_same (fun slot => by cases slot <;> rfl) rfl rfl
      have hx := hx.of_removeChunksDeep fun d hd => List.mem_singleton.mp hd ▸ hel
      rcases hx.of_insertIntoIndices (hcomp.storable hc).wellFormed with hx | rfl
      · exact .inl (hx.of_same (fun slot => by cases slot <;> rfl) rfl rfl)
      · exact .inr (.inr hfut)
    · exact .inr (.inr hfut)

theorem Indexes.of_storePieces {s : ChunkStore} {c : Chunk} {pieces rest : List Chunk}
    {cid : ChunkId} (hp : ∀ p ∈ rest, PieceOk c p)
    (h : (rest.foldl (storePiece env c pieces) s).Indexes cid) :
    s.Indexes cid ∨ ∃ p ∈ rest, cid = p.id := by
  induction rest generalizing s with
  | nil => exact .inl h
  | cons p rest ih =>
    rcases ih (fun q hq => hp q (List.mem_cons_of_mem _ hq)) h with h | ⟨q, hq, he⟩
    · rcases h.of_storePiece (hp p List.mem_cons_self).storable.wellFormed with h | he
      · exact .inl h
      · exact .inr ⟨p, List.mem_cons_self, he⟩
    · exact .inr ⟨q, List.mem_cons_of_mem _ hq, he⟩

theorem Indexes.of_insertChunk {s : ChunkStore} {c : Chunk} {cid : ChunkId} (h : Core env pol s)
    (hw : c.WellFormed) (hf : ¬ env.Future s.issued c.id)
    (hx : (s.insertChunk env c).1.Indexes cid) :
    s.Indexes cid ∨ cid = c.id ∨ env.Future s.issued cid := by
  rcases insertChunk_cases h hw hf with ⟨result, he, -⟩ | ⟨s', diffs, he, -, hr, hins⟩
  · rw [he] at hx
    exact .inl hx
  rw [he] at hx
  obtain ⟨hc, hp⟩ := refusal_storable hw hr
  have hprep := prepare_prepared env s c .volatile
  have hcore := h.prepare hw hp hf .volatile
  have hidx : ∀ x, (s.prepare env c .volatile).1.Indexes x → s.Indexes x :=
    fun x hx => hx.of_prepare h hw
  cases hins with
  | @whole s0 s1 s' n prepared diffs hq hn h0 hst =>
    rw [hq] at hprep hcore hidx
    subst h0
    rcases hx.of_stored (hcore.draw hn).nextInsert hc hst with hx | hx | hx
    · exact .inl (hidx _ (hx.of_same (fun slot => by cases slot <;> rfl) rfl rfl))
    · exact .inr (.inl hx)
    · exact .inr (.inr (hprep.issued ▸ hx.mono hn))
  | @split s0 s1 n prepared pieces hq hs hl hok hn h0 =>
    rw [hq] at hprep hcore hidx
    subst h0
    rcases hx.of_storePieces hok with hx | ⟨p, hp, rfl⟩
    · exact .inl (hidx _ (hx.of_same (fun slot => by cases slot <;> rfl) rfl rfl))
    · exact .inr (.inr (hprep.issued ▸ DrawnIn.future (hs.drawn hl p hp)))

-- ---------------------------------------------------------------------------
-- Dropping a time range
-- ---------------------------------------------------------------------------

/-- A new chunk with rows of `c`, under an id drawn between `n` and `n'`. -/
structure Remnant (env : Env) (n n' : Nat) (c d : Chunk) : Prop where
  wellFormed : d.WellFormed
  drawn : Chunk.DrawnIn env.newId n n' d.id
  entityPath : d.entityPath = c.entityPath
  columnTypes : d.columnTypes = c.columnTypes

theorem Remnant.mono {c d : Chunk} (h : Remnant env n n' c d) (hl : m ≤ n) (hr : n' ≤ m') :
    Remnant env m m' c d :=
  ⟨h.wellFormed, h.drawn.mono hl hr, h.entityPath, h.columnTypes⟩

theorem Remnant.isStatic_eq {c d : Chunk} (h : Remnant env n n' c d) : d.isStatic = c.isStatic :=
  Chunk.isStatic_eq_of_columnTypes h.columnTypes

theorem sortedByTimelineIfUnsorted_spec {c : Chunk} (h : c.WellFormed) (newId : Nat → ChunkId)
    (n : Nat) (timeline : TimelineName) :
    Chunk.IsShuffle c (c.sortedByTimelineIfUnsorted newId n timeline).1 ∧
      n ≤ (c.sortedByTimelineIfUnsorted newId n timeline).2 := by
  unfold Chunk.sortedByTimelineIfUnsorted
  split
  · exact ⟨.refl h, le_rfl⟩
  · rename_i tc ht
    split
    · exact ⟨.refl h, le_rfl⟩
    · refine ⟨Chunk.shuffleWith_isShuffle h ?_ _, Nat.le_add_right n 2⟩
      have hp := argsort_perm (tc.times.zipWith (fun t r => toLex (t, r)) c.rowIds)
      rwa [List.length_zipWith, (h.timeline_of_lookup ht).2, Chunk.numRows, Nat.min_self] at hp

theorem rowSliced_remnant {c d : Chunk} (h : Chunk.IsShuffle c d) (n index len : Nat) :
    Remnant env n (n + 1) c (d.rowSliced (env.newId n) index len) where
  wellFormed := Chunk.rowSliced_wellFormed h.wellFormed _ _ _
  drawn := ⟨n, le_rfl, n.lt_succ_self, Chunk.rowSliced_id _ _ _ _⟩
  entityPath := (Chunk.rowSliced_entityPath _ _ _ _).trans h.entityPath
  columnTypes := (Chunk.rowSliced_columnTypes _ _ _ _).trans h.columnTypes

/-- The plan for one chunk: remnants under ids of their own, and only a temporal
chunk goes. -/
structure DropPlan (env : Env) (n n' : Nat) (c : Chunk) (drop : Bool) (news : List Chunk) :
    Prop where
  le : n ≤ n'
  remnant : ∀ d ∈ news, Remnant env n n' c d
  nodup : (news.map (·.id)).Nodup
  temporal : drop = true → c.isStatic = false
  dropped : news ≠ [] → drop = true

theorem DropPlan.nil {c : Chunk} (drop : Bool) (hle : n ≤ n')
    (h : drop = true → c.isStatic = false) : DropPlan env n n' c drop [] :=
  ⟨hle, fun _ hd => (nomatch hd), .nil, h, fun h => absurd rfl h⟩

theorem DropPlan.one {c d : Chunk} (hst : c.isStatic = false) (hle : m ≤ n)
    (h : Remnant env n (n + 1) c d) : DropPlan env m (n + 1) c true [d] := by
  refine ⟨Nat.le_succ_of_le hle, fun e he => ?_, List.nodup_singleton _, fun _ => hst,
    fun _ => rfl⟩
  obtain rfl := List.mem_singleton.mp he
  exact h.mono hle le_rfl

theorem DropPlan.two {c d d' : Chunk} (hst : c.isStatic = false) (hle : m ≤ n)
    (h : Remnant env n (n + 1) c d) (h' : Remnant env (n + 1) (n + 2) c d') :
    DropPlan env m (n + 2) c true [d, d'] := by
  have hle' : m ≤ n + 1 := Nat.le_succ_of_le hle
  refine ⟨Nat.le_succ_of_le hle', fun e he => ?_, ?_, fun _ => hst, fun _ => rfl⟩
  · rcases List.mem_cons.mp he with rfl | he
    · exact h.mono hle (Nat.le_succ _)
    · obtain rfl := List.mem_singleton.mp he
      exact h'.mono hle' le_rfl
  · refine List.nodup_cons.mpr ⟨fun hm => ?_, List.nodup_singleton _⟩
    obtain ⟨k, hk, -, he⟩ := h'.drawn
    exact h.drawn.ne_newId env.newId_injective hk ((List.mem_singleton.mp hm).trans he)

theorem planDrop_spec (env : Env) {c : Chunk} (h : c.WellFormed) (n : Nat)
    (timeline : TimelineName) (dropRange : AbsoluteTimeRange) :
    DropPlan env n (planDrop env.newId n timeline dropRange c).2.2 c
      (planDrop env.newId n timeline dropRange c).1
      (planDrop env.newId n timeline dropRange c).2.1 := by
  unfold planDrop
  split
  · exact .nil false le_rfl nofun
  · rename_i tc ht
    have hst := isStatic_eq_false_of_timeline? ht
    split
    · exact .nil true le_rfl fun _ => hst
    split
    · obtain ⟨hs, hle⟩ := sortedByTimelineIfUnsorted_spec h env.newId n timeline
      dsimp only
      split
      · generalize partitionPoint (· < dropRange.min) _ = minIdx
        generalize partitionPoint (· ≤ dropRange.max) _ = maxIdx
        by_cases hmin : 0 < minIdx <;>
          by_cases hmax : maxIdx <
            (c.sortedByTimelineIfUnsorted env.newId n timeline).1.numRows <;>
          simp only [hmin, hmax, if_true, if_false]
        · exact .two hst hle (rowSliced_remnant hs _ _ _) (rowSliced_remnant hs _ _ _)
        · exact .one hst hle (rowSliced_remnant hs _ _ _)
        · exact .one hst hle (rowSliced_remnant hs _ _ _)
        · exact .nil true hle fun _ => hst
      · exact .nil false hle nofun
    · exact .nil false le_rfl nofun

theorem planDrops_spec (env : Env) {chunks : List Chunk} (h : ∀ c ∈ chunks, c.WellFormed) (n : Nat)
    (timeline : TimelineName) (dropRange : AbsoluteTimeRange) :
    let (drops, news, n') := planDrops env.newId timeline dropRange n chunks
    n ≤ n' ∧ drops.Sublist chunks ∧ (∀ d ∈ news, ∃ c ∈ drops, Remnant env n n' c d) ∧
      (news.map (·.id)).Nodup ∧ ∀ c ∈ drops, c.isStatic = false := by
  induction chunks generalizing n with
  | nil => exact ⟨le_rfl, .slnil, fun _ h => (nomatch h), .nil, fun _ h => (nomatch h)⟩
  | cons c rest ih =>
    have hp := planDrop_spec env (h c List.mem_cons_self) n timeline dropRange
    obtain ⟨hle, hsub, hrem, hnodup, hst⟩ := ih (fun d hd => h d (List.mem_cons_of_mem _ hd))
      (planDrop env.newId n timeline dropRange c).2.2
    rw [planDrops]
    dsimp only
    refine ⟨hp.le.trans hle, ?_, fun d hd => ?_, ?_, fun d hd => ?_⟩
    · split
      · exact hsub.cons_cons c
      · exact hsub.cons c
    · rcases List.mem_append.mp hd with hd | hd
      · have hdrop := hp.dropped (List.ne_nil_of_mem hd)
        rw [if_pos hdrop]
        exact ⟨c, List.mem_cons_self, (hp.remnant d hd).mono le_rfl hle⟩
      · obtain ⟨e, he, hr⟩ := hrem d hd
        refine ⟨e, ?_, hr.mono hp.le le_rfl⟩
        split
        · exact List.mem_cons_of_mem _ he
        · exact he
    · rw [List.map_append, List.nodup_append]
      refine ⟨hp.nodup, hnodup, ?_⟩
      intro a ha b hb he
      obtain ⟨d, hd, rfl⟩ := List.mem_map.mp ha
      obtain ⟨d', hd', rfl⟩ := List.mem_map.mp hb
      obtain ⟨e, -, hr⟩ := hrem d' hd'
      obtain ⟨k, hk, -, hkid⟩ := hr.drawn
      exact (hp.remnant d hd).drawn.ne_newId env.newId_injective hk (he.trans hkid)
    · split at hd
      · rename_i hdrop
        rcases List.mem_cons.mp hd with rfl | hd
        · exact hp.temporal hdrop
        · exact hst d hd
      · exact hst d hd

-- ---------------------------------------------------------------------------
-- The chunks in the range go
-- ---------------------------------------------------------------------------

theorem trace_dropChunks {chunks : List Chunk} (deepRemoval : Bool) (reason : ChunkDeletionReason)
    (hn : (chunks.map (·.id)).Nodup) (hst : ∀ c ∈ chunks, c.isStatic = false) {s : ChunkStore}
    (h : Core env pol s) (hp : ∀ c ∈ chunks, s.Physical c) :
    let s' := (s.dropChunks env deepRemoval reason chunks).1
    Trace (Step env pol) s ((s.dropChunks env deepRemoval reason chunks).2.map .deletion) s' ∧
      SameLineage s s' ∧ PhysicalSub s s' ∧ ∀ cid, s'.Indexes cid → s.Indexes cid := by
  induction chunks generalizing s with
  | nil => exact ⟨.refl, .refl s, .refl s, fun _ hx => hx⟩
  | cons c rest ih =>
    rw [List.map_cons, List.nodup_cons] at hn
    have hone : ∀ d ∈ [c], s.Physical d := fun d hd =>
      hp d (List.mem_singleton.mp hd ▸ List.mem_cons_self)
    have hones : ∀ d ∈ [c], d.isStatic = false := fun d hd =>
      hst d (List.mem_singleton.mp hd ▸ List.mem_cons_self)
    have hw : ∀ d ∈ [c], d.WellFormed := fun d hd => (h.storable (hone d hd)).wellFormed
    generalize hq : (if deepRemoval then s.removeChunksDeep env reason unlimited [c]
      else s.removeChunksShallow env reason unlimited [c]) = q
    have hstep : Step env pol s (q.2.map .deletion) q.1 ∧ SameLineage s q.1 ∧ PhysicalSub s q.1 ∧
        (∀ cid, q.1.Indexes cid → s.Indexes cid) ∧ ∀ d ∈ rest, q.1.Physical d := by
      have hphys := fun d (hd : d ∈ rest) => removeChunksShallow_physical env reason s unlimited
        [c] d.id
      have hkeep : ∀ d ∈ rest, (s.removeChunksShallow env reason unlimited [c]).1.Physical d := by
        intro d hd
        rcases hphys d hd with he | ⟨-, hm⟩
        · exact he.trans (hp d (List.mem_cons_of_mem _ hd))
        · exact absurd (List.mem_map.mpr ⟨d, hd, List.mem_singleton.mp hm⟩) hn.1
      subst hq
      cases deepRemoval with
      | true =>
        refine ⟨.removeDeep reason hone fun _ => hones, removeChunksDeep_sameLineage _ _ _ _ _,
          removeChunksDeep_physicalSub _ _ _ _ _, fun _ hx => hx.of_removeChunksDeep hw,
          fun d hd => ?_⟩
        exact (congrArg (·[d.id]?) (sweepIndices_samePhysical _ _ _).physical).trans (hkeep d hd)
      | false =>
        have hsame := removeChunksShallow_sameIndices env reason s unlimited [c]
        exact ⟨.removeShallow reason unlimited hone hones, hsame.toSameLineage,
          removeChunksShallow_physicalSub _ _ _ _ _,
          fun _ hx => hx.of_same hsame.at_eq hsame.staticIds hsame.archive, hkeep⟩
    obtain ⟨hstep, hl, hsub, hidx, hkeep⟩ := hstep
    obtain ⟨ht, hl', hsub', hidx'⟩ := ih hn.2 (fun d hd => hst d (List.mem_cons_of_mem _ hd))
      (hstep.core h) hkeep
    rw [dropChunks]
    simp only [hq, List.map_append]
    exact ⟨(Trace.single hstep).trans ht, hl.trans hl', hsub.trans hsub',
      fun cid hx => hidx cid (hidx' cid hx)⟩

-- ---------------------------------------------------------------------------
-- The rests come back
-- ---------------------------------------------------------------------------

theorem Step.issued_le {s s' : ChunkStore} (h : Step env pol s diffs s') :
    s.issued ≤ s'.issued := by
  cases h with
  | draw hn => exact hn
  | nextInsert => exact le_rfl
  | announceStatic _ _ => exact le_rfl
  | announceTemporal _ _ => exact le_rfl
  | announced _ => exact le_rfl
  | replaceVirtual reason _ _ => exact (removeChunksDeep_sameLineage _ _ _ _ _).issued.ge
  | forgetSplit _ => exact le_rfl
  | recordSplit _ _ _ => exact le_rfl
  | recordLineage _ _ => exact le_rfl
  | store _ _ _ _ _ hst =>
    cases hst with
    | @static lineage _ _ => exact (storeStatic_frame env s _ lineage).1.issued.ge
    | asIs _ _ _ => exact le_rfl
    | @compacted n elected compacted hcomp =>
      have hl := replaceElected_sameLineage env { s with issued := n } elected compacted
      rw [compactInto_eq]
      exact hcomp.issued_le.trans hl.issued.ge
  | removeShallow _ _ _ _ =>
    exact (removeChunksShallow_sameIndices _ _ _ _ _).toSameLineage.issued.ge
  | removeDeep _ _ _ => exact (removeChunksDeep_sameLineage _ _ _ _ _).issued.ge
  | sweep _ _ _ _ => exact (removeChunksDeep_sameLineage _ _ _ _ _).issued.ge
  | dropEntityPath e => exact (dropEntityPath_sameLineage env s e).issued.ge

theorem issued_le_of_trace {s s' : ChunkStore} (h : Trace (Step env pol) s es s') :
    s.issued ≤ s'.issued := by
  induction h with
  | refl => exact le_rfl
  | tail _ hs ih => exact ih.trans hs.issued_le

structure Fresh (env : Env) (pol : Policy) (s : ChunkStore) (c : Chunk) : Prop
    extends OwnMade env s c where
  wellFormed : c.WellFormed
  allowed : pol.chunk c
  issued : ¬ env.Future s.issued c.id

theorem Fresh.sorted {s : ChunkStore} {c : Chunk} (h : Core env pol s) (hc : Fresh env pol s c) :
    Fresh env pol { s with issued := (c.sortIfUnsorted env.newId s.issued).2 }
      (c.sortIfUnsorted env.newId s.issued).1 := by
  obtain ⟨hs, -, hle, hid⟩ := Chunk.sortIfUnsorted_spec hc.wellFormed env.newId s.issued
  refine ⟨⟨fun hx => ?_, ?_, hs.isStatic_eq.trans hc.temporal⟩, hs.wellFormed,
    pol.closed hs.entityPath (fun entry he => hs.columnTypes ▸ he) hc.allowed, ?_⟩
  rotate_left
  · rcases hid with hid | ⟨k, -, -, hid⟩
    · exact hid ▸ hc.drawn
    · exact ⟨k, hid⟩
  · rcases hid with hid | hid
    · exact fun hf => hc.issued (hid ▸ hf.mono hle)
    · exact DrawnIn.not_future hid
  · have hx : s.Indexes _ := hx.of_same (fun slot => by cases slot <;> rfl) rfl rfl
    rcases hid with hid | hid
    · exact hc.unindexed (hid ▸ hx)
    · exact h.indexes hx (DrawnIn.future hid)

theorem fresh_reinserted {s : ChunkStore} {c c' : Chunk} (h : Core env pol s)
    (hc : Fresh env pol s c) (hq : c.sortIfUnsorted env.newId s.issued = (c', n)) :
    s.issued ≤ n ∧ Fresh env pol { s with issued := n } c' ∧
      Trace (Step env pol) { s with issued := n }
        (({ s with issued := n }.insertChunk env c').2.toOption.getD [])
        ({ s with issued := n }.insertChunk env c').1 ∧
      ∀ d, c.id ≠ d.id → Fresh env pol s d →
        Fresh env pol ({ s with issued := n }.insertChunk env c').1 d := by
  have hfresh := hc.sorted h
  obtain ⟨-, -, hle, hid⟩ := Chunk.sortIfUnsorted_spec hc.wellFormed env.newId s.issued
  rw [hq] at hfresh hle hid
  have ht := trace_insertChunk (h.draw hle) hfresh.wellFormed hfresh.issued hfresh.allowed
    (.inr hfresh.toOwnMade)
  have hle2 := issued_le_of_trace ht
  refine ⟨hle, hfresh, ht, fun d hne hd => ?_⟩
  obtain ⟨⟨hx, hdrawn, htemporal⟩, hw, ha, hi⟩ := hd
  refine ⟨⟨fun hx' => ?_, hdrawn, htemporal⟩, hw, ha, fun hf => hi (hf.mono (hle.trans hle2))⟩
  rcases hx'.of_insertChunk (h.draw hle) hfresh.wellFormed hfresh.issued with hx' | he | hf
  · exact hx (hx'.of_same (fun slot => by cases slot <;> rfl) rfl rfl)
  · rcases hid with hid | hid
    · exact hne (he.trans hid).symm
    · exact hi (he ▸ DrawnIn.future hid)
  · exact hi (hf.mono hle)

theorem trace_reinsertChunks {chunks : List Chunk} (hn : (chunks.map (·.id)).Nodup)
    {s : ChunkStore} (h : Core env pol s)
    (hc : ∀ c ∈ chunks, Fresh env pol s c) :
    Trace (Step env pol) s (s.reinsertChunks env chunks).2 (s.reinsertChunks env chunks).1 := by
  induction chunks generalizing s with
  | nil => exact .refl
  | cons c rest ih =>
    rw [List.map_cons, List.nodup_cons] at hn
    generalize hq : c.sortIfUnsorted env.newId s.issued = q
    obtain ⟨c', n⟩ := q
    obtain ⟨hle, hfresh, ht, hrest⟩ := fresh_reinserted h (hc c List.mem_cons_self) hq
    have ht' := ih hn.2 (ht.invariant (fun _ _ _ hs ht => ht.core hs) (h.draw hle)) fun d hd =>
      hrest d (fun he => hn.1 (he ▸ List.mem_map_of_mem hd)) (hc d (List.mem_cons_of_mem _ hd))
    rw [reinsertChunks]
    simp only [hq]
    exact ((Trace.single (.draw hle)).trans ht).trans ht'

theorem reinsertChunks_invariant {inv : ChunkStore → Prop}
    (hdraw : ∀ s n, inv s → inv { s with issued := n })
    (hins : ∀ s c, Core env pol s → Fresh env pol s c → inv s → inv (s.insertChunk env c).1)
    {chunks : List Chunk} (hn : (chunks.map (·.id)).Nodup) {s : ChunkStore} (h : Core env pol s)
    (hc : ∀ c ∈ chunks, Fresh env pol s c) (h0 : inv s) : inv (s.reinsertChunks env chunks).1 := by
  induction chunks generalizing s with
  | nil => exact h0
  | cons c rest ih =>
    rw [List.map_cons, List.nodup_cons] at hn
    generalize hq : c.sortIfUnsorted env.newId s.issued = q
    obtain ⟨c', n⟩ := q
    obtain ⟨hle, hfresh, ht, hrest⟩ := fresh_reinserted h (hc c List.mem_cons_self) hq
    have hinv := ih hn.2 (ht.invariant (fun _ _ _ hs ht => ht.core hs) (h.draw hle)) (fun d hd =>
      hrest d (fun he => hn.1 (he ▸ List.mem_map_of_mem hd)) (hc d (List.mem_cons_of_mem _ hd)))
      (hins _ c' (h.draw hle) hfresh (hdraw s n h0))
    rw [reinsertChunks]
    simp only [hq]
    exact hinv

end DimosViewer.ChunkStore
