import DimosViewer.Store.Steps

/-!
# Operations are sequences of steps

Each operation of the store is taken apart into the steps it takes, in the order
of its events.
-/

namespace DimosViewer.ChunkStore

open Reach (Trace)
open Std (TreeMap)

variable {env : Env} {pol : Policy}

-- ---------------------------------------------------------------------------
-- Before a chunk is stored
-- ---------------------------------------------------------------------------

theorem isPhysical_eq_false {s : ChunkStore} {cid : ChunkId} :
    s.isPhysical cid = false ↔ s.physicalChunksPerChunkId[cid]? = none := by
  rw [isPhysical, TreeMap.contains_eq_isSome_getElem?, Option.isSome_eq_false_iff,
    Option.isNone_iff_eq_none]

theorem refusal_eq_none {s : ChunkStore} {c : Chunk} :
    s.refusal c = none ↔ c.rowIds ≠ [] ∧ c.components ≠ [] ∧
      s.physicalChunksPerChunkId[c.id]? = none ∧ c.isSorted = true ∧
      s.physicalCompaction c.id = none := by
  rw [← isPhysical_eq_false, refusal]
  by_cases hr : c.rowIds = [] <;> by_cases hc : c.components = [] <;>
    cases s.isPhysical c.id <;> cases c.isSorted <;> cases s.physicalCompaction c.id <;>
      simp [Chunk.isEmpty, hr, hc]

theorem replaceVirtual_eq (env : Env) (s : ChunkStore) (c : Chunk) :
    s.replaceVirtual env c = (s, []) ∨
      s.replaceVirtual env c =
        ((s.removeChunksDeep env .virtualToPhysicalReplacement unlimited [c]).1,
          (s.removeChunksDeep env .virtualToPhysicalReplacement unlimited [c]).2.map .deletion) := by
  unfold replaceVirtual
  split
  · exact .inr rfl
  · exact .inl rfl

theorem replaceVirtual_frame (env : Env) (s : ChunkStore) (c : Chunk) :
    SameLineage s (s.replaceVirtual env c).1 ∧ PhysicalSub s (s.replaceVirtual env c).1 := by
  rcases replaceVirtual_eq env s c with h | h <;> rw [h]
  · exact ⟨.refl s, .refl s⟩
  · exact ⟨removeChunksDeep_sameLineage _ _ _ _ _, removeChunksDeep_physicalSub _ _ _ _ _⟩

theorem trace_replaceVirtual {s : ChunkStore} {c : Chunk} (hw : c.WellFormed)
    (hp : s.physicalChunksPerChunkId[c.id]? = none) :
    Trace (Step env pol) s (s.replaceVirtual env c).2 (s.replaceVirtual env c).1 := by
  rcases replaceVirtual_eq env s c with h | h <;> rw [h]
  · exact .refl
  · exact .single (.replaceVirtual _ hw hp)

theorem cleanUpDanglingSplits_frame (env : Env) (s : ChunkStore) (c : Chunk) :
    let s' := (s.cleanUpDanglingSplits env c).1
    PhysicalSub s s' ∧ s'.config = s.config ∧ s'.chunksLineage = s.chunksLineage ∧
      s'.leakyCompactions = s.leakyCompactions ∧ s'.insertId = s.insertId ∧
      s'.issued = s.issued ∧ s'.archive = s.archive ∧
      ∀ key : ChunkId, s'.danglingSplits[key]? =
        if key = c.id then none else s.danglingSplits[key]? := by
  unfold cleanUpDanglingSplits
  split
  · rename_i hn
    refine ⟨.refl s, rfl, rfl, rfl, rfl, rfl, rfl, fun key => ?_⟩
    split
    · rename_i hk
      rwa [hk]
    · rfl
  · rename_i ids hd
    have hl := removeChunksDeep_sameLineage env .danglingSplitCleanup
      { s with danglingSplits := s.danglingSplits.erase c.id } unlimited
      (ids.filterMap (s.physicalChunksPerChunkId[·]?))
    have hp := removeChunksDeep_physicalSub env .danglingSplitCleanup
      { s with danglingSplits := s.danglingSplits.erase c.id } unlimited
      (ids.filterMap (s.physicalChunksPerChunkId[·]?))
    refine ⟨hp, hl.config, hl.lineage, hl.leakyCompactions, hl.insertId, hl.issued, hl.archive,
      fun key => ?_⟩
    dsimp only
    rw [hl.danglingSplits]
    exact (OrdMap.getElem?_erase _ _ _).trans (by simp only [eq_comm])

theorem trace_cleanUpDanglingSplits {s : ChunkStore} (c : Chunk) (h : Core env pol s) :
    Trace (Step env pol) s (s.cleanUpDanglingSplits env c).2 (s.cleanUpDanglingSplits env c).1 := by
  unfold cleanUpDanglingSplits
  split
  · exact .refl
  · rename_i ids hd
    refine Trace.trans (.single (Step.forgetSplit c.id)) (.single (Step.removeDeep _ ?_ ?_))
    · intro piece hp
      obtain ⟨cid, -, hc⟩ := List.mem_filterMap.mp hp
      obtain rfl := h.keyed hc
      exact hc
    · intro hpol piece hp
      obtain ⟨cid, hm, hc⟩ := List.mem_filterMap.mp hp
      obtain ⟨d, hd, hst⟩ := h.pieces hpol hd hm
      obtain rfl := Option.some.inj ((h.physical hc).symm.trans hd)
      exact hst

/-- The state in which a chunk is split and stored. -/
structure Prepared (env : Env) (s s' : ChunkStore) (c : Chunk)
    (lineage : ChunkDirectLineageReport) : Prop where
  physicalSub : PhysicalSub s s'
  config : s'.config = s.config
  lineage_eq : s'.chunksLineage = s.chunksLineage.insertIfNew c.id lineage.toLineage
  leaky : s'.leakyCompactions = s.leakyCompactions
  insertId : s'.insertId = s.insertId
  issued : s'.issued = s.issued
  archive : s'.archive = s.archive
  dangling : ∀ key : ChunkId, s'.danglingSplits[key]? =
    if key = c.id then none else s.danglingSplits[key]?

theorem prepare_prepared (env : Env) (s : ChunkStore) (c : Chunk) (lineage : ChunkDirectLineageReport) :
    Prepared env s (s.prepare env c lineage).1 c lineage := by
  obtain ⟨hl, hp⟩ := replaceVirtual_frame env s c
  obtain ⟨hp', hc, hln, hlk, hid, hi, ha, hd⟩ :=
    cleanUpDanglingSplits_frame env (s.replaceVirtual env c).1 c
  refine ⟨hp.trans hp', hc.trans hl.config, ?_, hlk.trans hl.leakyCompactions,
    hid.trans hl.insertId, hi.trans hl.issued, ha.trans hl.archive, fun key => ?_⟩
  · show (((s.replaceVirtual env c).1.cleanUpDanglingSplits env c).1.chunksLineage).insertIfNew
      c.id lineage.toLineage = _
    rw [hln, hl.lineage]
  · exact (hd key).trans (by rw [hl.danglingSplits])

theorem trace_prepare {s : ChunkStore} {c : Chunk} (h : Core env pol s) (hw : c.WellFormed)
    (hp : s.physicalChunksPerChunkId[c.id]? = none) (hf : ¬ env.Future s.issued c.id)
    (lineage : ChunkDirectLineageReport) :
    Trace (Step env pol) s (s.prepare env c lineage).2 (s.prepare env c lineage).1 := by
  obtain ⟨hl, -⟩ := replaceVirtual_frame env s c
  have ht : Trace (Step env pol) s (s.replaceVirtual env c).2 (s.replaceVirtual env c).1 :=
    trace_replaceVirtual hw hp
  have ht' := trace_cleanUpDanglingSplits c (ht.invariant (fun _ _ _ hs ht => ht.core hs) h)
  have hi := (cleanUpDanglingSplits_frame env (s.replaceVirtual env c).1 c).2.2.2.2.2.1
  have hlast : Step env pol ((s.replaceVirtual env c).1.cleanUpDanglingSplits env c).1 []
      (s.prepare env c lineage).1 := .recordLineage lineage (by rwa [hi, hl.issued])
  exact List.append_nil (s.prepare env c lineage).2 ▸ (ht.trans ht').tail hlast

-- ---------------------------------------------------------------------------
-- Splitting
-- ---------------------------------------------------------------------------

theorem descendsFromACompaction_eq_false {s : ChunkStore} {cid : ChunkId}
    (h : s.chunksLineage[cid]? = none) : s.descendsFromACompaction cid = false := by
  rw [descendsFromACompaction, descendsFromACompactionIn, h]

theorem splitRound_isSplit (s : ChunkStore) {chunks : List Chunk} (n : Nat)
    (hs : ∀ c ∈ chunks, c.Storable) (hd : ∀ c ∈ chunks, s.descendsFromACompaction c.id = false) :
    Chunk.IsSplit env.newId n (s.splitRound env n chunks).2 chunks
      (s.splitRound env n chunks).1 := by
  induction chunks generalizing n with
  | nil => exact .nil _ _
  | cons c rest ih =>
    have hc := hs c List.mem_cons_self
    have h := Chunk.splitChunkIfNeeded_isSplit env.newId_injective hc.wellFormed hc.isSorted
      hc.rowIds_ne env.sizeBytes n s.config.split
    have h' := ih (c.splitChunkIfNeeded env.sizeBytes env.newId n s.config.split).2
      (fun d hd => hs d (List.mem_cons_of_mem _ hd)) fun d hd' => hd d (List.mem_cons_of_mem _ hd')
    have happ := h.append env.newId_injective h'
    rw [splitRound, hd c List.mem_cons_self]
    exact happ

theorem splitRounds_isSplit {s : ChunkStore} {c : Chunk} (h : Core env pol s)
    (hc : s.descendsFromACompaction c.id = false) (fuel n : Nat) (pieces : List Chunk)
    (hs : Chunk.IsSplit env.newId s.issued n [c] pieces) :
    Chunk.IsSplit env.newId s.issued (s.splitRounds env fuel n pieces).2 [c]
      (s.splitRounds env fuel n pieces).1 := by
  induction fuel generalizing n pieces with
  | zero => exact hs
  | succ fuel ih =>
    have hstor : ∀ p ∈ pieces, p.Storable := by
      intro p hp
      obtain ⟨_, -, hpc⟩ := hs.isPiece p hp
      exact hpc.storable
    -- A new piece has no lineage, it does not descend from a compaction.
    have hdesc : ∀ p ∈ pieces, s.descendsFromACompaction p.id = false := by
      intro p hp
      rcases hs.ids p hp with hm | hd
      · rwa [List.mem_singleton.mp hm]
      · refine descendsFromACompaction_eq_false ?_
        cases hl : s.chunksLineage[p.id]? with
        | none => rfl
        | some l => exact absurd (DrawnIn.future hd) (h.mentions (.lineage hl))
    have hround := hs.trans env.newId_injective (splitRound_isSplit s n hstor hdesc)
    rw [splitRounds]
    dsimp only
    split
    · exact hround
    · exact ih _ _ hround

theorem splitChunks_isSplit {s : ChunkStore} {c : Chunk} (h : Core env pol s) (hc : c.Storable) :
    Chunk.IsSplit env.newId s.issued (s.splitChunks env c).2 [c] (s.splitChunks env c).1 := by
  unfold splitChunks
  split
  · rename_i hcond
    simp only [Bool.and_eq_true, Bool.not_eq_true'] at hcond
    exact splitRounds_isSplit h hcond.2 _ _ _ (Chunk.splitChunkIfNeeded_isSplit
      env.newId_injective hc.wellFormed hc.isSorted hc.rowIds_ne _ _ _)
  · exact .refl hc.wellFormed hc.isSorted hc.rowIds_ne _ _

theorem splitChunks_whole {s : ChunkStore} {c : Chunk}
    (h : c.isStatic = true ∨ s.descendsFromASplit c.id = true) :
    s.splitChunks env c = ([c], s.issued) := by
  unfold splitChunks
  rcases h with h | h <;> simp [h]

-- ---------------------------------------------------------------------------
-- Storing a chunk or its pieces
-- ---------------------------------------------------------------------------

theorem storeTemporal_cases {s : ChunkStore} {c : Chunk} (h : Core env pol s) (hc : c.Storable)
    (hst : c.isStatic = false) (lineage : ChunkDirectLineageReport) :
    (s.storeTemporal env c lineage =
        (s.insertIntoIndices env c, .ok (c, [.addition ⟨c, c, lineage⟩]))) ∨
      ∃ n elected compacted, Compacts env s n c elected compacted ∧
        s.storeTemporal env c lineage =
          (({ s with issued := n }.compactInto env c elected compacted).1,
            .ok (compacted, [({ s with issued := n }.compactInto env c elected compacted).2])) := by
  unfold storeTemporal
  cases he : s.findAndElectCompactionCandidate env c with
  | none => exact .inl rfl
  | some elected =>
    have hel := elects_of_elected h.keyed he
    have hes := h.storable hel.physical
    obtain ⟨compacted, n, ho, hd, hs, hm⟩ := Chunk.concatAndSort_spec hes.wellFormed hc.wellFormed
      hes.rowIds_ne hc.rowIds_ne hel.concatenable env.newId s.issued
    refine .inr ⟨n, elected, compacted, ⟨hel, hst, hm, hs, hd⟩, ?_⟩
    simp only [ho]

theorem storeWhole_stored {s : ChunkStore} {c : Chunk} (h : Core env pol s) (hc : c.Storable)
    {lineage : ChunkDirectLineageReport} (hl : IsPlain lineage) :
    ∃ s' diffs, s.storeWhole env c lineage = (s', .ok diffs) ∧
      Stored env { s with insertId := s.insertId + 1 } c s' diffs := by
  unfold storeWhole
  cases hst : c.isStatic with
  | true => exact ⟨_, _, rfl, .static hst hl⟩
  | false =>
    rcases storeTemporal_cases h.nextInsert hc hst lineage with
      he | ⟨n, elected, compacted, hcomp, he⟩
    · refine ⟨_, _, ?_, .asIs c hst hl⟩
      simp only [he, Bool.false_eq_true, if_false]
    · refine ⟨_, _, ?_, .compacted hcomp⟩
      simp only [he, Bool.false_eq_true, if_false]

def storePiece (env : Env) (c : Chunk) (pieces : List Chunk) (s : ChunkStore) (p : Chunk) :
    ChunkStore :=
  let lineage := .splitFrom c (pieces.filter (·.id ≠ p.id))
  ({ s.recordLineage p.id lineage with insertId := s.insertId + 1 }.insertIntoIndices env p
    ).insertPhysical p

theorem insertChunkImpl_whole {s s0 s1 : ChunkStore} {c : Chunk} (hr : s.refusal c = none)
    (depth : Nat) (lineage : ChunkDirectLineageReport)
    (hp : s.prepare env c lineage = (s1, prepared))
    (hs : s1.splitChunks env c = (pieces, n)) (hl : ¬ 1 < pieces.length)
    (h0 : s0 = { s1 with issued := n }) :
    s.insertChunkImpl env depth c lineage =
      ((s0.storeWhole env c lineage).1,
        (s0.storeWhole env c lineage).2.map fun diffs => prepared ++ diffs) := by
  subst h0
  unfold insertChunkImpl
  simp only [hr, hp, hs, hl, if_false]

theorem insertChunkImpl_split {s s0 s1 : ChunkStore} {c : Chunk} (hr : s.refusal c = none)
    (depth : Nat) (lineage : ChunkDirectLineageReport)
    (hp : s.prepare env c lineage = (s1, prepared))
    (hs : s1.splitChunks env c = (pieces, n)) (hl : 1 < pieces.length)
    (h0 : s0 = { s1 with
      issued := n, danglingSplits := s1.danglingSplits.insert c.id (pieces.map (·.id)) }) :
    s.insertChunkImpl env (depth + 1) c lineage =
      ((insertPieces (insertChunkImpl env depth) c pieces s0 pieces).1,
        (insertPieces (insertChunkImpl env depth) c pieces s0 pieces).2.map
          fun diffs => prepared ++ diffs) := by
  subst h0
  unfold insertChunkImpl
  simp only [hr, hp, hs, hl, if_true]

structure Unused (s : ChunkStore) (cid : ChunkId) : Prop where
  physical : s.physicalChunksPerChunkId[cid]? = none
  lineage : s.chunksLineage[cid]? = none
  leaky : s.leakyCompactions[cid]? = none
  dangling : s.danglingSplits[cid]? = none

theorem Unused.of_not_mentions {s : ChunkStore} (h : ¬ s.Mentions cid) : s.Unused cid where
  physical := Option.eq_none_iff_forall_not_mem.mpr fun _ hm => h (.physical hm)
  lineage := Option.eq_none_iff_forall_not_mem.mpr fun _ hm => h (.lineage hm)
  leaky := Option.eq_none_iff_forall_not_mem.mpr fun _ hm => h (.source hm)
  dangling := Option.eq_none_iff_forall_not_mem.mpr fun _ hm => h (.parent hm)

theorem insertChunkImpl_piece (env : Env) (depth : Nat) {s : ChunkStore} {p : Chunk} (hp : p.Storable)
    (hcomp : p.components ≠ []) (hst : p.isStatic = false) (hm : s.Unused p.id)
    (c : Chunk) (pieces : List Chunk) :
    s.insertChunkImpl env depth p (.splitFrom c (pieces.filter (·.id ≠ p.id))) =
      (storePiece env c pieces s p,
        .ok [.addition ⟨p, p, .splitFrom c (pieces.filter (·.id ≠ p.id))⟩]) := by
  obtain ⟨hphys, hl, hleaky, hd⟩ := hm
  generalize hlin : ChunkDirectLineageReport.splitFrom c (pieces.filter (·.id ≠ p.id)) = lineage
  have href : s.refusal p = none := refusal_eq_none.mpr
    ⟨hp.rowIds_ne, hcomp, hphys, hp.isSorted, by rw [physicalCompaction, physicalCompactionIn, hleaky]⟩
  have hprep : s.prepare env p lineage = (s.recordLineage p.id lineage, []) := by
    simp only [prepare, replaceVirtual, directLineage, hl, cleanUpDanglingSplits, hd,
      List.append_nil]
  have hrec : (s.recordLineage p.id lineage).chunksLineage[p.id]? = some lineage.toLineage := by
    have hnot : p.id ∉ s.chunksLineage := by
      rw [TreeMap.mem_iff_isSome_getElem?, hl]
      exact Bool.false_ne_true
    exact (OrdMap.getElem?_insertIfNew _ _ _ _).trans (if_pos ⟨rfl, hnot⟩)
  have hsplit : (s.recordLineage p.id lineage).descendsFromASplit p.id = true := by
    rw [descendsFromASplit, hrec, ← hlin]
    rfl
  have helect : { s.recordLineage p.id lineage with
      insertId := s.insertId + 1 }.findAndElectCompactionCandidate env p = none := by
    unfold findAndElectCompactionCandidate
    exact if_pos hsplit
  have hstore : (s.recordLineage p.id lineage).storeWhole env p lineage =
      (storePiece env c pieces s p, .ok [.addition ⟨p, p, lineage⟩]) := by
    unfold storeWhole storeTemporal
    simp only [hst, Bool.false_eq_true, if_false]
    erw [helect]
    rw [← hlin]
    rfl
  have h0 : s.recordLineage p.id lineage =
      { s.recordLineage p.id lineage with issued := s.issued } := rfl
  rw [insertChunkImpl_whole href depth lineage hprep (splitChunks_whole (.inr hsplit))
    (Nat.lt_irrefl 1) h0, hstore]
  rfl

def pieceAddition (c : Chunk) (pieces : List Chunk) (p : Chunk) : ChunkStoreDiff :=
  .addition ⟨c, p, .splitFrom c (pieces.filter (·.id ≠ p.id))⟩

structure PieceOk (c p : Chunk) : Prop where
  storable : p.Storable
  components_ne : p.components ≠ []
  temporal : p.isStatic = false
  shape : p.entityPath = c.entityPath ∧ p.columnTypes = c.columnTypes

theorem Unused.storePiece {s : ChunkStore} {c p : Chunk} {pieces : List Chunk}
    (h : s.Unused cid) (hne : p.id ≠ cid) : (storePiece env c pieces s p).Unused cid where
  physical := by
    rw [ChunkStore.storePiece, insertPhysical_physical, if_neg hne]
    exact h.physical
  lineage := (OrdMap.getElem?_insertIfNew _ _ _ _).trans
    ((if_neg fun hk => hne hk.1).trans h.lineage)
  leaky := h.leaky
  dangling := h.dangling

theorem insertPieces_eq (depth : Nat) {c : Chunk} (pieces : List Chunk) {rest : List Chunk}
    (hp : ∀ p ∈ rest, PieceOk c p) (hn : (rest.map (·.id)).Nodup) {s : ChunkStore}
    (hm : ∀ p ∈ rest, s.Unused p.id) :
    insertPieces (insertChunkImpl env depth) c pieces s rest =
      (rest.foldl (storePiece env c pieces) s, .ok (rest.map (pieceAddition c pieces))) := by
  induction rest generalizing s with
  | nil => rfl
  | cons p rest ih =>
    have hpo := hp p List.mem_cons_self
    rw [List.map_cons, List.nodup_cons] at hn
    have hm' : ∀ q ∈ rest, (storePiece env c pieces s p).Unused q.id := fun q hq =>
      (hm q (List.mem_cons_of_mem _ hq)).storePiece fun he => hn.1 (he ▸ List.mem_map_of_mem hq)
    have hone := insertChunkImpl_piece env depth hpo.storable hpo.components_ne
      hpo.temporal (hm p List.mem_cons_self) c pieces
    have hrest := ih (fun q hq => hp q (List.mem_cons_of_mem _ hq)) hn.2 hm'
    rw [insertPieces]
    simp only [hone, hrest, List.map_cons, List.map_nil, patchBeforeProcessing, List.foldl_cons,
      pieceAddition, List.cons_append, List.nil_append]

-- ---------------------------------------------------------------------------
-- The insertion of a chunk
-- ---------------------------------------------------------------------------

inductive Inserted (env : Env) (s : ChunkStore) (c : Chunk) (lineage : ChunkDirectLineageReport) :
    ChunkStore → List ChunkStoreDiff → Prop
  | whole {s0 s1 s' n prepared diffs} : s.prepare env c lineage = (s1, prepared) → s1.issued ≤ n →
    s0 = { s1 with issued := n, insertId := s1.insertId + 1 } → Stored env s0 c s' diffs →
    Inserted env s c lineage s' (prepared ++ diffs)
  | split {s0 s1 n prepared pieces} : s.prepare env c lineage = (s1, prepared) →
    Chunk.IsSplit env.newId s1.issued n [c] pieces → 1 < pieces.length →
    (∀ p ∈ pieces, PieceOk c p) → (pieces.map (·.id)).Nodup →
    s0 = { s1 with
      issued := n, danglingSplits := s1.danglingSplits.insert c.id (pieces.map (·.id)) } →
    Inserted env s c lineage (pieces.foldl (storePiece env c pieces) s0)
      (prepared ++ pieces.map (pieceAddition c pieces))

theorem Core.prepare {s : ChunkStore} {c : Chunk} (h : Core env pol s) (hw : c.WellFormed)
    (hp : s.physicalChunksPerChunkId[c.id]? = none) (hf : ¬ env.Future s.issued c.id)
    (lineage : ChunkDirectLineageReport) : Core env pol (s.prepare env c lineage).1 :=
  (trace_prepare h hw hp hf lineage).invariant (fun _ _ _ hs ht => ht.core hs) h

theorem unused_pieces {s0 s1 : ChunkStore} {c : Chunk} {pieces : List Chunk} {n : Nat}
    (h : Core env pol s1) (hf : ¬ env.Future s1.issued c.id)
    (hs : Chunk.IsSplit env.newId s1.issued n [c] pieces) (hl : 1 < pieces.length)
    (h0 : s0 = { s1 with
      issued := n, danglingSplits := s1.danglingSplits.insert c.id (pieces.map (·.id)) }) :
    ∀ p ∈ pieces, s0.Unused p.id := by
  subst h0
  intro p hp
  have hfut : env.Future s1.issued p.id := DrawnIn.future (hs.drawn hl p hp)
  have hu := Unused.of_not_mentions fun hm => h.mentions hm hfut
  have hne : c.id ≠ p.id := fun he => hf (he ▸ hfut)
  refine ⟨hu.physical, hu.lineage, hu.leaky, ?_⟩
  rw [OrdMap.getElem?_insert, if_neg hne]
  exact hu.dangling

theorem insertChunkImpl_inserted {s : ChunkStore} {c : Chunk} (h : Core env pol s)
    (hw : c.WellFormed) (hf : ¬ env.Future s.issued c.id) (hr : s.refusal c = none)
    {lineage : ChunkDirectLineageReport} (hplain : IsPlain lineage) :
    ∃ s' diffs, s.insertChunkImpl env 1 c lineage = (s', .ok diffs) ∧
      Inserted env s c lineage s' diffs := by
  obtain ⟨hne, hcomp, hphys, hsorted, -⟩ := refusal_eq_none.mp hr
  have hc : c.Storable := ⟨hw, hsorted, hne⟩
  have hprep := prepare_prepared env s c lineage
  have hcore := h.prepare hw hphys hf lineage
  generalize hq : s.prepare env c lineage = prep at hprep hcore
  obtain ⟨s1, prepared⟩ := prep
  dsimp only at hprep hcore
  have hsplit := splitChunks_isSplit hcore hc
  generalize hq' : s1.splitChunks env c = split at hsplit
  obtain ⟨pieces, n⟩ := split
  dsimp only at hsplit
  by_cases hl : 1 < pieces.length
  · have hst : c.isStatic = false := by
      cases hst : c.isStatic with
      | false => rfl
      | true =>
        rw [splitChunks_whole (.inl hst)] at hq'
        cases hq'
        exact absurd hl (Nat.lt_irrefl 1)
    have hok : ∀ p ∈ pieces, PieceOk c p := by
      intro p hp
      obtain ⟨d, hd, hpc⟩ := hsplit.isPiece p hp
      obtain rfl := List.mem_singleton.mp hd
      refine ⟨hpc.storable, ?_, hpc.isStatic_eq.trans hst, hpc.entityPath, hpc.columnTypes⟩
      intro hnil
      have hnames := hpc.componentNames
      rw [hnil, List.map_nil, eq_comm, List.map_eq_nil_iff] at hnames
      exact hcomp hnames
    have hnodup := hsplit.nodup (fun d hd k hk he => by
      obtain rfl := List.mem_singleton.mp hd
      exact hf ⟨k, hprep.issued ▸ hk, he⟩) (List.nodup_singleton _)
    have hm := unused_pieces hcore (fun hfut => hf (hprep.issued ▸ hfut)) hsplit hl rfl
    refine ⟨_, _, ?_, .split hq hsplit hl hok hnodup rfl⟩
    rw [insertChunkImpl_split hr 0 lineage hq hq' hl rfl, insertPieces_eq 0 pieces hok hnodup hm]
    rfl
  · obtain ⟨s', diffs, hstore, hstored⟩ := storeWhole_stored (hcore.draw hsplit.le) hc hplain
    refine ⟨s', prepared ++ diffs, ?_, .whole hq hsplit.le rfl hstored⟩
    rw [insertChunkImpl_whole hr 1 lineage hq hq' hl rfl, hstore]
    rfl

theorem Indexes.of_prepare {s : ChunkStore} {c : Chunk} (h : Core env pol s) (hw : c.WellFormed)
    {lineage : ChunkDirectLineageReport} (hx : (s.prepare env c lineage).1.Indexes cid) :
    s.Indexes cid := by
  have hx : ((s.replaceVirtual env c).1.cleanUpDanglingSplits env c).1.Indexes cid :=
    hx.of_same (fun slot => by cases slot <;> rfl) rfl rfl
  have hx : (s.replaceVirtual env c).1.Indexes cid := by
    unfold cleanUpDanglingSplits at hx
    split at hx
    · exact hx
    · have hx := Indexes.of_removeChunksDeep (fun piece hp => by
        obtain ⟨key, -, hc⟩ := List.mem_filterMap.mp hp
        exact (h.storable ((replaceVirtual_frame env s c).2.some hc)).wellFormed) hx
      exact hx.of_same (fun slot => by cases slot <;> rfl) rfl rfl
  rcases replaceVirtual_eq env s c with he | he
  · rwa [he] at hx
  · rw [he] at hx
    exact hx.of_removeChunksDeep fun d hd => List.mem_singleton.mp hd ▸ hw

theorem Indexes.of_storePiece {s : ChunkStore} {c p : Chunk} {pieces : List Chunk}
    (hw : p.WellFormed) (h : (storePiece env c pieces s p).Indexes cid) :
    s.Indexes cid ∨ cid = p.id := by
  rcases h.of_insertPhysical with h | h
  · exact (h.of_insertIntoIndices hw).imp_left
      (·.of_same (fun slot => by cases slot <;> rfl) rfl rfl)
  · exact .inr h

theorem trace_storePieces {c : Chunk} (pieces : List Chunk) (ha : pol.chunk c) {rest : List Chunk}
    (hp : ∀ p ∈ rest, PieceOk c p) (hn : (rest.map (·.id)).Nodup) {s : ChunkStore}
    (hm : ∀ p ∈ rest, s.Unused p.id) (hx : ∀ p ∈ rest, OwnMade env s p)
    (hf : ∀ p ∈ rest, ¬ env.Future s.issued p.id) :
    Trace (Step env pol) s (rest.map (pieceAddition c pieces))
      (rest.foldl (storePiece env c pieces) s) := by
  induction rest generalizing s with
  | nil => exact .refl
  | cons p rest ih =>
    have hpo := hp p List.mem_cons_self
    have hpm : p ∈ p :: rest := List.mem_cons_self
    rw [List.map_cons, List.nodup_cons] at hn
    have hne : ∀ q ∈ rest, p.id ≠ q.id := fun q hq he => hn.1 (he ▸ List.mem_map_of_mem hq)
    have h1 : Step env pol s [] (s.recordLineage p.id
        (.splitFrom c (pieces.filter (·.id ≠ p.id)))) := .recordLineage _ (hf p hpm)
    have h3 : Step env pol { s.recordLineage p.id (.splitFrom c (pieces.filter (·.id ≠ p.id))) with
        insertId := s.insertId + 1 } [pieceAddition c pieces p] (storePiece env c pieces s p) := by
      refine .store hpo.storable (hf p hpm) (hm p hpm).physical ?_ (.inr ?_)
        (.asIs c hpo.temporal (fun _ => nofun))
      · exact pol.closed hpo.shape.1 (fun entry he => hpo.shape.2 ▸ he) ha
      · refine ⟨fun hi => (hx p hpm).unindexed ?_, (hx p hpm).drawn, hpo.temporal⟩
        exact hi.of_same (fun slot => by cases slot <;> rfl) rfl rfl
    have hm' : ∀ q ∈ rest, (storePiece env c pieces s p).Unused q.id :=
      fun q hq => (hm q (List.mem_cons_of_mem _ hq)).storePiece (hne q hq)
    have hx' : ∀ q ∈ rest, OwnMade env (storePiece env c pieces s p) q := by
      intro q hq
      have hq' := hx q (List.mem_cons_of_mem _ hq)
      refine ⟨fun hi => ?_, hq'.drawn, hq'.temporal⟩
      rcases hi.of_storePiece hpo.storable.wellFormed with hi | he
      · exact hq'.unindexed hi
      · exact hne q hq he.symm
    have hrest := ih (fun q hq => hp q (List.mem_cons_of_mem _ hq)) hn.2 hm' hx'
      (fun q hq => hf q (List.mem_cons_of_mem _ hq))
    exact (((Trace.single h1).tail .nextInsert).tail h3).trans hrest

theorem storePieces_danglingSplits (env : Env) (c : Chunk) (pieces rest : List Chunk) (s : ChunkStore)
    (splits : TreeMap ChunkId (List ChunkId)) :
    rest.foldl (storePiece env c pieces) { s with danglingSplits := splits } =
      { rest.foldl (storePiece env c pieces) s with danglingSplits := splits } := by
  induction rest generalizing s with
  | nil => rfl
  | cons p rest ih => exact ih (storePiece env c pieces s p)

theorem storePieces_frame (env : Env) (c : Chunk) (pieces rest : List Chunk) (s : ChunkStore) :
    let s' := rest.foldl (storePiece env c pieces) s
    s'.danglingSplits = s.danglingSplits ∧ s'.leakyCompactions = s.leakyCompactions ∧
      s'.issued = s.issued ∧ s'.staticChunkIdsPerEntity = s.staticChunkIdsPerEntity := by
  induction rest generalizing s with
  | nil => exact ⟨rfl, rfl, rfl, rfl⟩
  | cons p rest ih =>
    obtain ⟨h1, h2, h3, h4⟩ := ih (storePiece env c pieces s p)
    exact ⟨h1, h2, h3, h4⟩

theorem storePieces_archive (env : Env) (c : Chunk) (pieces : List Chunk) {rest : List Chunk}
    (hn : (rest.map (·.id)).Nodup) (s : ChunkStore) :
    (∀ p ∈ rest, (rest.foldl (storePiece env c pieces) s).archive[p.id]? = some p) ∧
      ∀ key ∉ rest.map (·.id),
        (rest.foldl (storePiece env c pieces) s).archive[key]? = s.archive[key]? := by
  induction rest generalizing s with
  | nil => exact ⟨fun _ h => (nomatch h), fun _ _ => rfl⟩
  | cons p rest ih =>
    rw [List.map_cons, List.nodup_cons] at hn
    obtain ⟨hin, hout⟩ := ih hn.2 (storePiece env c pieces s p)
    have hone : ∀ key, (storePiece env c pieces s p).archive[key]? =
        if p.id = key then some p else s.archive[key]? := fun key => OrdMap.getElem?_insert _ _ _ _
    refine ⟨fun q hq => ?_, fun key hk => ?_⟩
    · rcases List.mem_cons.mp hq with rfl | hq
      · exact (hout _ hn.1).trans ((hone _).trans (if_pos rfl))
      · exact hin q hq
    · rw [List.map_cons, List.mem_cons, not_or] at hk
      exact (hout key hk.2).trans ((hone key).trans (if_neg (Ne.symm hk.1)))

theorem storePieces_physical (c : Chunk) (pieces : List Chunk) {rest : List Chunk}
    (hn : (rest.map (·.id)).Nodup) (s : ChunkStore) (key : ChunkId) (d : Chunk) :
    (rest.foldl (storePiece env c pieces) s).physicalChunksPerChunkId[key]? = some d ↔
      (d ∈ rest ∧ d.id = key) ∨
        (key ∉ rest.map (·.id) ∧ s.physicalChunksPerChunkId[key]? = some d) := by
  induction rest generalizing s with
  | nil => simp
  | cons p rest ih =>
    rw [List.map_cons, List.nodup_cons] at hn
    have hp : (storePiece env c pieces s p).physicalChunksPerChunkId[key]? =
        if p.id = key then some p else s.physicalChunksPerChunkId[key]? :=
      insertPhysical_physical _ p key
    rw [List.foldl_cons, ih hn.2, hp]
    by_cases hk : p.id = key
    · subst hk
      simp only [hn.1, if_true, not_false_eq_true, true_and, List.mem_cons, List.map_cons,
        not_true_eq_false, false_and, or_false, Option.some.injEq]
      constructor
      · rintro (⟨hd, he⟩ | rfl)
        · exact ⟨.inr hd, he⟩
        · exact ⟨.inl rfl, rfl⟩
      · rintro ⟨rfl | hd, he⟩
        · exact .inr rfl
        · exact .inl ⟨hd, he⟩
    · simp only [hk, if_false, List.mem_cons, List.map_cons, not_or]
      constructor
      · rintro (⟨hd, he⟩ | ⟨hm, hs⟩)
        · exact .inl ⟨.inr hd, he⟩
        · exact .inr ⟨⟨Ne.symm hk, hm⟩, hs⟩
      · rintro (⟨rfl | hd, he⟩ | ⟨⟨-, hm⟩, hs⟩)
        · exact absurd he hk
        · exact .inl ⟨hd, he⟩
        · exact .inr ⟨hm, hs⟩

theorem storePiece_lineage (c : Chunk) (pieces : List Chunk) (s : ChunkStore) (p : Chunk)
    (key : ChunkId) : (storePiece env c pieces s p).chunksLineage[key]? =
      if p.id = key ∧ p.id ∉ s.chunksLineage then
        some (.splitFrom c.id ((pieces.filter (·.id ≠ p.id)).map (·.id)))
      else s.chunksLineage[key]? :=
  OrdMap.getElem?_insertIfNew _ _ _ _

theorem Inserted.trace {s s' : ChunkStore} {c : Chunk} {lineage : ChunkDirectLineageReport}
    (h : Core env pol s) (hc : c.Storable)
    (hp : s.physicalChunksPerChunkId[c.id]? = none) (hf : ¬ env.Future s.issued c.id)
    (ha : pol.chunk c) (hi : pol.insert s.archive c ∨ OwnMade env s c)
    (hins : Inserted env s c lineage s' diffs) : Trace (Step env pol) s diffs s' := by
  have hprep := prepare_prepared env s c lineage
  have htrace := trace_prepare h hc.wellFormed hp hf lineage
  have hcore := h.prepare hc.wellFormed hp hf lineage
  have hidx : ∀ x, (s.prepare env c lineage).1.Indexes x → s.Indexes x :=
    fun x hx => hx.of_prepare h hc.wellFormed
  cases hins with
  | @whole s0 s1 s' n prepared diffs hq hn h0 hst =>
    rw [hq] at hprep htrace hcore hidx
    have hdraw : Trace (Step env pol) s prepared s0 := by
      have ht := (htrace.tail (.draw hn)).tail .nextInsert
      rw [List.append_nil, List.append_nil] at ht
      exact h0 ▸ ht
    subst h0
    refine hdraw.tail (.store hc ?_ (hprep.physicalSub.none hp) ha ?_ hst)
    · exact fun hfut => hf (hprep.issued ▸ hfut.mono hn)
    · refine hi.imp (fun hi => hprep.archive ▸ hi) fun hi => ⟨fun hx => ?_, hi.drawn, hi.temporal⟩
      exact hi.unindexed (hidx _ (hx.of_same (fun slot => by cases slot <;> rfl) rfl rfl))
  | @split s0 s1 n prepared pieces hq hs hl hok hn h0 =>
    rw [hq] at hprep htrace hcore hidx
    have hfut : ∀ p ∈ pieces, env.Future s1.issued p.id :=
      fun p hp => DrawnIn.future (hs.drawn hl p hp)
    have hnot : ∀ p ∈ pieces, ¬ env.Future n p.id :=
      fun p hp => DrawnIn.not_future (hs.drawn hl p hp)
    have hm := unused_pieces hcore (fun hfut => hf (hprep.issued ▸ hfut)) hs hl h0
    -- The record of the split is read by no piece, it may come last.
    have hstore : Trace (Step env pol) { s1 with issued := n } (pieces.map (pieceAddition c pieces))
        (pieces.foldl (storePiece env c pieces) { s1 with issued := n }) := by
      refine trace_storePieces pieces ha hok hn (fun p hp => ?_) (fun p hp => ?_) hnot
      · have hu := Unused.of_not_mentions fun hm => hcore.mentions hm (hfut p hp)
        exact ⟨hu.physical, hu.lineage, hu.leaky, hu.dangling⟩
      · obtain ⟨k, -, -, hk⟩ := hs.drawn hl p hp
        refine ⟨fun hx => hcore.indexes ?_ (hfut p hp), ⟨k, hk⟩, (hok p hp).temporal⟩
        exact hx.of_same (fun slot => by cases slot <;> rfl) rfl rfl
    have hissued := (storePieces_frame env c pieces pieces { s1 with issued := n }).2.2.1
    have hdang := (storePieces_frame env c pieces pieces { s1 with issued := n }).1
    have harch := (storePieces_archive env c pieces hn { s1 with issued := n }).1
    generalize hq' : pieces.foldl (storePiece env c pieces) { s1 with issued := n } = s2
      at hstore hissued hdang harch
    have hrecord : Step env pol s2 []
        { s2 with danglingSplits := s2.danglingSplits.insert c.id (pieces.map (·.id)) } := by
      refine .recordSplit ?_ (fun piece hp => ?_) fun piece hp => ?_
      · rw [hissued]
        exact fun hfut => hf (hprep.issued ▸ hfut.mono hs.le)
      · obtain ⟨p, hmem, rfl⟩ := List.mem_map.mp hp
        rw [hissued]
        exact hnot p hmem
      · obtain ⟨p, hmem, rfl⟩ := List.mem_map.mp hp
        exact ⟨p, harch p hmem, (hok p hmem).temporal⟩
    have ht := ((htrace.tail (.draw hs.le)).trans hstore).tail hrecord
    rw [hdang, List.append_nil, List.append_nil, ← hq'] at ht
    have hlast := storePieces_danglingSplits env c pieces pieces { s1 with issued := n }
      (s1.danglingSplits.insert c.id (pieces.map (·.id)))
    rw [h0]
    exact hlast ▸ ht

end DimosViewer.ChunkStore
