import DimosViewer.Query.Cache
import DimosViewer.Query.RangeFilter
import DimosViewer.Store.Bookkeeping
import DimosViewer.Store.SplitRounds
import Mathlib.Algebra.Order.Group.Multiset

/-!
# The rows of a store

A store is a bag of rows. Splits and compactions move rows between chunks and keep the bag as it is,
and a time range is dropped row by row, however the chunks lie.
-/

namespace DimosViewer

open Reach (Reachable Trace)
open Std (TreeMap)

/-- Rows with the entities that they were logged to. -/
abbrev RowLog := Multiset (EntityPath × RowData)

def Chunk.logged (c : Chunk) : RowLog :=
  if c.isStatic then 0 else ↑(c.rows.map (Prod.mk c.entityPath))

namespace Chunk

theorem logged_of_temporal {c : Chunk} (h : c.isStatic = false) :
    c.logged = ↑(c.rows.map (Prod.mk c.entityPath)) := by
  rw [logged, h]
  rfl

theorem IsConcat.isStatic_eq {cl cr c : Chunk} (h : IsConcat cl cr c) :
    c.isStatic = cl.isStatic ∧ cl.isStatic = cr.isStatic :=
  ⟨isStatic_eq_of_columnTypes h.columnTypes, isStatic_eq_of_columnTypes h.concatenable.1⟩

theorem IsConcat.logged {cl cr c : Chunk} (h : IsConcat cl cr c) :
    c.logged = cl.logged + cr.logged := by
  obtain ⟨hc, hl⟩ := h.isStatic_eq
  rw [Chunk.logged, Chunk.logged, Chunk.logged, hc, ← hl]
  split
  · rfl
  · rw [h.entityPath, ← h.concatenable.2, Multiset.coe_add, ← List.map_append, Multiset.coe_eq_coe]
    exact h.rows.map _

theorem sum_logged {e : EntityPath} {pieces : List Chunk}
    (h : ∀ p ∈ pieces, p.entityPath = e ∧ p.isStatic = false) :
    (pieces.map logged).sum = ↑((pieces.flatMap rows).map (Prod.mk e)) := by
  induction pieces with
  | nil => rfl
  | cons p rest ih =>
    obtain ⟨he, hst⟩ := h p List.mem_cons_self
    rw [List.map_cons, List.sum_cons, ih fun q hq => h q (List.mem_cons_of_mem _ hq),
      logged_of_temporal hst, he, List.flatMap_cons, List.map_append, Multiset.coe_add]

theorem components_ne_of_concatAndSort {left right c : Chunk} (hl : left.components ≠ [])
    (hr : right.components ≠ []) (h : concatAndSort newId n left right = .ok (c, n')) :
    c.components ≠ [] := by
  have hconcatenated {cl cr d : Chunk} {m m' : Nat} (hcl : cl.components ≠ [])
      (hcr : cr.components ≠ []) (hd : cl.concatenated newId m cr = .ok (d, m')) :
      d.components ≠ [] := by
    unfold concatenated at hd
    split at hd
    · cases hd
    split at hd
    · cases hd
      exact hcr
    · cases hd
      exact hcl
    · cases hd
      intro hnil
      exact hcl (List.map_eq_nil_iff.mp (List.append_eq_nil_iff.mp hnil).1)
  unfold concatAndSort at h
  dsimp only at h
  generalize hq : (if rowIdMinLt left.rowIdMin right.rowIdMin then left.concatenated newId n right
    else right.concatenated newId n left) = q at h
  cases q with
  | error _ => cases h
  | ok pair =>
    obtain ⟨d, m⟩ := pair
    have hd : d.components ≠ [] := by
      split at hq
      · exact hconcatenated hl hr hq
      · exact hconcatenated hr hl hq
    obtain rfl : (d.sortIfUnsorted newId m).1 = c := congrArg Prod.fst (Except.ok.inj h)
    rw [sortIfUnsorted]
    split
    · exact hd
    · exact fun hnil => hd (List.map_eq_nil_iff.mp hnil)

end Chunk

/-- The chunk whose rows a cache of latest rows learns of. -/
def ChunkStoreDiff.touched? : ChunkStoreDiff → Option Chunk
  | .addition add => some (QueryCache.CompactedEvents.latestAtChunk add)
  | .deletion del => some del.chunk
  | .virtualAddition _ => none

namespace ChunkStore

variable {env : Env} {pol : Policy} {types : EntityPath → TimelineName → Timeline}

def rowLog (s : ChunkStore) : RowLog := OrdMap.total s.physicalChunksPerChunkId Chunk.logged

-- ---------------------------------------------------------------------------
-- New chunks
-- ---------------------------------------------------------------------------

/-- What becomes of a new temporal chunk: it is stored as a whole or in pieces, or it is merged with
a neighbor. An event tells of each chunk that is new. -/
inductive Lands (s s' : ChunkStore) (c : Chunk) (diffs : List ChunkStoreDiff) : Prop
  | pieces {pieces : List Chunk} : pieces.flatMap Chunk.rows = c.rows →
    (∀ p ∈ pieces, p.entityPath = c.entityPath ∧ p.isStatic = false ∧ p.components ≠ []) →
    (∀ p ∈ pieces, ∃ diff ∈ diffs, diff.touched? = some p) →
    (pieces.map (·.id)).Nodup → (∀ p ∈ pieces, s.physicalChunksPerChunkId[p.id]? = none) →
    (∀ (key : ChunkId) d, s'.physicalChunksPerChunkId[key]? = some d ↔ (d ∈ pieces ∧ d.id = key) ∨
      (key ∉ pieces.map (·.id) ∧ s.physicalChunksPerChunkId[key]? = some d)) → Lands s s' c diffs
  | merged {elected compacted : Chunk} : s.Physical elected → elected.components ≠ [] →
    Chunk.IsConcat elected c compacted → compacted.components ≠ [] →
    (∃ diff ∈ diffs, diff.touched? = some compacted) →
    s.physicalChunksPerChunkId[compacted.id]? = none →
    (∀ key : ChunkId, s'.physicalChunksPerChunkId[key]? =
      if compacted.id = key then some compacted
      else if key = elected.id then none else s.physicalChunksPerChunkId[key]?) → Lands s s' c diffs

theorem Lands.rowLog {s s' : ChunkStore} {c : Chunk} (h : Lands s s' c diffs)
    (hst : c.isStatic = false) : s'.rowLog = c.logged + s.rowLog := by
  cases h with
  | @pieces pieces hrows hpieces _ hnodup hnew hphys =>
    have hget : ∀ p ∈ pieces, s'.physicalChunksPerChunkId[p.id]? = some p := fun p hp =>
      (hphys p.id p).mpr (.inl ⟨hp, rfl⟩)
    have hremoved : ∀ key : ChunkId, s.physicalChunksPerChunkId[key]? =
        if key ∈ pieces.map (·.id) then none else s'.physicalChunksPerChunkId[key]? := by
      intro key
      split
      case isTrue hm =>
        obtain ⟨p, hp, rfl⟩ := List.mem_map.mp hm
        exact hnew p hp
      case isFalse hm =>
        refine Option.ext fun d => ?_
        rw [hphys, and_iff_right hm]
        refine (or_iff_right ?_).symm
        rintro ⟨hd, rfl⟩
        exact hm (List.mem_map_of_mem hd)
    have hfound : (pieces.map (·.id)).filterMap (s'.physicalChunksPerChunkId[·]?) = pieces := by
      rw [List.filterMap_map]
      exact (List.filterMap_congr hget).trans List.filterMap_some
    rw [ChunkStore.rowLog, OrdMap.total_removed hnodup hremoved, hfound,
      Chunk.sum_logged fun p hp => ⟨(hpieces p hp).1, (hpieces p hp).2.1⟩, hrows,
      Chunk.logged_of_temporal hst]
    rfl
  | @merged elected compacted hphys _ hconcat _ _ hnew hget =>
    have hne : compacted.id ≠ elected.id := by
      rintro he
      rw [he] at hnew
      cases hnew.symm.trans hphys
    have herased : (s.physicalChunksPerChunkId.erase elected.id)[compacted.id]? = none := by
      rw [OrdMap.getElem?_erase, if_neg (Ne.symm hne), hnew]
    have hinsert : ∀ key : ChunkId, s'.physicalChunksPerChunkId[key]? =
        ((s.physicalChunksPerChunkId.erase elected.id).insert compacted.id compacted)[key]? := by
      intro key
      rw [hget, OrdMap.getElem?_insert, OrdMap.getElem?_erase]
      simp only [eq_comm]
    rw [ChunkStore.rowLog, OrdMap.total_congr hinsert, OrdMap.total_insert herased,
      hconcat.logged, ChunkStore.rowLog, OrdMap.total_erase hphys, add_comm elected.logged,
      add_assoc]

theorem Lands.of_physical_eq {s s' s'' : ChunkStore} {c : Chunk} (h : Lands s' s'' c diffs)
    (he : s'.physicalChunksPerChunkId = s.physicalChunksPerChunkId) : Lands s s'' c diffs := by
  cases h with
  | pieces hrows hpieces hdiffs hnodup hnew hphys =>
    rw [he] at hnew hphys
    exact .pieces hrows hpieces hdiffs hnodup hnew hphys
  | merged hphys hne hconcat hne' hdiff hnew hget =>
    rw [Physical, he] at hphys
    rw [he] at hnew hget
    exact .merged hphys hne hconcat hne' hdiff hnew hget

def Populated (s : ChunkStore) : Prop :=
  ∀ (key : ChunkId) c, s.physicalChunksPerChunkId[key]? = some c → c.components ≠ []

theorem Populated.of_sub {s s' : ChunkStore} (h : s.Populated) (hp : PhysicalSub s s') :
    s'.Populated := fun key c hc => h key c (hp.some hc)

theorem Lands.populated {s s' : ChunkStore} {c : Chunk} (h : Lands s s' c diffs) (hs : s.Populated) :
    s'.Populated := by
  intro key d hd
  cases h with
  | pieces _ hpieces _ _ _ hphys =>
    rcases (hphys key d).mp hd with ⟨hm, -⟩ | ⟨-, hd⟩
    · exact (hpieces d hm).2.2
    · exact hs key d hd
  | merged _ _ _ hne _ _ hget =>
    rw [hget] at hd
    split at hd
    · cases hd
      exact hne
    · split at hd
      · cases hd
      · exact hs key d hd

-- ---------------------------------------------------------------------------
-- Insertion
-- ---------------------------------------------------------------------------

theorem prepare_of_unused (env : Env) {s : ChunkStore} {c : Chunk} (h : s.Unused c.id)
    (lineage : ChunkDirectLineageReport) :
    s.prepare env c lineage = (s.recordLineage c.id lineage, []) := by
  simp only [prepare, replaceVirtual, directLineage, h.lineage, cleanUpDanglingSplits, h.dangling,
    List.append_nil]

theorem insertChunk_of_unused (env : Env) {s : ChunkStore} {c : Chunk} (h : s.Unused c.id) :
    s.insertChunk env c = s.insertChunkImpl env 1 c .volatile := by
  have hroot : s.isRootChunk c.id = true := by rw [isRootChunk, h.lineage]
  rw [insertChunk, hroot]
  rfl

/-- A new chunk that has rows in order and components is stored. -/
structure Accepted (s : ChunkStore) (c : Chunk) : Prop extends s.Unused c.id where
  storable : c.Storable
  components_ne : c.components ≠ []

theorem Accepted.refusal {s : ChunkStore} {c : Chunk} (h : s.Accepted c) : s.refusal c = none := by
  refine refusal_eq_none.mpr ⟨h.storable.rowIds_ne, h.components_ne, h.physical,
    h.storable.isSorted, ?_⟩
  rw [physicalCompaction, physicalCompactionIn, h.leaky]

theorem sameTypes_of_hasTypes {c d : Chunk} (hc : HasTypes types c) (hd : HasTypes types d)
    (he : c.entityPath = d.entityPath) : Chunk.SameTypes c d := by
  have hmem {c : Chunk} {name : TimelineName} {tc : TimeColumn} (h : c.timeline? name = some tc) :
      (name, tc.timeline) ∈ c.columnTypes := by
    obtain ⟨before, after, htimelines, -⟩ := List.lookup_eq_some_iff.mp h
    exact Chunk.mem_columnTypes (by simp [htimelines])
  intro name lhs rhs hl hr
  have hl := hc _ (hmem hl)
  have hr := hd _ (hmem hr)
  rw [he] at hl
  exact hl.trans hr.symm

theorem storeWhole_cases {s : ChunkStore} {c : Chunk} (h : Core env pol s) (hc : c.Storable)
    (hcomp : c.components ≠ []) (hst : c.isStatic = false) (hpop : s.Populated)
    (ht : HasTypes types c) (hts : ∀ d, s.Physical d → HasTypes types d)
    (lineage : ChunkDirectLineageReport) :
    let s0 := { s with insertId := s.insertId + 1 }
    s.storeWhole env c lineage = ((s0.insertIntoIndices env c).insertPhysical c,
        .ok [.addition ⟨c, c, lineage⟩]) ∨
      ∃ n elected compacted, Compacts env s0 n c elected compacted ∧
        Chunk.IsConcat elected c compacted ∧ compacted.components ≠ [] ∧
        s.storeWhole env c lineage =
          (({ s0 with issued := n }.compactInto env c elected compacted).1.insertPhysical compacted,
            .ok [({ s0 with issued := n }.compactInto env c elected compacted).2]) := by
  intro s0
  unfold storeWhole storeTemporal
  rw [hst]
  dsimp only
  cases he : findAndElectCompactionCandidate env { s with insertId := s.insertId + 1 } c with
  | none => exact .inl rfl
  | some elected =>
    have hel := elects_of_elected h.nextInsert.keyed he
    have hphys : s.Physical elected := hel.physical
    have hes := h.storable hphys
    obtain ⟨compacted, n, ho, hd, hs, hm⟩ := Chunk.concatAndSort_spec hes.wellFormed hc.wellFormed
      hes.rowIds_ne hc.rowIds_ne hel.concatenable env.newId s.issued
    have hpath : elected.entityPath = c.entityPath :=
      (Chunk.concatenable_iff.mp hel.concatenable).1.symm
    have hconcat := Chunk.concatAndSort_isConcat hes.wellFormed.aligned hc.wellFormed.aligned
      (sameTypes_of_hasTypes (hts elected hphys) ht hpath) ho
    have hne := Chunk.components_ne_of_concatAndSort (hpop _ _ hphys) hcomp ho
    refine .inr ⟨n, elected, compacted, ⟨hel, hst, hm, hs, hd⟩, hconcat, hne, ?_⟩
    simp only [ho]
    rfl

theorem lands_storeWhole {s : ChunkStore} {c : Chunk} (h : Core env pol s) (hc : c.Storable)
    (hcomp : c.components ≠ []) (hst : c.isStatic = false)
    (hn : s.physicalChunksPerChunkId[c.id]? = none) (hpop : s.Populated) (ht : HasTypes types c)
    (hts : ∀ d, s.Physical d → HasTypes types d) :
    ∃ diffs, (s.storeWhole env c .volatile).2 = .ok diffs ∧
      Lands s (s.storeWhole env c .volatile).1 c diffs := by
  rcases storeWhole_cases h hc hcomp hst hpop ht hts .volatile with
    he | ⟨n, elected, compacted, hcompacts, hconcat, hne, he⟩ <;> rw [he]
  · refine ⟨_, rfl, .pieces (List.flatMap_singleton _ c) (fun p hp => ?_) (fun p hp => ?_)
      (List.nodup_singleton _) (fun p hp => ?_) fun key d => ?_⟩
    · obtain rfl := List.mem_singleton.mp hp
      exact ⟨rfl, hst, hcomp⟩
    · obtain rfl := List.mem_singleton.mp hp
      exact ⟨_, List.mem_singleton_self _, rfl⟩
    · obtain rfl := List.mem_singleton.mp hp
      exact hn
    · refine (Eq.congr_left (insertPhysical_physical _ c key)).trans ?_
      by_cases hk : c.id = key
      · subst hk
        simp only [if_true, Option.some.injEq, List.mem_singleton, List.map_cons, List.map_nil,
          not_true_eq_false, false_and, or_false]
        exact ⟨fun hd => ⟨hd.symm, congrArg Chunk.id hd.symm⟩, fun hd => hd.1.symm⟩
      · simp only [hk, if_false, List.mem_singleton, List.map_cons, List.map_nil, Ne.symm hk,
          not_false_eq_true, true_and]
        refine (or_iff_right ?_).symm
        rintro ⟨rfl, hid⟩
        exact hk hid
  · have hphys : s.Physical elected := hcompacts.physical
    have hnew : s.physicalChunksPerChunkId[compacted.id]? = none :=
      Option.eq_none_iff_forall_not_mem.mpr fun _ hd' =>
        h.mentions (.physical hd') (DrawnIn.future hcompacts.drawn)
    refine ⟨_, rfl, .merged hphys (hpop _ _ hphys) hconcat hne
      ⟨_, List.mem_singleton_self _, rfl⟩ hnew fun key => ?_⟩
    refine (insertPhysical_physical _ compacted key).trans ?_
    rw [compactInto_eq]
    refine if_congr Iff.rfl rfl ?_
    exact replaceElected_physical env
      { s with insertId := s.insertId + 1, issued := n } elected compacted key

theorem insertChunk_root_cases {s : ChunkStore} {c : Chunk} (h : Core env pol s)
    (hw : c.WellFormed) (hroot : s.isRootChunk c.id = true) (hr : s.refusal c = none)
    (hst : c.isStatic = false) (hf : ¬ env.Future s.issued c.id) :
    let s1 := (s.prepare env c .volatile).1
    let prepared := (s.prepare env c .volatile).2
    (∃ n, s1.issued ≤ n ∧ s.insertChunk env c =
        (({ s1 with issued := n }.storeWhole env c .volatile).1,
          ({ s1 with issued := n }.storeWhole env c .volatile).2.map (prepared ++ ·))) ∨
      ∃ n, ∃ pieces : List Chunk, ∃ s0 : ChunkStore, s0 = { s1 with
          issued := n, danglingSplits := s1.danglingSplits.insert c.id (pieces.map (·.id)) } ∧
        s1.issued ≤ n ∧ pieces.flatMap Chunk.rows = c.rows ∧ (∀ p ∈ pieces, PieceOk c p) ∧
        (pieces.map (·.id)).Nodup ∧ (∀ p ∈ pieces, s0.Unused p.id) ∧
        s.insertChunk env c = (pieces.foldl (storePiece env c pieces) s0,
          .ok (prepared ++ pieces.map (pieceAddition c pieces))) := by
  intro s1 prepared
  obtain ⟨hne, hcomp, hphys, hsorted, -⟩ := refusal_eq_none.mp hr
  have hc : c.Storable := ⟨hw, hsorted, hne⟩
  have hcore : Core env pol s1 := h.prepare hw hphys hf .volatile
  have hprepared : Prepared env s s1 c .volatile := prepare_prepared env s c .volatile
  have hprep : s.prepare env c .volatile = (s1, prepared) := rfl
  have hl := root_of_prepared hroot hprepared
  have hsplit : s1.descendsFromASplit c.id = false := by
    rcases hl with hl | ⟨_, hl⟩ <;> simp [descendsFromASplit, hl]
  have hcompact : s1.descendsFromACompaction c.id = false := by
    rcases hl with hl | ⟨_, hl⟩ <;> simp [descendsFromACompaction, descendsFromACompactionIn, hl]
  obtain ⟨-, hpart, -⟩ := splitChunks_loop (noLineageFrom_of_prepared h hf hprepared)
    ⟨hw.aligned, hne, hcompact⟩ hst hsplit
  have hpieces := splitChunks_isSplit hcore hc
  generalize hq : s1.splitChunks env c = split at hpart hpieces
  obtain ⟨pieces, n⟩ := split
  dsimp only at hpart hpieces
  have he : s.insertChunk env c = s.insertChunkImpl env 1 c .volatile := by
    rw [insertChunk, hroot]
    rfl
  rw [he]
  by_cases hl : 1 < pieces.length
  · have hok : ∀ p ∈ pieces, PieceOk c p := by
      intro p hp
      obtain ⟨d, hd, hpc⟩ := hpieces.isPiece p hp
      obtain rfl := List.mem_singleton.mp hd
      refine ⟨hpc.storable, ?_, hpc.isStatic_eq.trans hst, hpc.entityPath, hpc.columnTypes⟩
      intro hnil
      have hnames := hpc.componentNames
      rw [hnil, List.map_nil, eq_comm, List.map_eq_nil_iff] at hnames
      exact hcomp hnames
    have hf1 : ¬ env.Future s1.issued c.id := hprepared.issued ▸ hf
    have hnodup := hpieces.nodup (fun d hd k hk hid => by
      obtain rfl := List.mem_singleton.mp hd
      exact hf1 ⟨k, hk, hid⟩) (List.nodup_singleton _)
    have hm := unused_pieces hcore hf1 hpieces hl rfl
    refine .inr ⟨n, pieces, _, rfl, hpieces.le, hpart.rows.trans (List.flatMap_singleton _ _), hok,
      hnodup, hm, ?_⟩
    rw [insertChunkImpl_split hr 0 .volatile hprep hq hl rfl, insertPieces_eq 0 pieces hok hnodup hm]
    rfl
  · exact .inl ⟨n, hpieces.le, insertChunkImpl_whole hr 1 .volatile hprep hq hl rfl⟩

theorem isRootChunk_of_unused {s : ChunkStore} (h : s.Unused cid) : s.isRootChunk cid = true := by
  rw [isRootChunk, h.lineage]

/-- A new temporal chunk gets its rows into the store, all of them and each one once. -/
theorem lands_insertChunk {s : ChunkStore} {c : Chunk} (h : Core env pol s) (hc : s.Accepted c)
    (hst : c.isStatic = false) (hf : ¬ env.Future s.issued c.id) (hpop : s.Populated)
    (ht : HasTypes types c) (hts : ∀ d, s.Physical d → HasTypes types d) :
    ∃ diffs, (s.insertChunk env c).2 = .ok diffs ∧ Lands s (s.insertChunk env c).1 c diffs := by
  have hcore := h.prepare hc.storable.wellFormed hc.physical hf .volatile
  have hcases := insertChunk_root_cases h hc.storable.wellFormed (isRootChunk_of_unused hc.toUnused)
    hc.refusal hst hf
  rw [prepare_of_unused env hc.toUnused] at hcore hcases
  rcases hcases with ⟨n, hn, he⟩ | ⟨n, pieces, s0, rfl, -, hrows, hok, hnodup, hm, he⟩ <;> rw [he]
  · obtain ⟨diffs, hq, hlands⟩ := lands_storeWhole (hcore.draw hn) hc.storable hc.components_ne hst
      hc.physical hpop ht hts
    exact ⟨diffs, congrArg (Except.map _) hq, hlands.of_physical_eq rfl⟩
  · refine ⟨_, rfl, .pieces hrows (fun p hp => ?_) (fun p hp => ⟨_, List.mem_map_of_mem hp, rfl⟩)
      hnodup (fun p hp => (hm p hp).physical) fun key d => ?_⟩
    · exact ⟨(hok p hp).shape.1, (hok p hp).temporal, (hok p hp).components_ne⟩
    · exact storePieces_physical c pieces hnodup _ key d

-- ---------------------------------------------------------------------------
-- Ids that stay unused
-- ---------------------------------------------------------------------------

theorem Unused.of_sameLineage {s s' : ChunkStore} (h : s.Unused cid) (hl : SameLineage s s')
    (hp : PhysicalSub s s') : s'.Unused cid where
  physical := hp.none h.physical
  lineage := by rw [hl.lineage, h.lineage]
  leaky := by rw [hl.leakyCompactions, h.leaky]
  dangling := by rw [hl.danglingSplits, h.dangling]

theorem Unused.insertPhysical {s : ChunkStore} {c : Chunk} (h : s.Unused cid) (hne : c.id ≠ cid) :
    (s.insertPhysical c).Unused cid where
  physical := (insertPhysical_physical s c cid).trans ((if_neg hne).trans h.physical)
  lineage := h.lineage
  leaky := h.leaky
  dangling := h.dangling

theorem Unused.of_stored {s s' : ChunkStore} {c : Chunk} (h : s.Unused cid) (hne : c.id ≠ cid)
    (hf : ¬ env.Future s.issued cid) (hs : Stored env s c s' diffs) : s'.Unused cid := by
  cases hs with
  | @static lineage _ _ =>
    obtain ⟨hl, hp⟩ := storeStatic_frame env s c lineage
    exact (h.of_sameLineage hl.toSameLineage hp).insertPhysical hne
  | asIs before _ _ =>
    have hindexed : (s.insertIntoIndices env c).Unused cid :=
      h.of_sameLineage ⟨rfl, rfl, rfl, rfl, rfl, rfl, rfl⟩ (.of_eq rfl)
    exact hindexed.insertPhysical hne
  | @compacted n elected compacted hcomp =>
    have hne' : compacted.id ≠ cid := by
      rintro rfl
      exact hf (DrawnIn.future hcomp.drawn)
    have hel : elected.id ≠ cid := by
      rintro rfl
      cases h.physical.symm.trans hcomp.physical
    refine Unused.insertPhysical ⟨?_, ?_, ?_, ?_⟩ hne'
    · refine (replaceElected_physical env { s with issued := n } elected compacted cid).trans ?_
      rw [if_neg (Ne.symm hel)]
      exact h.physical
    · rw [compactInto_lineage, if_neg hne']
      exact h.lineage
    · rw [compactInto_leaky, if_neg fun hm => (mem_sourcesOf hm).elim hne.symm hel.symm]
      exact h.leaky
    · refine (congrArg (·[cid]?) (replaceElected_sameLineage env { s with issued := n } elected
        compacted).danglingSplits).trans ?_
      exact h.dangling

theorem Unused.storePieces {s : ChunkStore} (h : s.Unused cid) (c : Chunk) (pieces : List Chunk)
    {rest : List Chunk} (hne : ∀ p ∈ rest, p.id ≠ cid) :
    (rest.foldl (ChunkStore.storePiece env c pieces) s).Unused cid := by
  induction rest generalizing s with
  | nil => exact h
  | cons p rest ih =>
    exact ih (h.storePiece (hne p List.mem_cons_self)) fun q hq => hne q (List.mem_cons_of_mem _ hq)

theorem Unused.insertChunk {s : ChunkStore} {c : Chunk} (hcore : Core env pol s)
    (hw : c.WellFormed) (hf : ¬ env.Future s.issued c.id) (h : s.Unused cid) (hne : c.id ≠ cid)
    (hcid : ¬ env.Future s.issued cid) : (s.insertChunk env c).1.Unused cid := by
  rcases insertChunk_cases hcore hw hf with ⟨result, he, -⟩ | ⟨s', diffs, he, -, hr, hins⟩
  · rw [he]
    exact h
  rw [he]
  have hprep := prepare_prepared env s c .volatile
  have hprepared (s1 : ChunkStore) (hs1 : Prepared env s s1 c .volatile) : s1.Unused cid := by
    refine ⟨hs1.physicalSub.none h.physical, ?_, hs1.leaky ▸ h.leaky, ?_⟩
    · rw [hs1.lineage_eq, OrdMap.getElem?_insertIfNew, if_neg fun hc => hne hc.1, h.lineage]
    · rw [hs1.dangling, if_neg (Ne.symm hne), h.dangling]
  cases hins with
  | @whole s0 s1 s' n prepared diffs hq hn h0 hst =>
    rw [hq] at hprep
    have hu := hprepared s1 hprep
    subst h0
    have hu0 : Unused { s1 with issued := n, insertId := s1.insertId + 1 } cid :=
      ⟨hu.physical, hu.lineage, hu.leaky, hu.dangling⟩
    refine hu0.of_stored hne (fun hfut => hcid (hfut.mono ?_)) hst
    exact hprep.issued.ge.trans hn
  | @split s0 s1 n prepared pieces hq hs hl hok hnodup h0 =>
    rw [hq] at hprep
    have hu := hprepared s1 hprep
    subst h0
    have hu0 : Unused { s1 with
        issued := n,
        danglingSplits := s1.danglingSplits.insert c.id (pieces.map (·.id)) } cid := by
      refine ⟨hu.physical, hu.lineage, hu.leaky, ?_⟩
      rw [OrdMap.getElem?_insert, if_neg hne]
      exact hu.dangling
    refine hu0.storePieces c pieces fun p hp he => ?_
    exact hcid (he ▸ hprep.issued ▸ DrawnIn.future (hs.drawn hl p hp))

-- ---------------------------------------------------------------------------
-- The plan of a drop
-- ---------------------------------------------------------------------------

end ChunkStore

def RowData.within (timeline : TimelineName) (range : AbsoluteTimeRange) (row : RowData) : Bool :=
  (row.times timeline).any fun time => range.contains time.2

namespace ChunkStore

variable {c : Chunk} {timeline : TimelineName} {dropRange : AbsoluteTimeRange}

theorem within_of_mem_rows (h : c.Aligned) (ht : c.timeline? timeline = some tc) {row : RowData}
    (hrow : row ∈ c.rows) :
    row.timeOn timeline ∈ tc.times ∧
      row.within timeline dropRange = dropRange.contains (row.timeOn timeline) := by
  obtain ⟨htimes, hrows⟩ := Chunk.times_eq_map_rows h ht
  refine ⟨htimes ▸ List.mem_map_of_mem hrow, ?_⟩
  rw [RowData.within, hrows row hrow]
  rfl

theorem rows_outside {d : Chunk} (h : d.Aligned) (ht : d.timeline? timeline = some td)
    (hts : td.times.Pairwise (· ≤ ·)) (hle : dropRange.min ≤ dropRange.max) :
    d.rows.take (partitionPoint (· < dropRange.min) td.times) ++
        d.rows.drop (partitionPoint (· ≤ dropRange.max) td.times) =
      d.rows.filter fun row => !row.within timeline dropRange := by
  rw [Chunk.partitionPoint_times h ht, Chunk.partitionPoint_times h ht,
    take_append_drop_eq_filter (Chunk.pairwise_timeOn h ht hts) hle]
  refine List.filter_congr fun row hrow => ?_
  rw [(within_of_mem_rows h ht hrow).2]
  rfl

theorem length_times_le {d : Chunk} (h : d.Aligned) (ht : d.timeline? timeline = some td)
    (p : TimeInt → Bool) : partitionPoint p td.times ≤ d.numRows := by
  rw [← h.length_times ht]
  exact (List.takeWhile_sublist p).length_le

theorem rowSliced_rows {d : Chunk} (h : d.Aligned) (id : ChunkId) {index len : Nat}
    (hi : index < d.numRows) (hl : 0 < len) :
    (d.rowSliced id index len).rows = (d.rows.drop index).take len ∧
      (d.rowSliced id index len).rowIds ≠ [] ∧
      (d.components ≠ [] → (d.rowSliced id index len).components ≠ []) := by
  refine ⟨Chunk.rows_rowSliced_eq h id index len, (Chunk.rowSliced_isSlice h hi hl id).rowIds_ne,
    fun hd hnil => hd ?_⟩
  have := Chunk.rowSliced_componentTypes d id index len
  rw [Chunk.componentTypes, hnil, List.map_nil, eq_comm] at this
  exact List.map_eq_nil_iff.mp this

/-- A chunk that goes leaves its rows outside of the range, and one that stays has no other. -/
structure PlanKeeps (timeline : TimelineName) (dropRange : AbsoluteTimeRange) (c : Chunk)
    (drop : Bool) (news : List Chunk) : Prop where
  rows : ((if drop then news else [c]).flatMap Chunk.rows).Perm
    (c.rows.filter fun row => !row.within timeline dropRange)
  within : drop = true → c.rowIds ≠ [] → ∃ row ∈ c.rows, row.within timeline dropRange
  rowIds_ne : ∀ d ∈ news, d.rowIds ≠ []
  components_ne : c.components ≠ [] → ∀ d ∈ news, d.components ≠ []

theorem PlanKeeps.of_none (h : ∀ row ∈ c.rows, row.within timeline dropRange = false) :
    PlanKeeps timeline dropRange c false [] where
  rows := by
    rw [if_neg Bool.false_ne_true, List.flatMap_singleton, List.filter_eq_self.mpr]
    intro row hrow
    rw [h row hrow]
    rfl
  within := nofun
  rowIds_ne := List.forall_mem_nil _
  components_ne _ := List.forall_mem_nil _

theorem PlanKeeps.of_all (h : ∀ row ∈ c.rows, row.within timeline dropRange = true) :
    PlanKeeps timeline dropRange c true [] where
  rows := by
    rw [if_pos rfl, List.flatMap_nil, List.filter_eq_nil_iff.mpr]
    intro row hrow
    rw [h row hrow]
    decide
  within _ hne := by
    have hpos : 0 < c.rows.length := by
      rw [Chunk.length_rows]
      exact List.length_pos_of_ne_nil hne
    exact ⟨_, List.getElem_mem hpos, h _ (List.getElem_mem hpos)⟩
  rowIds_ne := List.forall_mem_nil _
  components_ne _ := List.forall_mem_nil _

/-- Slices of a chunk that hold these of its rows, none of them empty. -/
structure HoldRows (d : Chunk) (news : List Chunk) (rows : List RowData) : Prop where
  rows : news.flatMap Chunk.rows = rows
  rowIds_ne : ∀ p ∈ news, p.rowIds ≠ []
  components_ne : d.components ≠ [] → ∀ p ∈ news, p.components ≠ []

theorem HoldRows.nil {d : Chunk} {rows : List RowData} (h : rows = []) : HoldRows d [] rows where
  rows := h.symm
  rowIds_ne := List.forall_mem_nil _
  components_ne _ := List.forall_mem_nil _

theorem HoldRows.slice {d : Chunk} (h : d.Aligned) (id : ChunkId) {index len : Nat}
    (hi : index < d.numRows) (hl : 0 < len) :
    HoldRows d [d.rowSliced id index len] ((d.rows.drop index).take len) := by
  obtain ⟨hrows, hids, hcomp⟩ := rowSliced_rows h id hi hl
  refine ⟨?_, List.forall_mem_singleton.mpr hids, fun hc => List.forall_mem_singleton.mpr (hcomp hc)⟩
  rw [List.flatMap_singleton, hrows]

theorem HoldRows.take {d : Chunk} (h : d.Aligned) (id : ChunkId) {index : Nat} (h0 : 0 < index)
    (hle : index ≤ d.numRows) : HoldRows d [d.rowSliced id 0 index] (d.rows.take index) := by
  have := HoldRows.slice h id (h0.trans_le hle) h0
  rwa [List.drop_zero] at this

theorem HoldRows.drop {d : Chunk} (h : d.Aligned) (id : ChunkId) {index : Nat}
    (hi : index < d.numRows) :
    HoldRows d [d.rowSliced id index (d.numRows - index)] (d.rows.drop index) := by
  have := HoldRows.slice h id hi (Nat.sub_pos_of_lt hi)
  rwa [List.take_of_length_le] at this
  rw [List.length_drop, Chunk.length_rows]

theorem HoldRows.append {d : Chunk} {before after : List Chunk} {rows rows' : List RowData}
    (h : HoldRows d before rows) (h' : HoldRows d after rows') :
    HoldRows d (before ++ after) (rows ++ rows') where
  rows := by rw [List.flatMap_append, h.rows, h'.rows]
  rowIds_ne := List.forall_mem_append.mpr ⟨h.rowIds_ne, h'.rowIds_ne⟩
  components_ne hc := List.forall_mem_append.mpr ⟨h.components_ne hc, h'.components_ne hc⟩

/-- A sorted copy of the chunk gives its rows outside of the range to the new chunks. -/
theorem PlanKeeps.of_holdRows {d : Chunk} {news : List Chunk} (hsame : c.SameRows d)
    (h : HoldRows d news (d.rows.filter fun row => !row.within timeline dropRange))
    (hw : ∃ row ∈ c.rows, row.within timeline dropRange) :
    PlanKeeps timeline dropRange c true news where
  rows := by
    rw [if_pos rfl, h.rows]
    exact hsame.rows.filter _
  within _ _ := hw
  rowIds_ne := h.rowIds_ne
  components_ne hc := h.components_ne fun hnil => by
    have hnames := hsame.components
    rw [hnil, List.map_nil, eq_comm, List.map_eq_nil_iff] at hnames
    exact hc hnames

theorem planDrop_keeps (env : Env) (h : c.WellFormed) (hle : dropRange.min ≤ dropRange.max)
    (n : Nat) (timeline : TimelineName) :
    PlanKeeps timeline dropRange c (planDrop env.newId n timeline dropRange c).1
      (planDrop env.newId n timeline dropRange c).2.1 := by
  unfold planDrop
  split
  case h_1 hnone =>
    refine .of_none fun row hrow => ?_
    obtain ⟨i, -, rfl⟩ := List.mem_map.mp hrow
    simp [RowData.within, Chunk.rowAt, hnone]
  case h_2 tc ht =>
  have hmem (row) (hrow : row ∈ c.rows) : row.timeOn timeline ∈ tc.times ∧
      row.within timeline dropRange = dropRange.contains (row.timeOn timeline) :=
    within_of_mem_rows h.aligned ht hrow
  have hbounds (row) (hrow : row ∈ c.rows) : tc.timeRange.contains (row.timeOn timeline) :=
    (h.timeline_of_lookup ht).1.bounds _ (hmem row hrow).1
  have hwithin (row) (hrow : row ∈ c.rows) := (hmem row hrow).2
  split
  case isTrue hcontains =>
    obtain ⟨hlo, hhi⟩ := of_decide_eq_true hcontains
    have hall (row) (hrow : row ∈ c.rows) : row.within timeline dropRange = true := by
      have hb := AbsoluteTimeRange.contains_iff.mp (hbounds row hrow)
      rw [hwithin row hrow]
      exact AbsoluteTimeRange.contains_iff.mpr ⟨hlo.trans hb.1, hb.2.trans hhi⟩
    exact .of_all hall
  case isFalse =>
  split
  case isFalse hnot =>
    refine .of_none fun row hrow => ?_
    rw [hwithin row hrow]
    refine Bool.eq_false_iff.mpr fun hin => hnot ?_
    exact AbsoluteTimeRange.intersects_of_contains hin (hbounds row hrow)
  case isTrue =>
  have hsame := Chunk.sortedByTimeline_sameRows h env.newId n timeline
  have hw := Chunk.sortedByTimeline_wellFormed h env.newId n timeline
  have htd := Chunk.isSome_timeline?_sortedByTimeline c env.newId n timeline timeline
  have hts (tc) := @Chunk.WellFormed.isSorted_sortedByTimeline env.newId tc c h n timeline
  generalize hq : c.sortedByTimelineIfUnsorted env.newId n timeline = q at hsame hw htd hts
  obtain ⟨d, m⟩ := q
  dsimp only at hsame hw htd hts ⊢
  rw [ht] at htd
  obtain ⟨td, htd⟩ := Option.isSome_iff_exists.mp htd
  have htimes := isSortedList_iff.mp ((hw.timeline_of_lookup htd).1.sorted ▸ hts td htd)
  have hout := rows_outside hw.aligned htd htimes hle
  have hlo := length_times_le hw.aligned htd (· < dropRange.min)
  have hhi := length_times_le hw.aligned htd (· ≤ dropRange.max)
  have helim : (d.timeline? timeline).elim [] (·.times) = td.times := by
    rw [htd]
    rfl
  rw [helim]
  generalize partitionPoint (· < dropRange.min) td.times = minIdx at hout hlo ⊢
  generalize partitionPoint (· ≤ dropRange.max) td.times = maxIdx at hout hhi ⊢
  have hlen := congrArg List.length hout
  rw [List.length_append, List.length_take, List.length_drop, Chunk.length_rows] at hlen
  split
  case isFalse hnot =>
    refine .of_none fun row hrow => ?_
    have hall : (d.rows.filter fun row => !row.within timeline dropRange).length = d.rows.length := by
      have := List.length_filter_le (fun row : RowData => !row.within timeline dropRange) d.rows
      rw [Chunk.length_rows] at this ⊢
      omega
    simpa using List.length_filter_eq_length_iff.mp hall row (hsame.rows.mem_iff.mpr hrow)
  case isTrue hlt =>
    have htouched : ∃ row ∈ c.rows, row.within timeline dropRange := by
      by_contra hnone
      have hall : d.rows.filter (fun row => !row.within timeline dropRange) = d.rows := by
        refine List.filter_eq_self.mpr fun row hrow => ?_
        rw [Bool.not_eq_true', Bool.eq_false_iff]
        exact fun hin => hnone ⟨row, hsame.rows.mem_iff.mp hrow, hin⟩
      rw [hall, Chunk.length_rows] at hlen
      omega
    -- Each of the two parts is there or holds no row.
    have hkeeps {before after : List Chunk} (hb : HoldRows d before (d.rows.take minIdx))
        (ha : HoldRows d after (d.rows.drop maxIdx)) :
        PlanKeeps timeline dropRange c true (before ++ after) :=
      .of_holdRows hsame (hout ▸ hb.append ha) htouched
    have hnoBefore (hmin : ¬ 0 < minIdx) : d.rows.take minIdx = [] := by
      rw [Nat.eq_zero_of_not_pos hmin, List.take_zero]
    have hnoAfter (hmax : ¬ maxIdx < d.numRows) : d.rows.drop maxIdx = [] :=
      List.drop_of_length_le (by rw [Chunk.length_rows]; exact not_lt.mp hmax)
    by_cases hmin : 0 < minIdx <;> by_cases hmax : maxIdx < d.numRows <;>
      simp only [hmin, hmax, if_true, if_false]
    · exact hkeeps (.take hw.aligned _ hmin hlo) (.drop hw.aligned _ hmax)
    · exact hkeeps (.take hw.aligned _ hmin hlo) (.nil (hnoAfter hmax))
    · exact hkeeps (.nil (hnoBefore hmin)) (.drop hw.aligned _ hmax)
    · exact hkeeps (.nil (hnoBefore hmin)) (.nil (hnoAfter hmax))

-- ---------------------------------------------------------------------------
-- Reinsertion
-- ---------------------------------------------------------------------------

/-- What a drop leaves of a chunk, to be inserted again. -/
structure Leftover (env : Env) (pol : Policy) (s : ChunkStore) (c : Chunk) : Prop
    extends Fresh env pol s c, s.Unused c.id where
  rowIds_ne : c.rowIds ≠ []
  components_ne : c.components ≠ []

theorem Leftover.reinserted {s : ChunkStore} {c c' : Chunk} (h : Core env pol s)
    (hc : Leftover env pol s c) (hq : c.sortIfUnsorted env.newId s.issued = (c', n)) :
    Fresh env pol { s with issued := n } c' ∧ Accepted { s with issued := n } c' ∧
      c'.logged = c.logged ∧ Core env pol { s with issued := n } ∧
      Core env pol ({ s with issued := n }.insertChunk env c').1 ∧
      ∀ d, c.id ≠ d.id → Leftover env pol s d →
        Leftover env pol ({ s with issued := n }.insertChunk env c').1 d := by
  obtain ⟨-, hsorted, -, hid⟩ := Chunk.sortIfUnsorted_spec hc.wellFormed env.newId s.issued
  have hsame := Chunk.sortIfUnsorted_sameRows hc.wellFormed.aligned env.newId s.issued
  rw [hq] at hsorted hid hsame
  dsimp only at hsorted hid hsame
  obtain ⟨hle, hfresh, ht, hrest⟩ := fresh_reinserted h hc.toFresh hq
  have hdrawn := h.draw hle
  have hne : c'.rowIds ≠ [] := by
    have hlen := hsame.rows.length_eq
    rw [Chunk.length_rows, Chunk.length_rows, Chunk.numRows, Chunk.numRows] at hlen
    intro hnil
    rw [hnil, eq_comm] at hlen
    exact hc.rowIds_ne (List.length_eq_zero_iff.mp hlen)
  have hcomp : c'.components ≠ [] := by
    intro hnil
    have hnames := hsame.components
    rw [hnil, List.map_nil, eq_comm, List.map_eq_nil_iff] at hnames
    exact hc.components_ne hnames
  have hunused : Unused { s with issued := n } c'.id := by
    have hu : s.Unused c'.id := by
      rcases hid with hid | hid
      · exact hid ▸ hc.toUnused
      · exact Unused.of_not_mentions fun hm => h.mentions hm (DrawnIn.future hid)
    exact ⟨hu.physical, hu.lineage, hu.leaky, hu.dangling⟩
  have hlogged : c'.logged = c.logged := by
    rw [Chunk.logged_of_temporal hfresh.temporal, Chunk.logged_of_temporal hc.temporal,
      hsame.entityPath, Multiset.coe_eq_coe]
    exact hsame.rows.map _
  refine ⟨hfresh, ⟨hunused, ⟨hfresh.wellFormed, hsorted, hne⟩, hcomp⟩, hlogged, hdrawn,
    ht.invariant (fun _ _ _ hs ht => ht.core hs) hdrawn, fun d hne' hd => ?_⟩
  have hid' : c'.id ≠ d.id := by
    rcases hid with hid | hid
    · rwa [hid]
    · exact fun he => hd.issued (he ▸ DrawnIn.future hid)
  refine ⟨hrest d hne' hd.toFresh, ?_, hd.rowIds_ne, hd.components_ne⟩
  have hud : Unused { s with issued := n } d.id := ⟨hd.physical, hd.lineage, hd.leaky, hd.dangling⟩
  exact hud.insertChunk hdrawn hfresh.wellFormed hfresh.issued hid'
    fun hf => hd.issued (hf.mono hle)

theorem rowLog_reinsertChunks (htypes : ∀ c, pol.chunk c → HasTypes types c) {chunks : List Chunk}
    (hn : (chunks.map (·.id)).Nodup) {s : ChunkStore} (h : Core env pol s) (hpop : s.Populated)
    (hc : ∀ c ∈ chunks, Leftover env pol s c) :
    (s.reinsertChunks env chunks).1.rowLog = (chunks.map Chunk.logged).sum + s.rowLog ∧
      (s.reinsertChunks env chunks).1.Populated := by
  induction chunks generalizing s with
  | nil => exact ⟨(zero_add _).symm, hpop⟩
  | cons c rest ih =>
    rw [List.map_cons, List.nodup_cons] at hn
    generalize hq : c.sortIfUnsorted env.newId s.issued = q
    obtain ⟨c', n⟩ := q
    obtain ⟨hfresh, hacc, hlogged, hdrawn, hcore, hrest⟩ := (hc c List.mem_cons_self).reinserted h hq
    obtain ⟨diffs, -, hlands⟩ := lands_insertChunk hdrawn hacc hfresh.temporal hfresh.issued hpop
      (htypes _ hfresh.allowed) fun d hd => htypes _ (hdrawn.allowed hd)
    obtain ⟨hlog, hpop'⟩ := ih hn.2 hcore (hlands.populated hpop) fun d hd =>
      hrest d (fun he => hn.1 (he ▸ List.mem_map_of_mem hd)) (hc d (List.mem_cons_of_mem _ hd))
    rw [reinsertChunks]
    simp only [hq]
    refine ⟨?_, hpop'⟩
    rw [hlog, hlands.rowLog hfresh.temporal, hlogged, List.map_cons, List.sum_cons, add_left_comm,
      add_assoc]
    rfl

-- ---------------------------------------------------------------------------
-- A drop, row by row
-- ---------------------------------------------------------------------------

def outside (timeline : TimelineName) (dropRange : AbsoluteTimeRange) (log : RowLog) : RowLog :=
  log.filter fun entry => ¬ entry.2.within timeline dropRange

theorem outside_coe (timeline : TimelineName) (dropRange : AbsoluteTimeRange) (e : EntityPath)
    (rows : List RowData) : outside timeline dropRange ↑(rows.map (Prod.mk e)) =
      ↑((rows.filter fun row => !row.within timeline dropRange).map (Prod.mk e)) := by
  rw [outside, Multiset.filter_coe, List.filter_map]
  refine congrArg _ (congrArg _ (List.filter_congr fun row _ => ?_))
  simp

theorem outside_add (timeline : TimelineName) (dropRange : AbsoluteTimeRange) (log log' : RowLog) :
    outside timeline dropRange (log + log') =
      outside timeline dropRange log + outside timeline dropRange log' :=
  Multiset.filter_add _ _ _

/-- The rests of a chunk that goes are its rows outside of the range, and a chunk that stays has no
other rows. -/
theorem logged_planDrop (env : Env) (h : c.WellFormed) (hle : dropRange.min ≤ dropRange.max)
    (n : Nat) (timeline : TimelineName) :
    let plan := planDrop env.newId n timeline dropRange c
    (plan.2.1.map Chunk.logged).sum = outside timeline dropRange (if plan.1 then c.logged else 0) ∧
      outside timeline dropRange (if plan.1 then 0 else c.logged) =
        if plan.1 then 0 else c.logged := by
  have hspec := planDrop_spec env h n timeline dropRange
  have hkeeps := planDrop_keeps env h hle n timeline
  generalize planDrop env.newId n timeline dropRange c = plan at hspec hkeeps
  obtain ⟨drop, news, n'⟩ := plan
  dsimp only at hspec hkeeps ⊢
  cases hd : drop with
  | false =>
    have hnil : news = [] := by
      by_contra hne
      rw [hspec.dropped hne] at hd
      cases hd
    have hrows := hkeeps.rows
    rw [hd, if_neg Bool.false_ne_true, List.flatMap_singleton] at hrows
    rw [hnil, if_neg Bool.false_ne_true, if_neg Bool.false_ne_true]
    refine ⟨rfl, ?_⟩
    rw [Chunk.logged]
    split
    · rfl
    · rw [outside_coe]
      exact Multiset.coe_eq_coe.mpr (hrows.symm.map _)
  | true =>
    have hst := hspec.temporal hd
    have hrows := hkeeps.rows.map (Prod.mk c.entityPath)
    rw [hd, if_pos rfl] at hrows
    rw [if_pos rfl, if_pos rfl, Chunk.logged_of_temporal hst, outside_coe,
      ← Multiset.coe_eq_coe.mpr hrows]
    refine ⟨Chunk.sum_logged fun d hdm => ?_, rfl⟩
    have hrem := hspec.remnant d hdm
    exact ⟨hrem.entityPath, hrem.isStatic_eq.trans hst⟩

theorem logged_planDrops (env : Env) {chunks : List Chunk} (h : ∀ c ∈ chunks, c.WellFormed)
    (hle : dropRange.min ≤ dropRange.max) (n : Nat) (timeline : TimelineName) :
    let (drops, news, _) := planDrops env.newId timeline dropRange n chunks
    (news.map Chunk.logged).sum = outside timeline dropRange (drops.map Chunk.logged).sum ∧
      ∃ kept, (chunks.map Chunk.logged).sum = (drops.map Chunk.logged).sum + kept ∧
        outside timeline dropRange kept = kept := by
  induction chunks generalizing n with
  | nil => exact ⟨rfl, 0, rfl, rfl⟩
  | cons c rest ih =>
    obtain ⟨hnews, hstays⟩ := logged_planDrop env (h c List.mem_cons_self) hle n timeline
    obtain ⟨hrest, kept, hsum, hkept⟩ := ih (fun d hd => h d (List.mem_cons_of_mem _ hd))
      (planDrop env.newId n timeline dropRange c).2.2
    rw [planDrops]
    dsimp only at hnews hstays hrest hsum ⊢
    generalize (planDrop env.newId n timeline dropRange c).1 = drop at hnews hstays ⊢
    rw [List.map_append, List.sum_append, hnews, hrest, List.map_cons, List.sum_cons, hsum]
    cases drop with
    | false =>
      rw [if_neg Bool.false_ne_true] at hstays
      refine ⟨zero_add _, c.logged + kept, add_left_comm _ _ _, ?_⟩
      rw [outside_add, hstays, hkept]
    | true =>
      refine ⟨?_, kept, ?_, hkept⟩
      · rw [if_pos rfl, if_pos rfl, List.map_cons, List.sum_cons, outside_add]
      · rw [if_pos rfl, List.map_cons, List.sum_cons, add_assoc]

theorem drops_planDrops (env : Env) {chunks : List Chunk} (h : ∀ c ∈ chunks, c.Storable)
    (hle : dropRange.min ≤ dropRange.max) (n : Nat) (timeline : TimelineName) :
    (planDrops env.newId timeline dropRange n chunks).1 =
      chunks.filter fun c => c.rows.any (·.within timeline dropRange) := by
  induction chunks generalizing n with
  | nil => rfl
  | cons c rest ih =>
    have hc := h c List.mem_cons_self
    have hkeeps := planDrop_keeps env hc.wellFormed hle n timeline
    have hdrop : (planDrop env.newId n timeline dropRange c).1 =
        c.rows.any (·.within timeline dropRange) := by
      rw [Bool.eq_iff_iff, List.any_eq_true]
      refine ⟨fun hd => hkeeps.within hd hc.rowIds_ne, fun ⟨row, hrow, hin⟩ => ?_⟩
      by_contra hd
      have hrows := hkeeps.rows
      rw [if_neg hd, List.flatMap_singleton] at hrows
      have hout := (List.mem_filter.mp (hrows.mem_iff.mp hrow)).2
      rw [hin] at hout
      cases hout
    rw [planDrops]
    dsimp only
    rw [ih fun d hd => h d (List.mem_cons_of_mem _ hd), hdrop, List.filter_cons]

theorem leftover_planDrops (env : Env) {chunks : List Chunk} (h : ∀ c ∈ chunks, c.WellFormed)
    (hcomp : ∀ c ∈ chunks, c.components ≠ []) (hle : dropRange.min ≤ dropRange.max) (n : Nat)
    (timeline : TimelineName) :
    ∀ d ∈ (planDrops env.newId timeline dropRange n chunks).2.1,
      d.rowIds ≠ [] ∧ d.components ≠ [] := by
  induction chunks generalizing n with
  | nil => exact List.forall_mem_nil _
  | cons c rest ih =>
    rw [planDrops]
    dsimp only
    intro d hd
    rcases List.mem_append.mp hd with hd | hd
    · have hkeeps := planDrop_keeps env (h c List.mem_cons_self) hle n timeline
      exact ⟨hkeeps.rowIds_ne d hd, hkeeps.components_ne (hcomp c List.mem_cons_self) d hd⟩
    · exact ih (fun e he => h e (List.mem_cons_of_mem _ he))
        (fun e he => hcomp e (List.mem_cons_of_mem _ he)) _ d hd

theorem dropChunks_physical (env : Env) (deepRemoval : Bool) (reason : ChunkDeletionReason)
    (s : ChunkStore) (chunks : List Chunk) (key : ChunkId) :
    (s.dropChunks env deepRemoval reason chunks).1.physicalChunksPerChunkId[key]? =
      if key ∈ chunks.map (·.id) then none else s.physicalChunksPerChunkId[key]? := by
  induction chunks generalizing s with
  | nil => rfl
  | cons c rest ih =>
    rw [dropChunks]
    dsimp only
    rw [ih]
    have hone : (if deepRemoval then s.removeChunksDeep env reason unlimited [c]
        else s.removeChunksShallow env reason unlimited [c]).1.physicalChunksPerChunkId[key]? =
          if key = c.id then none else s.physicalChunksPerChunkId[key]? := by
      have hshallow := removeChunksShallow_unlimited env reason s [c] key
      simp only [List.map_cons, List.map_nil, List.mem_singleton] at hshallow
      cases deepRemoval with
      | false => exact hshallow
      | true =>
        exact (congrArg (·[key]?) (sweepIndices_samePhysical _ _ _).physical).trans hshallow
    rw [hone, List.map_cons]
    by_cases hk : key = c.id
    · simp [hk]
    · simp [hk]

theorem rowLog_dropChunks (env : Env) (deepRemoval : Bool) (reason : ChunkDeletionReason)
    {s : ChunkStore} {chunks : List Chunk} (hn : (chunks.map (·.id)).Nodup)
    (hp : ∀ c ∈ chunks, s.Physical c) :
    s.rowLog = (chunks.map Chunk.logged).sum +
      (s.dropChunks env deepRemoval reason chunks).1.rowLog := by
  have hfound : (chunks.map (·.id)).filterMap (s.physicalChunksPerChunkId[·]?) = chunks := by
    rw [List.filterMap_map]
    exact (List.filterMap_congr hp).trans List.filterMap_some
  rw [rowLog, OrdMap.total_removed hn (dropChunks_physical env deepRemoval reason s chunks), hfound]
  rfl

/-- A drop of a time range, up to the point where the rests are inserted. -/
structure Dropping (env : Env) (pol : Policy) (s : ChunkStore) (timeline : TimelineName)
    (dropRange : AbsoluteTimeRange) (deepRemoval : Bool) (reason : ChunkDeletionReason)
    (drops news : List Chunk) (n : Nat) (s' : ChunkStore)
    (deletions : List ChunkStoreDiffDeletion) : Prop where
  planned : planDrops env.newId timeline dropRange s.issued s.physicalChunksPerChunkId.values =
    (drops, news, n)
  dropped : dropChunks env deepRemoval reason { s with issued := n } drops = (s', deletions)
  issued_le : s.issued ≤ n
  physical : ∀ c ∈ drops, s.Physical c
  nodup : (drops.map (·.id)).Nodup
  trace : Trace (Step env pol) s (deletions.map .deletion) s'
  core : Core env pol s'
  sub : PhysicalSub { s with issued := n } s'
  news_nodup : (news.map (·.id)).Nodup
  leftover : ∀ d ∈ news, Leftover env pol s' d

theorem dropping {s : ChunkStore} (h : Core env pol s) (hpop : s.Populated)
    (hle : dropRange.min ≤ dropRange.max) (timeline : TimelineName) (deepRemoval : Bool)
    (reason : ChunkDeletionReason) : ∃ drops news n s' deletions,
      Dropping env pol s timeline dropRange deepRemoval reason drops news n s' deletions := by
  have hvalues : ∀ c ∈ s.physicalChunksPerChunkId.values, s.Physical c :=
    fun c hc => physical_of_mem_values h.keyed hc
  have hwf := fun c hc => (h.storable (hvalues c hc)).wellFormed
  obtain ⟨hissued, hsub, hrem, hnodup, hst⟩ := planDrops_spec env hwf s.issued timeline dropRange
  have hleft := leftover_planDrops env hwf (fun c hc => hpop _ c (hvalues c hc)) hle s.issued timeline
  generalize hplan : planDrops env.newId timeline dropRange s.issued
    s.physicalChunksPerChunkId.values = plan at hissued hsub hrem hnodup hst hleft
  obtain ⟨drops, news, n⟩ := plan
  dsimp only at hissued hsub hrem hnodup hst hleft
  have hdrops : ∀ c ∈ drops, s.Physical c := fun c hc => hvalues c (hsub.subset hc)
  have hids := (hsub.map (·.id)).nodup (nodup_ids_values h.keyed)
  have hcore : Core env pol { s with issued := n } := h.draw hissued
  obtain ⟨ht, hl, hp, hidx⟩ := trace_dropChunks deepRemoval reason hids hst hcore hdrops
  generalize hdropped : dropChunks env deepRemoval reason { s with issued := n } drops = dropped
    at ht hl hp hidx
  obtain ⟨s', deletions⟩ := dropped
  dsimp only at ht hl hp hidx
  refine ⟨drops, news, n, s', deletions, hplan, hdropped, hissued, hdrops, hids,
    (Trace.single (.draw hissued)).trans ht, ht.invariant (fun _ _ _ hs ht => ht.core hs) hcore,
    hp, hnodup, fun d hd => ?_⟩
  obtain ⟨c, hc, hr⟩ := hrem d hd
  obtain ⟨k, -, -, hk⟩ := hr.drawn
  have hu := Unused.of_not_mentions fun hm => h.mentions hm (DrawnIn.future hr.drawn)
  have hu' : Unused { s with issued := n } d.id :=
    ⟨hu.physical, hu.lineage, hu.leaky, hu.dangling⟩
  refine ⟨⟨⟨fun hx => ?_, ⟨k, hk⟩, hr.isStatic_eq.trans (hst c hc)⟩, hr.wellFormed,
    pol.closed hr.entityPath (fun entry he => hr.columnTypes ▸ he) (h.allowed (hdrops c hc)),
    ?_⟩, hu'.of_sameLineage hl hp, (hleft d hd).1, (hleft d hd).2⟩
  · exact h.indexes ((hidx _ hx).of_same (fun slot => by cases slot <;> rfl) rfl rfl)
      (DrawnIn.future hr.drawn)
  · rw [hl.issued]
    exact DrawnIn.not_future hr.drawn

theorem Dropping.eq {s s' : ChunkStore} {drops news : List Chunk} {n : Nat}
    {deletions : List ChunkStoreDiffDeletion}
    (h : Dropping env pol s timeline dropRange deepRemoval reason drops news n s' deletions)
    (hle : dropRange.min ≤ dropRange.max) :
    s.dropTimeRange env timeline dropRange deepRemoval reason =
      ((s'.reinsertChunks env news).1,
        deletions.map .deletion ++ (s'.reinsertChunks env news).2) := by
  unfold dropTimeRange
  rw [if_neg (not_lt.mpr hle), h.planned]
  dsimp only
  rw [h.dropped]

/-- To drop a time range drops the rows in it and no other, however the chunks lie. First the chunks
are deleted that have such rows. -/
theorem rowLog_dropTimeRange (htypes : ∀ c, pol.chunk c → HasTypes types c) {s : ChunkStore}
    (h : Core env pol s) (hpop : s.Populated) (timeline : TimelineName)
    (dropRange : AbsoluteTimeRange) (deepRemoval : Bool) (reason : ChunkDeletionReason) :
    let result := s.dropTimeRange env timeline dropRange deepRemoval reason
    result.1.rowLog = outside timeline dropRange s.rowLog ∧ result.1.Populated ∧
      ∃ s', ∃ deletions : List ChunkStoreDiffDeletion, ∃ diffs,
        Trace (Step env pol) s (deletions.map .deletion) s' ∧
        s'.rowLog ≤ result.1.rowLog ∧ result.2 = deletions.map .deletion ++ diffs := by
  rcases lt_or_ge dropRange.max dropRange.min with hlt | hle
  · unfold dropTimeRange
    rw [if_pos hlt]
    refine ⟨?_, hpop, s, [], [], .refl, le_rfl, rfl⟩
    rw [outside, eq_comm, Multiset.filter_eq_self]
    intro entry _ hin
    obtain ⟨time, -, hcontains⟩ := (Option.any_eq_true _ _).mp hin
    have hcontains := AbsoluteTimeRange.contains_iff.mp hcontains
    exact absurd hlt (not_lt.mpr (hcontains.1.trans hcontains.2))
  obtain ⟨drops, news, n, s', deletions, hdrop⟩ := dropping h hpop hle timeline deepRemoval reason
  obtain ⟨hlog', hpop'⟩ := rowLog_reinsertChunks htypes hdrop.news_nodup hdrop.core
    (hpop.of_sub hdrop.sub) hdrop.leftover
  obtain ⟨hnews, kept, hall, hkept⟩ := hdrop.planned ▸ logged_planDrops env
    (fun c hc => (h.storable (physical_of_mem_values h.keyed hc)).wellFormed) hle s.issued timeline
  have hlog := @rowLog_dropChunks env deepRemoval reason { s with issued := n } drops
    hdrop.nodup hdrop.physical
  rw [hdrop.dropped] at hlog
  have hlog : s.rowLog = (drops.map Chunk.logged).sum + s'.rowLog := hlog
  have hrest : s'.rowLog = kept := add_left_cancel (hlog.symm.trans hall)
  rw [hdrop.eq hle]
  refine ⟨?_, hpop', s', deletions, _, hdrop.trace, ?_, rfl⟩
  · rw [hlog', hnews, hlog, outside_add, hrest, hkept]
  · rw [hlog']
    exact le_add_of_nonneg_left (Multiset.zero_le _)

-- ---------------------------------------------------------------------------
-- The other operations
-- ---------------------------------------------------------------------------

theorem rowLog_storeStatic {kind : ChunkId → Bool} {s : ChunkStore} (hk : Kinded kind s)
    (env : Env) {c : Chunk} (hn : s.physicalChunksPerChunkId[c.id]? = none)
    (lineage : ChunkDirectLineageReport) : (s.storeStatic env c lineage).1.rowLog = s.rowLog := by
  have hwalk := @Walk.overwriteComponents (·.isStatic = true) s (s, ∅)
    ⟨rfl, fun hcid hd => (hk.physical hd).trans (hk.static hcid), fun hm => by simp at hm⟩ c hn
    c.components
  obtain ⟨ids, he⟩ := overwriteComponents_eq c c.components (s, ∅)
  unfold storeStatic
  dsimp only
  generalize c.components.foldl (overwriteComponent c) (s, ∅) = acc at hwalk he ⊢
  refine @removeAllDangling_keeps env (fun s' => s'.rowLog = s.rowLog) (fun d _ => d.isStatic = true)
    (fun s' e cid rowId hlog hstatic => ?_) _ ?_ c.entityPath _
    fun entry hm d hd => (hwalk.dangling entry hm d hd).2
  · unfold removeIfDangling
    split
    · exact hlog
    split
    · exact hlog
    dsimp only
    split
    · exact hlog
    · rename_i d hd
      have herase := OrdMap.total_erase hd Chunk.logged
      rw [Chunk.logged, hstatic d hd, if_pos rfl, zero_add] at herase
      exact herase.symm.trans hlog
  · rw [he]
    rfl

theorem rowLog_storeWhole_static {kind : ChunkId → Bool} {s : ChunkStore} {c : Chunk}
    (hk : Kinded kind s) (hn : s.physicalChunksPerChunkId[c.id]? = none) (hst : c.isStatic = true)
    (hcomp : c.components ≠ []) (hpop : s.Populated) (lineage : ChunkDirectLineageReport) :
    (s.storeWhole env c lineage).1.rowLog = s.rowLog ∧
      (s.storeWhole env c lineage).1.Populated := by
  have hlog := @rowLog_storeStatic kind { s with insertId := s.insertId + 1 }
    (hk.of_same (.of_eq rfl) (fun slot => by cases slot <;> rfl) rfl) env c hn lineage
  obtain ⟨-, hp⟩ := storeStatic_frame env { s with insertId := s.insertId + 1 } c lineage
  unfold storeWhole
  dsimp only
  rw [if_pos hst]
  dsimp only
  generalize storeStatic env { s with insertId := s.insertId + 1 } c lineage = result at hlog hp
  constructor
  · refine (OrdMap.total_insert (hp.none hn) c Chunk.logged).trans ?_
    rw [Chunk.logged, hst, if_pos rfl, zero_add]
    exact hlog
  · intro key d hd
    rw [insertPhysical_physical] at hd
    split at hd
    · cases hd
      exact hcomp
    · exact hpop key d (hp.some hd)

theorem rowLog_insertChunk_static {kind : ChunkId → Bool} {s : ChunkStore} {c : Chunk}
    (hk : Kinded kind s) (hc : s.Accepted c) (hst : c.isStatic = true) (hpop : s.Populated) :
    (s.insertChunk env c).1.rowLog = s.rowLog ∧ (s.insertChunk env c).1.Populated := by
  have hprep := prepare_of_unused env hc.toUnused .volatile
  have hwhole := @splitChunks_whole env (s.recordLineage c.id .volatile) c (.inl hst)
  have h0 : s.recordLineage c.id .volatile =
      { s.recordLineage c.id .volatile with issued := s.issued } := rfl
  have hk0 : Kinded kind (s.recordLineage c.id .volatile) :=
    hk.of_same (.of_eq rfl) (fun slot => by cases slot <;> rfl) rfl
  have hlog := @rowLog_storeWhole_static env kind _ c hk0 hc.physical hst hc.components_ne hpop
    .volatile
  rw [insertChunk_of_unused env hc.toUnused,
    insertChunkImpl_whole hc.refusal 1 .volatile hprep hwhole (Nat.lt_irrefl 1) h0]
  exact hlog

theorem rowLog_le_of_physicalSub {s s' : ChunkStore} (h : PhysicalSub s s') :
    s'.rowLog ≤ s.rowLog := by
  let gone := s.physicalChunksPerChunkId.keys.filter fun key =>
    (s'.physicalChunksPerChunkId[key]?).isNone
  have hnodup : gone.Nodup := TreeMap.nodup_keys.filter _
  have hremoved : ∀ key : ChunkId, s'.physicalChunksPerChunkId[key]? =
      if key ∈ gone then none else s.physicalChunksPerChunkId[key]? := by
    intro key
    split
    case isTrue hm => exact Option.isNone_iff_eq_none.mp (List.mem_filter.mp hm).2
    case isFalse hm =>
      rcases h key with he | he
      · exact he
      · rw [he, eq_comm, ← Option.not_isSome_iff_eq_none, ← TreeMap.mem_iff_isSome_getElem?]
        exact fun hkey => hm (List.mem_filter.mpr ⟨TreeMap.mem_keys.mpr hkey, by rw [he]; rfl⟩)
  rw [rowLog, rowLog, OrdMap.total_removed hnodup hremoved]
  exact le_add_of_nonneg_left (Multiset.zero_le _)

end ChunkStore

end DimosViewer
