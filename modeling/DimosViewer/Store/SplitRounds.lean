import DimosViewer.Chunk.SplitRows
import DimosViewer.Reach
import DimosViewer.Store.RunLaws

/-!
# Rounds of splitting

The pieces of a chunk are split again until their number stays the same. The number grows up to that
of the rows, so the rounds end, and then every piece meets the row thresholds.
-/

namespace DimosViewer.ChunkStore

open Chunk (IsPartition MeetsThresholds)
open Settling
open Std (TreeMap)

variable {env : Env} {pol : Policy}

-- ---------------------------------------------------------------------------
-- One round
-- ---------------------------------------------------------------------------

def nextRound (env : Env) (s : ChunkStore) (round : List Chunk × Nat) : List Chunk × Nat :=
  s.splitRound env round.2 round.1

/-- The loop over the pieces, which ends when a round leaves their number as it is. -/
abbrev SplitLoop (env : Env) (s : ChunkStore) : List Chunk × Nat → List Chunk × Nat → Prop :=
  Settles (s.nextRound env) fun round => round.1.length

theorem splitRound_parts (s : ChunkStore) (n : Nat) {chunks : List Chunk}
    (hd : ∀ c ∈ chunks, s.descendsFromACompaction c.id = false) :
    ∃ parts : List (List Chunk), (s.splitRound env n chunks).1 = parts.flatten ∧
      List.Forall₂ (fun c part => ∃ m, part =
        (c.splitChunkIfNeeded env.sizeBytes env.newId m s.config.split).1) chunks parts := by
  induction chunks generalizing n with
  | nil => exact ⟨[], rfl, .nil⟩
  | cons c rest ih =>
    obtain ⟨parts, heq, hparts⟩ := ih
      (c.splitChunkIfNeeded env.sizeBytes env.newId n s.config.split).2
      fun d hm => hd d (List.mem_cons_of_mem _ hm)
    refine ⟨_ :: parts, ?_, .cons ⟨n, rfl⟩ hparts⟩
    rw [splitRound, hd c List.mem_cons_self, List.flatten_cons, ← heq]
    rfl

structure Splittable (s : ChunkStore) (c : Chunk) : Prop where
  aligned : c.Aligned
  rowIds_ne : c.rowIds ≠ []
  not_compacted : s.descendsFromACompaction c.id = false

theorem splitRound_isPartition {s : ChunkStore} {chunks : List Chunk} (n : Nat)
    (h : ∀ c ∈ chunks, s.Splittable c) : IsPartition chunks (s.splitRound env n chunks).1 := by
  obtain ⟨parts, heq, hparts⟩ := s.splitRound_parts n fun c hc => (h c hc).not_compacted
  rw [heq]
  clear heq
  induction hparts with
  | nil => exact .nil
  | @cons c part rest parts hpart _ ih =>
    obtain ⟨m, rfl⟩ := hpart
    have hc := h c List.mem_cons_self
    have hone := Chunk.splitChunkIfNeeded_isPartition hc.aligned hc.rowIds_ne env.sizeBytes
      env.newId m s.config.split
    exact hone.append (ih fun d hd => h d (List.mem_cons_of_mem _ hd))

/-- A round makes one piece at least of each chunk. If it makes no more, the pieces are small. -/
theorem splitRound_length {s : ChunkStore} {chunks : List Chunk} (n : Nat)
    (h : ∀ c ∈ chunks, s.Splittable c) :
    chunks.length ≤ (s.splitRound env n chunks).1.length ∧
      ((s.splitRound env n chunks).1.length = chunks.length →
        ∀ p ∈ (s.splitRound env n chunks).1, p.MeetsThresholds s.config.split) := by
  obtain ⟨parts, heq, hparts⟩ := s.splitRound_parts n fun c hc => (h c hc).not_compacted
  rw [heq]
  clear heq
  induction hparts with
  | nil => exact ⟨le_rfl, fun _ _ hp => absurd hp List.not_mem_nil⟩
  | @cons c part rest parts hpart _ ih =>
    obtain ⟨m, rfl⟩ := hpart
    have hc := h c List.mem_cons_self
    obtain ⟨hle, hmeets⟩ := ih fun d hd => h d (List.mem_cons_of_mem _ hd)
    have hpos := List.length_pos_of_ne_nil (Chunk.splitChunkIfNeeded_ne_nil hc.aligned hc.rowIds_ne
      env.sizeBytes env.newId m s.config.split)
    simp only [List.flatten_cons, List.length_append, List.length_cons]
    refine ⟨by omega, fun hlen p hp => ?_⟩
    rcases List.mem_append.mp hp with hp | hp
    · exact Chunk.meetsThresholds_of_length_eq_one hc.aligned hc.rowIds_ne (by omega) p hp
    · exact hmeets (by omega) p hp

-- ---------------------------------------------------------------------------
-- All rounds
-- ---------------------------------------------------------------------------

theorem splitRounds_eq_settle (s : ChunkStore) (fuel n : Nat) (pieces : List Chunk) :
    s.splitRounds env fuel n pieces =
      settle (s.nextRound env) (fun round => round.1.length) fuel (pieces, n) := by
  induction fuel generalizing n pieces with
  | zero => rfl
  | succ fuel ih =>
    rw [splitRounds, settle]
    by_cases hlen : (s.splitRound env n pieces).1.length = pieces.length
    · exact (if_pos hlen).trans (if_pos hlen).symm
    · exact (if_neg hlen).trans ((ih _ _).trans (if_neg hlen).symm)

def NoLineageFrom (env : Env) (s : ChunkStore) (n : Nat) : Prop :=
  ∀ k, n ≤ k → s.chunksLineage[env.newId k]? = none

theorem splitChunkIfNeeded_fresh {s : ChunkStore} {c : Chunk} (hs : s.NoLineageFrom env n0)
    (hn : n0 ≤ n) (hc : s.descendsFromACompaction c.id = false) (cfg : ChunkSplitConfig) :
    n0 ≤ (c.splitChunkIfNeeded env.sizeBytes env.newId n cfg).2 ∧
      ∀ p ∈ (c.splitChunkIfNeeded env.sizeBytes env.newId n cfg).1,
        s.descendsFromACompaction p.id = false := by
  unfold Chunk.splitChunkIfNeeded
  cases c.splitTargetRows env.sizeBytes cfg with
  | none => exact ⟨hn, fun p hp => List.mem_singleton.mp hp ▸ hc⟩
  | some target =>
    refine ⟨hn.trans (Nat.le_add_right _ _), fun p hp => ?_⟩
    obtain ⟨k, hk, -, hid⟩ := Chunk.drawnIn_slices _ p hp
    exact descendsFromACompaction_eq_false (hid ▸ hs k (hn.trans hk))

theorem splitRound_fresh {s : ChunkStore} {chunks : List Chunk} (hs : s.NoLineageFrom env n0)
    (hn : n0 ≤ n) (h : ∀ c ∈ chunks, s.descendsFromACompaction c.id = false) :
    n0 ≤ (s.splitRound env n chunks).2 ∧
      ∀ p ∈ (s.splitRound env n chunks).1, s.descendsFromACompaction p.id = false := by
  induction chunks generalizing n with
  | nil => exact ⟨hn, fun _ hp => absurd hp List.not_mem_nil⟩
  | cons c rest ih =>
    have hc := h c List.mem_cons_self
    have hone := splitChunkIfNeeded_fresh hs hn hc s.config.split
    obtain ⟨hle, hrest⟩ := ih hone.1 fun d hd => h d (List.mem_cons_of_mem _ hd)
    rw [splitRound, hc]
    exact ⟨hle, fun p hp => (List.mem_append.mp hp).elim (hone.2 p) (hrest p)⟩

structure RoundOf (env : Env) (s : ChunkStore) (n0 : Nat) (c : Chunk) (round : List Chunk × Nat) :
    Prop where
  isPartition : IsPartition [c] round.1
  not_compacted : ∀ p ∈ round.1, s.descendsFromACompaction p.id = false
  issued_le : n0 ≤ round.2

theorem RoundOf.splittable {s : ChunkStore} {c : Chunk} {round : List Chunk × Nat}
    (h : s.RoundOf env n0 c round) :
    ∀ p ∈ round.1, s.Splittable p := by
  intro p hp
  obtain ⟨_, -, hslice⟩ := h.isPartition.isSlice p hp
  exact ⟨hslice.aligned, hslice.rowIds_ne, h.not_compacted p hp⟩

theorem RoundOf.nextRound {s : ChunkStore} {c : Chunk} {round : List Chunk × Nat}
    (hs : s.NoLineageFrom env n0) (h : s.RoundOf env n0 c round) : s.RoundOf env n0 c (s.nextRound env round) := by
  obtain ⟨hle, hnot⟩ := splitRound_fresh hs h.issued_le h.not_compacted
  exact ⟨h.isPartition.trans (splitRound_isPartition round.2 h.splittable), hnot, hle⟩

/-- The rounds take a chunk apart until its pieces are small enough. -/
theorem grows_nextRound {s : ChunkStore} (hs : s.NoLineageFrom env n0) (c : Chunk) :
    Grows (s.nextRound env) (fun round => round.1.length) (s.RoundOf env n0 c) c.numRows where
  keeps _ h := h.nextRound hs
  le round h := (splitRound_length round.2 h.splittable).1
  bounded round h := by
    have hle := h.isPartition.length_le
    rwa [List.flatMap_singleton, Chunk.length_rows] at hle

theorem splitChunks_loop {s : ChunkStore} {c : Chunk} (hs : s.NoLineageFrom env s.issued)
    (hc : s.Splittable c) (hst : c.isStatic = false) (hd : s.descendsFromASplit c.id = false) :
    s.SplitLoop env (c.splitChunkIfNeeded env.sizeBytes env.newId s.issued s.config.split)
        (s.splitChunks env c) ∧
      IsPartition [c] (s.splitChunks env c).1 ∧
      ∀ p ∈ (s.splitChunks env c).1, p.MeetsThresholds s.config.split := by
  have hfirst : s.RoundOf env s.issued c
      (c.splitChunkIfNeeded env.sizeBytes env.newId s.issued s.config.split) := by
    obtain ⟨hle, hnot⟩ := splitChunkIfNeeded_fresh hs le_rfl hc.not_compacted s.config.split
    exact ⟨Chunk.splitChunkIfNeeded_isPartition hc.aligned hc.rowIds_ne _ _ _ _, hnot, hle⟩
  have heq : s.splitChunks env c = settle (s.nextRound env) (fun round => round.1.length) c.numRows
      (c.splitChunkIfNeeded env.sizeBytes env.newId s.issued s.config.split) := by
    rw [splitChunks, hst, hd, hc.not_compacted]
    exact splitRounds_eq_settle s _ _ _
  have hpos := List.length_pos_of_ne_nil (Chunk.splitChunkIfNeeded_ne_nil hc.aligned hc.rowIds_ne
    env.sizeBytes env.newId s.issued s.config.split)
  have hloop := (grows_nextRound hs c).settles_settle hfirst (Nat.lt_add_of_pos_left hpos)
  obtain ⟨w, hw, hlast, hlen⟩ := hloop.exists_last (fun _ h => h.nextRound hs) hfirst
  rw [heq]
  refine ⟨hloop, ?_, ?_⟩
  · rw [hlast]
    exact (hw.nextRound hs).isPartition
  · rw [hlast]
    exact (splitRound_length w.2 hw.splittable).2 hlen

-- ---------------------------------------------------------------------------
-- Splitting on insertion
-- ---------------------------------------------------------------------------

theorem isRootChunk_cases {s : ChunkStore} (h : s.isRootChunk cid = true) :
    s.chunksLineage[cid]? = none ∨ s.chunksLineage[cid]? = some .volatile ∨
      ∃ isStatic, s.chunksLineage[cid]? = some (.rootFromManifest isStatic) := by
  rw [isRootChunk] at h
  cases hl : s.chunksLineage[cid]? with
  | none => exact .inl rfl
  | some l =>
    rw [hl] at h
    cases l with
    | splitFrom => cases h
    | compactedFrom => cases h
    | rootFromManifest isStatic => exact .inr (.inr ⟨isStatic, rfl⟩)
    | volatile => exact .inr (.inl rfl)

theorem root_of_prepared {s s' : ChunkStore} {c : Chunk} (hroot : s.isRootChunk c.id = true)
    (h : Prepared env s s' c .volatile) :
    s'.chunksLineage[c.id]? = some .volatile ∨
      ∃ isStatic, s'.chunksLineage[c.id]? = some (.rootFromManifest isStatic) := by
  have hl := h.lineage_eq ▸ OrdMap.getElem?_insertIfNew s.chunksLineage c.id c.id
    ChunkDirectLineageReport.volatile.toLineage
  rw [hl]
  by_cases hm : c.id ∈ s.chunksLineage
  · rw [if_neg fun hn => hn.2 hm]
    refine (isRootChunk_cases hroot).resolve_left fun hnone => ?_
    rw [TreeMap.mem_iff_isSome_getElem?, hnone] at hm
    cases hm
  · exact .inl (if_pos ⟨rfl, hm⟩)

theorem noLineageFrom_of_prepared {s s' : ChunkStore} {c : Chunk} (h : Core env pol s)
    (hf : ¬ env.Future s.issued c.id) (hp : Prepared env s s' c lineage) :
    s'.NoLineageFrom env s'.issued := by
  intro k hk
  rw [hp.issued] at hk
  have hfuture : env.Future s.issued (env.newId k) := ⟨k, hk, rfl⟩
  have hne : c.id ≠ env.newId k := fun he => hf (he ▸ hfuture)
  rw [hp.lineage_eq, OrdMap.getElem?_insertIfNew, if_neg fun hc => hne hc.1]
  exact Option.eq_none_iff_forall_not_mem.mpr fun _ hl => h.mentions (.lineage hl) hfuture

/-- The loop that an insertion runs for a sorted temporal chunk ends. Its pieces have the rows of the
chunk in order and all of its columns, and each meets the row thresholds. -/
theorem splitOnIngest_partition {config : ChunkStoreConfig} {s : ChunkStore} {c : Chunk}
    (h : Reached env pol config s)
    (hc : c.Aligned) (hr : s.refusal c = none) (hst : c.isStatic = false)
    (hroot : s.isRootChunk c.id = true) (hf : ¬ env.Future s.issued c.id) :
    let s' := (s.prepare env c .volatile).1
    ∃ pieces n,
      s'.SplitLoop env (c.splitChunkIfNeeded env.sizeBytes env.newId s'.issued s'.config.split)
        (pieces, n) ∧
      s'.splitChunks env c = (pieces, n) ∧
      pieces.flatMap Chunk.rows = c.rows ∧
      ∀ p ∈ pieces, Chunk.IsSlice c p ∧ p.MeetsThresholds s.config.split := by
  intro s'
  have hp : Prepared env s s' c .volatile := prepare_prepared env s c .volatile
  have hl := root_of_prepared hroot hp
  have hsplit : s'.descendsFromASplit c.id = false := by
    rcases hl with hl | ⟨_, hl⟩ <;> simp [descendsFromASplit, hl]
  have hcompact : s'.descendsFromACompaction c.id = false := by
    rcases hl with hl | ⟨_, hl⟩ <;> simp [descendsFromACompaction, descendsFromACompactionIn, hl]
  have hn : c.rowIds ≠ [] := (refusal_eq_none.mp hr).1
  obtain ⟨hloop, hpart, hmeets⟩ := splitChunks_loop
    (noLineageFrom_of_prepared h.core hf hp) ⟨hc, hn, hcompact⟩ hst hsplit
  refine ⟨_, _, hloop, rfl, ?_, fun p hm => ⟨?_, ?_⟩⟩
  · exact hpart.rows.trans (List.flatMap_singleton _ _)
  · obtain ⟨d, hd, hslice⟩ := hpart.isSlice p hm
    exact List.mem_singleton.mp hd ▸ hslice
  · exact hp.config ▸ hmeets p hm

def unsortedFive : Chunk :=
  .ofColumns 1 ["e"] [1, 2, 3, 4, 5]
    [(⟨"t", .sequence⟩, [30, 10, 20, 40, 50].map TimeInt.newTemporal)]
    [("c", [some [], some [], none, some [], some []])]

theorem splitOnIngest_unsortedFive :
    let s := (ChunkStore.new ⟨0, 4, 2⟩).prepare .plain unsortedFive .volatile |>.1
    ∃ pieces n,
      s.SplitLoop .plain (unsortedFive.splitChunkIfNeeded Env.plain.sizeBytes Env.plain.newId
        s.issued s.config.split) (pieces, n) ∧
      s.splitChunks .plain unsortedFive = (pieces, n) ∧
      pieces.flatMap Chunk.rows = unsortedFive.rows ∧
      ∀ p ∈ pieces, Chunk.IsSlice unsortedFive p ∧ p.MeetsThresholds ⟨0, 4, 2⟩ :=
  have hinit : Reached .plain .any ⟨0, 4, 2⟩ (ChunkStore.new ⟨0, 4, 2⟩) := .init
  have hw : unsortedFive.WellFormed := by decide +kernel
  splitOnIngest_partition hinit hw.aligned (by decide +kernel) (by decide) (by decide +kernel)
    (Env.plain_not_future (by decide) _)

example : (((ChunkStore.new ⟨0, 4, 2⟩).splitChunks .plain unsortedFive).1.map (·.rowIds)) =
    [[1, 2], [3, 4], [5]] := by decide +kernel

end DimosViewer.ChunkStore
