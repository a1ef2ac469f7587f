import DimosViewer.Store.Traces
import DimosViewer.Store.Run

/-!
# Operations are traces

What an operation has to respect, and that an insertion, a manifest and a garbage
collection are then sequences of steps.
-/

namespace DimosViewer.ChunkStore

open Reach (Trace)

variable {env : Env} {pol : Policy}

-- ---------------------------------------------------------------------------
-- Insertions
-- ---------------------------------------------------------------------------

/-- What an operation has to respect in a state. -/
def Op.Legal (env : Env) (pol : Policy) (s : ChunkStore) : Op → Prop
  | .insertChunk c => c.WellFormed ∧ ¬ env.Future s.issued c.id ∧ pol.chunk c ∧
    pol.insert s.archive c
  | .insertRrdManifest manifest =>
    (∀ entry ∈ manifest.staticMap, ¬ env.Future s.issued entry.2.2 ∧
      pol.announceStatic s.archive entry) ∧
    ∀ entry ∈ manifest.temporalMap, ¬ env.Future s.issued entry.2.2.2.1 ∧
      pol.announceTemporal s.archive entry
  | .gc options clock =>
    pol.sweep (fun k => budgetExhausted (remainingBudget options clock) (clock.deep k))
      (s.gcCandidates env options clock).1
  | .dropTimeRange .. => True
  | .dropEntityPath _ => True

theorem isRootChunk_of_insertChunk (env : Env) (s : ChunkStore) (c : Chunk) :
    s.insertChunk env c = (s, .ok []) ∨
      s.isRootChunk c.id = true ∧ s.insertChunk env c = s.insertChunkImpl env 1 c .volatile := by
  unfold insertChunk
  cases h : s.isRootChunk c.id with
  | false => exact .inl rfl
  | true => exact .inr ⟨rfl, rfl⟩

theorem insertChunk_cases {s : ChunkStore} {c : Chunk} (h : Core env pol s)
    (hw : c.WellFormed) (hf : ¬ env.Future s.issued c.id) :
    (∃ result, s.insertChunk env c = (s, result) ∧ result.toOption.getD [] = []) ∨
      ∃ s' diffs, s.insertChunk env c = (s', .ok diffs) ∧ s.isRootChunk c.id = true ∧
        s.refusal c = none ∧ Inserted env s c .volatile s' diffs := by
  rcases isRootChunk_of_insertChunk env s c with he | ⟨hroot, he⟩
  · exact .inl ⟨_, he, rfl⟩
  · cases hr : s.refusal c with
    | some result =>
      refine .inl ⟨result, ?_, ?_⟩
      · rw [he]
        unfold insertChunkImpl
        rw [hr]
      · unfold refusal at hr
        split at hr
        · cases hr
          rfl
        split at hr
        · cases hr
          rfl
        split at hr
        · cases hr
          rfl
        split at hr
        · cases hr
          rfl
        split at hr
        · cases hr
          rfl
        · cases hr
    | none =>
      have hplain : IsPlain .volatile := by
        rintro _ ⟨⟩
      obtain ⟨s', diffs, hs', hins⟩ := insertChunkImpl_inserted h hw hf hr hplain
      exact .inr ⟨s', diffs, he.trans hs', hroot, rfl, hins⟩

theorem refusal_storable {s : ChunkStore} {c : Chunk} (hw : c.WellFormed)
    (hr : s.refusal c = none) : c.Storable ∧ s.physicalChunksPerChunkId[c.id]? = none := by
  obtain ⟨hne, -, hphys, hsorted, -⟩ := refusal_eq_none.mp hr
  exact ⟨⟨hw, hsorted, hne⟩, hphys⟩

theorem trace_insertChunk {s : ChunkStore} {c : Chunk} (h : Core env pol s)
    (hw : c.WellFormed) (hf : ¬ env.Future s.issued c.id)
    (ha : pol.chunk c) (hi : pol.insert s.archive c ∨ OwnMade env s c) :
    Trace (Step env pol) s ((s.insertChunk env c).2.toOption.getD []) (s.insertChunk env c).1 := by
  rcases insertChunk_cases h hw hf with ⟨result, he, hres⟩ | ⟨s', diffs, he, hroot, hr, hins⟩
  · rw [he]
    dsimp only
    rw [hres]
    exact .refl
  · obtain ⟨hc, hp⟩ := refusal_storable hw hr
    rw [he]
    exact hins.trace h hc hp hf ha hi

-- ---------------------------------------------------------------------------
-- Manifests
-- ---------------------------------------------------------------------------

theorem trace_announceStatics {s : ChunkStore}
    {entries : List (EntityPath × ComponentIdentifier × ChunkId)}
    (he : ∀ entry ∈ entries, ¬ env.Future s.issued entry.2.2 ∧
      pol.announceStatic s.archive entry) :
    let s' := entries.foldl announceStatic s
    Trace (Step env pol) s [] s' ∧ s'.issued = s.issued ∧ s'.archive = s.archive := by
  induction entries generalizing s with
  | nil => exact ⟨.refl, rfl, rfl⟩
  | cons entry rest ih =>
    obtain ⟨hf, hok⟩ := he entry List.mem_cons_self
    obtain ⟨ht, hi, ha⟩ := @ih (s.announceStatic entry)
      fun e hm => he e (List.mem_cons_of_mem _ hm)
    exact ⟨Trace.trans (.single (.announceStatic hf hok)) ht, hi, ha⟩

theorem trace_announceTemporals {s : ChunkStore} {entries : List (EntityPath × Timeline ×
    ComponentIdentifier × ChunkId × RrdManifestTemporalMapEntry)}
    (he : ∀ entry ∈ entries, ¬ env.Future s.issued entry.2.2.2.1 ∧
      pol.announceTemporal s.archive entry) :
    Trace (Step env pol) s [] (entries.foldl announceTemporal s) := by
  induction entries generalizing s with
  | nil => exact .refl
  | cons entry rest ih =>
    obtain ⟨hf, hok⟩ := he entry List.mem_cons_self
    have ht := @ih (s.announceTemporal entry) fun e hm => he e (List.mem_cons_of_mem _ hm)
    exact Trace.trans (.single (.announceTemporal hf hok)) ht

theorem trace_insertRrdManifest {s : ChunkStore} {manifest : RrdManifest}
    (hok : (Op.insertRrdManifest manifest).Legal env pol s) :
    Trace (Step env pol) s (s.insertRrdManifest manifest).2 (s.insertRrdManifest manifest).1 := by
  obtain ⟨ht, hi, ha⟩ := trace_announceStatics hok.1
  have ht' := trace_announceTemporals fun entry hm => by
    rw [hi, ha]
    exact hok.2 entry hm
  exact (ht.trans ht').tail (.announced manifest)

-- ---------------------------------------------------------------------------
-- Garbage collection
-- ---------------------------------------------------------------------------

theorem takeChunks_subset {done : Nat → Nat → Bool} {k bytes : Nat} {chunks : List Chunk} :
    (takeChunks env done k bytes chunks).1 ⊆ chunks := by
  induction chunks generalizing k bytes with
  | nil => exact List.Subset.refl _
  | cons c rest ih =>
    rw [takeChunks]
    dsimp only
    split
    · exact List.cons_subset_cons c (List.nil_subset rest)
    · exact List.cons_subset_cons c ih

theorem physical_of_mem_values {s : ChunkStore} (hk : s.Keyed)
    (h : c ∈ s.physicalChunksPerChunkId.values) : s.Physical c := by
  obtain ⟨key, hc⟩ := OrdMap.mem_values.mp h
  obtain rfl := hk hc
  exact hc

theorem isStatic_eq_false_of_timeline? {c : Chunk} (h : c.timeline? timeline = some tc) :
    c.isStatic = false := by
  cases ht : c.timelines with
  | nil =>
    rw [Chunk.timeline?, ht] at h
    cases h
  | cons entry rest => rw [Chunk.isStatic, ht, List.isEmpty_cons]

theorem mem_gcFindCandidates {s : ChunkStore} (hk : s.Keyed)
    (h : c ∈ gcFindCandidates env s options target budget elapsed) :
    s.Physical c ∧ c.isStatic = false := by
  have hfar : ∀ timeline time, c ∈ s.findTemporalChunksFurthestFrom timeline time →
      s.Physical c ∧ c.isStatic = false := by
    intro timeline time hm
    obtain ⟨⟨d, dist⟩, hd, rfl⟩ := List.mem_map.mp hm
    rw [List.mem_insertionSort] at hd
    obtain ⟨d', hd', he⟩ := List.mem_filterMap.mp hd
    cases ht : d'.timeline? timeline with
    | none => simp [ht] at he
    | some tc =>
      cases hdist : minDistance tc time with
      | none => simp [ht, hdist] at he
      | some dist' =>
        simp only [ht, hdist, Option.bind_eq_bind, Option.bind_some, Option.pure_def,
          Option.some.injEq, Prod.mk.injEq] at he
        obtain ⟨rfl, -⟩ := he
        exact ⟨physical_of_mem_values hk hd', isStatic_eq_false_of_timeline? ht⟩
  have hprio : c ∈ s.chunksInPriorityOrder options → s.Physical c ∧ c.isStatic = false := by
    intro hm
    obtain ⟨hm, hst⟩ := List.mem_filter.mp hm
    obtain ⟨key, -, hc⟩ := List.mem_filterMap.mp hm
    obtain rfl := hk hc
    simp only [Bool.and_eq_true, Bool.not_eq_true'] at hst
    exact ⟨hc, hst.1⟩
  unfold gcFindCandidates at h
  split at h
  · cases h
  · cases hff : options.furthestFrom with
    | none =>
      simp only [hff] at h
      split at h
      · cases h
      · exact hprio (takeChunks_subset (List.nil_append _ ▸ h))
    | some point =>
      simp only [hff] at h
      split at h
      · exact hfar _ _ (List.mem_of_mem_filter (takeChunks_subset h))
      · rcases List.mem_append.mp h with h | h
        · exact hfar _ _ (List.mem_of_mem_filter (takeChunks_subset h))
        · exact hprio (takeChunks_subset h)

theorem gcCandidates_spec (env : Env) {s : ChunkStore} (hk : s.Keyed) (options : GarbageCollectionOptions)
    (clock : GcClock) :
    (∀ c ∈ (s.gcCandidates env options clock).1 ++ (s.gcCandidates env options clock).2,
      s.Physical c ∧ c.isStatic = false) ∧
    ∀ c ∈ (s.gcCandidates env options clock).1, ∀ d ∈ (s.gcCandidates env options clock).2,
      c.id ≠ d.id := by
  unfold gcCandidates gcPartition
  split
  · exact ⟨fun c hc => mem_gcFindCandidates hk (List.append_nil _ ▸ hc), fun _ _ _ h => nomatch h⟩
  · rw [List.partition_eq_filter_filter]
    refine ⟨fun c hc => ?_, fun c hc d hd he => ?_⟩
    · rcases List.mem_append.mp hc with hc | hc <;>
        exact mem_gcFindCandidates hk (List.mem_of_mem_filter hc)
    · have h := (List.mem_filter.mp hc).2
      have h' := (List.mem_filter.mp hd).2
      rw [he] at h
      simp only [Function.comp_apply, h] at h'
      cases h'

theorem stats_removeShallow_le (env : Env) (reason : ChunkDeletionReason) {s s' : ChunkStore}
    (c : Chunk) (h : s'.stats ≤ s.stats) : (s'.removeShallow env reason c).1.stats ≤ s.stats := by
  obtain ⟨⟨h1, h2, h3, h4⟩, h5, h6, h7, h8⟩ := h
  unfold removeShallow
  cases c.rowIdMin <;> dsimp only <;> split
  · exact ⟨⟨h1, h2, h3, h4⟩, h5, h6, h7, h8⟩
  · exact ⟨⟨h1, h2, h3, h4⟩, (Nat.sub_le _ _).trans h5, (Nat.sub_le _ _).trans h6,
      (Nat.sub_le _ _).trans h7, (Nat.sub_le _ _).trans h8⟩
  · exact ⟨⟨h1, h2, h3, h4⟩, h5, h6, h7, h8⟩
  · exact ⟨⟨h1, h2, h3, h4⟩, (Nat.sub_le _ _).trans h5, (Nat.sub_le _ _).trans h6,
      (Nat.sub_le _ _).trans h7, (Nat.sub_le _ _).trans h8⟩

theorem stats_removeChunksShallow_le (env : Env) (reason : ChunkDeletionReason)
    {s s' : ChunkStore} (exhausted : Nat → Bool) (chunks : List Chunk) (h : s'.stats ≤ s.stats) :
    (s'.removeChunksShallow env reason exhausted chunks).1.stats ≤ s.stats :=
  removeChunksShallow_induction (·.stats ≤ s.stats)
    (fun _ c _ h => stats_removeShallow_le env reason c h) exhausted h

theorem stats_gcDropAtLeastNumBytes_le (env : Env) (s : ChunkStore)
    (options : GarbageCollectionOptions) (clock : GcClock) :
    (s.gcDropAtLeastNumBytes env options clock).1.stats ≤ s.stats := by
  have hrefl : s.stats ≤ s.stats :=
    ⟨⟨le_rfl, le_rfl, le_rfl, le_rfl⟩, le_rfl, le_rfl, le_rfl, le_rfl⟩
  have h := stats_removeChunksShallow_le env .garbageCollection
    (fun k => budgetExhausted (remainingBudget options clock) (clock.deep k))
    (s.gcCandidates env options clock).1
    (stats_removeChunksShallow_le env .garbageCollection
      (fun k => budgetExhausted (sweepTimeBudget options clock) (clock.shallow k))
      (s.gcCandidates env options clock).2 hrefl)
  have hs := sweepIndices_samePhysical .garbageCollection
    ((s.removeChunksShallow env .garbageCollection
      (fun k => budgetExhausted (sweepTimeBudget options clock) (clock.shallow k))
      (s.gcCandidates env options clock).2).1.removeChunksShallow env .garbageCollection
        (fun k => budgetExhausted (remainingBudget options clock) (clock.deep k))
        (s.gcCandidates env options clock).1).1 (s.gcCandidates env options clock).1
  rw [stats, ← hs.staticStats, ← hs.temporalStats] at h
  exact h

theorem gc_eq (env : Env) (s : ChunkStore) (options : GarbageCollectionOptions)
    (clock : GcClock) :
    (s.gc env options clock).1 = (s.gcDropAtLeastNumBytes env options clock).1 ∧
      (s.gc env options clock).2.1 = (s.gcDropAtLeastNumBytes env options clock).2 := by
  have h := stats_gcDropAtLeastNumBytes_le env s options clock
  unfold gc
  dsimp only
  simp only [h, decide_true, Bool.not_true, Bool.or_false, and_self]

theorem trace_gc {s : ChunkStore} (h : Core env pol s)
    {options : GarbageCollectionOptions} {clock : GcClock}
    (hok : (Op.gc options clock).Legal env pol s) :
    Trace (Step env pol) s (s.gc env options clock).2.1 (s.gc env options clock).1 := by
  obtain ⟨he, he'⟩ := gc_eq env s options clock
  obtain ⟨hc, hne⟩ := gcCandidates_spec env h.keyed options clock
  rw [he, he']
  generalize hq : s.removeChunksShallow env .garbageCollection
    (fun k => budgetExhausted (sweepTimeBudget options clock) (clock.shallow k))
    (s.gcCandidates env options clock).2 = q
  have h1 : Step env pol s (q.2.map .deletion) q.1 := hq ▸ .removeShallow _ _
    (fun c hm => (hc c (List.mem_append_right _ hm)).1)
    fun c hm => (hc c (List.mem_append_right _ hm)).2
  have hphys : ∀ c ∈ (s.gcCandidates env options clock).1, q.1.Physical c := by
    intro c hm
    have hp := removeChunksShallow_physical env .garbageCollection s
      (fun k => budgetExhausted (sweepTimeBudget options clock) (clock.shallow k))
      (s.gcCandidates env options clock).2 c.id
    rw [hq] at hp
    rcases hp with hp | ⟨-, hd⟩
    · exact hp.trans (hc c (List.mem_append_left _ hm)).1
    · obtain ⟨d, hd, hid⟩ := List.mem_map.mp hd
      exact absurd hid.symm (hne c hm d hd)
  have h2 : Step env pol q.1 _ _ := .sweep .garbageCollection hphys
    (fun c hm => (hc c (List.mem_append_left _ hm)).2) hok
  have hdrop : s.gcDropAtLeastNumBytes env options clock =
      ((q.1.removeChunksDeep env .garbageCollection
        (fun k => budgetExhausted (remainingBudget options clock) (clock.deep k))
        (s.gcCandidates env options clock).1).1,
        (q.2 ++ (q.1.removeChunksDeep env .garbageCollection
          (fun k => budgetExhausted (remainingBudget options clock) (clock.deep k))
          (s.gcCandidates env options clock).1).2).map .deletion) := by
    rw [← hq]
    rfl
  rw [hdrop, List.map_append]
  exact (Trace.single h1).tail h2

end DimosViewer.ChunkStore
