import DimosViewer.Store.Bookkeeping
import Mathlib.Algebra.Order.BigOperators.Group.List
import Mathlib.Algebra.Order.Group.Nat

/-!
# The byte target of a garbage collection

Without a clock and without latest-at protection, the two marking passes share
one byte counter. A chunk that the pass by distance took is taken again by the
pass by row id and counted twice, so the counter may run ahead of the bytes that
leave.
-/

namespace DimosViewer

open Std (TreeMap TreeSet)

-- ---------------------------------------------------------------------------
-- One pass
-- ---------------------------------------------------------------------------

/-- A pass that starts at `bytes` takes the shortest beginning, not empty, with
which the counter reaches the target, or else everything. -/
structure Takes (size : α → Nat) (target bytes : Nat) (l taken : List α) : Prop where
  begins : taken <+: l
  reached : taken = l ∨ target ≤ bytes + (taken.map size).sum
  least : ∀ l', l' ≠ [] → l' <+: l → target ≤ bytes + (l'.map size).sum → taken <+: l'

theorem filter_isPrefix {p : α → Bool} {l : List α}
    (h : l.Pairwise fun a b => p b = true → p a = true) : l.filter p <+: l := by
  induction l with
  | nil => exact List.prefix_refl _
  | cons a l ih =>
    obtain ⟨ha, hl⟩ := List.pairwise_cons.mp h
    cases hp : p a with
    | true =>
      rw [List.filter_cons_of_pos hp]
      exact List.prefix_cons_inj a |>.mpr (ih hl)
    | false =>
      have hnil : (a :: l).filter p = [] := by
        refine List.filter_eq_nil_iff.mpr fun b hb hpb => ?_
        rcases List.mem_cons.mp hb with rfl | hb
        · rw [hp] at hpb
          cases hpb
        · rw [ha b hb hpb] at hp
          cases hp
      rw [hnil]
      exact List.nil_prefix

theorem sum_map_le_of_sublist {size : α → Nat} {l l' : List α} (h : l.Sublist l') :
    (l.map size).sum ≤ (l'.map size).sum :=
  (h.map size).sum_le_sum fun _ _ => Nat.zero_le _

-- ---------------------------------------------------------------------------
-- Chunks
-- ---------------------------------------------------------------------------

def Env.bytes (env : Env) (chunks : List Chunk) : Nat := (chunks.map env.sizeBytes).sum

theorem Env.bytes_append (env : Env) (l l' : List Chunk) :
    env.bytes (l ++ l') = env.bytes l + env.bytes l' := by
  rw [Env.bytes, List.map_append, List.sum_append, Env.bytes, Env.bytes]

theorem Env.bytes_perm (env : Env) {l l' : List Chunk} (h : l.Perm l') :
    env.bytes l = env.bytes l' := (h.map _).sum_eq

theorem Env.bytes_le (env : Env) {l l' : List Chunk} (h : l.Sublist l') :
    env.bytes l ≤ env.bytes l' := sum_map_le_of_sublist h

def GarbageCollectionOptions.onPivot (options : GarbageCollectionOptions) (c : Chunk) : Bool :=
  options.furthestFrom.any fun (timeline, _) => (c.timeline? timeline).isSome

/-- A chunk comes no later than another one in the order by smallest row id. -/
def Chunk.rowIdLe (c d : Chunk) : Bool :=
  match c.rowIdMin, d.rowIdMin with
  | some r, some q => decide (toLex (r, c.id) ≤ toLex (q, d.id))
  | _, _ => false

theorem Chunk.rowIdLe_trans {a b c : Chunk} (h : a.rowIdLe b = true) (h' : b.rowIdLe c = true) :
    a.rowIdLe c = true := by
  unfold Chunk.rowIdLe at *
  cases ha : a.rowIdMin <;> cases hb : b.rowIdMin <;> cases hc : c.rowIdMin <;>
    simp only [ha, hb, hc, Bool.false_eq_true, decide_eq_true_eq] at *
  exact h.trans h'

theorem Chunk.rowIdLe_refl {c : Chunk} (h : c.rowIdMin = some r) : c.rowIdLe c = true := by
  simp [Chunk.rowIdLe, h]

namespace ChunkStore

variable {env : Env} {pol : Policy} {config : ChunkStoreConfig}

theorem takeChunks_spec (env : Env) (target k bytes : Nat) (chunks : List Chunk) :
    Takes env.sizeBytes target bytes chunks
        (takeChunks env (fun _ bytes => target ≤ bytes) k bytes chunks).1 ∧
      (takeChunks env (fun _ bytes => target ≤ bytes) k bytes chunks).2 =
        bytes + env.bytes (takeChunks env (fun _ bytes => target ≤ bytes) k bytes chunks).1 := by
  induction chunks generalizing k bytes with
  | nil => exact ⟨⟨List.prefix_refl _, .inl rfl, fun _ _ _ _ => List.nil_prefix⟩, rfl⟩
  | cons c rest ih =>
    obtain ⟨ht, hsum⟩ := ih (k + 1) (bytes + env.sizeBytes c)
    rw [takeChunks]
    dsimp only
    split
    · rename_i hdone
      have hdone := of_decide_eq_true hdone
      refine ⟨⟨⟨rest, rfl⟩, .inr (by simpa using hdone), fun l' hne hl' _ => ?_⟩,
        by simp [Env.bytes]⟩
      obtain ⟨d, l', rfl⟩ := List.exists_cons_of_ne_nil hne
      obtain ⟨rfl, -⟩ := List.cons_prefix_cons.mp hl'
      exact ⟨l', rfl⟩
    · rename_i hdone
      have hdone : ¬ target ≤ bytes + env.sizeBytes c := fun h => hdone (decide_eq_true h)
      refine ⟨⟨(List.prefix_cons_inj c).mpr ht.begins, ?_, fun l' hne hl' hr => ?_⟩, ?_⟩
      · refine ht.reached.imp (fun h => by rw [h]) fun h => ?_
        rwa [List.map_cons, List.sum_cons, ← Nat.add_assoc]
      · obtain ⟨d, l', rfl⟩ := List.exists_cons_of_ne_nil hne
        obtain ⟨rfl, htail⟩ := List.cons_prefix_cons.mp hl'
        rw [List.map_cons, List.sum_cons, ← Nat.add_assoc] at hr
        refine (List.prefix_cons_inj d).mpr (ht.least l' ?_ htail hr)
        rintro rfl
        exact hdone (by simpa using hr)
      · rw [Env.bytes, List.map_cons, List.sum_cons, ← Nat.add_assoc]
        exact hsum

def unprotected (s : ChunkStore) (options : GarbageCollectionOptions) : List Chunk :=
  s.physicalChunksPerChunkId.values.filter fun c => !c.isStatic && !options.isChunkProtected c

theorem mem_unprotected {s : ChunkStore} (hk : s.Keyed) {options : GarbageCollectionOptions} :
    c ∈ s.unprotected options ↔
      s.Physical c ∧ c.isStatic = false ∧ options.isChunkProtected c = false := by
  rw [unprotected, List.mem_filter, Bool.and_eq_true, Bool.not_eq_true', Bool.not_eq_true']
  exact and_congr_left' ⟨physical_of_mem_values hk, fun h => OrdMap.mem_values.mpr ⟨c.id, h⟩⟩

-- ---------------------------------------------------------------------------
-- The pass by distance
-- ---------------------------------------------------------------------------

def furthestFirst (s : ChunkStore) (options : GarbageCollectionOptions) : List Chunk :=
  match options.furthestFrom with
  | none => []
  | some (timeline, time) =>
    (s.findTemporalChunksFurthestFrom timeline time).filter (fun c => !options.isChunkProtected c)

theorem minDistance_isSome {tc : TimeColumn} (h : tc.times ≠ []) (time : TimeInt) :
    (minDistance tc time).isSome := by
  have hlen := List.length_pos_of_ne_nil h
  unfold minDistance
  dsimp only
  split
  · rw [Option.isSome_iff_ne_none, Ne, List.min?_eq_none_iff, List.filterMap_eq_nil_iff]
    intro hnone
    -- The cursor is either not past the last time, or right behind it.
    by_cases hp : partitionPoint (fun t => decide (t < time)) tc.times < tc.times.length
    · have := hnone _ (List.mem_cons_of_mem _ (List.mem_singleton_self _))
      simp [List.getElem?_eq_getElem hp] at this
    · have hle : partitionPoint (fun t => decide (t < time)) tc.times ≤ tc.times.length :=
        (List.takeWhile_prefix _).length_le
      have hlt : partitionPoint (fun t => decide (t < time)) tc.times - 1 < tc.times.length := by
        omega
      have := hnone _ List.mem_cons_self
      simp [List.getElem?_eq_getElem hlt] at this
  · rw [Option.isSome_iff_ne_none, Ne, List.min?_eq_none_iff, List.map_eq_nil_iff]
    exact h

theorem perm_findTemporalChunksFurthestFrom {s : ChunkStore} (h : Core env pol s)
    (timeline : TimelineName) (time : TimeInt) :
    (s.findTemporalChunksFurthestFrom timeline time).Perm
      (s.physicalChunksPerChunkId.values.filter fun c => (c.timeline? timeline).isSome) := by
  refine ((List.perm_insertionSort _ _).map _).trans (.of_eq ?_)
  rw [List.map_filterMap, ← List.filterMap_eq_filter]
  refine List.filterMap_congr fun c hc => ?_
  cases ht : c.timeline? timeline with
  | none => simp [ht, Option.guard]
  | some tc =>
    have hs := h.storable (physical_of_mem_values h.keyed hc)
    have htimes : tc.times ≠ [] := by
      have hlen := (hs.wellFormed.timeline _
        ((OrdMap.lookup_eq_some_iff_mem hs.wellFormed.timelines_nodup).mp ht)).2
      intro hnil
      rw [hnil] at hlen
      exact hs.rowIds_ne (List.length_eq_zero_iff.mp hlen.symm)
    obtain ⟨dist, hd⟩ := Option.isSome_iff_exists.mp (minDistance_isSome htimes time)
    simp [ht, hd, Option.guard]

theorem perm_furthestFirst {s : ChunkStore} (h : Core env pol s)
    (options : GarbageCollectionOptions) :
    (s.furthestFirst options).Perm ((s.unprotected options).filter options.onPivot) := by
  unfold furthestFirst GarbageCollectionOptions.onPivot
  cases options.furthestFrom with
  | none => simp
  | some point =>
    refine ((perm_findTemporalChunksFurthestFrom h point.1 point.2).filter _).trans (.of_eq ?_)
    rw [unprotected, List.filter_filter, List.filter_filter]
    refine List.filter_congr fun c _ => ?_
    cases ht : c.timeline? point.1 with
    | none => simp [ht]
    | some tc => simp [ht, isStatic_eq_false_of_timeline? ht]

-- ---------------------------------------------------------------------------
-- The pass by row id
-- ---------------------------------------------------------------------------

theorem findAllProtectedPhysicalChunkIds_zero (s : ChunkStore) :
    s.findAllProtectedPhysicalChunkIds 0 = [] := by
  simp [findAllProtectedPhysicalChunkIds, latestPhysicalIds]

theorem mem_chunksInPriorityOrder {s : ChunkStore} (h : Core env pol s) (hr : s.RowsExact)
    {options : GarbageCollectionOptions} :
    c ∈ s.chunksInPriorityOrder options ↔ c ∈ s.unprotected options ∧
      c.id ∉ s.findAllProtectedPhysicalChunkIds options.protectLatest := by
  rw [mem_unprotected h.keyed, chunksInPriorityOrder, List.mem_filter, List.mem_filterMap,
    Bool.and_eq_true, Bool.not_eq_true', Bool.not_eq_true', and_right_comm]
  refine and_congr_left' ⟨fun ⟨key, hm, hc⟩ => ?_, fun ⟨hc, hnot⟩ => ⟨c.id, ?_, hc⟩⟩
  · obtain rfl := h.keyed hc
    have hnot := (List.mem_filter.mp hm).2
    exact ⟨hc, fun hp => by simp [hp] at hnot⟩
  · have hs := h.storable hc
    obtain ⟨r, hmin, -⟩ := Chunk.rowIdMin_eq hs.wellFormed hs.rowIds_ne
    refine List.mem_filter.mpr ⟨List.mem_map.mpr ⟨toLex (r, c.id), ?_, rfl⟩, by simpa using hnot⟩
    exact TreeSet.mem_toList.mpr ((hr r c.id).mpr ⟨c, hc, hmin⟩)

theorem mem_chunksInPriorityOrder_zero {s : ChunkStore} (h : Core env pol s) (hr : s.RowsExact)
    {options : GarbageCollectionOptions} (hl : options.protectLatest = 0) :
    c ∈ s.chunksInPriorityOrder options ↔ c ∈ s.unprotected options := by
  rw [mem_chunksInPriorityOrder h hr, hl, findAllProtectedPhysicalChunkIds_zero]
  exact and_iff_left List.not_mem_nil

theorem pairwise_chunksInPriorityOrder {s : ChunkStore} (hk : s.Keyed) (hr : s.RowsExact)
    (options : GarbageCollectionOptions) :
    (s.chunksInPriorityOrder options).Pairwise fun c d => c.rowIdLe d ∧ d.rowIdLe c = false := by
  unfold chunksInPriorityOrder
  refine List.Pairwise.filter _ (List.pairwise_filterMap.mpr (List.Pairwise.filter _ ?_))
  rw [List.pairwise_map]
  refine s.physicalChunkIdsPerMinRowId.ordered_toList.imp_of_mem ?_
  intro k k' hm hm' hlt c hc d hd
  have key : ∀ {k : RowId ×ₗ ChunkId} {c}, k ∈ s.physicalChunkIdsPerMinRowId.toList →
      s.physicalChunksPerChunkId[(ofLex k).2]? = some c →
      c.rowIdMin = some (ofLex k).1 ∧ c.id = (ofLex k).2 := by
    intro k c hm hc
    obtain ⟨c', hc', hmin⟩ := (hr (ofLex k).1 (ofLex k).2).mp (TreeSet.mem_toList.mp hm)
    rw [hc] at hc'
    obtain rfl := Option.some.inj hc'
    exact ⟨hmin, hk hc⟩
  obtain ⟨hmin, hid⟩ := key hm hc
  obtain ⟨hmin', hid'⟩ := key hm' hd
  have hlt : k < k' := compare_lt_iff_lt.mp hlt
  simp only [Chunk.rowIdLe, hmin, hmin', hid, hid']
  exact ⟨decide_eq_true hlt.le, decide_eq_false (not_le_of_gt hlt)⟩

theorem nodup_chunksInPriorityOrder {s : ChunkStore} (hk : s.Keyed) (hr : s.RowsExact)
    (options : GarbageCollectionOptions) : (s.chunksInPriorityOrder options).Nodup := by
  refine (pairwise_chunksInPriorityOrder hk hr options).imp fun {c d} ⟨hle, hnot⟩ heq => ?_
  subst heq
  rw [hnot] at hle
  cases hle

theorem perm_chunksInPriorityOrder {s : ChunkStore} (h : Core env pol s) (hr : s.RowsExact)
    {options : GarbageCollectionOptions} (hl : options.protectLatest = 0) :
    (s.chunksInPriorityOrder options).Perm (s.unprotected options) :=
  (List.perm_ext_iff_of_nodup (nodup_chunksInPriorityOrder h.keyed hr options)
    ((nodup_values h.keyed).filter _)).mpr fun _ => mem_chunksInPriorityOrder_zero h hr hl

theorem gcFindCandidates_eq (env : Env) (s : ChunkStore) (options : GarbageCollectionOptions)
    (target : Nat) (elapsed : Nat → Nat) :
    s.gcFindCandidates env options target none elapsed =
      if target = 0 then []
      else
        let (taken, bytes) := takeChunks env (fun _ bytes => target ≤ bytes) 0 0
          (s.furthestFirst options)
        if target ≤ bytes then taken
        else taken ++ (takeChunks env (fun _ bytes => target ≤ bytes) 0 bytes
          (s.chunksInPriorityOrder options)).1 := by
  unfold gcFindCandidates furthestFirst
  cases options.furthestFrom with
  | none => simp [takeChunks, budgetExhausted]
  | some point => simp [budgetExhausted]

-- ---------------------------------------------------------------------------
-- What leaves
-- ---------------------------------------------------------------------------

theorem mem_ids_gcPartition (s : ChunkStore) (options : GarbageCollectionOptions)
    (chunks : List Chunk) (cid : ChunkId) :
    cid ∈ chunks.map (·.id) ↔ cid ∈ (s.gcPartition options chunks).1.map (·.id) ∨
      cid ∈ (s.gcPartition options chunks).2.map (·.id) := by
  rw [← List.mem_append, ← List.map_append, gcPartition]
  split
  · rw [List.append_nil]
  · rw [List.partition_eq_filter_filter]
    exact ((List.filter_append_perm _ chunks).map _).mem_iff.symm

theorem physical_gc_or (env : Env) (s : ChunkStore) (options : GarbageCollectionOptions)
    (clock : GcClock) (cid : ChunkId) :
    (s.gc env options clock).1.physicalChunksPerChunkId[cid]? = s.physicalChunksPerChunkId[cid]? ∨
      (s.gc env options clock).1.physicalChunksPerChunkId[cid]? = none ∧
        cid ∈ (s.gcFindCandidates env options
          (options.target.targetBytesFromSize s.stats.total.totalSizeBytes)
          (markTimeBudget options) clock.mark).map (·.id) := by
  rw [(gc_eq env s options clock).1, gcDropAtLeastNumBytes]
  dsimp only
  rw [removeChunksDeep, (sweepIndices_samePhysical _ _ _).physical, mem_ids_gcPartition s options]
  rcases removeChunksShallow_physical env .garbageCollection _ _
    (s.gcCandidates env options clock).1 cid with hdeep | ⟨hnone, hdeep⟩
  · rw [hdeep]
    refine (removeChunksShallow_physical env .garbageCollection s _
      (s.gcCandidates env options clock).2 cid).imp id fun h => ⟨h.1, .inr h.2⟩
  · exact .inr ⟨hnone, .inl hdeep⟩

theorem physical_gc (env : Env) (s : ChunkStore) {options : GarbageCollectionOptions}
    (clock : GcClock) (hb : options.timeBudget = none) (cid : ChunkId) :
    (s.gc env options clock).1.physicalChunksPerChunkId[cid]? =
      if cid ∈ (s.gcFindCandidates env options
          (options.target.targetBytesFromSize s.stats.total.totalSizeBytes) none
          clock.mark).map (·.id)
      then none else s.physicalChunksPerChunkId[cid]? := by
  have hsweep : sweepTimeBudget options clock = none := by rw [sweepTimeBudget, hb, Option.map_none]
  have hleft : remainingBudget options clock = none := by
    rw [remainingBudget, hsweep, Option.map_none]
  have hmark : markTimeBudget options = none := by rw [markTimeBudget, hb, Option.map_none]
  have hun : ∀ elapsed : Nat → Nat, (fun k => budgetExhausted none (elapsed k)) = unlimited :=
    fun _ => rfl
  rw [(gc_eq env s options clock).1, gcDropAtLeastNumBytes]
  dsimp only
  rw [removeChunksDeep, (sweepIndices_samePhysical _ _ _).physical, hleft, hsweep, hun, hun,
    removeChunksShallow_unlimited, removeChunksShallow_unlimited]
  rw [gcCandidates, hmark]
  generalize s.gcFindCandidates env options _ none clock.mark = chunks
  rw [if_congr (mem_ids_gcPartition s options chunks cid) rfl rfl, ite_or]

def dropped (s s' : ChunkStore) : List Chunk :=
  s.physicalChunksPerChunkId.values.filter fun c => !s'.physicalChunksPerChunkId.contains c.id

theorem mem_dropped_gc {s : ChunkStore} (hk : s.Keyed) {options : GarbageCollectionOptions}
    (clock : GcClock) (ht : options.target = .dropAtLeastBytes target)
    (hb : options.timeBudget = none) :
    c ∈ s.dropped (s.gc env options clock).1 ↔
      c ∈ s.gcFindCandidates env options target none clock.mark := by
  rw [dropped, List.mem_filter, Bool.not_eq_true', TreeMap.contains_eq_isSome_getElem?,
    Option.isSome_eq_false_iff, Option.isNone_iff_eq_none, physical_gc env s clock hb, ht]
  refine ⟨fun ⟨hv, hc⟩ => ?_, fun hc => ?_⟩
  · split at hc
    · rename_i hm
      obtain ⟨d, hd, hid⟩ := List.mem_map.mp hm
      have hdc : some d = some c :=
        (mem_gcFindCandidates hk hd).1.symm.trans (hid ▸ physical_of_mem_values hk hv)
      exact Option.some.inj hdc ▸ hd
    · rw [physical_of_mem_values hk hv] at hc
      cases hc
  · exact ⟨OrdMap.mem_values.mpr ⟨c.id, (mem_gcFindCandidates hk hc).1⟩,
      if_pos (List.mem_map_of_mem hc)⟩

def pivotBytes (env : Env) (s : ChunkStore) (options : GarbageCollectionOptions) : Nat :=
  env.bytes ((s.unprotected options).filter options.onPivot)

/-- Either the pass by distance is enough, or it takes all that it can. -/
theorem gcFindCandidates_spec {s : ChunkStore} (h : Core env pol s)
    (options : GarbageCollectionOptions) (target : Nat) (elapsed : Nat → Nat) :
    (target ≤ s.pivotBytes env options ∧
      (s.gcFindCandidates env options target none elapsed).Nodup ∧
      s.gcFindCandidates env options target none elapsed ⊆ s.unprotected options ∧
      target ≤ env.bytes (s.gcFindCandidates env options target none elapsed)) ∨
    s.pivotBytes env options < target ∧ ∃ taken,
      s.gcFindCandidates env options target none elapsed = s.furthestFirst options ++ taken ∧
      Takes env.sizeBytes target (s.pivotBytes env options) (s.chunksInPriorityOrder options)
        taken := by
  have hperm := perm_furthestFirst h options
  have hbytes : env.bytes (s.furthestFirst options) = s.pivotBytes env options :=
    env.bytes_perm hperm
  have hnodup : (s.furthestFirst options).Nodup :=
    hperm.nodup_iff.mpr (((nodup_values h.keyed).filter _).filter _)
  rw [gcFindCandidates_eq]
  split
  · rename_i h0
    exact .inl ⟨h0 ▸ Nat.zero_le _, List.nodup_nil, List.nil_subset _, h0 ▸ Nat.zero_le _⟩
  · obtain ⟨htakes, hsum⟩ := takeChunks_spec env target 0 0 (s.furthestFirst options)
    revert htakes hsum
    generalize takeChunks env (fun _ bytes => target ≤ bytes) 0 0 (s.furthestFirst options) = first
    obtain ⟨taken, total⟩ := first
    intro htakes hsum
    rw [Nat.zero_add] at hsum
    dsimp only at htakes hsum ⊢
    subst hsum
    split
    · rename_i hreached
      have hsub := htakes.begins.sublist
      refine .inl ⟨hreached.trans (hbytes ▸ env.bytes_le hsub), hnodup.sublist hsub, ?_, hreached⟩
      exact fun c hc => List.mem_of_mem_filter (hperm.subset (hsub.subset hc))
    · rename_i hreached
      have hall : taken = s.furthestFirst options := by
        refine htakes.reached.resolve_right ?_
        rwa [Nat.zero_add]
      subst hall
      refine .inr ⟨Nat.lt_of_not_le fun hle => hreached (hle.trans hbytes.ge), _, rfl, ?_⟩
      rw [← hbytes]
      exact (takeChunks_spec env target 0 _ _).1

theorem perm_dropped_gc {s : ChunkStore} (h : Core env pol s) (hr : s.RowsExact)
    {options : GarbageCollectionOptions} (clock : GcClock)
    (ht : options.target = .dropAtLeastBytes target) (hb : options.timeBudget = none)
    (hl : options.protectLatest = 0)
    (hc : s.gcFindCandidates env options target none clock.mark = s.furthestFirst options ++ taken)
    (hpre : taken <+: s.chunksInPriorityOrder options) :
    (s.dropped (s.gc env options clock).1).Perm
      ((s.unprotected options).filter options.onPivot ++ taken.filter (!options.onPivot ·)) := by
  have hfirst := perm_furthestFirst h options
  have hnodup := nodup_values h.keyed
  have hleft : (s.dropped (s.gc env options clock).1).Nodup := hnodup.filter _
  refine (List.perm_ext_iff_of_nodup hleft ?_).mpr fun c => ?_
  · refine List.nodup_append'.mpr ⟨(hnodup.filter _).filter _, ?_, fun c hc hc' => ?_⟩
    · exact ((nodup_chunksInPriorityOrder h.keyed hr options).sublist hpre.sublist).filter _
    · simp [(List.mem_filter.mp hc).2] at hc'
  · rw [mem_dropped_gc h.keyed clock ht hb, hc, List.mem_append, List.mem_append, hfirst.mem_iff,
      List.mem_filter, List.mem_filter, Bool.not_eq_true']
    refine ⟨fun hm => ?_, fun hm => hm.imp_right And.left⟩
    cases hon : options.onPivot c with
    | false => exact hm.imp (fun hc => ⟨hc.1, hon ▸ hc.2⟩) fun hc => ⟨hc, rfl⟩
    | true =>
      refine .inl ⟨hm.elim And.left fun hc => ?_, rfl⟩
      exact (mem_chunksInPriorityOrder_zero h hr hl).mp (hpre.subset hc)

-- ---------------------------------------------------------------------------
-- The law
-- ---------------------------------------------------------------------------

/-- The bytes that were asked for are gone, or all temporal chunks that are left are
protected. Static and protected chunks stay. -/
def MeetsTarget (env : Env) (s : ChunkStore) (options : GarbageCollectionOptions)
    (clock : GcClock) (target : Nat) : Prop :=
  (target ≤ env.bytes (s.dropped (s.gc env options clock).1) ∨
    ∀ c, (s.gc env options clock).1.Physical c → c.isStatic = false →
      options.isChunkProtected c = true) ∧
  ∀ c, s.Physical c → c.isStatic = true ∨ options.isChunkProtected c = true →
    (s.gc env options clock).1.Physical c

def upTo (s : ChunkStore) (options : GarbageCollectionOptions) (d : Chunk) : List Chunk :=
  (s.unprotected options).filter (·.rowIdLe d)

/-- Wherever the counter reaches the target, the bytes do so without counting a chunk
of the timeline twice, or only chunks of the timeline are left. -/
def CountsOnce (env : Env) (s : ChunkStore) (options : GarbageCollectionOptions)
    (target : Nat) : Prop :=
  ∀ d ∈ s.unprotected options,
    target ≤ s.pivotBytes env options + env.bytes (s.upTo options d) →
    target ≤ s.pivotBytes env options +
        env.bytes ((s.upTo options d).filter (!options.onPivot ·)) ∨
      ∀ e ∈ s.unprotected options, options.onPivot e = false → e.rowIdLe d = true

theorem filter_rowIdLe_isPrefix {s : ChunkStore} (hk : s.Keyed) (hr : s.RowsExact)
    (options : GarbageCollectionOptions) (d : Chunk) :
    (s.chunksInPriorityOrder options).filter (·.rowIdLe d) <+: s.chunksInPriorityOrder options :=
  filter_isPrefix ((pairwise_chunksInPriorityOrder hk hr options).imp
    fun hle hb => Chunk.rowIdLe_trans hle.1 hb)

theorem gcFindCandidates_subset {s : ChunkStore} (h : Core env pol s) (hr : s.RowsExact)
    {options : GarbageCollectionOptions} (hl : options.protectLatest = 0) (target : Nat)
    (elapsed : Nat → Nat) :
    s.gcFindCandidates env options target none elapsed ⊆ s.unprotected options := by
  rcases gcFindCandidates_spec h options target elapsed with
    ⟨-, -, hsub, -⟩ | ⟨-, taken, he, htakes⟩
  · exact hsub
  · rw [he]
    refine List.append_subset.mpr ⟨fun c hc => ?_, fun c hc => ?_⟩
    · exact List.mem_of_mem_filter ((perm_furthestFirst h options).subset hc)
    · exact (mem_chunksInPriorityOrder_zero h hr hl).mp (htakes.begins.subset hc)

theorem physical_gc_iff {s : ChunkStore} (h : Core env pol s)
    {options : GarbageCollectionOptions} (clock : GcClock)
    (ht : options.target = .dropAtLeastBytes target) (hb : options.timeBudget = none) :
    (s.gc env options clock).1.Physical c ↔
      s.Physical c ∧ c ∉ s.dropped (s.gc env options clock).1 := by
  rw [mem_dropped_gc h.keyed clock ht hb, Physical, physical_gc env s clock hb, ht]
  refine ⟨fun hc => ?_, fun ⟨hc, hm⟩ => ?_⟩
  · split at hc
    · cases hc
    · rename_i hm
      exact ⟨hc, fun hd => hm (List.mem_map_of_mem hd)⟩
  · rw [if_neg, hc]
    intro hd
    obtain ⟨d, hd, hid⟩ := List.mem_map.mp hd
    have hdc : some d = some c := (mem_gcFindCandidates h.keyed hd).1.symm.trans (hid ▸ hc)
    exact hm (Option.some.inj hdc ▸ hd)

theorem filter_rowIdLe_of_concat {s : ChunkStore} (h : Core env pol s) (hr : s.RowsExact)
    {options : GarbageCollectionOptions} (hl : options.protectLatest = 0)
    (hpre : l ++ [d] <+: s.chunksInPriorityOrder options) :
    (s.chunksInPriorityOrder options).filter (·.rowIdLe d) = l ++ [d] := by
  have hpair := pairwise_chunksInPriorityOrder h.keyed hr options
  have hmem := hpre.subset (List.mem_append_right l (List.mem_singleton_self d))
  obtain ⟨rest, hrest⟩ := hpre
  rw [← hrest] at hpair ⊢
  obtain ⟨htaken, -, hafter⟩ := List.pairwise_append.mp hpair
  obtain ⟨-, -, hbefore⟩ := List.pairwise_append.mp htaken
  have hu := (mem_chunksInPriorityOrder_zero h hr hl).mp hmem
  have hs := h.storable ((mem_unprotected h.keyed).mp hu).1
  obtain ⟨r, hmin, -⟩ := Chunk.rowIdMin_eq hs.wellFormed hs.rowIds_ne
  rw [List.filter_append, List.filter_eq_self.mpr, List.filter_eq_nil_iff.mpr, List.append_nil]
  · intro c hc
    rw [(hafter d (List.mem_append_right l (List.mem_singleton_self d)) c hc).2]
    exact Bool.false_ne_true
  · intro c hc
    rcases List.mem_append.mp hc with hc | hc
    · exact (hbefore c hc d (List.mem_singleton_self d)).1
    · rw [List.mem_singleton.mp hc]
      exact Chunk.rowIdLe_refl hmin

/-- The target is met if and only if the counter never stops the pass by row id too early. -/
theorem meetsTarget_iff {s : ChunkStore} (h : Reached env pol config s)
    {options : GarbageCollectionOptions} {target : Nat} (clock : GcClock)
    (ht : options.target = .dropAtLeastBytes target) (hb : options.timeBudget = none)
    (hl : options.protectLatest = 0) :
    s.MeetsTarget env options clock target ↔ s.CountsOnce env options target := by
  have hcore := h.core
  have hr := rowsExact_of_reached h
  have hsub := gcFindCandidates_subset hcore hr hl target clock.mark
  have hkeep : ∀ c, s.Physical c → c.isStatic = true ∨ options.isChunkProtected c = true →
      (s.gc env options clock).1.Physical c := by
    intro c hc hor
    refine (physical_gc_iff hcore clock ht hb).mpr ⟨hc, fun hm => ?_⟩
    obtain ⟨-, hst, hp⟩ := (mem_unprotected hcore.keyed).mp
      (hsub ((mem_dropped_gc hcore.keyed clock ht hb).mp hm))
    rw [hst, hp] at hor
    exact hor.elim Bool.noConfusion Bool.noConfusion
  have horder := perm_chunksInPriorityOrder hcore hr hl
  refine (and_iff_left hkeep).trans ?_
  rcases gcFindCandidates_spec hcore options target clock.mark with
    ⟨hle, hnodup, -, hD⟩ | ⟨hlt, taken, he, htakes⟩
  · have hperm : (s.dropped (s.gc env options clock).1).Perm
        (s.gcFindCandidates env options target none clock.mark) :=
      (List.perm_ext_iff_of_nodup ((nodup_values hcore.keyed).filter _) hnodup).mpr
        fun _ => mem_dropped_gc hcore.keyed clock ht hb
    refine iff_of_true (.inl (hD.trans (env.bytes_perm hperm).ge)) fun d _ _ => .inl ?_
    exact hle.trans (Nat.le_add_right _ _)
  · have hperm := perm_dropped_gc hcore hr clock ht hb hl he htakes.begins
    have hbytes : env.bytes (s.dropped (s.gc env options clock).1) =
        s.pivotBytes env options + env.bytes (taken.filter (!options.onPivot ·)) := by
      rw [env.bytes_perm hperm, env.bytes_append, pivotBytes]
    have hup : ∀ d, ((s.chunksInPriorityOrder options).filter (·.rowIdLe d)).Perm
        (s.upTo options d) := fun d => horder.filter _
    rw [hbytes]
    constructor
    · intro hm d hd hreach
      refine or_iff_not_imp_left.mpr fun hshort e hu hoff => ?_
      have hd' := horder.mem_iff.mpr hd
      have hs := hcore.storable ((mem_unprotected hcore.keyed).mp hd).1
      obtain ⟨r, hmin, -⟩ := Chunk.rowIdMin_eq hs.wellFormed hs.rowIds_ne
      -- The pass stops at `d` at the latest.
      have hstop : taken <+: (s.chunksInPriorityOrder options).filter (·.rowIdLe d) := by
        refine htakes.least _ (fun hnil => ?_) (filter_rowIdLe_isPrefix hcore.keyed hr options d) ?_
        · have hmem : d ∈ (s.chunksInPriorityOrder options).filter (·.rowIdLe d) :=
            List.mem_filter.mpr ⟨hd', Chunk.rowIdLe_refl hmin⟩
          rw [hnil] at hmem
          cases hmem
        · exact hreach.trans (Nat.add_le_add_left (env.bytes_perm (hup d)).ge _)
      have hfew : env.bytes (taken.filter (!options.onPivot ·)) ≤
          env.bytes ((s.upTo options d).filter (!options.onPivot ·)) :=
        (env.bytes_le (hstop.sublist.filter _)).trans (env.bytes_perm ((hup d).filter _)).le
      have hall := hm.resolve_left fun hle => hshort (hle.trans (Nat.add_le_add_left hfew _))
      obtain ⟨hphys, hst, hp⟩ := (mem_unprotected hcore.keyed).mp hu
      have hgone : e ∈ s.dropped (s.gc env options clock).1 := by
        by_contra hnot
        have := hall e ((physical_gc_iff hcore clock ht hb).mpr ⟨hphys, hnot⟩) hst
        rw [hp] at this
        cases this
      rcases List.mem_append.mp (hperm.subset hgone) with hon | htk
      · rw [(List.mem_filter.mp hon).2] at hoff
        cases hoff
      · exact (List.mem_filter.mp (hstop.subset (List.mem_of_mem_filter htk))).2
    · intro hc
      -- What is left is protected if everything without the timeline was taken.
      have hleft : (∀ e ∈ s.unprotected options, options.onPivot e = false → e ∈ taken) →
          ∀ c, (s.gc env options clock).1.Physical c → c.isStatic = false →
            options.isChunkProtected c = true := by
        intro htk c hc hst
        obtain ⟨hphys, hnot⟩ := (physical_gc_iff hcore clock ht hb).mp hc
        by_contra hp
        have hu := (mem_unprotected hcore.keyed).mpr ⟨hphys, hst, Bool.eq_false_iff.mpr hp⟩
        refine hnot (hperm.symm.subset (List.mem_append.mpr ?_))
        cases hon : options.onPivot c with
        | true => exact .inl (List.mem_filter.mpr ⟨hu, hon⟩)
        | false => exact .inr (List.mem_filter.mpr ⟨htk c hu hon, by simp [hon]⟩)
      rcases htakes.reached with hall | hreach
      · exact .inr (hleft fun e hu _ => hall ▸ horder.mem_iff.mpr hu)
      · rcases List.eq_nil_or_concat' taken with rfl | ⟨l, d, rfl⟩
        · exact absurd hreach (Nat.not_le_of_lt hlt)
        · have hpart := filter_rowIdLe_of_concat hcore hr hl htakes.begins
          have hd : d ∈ s.unprotected options := horder.mem_iff.mp
            (htakes.begins.subset (List.mem_append_right l (List.mem_singleton_self d)))
          have hup' := hup d
          rw [hpart] at hup'
          refine (hc d hd ?_).imp (fun hle => ?_) fun hlate => hleft fun e hu hoff => ?_
          · exact (env.bytes_perm hup') ▸ hreach
          · rwa [env.bytes_perm (hup'.filter _)]
          · exact hup'.symm.subset (List.mem_filter.mpr ⟨hu, hlate e hu hoff⟩)

/-- A target in bytes, far from the start of the timeline `t`. -/
def pivotOptions (target : Nat) : GarbageCollectionOptions :=
  { GarbageCollectionOptions.gcEverything with
    target := .dropAtLeastBytes target
    furthestFrom := some ("t", .newTemporal 0) }

def stoppedClock : GcClock := ⟨fun _ => 0, 0, fun _ => 0, 0, fun _ => 0⟩

def offPivotChunk (id : ChunkId) (rowId : RowId) : Chunk :=
  .ofColumns id ["e"] [rowId] [(⟨"u", .sequence⟩, [.newTemporal 0])] [("c", [some []])]

theorem reached_two {c d : Chunk} (hc : c.WellFormed ∧ c.id < 1000)
    (hd : d.WellFormed ∧ d.id < 1000) : Reached .plain .any .COMPACTION_DISABLED
      (run .plain .COMPACTION_DISABLED [.insertChunk c, .insertChunk d]) :=
  reached_run ⟨⟨hc.1, Env.plain_not_future hc.2 _, trivial, trivial⟩,
    ⟨hd.1, Env.plain_not_future hd.2 _, trivial, trivial⟩, trivial⟩

def offPivotRun : List Op := [.insertChunk (offPivotChunk 1 1), .insertChunk (.single 2 2 0)]

theorem meetsTarget_offPivotRun :
    (run .plain .COMPACTION_DISABLED offPivotRun).MeetsTarget .plain (pivotOptions 2)
      stoppedClock 2 := by
  refine (meetsTarget_iff (reached_two (by decide) (by decide)) stoppedClock rfl rfl rfl).mpr ?_
  unfold CountsOnce
  decide

/-- A chunk on the timeline `t`, and one on the timeline `u` with a later row. -/
def pivotRun : List Op := [.insertChunk (.single 1 1 0), .insertChunk (offPivotChunk 2 2)]

/-- The first chunk is counted twice, so the second one stays. -/
theorem pivotRun_misses_target :
    Reached .plain .any .COMPACTION_DISABLED (run .plain .COMPACTION_DISABLED pivotRun) ∧
      ¬ (run .plain .COMPACTION_DISABLED pivotRun).MeetsTarget .plain (pivotOptions 2)
        stoppedClock 2 := by
  refine ⟨reached_two (by decide) (by decide), fun ⟨hm, _⟩ => ?_⟩
  rcases hm with hm | hm
  · revert hm
    decide
  · have hp := hm (offPivotChunk 2 2) (by unfold Physical; decide) (by decide)
    revert hp
    decide

end ChunkStore

end DimosViewer
