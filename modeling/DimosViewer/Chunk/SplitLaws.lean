import DimosViewer.Chunk.MergeLaws

/-!
# Laws of splitting

The pieces of a split hold the rows of the chunk in order, each with all of its
columns, and get ids of their own.
-/

namespace DimosViewer

theorem splitBounds_flatMap (l : List α) (ht : 0 < target) (hf : l.length - start ≤ fuel) :
    (splitBounds l.length target fuel start).flatMap (fun (s, len) => (l.drop s).take len) =
      l.drop start := by
  induction fuel generalizing start with
  | zero => rw [splitBounds, List.flatMap_nil, List.drop_eq_nil_of_le (by omega)]
  | succ fuel ih =>
    rw [splitBounds]
    by_cases h : start < l.length
    · rw [if_pos h, List.flatMap_cons, ih (by omega)]
      have ht := List.take_append_drop (min (l.length - start) target) (l.drop start)
      rwa [List.drop_drop] at ht
    · rw [if_neg h, List.flatMap_nil, List.drop_eq_nil_of_le (by omega)]

theorem mem_splitBounds (ht : 0 < target) (h : bound ∈ splitBounds numRows target fuel start) :
    0 < bound.2 ∧ bound.1 < numRows := by
  induction fuel generalizing start with
  | zero => cases h
  | succ fuel ih =>
    rw [splitBounds] at h
    split at h
    · rename_i hlt
      rcases List.mem_cons.mp h with rfl | h
      · exact ⟨by dsimp only; omega, hlt⟩
      · exact ih h
    · cases h

namespace Chunk

structure IsPiece (c p : Chunk) : Prop where
  wellFormed : p.WellFormed
  isSorted : p.isSorted = true
  entityPath : p.entityPath = c.entityPath
  columnTypes : p.columnTypes = c.columnTypes
  componentNames : p.components.map (·.component) = c.components.map (·.component)
  rowIds_ne : p.rowIds ≠ []

theorem IsPiece.refl {c : Chunk} (h : c.WellFormed) (hs : c.isSorted = true)
    (hn : c.rowIds ≠ []) : IsPiece c c := ⟨h, hs, rfl, rfl, rfl, hn⟩

theorem IsPiece.trans {a b c : Chunk} (h : IsPiece a b) (h' : IsPiece b c) : IsPiece a c :=
  ⟨h'.wellFormed, h'.isSorted, h'.entityPath.trans h.entityPath,
    h'.columnTypes.trans h.columnTypes, h'.componentNames.trans h.componentNames, h'.rowIds_ne⟩

theorem IsPiece.isStatic_eq {c p : Chunk} (h : IsPiece c p) : p.isStatic = c.isStatic := by
  rw [Bool.eq_iff_iff, isStatic_iff, isStatic_iff, h.columnTypes]

theorem TimeColumn.timeline_rowSliced (tc : TimeColumn) (index len : Nat) :
    (tc.rowSliced index len).timeline = tc.timeline := by
  dsimp only [TimeColumn.rowSliced]
  split
  · rfl
  · split <;> rfl

theorem rowSliced_id (c : Chunk) (id : ChunkId) (index len : Nat) :
    (c.rowSliced id index len).id = id := by
  dsimp only [rowSliced]
  split
  · rfl
  · split <;> rfl

theorem rowSliced_entityPath (c : Chunk) (id : ChunkId) (index len : Nat) :
    (c.rowSliced id index len).entityPath = c.entityPath := by
  dsimp only [rowSliced]
  split
  · rfl
  · split <;> rfl

theorem rowSliced_columnTypes (c : Chunk) (id : ChunkId) (index len : Nat) :
    (c.rowSliced id index len).columnTypes = c.columnTypes := by
  have h : (c.emptied id).columnTypes = c.columnTypes := by
    simp [columnTypes, emptied, List.map_map, Function.comp_def, TimeColumn.emptied,
      TimeColumn.new]
  dsimp only [rowSliced]
  split
  · exact h
  · split
    · exact h
    · simp [columnTypes, List.map_map, Function.comp_def, TimeColumn.timeline_rowSliced]

theorem rowSliced_componentNames (c : Chunk) (id : ChunkId) (index len : Nat) :
    (c.rowSliced id index len).components.map (·.component) =
      c.components.map (·.component) := by
  have h : (c.emptied id).components.map (·.component) = c.components.map (·.component) := by
    simp [emptied, List.map_map, Function.comp_def]
  dsimp only [rowSliced]
  split
  · exact h
  · split
    · exact h
    · simp [List.map_map, Function.comp_def, SerializedComponentColumn.rowSliced]

theorem rowSliced_isPiece {c : Chunk} (h : c.WellFormed) (hs : c.isSorted = true)
    (hi : index < c.numRows) (hl : 0 < len) (id : ChunkId) :
    IsPiece c (c.rowSliced id index len) where
  wellFormed := rowSliced_wellFormed h id index len
  isSorted := by
    dsimp only [rowSliced]
    split
    · rfl
    · split
      · rfl
      · simp [hs]
  entityPath := rowSliced_entityPath c id index len
  columnTypes := rowSliced_columnTypes c id index len
  componentNames := rowSliced_componentNames c id index len
  rowIds_ne := by
    rw [rowSliced_rowIds, ← List.length_pos_iff, List.length_take, List.length_drop]
    unfold numRows at hi
    omega

/-- What a split of the chunks `cs` into `pieces` is, with the counter moved from
`n` to `n'`. A chunk that is not split is its own piece. -/
structure IsSplit (newId : Nat → ChunkId) (n n' : Nat) (cs pieces : List Chunk) : Prop where
  le : n ≤ n'
  isPiece : ∀ p ∈ pieces, ∃ c ∈ cs, IsPiece c p
  rowIds : pieces.flatMap (·.rowIds) = cs.flatMap (·.rowIds)
  ids : ∀ p ∈ pieces, p ∈ cs ∨ DrawnIn newId n n' p.id
  nodup : (∀ c ∈ cs, ∀ k, n ≤ k → c.id ≠ newId k) → (cs.map (·.id)).Nodup →
    (pieces.map (·.id)).Nodup

theorem DrawnIn.mono {newId : Nat → ChunkId} {cid : ChunkId} (h : DrawnIn newId n n' cid)
    (hl : m ≤ n) (hr : n' ≤ m') : DrawnIn newId m m' cid := by
  obtain ⟨k, hk, hk', rfl⟩ := h
  exact ⟨k, hl.trans hk, hk'.trans_le hr, rfl⟩

theorem DrawnIn.ne_newId {newId : Nat → ChunkId} {cid : ChunkId}
    (hinj : Function.Injective newId) (h : DrawnIn newId m n cid) (hk : n ≤ k) :
    cid ≠ newId k := by
  obtain ⟨j, -, hj, rfl⟩ := h
  exact fun he => absurd (hinj he) (by omega)

namespace IsSplit

variable {newId : Nat → ChunkId}

theorem refl {c : Chunk} (h : c.WellFormed) (hs : c.isSorted = true) (hn : c.rowIds ≠ [])
    (newId : Nat → ChunkId) (n : Nat) : IsSplit newId n n [c] [c] where
  le := le_rfl
  isPiece p hp := by
    obtain rfl := List.mem_singleton.mp hp
    exact ⟨p, hp, .refl h hs hn⟩
  rowIds := rfl
  ids _ hp := .inl hp
  nodup _ h := h

theorem nil (newId : Nat → ChunkId) (n : Nat) : IsSplit newId n n [] [] where
  le := le_rfl
  isPiece _ hp := nomatch hp
  rowIds := rfl
  ids _ hp := .inl hp
  nodup _ h := h

theorem ne_newId (hinj : Function.Injective newId) (h : IsSplit newId n n' cs pieces)
    (hf : ∀ c ∈ cs, ∀ k, n ≤ k → c.id ≠ newId k) :
    ∀ p ∈ pieces, ∀ k, n' ≤ k → p.id ≠ newId k := by
  intro p hp k hk
  rcases h.ids p hp with hc | hd
  · exact hf p hc k (h.le.trans hk)
  · exact hd.ne_newId hinj hk

theorem trans (hinj : Function.Injective newId) (h : IsSplit newId n m cs ds)
    (h' : IsSplit newId m n' ds es) : IsSplit newId n n' cs es where
  le := h.le.trans h'.le
  isPiece p hp := by
    obtain ⟨d, hd, hpd⟩ := h'.isPiece p hp
    obtain ⟨c, hc, hdc⟩ := h.isPiece d hd
    exact ⟨c, hc, hdc.trans hpd⟩
  rowIds := h'.rowIds.trans h.rowIds
  ids p hp := by
    rcases h'.ids p hp with hd | hd
    · exact (h.ids p hd).imp_right (·.mono le_rfl h'.le)
    · exact .inr (hd.mono h.le le_rfl)
  nodup hf hn := h'.nodup (h.ne_newId hinj hf) (h.nodup hf hn)

theorem append (hinj : Function.Injective newId) (h : IsSplit newId n m cs ds)
    (h' : IsSplit newId m n' cs' ds') : IsSplit newId n n' (cs ++ cs') (ds ++ ds') where
  le := h.le.trans h'.le
  isPiece p hp := by
    rcases List.mem_append.mp hp with hp | hp
    · obtain ⟨c, hc, hpc⟩ := h.isPiece p hp
      exact ⟨c, List.mem_append_left _ hc, hpc⟩
    · obtain ⟨c, hc, hpc⟩ := h'.isPiece p hp
      exact ⟨c, List.mem_append_right _ hc, hpc⟩
  rowIds := by rw [List.flatMap_append, List.flatMap_append, h.rowIds, h'.rowIds]
  ids p hp := by
    rcases List.mem_append.mp hp with hp | hp
    · exact (h.ids p hp).imp (List.mem_append_left _) (·.mono le_rfl h'.le)
    · exact (h'.ids p hp).imp (List.mem_append_right _) (·.mono h.le le_rfl)
  nodup hf hn := by
    rw [List.map_append, List.nodup_append] at hn ⊢
    have hl : ∀ c ∈ cs, ∀ k, n ≤ k → c.id ≠ newId k :=
      fun c hc => hf c (List.mem_append_left _ hc)
    have hr : ∀ c ∈ cs', ∀ k, m ≤ k → c.id ≠ newId k :=
      fun c hc k hk => hf c (List.mem_append_right _ hc) k (h.le.trans hk)
    refine ⟨h.nodup hl hn.1, h'.nodup hr hn.2.1, ?_⟩
    intro a ha b hb
    obtain ⟨p, hp, rfl⟩ := List.mem_map.mp ha
    obtain ⟨q, hq, rfl⟩ := List.mem_map.mp hb
    rcases h'.ids q hq with hq | ⟨k, hk, -, he⟩
    · rcases h.ids p hp with hp | ⟨k, hk, -, he⟩
      · exact hn.2.2 _ (List.mem_map_of_mem hp) _ (List.mem_map_of_mem hq)
      · exact fun hpq => hf q (List.mem_append_right _ hq) k hk (hpq.symm.trans he)
    · exact he ▸ h.ne_newId hinj hl p hp k hk

theorem drawn (h : IsSplit newId n n' [c] pieces) (hl : 1 < pieces.length) :
    ∀ p ∈ pieces, DrawnIn newId n n' p.id := by
  intro p hp
  refine (h.ids p hp).resolve_left fun hc => ?_
  obtain rfl := List.mem_singleton.mp hc
  obtain ⟨before, after, rfl⟩ := List.append_of_mem hp
  have hr := congrArg List.length h.rowIds
  simp only [List.flatMap_append, List.flatMap_cons, List.flatMap_nil, List.append_nil,
    List.length_append] at hr
  have hnil : ∀ l : List Chunk, (∀ q ∈ l, q.rowIds ≠ []) →
      (l.flatMap (·.rowIds)).length = 0 → l = [] := by
    intro l hne hz
    cases l with
    | nil => rfl
    | cons q rest =>
      rw [List.flatMap_cons, List.length_append] at hz
      exact absurd (List.eq_nil_of_length_eq_zero (by omega)) (hne q List.mem_cons_self)
  have hne : ∀ q ∈ before ++ p :: after, q.rowIds ≠ [] :=
    fun q hq => (h.isPiece q hq).elim fun _ hq => hq.2.rowIds_ne
  have hb := hnil before (fun q hq => hne q (List.mem_append_left _ hq)) (by omega)
  have ha := hnil after
    (fun q hq => hne q (List.mem_append_right _ (List.mem_cons_of_mem _ hq))) (by omega)
  rw [hb, ha] at hl
  simp at hl

end IsSplit

theorem splitTargetRows_pos (h : splitTargetRows sizeBytes c cfg = some target) : 0 < target := by
  unfold splitTargetRows at h
  dsimp only at h
  split at h
  · cases h
  split at h
  · cases h
    omega
  split at h
  · cases h
    omega
  split at h
  · cases h
    omega
  · cases h

theorem drawnIn_slices {newId : Nat → ChunkId} {c : Chunk} (bounds : List (Nat × Nat)) :
    ∀ p ∈ bounds.zipIdx.map fun ((start, len), i) => c.rowSliced (newId (n + i)) start len,
      DrawnIn newId n (n + bounds.length) p.id := by
  intro p hp
  obtain ⟨⟨bound, i⟩, hm, rfl⟩ := List.mem_map.mp hp
  have hi := List.snd_lt_of_mem_zipIdx hm
  exact ⟨n + i, by omega, by dsimp only at hi; omega, rowSliced_id _ _ _ _⟩

theorem splitChunkIfNeeded_isSplit {newId : Nat → ChunkId} (hinj : Function.Injective newId)
    {c : Chunk} (h : c.WellFormed) (hs : c.isSorted = true) (hn : c.rowIds ≠ [])
    (sizeBytes : Chunk → Nat) (n : Nat) (cfg : ChunkSplitConfig) :
    IsSplit newId n (c.splitChunkIfNeeded sizeBytes newId n cfg).2 [c]
      (c.splitChunkIfNeeded sizeBytes newId n cfg).1 := by
  unfold splitChunkIfNeeded
  cases ht : c.splitTargetRows sizeBytes cfg with
  | none => exact .refl h hs hn newId n
  | some target =>
    have hpos := splitTargetRows_pos ht
    refine ⟨Nat.le_add_right _ _, ?_, ?_, fun p hp => .inr (drawnIn_slices _ p hp),
      fun _ _ => ?_⟩
    · intro p hp
      obtain ⟨⟨bound, i⟩, hm, rfl⟩ := List.mem_map.mp hp
      have hb := mem_splitBounds hpos (List.fst_mem_of_mem_zipIdx hm)
      exact ⟨c, List.mem_singleton_self c, rowSliced_isPiece h hs hb.2 hb.1 _⟩
    · have hb := splitBounds_flatMap c.rowIds hpos (Nat.sub_le c.numRows 0)
      rw [List.drop_zero, ← List.zipIdx_map_fst 0 (splitBounds _ _ _ _), List.flatMap_map] at hb
      rw [List.flatMap_map, List.flatMap_singleton]
      simp only [rowSliced_rowIds]
      exact hb
    · rw [List.map_map]
      have hsnd : (fun x : (Nat × Nat) × Nat => newId (n + x.2)) = newId ∘ (n + ·) ∘ Prod.snd := rfl
      simp only [Function.comp_def, rowSliced_id]
      rw [hsnd, ← List.map_map, ← List.map_map, List.zipIdx_map_snd]
      exact (List.Nodup.map (add_right_injective n) List.nodup_range').map hinj

end Chunk

end DimosViewer
