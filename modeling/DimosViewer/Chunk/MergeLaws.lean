import DimosViewer.Chunk.Laws

/-!
# Laws of concatenation and splitting

A compacted chunk holds the rows of its two sources in row id order, under a new
id. The pieces of a split hold the rows of the chunk, in order.
-/

namespace DimosViewer.Chunk

-- ---------------------------------------------------------------------------
-- Row id ranges
-- ---------------------------------------------------------------------------

theorem rowIdRange_eq_of_sorted {c : Chunk} (hp : c.isSorted = true → c.rowIds.Pairwise (· ≤ ·))
    (hn : c.rowIds ≠ []) :
    ∃ a b, c.rowIdRange = some (a, b) ∧ (a ∈ c.rowIds ∧ ∀ r ∈ c.rowIds, a ≤ r) ∧
      b ∈ c.rowIds ∧ ∀ r ∈ c.rowIds, r ≤ b := by
  obtain ⟨a, ha⟩ := exists_least c.isSorted hn
  obtain ⟨b, hb⟩ := exists_greatest c.isSorted hn
  refine ⟨a, b, ?_, least_mem hp ha, greatest_mem hp hb⟩
  unfold rowIdRange
  cases hs : c.isSorted <;> simp_all

theorem rowIdRange_eq {c : Chunk} (h : c.WellFormed) (hn : c.rowIds ≠ []) :
    ∃ a b, c.rowIdRange = some (a, b) ∧ (a ∈ c.rowIds ∧ ∀ r ∈ c.rowIds, a ≤ r) ∧
      b ∈ c.rowIds ∧ ∀ r ∈ c.rowIds, r ≤ b :=
  rowIdRange_eq_of_sorted (fun hs => isSortedList_iff.mp (h.sorted ▸ hs)) hn

theorem rowIdMin_eq {c : Chunk} (h : c.WellFormed) (hn : c.rowIds ≠ []) :
    ∃ a, c.rowIdMin = some a ∧ a ∈ c.rowIds ∧ ∀ r ∈ c.rowIds, a ≤ r := by
  obtain ⟨a, b, hr, ha, -⟩ := rowIdRange_eq h hn
  exact ⟨a, by rw [rowIdMin, hr, Option.map_some], ha⟩

theorem rowIdRange_isSome {c : Chunk} (hn : c.rowIds ≠ []) : c.rowIdRange.isSome := by
  obtain ⟨a, ha⟩ := exists_least c.isSorted hn
  obtain ⟨b, hb⟩ := exists_greatest c.isSorted hn
  unfold rowIdRange
  cases hs : c.isSorted <;> simp_all

-- ---------------------------------------------------------------------------
-- Concatenation
-- ---------------------------------------------------------------------------

theorem sameDatatypes_comm {lhs rhs : Chunk} (hl : lhs.WellFormed) (hr : rhs.WellFormed)
    (h : lhs.sameDatatypes rhs = true) : rhs.sameDatatypes lhs = true := by
  rw [sameDatatypes, List.all_eq_true] at h ⊢
  intro rhsColumn hm
  cases hg : lhs.components.get rhsColumn.component with
  | none => rfl
  | some lhsColumn =>
    obtain ⟨hm', he⟩ := (ChunkComponents.get_eq_some_iff hl.components_nodup).mp hg
    have hg' := (ChunkComponents.get_eq_some_iff hr.components_nodup).mpr ⟨hm, he.symm⟩
    have := h lhsColumn hm'
    rw [hg'] at this
    simpa [eq_comm] using this

theorem concatenable_comm {lhs rhs : Chunk} (hl : lhs.WellFormed) (hr : rhs.WellFormed)
    (h : lhs.concatenable rhs = true) : rhs.concatenable lhs = true := by
  simp only [concatenable, Bool.and_eq_true, sameEntityPaths, sameTimelines,
    decide_eq_true_iff] at h ⊢
  obtain ⟨⟨he, ht⟩, hd⟩ := h
  exact ⟨⟨he.symm, ht.symm⟩, sameDatatypes_comm hl hr hd⟩

structure Aligned (c : Chunk) : Prop where
  timelines_nodup : (c.timelines.map Prod.fst).Nodup
  components_nodup : (c.components.map (·.component)).Nodup
  timeline : ∀ entry ∈ c.timelines, entry.2.times.length = c.numRows
  component : ∀ column ∈ c.components, column.listArray.length = c.numRows

theorem WellFormed.aligned {c : Chunk} (h : c.WellFormed) : c.Aligned :=
  ⟨h.timelines_nodup, h.components_nodup, fun entry he => (h.timeline entry he).2, h.component⟩

theorem mem_concatComponentsLeft {cl cr : Chunk} (hl : cl.Aligned) (hr : cr.Aligned)
    (h : column ∈ cl.concatComponentsLeft cr) :
    column.listArray.length = cl.numRows + cr.numRows := by
  obtain ⟨old, ho, rfl⟩ := List.mem_map.mp h
  have hlen := hl.component old ho
  cases hg : cr.components.get old.component with
  | none => simp [hlen]
  | some rhsColumn =>
    have hm := ((ChunkComponents.get_eq_some_iff hr.components_nodup).mp hg).1
    simp [hlen, hr.component rhsColumn hm]

theorem mem_concatComponentsRight {cl cr : Chunk} (hr : cr.Aligned)
    (h : column ∈ cl.concatComponentsRight cr) :
    column.listArray.length = cl.numRows + cr.numRows ∧
      cl.components.get column.component = none := by
  obtain ⟨old, ho, hc⟩ := List.mem_filterMap.mp h
  have hlen := hr.component old ho
  cases hg : cl.components.get old.component with
  | none =>
    rw [hg] at hc
    cases hc
    exact ⟨by simp [hlen], hg⟩
  | some _ =>
    rw [hg] at hc
    cases hc

theorem concatComponents_nodup {cl cr : Chunk} (hl : cl.Aligned) (hr : cr.Aligned) :
    ((cl.concatComponentsLeft cr ++ cl.concatComponentsRight cr).map (·.component)).Nodup := by
  have hleft : (cl.concatComponentsLeft cr).map (·.component) =
      cl.components.map (·.component) := by
    rw [concatComponentsLeft, List.map_map]
    refine List.map_congr_left fun column _ => ?_
    rw [Function.comp_apply]
    split <;> rfl
  have hright : ((cl.concatComponentsRight cr).map (·.component)).Sublist
      (cr.components.map (·.component)) := by
    refine map_filterMap_sublist _ _ _ (fun column column' he => ?_) cr.components
    split at he
    · cases he
    · cases he
      rfl
  rw [List.map_append, List.nodup_append, hleft]
  refine ⟨hl.components_nodup, hr.components_nodup.sublist hright, ?_⟩
  intro a ha b hb hab
  obtain ⟨column, hc, rfl⟩ := List.mem_map.mp hb
  obtain ⟨column', hc', rfl⟩ := List.mem_map.mp ha
  have hn := (mem_concatComponentsRight hr hc).2
  rw [(ChunkComponents.get_eq_some_iff hl.components_nodup).mpr ⟨hc', hab⟩] at hn
  cases hn

def columnTypes (c : Chunk) : List (TimelineName × Timeline) :=
  c.timelines.map fun entry => (entry.1, entry.2.timeline)

theorem mem_columnTypes {c : Chunk} {tc : TimeColumn} (h : (name, tc) ∈ c.timelines) :
    (name, tc.timeline) ∈ c.columnTypes := List.mem_map.mpr ⟨_, h, rfl⟩

theorem isStatic_iff {c : Chunk} : c.isStatic = true ↔ c.columnTypes = [] := by
  simp [isStatic, columnTypes]

/-- What a concatenation of `cl` and `cr` is, whichever comes first. Columns of
different timelines under one name are lost. -/
structure IsMerge (cl cr c : Chunk) : Prop where
  wellFormed : c.WellFormed
  rowIds : c.rowIds.Perm (cl.rowIds ++ cr.rowIds)
  entityPath : c.entityPath = cl.entityPath
  columnTypes : ∀ entry ∈ c.columnTypes, entry ∈ cl.columnTypes ∧ entry ∈ cr.columnTypes
  isStatic : c.isStatic = true → (cl.isStatic = true ∧ cr.isStatic = true) ∨
    ∃ name lhs rhs, (name, lhs) ∈ cl.columnTypes ∧ (name, rhs) ∈ cr.columnTypes ∧ lhs ≠ rhs

theorem length_timelines_eq {cl cr : Chunk} (h : cl.sameTimelines cr = true) :
    cl.timelines.length = cr.timelines.length := by
  rw [sameTimelines, decide_eq_true_iff] at h
  simpa using congrArg List.length h

theorem mem_zip_timelines {cl cr : Chunk} (h : cl.sameTimelines cr = true)
    (hm : (lhs, rhs) ∈ cl.timelines.zip cr.timelines) :
    lhs ∈ cl.timelines ∧ rhs ∈ cr.timelines ∧ lhs.1 = rhs.1 := by
  obtain ⟨hl, hr⟩ := List.of_mem_zip hm
  refine ⟨hl, hr, ?_⟩
  rw [sameTimelines, decide_eq_true_iff] at h
  obtain ⟨i, hi, he⟩ := List.getElem_of_mem hm
  rw [List.getElem_zip, Prod.mk.injEq] at he
  obtain ⟨rfl, rfl⟩ := he
  rw [List.length_zip, Nat.lt_min] at hi
  have h := congrArg (·[i]?) h
  simpa [List.getElem?_eq_getElem hi.1, List.getElem?_eq_getElem hi.2] using h

theorem concatenated_times {lhs rhs tc : TimeColumn} (h : lhs.concatenated rhs = some tc) :
    lhs.timeline = rhs.timeline ∧ tc.timeline = lhs.timeline ∧ tc.times = lhs.times ++ rhs.times := by
  unfold TimeColumn.concatenated at h
  split at h
  · cases h
  · rename_i hne
    cases h
    exact ⟨not_not.mp hne, rfl, rfl⟩

theorem aligned_of_concatenated {cl cr c : Chunk} (hl : cl.Aligned) (hr : cr.Aligned)
    (hc : cl.sameTimelines cr = true) (hrows : c.rowIds = cl.rowIds ++ cr.rowIds)
    (htimelines : c.timelines = (cl.timelines.zip cr.timelines).filterMap
      fun ((name, lhs), (_, rhs)) => (lhs.concatenated rhs).map (name, ·))
    (hcomponents : c.components = cl.concatComponentsLeft cr ++ cl.concatComponentsRight cr) :
    c.Aligned := by
  refine ⟨?_, hcomponents ▸ concatComponents_nodup hl hr, fun entry he => ?_, fun column hm => ?_⟩
  · have hz : (cl.timelines.zip cr.timelines).map Prod.fst = cl.timelines :=
      List.map_fst_zip (length_timelines_eq hc).le
    have hsub := map_filterMap_sublist
      (fun pair : (TimelineName × TimeColumn) × TimelineName × TimeColumn =>
        (pair.1.2.concatenated pair.2.2).map (pair.1.1, ·))
      Prod.fst (fun pair => pair.1.1) (fun pair entry he => by
        obtain ⟨_, -, rfl⟩ := Option.map_eq_some_iff.mp he
        rfl) (cl.timelines.zip cr.timelines)
    rw [show (fun pair : (TimelineName × TimeColumn) × TimelineName × TimeColumn => pair.1.1) =
      Prod.fst ∘ Prod.fst from rfl, ← List.map_map, hz] at hsub
    exact hl.timelines_nodup.sublist (htimelines ▸ hsub)
  · rw [htimelines] at he
    obtain ⟨⟨lhs, rhs⟩, hm, hv⟩ := List.mem_filterMap.mp he
    obtain ⟨tc, ht, rfl⟩ := Option.map_eq_some_iff.mp hv
    obtain ⟨hml, hmr, -⟩ := mem_zip_timelines hc hm
    simp [(concatenated_times ht).2.2, numRows, hrows, hl.timeline lhs hml, hr.timeline rhs hmr]
  · rw [hcomponents] at hm
    rcases List.mem_append.mp hm with hm | hm
    · simpa [numRows, hrows] using mem_concatComponentsLeft hl hr hm
    · simpa [numRows, hrows] using (mem_concatComponentsRight hr hm).1

theorem isMerge_of_concatenated {cl cr c : Chunk} (hl : cl.WellFormed) (hr : cr.WellFormed)
    (hln : cl.rowIds ≠ []) (hrn : cr.rowIds ≠ []) (hc : cl.sameTimelines cr = true)
    (hsorted : c.isSorted = isSortedList c.rowIds) (hrows : c.rowIds = cl.rowIds ++ cr.rowIds)
    (hpath : c.entityPath = cl.entityPath)
    (htimelines : c.timelines = (cl.timelines.zip cr.timelines).filterMap
      fun ((name, lhs), (_, rhs)) => (lhs.concatenated rhs).map (name, ·))
    (hcomponents : c.components = cl.concatComponentsLeft cr ++ cl.concatComponentsRight cr) :
    IsMerge cl cr c := by
  obtain ⟨htn, hcn, hlen, hcells⟩ :=
    aligned_of_concatenated hl.aligned hr.aligned hc hrows htimelines hcomponents
  have htl : ∀ lhs ∈ cl.timelines, lhs.2.WellFormed ∧ lhs.2.times ≠ [] := fun lhs hm =>
    ⟨(hl.timeline lhs hm).1, fun h0 => hln (List.length_eq_zero_iff.mp
      ((hl.timeline lhs hm).2.symm.trans (congrArg List.length h0)))⟩
  have htr : ∀ rhs ∈ cr.timelines, rhs.2.WellFormed ∧ rhs.2.times ≠ [] := fun rhs hm =>
    ⟨(hr.timeline rhs hm).1, fun h0 => hrn (List.length_eq_zero_iff.mp
      ((hr.timeline rhs hm).2.symm.trans (congrArg List.length h0)))⟩
  refine ⟨⟨hsorted, htn, hcn, fun entry he => ⟨?_, hlen entry he⟩, hcells⟩, .of_eq hrows, hpath,
    ?_, ?_⟩
  · rw [htimelines] at he
    obtain ⟨⟨lhs, rhs⟩, hm, hv⟩ := List.mem_filterMap.mp he
    obtain ⟨tc, ht, rfl⟩ := Option.map_eq_some_iff.mp hv
    obtain ⟨hml, hmr, -⟩ := mem_zip_timelines hc hm
    exact TimeColumn.concatenated_wellFormed (htl lhs hml).1 (htr rhs hmr).1 (htl lhs hml).2
      (htr rhs hmr).2 ht
  · intro entry he
    obtain ⟨old, ho, rfl⟩ := List.mem_map.mp he
    rw [htimelines] at ho
    obtain ⟨⟨⟨name, lhs⟩, ⟨name', rhs⟩⟩, hm, hv⟩ := List.mem_filterMap.mp ho
    obtain ⟨tc, ht, rfl⟩ := Option.map_eq_some_iff.mp hv
    obtain ⟨hml, hmr, rfl⟩ := mem_zip_timelines hc hm
    obtain ⟨htypes, htimeline, -⟩ := concatenated_times ht
    have hl' := mem_columnTypes hml
    have hr' := mem_columnTypes hmr
    simp only [htimeline]
    exact ⟨hl', htypes ▸ hr'⟩
  · intro hs
    have hs := htimelines.symm.trans (List.isEmpty_iff.mp hs)
    cases hz : cl.timelines.zip cr.timelines with
    | nil =>
      have hlen := congrArg List.length hz
      rw [List.length_zip, length_timelines_eq hc, Nat.min_self] at hlen
      have hlen' := (length_timelines_eq hc).trans hlen
      exact .inl ⟨List.isEmpty_iff.mpr (List.length_eq_zero_iff.mp hlen'),
        List.isEmpty_iff.mpr (List.length_eq_zero_iff.mp hlen)⟩
    | cons pair rest =>
      obtain ⟨⟨name, lhs⟩, ⟨name', rhs⟩⟩ := pair
      have hm : ((name, lhs), (name', rhs)) ∈ cl.timelines.zip cr.timelines := by
        rw [hz]
        exact List.mem_cons_self
      obtain ⟨hml, hmr, rfl⟩ := mem_zip_timelines hc hm
      refine .inr ⟨name, lhs.timeline, rhs.timeline, mem_columnTypes hml, mem_columnTypes hmr,
        fun he => ?_⟩
      have := List.filterMap_eq_nil_iff.mp hs _ hm
      simp [TimeColumn.concatenated, he] at this

theorem concatenated_eq {cl cr : Chunk} (hl : cl.WellFormed) (hr : cr.WellFormed)
    (hln : cl.rowIds ≠ []) (hrn : cr.rowIds ≠ []) (hc : cl.concatenable cr = true)
    (newId : Nat → ChunkId) (n : Nat) :
    ∃ c, cl.concatenated newId n cr = .ok (c, n + 1) ∧ c.id = newId n ∧ IsMerge cl cr c := by
  obtain ⟨cl0, cl1, hlr, -, hl1⟩ := rowIdRange_eq hl hln
  obtain ⟨cr0, cr1, hrr, hr0, -⟩ := rowIdRange_eq hr hrn
  rw [concatenated, if_neg (by simpa using hc), hlr, hrr]
  simp only [concatenable, Bool.and_eq_true] at hc
  refine ⟨_, rfl, rfl, isMerge_of_concatenated hl hr hln hrn hc.1.2 ?_ rfl rfl rfl rfl⟩
  rw [hl.sorted, hr.sorted, isSortedList_append hl1 hr0]

theorem IsMerge.symm {cl cr c : Chunk} (hc : cl.entityPath = cr.entityPath)
    (h : IsMerge cl cr c) : IsMerge cr cl c where
  wellFormed := h.wellFormed
  rowIds := h.rowIds.trans List.perm_append_comm
  entityPath := h.entityPath.trans hc
  columnTypes entry he := (h.columnTypes entry he).symm
  isStatic hs := by
    rcases h.isStatic hs with hs | ⟨name, lhs, rhs, hl, hr, hne⟩
    · exact .inl hs.symm
    · exact .inr ⟨name, rhs, lhs, hr, hl, hne.symm⟩

-- ---------------------------------------------------------------------------
-- Sorting
-- ---------------------------------------------------------------------------

structure IsShuffle (c c' : Chunk) : Prop where
  wellFormed : c'.WellFormed
  rowIds : c'.rowIds.Perm c.rowIds
  entityPath : c'.entityPath = c.entityPath
  columnTypes : c'.columnTypes = c.columnTypes
  componentNames : c'.components.map (·.component) = c.components.map (·.component)

theorem IsShuffle.refl {c : Chunk} (h : c.WellFormed) : IsShuffle c c :=
  ⟨h, .refl _, rfl, rfl, rfl⟩

theorem isStatic_eq_of_columnTypes {c d : Chunk} (h : d.columnTypes = c.columnTypes) :
    d.isStatic = c.isStatic := by
  rw [Bool.eq_iff_iff, isStatic_iff, isStatic_iff, h]

theorem IsShuffle.isStatic_eq {c c' : Chunk} (h : IsShuffle c c') : c'.isStatic = c.isStatic :=
  isStatic_eq_of_columnTypes h.columnTypes

theorem shuffleWith_isShuffle {c : Chunk} (h : c.WellFormed) {swaps : List Nat}
    (hs : swaps.Perm (List.range c.numRows)) (id : ChunkId) :
    IsShuffle c (c.shuffleWith id swaps) where
  wellFormed := shuffleWith_wellFormed h hs id
  rowIds := shuffled_perm hs
  entityPath := rfl
  columnTypes := by
    rw [columnTypes, shuffleWith, List.map_map]
    rfl
  componentNames := by
    rw [shuffleWith, List.map_map]
    rfl

theorem IsMerge.shuffle {cl cr c c' : Chunk} (h : IsMerge cl cr c) (hs : IsShuffle c c') :
    IsMerge cl cr c' where
  wellFormed := hs.wellFormed
  rowIds := hs.rowIds.trans h.rowIds
  entityPath := hs.entityPath.trans h.entityPath
  columnTypes := hs.columnTypes ▸ h.columnTypes
  isStatic := by
    rw [isStatic_iff, hs.columnTypes, ← isStatic_iff]
    exact h.isStatic

def DrawnIn (newId : Nat → ChunkId) (n n' : Nat) (id : ChunkId) : Prop :=
  ∃ k, n ≤ k ∧ k < n' ∧ id = newId k

theorem sortIfUnsorted_spec {c : Chunk} (h : c.WellFormed) (newId : Nat → ChunkId) (n : Nat) :
    IsShuffle c (c.sortIfUnsorted newId n).1 ∧ (c.sortIfUnsorted newId n).1.isSorted = true ∧
      n ≤ (c.sortIfUnsorted newId n).2 ∧ ((c.sortIfUnsorted newId n).1.id = c.id ∨
        DrawnIn newId n (c.sortIfUnsorted newId n).2 (c.sortIfUnsorted newId n).1.id) := by
  unfold sortIfUnsorted
  split
  · rename_i hs
    exact ⟨.refl h, hs, le_rfl, .inl rfl⟩
  · exact ⟨shuffleWith_isShuffle h (argsort_perm _) _, isSortedList_shuffled_argsort _,
      Nat.le_add_right n 2, .inr ⟨n + 1, by omega, by omega, rfl⟩⟩

/-- Two chunks that may be compacted are compacted, under a new id. -/
theorem concatAndSort_spec {left right : Chunk} (hl : left.WellFormed) (hr : right.WellFormed)
    (hln : left.rowIds ≠ []) (hrn : right.rowIds ≠ []) (hc : right.concatenable left = true)
    (newId : Nat → ChunkId) (n : Nat) :
    ∃ c n', concatAndSort newId n left right = .ok (c, n') ∧ DrawnIn newId n n' c.id ∧
      c.isSorted = true ∧ IsMerge left right c := by
  have hc' := concatenable_comm hr hl hc
  have he : right.entityPath = left.entityPath := by
    simp only [concatenable, Bool.and_eq_true, sameEntityPaths, decide_eq_true_iff] at hc
    exact hc.1.1
  have key : ∃ c, (if rowIdMinLt left.rowIdMin right.rowIdMin then
      left.concatenated newId n right else right.concatenated newId n left) = .ok (c, n + 1) ∧
      c.id = newId n ∧ IsMerge left right c := by
    split
    · exact concatenated_eq hl hr hln hrn hc' newId n
    · obtain ⟨c, ho, hid, hm⟩ := concatenated_eq hr hl hrn hln hc newId n
      exact ⟨c, ho, hid, hm.symm he⟩
  obtain ⟨c, ho, hid, hm⟩ := key
  obtain ⟨hs, hsorted, hn, hid'⟩ := sortIfUnsorted_spec hm.wellFormed newId (n + 1)
  refine ⟨_, (c.sortIfUnsorted newId (n + 1)).2, ?_, ?_, hsorted, hm.shuffle hs⟩
  · unfold concatAndSort
    rw [ho]
    rfl
  · rcases hid' with hid' | ⟨k, hk, hk', hid'⟩
    · exact ⟨n, le_rfl, by omega, hid'.trans hid⟩
    · exact ⟨k, by omega, hk', hid'⟩

end DimosViewer.Chunk
