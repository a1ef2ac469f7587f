import Mathlib.Order.Bounds.Basic
import DimosViewer.Chunk.Derive
import DimosViewer.Query.RangeLaws

/-!
# Cached metadata stays truthful

Every operation hands the flags and ranges of its input on by a rule of its own. They keep telling
the truth, but for rows that are taken against their order.
-/

namespace DimosViewer

-- ---------------------------------------------------------------------------
-- Time columns
-- ---------------------------------------------------------------------------

namespace TimeColumn

/-- A column flagged as sorted is sorted, and the range is that of the times. -/
structure Truthful (tc : TimeColumn) : Prop where
  sorted : tc.isSorted = true → tc.times.Pairwise (· ≤ ·)
  least : tc.times ≠ [] → IsLeast {t | t ∈ tc.times} tc.timeRange.min
  greatest : tc.times ≠ [] → IsGreatest {t | t ∈ tc.times} tc.timeRange.max

structure Sound (tc : TimeColumn) : Prop extends Truthful tc where
  temporal : ∀ t ∈ tc.times, TimeInt.MIN ≤ t

theorem sound_new {b : Option Bool} {tl : Timeline} {times : List TimeInt}
    (hs : b = some true → times.Pairwise (· ≤ ·)) (ht : ∀ t ∈ times, TimeInt.MIN ≤ t) :
    (new b tl times).Sound := by
  have hp : b.getD (isSortedList times) = true → times.Pairwise (· ≤ ·) := by
    cases b with
    | none => exact isSortedList_iff.mp
    | some b => exact fun hb => hs (congrArg some hb)
  refine ⟨⟨hp, fun hn => ?_, fun hn => ?_⟩, ht⟩
  · obtain ⟨a, ha⟩ := exists_least (b.getD (isSortedList times)) hn
    obtain ⟨hmem, hle⟩ := least_mem hp ha
    have hmin : (new b tl times).timeRange.min = a := TimeInt.elim_newTemporal ha (ht a hmem)
    rw [hmin]
    exact ⟨hmem, hle⟩
  · obtain ⟨a, ha⟩ := exists_greatest (b.getD (isSortedList times)) hn
    obtain ⟨hmem, hle⟩ := greatest_mem hp ha
    have hmax : (new b tl times).timeRange.max = a := TimeInt.elim_newTemporal ha (ht a hmem)
    rw [hmax]
    exact ⟨hmem, hle⟩

theorem sound_emptied (tc : TimeColumn) : tc.emptied.Sound := sound_new (fun _ => .nil) (by simp)

theorem Sound.new_sublist {tc : TimeColumn} (h : tc.Sound) {times : List TimeInt}
    (hsub : times.Sublist tc.times) {b : Bool}
    (hb : b = true → tc.isSorted = true ∨ times.length < 2) :
    (new (if b then some true else none) tc.timeline times).Sound := by
  refine sound_new (fun hs => ?_) fun t ht => h.temporal t (hsub.subset ht)
  have hs : b = true := by
    cases b with
    | false => cases hs
    | true => rfl
  rcases hb hs with hs | hlt
  · exact (h.sorted hs).sublist hsub
  · exact pairwise_of_length_lt_two hlt

theorem Sound.rowSliced {tc : TimeColumn} (h : tc.Sound) (index len : Nat) :
    (tc.rowSliced index len).Sound := by
  dsimp only [TimeColumn.rowSliced]
  by_cases hi : tc.times.length ≤ index
  · rw [if_pos hi]
    exact tc.sound_emptied
  rw [if_neg hi]
  by_cases h0 : min (index + len) tc.times.length - index = 0
  · rw [if_pos h0]
    exact tc.sound_emptied
  rw [if_neg h0]
  refine h.new_sublist ((List.take_sublist _ _).trans (List.drop_sublist _ _)) fun hb => ?_
  refine (Bool.or_eq_true_iff.mp hb).imp_right fun hlt => ?_
  have hlt := of_decide_eq_true hlt
  simp only [List.length_take, List.length_drop]
  omega

theorem Sound.filtered {tc : TimeColumn} (h : tc.Sound) {mask : List Bool}
    (hlen : tc.times.length = mask.length) : (tc.filtered mask).Sound := by
  refine h.new_sublist (filterArray_sublist _ _) fun hb => ?_
  refine (Bool.or_eq_true_iff.mp hb).imp_right fun hlt => ?_
  rw [length_filterArray hlen]
  exact of_decide_eq_true hlt

theorem count_mask_le (filter : BooleanArray) :
    filter.mask.count true ≤ filter.values.count true := by
  induction filter with
  | nil => exact le_rfl
  | cons bit rest ih =>
    obtain ⟨value, valid⟩ := bit
    simp only [BooleanArray.mask, BooleanArray.values, List.map_cons, List.count_cons] at ih ⊢
    cases value <;> cases valid <;> simp <;> omega

theorem Sound.filteredNullable {tc : TimeColumn} (h : tc.Sound) {filter : BooleanArray}
    (hlen : tc.times.length = filter.length) : (tc.filteredNullable filter).Sound := by
  refine h.new_sublist (filterArray_sublist _ _) fun hb => ?_
  refine (Bool.or_eq_true_iff.mp hb).imp_right fun hlt => ?_
  rw [length_filterArray (by simpa [BooleanArray.mask] using hlen)]
  exact (count_mask_le filter).trans_lt (of_decide_eq_true hlt)

theorem Sound.reordered {tc : TimeColumn} (h : tc.Sound) {times : List TimeInt}
    (hp : times.Perm tc.times) :
    ({ tc with times, isSorted := isSortedList times } : TimeColumn).Sound := by
  have hset : {t | t ∈ times} = {t | t ∈ tc.times} := Set.ext fun _ => hp.mem_iff
  have hne : times ≠ [] → tc.times ≠ [] := fun hn h0 => hn (h0 ▸ hp).eq_nil
  refine ⟨⟨isSortedList_iff.mp, fun hn => ?_, fun hn => ?_⟩,
    fun t ht => h.temporal t (hp.subset ht)⟩
  · exact hset ▸ h.least (hne hn)
  · exact hset ▸ h.greatest (hne hn)

theorem Sound.concatenated {lhs rhs tc : TimeColumn} (hl : lhs.Sound) (hr : rhs.Sound)
    (hln : lhs.times ≠ []) (hrn : rhs.times ≠ []) (h : lhs.concatenated rhs = some tc) :
    tc.Sound := by
  unfold TimeColumn.concatenated at h
  split at h
  · cases h
  cases h
  have hset : {t | t ∈ lhs.times ++ rhs.times} = {t | t ∈ lhs.times} ∪ {t | t ∈ rhs.times} :=
    Set.ext fun t => List.mem_append
  refine ⟨⟨fun hs => ?_, fun _ => ?_, fun _ => ?_⟩, fun t ht => ?_⟩
  · simp only [Bool.and_eq_true, decide_eq_true_eq] at hs
    obtain ⟨⟨hsl, hsr⟩, hle⟩ := hs
    refine List.pairwise_append.mpr ⟨hl.sorted hsl, hr.sorted hsr, fun a ha b hb => ?_⟩
    exact (((hl.greatest hln).2 ha).trans hle).trans ((hr.least hrn).2 hb)
  · simp only [hset]
    exact (hl.least hln).union (hr.least hrn)
  · simp only [hset]
    exact (hl.greatest hln).union (hr.greatest hrn)
  · exact (List.mem_append.mp ht).elim (hl.temporal t) (hr.temporal t)

end TimeColumn

-- ---------------------------------------------------------------------------
-- Rows by their indices
-- ---------------------------------------------------------------------------

theorem pairwise_shuffled_iff {r : α → α → Prop} {indices : List Nat} {l : List α}
    (hi : ∀ i ∈ indices, i < l.length) :
    (shuffled indices l).Pairwise r ↔
      indices.Pairwise fun i j => ∀ a ∈ l[i]?, ∀ b ∈ l[j]?, r a b := by
  induction indices with
  | nil => simp [shuffled]
  | cons i rest ih =>
    obtain ⟨hlt, hrest⟩ := List.forall_mem_cons.mp hi
    have ih := ih hrest
    rw [shuffled] at ih
    rw [shuffled, List.filterMap_cons, List.getElem?_eq_getElem hlt, List.pairwise_cons,
      List.pairwise_cons, ih]
    refine and_congr_left' ⟨fun h j hj a ha b hb => ?_, fun h b hb => ?_⟩
    · have ha : l[i] = a := Option.some.inj ((List.getElem?_eq_getElem hlt).symm.trans ha)
      exact ha ▸ h b (List.mem_filterMap.mpr ⟨j, hj, hb⟩)
    · obtain ⟨j, hj, hb⟩ := List.mem_filterMap.mp hb
      exact h j hj _ (List.getElem?_eq_getElem hlt) b hb

theorem pairwise_le_shuffled_iff [LinearOrder α] {indices : List Nat} {l : List α}
    (hl : l.Pairwise (· ≤ ·)) (hi : ∀ i ∈ indices, i < l.length) :
    (shuffled indices l).Pairwise (· ≤ ·) ↔ indices.Pairwise fun i j => i ≤ j ∨ l[i]? = l[j]? := by
  rw [pairwise_shuffled_iff hi]
  refine List.Pairwise.iff_of_mem fun {i j} hi' hj' => ?_
  have hlt := hi i hi'
  have hlt' := hi j hj'
  simp only [List.getElem?_eq_getElem hlt, List.getElem?_eq_getElem hlt', Option.mem_def,
    Option.some.injEq, forall_eq']
  constructor
  · intro hle
    refine (le_or_gt i j).imp_right fun hgt => ?_
    exact le_antisymm hle (List.pairwise_iff_getElem.mp hl j i hlt' hlt hgt)
  · rintro (hle | heq)
    · rcases hle.eq_or_lt with rfl | hlt''
      · exact le_rfl
      · exact List.pairwise_iff_getElem.mp hl i j hlt hlt' hlt''
    · exact heq.le

theorem runEnds_pairwise (runs : List (Nat × α)) (i : Nat) (h : ∀ run ∈ runs, 0 < run.1) :
    (runEnds i runs).Pairwise (· ≤ ·) ∧
      ∀ k ∈ runEnds i runs, i ≤ k ∧ k < i + (runs.map Prod.fst).sum := by
  induction runs generalizing i with
  | nil => exact ⟨.nil, by simp [runEnds]⟩
  | cons run rest ih =>
    obtain ⟨count, x⟩ := run
    obtain ⟨hpos, hrest⟩ := List.forall_mem_cons.mp h
    obtain ⟨hup, hbounds⟩ := ih (i + count) hrest
    refine ⟨List.pairwise_cons.mpr ⟨fun k hk => ?_, hup⟩, fun k hk => ?_⟩
    · have := (hbounds k hk).1
      omega
    · simp only [List.map_cons, List.sum_cons]
      rcases List.mem_cons.mp hk with rfl | hk
      · simp only at hpos
        omega
      · have := hbounds k hk
        omega

theorem dedupWithCount_counts [DecidableEq α] (l : List α) :
    (∀ run ∈ dedupWithCount l, 0 < run.1) ∧ ((dedupWithCount l).map Prod.fst).sum = l.length := by
  induction l with
  | nil => exact ⟨by simp [dedupWithCount], rfl⟩
  | cons x rest ih =>
    rw [dedupWithCount]
    cases hrest : dedupWithCount rest with
    | nil =>
      rw [hrest] at ih
      simp only [List.map_nil, List.sum_nil] at ih
      simp [← ih.2]
    | cons run runs =>
      obtain ⟨count, y⟩ := run
      rw [hrest] at ih
      obtain ⟨hpos, hsum⟩ := ih
      obtain ⟨hcount, hruns⟩ := List.forall_mem_cons.mp hpos
      simp only [List.map_cons, List.sum_cons] at hsum
      dsimp only
      split
      · refine ⟨List.forall_mem_cons.mpr ⟨Nat.succ_pos _, hruns⟩, ?_⟩
        simp only [List.map_cons, List.sum_cons, List.length_cons]
        omega
      · refine ⟨List.forall_mem_cons.mpr ⟨Nat.one_pos, hpos⟩, ?_⟩
        simp only [List.map_cons, List.sum_cons, List.length_cons]
        omega

namespace Chunk

-- ---------------------------------------------------------------------------
-- Truthful chunks
-- ---------------------------------------------------------------------------

structure Truthful (c : Chunk) : Prop where
  sorted : c.isSorted = true → c.rowIds.Pairwise (· ≤ ·)
  column : ∀ entry ∈ c.timelines, entry.2.Truthful

structure Sound (c : Chunk) : Prop extends Aligned c where
  sorted : c.isSorted = true → c.rowIds.Pairwise (· ≤ ·)
  column : ∀ entry ∈ c.timelines, entry.2.Sound

theorem Sound.truthful {c : Chunk} (h : c.Sound) : c.Truthful :=
  ⟨h.sorted, fun entry he => (h.column entry he).toTruthful⟩

/-- Two rows that no flag puts in order. -/
def TiedRows (c : Chunk) (i j : Nat) : Prop :=
  (c.isSorted = true → c.rowIds[i]? = c.rowIds[j]?) ∧
    ∀ entry ∈ c.timelines, entry.2.isSorted = true → entry.2.times[i]? = entry.2.times[j]?

/-- The indices go up, but for rows that are tied. -/
def StepsUp (c : Chunk) (indices : List Nat) : Prop :=
  indices.Pairwise fun i j => i ≤ j ∨ c.TiedRows i j

theorem stepsUp_of_pairwise {c : Chunk} {indices : List Nat} (h : indices.Pairwise (· ≤ ·)) :
    c.StepsUp indices := h.imp .inl

/-- The flags are right about rows taken at indices exactly if the indices step up. -/
theorem stepsUp_iff {c : Chunk} (h : c.Sound) {indices : List Nat}
    (hi : ∀ i ∈ indices, i < c.numRows) : c.StepsUp indices ↔
      (c.isSorted = true → (shuffled indices c.rowIds).Pairwise (· ≤ ·)) ∧
      ∀ entry ∈ c.timelines, entry.2.isSorted = true →
        (shuffled indices entry.2.times).Pairwise (· ≤ ·) := by
  have hcolumn : ∀ entry ∈ c.timelines, ∀ i ∈ indices, i < entry.2.times.length :=
    fun entry he i hm => (h.timeline entry he).symm ▸ hi i hm
  constructor
  · intro hup
    refine ⟨fun hs => ?_, fun entry he hs => ?_⟩
    · exact (pairwise_le_shuffled_iff (h.sorted hs) hi).mpr
        (hup.imp fun hij => hij.imp_right fun ht => ht.1 hs)
    · exact (pairwise_le_shuffled_iff ((h.column entry he).sorted hs) (hcolumn entry he)).mpr
        (hup.imp fun hij => hij.imp_right fun ht => ht.2 entry he hs)
  · rintro ⟨hrows, htimes⟩
    refine List.pairwise_iff_getElem.mpr fun p q hp hq hpq => ?_
    refine (le_or_gt indices[p] indices[q]).imp_right fun hgt => ⟨fun hs => ?_, fun entry he hs => ?_⟩
    · have hpairs := (pairwise_le_shuffled_iff (h.sorted hs) hi).mp (hrows hs)
      exact (List.pairwise_iff_getElem.mp hpairs p q hp hq hpq).resolve_left hgt.not_ge
    · have hpairs := (pairwise_le_shuffled_iff ((h.column entry he).sorted hs)
        (hcolumn entry he)).mp (htimes entry he hs)
      exact (List.pairwise_iff_getElem.mp hpairs p q hp hq hpq).resolve_left hgt.not_ge

-- ---------------------------------------------------------------------------
-- Rows
-- ---------------------------------------------------------------------------

theorem Sound.mapColumns {c : Chunk} (h : c.Sound) (id : ChunkId) {b : Bool} {rowIds : List RowId}
    {f : TimeColumn → TimeColumn} {g : SerializedComponentColumn → SerializedComponentColumn}
    (hb : b = true → rowIds.Pairwise (· ≤ ·))
    (hf : ∀ entry ∈ c.timelines, (f entry.2).Sound ∧ (f entry.2).times.length = rowIds.length)
    (hg : ∀ column ∈ c.components, (g column).component = column.component ∧
      (g column).listArray.length = rowIds.length) :
    (c.mapColumns id b rowIds f g).Sound where
  timelines_nodup := by simpa [Chunk.mapColumns, Function.comp_def] using h.timelines_nodup
  components_nodup := by
    have hnames : (c.components.map g).map (·.component) = c.components.map (·.component) := by
      rw [List.map_map]
      exact List.map_congr_left fun column hc => (hg column hc).1
    exact hnames ▸ h.components_nodup
  timeline entry he := by
    obtain ⟨old, ho, rfl⟩ := List.mem_map.mp he
    exact (hf old ho).2
  component column hc := by
    obtain ⟨old, ho, rfl⟩ := List.mem_map.mp hc
    exact (hg old ho).2
  sorted := hb
  column entry he := by
    obtain ⟨old, ho, rfl⟩ := List.mem_map.mp he
    exact (hf old ho).1

theorem Sound.emptied {c : Chunk} (h : c.Sound) (id : ChunkId) : (c.emptied id).Sound := by
  have heq : c.emptied id = c.mapColumns id true [] (·.emptied)
      (fun column => { column with listArray := [] }) := rfl
  rw [heq]
  exact h.mapColumns id (fun _ => .nil) (fun entry _ => ⟨entry.2.sound_emptied, rfl⟩)
    fun _ _ => ⟨rfl, rfl⟩

theorem Sound.rowSliced {c : Chunk} (h : c.Sound) (id : ChunkId) (index len : Nat) :
    (c.rowSliced id index len).Sound := by
  dsimp only [Chunk.rowSliced]
  by_cases hi : c.numRows ≤ index
  · rw [if_pos hi]
    exact h.emptied id
  rw [if_neg hi]
  generalize hlen : min (index + len) c.numRows - index = len'
  by_cases h0 : len' = 0
  · rw [if_pos h0]
    exact h.emptied id
  rw [if_neg h0]
  have hsub : ((c.rowIds.drop index).take len').Sublist c.rowIds :=
    (List.take_sublist _ _).trans (List.drop_sublist _ _)
  refine h.mapColumns id (f := (·.rowSliced index len')) (g := (·.rowSliced index len'))
    (fun hb => ?_) (fun entry he => ⟨(h.column entry he).rowSliced index len', ?_⟩)
    fun column hc => ⟨rfl, ?_⟩
  · rcases Bool.or_eq_true_iff.mp hb with hb | hs
    · rcases Bool.or_eq_true_iff.mp hb with hs | hlt
      · exact (h.sorted hs).sublist hsub
      · refine pairwise_of_length_lt_two ?_
        exact (List.length_take_le _ _).trans_lt (of_decide_eq_true hlt)
    · exact isSortedList_iff.mp hs
  · rw [TimeColumn.rowSliced_times]
    simp [h.timeline entry he, numRows]
  · simp [SerializedComponentColumn.rowSliced, h.component column hc, numRows]

theorem Sound.densified {c : Chunk} (h : c.Sound) (id : ChunkId) (component : ComponentIdentifier) :
    (c.densified id component).1.Sound := by
  rw [densified_eq]
  cases hm : c.densityMask component with
  | none => exact h
  | some mask =>
    have hlen : mask.length = c.numRows := Chunk.length_densityMask h.component hm
    have hrows : (filterArray mask c.rowIds).length = mask.count true :=
      length_filterArray hlen.symm
    refine h.mapColumns id (fun hb => ?_)
      (fun entry he => ⟨(h.column entry he).filtered ((h.timeline entry he).trans hlen.symm), ?_⟩)
      fun column hc => ⟨rfl, ?_⟩
    · rcases Bool.or_eq_true_iff.mp hb with hb | hs
      · rcases Bool.or_eq_true_iff.mp hb with hs | hlt
        · exact (h.sorted hs).sublist (filterArray_sublist _ _)
        · exact pairwise_of_length_lt_two (hrows ▸ of_decide_eq_true hlt)
      · exact isSortedList_iff.mp hs
    · rw [TimeColumn.filtered_times, length_filterArray ((h.timeline entry he).trans hlen.symm),
        hrows]
    · exact (length_filterArray ((h.component column hc).trans hlen.symm)).trans hrows.symm

theorem Sound.filtered {c d : Chunk} (h : c.Sound) {id : ChunkId} {filter : BooleanArray}
    (hd : c.filtered id filter = some d) : d.Sound := by
  rw [Chunk.filtered] at hd
  split at hd
  · cases hd
  rename_i hlen
  have hlen : filter.length = c.numRows := not_not.mp hlen
  split at hd
  · exact Option.some.inj hd ▸ h
  dsimp only at hd
  split at hd
  · exact Option.some.inj hd ▸ h.emptied id
  obtain rfl := Option.some.inj hd
  have hmask : filter.mask.length = c.numRows := by simpa [BooleanArray.mask] using hlen
  have hrows : (filterArray filter.mask c.rowIds).length = filter.mask.count true :=
    length_filterArray hmask.symm
  refine h.mapColumns id (f := (·.filteredNullable filter)) (g := (·.filtered filter.mask))
    (fun hb => ?_)
    (fun entry he =>
      ⟨(h.column entry he).filteredNullable ((h.timeline entry he).trans hlen.symm), ?_⟩)
    fun column hc => ⟨rfl, ?_⟩
  · rcases Bool.or_eq_true_iff.mp hb with hb | hs
    · rcases Bool.or_eq_true_iff.mp hb with hs | hlt
      · exact (h.sorted hs).sublist (filterArray_sublist _ _)
      · refine pairwise_of_length_lt_two ?_
        rw [hrows]
        exact (TimeColumn.count_mask_le filter).trans_lt (of_decide_eq_true hlt)
    · exact isSortedList_iff.mp hs
  · rw [hrows]
    exact length_filterArray ((h.timeline entry he).trans hmask.symm)
  · rw [hrows]
    exact length_filterArray ((h.component column hc).trans hmask.symm)

theorem Sound.takeRows {c : Chunk} (h : c.Sound) (id : ChunkId) {indices : List Nat}
    (hi : ∀ i ∈ indices, i < c.numRows) (hup : c.StepsUp indices) {b : Bool}
    (hb : b = true → c.isSorted = true ∨ (shuffled indices c.rowIds).Pairwise (· ≤ ·)) :
    (c.mapColumns id b (shuffled indices c.rowIds) (·.taken indices)
      fun column => { column with listArray := shuffled indices column.listArray }).Sound := by
  obtain ⟨hrows, htimes⟩ := (stepsUp_iff h hi).mp hup
  have hlen : (shuffled indices c.rowIds).length = indices.length := length_shuffled hi
  refine h.mapColumns id (fun hs => (hb hs).elim hrows fun hp => hp) (fun entry he => ?_)
    fun column hc => ⟨rfl, ?_⟩
  · have hcolumn : ∀ i ∈ indices, i < entry.2.times.length :=
      fun i hm => (h.timeline entry he).symm ▸ hi i hm
    refine ⟨TimeColumn.sound_new (fun hs => htimes entry he (Option.some.inj hs)) fun t ht => ?_,
      (length_shuffled hcolumn).trans hlen.symm⟩
    obtain ⟨i, -, hget⟩ := List.mem_filterMap.mp ht
    exact (h.column entry he).temporal t (List.mem_of_getElem? hget)
  · exact (length_shuffled fun i hm => (h.component column hc).symm ▸ hi i hm).trans hlen.symm

theorem Sound.taken {c : Chunk} (h : c.Sound) (id : ChunkId) {indices : List Nat}
    (hi : ∀ i ∈ indices, i < c.numRows) (hup : c.StepsUp indices) : (c.taken id indices).Sound := by
  rw [Chunk.taken]
  split
  · exact h
  split
  · exact h.emptied id
  refine h.takeRows id hi hup fun hb => ?_
  rcases Bool.or_eq_true_iff.mp hb with hb | hs
  · refine (Bool.or_eq_true_iff.mp hb).imp_right fun hlt => ?_
    exact pairwise_of_length_lt_two ((length_shuffled hi).symm ▸ of_decide_eq_true hlt)
  · exact .inr (isSortedList_iff.mp hs)

/-- The flags of rows taken at indices are right only if the indices step up. -/
theorem truthful_taken_iff {c : Chunk} (h : c.Sound) (id : ChunkId) {indices : List Nat}
    (hi : ∀ i ∈ indices, i < c.numRows) :
    (c.taken id indices).Truthful ↔ c.StepsUp indices := by
  refine ⟨fun ht => ?_, fun hup => (h.taken id hi hup).truthful⟩
  cases indices with
  | nil => exact .nil
  | cons i rest =>
    have hne : ¬ c.isEmpty = true := by
      have hlt := hi i List.mem_cons_self
      simpa [isEmpty] using List.ne_nil_of_length_pos (Nat.zero_lt_of_lt hlt)
    rw [Chunk.taken, if_neg hne, if_neg (by simp)] at ht
    refine (stepsUp_iff h hi).mpr ⟨fun hs => ht.sorted (by simp [hs]), fun entry he hs => ?_⟩
    exact (ht.column _ (List.mem_map_of_mem he)).sorted hs

theorem Sound.dedupedLatestOnIndex {c : Chunk} (h : c.Sound) (id : ChunkId)
    (index : TimelineName) : (c.dedupedLatestOnIndex id index).Sound := by
  rw [Chunk.dedupedLatestOnIndex]
  split
  · exact h
  split
  · exact h.rowSliced id _ _
  cases htc : c.timeline? index with
  | none => exact h
  | some tc =>
    obtain ⟨hpos, hsum⟩ := dedupWithCount_counts tc.times
    obtain ⟨hup, hbounds⟩ := runEnds_pairwise (dedupWithCount tc.times) 0 hpos
    refine h.takeRows id (fun i hi => ?_) (stepsUp_of_pairwise hup) .inl
    have hlt := (hbounds i hi).2
    rwa [hsum, Nat.zero_add, h.length_times htc] at hlt

theorem Sound.shuffleWith {c : Chunk} (h : c.Sound) {swaps : List Nat}
    (hs : swaps.Perm (List.range c.numRows)) (id : ChunkId) : (c.shuffleWith id swaps).Sound := by
  have hperm : ∀ {α : Type} {l : List α}, l.length = c.numRows → (shuffled swaps l).Perm l :=
    fun hl => shuffled_perm (hl ▸ hs)
  have hrows : (shuffled swaps c.rowIds).length = c.numRows := (hperm rfl).length_eq
  refine h.mapColumns id
    (f := fun tc => { tc with
      times := shuffled swaps tc.times, isSorted := isSortedList (shuffled swaps tc.times) })
    (g := fun column => { column with listArray := shuffled swaps column.listArray })
    isSortedList_iff.mp (fun entry he => ?_) fun column hc => ⟨rfl, ?_⟩
  · have hp := hperm (h.timeline entry he)
    exact ⟨(h.column entry he).reordered hp,
      (hp.length_eq.trans (h.timeline entry he)).trans hrows.symm⟩
  · exact ((hperm (h.component column hc)).length_eq.trans (h.component column hc)).trans hrows.symm

theorem Sound.sortIfUnsorted {c : Chunk} (h : c.Sound) (newId : Nat → ChunkId) (n : Nat) :
    (c.sortIfUnsorted newId n).1.Sound := by
  rw [Chunk.sortIfUnsorted]
  split
  · exact h
  · exact h.shuffleWith (argsort_perm _) _

theorem Sound.sortedByTimelineIfUnsorted {c : Chunk} (h : c.Sound) (newId : Nat → ChunkId) (n : Nat)
    (timeline : TimelineName) : (c.sortedByTimelineIfUnsorted newId n timeline).1.Sound := by
  rw [Chunk.sortedByTimelineIfUnsorted]
  cases htc : c.timeline? timeline with
  | none => exact h
  | some tc =>
    dsimp only
    split
    · exact h
    refine h.shuffleWith ((argsort_perm _).trans (.of_eq ?_)) _
    rw [List.length_zipWith, h.length_times htc, numRows, Nat.min_self]

-- ---------------------------------------------------------------------------
-- Columns
-- ---------------------------------------------------------------------------

theorem Sound.of_columns {c d : Chunk} (h : c.Sound) (hs : d.isSorted = c.isSorted)
    (hrows : d.rowIds = c.rowIds) (htn : (d.timelines.map Prod.fst).Nodup)
    (hcn : (d.components.map (·.component)).Nodup) (ht : ∀ entry ∈ d.timelines, entry ∈ c.timelines)
    (hc : ∀ column ∈ d.components, column ∈ c.components) : d.Sound where
  timelines_nodup := htn
  components_nodup := hcn
  timeline entry he := by rw [numRows, hrows]; exact h.timeline entry (ht entry he)
  component column hm := by rw [numRows, hrows]; exact h.component column (hc column hm)
  sorted hb := by rw [hrows]; exact h.sorted (hs ▸ hb)
  column entry he := h.column entry (ht entry he)

theorem Sound.timelineSliced {c : Chunk} (h : c.Sound) (id : ChunkId) (timeline : TimelineName) :
    (c.timelineSliced id timeline).Sound := by
  refine h.of_columns rfl rfl ?_ h.components_nodup (fun entry he => ?_) fun _ hc => hc
  · simp only [Chunk.timelineSliced]
    cases c.timeline? timeline <;> simp
  · obtain ⟨tc, htc, rfl⟩ := Option.map_eq_some_iff.mp (Option.mem_toList.mp he)
    exact (OrdMap.lookup_eq_some_iff_mem h.timelines_nodup).mp htc

theorem Sound.timelinesSliced {c : Chunk} (h : c.Sound) (id : ChunkId)
    (timelinesToKeep : List TimelineName) : (c.timelinesSliced id timelinesToKeep).Sound :=
  h.of_columns rfl rfl (h.timelines_nodup.sublist (List.filter_sublist.map Prod.fst))
    h.components_nodup (fun _ he => List.mem_of_mem_filter he) fun _ hc => hc

theorem Sound.componentSliced {c : Chunk} (h : c.Sound) (id : ChunkId)
    (component : ComponentIdentifier) : (c.componentSliced id component).Sound := by
  refine h.of_columns rfl rfl h.timelines_nodup ?_ (fun _ he => he) fun column hc => ?_
  · simp only [Chunk.componentSliced]
    cases c.components.get component <;> simp
  · exact (component_of_get (Option.mem_toList.mp hc)).1

theorem Sound.componentsSliced {c : Chunk} (h : c.Sound) (id : ChunkId)
    {componentsToKeep : List ComponentIdentifier} (hk : componentsToKeep.Nodup) :
    (c.componentsSliced id componentsToKeep).Sound := by
  refine h.of_columns rfl rfl h.timelines_nodup ?_ (fun _ he => he) fun column hc => ?_
  · have hsub : ((componentsToKeep.filterMap c.components.get).map (·.component)).Sublist
        (componentsToKeep.map fun component => component) :=
      map_filterMap_sublist _ _ _ (fun _ _ hget => (component_of_get hget).2) _
    rw [List.map_id'] at hsub
    exact hk.sublist hsub
  · obtain ⟨component, -, hget⟩ := List.mem_filterMap.mp hc
    exact (component_of_get hget).1

theorem Sound.componentsDropped {c : Chunk} (h : c.Sound) (id : ChunkId)
    (componentsToDrop : List ComponentIdentifier) :
    (c.componentsDropped id componentsToDrop).Sound := by
  rw [Chunk.componentsDropped]
  split
  · exact h
  · exact h.of_columns rfl rfl h.timelines_nodup
      (h.components_nodup.sublist (List.filter_sublist.map _)) (fun _ he => he)
      fun _ hc => List.mem_of_mem_filter hc

-- ---------------------------------------------------------------------------
-- New chunks and concatenations
-- ---------------------------------------------------------------------------

theorem sanityCheck_eq_ok {c : Chunk} : c.sanityCheck = .ok () ↔
    (∀ entry ∈ c.timelines, entry.2.times.length = c.numRows) ∧
      ∀ column ∈ c.components, column.listArray.length = c.numRows := by
  rw [sanityCheck]
  split
  · rename_i h
    simpa [numRows] using h
  · rename_i h
    simpa [numRows] using h

theorem new_eq_ok {id : ChunkId} {entityPath : EntityPath} {isSorted : Option Bool}
    {rowIds : List RowId} {timelines : List (TimelineName × TimeColumn)}
    {components : ChunkComponents} {c : Chunk}
    (h : new id entityPath isSorted rowIds timelines components = .ok c) :
    c.isSorted = isSorted.getD (isSortedList rowIds) ∧ c.rowIds = rowIds ∧
      c.timelines = timelines ∧ c.components = components ∧ c.sanityCheck = .ok () := by
  unfold new at h
  simp only [bind, Except.bind] at h
  split at h
  · cases h
  · rename_i hok
    obtain rfl := Except.ok.inj h
    exact ⟨rfl, rfl, rfl, rfl, hok⟩

theorem sound_new {id : ChunkId} {entityPath : EntityPath} {rowIds : List RowId}
    {timelines : List (TimelineName × TimeColumn)} {components : ChunkComponents} {c : Chunk}
    (htn : (timelines.map Prod.fst).Nodup) (hcn : (components.map (·.component)).Nodup)
    (ht : ∀ entry ∈ timelines, entry.2.Sound)
    (hc : new id entityPath none rowIds timelines components = .ok c) : c.Sound := by
  obtain ⟨hs, rfl, rfl, rfl, hok⟩ := new_eq_ok hc
  obtain ⟨hlen, hcells⟩ := sanityCheck_eq_ok.mp hok
  exact ⟨⟨htn, hcn, hlen, hcells⟩, fun hb => isSortedList_iff.mp (hs.symm.trans hb), ht⟩

theorem Sound.concatenated {cl cr c : Chunk} (hl : cl.Sound) (hr : cr.Sound)
    {newId : Nat → ChunkId} {n n' : Nat} (h : cl.concatenated newId n cr = .ok (c, n')) :
    c.Sound := by
  rw [Chunk.concatenated] at h
  split at h
  · cases h
  rename_i hc
  have hnames := (concatenable_iff.mp (not_not.mp hc)).2.1
  by_cases hln : cl.rowIds = []
  · have hnone : cl.rowIdRange = none := by simp [rowIdRange, hln]
    rw [hnone] at h
    exact (Prod.mk.inj (Except.ok.inj h)).1 ▸ hr
  obtain ⟨cl0, cl1, hrl, -, hl1⟩ := rowIdRange_eq_of_sorted hl.sorted hln
  by_cases hrn : cr.rowIds = []
  · have hnone : cr.rowIdRange = none := by simp [rowIdRange, hrn]
    rw [hrl, hnone] at h
    exact (Prod.mk.inj (Except.ok.inj h)).1 ▸ hl
  obtain ⟨cr0, cr1, hrr, hr0, -⟩ := rowIdRange_eq_of_sorted hr.sorted hrn
  rw [hrl, hrr] at h
  obtain ⟨rfl, -⟩ := Prod.mk.inj (Except.ok.inj h)
  refine ⟨aligned_of_concatenated hl.toAligned hr.toAligned hnames rfl rfl rfl, fun hs => ?_,
    fun entry he => ?_⟩
  · simp only [Bool.and_eq_true, decide_eq_true_eq] at hs
    obtain ⟨⟨hsl, hsr⟩, hle⟩ := hs
    refine List.pairwise_append.mpr ⟨hl.sorted hsl, hr.sorted hsr, fun a ha b hb => ?_⟩
    exact ((hl1.2 a ha).trans hle).trans (hr0.2 b hb)
  · obtain ⟨⟨lhs, rhs⟩, hm, hv⟩ := List.mem_filterMap.mp he
    obtain ⟨tc, ht, rfl⟩ := Option.map_eq_some_iff.mp hv
    obtain ⟨hml, hmr, -⟩ := mem_zip_timelines hnames hm
    have hne : ∀ {d : Chunk} {entry : TimelineName × TimeColumn}, d.Aligned → d.rowIds ≠ [] →
        entry ∈ d.timelines → entry.2.times ≠ [] := fun hd hn he h0 =>
      hn (List.length_eq_zero_iff.mp ((hd.timeline _ he).symm.trans (congrArg List.length h0)))
    exact (hl.column lhs hml).concatenated (hr.column rhs hmr) (hne hl.toAligned hln hml)
      (hne hr.toAligned hrn hmr) ht

-- ---------------------------------------------------------------------------
-- All chunks
-- ---------------------------------------------------------------------------

/-- The chunks that come about from new ones, whose flags are computed. A hash map of components
has each of them once, and no time is static. `allowed` tells which rows may be taken. -/
inductive Derived (allowed : Chunk → List Nat → Prop) : Chunk → Prop
  | new {id entityPath rowIds components c} (columns : List (TimelineName × Timeline × List TimeInt)) :
    (columns.map Prod.fst).Nodup → (components.map (·.component)).Nodup →
    (∀ column ∈ columns, ∀ t ∈ column.2.2, TimeInt.MIN ≤ t) →
    new id entityPath none rowIds
      (columns.map fun column => (column.1, .new none column.2.1 column.2.2)) components = .ok c →
    Derived allowed c
  | rowSliced {c} (id index len) : Derived allowed c → Derived allowed (c.rowSliced id index len)
  | timelineSliced {c} (id timeline) :
    Derived allowed c → Derived allowed (c.timelineSliced id timeline)
  | timelinesSliced {c} (id timelinesToKeep) :
    Derived allowed c → Derived allowed (c.timelinesSliced id timelinesToKeep)
  | componentSliced {c} (id component) :
    Derived allowed c → Derived allowed (c.componentSliced id component)
  | componentsSliced {c} (id) (componentsToKeep : List ComponentIdentifier) :
    Derived allowed c → Derived allowed (c.componentsSliced id componentsToKeep.dedup)
  | componentsDropped {c} (id componentsToDrop) :
    Derived allowed c → Derived allowed (c.componentsDropped id componentsToDrop)
  | densified {c} (id componentPov) :
    Derived allowed c → Derived allowed (c.densified id componentPov).1
  | filtered {c d} (id filter) :
    Derived allowed c → c.filtered id filter = some d → Derived allowed d
  | taken {c} (id indices) : Derived allowed c → (∀ i ∈ indices, i < c.numRows) →
    allowed c indices → Derived allowed (c.taken id indices)
  | dedupedLatestOnIndex {c} (id index) :
    Derived allowed c → Derived allowed (c.dedupedLatestOnIndex id index)
  | sortIfUnsorted {c} (newId n) : Derived allowed c → Derived allowed (c.sortIfUnsorted newId n).1
  | sortedByTimelineIfUnsorted {c} (newId n timeline) :
    Derived allowed c → Derived allowed (c.sortedByTimelineIfUnsorted newId n timeline).1
  | concatenated {cl cr c newId n n'} : Derived allowed cl → Derived allowed cr →
    cl.concatenated newId n cr = .ok (c, n') → Derived allowed c

theorem Derived.sound {c : Chunk} (h : Derived StepsUp c) : c.Sound := by
  induction h with
  | new columns htn hcn ht hc =>
    refine sound_new (by simpa [Function.comp_def] using htn) hcn (fun entry he => ?_) hc
    obtain ⟨column, hm, rfl⟩ := List.mem_map.mp he
    exact TimeColumn.sound_new (fun hs => by cases hs) (ht column hm)
  | rowSliced id index len _ ih => exact ih.rowSliced id index len
  | timelineSliced id timeline _ ih => exact ih.timelineSliced id timeline
  | timelinesSliced id timelinesToKeep _ ih => exact ih.timelinesSliced id timelinesToKeep
  | componentSliced id component _ ih => exact ih.componentSliced id component
  | componentsSliced id componentsToKeep _ ih =>
    exact ih.componentsSliced id componentsToKeep.nodup_dedup
  | componentsDropped id componentsToDrop _ ih => exact ih.componentsDropped id componentsToDrop
  | densified id componentPov _ ih => exact ih.densified id componentPov
  | filtered id filter _ hd ih => exact ih.filtered hd
  | taken id indices _ hi hup ih => exact ih.taken id hi hup
  | dedupedLatestOnIndex id index _ ih => exact ih.dedupedLatestOnIndex id index
  | sortIfUnsorted newId n _ ih => exact ih.sortIfUnsorted newId n
  | sortedByTimelineIfUnsorted newId n timeline _ ih =>
    exact ih.sortedByTimelineIfUnsorted newId n timeline
  | concatenated _ _ hc ihl ihr => exact ihl.concatenated ihr hc

def inOrder : Chunk :=
  { id := 1, entityPath := ["e"], isSorted := true, rowIds := [1, 2]
    timelines := [("t", .new none ⟨"t", .sequence⟩ [.newTemporal 5, .newTemporal 8])]
    components := [⟨"a", "list", [some [], some []]⟩] }

theorem new_inOrder : new 1 ["e"] none [1, 2]
    ([("t", ⟨"t", .sequence⟩, [.newTemporal 5, .newTemporal 8])].map
      fun column => (column.1, .new none column.2.1 column.2.2))
    inOrder.components = .ok inOrder := rfl

theorem derived_inOrder (allowed : Chunk → List Nat → Prop) : Derived allowed inOrder :=
  .new _ (by decide) (by decide) (by decide) new_inOrder

/-- Two rows that are taken in the reverse order stay flagged as sorted, and get an empty range. -/
theorem taken_reversed :
    Derived (fun _ _ => True) (inOrder.taken 2 [1, 0]) ∧
      ¬ (inOrder.taken 2 [1, 0]).Truthful ∧
      ((inOrder.taken 2 [1, 0]).timelines.map fun entry =>
        (entry.2.isSorted, entry.2.times, entry.2.timeRange)) =
          [(true, [.newTemporal 8, .newTemporal 5], ⟨.newTemporal 8, .newTemporal 5⟩)] := by
  refine ⟨(derived_inOrder _).taken 2 [1, 0] (by decide) trivial, fun h => ?_, by decide⟩
  exact absurd (h.sorted (by decide)) (by decide)

/-- The metadata of a chunk is truthful when rows were only taken at indices that step up, and
taking them at others spoils it at once. -/
theorem truthful_of_derived {c : Chunk} (h : Derived StepsUp c) :
    c.Truthful ∧ ∀ id indices, (∀ i ∈ indices, i < c.numRows) →
      ((c.taken id indices).Truthful ↔ c.StepsUp indices) :=
  ⟨h.sound.truthful, fun id _ hi => truthful_taken_iff h.sound id hi⟩

theorem truthful_of_derived_inOrder :
    (inOrder.taken 2 [0, 1]).Truthful ∧
      ∀ id indices, (∀ i ∈ indices, i < (inOrder.taken 2 [0, 1]).numRows) →
        (((inOrder.taken 2 [0, 1]).taken id indices).Truthful ↔
          (inOrder.taken 2 [0, 1]).StepsUp indices) :=
  truthful_of_derived
    ((derived_inOrder _).taken 2 [0, 1] (by decide) (stepsUp_of_pairwise (by decide)))

end Chunk

end DimosViewer
