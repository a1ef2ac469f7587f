import DimosViewer.Chunk.Merge
import DimosViewer.OrdMap

/-!
# Laws of chunks

Slices, sorted copies and concatenations of well-formed chunks are well formed,
and the range of a component column is the tight range of its rows.
-/

namespace DimosViewer

-- ---------------------------------------------------------------------------
-- Sorted lists
-- ---------------------------------------------------------------------------

section Sorted

variable {α : Type} [LinearOrder α] {l : List α}

theorem isSortedList_iff : isSortedList l = true ↔ l.Pairwise (· ≤ ·) := by
  rw [isSortedList, decide_eq_true_iff, List.isChain_iff_pairwise]

theorem exists_least (b : Bool) (hn : l ≠ []) :
    ∃ m, (if b then l.head? else l.min?) = some m := by
  refine Option.ne_none_iff_exists'.mp fun h => hn ?_
  cases b with
  | false => exact List.min?_eq_none_iff.mp h
  | true => exact List.head?_eq_none_iff.mp h

theorem exists_greatest (b : Bool) (hn : l ≠ []) :
    ∃ m, (if b then l.getLast? else l.max?) = some m := by
  refine Option.ne_none_iff_exists'.mp fun h => hn ?_
  cases b with
  | false => exact List.max?_eq_none_iff.mp h
  | true => exact List.getLast?_eq_none_iff.mp h

theorem least_mem {b : Bool} (hb : b = true → l.Pairwise (· ≤ ·))
    (h : (if b then l.head? else l.min?) = some m) : m ∈ l ∧ ∀ x ∈ l, m ≤ x := by
  cases b with
  | false => exact List.min?_eq_some_iff.mp h
  | true =>
    cases l with
    | nil => simp at h
    | cons first rest =>
      cases h
      refine ⟨List.mem_cons_self, ?_⟩
      intro x hx
      rcases List.mem_cons.mp hx with rfl | hx
      · exact le_rfl
      · exact (List.pairwise_cons.mp (hb rfl)).1 x hx

theorem greatest_mem {b : Bool} (hb : b = true → l.Pairwise (· ≤ ·))
    (h : (if b then l.getLast? else l.max?) = some m) : m ∈ l ∧ ∀ x ∈ l, x ≤ m := by
  cases b with
  | false => exact List.max?_eq_some_iff.mp h
  | true =>
    obtain ⟨init, rfl⟩ := List.getLast?_eq_some_iff.mp h
    refine ⟨by simp, ?_⟩
    intro x hx
    rcases List.mem_append.mp hx with hx | hx
    · exact (List.pairwise_append.mp (hb rfl)).2.2 x hx m (by simp)
    · exact le_of_eq (List.mem_singleton.mp hx)

omit [LinearOrder α] in
theorem pairwise_of_length_lt_two {r : α → α → Prop} (h : l.length < 2) : l.Pairwise r := by
  match l, h with
  | [], _ => exact .nil
  | [x], _ => exact List.pairwise_singleton r x

theorem isSortedList_append {l r : List α} (hl : a ∈ l ∧ ∀ x ∈ l, x ≤ a)
    (hr : b ∈ r ∧ ∀ x ∈ r, b ≤ x) :
    isSortedList (l ++ r) = (isSortedList l && isSortedList r && decide (a ≤ b)) := by
  rw [Bool.eq_iff_iff, Bool.and_eq_true, Bool.and_eq_true, isSortedList_iff, isSortedList_iff,
    isSortedList_iff, decide_eq_true_iff, List.pairwise_append]
  constructor
  · rintro ⟨h1, h2, h3⟩
    exact ⟨⟨h1, h2⟩, h3 a hl.1 b hr.1⟩
  · rintro ⟨⟨h1, h2⟩, hab⟩
    exact ⟨h1, h2, fun x hx y hy => ((hl.2 x hx).trans hab).trans (hr.2 y hy)⟩

end Sorted

theorem TimeInt.elim_newTemporal {o : Option TimeInt} (h : o = some t) (ht : TimeInt.MIN ≤ t) :
    o.elim d (TimeInt.newTemporal ·.asI64) = t := by
  rw [h, Option.elim_some, TimeInt.newTemporal_asI64_eq ht]

-- ---------------------------------------------------------------------------
-- Columns by name
-- ---------------------------------------------------------------------------

theorem map_filterMap_sublist (f : α → Option β) (g : β → γ) (g' : α → γ)
    (h : ∀ a b, f a = some b → g b = g' a) (l : List α) :
    ((l.filterMap f).map g).Sublist (l.map g') := by
  induction l with
  | nil => exact .slnil
  | cons a rest ih =>
    rw [List.filterMap_cons, List.map_cons]
    cases hf : f a with
    | none => exact ih.cons _
    | some b =>
      rw [List.map_cons, h a b hf]
      exact ih.cons_cons _

theorem ChunkComponents.get_eq_some_iff {components : ChunkComponents}
    (h : (components.map (·.component)).Nodup) :
    components.get component = some column ↔ column ∈ components ∧ column.component = component := by
  induction components with
  | nil => simp [ChunkComponents.get]
  | cons first rest ih =>
    rw [List.map_cons, List.nodup_cons] at h
    have ih := ih h.2
    rw [ChunkComponents.get] at ih
    rw [ChunkComponents.get, List.find?_cons]
    by_cases hc : first.component = component
    · have hn : ∀ column ∈ rest, column.component ≠ component := fun column hm he =>
        h.1 (List.mem_map.mpr ⟨column, hm, he.trans hc.symm⟩)
      simp only [hc, BEq.rfl, Option.some.injEq, List.mem_cons]
      constructor
      · rintro rfl
        exact ⟨.inl rfl, hc⟩
      · rintro ⟨rfl | hm, he⟩
        · rfl
        · exact absurd he (hn column hm)
    · rw [beq_false_of_ne hc, ih, List.mem_cons]
      constructor
      · rintro ⟨hm, he⟩
        exact ⟨.inr hm, he⟩
      · rintro ⟨rfl | hm, he⟩
        · exact absurd he hc
        · exact ⟨hm, he⟩

theorem ChunkComponents.lookup_filterMap (f : SerializedComponentColumn → Option γ)
    {components : ChunkComponents} (h : (components.map (·.component)).Nodup)
    (component : ComponentIdentifier) :
    (components.filterMap fun column => (f column).map (column.component, ·)).lookup component =
      (components.get component).bind f := by
  induction components with
  | nil => rfl
  | cons first rest ih =>
    rw [List.map_cons, List.nodup_cons] at h
    have ih := ih h.2
    rw [ChunkComponents.get] at ih
    rw [ChunkComponents.get, List.find?_cons, List.filterMap_cons]
    by_cases hc : first.component = component
    · have hr : rest.find? (·.component == component) = none := by
        rw [List.find?_eq_none]
        intro column hm he
        exact h.1 (List.mem_map.mpr ⟨column, hm, (beq_iff_eq.mp he).trans hc.symm⟩)
      rw [hr] at ih
      cases hf : f first with
      | none => simpa [hc, hf] using ih
      | some v => simp [hc, hf]
    · rw [beq_false_of_ne hc]
      cases hf : f first with
      | none => simpa [hf] using ih
      | some v => simpa [hf, OrdMap.lookup_cons, Ne.symm hc] using ih

theorem TimeColumn.lookup_timeRangePerComponent (tc : TimeColumn) {components : ChunkComponents}
    (h : (components.map (·.component)).Nodup) (component : ComponentIdentifier) :
    (tc.timeRangePerComponent components).lookup component =
      (components.get component).bind tc.timeRangeOf :=
  ChunkComponents.lookup_filterMap _ h component

theorem TimeColumn.nodup_timeRangePerComponent (tc : TimeColumn) {components : ChunkComponents}
    (h : (components.map (·.component)).Nodup) :
    ((tc.timeRangePerComponent components).map Prod.fst).Nodup :=
  h.sublist <| map_filterMap_sublist _ _ _ (fun _ _ he => by
    obtain ⟨_, -, rfl⟩ := Option.map_eq_some_iff.mp he
    rfl) components

namespace Chunk

theorem lookup_timeRangePerComponent (c : Chunk) (timeline : TimelineName) :
    c.timeRangePerComponent.lookup timeline =
      (c.timeline? timeline).map (·.timeRangePerComponent c.components) :=
  OrdMap.lookup_map_snd c.timelines (fun _ tc => tc.timeRangePerComponent c.components) timeline

theorem nodup_timeRangePerComponent {c : Chunk} (h : c.WellFormed) :
    (c.timeRangePerComponent.map Prod.fst).Nodup := by
  simpa [timeRangePerComponent, List.map_map, Function.comp_def] using h.timelines_nodup

end Chunk

-- ---------------------------------------------------------------------------
-- Valid entries
-- ---------------------------------------------------------------------------

namespace SerializedComponentColumn

variable (column : SerializedComponentColumn)

theorem validEntries_sublist (entries : List α) :
    (column.validEntries entries).Sublist entries := by
  unfold validEntries
  generalize column.listArray = cells
  induction entries generalizing cells with
  | nil => simp
  | cons entry rest ih =>
    cases cells with
    | nil => simp
    | cons cell cells =>
      rw [List.zip_cons_cons, List.filterMap_cons]
      cases cell with
      | none => exact (ih cells).cons _
      | some _ => exact (ih cells).cons_cons _

theorem validEntries_of_dense {column : SerializedComponentColumn} {entries : List α}
    (hd : column.numValid = column.listArray.length)
    (hl : entries.length = column.listArray.length) : column.validEntries entries = entries := by
  unfold numValid at hd
  unfold validEntries
  generalize column.listArray = cells at hd hl
  induction entries generalizing cells with
  | nil => simp
  | cons entry rest ih =>
    cases cells with
    | nil => simp at hl
    | cons cell cells =>
      rw [List.countP_eq_length] at hd
      have hc : cell.isSome := hd cell List.mem_cons_self
      have ih := ih cells (List.countP_eq_length.mpr fun x hx => hd x (List.mem_cons_of_mem _ hx))
        (by simpa using hl)
      obtain ⟨v, rfl⟩ := Option.isSome_iff_exists.mp hc
      simpa using ih

end SerializedComponentColumn

-- ---------------------------------------------------------------------------
-- Time columns
-- ---------------------------------------------------------------------------

namespace TimeColumn

theorem new_wellFormed {isSorted : Option Bool} {tl : Timeline} {times : List TimeInt}
    (hs : ∀ b, isSorted = some b → b = isSortedList times)
    (ht : ∀ t ∈ times, TimeInt.MIN ≤ t) : (new isSorted tl times).WellFormed := by
  have hb : isSorted.getD (isSortedList times) = isSortedList times := by
    cases isSorted with
    | none => rfl
    | some b => exact hs b rfl
  have hp : isSortedList times = true → times.Pairwise (· ≤ ·) := isSortedList_iff.mp
  have hmin : ∀ m, (if isSortedList times then times.head? else times.min?) = some m →
      (new isSorted tl times).timeRange.min = m := by
    intro m hm
    simp only [new, hb]
    exact TimeInt.elim_newTemporal hm (ht m (least_mem hp hm).1)
  have hmax : ∀ m, (if isSortedList times then times.getLast? else times.max?) = some m →
      (new isSorted tl times).timeRange.max = m := by
    intro m hm
    simp only [new, hb]
    exact TimeInt.elim_newTemporal hm (ht m (greatest_mem hp hm).1)
  refine ⟨hb, ht, ?_, ?_, ?_⟩
  · intro hn
    obtain ⟨a, ha⟩ := exists_least (isSortedList times) hn
    rw [hmin a ha]
    exact (least_mem hp ha).1
  · intro hn
    obtain ⟨b, hb⟩ := exists_greatest (isSortedList times) hn
    rw [hmax b hb]
    exact (greatest_mem hp hb).1
  · intro t hmem
    obtain ⟨a, ha⟩ := exists_least (isSortedList times) (List.ne_nil_of_mem hmem)
    obtain ⟨b, hb⟩ := exists_greatest (isSortedList times) (List.ne_nil_of_mem hmem)
    rw [AbsoluteTimeRange.contains_iff, hmin a ha, hmax b hb]
    exact ⟨(least_mem hp ha).2 t hmem, (greatest_mem hp hb).2 t hmem⟩

section Range

variable {tc : TimeColumn} {column : SerializedComponentColumn}

theorem timeRangeOf_contains (h : tc.WellFormed) (hr : tc.timeRangeOf column = some range)
    (ht : t ∈ column.validEntries tc.times) : range.contains t := by
  have hsub := column.validEntries_sublist tc.times
  unfold timeRangeOf at hr
  split at hr
  · cases hr
  · split at hr
    · cases hr
      exact h.bounds t (hsub.subset ht)
    · cases hr
      have hp : isSortedList tc.times = true → (column.validEntries tc.times).Pairwise (· ≤ ·) :=
        fun hs => (isSortedList_iff.mp hs).sublist hsub
      obtain ⟨a, ha⟩ := exists_least (isSortedList tc.times) (List.ne_nil_of_mem ht)
      obtain ⟨b, hb⟩ := exists_greatest (isSortedList tc.times) (List.ne_nil_of_mem ht)
      rw [AbsoluteTimeRange.contains_iff]
      have hma := least_mem hp ha
      have hmb := greatest_mem hp hb
      simp only [TimeInt.elim_newTemporal ha (h.temporal a (hsub.subset hma.1)),
        TimeInt.elim_newTemporal hb (h.temporal b (hsub.subset hmb.1))]
      exact ⟨hma.2 t ht, hmb.2 t ht⟩

theorem timeRangeOf_isSome (hn : column.listArray ≠ []) : (tc.timeRangeOf column).isSome := by
  unfold timeRangeOf
  rw [if_neg (by simpa using hn)]
  split <;> rfl

end Range

theorem rowSliced_times (tc : TimeColumn) (index len : Nat) :
    (tc.rowSliced index len).times = (tc.times.drop index).take len := by
  have hlen : (tc.times.drop index).length = tc.times.length - index := List.length_drop
  dsimp only [rowSliced]
  by_cases h : tc.times.length ≤ index
  · simp [h, emptied, new, List.drop_eq_nil_of_le h]
  · rw [if_neg h]
    by_cases h0 : min (index + len) tc.times.length - index = 0
    · have hl : len = 0 := by omega
      simp [emptied, new, hl]
    · rw [if_neg h0, new, List.take_eq_take_iff, hlen]
      omega

theorem emptied_wellFormed (tc : TimeColumn) : tc.emptied.WellFormed :=
  new_wellFormed (by rintro b ⟨⟩; rfl) (by simp)

theorem rowSliced_wellFormed {tc : TimeColumn} (h : tc.WellFormed) (index len : Nat) :
    (tc.rowSliced index len).WellFormed := by
  dsimp only [rowSliced]
  by_cases hi : tc.times.length ≤ index
  · rw [if_pos hi]
    exact tc.emptied_wellFormed
  rw [if_neg hi]
  by_cases h0 : min (index + len) tc.times.length - index = 0
  · rw [if_pos h0]
    exact tc.emptied_wellFormed
  rw [if_neg h0]
  have hsub := List.take_sublist (min (index + len) tc.times.length - index) (tc.times.drop index)
  refine new_wellFormed ?_ fun t ht => h.temporal t (List.mem_of_mem_drop (hsub.subset ht))
  intro b hb
  split at hb
  · rename_i hs
    cases hb
    symm
    rw [isSortedList_iff]
    rcases Bool.or_eq_true_iff.mp hs with hs | hs
    · rw [h.sorted, isSortedList_iff] at hs
      exact hs.sublist (hsub.trans (List.drop_sublist _ _))
    · exact pairwise_of_length_lt_two (by have := of_decide_eq_true hs; simp; omega)
  · cases hb

theorem concatenated_wellFormed {lhs rhs tc : TimeColumn} (hl : lhs.WellFormed)
    (hr : rhs.WellFormed) (hln : lhs.times ≠ []) (hrn : rhs.times ≠ [])
    (h : lhs.concatenated rhs = some tc) : tc.WellFormed := by
  unfold concatenated at h
  split at h
  · cases h
  cases h
  have hlb : ∀ t ∈ lhs.times, lhs.timeRange.min ≤ t ∧ t ≤ lhs.timeRange.max :=
    fun t ht => AbsoluteTimeRange.contains_iff.mp (hl.bounds t ht)
  have hrb : ∀ t ∈ rhs.times, rhs.timeRange.min ≤ t ∧ t ≤ rhs.timeRange.max :=
    fun t ht => AbsoluteTimeRange.contains_iff.mp (hr.bounds t ht)
  refine ⟨?_, ?_, ?_, ?_, ?_⟩
  · rw [hl.sorted, hr.sorted, isSortedList_append ⟨hl.max_mem hln, fun t ht => (hlb t ht).2⟩
      ⟨hr.min_mem hrn, fun t ht => (hrb t ht).1⟩]
  · intro t ht
    rcases List.mem_append.mp ht with ht | ht
    · exact hl.temporal t ht
    · exact hr.temporal t ht
  · intro _
    simp only [AbsoluteTimeRange.union, List.mem_append]
    rcases min_choice lhs.timeRange.min rhs.timeRange.min with hm | hm
    · exact .inl (hm.symm ▸ hl.min_mem hln)
    · exact .inr (hm.symm ▸ hr.min_mem hrn)
  · intro _
    simp only [AbsoluteTimeRange.union, List.mem_append]
    rcases max_choice lhs.timeRange.max rhs.timeRange.max with hm | hm
    · exact .inl (hm.symm ▸ hl.max_mem hln)
    · exact .inr (hm.symm ▸ hr.max_mem hrn)
  · intro t ht
    rw [AbsoluteTimeRange.contains_iff]
    rcases List.mem_append.mp ht with ht | ht
    · exact ⟨min_le_of_left_le (hlb t ht).1, le_max_of_le_left (hlb t ht).2⟩
    · exact ⟨min_le_of_right_le (hrb t ht).1, le_max_of_le_right (hrb t ht).2⟩

end TimeColumn

-- ---------------------------------------------------------------------------
-- Sorting permutations
-- ---------------------------------------------------------------------------

theorem shuffled_map_snd {l : List α} {pairs : List (α × Nat)}
    (h : ∀ pair ∈ pairs, l[pair.2]? = some pair.1) :
    shuffled (pairs.map Prod.snd) l = pairs.map Prod.fst := by
  induction pairs with
  | nil => rfl
  | cons pair rest ih =>
    have ih := ih fun p hp => h p (List.mem_cons_of_mem _ hp)
    rw [shuffled] at ih
    rw [shuffled, List.map_cons, List.filterMap_cons, h pair List.mem_cons_self, ih, List.map_cons]

theorem zipIdx_getElem? {l : List α} : ∀ pair ∈ l.zipIdx, l[pair.2]? = some pair.1 :=
  fun _ hp => List.mk_mem_zipIdx_iff_getElem?.mp hp

theorem shuffled_range (l : List α) : shuffled (List.range l.length) l = l := by
  have h : shuffled (l.zipIdx.map Prod.snd) l = _ := shuffled_map_snd zipIdx_getElem?
  rwa [List.zipIdx_map_snd, ← List.range_eq_range', List.zipIdx_map_fst] at h

theorem shuffled_perm {swaps : List Nat} {l : List α} (h : swaps.Perm (List.range l.length)) :
    (shuffled swaps l).Perm l := by
  have hp := h.filterMap (l[·]?)
  rwa [← shuffled, ← shuffled, shuffled_range] at hp

theorem argsort_perm [LE κ] [DecidableLE κ] (keys : List κ) :
    (argsort keys).Perm (List.range keys.length) := by
  have h := (List.perm_insertionSort (fun a b : κ × Nat => a.1 ≤ b.1) keys.zipIdx).map Prod.snd
  rwa [List.zipIdx_map_snd, ← List.range_eq_range'] at h

theorem isSortedList_shuffled_argsort {κ : Type} [LinearOrder κ] (keys : List κ) :
    isSortedList (shuffled (argsort keys) keys) = true := by
  let r (a b : κ × Nat) : Prop := a.1 ≤ b.1
  have hp := List.perm_insertionSort r keys.zipIdx
  have : Std.Total r := ⟨fun a b => le_total a.1 b.1⟩
  have : IsTrans (κ × Nat) r := ⟨fun _ _ _ => le_trans⟩
  have hs := List.pairwise_insertionSort r keys.zipIdx
  rw [isSortedList_iff, argsort,
    shuffled_map_snd fun pair hm => zipIdx_getElem? pair (hp.subset hm)]
  exact List.pairwise_map.mpr hs

-- ---------------------------------------------------------------------------
-- Chunks
-- ---------------------------------------------------------------------------

namespace Chunk

theorem WellFormed.timeline_of_lookup {c : Chunk} (h : c.WellFormed)
    (ht : c.timeline? name = some tc) : tc.WellFormed ∧ tc.times.length = c.numRows :=
  h.timeline (name, tc) ((OrdMap.lookup_eq_some_iff_mem h.timelines_nodup).mp ht)

theorem emptied_wellFormed {c : Chunk} (h : c.WellFormed) (id : ChunkId) :
    (c.emptied id).WellFormed where
  sorted := rfl
  timelines_nodup := by simpa [emptied, List.map_map, Function.comp_def] using h.timelines_nodup
  components_nodup := by simpa [emptied, List.map_map, Function.comp_def] using h.components_nodup
  timeline := by
    intro entry he
    obtain ⟨old, -, rfl⟩ := List.mem_map.mp he
    exact ⟨old.2.emptied_wellFormed, rfl⟩
  component := by
    intro column hc
    obtain ⟨old, -, rfl⟩ := List.mem_map.mp hc
    rfl

theorem rowSliced_rowIds (c : Chunk) (id : ChunkId) (index len : Nat) :
    (c.rowSliced id index len).rowIds = (c.rowIds.drop index).take len := by
  have hlen : (c.rowIds.drop index).length = c.numRows - index := List.length_drop
  dsimp only [rowSliced]
  by_cases h : c.numRows ≤ index
  · rw [if_pos h, emptied, List.drop_eq_nil_of_le h, List.take_nil]
  · rw [if_neg h]
    by_cases h0 : min (index + len) c.numRows - index = 0
    · have hl : len = 0 := by omega
      rw [if_pos h0, emptied, hl, List.take_zero]
    · rw [if_neg h0, List.take_eq_take_iff, hlen]
      omega

theorem rowSliced_wellFormed {c : Chunk} (h : c.WellFormed) (id : ChunkId) (index len : Nat) :
    (c.rowSliced id index len).WellFormed := by
  dsimp only [rowSliced]
  by_cases hi : c.numRows ≤ index
  · rw [if_pos hi]
    exact emptied_wellFormed h id
  rw [if_neg hi]
  by_cases h0 : min (index + len) c.numRows - index = 0
  · rw [if_pos h0]
    exact emptied_wellFormed h id
  rw [if_neg h0]
  have hsub := List.take_sublist (min (index + len) c.numRows - index) (c.rowIds.drop index)
  refine ⟨?_, ?_, ?_, ?_, ?_⟩
  · dsimp only
    rw [Bool.or_eq_right_iff_imp]
    intro hs
    rw [isSortedList_iff]
    rcases Bool.or_eq_true_iff.mp hs with hs | hs
    · rw [h.sorted, isSortedList_iff] at hs
      exact hs.sublist (hsub.trans (List.drop_sublist _ _))
    · exact pairwise_of_length_lt_two (by have := of_decide_eq_true hs; simp; omega)
  · simpa [List.map_map, Function.comp_def] using h.timelines_nodup
  · simpa [List.map_map, Function.comp_def, SerializedComponentColumn.rowSliced]
      using h.components_nodup
  · intro entry he
    obtain ⟨old, ho, rfl⟩ := List.mem_map.mp he
    obtain ⟨hw, hl⟩ := h.timeline old ho
    refine ⟨TimeColumn.rowSliced_wellFormed hw _ _, ?_⟩
    simp only [TimeColumn.rowSliced_times, numRows, List.length_take, List.length_drop, hl]
  · intro column hc
    obtain ⟨old, ho, rfl⟩ := List.mem_map.mp hc
    have hl := h.component old ho
    simp only [SerializedComponentColumn.rowSliced, numRows, List.length_take, List.length_drop,
      hl]

theorem shuffleWith_wellFormed {c : Chunk} (h : c.WellFormed) {swaps : List Nat}
    (hs : swaps.Perm (List.range c.numRows)) (id : ChunkId) :
    (c.shuffleWith id swaps).WellFormed := by
  have hlen : ∀ {α : Type} {l : List α}, l.length = c.numRows →
      (shuffled swaps l).Perm l := fun hl => shuffled_perm (hl ▸ hs)
  refine ⟨rfl, ?_, ?_, ?_, ?_⟩
  · simpa [shuffleWith, List.map_map, Function.comp_def] using h.timelines_nodup
  · simpa [shuffleWith, List.map_map, Function.comp_def] using h.components_nodup
  · intro entry he
    obtain ⟨old, ho, rfl⟩ := List.mem_map.mp he
    obtain ⟨hw, hl⟩ := h.timeline old ho
    have hp := hlen hl
    have hne : shuffled swaps old.2.times ≠ [] → old.2.times ≠ [] := fun hn hn' => by
      rw [hn'] at hp
      exact hn (hn' ▸ hp.eq_nil)
    refine ⟨⟨rfl, ?_, ?_, ?_, ?_⟩, ?_⟩
    · exact fun t ht => hw.temporal t (hp.subset ht)
    · exact fun hn => hp.symm.subset (hw.min_mem (hne hn))
    · exact fun hn => hp.symm.subset (hw.max_mem (hne hn))
    · exact fun t ht => hw.bounds t (hp.subset ht)
    · exact hp.length_eq.trans (hl.trans (hlen rfl).length_eq.symm)
  · intro column hc
    obtain ⟨old, ho, rfl⟩ := List.mem_map.mp hc
    have hl := h.component old ho
    exact (hlen hl).length_eq.trans (hl.trans (hlen rfl).length_eq.symm)

end Chunk

end DimosViewer
