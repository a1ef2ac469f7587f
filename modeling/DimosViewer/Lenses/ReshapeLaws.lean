import DimosViewer.Lenses.Reshape
import Mathlib.Algebra.Order.BigOperators.Group.List

/-!
# Flattening and exploding go row by row

The loops of the general case keep the rows that they have been through: the running offsets, and
the ranges of the values. The fast path only maps offsets, so a null list shows the values that
it covers.
-/

namespace DimosViewer.Lenses

open Offsets

-- ---------------------------------------------------------------------------
-- Fixed-size lists as lists
-- ---------------------------------------------------------------------------

theorem fixedSize_sorted (len size : Nat) :
    ((List.range (len + 1)).map fun i => i * size).Pairwise (· ≤ ·) := by
  refine List.pairwise_map.mpr (List.pairwise_le_range.imp ?_)
  intro i j h
  exact Nat.mul_le_mul_right size h

theorem fixedSize_valid (fixed : FixedSizeListArray β) (h : fixed.len * fixed.size < 2 ^ 31) :
    ListArray.Valid ((List.range (fixed.len + 1)).map fun i => i * fixed.size) fixed.nulls
      (Sized.size fixed.values) := by
  have hmax : ∀ offset ∈ (List.range (fixed.len + 1)).map fun i => i * fixed.size,
      offset ≤ fixed.len * fixed.size := by
    intro offset hoffset
    obtain ⟨i, hi, rfl⟩ := List.mem_map.mp hoffset
    exact Nat.mul_le_mul_right _ (Nat.le_of_lt_succ (List.mem_range.mp hi))
  refine ⟨?_, fixedSize_sorted _ _, ?_, ?_, ?_⟩
  · simp
  · exact fun offset hoffset => Nat.lt_of_le_of_lt (hmax offset hoffset) h
  · exact fun offset hoffset => (hmax offset hoffset).trans fixed.valid.inRange
  · intro validity hvalidity
    rw [fixed.valid.rowNulls validity hvalidity, List.length_map, List.length_range]

theorem fixedSizeListToList_eq (fixed : FixedSizeListArray β) (hlen : fixed.len < 2 ^ 31)
    (h : fixed.len * fixed.size < 2 ^ 31) :
    ∃ inner, fixedSizeListToList fixed = some (.ok inner) ∧ inner.len = fixed.len ∧
      inner.slots = fixed.slots ∧ inner.values = fixed.values := by
  let inner : ListArray (List β) := ⟨_, fixed.nulls, fixed.values, fixedSize_valid fixed h⟩
  have hinner : inner.len = fixed.len := by
    rw [ListArray.len, List.length_map, List.length_range, Nat.add_sub_cancel]
  have hvalidity : inner.validity = fixed.validity := by
    rw [ListArray.validity, FixedSizeListArray.validity, hinner]
  refine ⟨inner, ?_, hinner, ?_, rfl⟩
  · rw [fixedSizeListToList, if_pos hlen]
    dsimp only
    rw [ListArray.new_eq (fixedSize_valid fixed h)]
    rfl
  · rw [ListArray.slots, FixedSizeListArray.slots, hvalidity, cuts_map, cuts_range, List.map_map,
      List.zip_map_right, List.map_map]
    rfl

theorem fixedSizeListToList_refuses (fixed : FixedSizeListArray β)
    (h : ¬(fixed.len < 2 ^ 31 ∧ fixed.len * fixed.size < 2 ^ 31)) (inner : ListArray (List β)) :
    fixedSizeListToList fixed ≠ some (.ok inner) := by
  rw [fixedSizeListToList]
  split
  · rename_i hlen
    have hvalid : ¬ListArray.Valid ((List.range (fixed.len + 1)).map fun i => i * fixed.size)
        fixed.nulls (Sized.size fixed.values) := by
      intro hvalid
      refine h ⟨hlen, hvalid.fits _ (List.mem_map.mpr ⟨fixed.len, ?_, rfl⟩)⟩
      exact List.mem_range.mpr (Nat.lt_succ_self _)
    simp [ListArray.new, hvalid]
  · simp

structure InnerOf (values : NestedValues β) (lists : List (Option (List β)))
    (inner : ListArray (List β)) : Prop where
  found : Flatten.innerList values = some (.ok inner)
  len : inner.len = values.size
  slots : inner.slots = values.slots
  lists : inner.rows inner.values = lists

theorem exists_innerOf {values : NestedValues β} (hlists : values.lists = some lists)
    (h : values.Addressable) : ∃ inner, InnerOf values lists inner := by
  cases values with
  | list array => exact ⟨array, rfl, rfl, rfl, Option.some.inj hlists⟩
  | fixed array =>
    obtain ⟨inner, hinner, hlen, hslots, hvalues⟩ := fixedSizeListToList_eq array h.1 h.2
    refine ⟨inner, hinner, hlen, hslots, ?_⟩
    rw [← Option.some.inj hlists, ListArray.rows, FixedSizeListArray.rows, hslots, hvalues]
  | other len dataType => cases hlists

theorem addressable_of_innerList {values : NestedValues β} {inner : ListArray (List β)}
    (h : Flatten.innerList values = some (.ok inner)) : values.Addressable := by
  cases values with
  | list array => exact trivial
  | fixed array => exact not_not.mp fun hno => fixedSizeListToList_refuses array hno inner h
  | other len dataType => exact trivial

-- ---------------------------------------------------------------------------
-- The fast path
-- ---------------------------------------------------------------------------

namespace Flatten

variable {source : ListArray (NestedValues β)} {inner : ListArray (List β)}

theorem mapM_some {f : α → Option β} {g : α → β} {l : List α} (h : ∀ a ∈ l, f a = some (g a)) :
    l.mapM f = some (l.map g) := by
  induction l with
  | nil => rfl
  | cons a l ih =>
    rw [List.mapM_cons, h a List.mem_cons_self, ih fun b hb => h b (List.mem_cons_of_mem _ hb)]
    rfl

theorem unwrap_eq (source : ListArray (NestedValues β)) (hlen : inner.len = source.values.size) :
    ∃ target, unwrap source inner = some target ∧ target.values = inner.values ∧
      target.slots = source.slots.map fun slot =>
        ⟨slot.valid, inner.offsetAt slot.start, inner.offsetAt slot.stop⟩ := by
  have hrange : ∀ offset ∈ source.offsets, offset ≤ inner.len := by
    rw [hlen]
    exact source.valid.inRange
  have hvalid : ListArray.Valid (source.offsets.map inner.offsetAt) source.nulls
      (Sized.size inner.values) := by
    refine ⟨?_, ?_, ?_, ?_, ?_⟩
    · simpa using source.valid.nonempty
    · refine List.pairwise_map.mpr (source.valid.sorted.imp_of_mem ?_)
      intro a b _ hb hab
      exact ListArray.offsetAt_mono hab (hrange b hb)
    · intro offset hoffset
      obtain ⟨outer, houter, rfl⟩ := List.mem_map.mp hoffset
      exact inner.valid.fits _ (ListArray.offsetAt_mem (hrange outer houter))
    · intro offset hoffset
      obtain ⟨outer, houter, rfl⟩ := List.mem_map.mp hoffset
      exact inner.valid.inRange _ (ListArray.offsetAt_mem (hrange outer houter))
    · intro validity hvalidity
      rw [List.length_map]
      exact source.valid.rowNulls validity hvalidity
  refine ⟨⟨_, _, _, hvalid⟩, ?_, rfl, ListArray.slots_map inner.offsetAt rfl rfl⟩
  rw [unwrap, mapM_some fun o ho => ListArray.getElem?_offsets (hrange o ho)]
  exact ListArray.new_eq hvalid

/-- An outer row of at most one list shows the values that the list covers, null or not. -/
theorem unwrapped_row (hslot : slot ∈ source.slots) (hlen : inner.len = source.values.size)
    (hvalid : slot.valid = true) (hone : slot.stop - slot.start ≤ 1) :
    (Slot.row inner.values ⟨slot.valid, inner.offsetAt slot.start, inner.offsetAt slot.stop⟩ =
        flattenRow (slot.row (inner.rows inner.values)) ↔
      ¬(slot.stop = slot.start + 1 ∧ ∃ cover, inner.slots[slot.start]? = some cover ∧
        cover.valid = false ∧ cover.start < cover.stop)) := by
  have hle := ListArray.slot_le hslot
  have hstop : slot.stop ≤ inner.len := hlen ▸ ListArray.slot_inRange hslot
  rw [Slot.row, Slot.row, if_pos hvalid, if_pos hvalid, flattenRow, Option.map_some,
    Option.some.injEq]
  by_cases hempty : slot.stop = slot.start
  · rw [hempty, slice_self, slice_self]
    refine ⟨fun _ hone => ?_, fun _ => rfl⟩
    omega
  · have hnext : slot.stop = slot.start + 1 := by omega
    obtain ⟨cover, hcover, hstart, hend⟩ := ListArray.getElem?_slots (hnext ▸ hstop)
    have hinRange := ListArray.slot_inRange (List.mem_of_getElem? hcover)
    have hrow : (inner.rows inner.values)[slot.start]? = some (cover.row inner.values) := by
      rw [ListArray.rows, List.getElem?_map, hcover]
      rfl
    rw [hnext, slice_succ hrow, List.flatMap_singleton, ← hstart, ← hend, Slot.row]
    have hlength := length_slice cover.start hinRange
    cases hv : cover.valid with
    | true =>
      refine ⟨fun _ h => ?_, fun _ => rfl⟩
      obtain ⟨-, other, hother, hnull, -⟩ := h
      rw [hcover] at hother
      cases hother
      rw [hv] at hnull
      cases hnull
    | false =>
      constructor
      · rintro h ⟨-, other, hother, -, hcovers⟩
        rw [hcover] at hother
        cases hother
        rw [h] at hlength
        simp at hlength
        omega
      · intro h
        apply List.eq_nil_of_length_eq_zero
        rw [hlength]
        exact Nat.sub_eq_zero_of_le (Nat.le_of_not_lt fun hlt => h ⟨rfl, cover, hcover, hv, hlt⟩)

-- ---------------------------------------------------------------------------
-- The general case
-- ---------------------------------------------------------------------------

def gathered (values : List β) (ranges : ValueRanges) : List β :=
  ranges.flatMap fun range => slice values range.1 (range.1 + range.2)

structure Holds (values contents : List β) (collected : Collected) : Prop where
  gathered : gathered values collected.valueRanges = contents
  inRange : ∀ range ∈ collected.valueRanges, range.1 + range.2 ≤ values.length
  offset : collected.currentOffset = contents.length

theorem gathered_append (values : List β) (ranges more : ValueRanges) :
    gathered values (ranges ++ more) = gathered values ranges ++ gathered values more :=
  List.flatMap_append

theorem gathered_pushRange (values : List β) (ranges : ValueRanges) (start length : Nat) :
    gathered values (pushRange ranges start length) =
      gathered values ranges ++ slice values start (start + length) := by
  have hnew : gathered values (ranges ++ [(start, length)]) =
      gathered values ranges ++ slice values start (start + length) := by
    rw [gathered_append]
    congr 1
    exact List.flatMap_singleton _ _
  rw [pushRange]
  split
  · rename_i lastStart lastLen hlast
    split
    · rename_i hmeet
      have hsplit := List.dropLast_append_getLast? (lastStart, lastLen) hlast
      conv_rhs => rw [← hsplit]
      rw [gathered_append, gathered_append, List.append_assoc]
      congr 1
      have hlong : lastStart + (lastLen + length) = start + length := by omega
      simp only [gathered, List.flatMap_singleton]
      rw [hlong, hmeet, slice_append_slice values (by omega) (by omega)]
    · exact hnew
  · exact hnew

theorem inRange_pushRange (h : ∀ range ∈ ranges, range.1 + range.2 ≤ limit)
    (hnew : start + length ≤ limit) :
    ∀ range ∈ pushRange ranges start length, range.1 + range.2 ≤ limit := by
  intro range hrange
  have hmem : range ∈ ranges ++ [(start, length)] →
      range.1 + range.2 ≤ limit := by
    intro hmem
    obtain hmem | hmem := List.mem_append.mp hmem
    · exact h range hmem
    · rw [List.mem_singleton.mp hmem]
      exact hnew
  rw [pushRange] at hrange
  split at hrange
  · rename_i lastStart lastLen hlast
    split at hrange
    · obtain hrange | hrange := List.mem_append.mp hrange
      · exact h range (List.dropLast_subset _ hrange)
      · rw [List.mem_singleton.mp hrange]
        dsimp only
        omega
    · exact hmem hrange
  · exact hmem hrange

theorem Holds.visitInner (h : Holds values contents collected) (hle : slot.start ≤ slot.stop)
    (hstop : slot.stop ≤ values.length) :
    Holds values (contents ++ (slot.row values).getD []) (visitInner collected slot) := by
  rw [Flatten.visitInner, Slot.row]
  cases hvalid : slot.valid with
  | false =>
    rw [if_neg (by decide), if_neg (by decide), Option.getD_none, List.append_nil]
    exact h
  | true =>
    rw [if_pos rfl, if_pos rfl, Option.getD_some]
    dsimp only
    by_cases hpos : 0 < slot.stop - slot.start
    · have hend : slot.start + (slot.stop - slot.start) = slot.stop := by omega
      rw [if_pos hpos]
      refine ⟨?_, inRange_pushRange h.inRange (by omega), ?_⟩
      · rw [gathered_pushRange, h.gathered, hend]
      · rw [List.length_append, length_slice _ hstop, h.offset]
    · have hempty : slot.stop = slot.start := by omega
      rw [if_neg hpos, hempty, slice_self, List.append_nil]
      exact h

theorem Holds.visitInners {values contents : List β} {slots : List Slot}
    (h : Holds values contents collected)
    (hslots : ∀ slot ∈ slots, slot.start ≤ slot.stop ∧ slot.stop ≤ values.length) :
    Holds values (contents ++ slots.flatMap fun slot => (slot.row values).getD [])
      (slots.foldl Flatten.visitInner collected) := by
  induction slots generalizing contents collected with
  | nil =>
    rw [List.flatMap_nil, List.append_nil]
    exact h
  | cons slot slots ih =>
    obtain ⟨hle, hstop⟩ := hslots slot List.mem_cons_self
    rw [List.flatMap_cons, ← List.append_assoc]
    exact ih (h.visitInner hle hstop) fun s hs => hslots s (List.mem_cons_of_mem _ hs)

def rowContent (inner : ListArray (List β)) (slot : Slot) : List β :=
  (flattenRow (slot.row (inner.rows inner.values))).getD []

theorem rowContent_eq (inner : ListArray (List β)) (h : slot.valid = true) :
    rowContent inner slot =
      (slice inner.slots slot.start slot.stop).flatMap fun slot =>
        (slot.row inner.values).getD [] := by
  rw [rowContent, Slot.row, if_pos h, flattenRow, Option.map_some, Option.getD_some,
    ListArray.rows, slice_map, List.flatMap_map]

structure Visited (values : List β) (contents : List (List β)) (state : List Nat × Collected) :
    Prop where
  offsets : state.1 = running 0 (contents.map List.length)
  holds : Holds values contents.flatten state.2

theorem Visited.visitRow (h : Visited inner.values contents state)
    (hslot : slot ∈ source.slots) (hlen : inner.len = source.values.size) :
    ∃ state', visitRow inner state slot = some state' ∧
      Visited inner.values (contents ++ [rowContent inner slot]) state' := by
  have hpush (content : List β) (collected : Collected)
      (hcollected : Holds inner.values (contents.flatten ++ content) collected) :
      Visited inner.values (contents ++ [content])
        (state.1 ++ [collected.currentOffset], collected) := by
    refine ⟨?_, ?_⟩
    · rw [List.map_append, List.map_singleton, running_concat, h.offsets, hcollected.offset,
        List.length_append, List.length_flatten, Nat.zero_add]
    · rw [List.flatten_append, List.flatten_singleton]
      exact hcollected
  rw [Flatten.visitRow]
  cases hvalid : slot.valid with
  | false =>
    refine ⟨_, rfl, ?_⟩
    have hcontent : rowContent inner slot = [] := by
      rw [rowContent, Slot.row, hvalid]
      rfl
    rw [hcontent]
    refine hpush [] state.2 ?_
    rw [List.append_nil]
    exact h.holds
  | true =>
    have hle := ListArray.slot_le hslot
    have hstop : slot.stop ≤ inner.len := hlen ▸ ListArray.slot_inRange hslot
    have hsum : slot.start + (slot.stop - slot.start) = slot.stop := by omega
    have hslice : sliceArray inner.slots slot.start (slot.stop - slot.start) =
        some (slice inner.slots slot.start slot.stop) := by
      rw [sliceArray, hsum, if_pos (by rw [ListArray.length_slots]; exact hstop)]
    rw [if_pos rfl, hslice]
    refine ⟨_, rfl, hpush _ _ ?_⟩
    rw [rowContent_eq inner hvalid]
    refine h.holds.visitInners fun s hs => ?_
    have hmem : s ∈ inner.slots := List.mem_of_mem_drop (List.mem_of_mem_take hs)
    exact ⟨ListArray.slot_le hmem, ListArray.slot_inRange hmem⟩

theorem Visited.visitRows {slots : List Slot} (h : Visited inner.values contents state)
    (hslots : ∀ slot ∈ slots, slot ∈ source.slots) (hlen : inner.len = source.values.size) :
    ∃ state', slots.foldlM (Flatten.visitRow inner) state = some state' ∧
      Visited inner.values (contents ++ slots.map (rowContent inner)) state' := by
  induction slots generalizing contents state with
  | nil =>
    refine ⟨state, rfl, ?_⟩
    rw [List.map_nil, List.append_nil]
    exact h
  | cons slot slots ih =>
    obtain ⟨next, hnext, hvisited⟩ := h.visitRow (hslots slot List.mem_cons_self) hlen
    obtain ⟨state', hstate', hrest⟩ := ih hvisited fun s hs => hslots s (List.mem_cons_of_mem _ hs)
    refine ⟨state', ?_, ?_⟩
    · rw [List.foldlM_cons, hnext]
      exact hstate'
    · rw [List.append_assoc] at hrest
      exact hrest

theorem flattenedValues_eq {values : List β}
    (h : ∀ range ∈ ranges, range.1 + range.2 ≤ values.length) :
    flattenedValues values ranges = some (gathered values ranges) := by
  have hslice : ∀ range ∈ ranges, sliceArray values range.1 range.2 =
      some (slice values range.1 (range.1 + range.2)) := fun range hr => if_pos (h range hr)
  rw [flattenedValues.eq_def]
  split
  · exact if_pos (Nat.zero_le _)
  · rename_i start length
    rw [hslice _ List.mem_cons_self, gathered, List.flatMap_singleton]
  · rw [mapM_some hslice, Option.map_some, gathered, List.flatMap_def]

theorem length_rowContent_le (hslot : slot ∈ source.slots)
    (hlen : inner.len = source.values.size) :
    (rowContent inner slot).length ≤
      inner.offsetAt slot.stop - inner.offsetAt slot.start := by
  cases hvalid : slot.valid with
  | false =>
    rw [rowContent, Slot.row, hvalid]
    exact Nat.zero_le _
  | true =>
    rw [rowContent_eq inner hvalid, List.length_flatMap]
    refine Nat.le_trans (List.sum_le_sum ?_) (ListArray.sum_slots_le _ (ListArray.slot_le hslot)
      (hlen ▸ ListArray.slot_inRange hslot))
    intro s hs
    have hmem : s ∈ inner.slots := List.mem_of_mem_drop (List.mem_of_mem_take hs)
    rw [Slot.row]
    cases s.valid with
    | false => exact Nat.zero_le _
    | true => exact Nat.le_of_eq (length_slice _ (ListArray.slot_inRange hmem))

theorem sum_rowContent_lt (hlen : inner.len = source.values.size) :
    ((source.slots.map (rowContent inner)).map List.length).sum < 2 ^ 31 := by
  obtain ⟨target, -, -, hslots⟩ := unwrap_eq source hlen
  have hsum := target.sum_slots_lt
  rw [hslots, List.map_map] at hsum
  rw [List.map_map]
  refine Nat.lt_of_le_of_lt (List.sum_le_sum fun slot hslot => ?_) hsum
  exact length_rowContent_le hslot hlen

theorem flattenRow_row (inner : ListArray (List β)) (slot : Slot) :
    flattenRow (slot.row (inner.rows inner.values)) =
      if slot.valid then some (rowContent inner slot) else none := by
  rw [rowContent, Slot.row]
  cases slot.valid <;> rfl

theorem collect_eq (hlen : inner.len = source.values.size) :
    ∃ target, collect source inner = some target ∧
      target.rows target.values =
        (source.rows (inner.rows inner.values)).map flattenRow := by
  have hstart : Visited inner.values [] ([0], ⟨0, []⟩) := by
    refine ⟨rfl, rfl, ?_, rfl⟩
    intro range hrange
    cases hrange
  obtain ⟨state, hstate, hvisited⟩ := hstart.visitRows (fun _ h => h) hlen
  rw [List.nil_append] at hvisited
  have hvalues := flattenedValues_eq hvisited.holds.inRange
  rw [hvisited.holds.gathered] at hvalues
  have hbound : ∀ offset ∈ state.1,
      offset ≤ ((source.slots.map (rowContent inner)).map List.length).sum := by
    intro offset hoffset
    rw [hvisited.offsets] at hoffset
    have := mem_running hoffset
    omega
  have hvalid : ListArray.Valid state.1 source.nulls
      (Sized.size (source.slots.map (rowContent inner)).flatten) := by
    refine ⟨?_, ?_, ?_, ?_, ?_⟩
    · rw [hvisited.offsets]
      exact running_ne_nil _ _
    · rw [hvisited.offsets]
      exact running_sorted _ _
    · exact fun offset ho => Nat.lt_of_le_of_lt (hbound offset ho) (sum_rowContent_lt hlen)
    · intro offset ho
      change offset ≤ (source.slots.map (rowContent inner)).flatten.length
      rw [List.length_flatten]
      exact hbound offset ho
    · intro validity hvalidity
      rw [source.valid.rowNulls validity hvalidity, hvisited.offsets, length_running,
        List.length_map, List.length_map, ListArray.length_slots, ListArray.length_offsets]
  let target : ListArray (List β) := ⟨_, _, _, hvalid⟩
  refine ⟨target, ?_, ?_⟩
  · rw [collect, hstate]
    dsimp only [Option.bind_eq_bind, Option.bind_some]
    rw [hvalues]
    exact ListArray.new_eq hvalid
  · have hlength : target.len = source.len := by
      change state.1.length - 1 = source.len
      rw [hvisited.offsets, length_running, List.length_map, List.length_map,
        ListArray.length_slots, Nat.add_sub_cancel]
    have hvalidity : target.validity = source.slots.map Slot.valid := by
      rw [ListArray.slots_valid]
      exact ListArray.validity_congr rfl hlength
    rw [ListArray.rows_running hvisited.offsets rfl, hvalidity, List.zipWith_map,
      List.zipWith_self, ListArray.rows, List.map_map]
    refine List.map_congr_left fun slot _ => ?_
    exact (flattenRow_row inner slot).symm

-- ---------------------------------------------------------------------------
-- The transform
-- ---------------------------------------------------------------------------

theorem length_le_one (htrivial : isTrivial source = true) (hslot : slot ∈ source.slots)
    (hvalid : slot.valid = true) : slot.stop - slot.start ≤ 1 := by
  have := List.all_eq_true.mp htrivial slot hslot
  rw [hvalid] at this
  exact of_decide_eq_true this

theorem unwrap_rows (hinner : InnerOf source.values lists inner)
    (htrivial : isTrivial source = true) (htarget : unwrap source inner = some target) :
    target.rows target.values = (source.rows lists).map flattenRow ↔ ¬CoversNull source := by
  obtain ⟨target', htarget', hvalues, hslots⟩ := unwrap_eq source hinner.len
  rw [htarget] at htarget'
  cases htarget'
  rw [ListArray.rows, hslots, hvalues, ListArray.rows, List.map_map, List.map_map,
    List.map_inj_left, CoversNull]
  constructor
  · rintro h ⟨slot, hslot, hvalid, hone, hcover⟩
    rw [← hinner.slots] at hcover
    have hrow := h slot hslot
    rw [← hinner.lists] at hrow
    exact (unwrapped_row hslot hinner.len hvalid (length_le_one htrivial hslot hvalid)).mp hrow
      ⟨hone, hcover⟩
  · intro h slot hslot
    cases hvalid : slot.valid with
    | false =>
      simp [Slot.row, hvalid, flattenRow]
    | true =>
      have hrow := (unwrapped_row hslot hinner.len hvalid
        (length_le_one htrivial hslot hvalid)).mpr
      rw [hinner.lists] at hrow
      refine hrow ?_
      rintro ⟨hone, hcover⟩
      rw [hinner.slots] at hcover
      exact h ⟨slot, hslot, hvalid, hone, hcover⟩

/-- Flattening goes row by row where the lists can be addressed, unless the fast path meets a
null list that covers values. -/
theorem flattensRows_iff (hlists : source.values.lists = some lists) :
    FlattensRows source lists ↔
      source.values.Addressable ∧ (isTrivial source = false ∨ ¬CoversNull source) := by
  by_cases haddr : source.values.Addressable
  · obtain ⟨inner, hinner⟩ := exists_innerOf hlists haddr
    rw [FlattensRows, transform, hinner.found, and_iff_right haddr]
    dsimp only
    cases htrivial : isTrivial source with
    | true =>
      obtain ⟨target, htarget, -, -⟩ := unwrap_eq source hinner.len
      rw [if_pos rfl, htarget, Bool.true_eq_false, false_or,
        ← unwrap_rows hinner htrivial htarget]
      constructor
      · rintro ⟨target', htarget', hrows⟩
        cases htarget'
        exact hrows
      · exact fun hrows => ⟨target, rfl, hrows⟩
    | false =>
      obtain ⟨target, htarget, hrows⟩ := collect_eq hinner.len
      rw [hinner.lists] at hrows
      rw [if_neg (by decide), htarget]
      exact ⟨fun _ => .inl rfl, fun _ => ⟨target, rfl, hrows⟩⟩
  · refine ⟨?_, fun h => absurd h.1 haddr⟩
    rintro ⟨target, htarget, -⟩
    rw [transform] at htarget
    split at htarget
    · cases htarget
    · cases htarget
    · rename_i inner hinner
      exact absurd (addressable_of_innerList hinner) haddr

end Flatten

-- ---------------------------------------------------------------------------
-- Explode
-- ---------------------------------------------------------------------------

namespace Explode

abbrev Rows (τ : Type) := List (Bool × List (Option τ))

variable {τ : Type} {values : List (Option τ)} {rows : Rows τ} {state : State} {slot : Slot}

structure Written (values : List (Option τ)) (rows : Rows τ) (state : State) : Prop where
  offsets : state.newOffsets = running 0 ((rows.map (·.2)).map List.length)
  validity : state.newValidity = rows.map (·.1)
  taken : (state.indices.mapM fun j => values[j]?) = some (rows.map (·.2)).flatten
  current : state.currentOffset = ((rows.map (·.2)).map List.length).sum

def explodedSlot (values : List (Option τ)) (slot : Slot) : Rows τ :=
  if !slot.valid then [(false, [])]
  else if slot.start = slot.stop then [(true, [])]
  else (slice values slot.start slot.stop).map fun element => (element.isSome, [element])

theorem Written.offsets_concat (h : Written values rows state) (valid : Bool)
    (content : List (Option τ)) :
    state.newOffsets ++ [state.currentOffset + content.length] =
      running 0 (((rows ++ [(valid, content)]).map (·.2)).map List.length) := by
  rw [List.map_append, List.map_append, List.map_singleton, List.map_singleton, running_concat,
    h.offsets, h.current, Nat.zero_add]

theorem Written.pushRow (h : Written values rows state) (valid : Bool) :
    Written values (rows ++ [(valid, [])]) (pushRow state valid) := by
  refine ⟨h.offsets_concat valid [], ?_, ?_, ?_⟩
  · rw [List.map_append, ← h.validity]
    rfl
  · rw [List.map_append, List.flatten_append, ← List.append_nil (rows.map (·.2)).flatten]
    simpa [Explode.pushRow] using h.taken
  · simpa [Explode.pushRow] using h.current

theorem Written.pushElement (h : Written values rows state) (hj : values[j]? = some element) :
    ∃ state', pushElement values state j = some state' ∧
      Written values (rows ++ [(element.isSome, [element])]) state' := by
  rw [Explode.pushElement, hj]
  refine ⟨_, rfl, h.offsets_concat element.isSome [element], ?_, ?_, ?_⟩
  · rw [List.map_append, ← h.validity]
    rfl
  · rw [List.mapM_append, h.taken, List.mapM_cons, hj, List.map_append, List.flatten_append]
    rfl
  · rw [List.map_append, List.map_append, List.sum_append, ← h.current]
    rfl

theorem Written.pushElements (h : Written values rows state) (start count : Nat)
    (hcount : start + count ≤ values.length) :
    ∃ state', (List.range' start count).foldlM (Explode.pushElement values) state = some state' ∧
      Written values (rows ++ (slice values start (start + count)).map fun element =>
        (element.isSome, [element])) state' := by
  induction count generalizing start rows state with
  | zero =>
    refine ⟨state, rfl, ?_⟩
    rw [Nat.add_zero, slice_self, List.map_nil, List.append_nil]
    exact h
  | succ count ih =>
    have hfirst : values[start]? = some values[start] := List.getElem?_eq_getElem (by omega)
    obtain ⟨next, hnext, hwritten⟩ := h.pushElement hfirst
    obtain ⟨state', hstate', hrest⟩ := ih hwritten (start + 1) (by omega)
    refine ⟨state', ?_, ?_⟩
    · rw [List.range'_succ, List.foldlM_cons, hnext]
      exact hstate'
    · have hend : start + 1 + count = start + (count + 1) := by omega
      rw [List.append_assoc, hend] at hrest
      rw [← slice_append_slice values (Nat.le_succ start) (by omega), slice_succ hfirst]
      exact hrest

theorem Written.visitRow (h : Written values rows state) (hle : slot.start ≤ slot.stop)
    (hstop : slot.stop ≤ values.length) :
    ∃ state', visitRow values state slot = some state' ∧
      Written values (rows ++ explodedSlot values slot) state' := by
  rw [Explode.visitRow, explodedSlot]
  cases slot.valid with
  | false => exact ⟨_, rfl, h.pushRow false⟩
  | true =>
    simp only [Bool.not_true, Bool.false_eq_true, if_false]
    by_cases hempty : slot.start = slot.stop
    · rw [if_pos hempty, if_pos hempty]
      exact ⟨_, rfl, h.pushRow true⟩
    · have hend : slot.start + (slot.stop - slot.start) = slot.stop := by omega
      rw [if_neg hempty, if_neg hempty]
      have hpushed := h.pushElements slot.start (slot.stop - slot.start) (by omega)
      rw [hend] at hpushed
      exact hpushed

theorem Written.visitRows {slots : List Slot} (h : Written values rows state)
    (hslots : ∀ slot ∈ slots, slot.start ≤ slot.stop ∧ slot.stop ≤ values.length) :
    ∃ state', slots.foldlM (Explode.visitRow values) state = some state' ∧
      Written values (rows ++ slots.flatMap (explodedSlot values)) state' := by
  induction slots generalizing rows state with
  | nil =>
    refine ⟨state, rfl, ?_⟩
    rw [List.flatMap_nil, List.append_nil]
    exact h
  | cons slot slots ih =>
    obtain ⟨hle, hstop⟩ := hslots slot List.mem_cons_self
    obtain ⟨next, hnext, hwritten⟩ := h.visitRow hle hstop
    obtain ⟨state', hstate', hrest⟩ := ih hwritten fun s hs => hslots s (List.mem_cons_of_mem _ hs)
    refine ⟨state', ?_, ?_⟩
    · rw [List.foldlM_cons, hnext]
      exact hstate'
    · rw [List.flatMap_cons, ← List.append_assoc]
      exact hrest

theorem explodedSlot_rows (values : List (Option τ)) (hle : slot.start ≤ slot.stop)
    (hstop : slot.stop ≤ values.length) :
    ((explodedSlot values slot).map fun row => if row.1 then some row.2 else none) =
      explodeRow (slot.row values) := by
  rw [explodedSlot, Slot.row]
  cases slot.valid with
  | false => rfl
  | true =>
    rw [if_neg (by decide), if_pos rfl]
    by_cases hempty : slot.start = slot.stop
    · rw [if_pos hempty, hempty, slice_self]
      rfl
    · have hlength := length_slice slot.start hstop
      rw [if_neg hempty, List.map_map]
      cases hslice : slice values slot.start slot.stop with
      | nil =>
        rw [hslice, List.length_nil] at hlength
        omega
      | cons first rest =>
        refine List.map_congr_left fun element _ => ?_
        cases element <;> rfl

theorem sum_explodedSlot_le (values : List (Option τ)) (hstop : slot.stop ≤ values.length) :
    (((explodedSlot values slot).map (·.2)).map List.length).sum ≤ slot.stop - slot.start := by
  rw [explodedSlot]
  split
  · exact Nat.zero_le _
  · split
    · exact Nat.zero_le _
    · rw [← length_slice _ hstop, List.map_map, List.map_map]
      simp [Function.comp_def]

theorem takeValues_eq (values : List (Option τ)) (indices : List Nat) :
    takeValues values indices = indices.mapM fun j => values[j]? := by
  cases indices with
  | nil =>
    rw [takeValues, sliceArray, List.isEmpty_nil, if_pos rfl, if_pos (Nat.zero_le _)]
    rfl
  | cons j indices => rfl

theorem sum_exploded_lt (source : ListArray (List (Option τ))) :
    (((source.slots.flatMap (explodedSlot source.values)).map (·.2)).map List.length).sum <
      2 ^ 31 := by
  refine Nat.lt_of_le_of_lt ?_ source.sum_slots_lt
  have hslots : ∀ slot ∈ source.slots, slot.stop ≤ source.values.length :=
    fun slot h => ListArray.slot_inRange h
  revert hslots
  induction source.slots with
  | nil => exact fun _ => Nat.le_refl _
  | cons slot slots ih =>
    intro hslots
    have hfirst := sum_explodedSlot_le source.values (hslots slot List.mem_cons_self)
    have hrest := ih fun s hs => hslots s (List.mem_cons_of_mem _ hs)
    rw [List.flatMap_cons, List.map_append, List.map_append, List.sum_append, List.map_cons,
      List.sum_cons]
    exact Nat.add_le_add hfirst hrest

theorem explodesRows (source : ListArray (List (Option τ))) : ExplodesRows source := by
  have hslots : ∀ slot ∈ source.slots,
      slot.start ≤ slot.stop ∧ slot.stop ≤ source.values.length :=
    fun slot h => ⟨ListArray.slot_le h, ListArray.slot_inRange h⟩
  have hstart : Written source.values ([] : Rows τ) {} := ⟨rfl, rfl, rfl, rfl⟩
  obtain ⟨state, hstate, hwritten⟩ := hstart.visitRows hslots
  rw [List.nil_append] at hwritten
  have htaken := hwritten.taken
  rw [← takeValues_eq] at htaken
  have hbound : ∀ offset ∈ state.newOffsets, offset ≤
      (((source.slots.flatMap (explodedSlot source.values)).map (·.2)).map List.length).sum := by
    intro offset hoffset
    rw [hwritten.offsets] at hoffset
    have := mem_running hoffset
    omega
  have hvalid : ListArray.Valid state.newOffsets (some state.newValidity)
      (Sized.size ((source.slots.flatMap (explodedSlot source.values)).map (·.2)).flatten) := by
    refine ⟨?_, ?_, ?_, ?_, ?_⟩
    · rw [hwritten.offsets]
      exact running_ne_nil _ _
    · rw [hwritten.offsets]
      exact running_sorted _ _
    · exact fun offset ho => Nat.lt_of_le_of_lt (hbound offset ho) (sum_exploded_lt source)
    · intro offset ho
      refine (hbound offset ho).trans (Nat.le_of_eq ?_)
      exact List.length_flatten.symm
    · intro validity hvalidity
      cases hvalidity
      rw [hwritten.validity, hwritten.offsets, length_running, List.length_map, List.length_map,
        List.length_map]
  let target : ListArray (List (Option τ)) := ⟨_, _, _, hvalid⟩
  refine ⟨target, ?_, ?_⟩
  · rw [transform, hstate]
    dsimp only [Option.bind_eq_bind, Option.bind_some]
    rw [htaken, Option.bind_some, ListArray.new_eq hvalid]
    rfl
  · have hvalidity : target.validity =
        (source.slots.flatMap (explodedSlot source.values)).map (·.1) := hwritten.validity
    rw [ListArray.rows_running hwritten.offsets rfl, hvalidity, List.zipWith_map,
      List.zipWith_self, List.map_flatMap, ListArray.rows, List.flatMap_map]
    refine List.flatMap_congr fun slot hslot => ?_
    exact explodedSlot_rows source.values (hslots slot hslot).1 (hslots slot hslot).2

end Explode

-- ---------------------------------------------------------------------------
-- Main results
-- ---------------------------------------------------------------------------

/-- Both transforms go row by row, but for the fast path of the first on null lists that cover
values, and for lists that are too many to address. -/
theorem flattens_and_explodes (source : ListArray (NestedValues β))
    (scattered : ListArray (List (Option τ))) (hlists : source.values.lists = some lists) :
    (FlattensRows source lists ↔
      source.values.Addressable ∧ (Flatten.isTrivial source = false ∨ ¬CoversNull source)) ∧
    ExplodesRows scattered :=
  ⟨Flatten.flattensRows_iff hlists, Explode.explodesRows scattered⟩

/-- One row that holds one null list, which covers two values. -/
def coveredNull : ListArray (NestedValues Nat) where
  offsets := [0, 1]
  nulls := none
  values := .list ⟨[0, 2], some [false], [7, 8], by decide⟩
  valid := by decide

def twoLists : ListArray (NestedValues Nat) where
  offsets := [0, 2]
  nulls := none
  values := .list ⟨[0, 1, 2], some [false, true], [7, 8], by decide⟩
  valid := by decide

theorem flattens_and_explodes_two_lists :
    (FlattensRows twoLists [none, some [8]] ↔
      twoLists.values.Addressable ∧
        (Flatten.isTrivial twoLists = false ∨ ¬CoversNull twoLists)) ∧
    ExplodesRows (⟨[0, 2], none, [some 7, none], by decide⟩ : ListArray (List (Option Nat))) :=
  flattens_and_explodes twoLists ⟨[0, 2], none, [some 7, none], by decide⟩ rfl

/-- The row of one null list should be empty, and shows what the list covers. -/
theorem covered_null_shows : ¬FlattensRows coveredNull [none] := by
  rw [Flatten.flattensRows_iff rfl]
  rintro ⟨-, htrivial | hcovers⟩
  · cases htrivial
  · exact hcovers ⟨⟨true, 0, 1⟩, by decide, rfl, rfl, ⟨false, 0, 2⟩, rfl, rfl, by decide⟩

end DimosViewer.Lenses
