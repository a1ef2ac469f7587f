import Mathlib.Data.List.Basic
import Mathlib.Algebra.Order.Group.Nat
import Mathlib.Algebra.GroupWithZero.Nat

/-!
# Lists cut at offsets

A list of lists as one list of values and the offsets at which it is cut.
-/

namespace Offsets

def slice (values : List α) (start stop : Nat) : List α := (values.drop start).take (stop - start)

def cuts (offsets : List Nat) : List (Nat × Nat) := offsets.zip offsets.tail

def running : (start : Nat) → (lengths : List Nat) → List Nat
  | start, [] => [start]
  | start, length :: lengths => start :: running (start + length) lengths

-- ---------------------------------------------------------------------------
-- Slices
-- ---------------------------------------------------------------------------

@[simp] theorem slice_self (values : List α) (start : Nat) : slice values start start = [] := by
  rw [slice, Nat.sub_self, List.take_zero]

theorem length_slice (start : Nat) (h : stop ≤ values.length) :
    (slice values start stop).length = stop - start := by
  rw [slice, List.length_take, List.length_drop]
  omega

theorem slice_append_slice (values : List α) (hstart : start ≤ middle) (hstop : middle ≤ stop) :
    slice values start middle ++ slice values middle stop = slice values start stop := by
  have hsplit : stop - start = middle - start + (stop - middle) := by omega
  have hmiddle : start + (middle - start) = middle := by omega
  rw [slice, slice, slice, hsplit, List.take_add, List.drop_drop, hmiddle]

theorem mem_slice : value ∈ slice values start stop ↔
    ∃ i, start ≤ i ∧ i < stop ∧ values[i]? = some value := by
  simp only [slice, List.mem_iff_getElem?, List.getElem?_take, List.getElem?_drop]
  constructor
  · rintro ⟨i, hi⟩
    split at hi
    case isTrue hlt => exact ⟨start + i, by omega, by omega, hi⟩
    case isFalse => cases hi
  · rintro ⟨i, hstart, hstop, hi⟩
    have hsub : start + (i - start) = i := by omega
    exact ⟨i - start, by rw [if_pos (by omega), hsub, hi]⟩

theorem slice_map (f : α → β) (values : List α) (start stop : Nat) :
    slice (values.map f) start stop = (slice values start stop).map f := by
  rw [slice, slice, List.map_take, List.map_drop]

theorem slice_succ (h : values[start]? = some value) :
    slice values start (start + 1) = [value] := by
  obtain ⟨hlt, hvalue⟩ := List.getElem?_eq_some_iff.mp h
  rw [slice, Nat.add_sub_cancel_left, List.drop_eq_getElem_cons hlt, hvalue]
  rfl

-- ---------------------------------------------------------------------------
-- Cuts
-- ---------------------------------------------------------------------------

@[simp] theorem length_cuts (offsets : List Nat) : (cuts offsets).length = offsets.length - 1 := by
  rw [cuts, List.length_zip, List.length_tail]
  omega

theorem cuts_cons_cons (first second : Nat) (offsets : List Nat) :
    cuts (first :: second :: offsets) = (first, second) :: cuts (second :: offsets) := rfl

theorem cuts_range (count : Nat) :
    cuts (List.range (count + 1)) = (List.range count).map fun i => (i, i + 1) := by
  refine List.ext_getElem (by simp) fun i h h' => ?_
  simp [cuts, Nat.add_comm]

theorem cuts_map (f : Nat → Nat) (offsets : List Nat) :
    cuts (offsets.map f) = (cuts offsets).map (Prod.map f f) := by
  rw [cuts, cuts, ← List.map_tail, List.zip_map]

theorem mem_of_mem_cuts (h : cut ∈ cuts offsets) : cut.1 ∈ offsets ∧ cut.2 ∈ offsets := by
  have hmem := List.of_mem_zip (a := cut.1) (b := cut.2) h
  exact ⟨hmem.1, List.mem_of_mem_tail hmem.2⟩

theorem le_of_mem_cuts (hsorted : offsets.Pairwise (· ≤ ·)) (h : cut ∈ cuts offsets) :
    cut.1 ≤ cut.2 := by
  induction offsets with
  | nil => cases h
  | cons first offsets ih =>
    cases offsets with
    | nil => cases h
    | cons second offsets =>
      rw [cuts_cons_cons] at h
      obtain rfl | h := List.mem_cons.mp h
      · exact (List.pairwise_cons.mp hsorted).1 second List.mem_cons_self
      · exact ih (List.pairwise_cons.mp hsorted).2 h

theorem le_or_le_of_mem_cuts (hsorted : offsets.Pairwise (· ≤ ·)) (h : cut ∈ cuts offsets)
    (ho : o ∈ offsets) : o ≤ cut.1 ∨ cut.2 ≤ o := by
  induction offsets with
  | nil => cases h
  | cons first offsets ih =>
    cases offsets with
    | nil => cases h
    | cons second offsets =>
      obtain ⟨hfirst, hrest⟩ := List.pairwise_cons.mp hsorted
      rw [cuts_cons_cons] at h
      obtain rfl | hcut := List.mem_cons.mp h
      · obtain rfl | ho := List.mem_cons.mp ho
        · exact .inl (Nat.le_refl _)
        · obtain rfl | ho := List.mem_cons.mp ho
          · exact .inr (Nat.le_refl _)
          · exact .inr ((List.pairwise_cons.mp hrest).1 o ho)
      · obtain rfl | ho := List.mem_cons.mp ho
        · exact .inl (hfirst _ (mem_of_mem_cuts hcut).1)
        · exact ih hrest hcut ho

theorem exists_cut (hfirst : first ≤ i) (hlast : last ∈ offsets) (hi : i < last) :
    ∃ cut ∈ cuts (first :: offsets), cut.1 ≤ i ∧ i < cut.2 := by
  induction offsets generalizing first with
  | nil => cases hlast
  | cons second offsets ih =>
    rw [cuts_cons_cons]
    obtain hlt | hle := Nat.lt_or_ge i second
    · exact ⟨(first, second), List.mem_cons_self, hfirst, hlt⟩
    · have hmem : last ∈ offsets := by
        obtain rfl | h := List.mem_cons.mp hlast
        · omega
        · exact h
      obtain ⟨cut, hcut, hin⟩ := ih hle hmem
      exact ⟨cut, List.mem_cons_of_mem _ hcut, hin⟩

theorem flatMap_slices (values : List α) (h : (first :: offsets).Pairwise (· ≤ ·)) :
    ((cuts (first :: offsets)).flatMap fun cut => slice values cut.1 cut.2) =
      slice values first (offsets.getLastD first) := by
  induction offsets generalizing first with
  | nil => exact (slice_self values first).symm
  | cons second offsets ih =>
    obtain ⟨hfirst, hrest⟩ := List.pairwise_cons.mp h
    have hlast : second ≤ offsets.getLastD second := by
      cases offsets with
      | nil => exact Nat.le_refl _
      | cons third offsets =>
        rw [List.getLastD_cons]
        exact (List.pairwise_cons.mp hrest).1 _ (List.getLastD_mem_cons ..)
    rw [cuts_cons_cons, List.flatMap_cons, ih hrest, List.getLastD_cons,
      slice_append_slice values (hfirst second List.mem_cons_self) hlast]

-- ---------------------------------------------------------------------------
-- Running offsets
-- ---------------------------------------------------------------------------

theorem running_ne_nil (start : Nat) (lengths : List Nat) : running start lengths ≠ [] := by
  cases lengths <;> exact List.cons_ne_nil _ _

@[simp] theorem length_running (start : Nat) (lengths : List Nat) :
    (running start lengths).length = lengths.length + 1 := by
  induction lengths generalizing start with
  | nil => rfl
  | cons length lengths ih => rw [running, List.length_cons, ih, List.length_cons]

theorem running_concat (start : Nat) (lengths : List Nat) (length : Nat) :
    running start (lengths ++ [length]) =
      running start lengths ++ [start + lengths.sum + length] := by
  induction lengths generalizing start with
  | nil => rfl
  | cons first lengths ih =>
    rw [List.cons_append, running, ih, running, List.sum_cons, List.cons_append,
      Nat.add_assoc start first]

theorem mem_running (h : offset ∈ running start lengths) :
    start ≤ offset ∧ offset ≤ start + lengths.sum := by
  induction lengths generalizing start with
  | nil =>
    obtain rfl := List.mem_singleton.mp h
    exact ⟨Nat.le_refl _, Nat.le_add_right _ _⟩
  | cons length lengths ih =>
    rw [List.sum_cons]
    obtain rfl | h := List.mem_cons.mp h
    · exact ⟨Nat.le_refl _, Nat.le_add_right _ _⟩
    · have := ih h
      omega

theorem running_sorted (start : Nat) (lengths : List Nat) :
    (running start lengths).Pairwise (· ≤ ·) := by
  induction lengths generalizing start with
  | nil => exact List.pairwise_singleton _ _
  | cons length lengths ih =>
    refine List.pairwise_cons.mpr ⟨fun offset h => ?_, ih _⟩
    exact (Nat.le_add_right _ _).trans (mem_running h).1

theorem slices_running (before : List α) (start : Nat) (rows : List (List α))
    (h : before.length = start) :
    (cuts (running start (rows.map List.length))).map
      (fun cut => slice (before ++ rows.flatten) cut.1 cut.2) = rows := by
  induction rows generalizing before start with
  | nil => rfl
  | cons row rows ih =>
    have hrest := ih (before ++ row) (start + row.length) (by
      rw [List.length_append, h])
    have hfirst : slice (before ++ (row :: rows).flatten) start (start + row.length) = row := by
      rw [slice, List.drop_left' h, Nat.add_sub_cancel_left, List.flatten_cons, List.take_left]
    have hcuts : cuts (running start ((row :: rows).map List.length)) =
        (start, start + row.length) :: cuts (running (start + row.length)
          (rows.map List.length)) := by
      cases rows <;> rfl
    rw [hcuts, List.map_cons, hfirst, List.flatten_cons, ← List.append_assoc, hrest]

end Offsets
