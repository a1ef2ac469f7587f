import Mathlib.Order.MinMax
import Mathlib.Data.List.Basic
import Mathlib.Data.List.TakeDrop
import Mathlib.Data.List.Sort

/-!
# Sorted range maps

Inclusive ranges with values, sorted by their starts, and what overlaps a given range. A query can
be suspended and resumed: what is left of it depends on the index alone.
-/

namespace DimosViewer

variable {K V : Type*} [LinearOrder K]

def runningMax : Option K → List K → List K
  | _, [] => []
  | none, e :: rest => e :: runningMax (some e) rest
  | some m, e :: rest => max m e :: runningMax (some (max m e)) rest

/-- `maxEnd` is what `update_max_end` computes. -/
structure SortedRangeMap (K V : Type*) [LinearOrder K] where
  entries : List ((K × K) × V)
  sorted : entries.Pairwise fun a b => a.1.1 ≤ b.1.1
  maxEnd : List K
  maxEnd_eq : maxEnd = runningMax none (entries.map (·.1.2))

namespace SortedRangeMap

def empty : SortedRangeMap K V := ⟨[], .nil, [], rfl⟩

def extend (map : SortedRangeMap K V) (newEntries : List ((K × K) × V)) : SortedRangeMap K V :=
  let entries := (map.entries ++ newEntries).mergeSort fun a b => a.1.1 ≤ b.1.1
  { entries
    sorted := by
      refine (List.pairwise_mergeSort ?_ ?_ _).imp fun h => of_decide_eq_true h
      · intro a b c hab hbc
        exact decide_eq_true ((of_decide_eq_true hab).trans (of_decide_eq_true hbc))
      · intro a b
        simpa using le_total a.1.1 b.1.1
    maxEnd := runningMax none (entries.map (·.1.2))
    maxEnd_eq := rfl }

theorem entries_extend_perm (map : SortedRangeMap K V) (newEntries : List ((K × K) × V)) :
    (map.extend newEntries).entries.Perm (map.entries ++ newEntries) :=
  List.mergeSort_perm _ _

def findFirstPossible (map : SortedRangeMap K V) (query : K × K) : Nat :=
  (map.maxEnd.takeWhile (· < query.1)).length

-- ---------------------------------------------------------------------------
-- Overlap iterators
-- ---------------------------------------------------------------------------

/-- `OverlapIter::next` at an index: what it yields, and the index after it. -/
def next (map : SortedRangeMap K V) (query : K × K) (idx : Nat) :
    Option ((K × K) × V) × Nat :=
  match h : map.entries[idx]? with
  | none => (none, idx)
  | some (range, value) =>
    if query.2 < range.1 then (none, idx)
    else if query.1 ≤ range.2 then (some (range, value), idx + 1)
    else map.next query (idx + 1)
termination_by map.entries.length - idx
decreasing_by
  have := (List.getElem?_eq_some_iff.mp h).1
  omega

theorem next_bounds (map : SortedRangeMap K V) (query : K × K) (idx : Nat)
    (h : (map.next query idx).1 = some entry) :
    idx < (map.next query idx).2 ∧ (map.next query idx).2 ≤ map.entries.length := by
  fun_induction map.next query idx with
  | case1 => simp at h
  | case2 => simp at h
  | case3 idx range value hget =>
    exact ⟨Nat.lt_succ_self _, (List.getElem?_eq_some_iff.mp hget).1⟩
  | case4 idx range value hget hend hstart ih =>
    obtain ⟨hl, hu⟩ := ih h
    exact ⟨by omega, hu⟩

def find (map : SortedRangeMap K V) (query : K × K) (p : (K × K) × V → Bool) (idx : Nat) :
    Option ((K × K) × V) × Nat :=
  match _h : map.next query idx with
  | (none, idx') => (none, idx')
  | (some entry, idx') => if p entry then (some entry, idx') else map.find query p idx'
termination_by map.entries.length - idx
decreasing_by
  have hentry : (map.next query idx).1 = some entry := by rw [_h]
  have hb := map.next_bounds query idx hentry
  rw [_h] at hb
  simp only at hb
  omega

-- ---------------------------------------------------------------------------
-- What is left of a query
-- ---------------------------------------------------------------------------

def overlapsFrom (map : SortedRangeMap K V) (query : K × K) (idx : Nat) : List ((K × K) × V) :=
  ((map.entries.drop idx).takeWhile fun e => e.1.1 ≤ query.2).filter fun e => query.1 ≤ e.1.2

theorem overlapsFrom_eq_next (map : SortedRangeMap K V) (query : K × K) (idx : Nat) :
    map.overlapsFrom query idx =
      match map.next query idx with
      | (none, _) => []
      | (some entry, idx') => entry :: map.overlapsFrom query idx' := by
  fun_induction map.next query idx with
  | case1 idx hget =>
    rw [overlapsFrom, List.drop_eq_nil_of_le (List.getElem?_eq_none_iff.mp hget)]
    rfl
  | case2 idx range value hget hend =>
    obtain ⟨hlt, hval⟩ := List.getElem?_eq_some_iff.mp hget
    rw [overlapsFrom, List.drop_eq_getElem_cons hlt, hval, List.takeWhile_cons_of_neg (by simpa)]
    rfl
  | case3 idx range value hget hend hstart =>
    obtain ⟨hlt, hval⟩ := List.getElem?_eq_some_iff.mp hget
    rw [overlapsFrom, List.drop_eq_getElem_cons hlt, hval,
      List.takeWhile_cons_of_pos (by simpa using hend), List.filter_cons_of_pos (by simpa)]
    rfl
  | case4 idx range value hget hend hstart ih =>
    obtain ⟨hlt, hval⟩ := List.getElem?_eq_some_iff.mp hget
    rw [← ih, overlapsFrom, List.drop_eq_getElem_cons hlt, hval,
      List.takeWhile_cons_of_pos (by simpa using hend),
      List.filter_cons_of_neg (by simpa using hstart)]
    rfl

theorem filter_overlapsFrom_eq_find (map : SortedRangeMap K V) (query : K × K)
    (p : (K × K) × V → Bool) (idx : Nat) :
    (map.overlapsFrom query idx).filter p =
      match map.find query p idx with
      | (none, _) => []
      | (some entry, idx') => entry :: (map.overlapsFrom query idx').filter p := by
  fun_induction map.find query p idx with
  | case1 idx idx' h =>
    rw [overlapsFrom_eq_next, h]
    rfl
  | case2 idx idx' entry h hp =>
    rw [overlapsFrom_eq_next, h]
    simp [hp]
  | case3 idx idx' entry h hp ih =>
    rw [overlapsFrom_eq_next, h, ← ih]
    simp [hp]

-- ---------------------------------------------------------------------------
-- Whole queries
-- ---------------------------------------------------------------------------

theorem takeWhile_eq_filter_of_sorted {entries : List ((K × K) × V)}
    (h : entries.Pairwise fun a b => a.1.1 ≤ b.1.1) (hi : K) :
    (entries.takeWhile fun e => e.1.1 ≤ hi) = entries.filter fun e => e.1.1 ≤ hi := by
  induction h with
  | nil => rfl
  | @cons e rest hall _ ih =>
    by_cases he : e.1.1 ≤ hi
    · rw [List.takeWhile_cons_of_pos (by simpa), List.filter_cons_of_pos (by simpa), ih]
    · rw [List.takeWhile_cons_of_neg (by simpa using he),
        List.filter_cons_of_neg (by simpa using he)]
      refine (List.filter_eq_nil_iff.mpr fun e' he' => ?_).symm
      simpa using (not_le.mp he).trans_le (hall e' he')

/-- What is skipped at the front ends before the query starts. -/
theorem filter_drop_runningMax (entries : List ((K × K) × V)) (m : Option K) (lo : K) :
    ((entries.drop ((runningMax m (entries.map (·.1.2))).takeWhile (· < lo)).length).filter
      fun e => lo ≤ e.1.2) = entries.filter fun e => lo ≤ e.1.2 := by
  induction entries generalizing m with
  | nil => simp
  | cons e rest ih =>
    cases m with
    | none =>
      by_cases he : e.1.2 < lo
      · rw [List.map_cons, runningMax, List.takeWhile_cons_of_pos (by simpa), List.length_cons,
          List.drop_succ_cons, ih, List.filter_cons_of_neg (by simpa using he)]
      · rw [List.map_cons, runningMax, List.takeWhile_cons_of_neg (by simpa using he)]
        rfl
    | some m =>
      by_cases he : max m e.1.2 < lo
      · rw [List.map_cons, runningMax, List.takeWhile_cons_of_pos (by simpa using he),
          List.length_cons, List.drop_succ_cons, ih,
          List.filter_cons_of_neg (by simpa using (max_lt_iff.mp he).2)]
      · rw [List.map_cons, runningMax, List.takeWhile_cons_of_neg (by simpa using he)]
        rfl

/-- A query yields exactly the entries that overlap it, in order. -/
theorem overlapsFrom_findFirstPossible (map : SortedRangeMap K V) (query : K × K) :
    map.overlapsFrom query (map.findFirstPossible query) =
      map.entries.filter fun e => e.1.1 ≤ query.2 ∧ query.1 ≤ e.1.2 := by
  have hdrop : (map.entries.drop (map.findFirstPossible query)).Pairwise
      fun a b => a.1.1 ≤ b.1.1 := map.sorted.drop
  rw [overlapsFrom, takeWhile_eq_filter_of_sorted hdrop, List.filter_comm, findFirstPossible,
    map.maxEnd_eq, filter_drop_runningMax, List.filter_filter]
  simp

-- ---------------------------------------------------------------------------
-- Suspended and resumed queries
-- ---------------------------------------------------------------------------

/-- What an iterator yields until it stops; `resume_query` at a cursor. -/
def resumeQuery (map : SortedRangeMap K V) (query : K × K) (cursor : Nat) :
    List ((K × K) × V) :=
  match _h : map.next query cursor with
  | (none, _) => []
  | (some entry, idx) => entry :: map.resumeQuery query idx
termination_by map.entries.length - cursor
decreasing_by
  have hentry : (map.next query cursor).1 = some entry := by rw [_h]
  have hb := map.next_bounds query cursor hentry
  rw [_h] at hb
  simp only at hb
  omega

def query (map : SortedRangeMap K V) (query : K × K) : List ((K × K) × V) :=
  map.resumeQuery query (map.findFirstPossible query)

/-- A number of calls of `OverlapIter::next`: what they yield, and the cursor after them. -/
def consume (map : SortedRangeMap K V) (query : K × K) : Nat → Nat → List ((K × K) × V) × Nat
  | 0, idx => ([], idx)
  | n + 1, idx =>
    let (entry, idx) := map.next query idx
    let (entries, cursor) := map.consume query n idx
    (entry.toList ++ entries, cursor)

def extendAll (calls : List (List ((K × K) × V))) : SortedRangeMap K V :=
  calls.foldl extend empty

def Overlaps (range query : K × K) : Prop := range.1 ≤ query.2 ∧ query.1 ≤ range.2

instance (range query : K × K) : Decidable (Overlaps range query) :=
  inferInstanceAs (Decidable (_ ∧ _))

theorem resumeQuery_eq_overlapsFrom (map : SortedRangeMap K V) (query : K × K) (cursor : Nat) :
    map.resumeQuery query cursor = map.overlapsFrom query cursor := by
  fun_induction map.resumeQuery query cursor with
  | case1 cursor idx h => rw [overlapsFrom_eq_next, h]
  | case2 cursor entry idx h ih => rw [overlapsFrom_eq_next, h, ih]

theorem next_of_none (map : SortedRangeMap K V) (query : K × K) (idx : Nat)
    (h : (map.next query idx).1 = none) :
    map.next query (map.next query idx).2 = map.next query idx := by
  fun_induction map.next query idx with
  | case1 idx hget =>
    rw [SortedRangeMap.next]
    split
    · rfl
    · next range value hsome => exact absurd hsome (by simp [hget])
  | case2 idx range value hget hend =>
    rw [SortedRangeMap.next]
    split
    · rfl
    · next range' value' hsome =>
      obtain ⟨rfl, rfl⟩ : range = range' ∧ value = value' := by
        simpa using hget.symm.trans hsome
      rw [if_pos hend]
  | case3 => simp at h
  | case4 idx range value hget hend hstart ih => exact ih h

theorem resumeQuery_of_none (map : SortedRangeMap K V) (query : K × K) (idx : Nat)
    (h : (map.next query idx).1 = none) : map.resumeQuery query idx = [] := by
  rw [resumeQuery]
  split
  · rfl
  · next entry idx' hnext => simp [hnext] at h

theorem resumeQuery_of_some (map : SortedRangeMap K V) (query : K × K) (idx : Nat)
    (h : (map.next query idx).1 = some entry) :
    map.resumeQuery query idx = entry :: map.resumeQuery query (map.next query idx).2 := by
  rw [resumeQuery]
  split
  · next idx' hnext => simp [hnext] at h
  · next entry' idx' hnext =>
    obtain rfl : entry' = entry := by simpa [hnext] using h
    rw [hnext]

/-- A cursor stands for what the iterator has not yielded yet. -/
theorem consume_spec (map : SortedRangeMap K V) (query : K × K) (n idx : Nat) :
    (map.consume query n idx).1 = (map.resumeQuery query idx).take n ∧
      map.resumeQuery query (map.consume query n idx).2 = (map.resumeQuery query idx).drop n := by
  induction n generalizing idx with
  | zero => exact ⟨rfl, rfl⟩
  | succ n ih =>
    obtain ⟨hyield, hrest⟩ := ih (map.next query idx).2
    cases hentry : (map.next query idx).1 with
    | none =>
      have hstay : map.resumeQuery query (map.next query idx).2 = [] :=
        map.resumeQuery_of_none query _ (by rw [map.next_of_none query idx hentry, hentry])
      rw [map.resumeQuery_of_none query idx hentry]
      rw [hstay] at hyield hrest
      simp only [consume, hentry, hyield, hrest, Option.toList_none, List.take_nil,
        List.drop_nil, List.append_nil, and_self]
    | some entry =>
      rw [map.resumeQuery_of_some query idx hentry]
      simp only [consume, hentry, hyield, hrest, Option.toList_some, List.take_succ_cons,
        List.drop_succ_cons, List.singleton_append, and_self]

theorem entries_extendAll_perm (calls : List (List ((K × K) × V))) :
    (extendAll calls).entries.Perm calls.flatten := by
  suffices h : ∀ map : SortedRangeMap K V,
      (calls.foldl extend map).entries.Perm (map.entries ++ calls.flatten) from h empty
  induction calls with
  | nil => intro map; simp
  | cons newEntries calls ih =>
    intro map
    have hrest := ih (map.extend newEntries)
    rw [List.foldl_cons, List.flatten_cons, ← List.append_assoc]
    exact hrest.trans ((map.entries_extend_perm newEntries).append_right _)

/-- Whatever was added in whatever steps, a query yields each entry that overlaps its range once
and in order, and resuming it goes on where it stopped. -/
theorem query_extendAll (calls : List (List ((K × K) × V))) (range : K × K) :
    ((extendAll calls).query range).Perm (calls.flatten.filter fun e => Overlaps e.1 range) ∧
      ((extendAll calls).query range).Pairwise (fun a b => a.1.1 ≤ b.1.1) ∧
      ∀ n, let part := (extendAll calls).consume range n ((extendAll calls).findFirstPossible range)
        part.1 = ((extendAll calls).query range).take n ∧
          (extendAll calls).resumeQuery range part.2 = ((extendAll calls).query range).drop n := by
  have hquery : (extendAll calls).query range =
      (extendAll calls).entries.filter fun e => Overlaps e.1 range := by
    rw [query, resumeQuery_eq_overlapsFrom, overlapsFrom_findFirstPossible]
    rfl
  refine ⟨?_, ?_, fun n => (extendAll calls).consume_spec range n _⟩
  · rw [hquery]
    exact (entries_extendAll_perm calls).filter _
  · rw [hquery]
    exact (extendAll calls).sorted.filter _

end SortedRangeMap

end DimosViewer
