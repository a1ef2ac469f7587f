import Mathlib.Algebra.Order.Ring.Nat
import Mathlib.Algebra.BigOperators.Group.List.Basic
import Mathlib.Data.List.Basic

/-!
# Maps with keys that compare equal

A map as its entries in the order of their keys. Keys that compare equal may differ, and the
one that came first stays. Sums over the entries follow each update.
-/

open Std (TransOrd TransCmp OrientedCmp)

structure Around (K V : Type*) where
  below : List (K × V)
  stored : Option (K × V)
  above : List (K × V)

def aroundKey {K V : Type*} [Ord K] (k : K) : List (K × V) → Around K V
  | [] => ⟨[], none, []⟩
  | e :: rest =>
    match compare e.1 k with
    | .lt => { aroundKey k rest with below := e :: (aroundKey k rest).below }
    | .eq => ⟨[], some e, rest⟩
    | .gt => ⟨[], none, e :: rest⟩

section AroundKey

variable {K V : Type*} [Ord K] {k : K} {l : List (K × V)}

theorem aroundKey_append (k : K) (l : List (K × V)) :
    (aroundKey k l).below ++ ((aroundKey k l).stored.toList ++ (aroundKey k l).above) = l := by
  induction l with
  | nil => rfl
  | cons e rest ih =>
    rw [aroundKey]
    split
    · exact congrArg (e :: ·) ih
    · rfl
    · rfl

theorem lt_of_mem_below (h : e ∈ (aroundKey k l).below) : compare e.1 k = .lt := by
  induction l with
  | nil => cases h
  | cons e' rest ih =>
    rw [aroundKey] at h
    split at h
    case h_1 hlt =>
      rcases List.mem_cons.mp h with rfl | h
      · exact hlt
      · exact ih h
    case h_2 => cases h
    case h_3 => cases h

variable [TransOrd K]

theorem lt_of_mem_above (hs : (l.map Prod.fst).Pairwise fun a b => compare a b = .lt)
    (h : e ∈ (aroundKey k l).above) : compare k e.1 = .lt := by
  induction l with
  | nil => cases h
  | cons e' rest ih =>
    obtain ⟨hhead, htail⟩ := List.pairwise_cons.mp hs
    rw [aroundKey] at h
    split at h
    case h_1 => exact ih htail h
    case h_2 heq =>
      rw [← TransCmp.congr_left heq]
      exact hhead _ (List.mem_map_of_mem h)
    case h_3 hgt =>
      have hlt : compare k e'.1 = .lt := OrientedCmp.lt_of_gt hgt
      rcases List.mem_cons.mp h with rfl | h
      · exact hlt
      · exact TransCmp.lt_trans hlt (hhead _ (List.mem_map_of_mem h))

theorem stored_of_mem (hs : (l.map Prod.fst).Pairwise fun a b => compare a b = .lt)
    (h : e ∈ l) : (aroundKey e.1 l).stored = some e := by
  induction l with
  | nil => cases h
  | cons e' rest ih =>
    obtain ⟨hhead, htail⟩ := List.pairwise_cons.mp hs
    rw [aroundKey]
    rcases List.mem_cons.mp h with rfl | h
    · have hself : compare e.1 e.1 = .eq := Std.ReflCmp.compare_self
      rw [hself]
    · rw [hhead _ (List.mem_map_of_mem h)]
      exact ih htail h

end AroundKey

structure SortedEntries (K V : Type*) [Ord K] where
  entries : List (K × V)
  sorted : (entries.map Prod.fst).Pairwise fun a b => compare a b = .lt

namespace SortedEntries

variable {K V : Type*} [Ord K]

def empty : SortedEntries K V := ⟨[], .nil⟩

def around (k : K) (m : SortedEntries K V) : Around K V := aroundKey k m.entries

def entry? (k : K) (m : SortedEntries K V) : Option (K × V) := (m.around k).stored

def latestAt (k : K) (m : SortedEntries K V) : Option (K × V) :=
  ((m.around k).below ++ (m.around k).stored.toList).getLast?

theorem entries_eq (k : K) (m : SortedEntries K V) :
    m.entries = (m.around k).below ++ ((m.entry? k).toList ++ (m.around k).above) :=
  (aroundKey_append k m.entries).symm

theorem sorted_around (k : K) (m : SortedEntries K V) :
    ((m.around k).below.map Prod.fst ++ ((m.entry? k).toList.map Prod.fst ++
      (m.around k).above.map Prod.fst)).Pairwise fun a b => compare a b = .lt := by
  rw [← List.map_append, ← List.map_append, ← m.entries_eq k]
  exact m.sorted

variable [TransOrd K]

/-- The map with a value for a key. A key that is stored already stays. -/
def put (k : K) (v : V) (m : SortedEntries K V) : SortedEntries K V where
  entries := (m.around k).below ++ (((m.entry? k).elim k Prod.fst, v) :: (m.around k).above)
  sorted := by
    cases h : m.entry? k with
    | some e =>
      have hs := m.sorted_around k
      rw [h] at hs
      simpa using hs
    | none =>
      have hs := m.sorted_around k
      rw [h, Option.toList_none, List.map_nil, List.nil_append, List.pairwise_append] at hs
      obtain ⟨hbelow, habove, hcross⟩ := hs
      rw [List.map_append, List.map_cons, List.pairwise_append, List.pairwise_cons]
      refine ⟨hbelow, ⟨?_, habove⟩, ?_⟩
      · intro a ha
        obtain ⟨e, he, rfl⟩ := List.mem_map.mp ha
        exact lt_of_mem_above m.sorted he
      · intro a ha b hb
        rcases List.mem_cons.mp hb with rfl | hb
        · obtain ⟨e, he, rfl⟩ := List.mem_map.mp ha
          exact lt_of_mem_below he
        · exact hcross a ha b hb

def erase (k : K) (m : SortedEntries K V) : SortedEntries K V where
  entries := (m.around k).below ++ (m.around k).above
  sorted := by
    rw [List.map_append]
    exact (m.sorted_around k).sublist ((List.sublist_append_right _ _).append_left _)

-- ---------------------------------------------------------------------------
-- Sums
-- ---------------------------------------------------------------------------

def total (f : K × V → Nat) (m : SortedEntries K V) : Nat := (m.entries.map f).sum

variable (f : K × V → Nat) {m : SortedEntries K V} {k : K}

omit [TransOrd K] in
theorem total_eq (k : K) (m : SortedEntries K V) :
    m.total f = ((m.around k).below.map f).sum + ((m.entry? k).elim 0 f +
      ((m.around k).above.map f).sum) := by
  rw [total, m.entries_eq k, List.map_append, List.map_append, List.sum_append, List.sum_append]
  cases m.entry? k <;> simp

theorem total_put (k : K) (v : V) (m : SortedEntries K V) :
    (m.put k v).total f + (m.entry? k).elim 0 f =
      m.total f + f ((m.entry? k).elim k Prod.fst, v) := by
  rw [m.total_eq f k, total, put, List.map_append, List.map_cons, List.sum_append, List.sum_cons]
  omega

omit [TransOrd K] in
theorem total_erase (k : K) (m : SortedEntries K V) :
    (m.erase k).total f + (m.entry? k).elim 0 f = m.total f := by
  rw [m.total_eq f k, total, erase, List.map_append, List.sum_append]
  omega

omit [TransOrd K] in
theorem le_total (h : m.entry? k = some e) : f e ≤ m.total f := by
  rw [m.total_eq f k, h, Option.elim_some]
  omega

theorem entry?_of_latestAt (h : m.latestAt k = some e) : m.entry? e.1 = some e := by
  refine stored_of_mem m.sorted ?_
  rw [m.entries_eq k, ← List.append_assoc]
  exact List.mem_append_left _ (List.mem_of_getLast? h)

end SortedEntries
