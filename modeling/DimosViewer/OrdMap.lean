import Mathlib.Order.Defs.LinearOrder
import Mathlib.Algebra.BigOperators.Group.List.Basic

/-!
# Ordered maps read through their entries

Laws of `Std.TreeMap` and `Std.TreeSet` stated with equality of keys, an
in-place update that creates the default value first, and the ascending list
of entries whose key satisfies a test.
-/

set_option linter.unusedSectionVars false

namespace OrdMap

open Std (TreeMap TreeSet)

section Lookup

variable [Ord α] [Std.TransOrd α] [Std.LawfulEqOrd α] [DecidableEq α]

theorem compare_eq_ite (k k' : α) (x y : γ) :
    (if compare k k' = .eq then x else y) = if k = k' then x else y := by
  by_cases h : k = k'
  · simp [h, Std.ReflCmp.compare_self]
  · simp [h, Std.LawfulEqCmp.compare_eq_iff_eq]

theorem getElem?_insert (m : TreeMap α β) (k k' : α) (v : β) :
    (m.insert k v)[k']? = if k = k' then some v else m[k']? := by
  rw [TreeMap.getElem?_insert, compare_eq_ite]

theorem getElem?_erase (m : TreeMap α β) (k k' : α) :
    (m.erase k)[k']? = if k = k' then none else m[k']? := by
  rw [TreeMap.getElem?_erase, compare_eq_ite]

theorem getElem?_insertIfNew (m : TreeMap α β) (k k' : α) (v : β) :
    (m.insertIfNew k v)[k']? = if k = k' ∧ k ∉ m then some v else m[k']? := by
  simp only [TreeMap.getElem?_insertIfNew, Std.LawfulEqCmp.compare_eq_iff_eq]

theorem mem_insert (m : TreeSet α) (k k' : α) : k' ∈ m.insert k ↔ k = k' ∨ k' ∈ m := by
  rw [TreeSet.mem_insert, Std.LawfulEqCmp.compare_eq_iff_eq]

theorem mem_erase (m : TreeSet α) (k k' : α) : k' ∈ m.erase k ↔ k ≠ k' ∧ k' ∈ m := by
  rw [TreeSet.mem_erase, ne_eq, Std.LawfulEqCmp.compare_eq_iff_eq]

def upsert [Inhabited β] (m : TreeMap α β) (k : α) (f : β → β) : TreeMap α β :=
  m.alter k fun v? => some (f (v?.getD default))

theorem getElem?_upsert [Inhabited β] (m : TreeMap α β) (k k' : α) (f : β → β) :
    (upsert m k f)[k']? = if k = k' then some (f (m.getD k default)) else m[k']? := by
  rw [upsert, TreeMap.getElem?_alter, compare_eq_ite, TreeMap.getD_eq_getD_getElem?]

theorem getD_upsert [Inhabited β] (m : TreeMap α β) (k k' : α) (f : β → β) :
    (upsert m k f).getD k' default = if k = k' then f (m.getD k default) else m.getD k' default := by
  rw [TreeMap.getD_eq_getD_getElem?, getElem?_upsert]
  by_cases h : k = k'
  · simp [h]
  · simp [h, TreeMap.getD_eq_getD_getElem?]

theorem getElem?_modify (m : TreeMap α β) (k k' : α) (f : β → β) :
    (m.modify k f)[k']? = if k = k' then m[k]?.map f else m[k']? := by
  rw [TreeMap.getElem?_modify, compare_eq_ite]

theorem getD_modify [Inhabited β] (m : TreeMap α β) (k k' : α) (f : β → β)
    (h : f default = default) :
    (m.modify k f).getD k' default = if k = k' then f (m.getD k default) else m.getD k' default := by
  rw [TreeMap.getD_eq_getD_getElem?, getElem?_modify]
  by_cases hk : k = k'
  · subst hk
    cases hm : m[k]? <;> simp [TreeMap.getD_eq_getD_getElem?, hm, h]
  · simp [hk, TreeMap.getD_eq_getD_getElem?]

theorem getD_insert (m : TreeMap α β) (k k' : α) (v d : β) :
    (m.insert k v).getD k' d = if k = k' then v else m.getD k' d := by
  rw [TreeMap.getD_insert, compare_eq_ite]

theorem getD_erase (m : TreeMap α β) (k k' : α) (d : β) :
    (m.erase k).getD k' d = if k = k' then d else m.getD k' d := by
  rw [TreeMap.getD_erase, compare_eq_ite]

theorem values_eq_map_toList [Ord κ] (m : TreeMap κ β) : m.values = m.toList.map Prod.snd := by
  show m.inner.inner.values =
    (Std.DTreeMap.Internal.Impl.Const.toList m.inner.inner).map Prod.snd
  rw [Std.DTreeMap.Internal.Impl.values_eq_map_snd,
    Std.DTreeMap.Internal.Impl.Const.toList_eq_toListModel_map, List.map_map]
  rfl

theorem mem_values {m : TreeMap α β} : v ∈ m.values ↔ ∃ k : α, m[k]? = some v := by
  simp only [values_eq_map_toList, List.mem_map, Prod.exists, exists_eq_right,
    TreeMap.mem_toList_iff_getElem?_eq_some]

theorem nodup_toList (m : TreeMap α β) : m.toList.Nodup := by
  refine (@TreeMap.distinct_keys_toList α β compare m _).imp fun hne he => ?_
  subst he
  exact hne Std.ReflCmp.compare_self

theorem toList_insert_perm {m : TreeMap α β} {k : α} (h : m[k]? = none) (v : β) :
    (m.insert k v).toList.Perm ((k, v) :: m.toList) := by
  refine (List.perm_ext_iff_of_nodup (nodup_toList _) (List.nodup_cons.mpr ⟨?_, nodup_toList m⟩)).mpr ?_
  · rw [TreeMap.mem_toList_iff_getElem?_eq_some, h]
    exact nofun
  · intro (k', v')
    rw [TreeMap.mem_toList_iff_getElem?_eq_some, getElem?_insert, List.mem_cons,
      TreeMap.mem_toList_iff_getElem?_eq_some]
    by_cases hk : k = k'
    · subst hk
      simp [h, eq_comm]
    · simp [hk, Ne.symm hk]

theorem toList_erase_perm {m : TreeMap α β} {k : α} (h : m[k]? = some v) :
    m.toList.Perm ((k, v) :: (m.erase k).toList) := by
  refine (List.perm_ext_iff_of_nodup (nodup_toList m) (List.nodup_cons.mpr ⟨?_, nodup_toList _⟩)).mpr ?_
  · rw [TreeMap.mem_toList_iff_getElem?_eq_some, getElem?_erase, if_pos rfl]
    exact nofun
  · intro (k', v')
    rw [TreeMap.mem_toList_iff_getElem?_eq_some, List.mem_cons,
      TreeMap.mem_toList_iff_getElem?_eq_some, getElem?_erase]
    by_cases hk : k = k'
    · subst hk
      simp [h, eq_comm]
    · simp [hk, Ne.symm hk]

end Lookup

-- ---------------------------------------------------------------------------
-- Sums over the values
-- ---------------------------------------------------------------------------

section Total

variable [Ord α] [Std.TransOrd α] [Std.LawfulEqOrd α] [DecidableEq α] [AddCommMonoid M]
  {m m' : TreeMap α β}

def total (m : TreeMap α β) (weight : β → M) : M := (m.values.map weight).sum

theorem total_of_perm {k : α} (h : m.toList.Perm ((k, v) :: m'.toList)) (weight : β → M) :
    total m weight = weight v + total m' weight := by
  have hv := (h.map Prod.snd).map weight
  rw [List.map_cons, List.map_cons, ← values_eq_map_toList, ← values_eq_map_toList] at hv
  rw [total, hv.sum_eq, List.sum_cons, total]

theorem total_congr (h : ∀ k : α, m[k]? = m'[k]?) (weight : β → M) :
    total m weight = total m' weight := by
  have hp : m.toList.Perm m'.toList := by
    refine (List.perm_ext_iff_of_nodup (nodup_toList m) (nodup_toList m')).mpr fun entry => ?_
    rw [TreeMap.mem_toList_iff_getElem?_eq_some, TreeMap.mem_toList_iff_getElem?_eq_some, h]
  rw [total, total, values_eq_map_toList, values_eq_map_toList]
  exact ((hp.map _).map _).sum_eq

theorem total_insert {k : α} (h : m[k]? = none) (v : β) (weight : β → M) :
    total (m.insert k v) weight = weight v + total m weight :=
  total_of_perm (toList_insert_perm h v) weight

theorem total_erase {k : α} (h : m[k]? = some v) (weight : β → M) :
    total m weight = weight v + total (m.erase k) weight :=
  total_of_perm (toList_erase_perm h) weight

theorem total_removed {ks : List α} (hn : ks.Nodup)
    (h : ∀ k : α, m'[k]? = if k ∈ ks then none else m[k]?) (weight : β → M) :
    total m weight = ((ks.filterMap (m[·]?)).map weight).sum + total m' weight := by
  induction ks generalizing m with
  | nil =>
    have heq : total m weight = total m' weight :=
      total_congr (fun k => ((h k).trans (if_neg List.not_mem_nil)).symm) weight
    rw [heq]
    exact (zero_add _).symm
  | cons k rest ih =>
    obtain ⟨hk, hn⟩ := List.nodup_cons.mp hn
    have herase : ∀ k' : α, m'[k']? = if k' ∈ rest then none else (m.erase k)[k']? := by
      intro k'
      rw [h, getElem?_erase]
      by_cases hk' : k = k'
      · simp [hk']
      · simp [List.mem_cons, Ne.symm hk', hk']
    have hrest : rest.filterMap ((m.erase k)[·]?) = rest.filterMap (m[·]?) := by
      refine List.filterMap_congr fun k' hk' => ?_
      rw [getElem?_erase, if_neg (ne_of_mem_of_not_mem hk' hk).symm]
    have ih := ih hn herase
    rw [hrest] at ih
    rw [List.filterMap_cons]
    cases hm : m[k]? with
    | none =>
      rw [← ih]
      refine total_congr (fun k' => ?_) weight
      rw [getElem?_erase]
      split
      case isTrue he => rw [← he, hm]
      case isFalse => rfl
    | some v => rw [total_erase hm weight, ih, List.map_cons, List.sum_cons, add_assoc]

end Total

-- ---------------------------------------------------------------------------
-- A set under every key
-- ---------------------------------------------------------------------------

section SetPerKey

variable [Ord α] [Std.TransOrd α] [Std.LawfulEqOrd α] [DecidableEq α]
variable [Ord β] [Std.TransOrd β] [Std.LawfulEqOrd β] [DecidableEq β]

def insertAt (m : TreeMap α (TreeSet β)) (k : α) (x : β) : TreeMap α (TreeSet β) :=
  upsert m k (·.insert x)

def eraseAt (m : TreeMap α (TreeSet β)) (k : α) (x : β) : TreeMap α (TreeSet β) :=
  m.modify k (·.erase x)

def setAt (m : TreeMap α (TreeSet β)) (k : α) : TreeSet β := m.getD k default

@[simp] theorem not_mem_setAt_empty : x ∉ setAt (∅ : TreeMap α (TreeSet β)) k :=
  TreeSet.not_mem_emptyc

theorem mem_setAt_iff {m : TreeMap α (TreeSet β)} :
    x ∈ setAt m k ↔ ∃ set, m[k]? = some set ∧ x ∈ set := by
  rw [setAt, TreeMap.getD_eq_getD_getElem?]
  cases m[k]? with
  | none => simp [show (default : TreeSet β) = ∅ from rfl]
  | some set => simp

theorem mem_flatMap_values {m : TreeMap α (TreeSet β)} :
    x ∈ m.values.flatMap (·.toList) ↔ ∃ k, x ∈ setAt m k := by
  simp only [List.mem_flatMap, mem_values, mem_setAt_iff, TreeSet.mem_toList]
  constructor
  · rintro ⟨set, ⟨k, hk⟩, hx⟩
    exact ⟨k, set, hk, hx⟩
  · rintro ⟨k, set, hk, hx⟩
    exact ⟨set, ⟨k, hk⟩, hx⟩

theorem mem_setAt_insertAt {m : TreeMap α (TreeSet β)} :
    y ∈ setAt (insertAt m k x) k' ↔ (k = k' ∧ y = x) ∨ y ∈ setAt m k' := by
  rw [setAt, insertAt, getD_upsert]
  by_cases h : k = k'
  · rw [if_pos h, mem_insert, h, eq_comm]
    simp [setAt]
  · simp [h, setAt]

theorem mem_setAt_eraseAt {m : TreeMap α (TreeSet β)} :
    y ∈ setAt (eraseAt m k x) k' ↔ ¬ (k = k' ∧ y = x) ∧ y ∈ setAt m k' := by
  rw [setAt, eraseAt, getD_modify _ _ _ _ rfl]
  by_cases h : k = k'
  · rw [if_pos h, mem_erase, h, ne_comm]
    simp [setAt]
  · simp [h, setAt]

theorem contains_of_mem_setAt {m : TreeMap α (TreeSet β)} (h : x ∈ setAt m k) :
    m.contains k = true := by
  obtain ⟨set, hs, -⟩ := mem_setAt_iff.mp h
  rw [TreeMap.contains_eq_isSome_getElem?, hs]
  rfl

theorem contains_insertAt {m : TreeMap α (TreeSet β)} :
    (insertAt m k x).contains k' = true ↔ k = k' ∨ m.contains k' = true := by
  rw [TreeMap.contains_eq_isSome_getElem?, TreeMap.contains_eq_isSome_getElem?, insertAt,
    getElem?_upsert]
  by_cases h : k = k' <;> simp [h]

theorem contains_eraseAt {m : TreeMap α (TreeSet β)} :
    (eraseAt m k x).contains k' = m.contains k' := by
  rw [TreeMap.contains_eq_isSome_getElem?, TreeMap.contains_eq_isSome_getElem?, eraseAt,
    getElem?_modify]
  by_cases h : k = k'
  · subst h
    cases m[k]? <;> simp
  · simp [h]

end SetPerKey

-- ---------------------------------------------------------------------------
-- Association lists with distinct keys
-- ---------------------------------------------------------------------------

section Assoc

variable [DecidableEq α] [BEq α] [LawfulBEq α]

theorem lookup_cons (k k' : α) (v : β) (l : List (α × β)) :
    ((k', v) :: l).lookup k = if k = k' then some v else l.lookup k := by
  rw [List.lookup_cons]
  by_cases h : k = k'
  · simp [h]
  · rw [beq_false_of_ne h, if_neg h]

theorem lookup_eq_some_iff_mem {l : List (α × β)} (h : (l.map Prod.fst).Nodup) :
    l.lookup k = some v ↔ (k, v) ∈ l := by
  induction l with
  | nil => simp
  | cons entry rest ih =>
    obtain ⟨k', v'⟩ := entry
    rw [List.map_cons, List.nodup_cons] at h
    rw [lookup_cons]
    by_cases hk : k = k'
    · subst hk
      have hn : (k, v) ∉ rest := fun hm => h.1 (List.mem_map.mpr ⟨_, hm, rfl⟩)
      simp [hn, eq_comm]
    · simp [hk, ih h.2]

theorem lookup_eq_none_iff_not_mem {l : List (α × β)} :
    l.lookup k = none ↔ k ∉ l.map Prod.fst := by
  induction l with
  | nil => simp
  | cons entry rest ih =>
    rw [lookup_cons, List.map_cons, List.mem_cons]
    by_cases hk : k = entry.1
    · simp [hk]
    · simp only [hk, if_false, ih, false_or]

theorem lookup_map_snd (l : List (α × β)) (f : α → β → γ) (k : α) :
    (l.map fun entry => (entry.1, f entry.1 entry.2)).lookup k = (l.lookup k).map (f k) := by
  induction l with
  | nil => rfl
  | cons entry rest ih =>
    obtain ⟨k', v'⟩ := entry
    rw [List.map_cons, lookup_cons, lookup_cons, ih]
    by_cases hk : k = k'
    · simp [hk]
    · simp [hk]

end Assoc

-- ---------------------------------------------------------------------------
-- Updates under every key of an association list
-- ---------------------------------------------------------------------------

section Fold

variable [Ord α] [Std.TransOrd α] [Std.LawfulEqOrd α] [DecidableEq α] [Inhabited β]

/-- Upserts `f v` under every key `k` of the list, `v` being its value. -/
def upsertAll (f : γ → β → β) (l : List (α × γ)) (m : TreeMap α β) : TreeMap α β :=
  l.foldl (fun m entry => upsert m entry.1 (f entry.2)) m

def modifyAll (f : γ → β → β) (l : List (α × γ)) (m : TreeMap α β) : TreeMap α β :=
  l.foldl (fun m entry => m.modify entry.1 (f entry.2)) m

theorem getD_upsertAll (f : γ → β → β) {l : List (α × γ)} (h : (l.map Prod.fst).Nodup)
    (m : TreeMap α β) (k : α) :
    (upsertAll f l m).getD k default =
      (l.lookup k).elim (m.getD k default) fun v => f v (m.getD k default) := by
  induction l generalizing m with
  | nil => rfl
  | cons entry rest ih =>
    rw [List.map_cons, List.nodup_cons] at h
    rw [upsertAll, List.foldl_cons, ← upsertAll, ih h.2, lookup_cons, getD_upsert]
    by_cases hk : k = entry.1
    · subst hk
      simp [lookup_eq_none_iff_not_mem.mpr h.1]
    · simp only [if_neg hk, if_neg (Ne.symm hk)]

theorem getD_modifyAll (f : γ → β → β) (hf : ∀ v, f v default = default)
    {l : List (α × γ)} (h : (l.map Prod.fst).Nodup) (m : TreeMap α β) (k : α) :
    (modifyAll f l m).getD k default =
      (l.lookup k).elim (m.getD k default) fun v => f v (m.getD k default) := by
  induction l generalizing m with
  | nil => rfl
  | cons entry rest ih =>
    rw [List.map_cons, List.nodup_cons] at h
    rw [modifyAll, List.foldl_cons, ← modifyAll, ih h.2, lookup_cons,
      getD_modify _ _ _ _ (hf entry.2)]
    by_cases hk : k = entry.1
    · subst hk
      simp [lookup_eq_none_iff_not_mem.mpr h.1]
    · simp only [if_neg hk, if_neg (Ne.symm hk)]

@[simp] theorem modifyAll_default (f : γ → β → β) (l : List (α × γ)) :
    modifyAll f l (default : TreeMap α β) = default := by
  induction l with
  | nil => rfl
  | cons entry rest ih => exact ih

end Fold

end OrdMap
