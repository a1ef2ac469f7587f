import Mathlib.Data.List.Induction
import Mathlib.Data.List.Sort
import Std.Data.TreeMap.Lemmas

/-!
# The last element of a list with a property

A search from the back finds the last element that satisfies a test, a map built
from a list holds the last entry of every key, and in the entries of an ordered map
the last one is the one with the greatest key.
-/

open Std (TreeMap TransCmp)

structure IsLast (p : α → Prop) (l : List α) (i : Nat) (a : α) : Prop where
  found : l[i]? = some a
  holds : p a
  last : ∀ j b, l[j]? = some b → p b → j ≤ i

namespace IsLast

variable {p q : α → Prop} {l : List α} {i j : Nat} {a b : α}

theorem mem (h : IsLast p l i a) : a ∈ l := List.mem_of_getElem? h.found

theorem congr (h : ∀ a ∈ l, p a ↔ q a) : IsLast p l i a ↔ IsLast q l i a := by
  refine ⟨fun hl => ⟨hl.found, (h a hl.mem).mp hl.holds, fun j b hb hq => ?_⟩,
    fun hl => ⟨hl.found, (h a hl.mem).mpr hl.holds, fun j b hb hp => ?_⟩⟩
  · exact hl.last j b hb ((h b (List.mem_of_getElem? hb)).mpr hq)
  · exact hl.last j b hb ((h b (List.mem_of_getElem? hb)).mp hp)

theorem map {f : β → α} {l : List β} :
    IsLast p (l.map f) i a ↔ ∃ b, f b = a ∧ IsLast (fun b => p (f b)) l i b := by
  constructor
  · rintro ⟨hf, hp, hl⟩
    obtain ⟨b, hb, rfl⟩ := Option.map_eq_some_iff.mp (List.getElem?_map ▸ hf)
    refine ⟨b, rfl, hb, hp, fun j c hc hpc => hl j (f c) ?_ hpc⟩
    rw [List.getElem?_map, hc]
    rfl
  · rintro ⟨b, rfl, hf, hp, hl⟩
    refine ⟨by rw [List.getElem?_map, hf]; rfl, hp, fun j c hc hpc => ?_⟩
    obtain ⟨d, hd, rfl⟩ := Option.map_eq_some_iff.mp (List.getElem?_map ▸ hc)
    exact hl j d hd hpc

theorem concat {x : α} :
    IsLast p (l ++ [x]) i a ↔ (p x ∧ i = l.length ∧ a = x) ∨ (¬ p x ∧ IsLast p l i a) := by
  have hend : (l ++ [x])[l.length]? = some x := by simp
  have hold : ∀ {j}, j < l.length → (l ++ [x])[j]? = l[j]? := fun hj =>
    List.getElem?_append_left hj
  have hlt : ∀ {j b}, l[j]? = some b → j < l.length := fun hb =>
    (List.getElem?_eq_some_iff.mp hb).1
  have hcases : ∀ {j b}, (l ++ [x])[j]? = some b → (j = l.length ∧ b = x) ∨ l[j]? = some b := by
    intro j b hb
    rcases Nat.lt_or_ge j l.length with hj | hj
    · exact .inr (hold hj ▸ hb)
    · have hj' : j = l.length := by
        have := (List.getElem?_eq_some_iff.mp hb).1
        rw [List.length_append, List.length_singleton] at this
        omega
      subst hj'
      exact .inl ⟨rfl, Option.some.inj (hb.symm.trans hend)⟩
  constructor
  · intro h
    by_cases hx : p x
    · have hi : i = l.length := by
        have hle := h.last _ _ hend hx
        rcases hcases h.found with ⟨hi, -⟩ | hi
        · exact hi
        · exact absurd (hlt hi) (Nat.not_lt.mpr hle)
      subst hi
      exact .inl ⟨hx, rfl, Option.some.inj (h.found.symm.trans hend)⟩
    · refine .inr ⟨hx, (hcases h.found).resolve_left ?_, h.holds, fun j b hb hp => ?_⟩
      · rintro ⟨-, rfl⟩
        exact hx h.holds
      · exact h.last j b ((hold (hlt hb)).trans hb) hp
  · rintro (⟨hx, rfl, rfl⟩ | ⟨hx, h⟩)
    · refine ⟨hend, hx, fun j b hb _ => ?_⟩
      rcases hcases hb with ⟨rfl, -⟩ | hb
      · exact Nat.le_refl _
      · exact Nat.le_of_lt (hlt hb)
    · refine ⟨(hold (hlt h.found)).trans h.found, h.holds, fun j b hb hp => ?_⟩
      rcases hcases hb with ⟨-, rfl⟩ | hb
      · exact (hx hp).elim
      · exact h.last j b hb hp

end IsLast

theorem find?_reverse_eq_some_iff {p : α → Bool} {l : List α} {a : α} :
    l.reverse.find? p = some a ↔ ∃ i, IsLast (p · = true) l i a := by
  induction l using List.reverseRecOn with
  | nil =>
    refine iff_of_false (by simp) ?_
    rintro ⟨i, h⟩
    exact List.not_mem_nil h.mem
  | append_singleton l x ih =>
    rw [List.reverse_append, List.reverse_singleton, List.singleton_append, List.find?_cons]
    simp only [IsLast.concat]
    cases hx : p x with
    | true => simpa using ⟨Eq.symm, Eq.symm⟩
    | false => simpa using ih

theorem exists_isLast {p : α → Prop} {l : List α} (h : ∃ a ∈ l, p a) : ∃ i a, IsLast p l i a := by
  classical
  obtain ⟨a, ha, hp⟩ := h
  cases hf : l.reverse.find? (fun a => decide (p a)) with
  | none => exact absurd (List.find?_eq_none.mp hf a (List.mem_reverse.mpr ha)) (by simpa using hp)
  | some b =>
    obtain ⟨i, hi⟩ := find?_reverse_eq_some_iff.mp hf
    exact ⟨i, b, (IsLast.congr fun a _ => by simp).mp hi⟩

theorem mem_dropLast_iff {R : α → α → Prop} {l : List α} (hasymm : ∀ a b, R a b → ¬ R b a)
    (h : l.Pairwise R) {a : α} : a ∈ l.dropLast ↔ a ∈ l ∧ ∃ b ∈ l, R a b := by
  induction l using List.reverseRecOn with
  | nil => simp
  | append_singleton l x _ =>
    rw [List.dropLast_concat]
    obtain ⟨-, -, hx⟩ := List.pairwise_append.mp h
    constructor
    · exact fun ha => ⟨List.mem_append_left _ ha, x, by simp, hx a ha x (by simp)⟩
    · rintro ⟨ha, b, hb, hab⟩
      refine (List.mem_append.mp ha).resolve_right fun hax => ?_
      obtain rfl := List.mem_singleton.mp hax
      rcases List.mem_append.mp hb with hb | hb
      · exact hasymm a b hab (hx b hb a (by simp))
      · obtain rfl := List.mem_singleton.mp hb
        exact hasymm b b hab hab

section Maps

variable {cmp : α → α → Ordering} [TransCmp cmp]

/-- A map built from a list, later entries over earlier ones. -/
def insertEntries (l : List (α × β)) : TreeMap α β cmp :=
  l.foldl (fun m e => m.insert e.1 e.2) ∅

theorem getElem?_insertEntries {l : List (α × β)} {k : α} {v : β} :
    (insertEntries l : TreeMap α β cmp)[k]? = some v ↔
      ∃ i k', IsLast (fun e => cmp e.1 k = .eq) l i (k', v) := by
  induction l using List.reverseRecOn with
  | nil =>
    refine iff_of_false (by simp [insertEntries]) ?_
    rintro ⟨i, k', h⟩
    exact List.not_mem_nil h.mem
  | append_singleton l x ih =>
    simp only [insertEntries, List.foldl_append, List.foldl_cons, List.foldl_nil,
      TreeMap.getElem?_insert] at ih ⊢
    simp only [IsLast.concat]
    by_cases hx : cmp x.1 k = .eq
    · simp [hx, Prod.ext_iff, eq_comm]
    · simp [hx, ih]

/-- The entries of such a map are the last ones of their keys, as they were spelled there. -/
theorem mem_insertEntries {l : List (α × β)} {e : α × β} :
    e ∈ (insertEntries l : TreeMap α β cmp).toList ↔
      ∃ i, IsLast (fun e' => cmp e'.1 e.1 = .eq) l i e := by
  obtain ⟨k, v⟩ := e
  rw [TreeMap.mem_toList_iff_getKey?_eq_some_and_getElem?_eq_some]
  induction l using List.reverseRecOn with
  | nil =>
    refine iff_of_false (by simp [insertEntries]) ?_
    rintro ⟨i, h⟩
    exact List.not_mem_nil h.mem
  | append_singleton l x ih =>
    simp only [insertEntries, List.foldl_append, List.foldl_cons, List.foldl_nil,
      TreeMap.getElem?_insert, TreeMap.getKey?_insert] at ih ⊢
    simp only [IsLast.concat]
    by_cases hx : cmp x.1 k = .eq
    · simp [hx, Prod.ext_iff, eq_comm]
    · simp [hx, ih]

theorem toList_insertEntries {l : List (α × β)} (h : l.Pairwise fun a b => cmp a.1 b.1 = .lt) :
    (insertEntries l : TreeMap α β cmp).toList = l := by
  have hmem : ∀ e, e ∈ (insertEntries l : TreeMap α β cmp).toList ↔ e ∈ l := by
    intro e
    rw [mem_insertEntries]
    refine ⟨fun ⟨i, hi⟩ => hi.mem, fun he => ?_⟩
    obtain ⟨i, hi, rfl⟩ := List.getElem_of_mem he
    refine ⟨i, List.getElem?_eq_getElem hi, Std.ReflCmp.compare_self, fun j e' he' heq => ?_⟩
    obtain ⟨hj, rfl⟩ := List.getElem?_eq_some_iff.mp he'
    by_contra hlt
    have := List.pairwise_iff_getElem.mp h i j hi hj (Nat.lt_of_not_le hlt)
    rw [Std.OrientedCmp.eq_symm heq] at this
    cases this
  have : Std.Irrefl fun a b : α × β => cmp a.1 b.1 = .lt := ⟨fun a => by
    simp [Std.ReflCmp.compare_self]⟩
  have : IsTrans (α × β) fun a b => cmp a.1 b.1 = .lt := ⟨fun _ _ _ => TransCmp.lt_trans⟩
  have : Std.Antisymm fun a b : α × β => cmp a.1 b.1 = .lt := ⟨fun a b hab hba => by
    have := TransCmp.lt_trans hab hba
    simp [Std.ReflCmp.compare_self] at this⟩
  exact List.Pairwise.eq_of_mem_iff (insertEntries l : TreeMap α β cmp).ordered_keys_toList h hmem

theorem isLast_toList {m : TreeMap α β cmp} {p : α × β → Prop} {e : α × β} :
    (∃ i, IsLast p m.toList i e) ↔
      e ∈ m.toList ∧ p e ∧ ∀ e' ∈ m.toList, p e' → cmp e'.1 e.1 ≠ .gt := by
  have hord := List.pairwise_iff_getElem.mp m.ordered_keys_toList
  constructor
  · rintro ⟨i, h⟩
    refine ⟨h.mem, h.holds, fun e' he' hp => ?_⟩
    obtain ⟨j, hj, rfl⟩ := List.getElem_of_mem he'
    obtain ⟨hi, rfl⟩ := List.getElem?_eq_some_iff.mp h.found
    rcases Nat.lt_or_eq_of_le (h.last j _ (List.getElem?_eq_getElem hj) hp) with hlt | rfl
    · simp [hord j i hj hi hlt]
    · simp [Std.ReflCmp.compare_self]
  · rintro ⟨he, hp, hmax⟩
    obtain ⟨i, hi, rfl⟩ := List.getElem_of_mem he
    refine ⟨i, List.getElem?_eq_getElem hi, hp, fun j e' he' hp' => ?_⟩
    obtain ⟨hj, rfl⟩ := List.getElem?_eq_some_iff.mp he'
    by_contra hlt
    refine hmax _ (List.getElem_mem hj) hp' ?_
    rw [Std.OrientedCmp.gt_iff_lt]
    exact hord i j hi hj (Nat.lt_of_not_le hlt)

theorem mem_insertIfNew {m : TreeMap α β cmp} {k : α} {v : β} {e : α × β} :
    e ∈ (m.insertIfNew k v).toList ↔ e ∈ m.toList ∨ k ∉ m ∧ e = (k, v) := by
  obtain ⟨a, b⟩ := e
  simp only [TreeMap.mem_toList_iff_getKey?_eq_some_and_getElem?_eq_some,
    TreeMap.getElem?_insertIfNew, TreeMap.getKey?_insertIfNew]
  by_cases h : cmp k a = .eq ∧ k ∉ m
  · have hnone : m[a]? = none :=
      TreeMap.getElem?_eq_none fun ha => h.2 ((TreeMap.mem_congr h.1).mpr ha)
    simp [h, hnone, eq_comm]
  · rw [if_neg h, if_neg h]
    refine (or_iff_left ?_).symm
    rintro ⟨hk, heq⟩
    obtain ⟨rfl, -⟩ := Prod.mk.inj heq
    exact h ⟨Std.ReflCmp.compare_self, hk⟩

end Maps
