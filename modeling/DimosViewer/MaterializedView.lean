import Mathlib.Data.List.AList
import Mathlib.Data.Multiset.Bind

/-!
# Materialized views

A view that holds what every source of a base yields, and how it follows the base:
sources are added, removed by their tag, and exchanged. The base is often the content
of nested maps, so the laws of association lists that this takes come first.

An index of names is a view of the simplest kind: a partial map from names to ids and one from ids to
names that are inverse to each other, and what keeps them so.
-/

-- ---------------------------------------------------------------------------
-- Association lists
-- ---------------------------------------------------------------------------

namespace AList

variable {α : Type _} {β : α → Type _}

/-- Every value is kept, changed or dropped. -/
def retain (f : ∀ a, β a → Option (β a)) (m : AList β) : AList β :=
  ⟨m.entries.filterMap fun e => (f e.1 e.2).map (Sigma.mk e.1), by
    have h := m.nodupKeys
    rw [List.nodupKeys_iff_pairwise] at h ⊢
    refine List.Pairwise.filterMap _ (fun e e' hne b hb b' hb' => ?_) h
    obtain ⟨v, -, rfl⟩ := Option.map_eq_some_iff.mp hb
    obtain ⟨v', -, rfl⟩ := Option.map_eq_some_iff.mp hb'
    exact hne⟩

theorem flatMap_retain (f : ∀ a, β a → Option (β a)) (g : Sigma β → List ρ) (m : AList β) :
    (m.retain f).entries.flatMap g =
      m.entries.flatMap fun e => (f e.1 e.2).elim [] fun b => g ⟨e.1, b⟩ := by
  change (m.entries.filterMap fun e => (f e.1 e.2).map (Sigma.mk e.1)).flatMap g = _
  induction m.entries with
  | nil => rfl
  | cons e l ih =>
    rw [List.filterMap_cons, List.flatMap_cons]
    cases f e.1 e.2 with
    | none => exact ih
    | some b => exact congrArg (g ⟨e.1, b⟩ ++ ·) ih

variable [DecidableEq α]

theorem entries_perm_erase (m : AList β) (a : α) :
    m.entries.Perm ((m.lookup a).toList.map (Sigma.mk a) ++ (m.erase a).entries) := by
  by_cases ha : a ∈ m
  · obtain ⟨b, l₁, l₂, hl₁, hl, he⟩ := List.exists_of_kerase (AList.mem_keys.mp ha)
    have hb : m.lookup a = some b := by
      rw [← Option.mem_def, AList.mem_lookup_iff, hl]
      simp
    rw [hb, show (m.erase a).entries = l₁ ++ l₂ from he, hl]
    exact List.perm_middle
  · rw [AList.lookup_eq_none.mpr ha]
    exact .of_eq (List.kerase_of_notMem_keys ha).symm

theorem flatMap_perm_erase (f : Sigma β → List ρ) (m : AList β) (a : α) :
    (m.entries.flatMap f).Perm
      ((m.lookup a).toList.flatMap (f ⟨a, ·⟩) ++ (m.erase a).entries.flatMap f) := by
  refine ((m.entries_perm_erase a).flatMap_right f).trans (.of_eq ?_)
  rw [List.flatMap_append, List.flatMap_map]

end AList

-- ---------------------------------------------------------------------------
-- Views
-- ---------------------------------------------------------------------------

namespace View

theorem flatMap_filter {l : List α} {f : α → List ρ} {p : α → Bool} {q : ρ → Bool}
    (h : ∀ a ∈ l, ∀ r ∈ f a, q r = p a) : (l.filter p).flatMap f = (l.flatMap f).filter q := by
  induction l with
  | nil => rfl
  | cons a l ih =>
    specialize ih fun b hb => h b (List.mem_cons_of_mem _ hb)
    have ha := h a List.mem_cons_self
    rw [List.flatMap_cons, List.filter_append, ← ih, List.filter_cons]
    cases hp : p a with
    | true =>
      rw [if_pos rfl, List.flatMap_cons, List.filter_eq_self.mpr fun r hr => (ha r hr).trans hp]
    | false =>
      have hnil : (f a).filter q = [] :=
        List.filter_eq_nil_iff.mpr fun r hr => by rw [ha r hr, hp]; exact Bool.false_ne_true
      rw [if_neg Bool.false_ne_true, hnil, List.nil_append]

variable {α ρ τ : Type _} {f : α → Multiset ρ} {base : Multiset α} {view : Multiset ρ}

/-- The view holds what the sources of the base yield, and nothing else. -/
def Mirrors (f : α → Multiset ρ) (base : Multiset α) (view : Multiset ρ) : Prop :=
  view = base.bind f

namespace Mirrors

theorem add (h : Mirrors f base view) (new : Multiset α) :
    Mirrors f (base + new) (view + new.bind f) := by
  rw [Mirrors, Multiset.add_bind, h]

/-- Sources go by their tag, which is also that of what they yield. -/
theorem filter (h : Mirrors f base view) (p : τ → Prop) [DecidablePred p] (tag : α → τ)
    (tagOf : ρ → τ) (ht : ∀ a, ∀ r ∈ f a, tagOf r = tag a) :
    Mirrors f (base.filter fun a => p (tag a)) (view.filter fun r => p (tagOf r)) := by
  rw [Mirrors, h, Multiset.filter_bind, Multiset.bind_filter]
  refine Multiset.bind_congr fun a _ => ?_
  by_cases hp : p (tag a)
  · rw [if_pos hp, Multiset.filter_eq_self]
    exact fun r hr => ht a r hr ▸ hp
  · rw [if_neg hp, Multiset.filter_eq_nil]
    exact fun r hr => ht a r hr ▸ hp

theorem remove {old : Multiset α} (h : Mirrors f (base + old) view) (ho : old.bind f = 0) :
    Mirrors f base view := by
  rw [Mirrors, h, Multiset.add_bind, ho, add_zero]

end Mirrors

end View

-- ---------------------------------------------------------------------------
-- An index of names
-- ---------------------------------------------------------------------------

namespace NameIndex

variable {ν ι : Type _}

def Inverse (f : ν → Option ι) (g : ι → Option ν) : Prop :=
  ∀ n i, f n = some i ↔ g i = some n

namespace Inverse

variable {f f' : ν → Option ι} {g g' : ι → Option ν}

theorem injective (h : Inverse f g) (hi : g i = some n) (hj : g j = some n) : i = j := by
  rw [← h] at hi hj
  exact Option.some.inj (hi.symm.trans hj)

theorem unused (h : Inverse f g) (hn : ∀ i, g i ≠ some n) : f n = none :=
  Option.eq_none_iff_forall_ne_some.mpr fun i hi => hn i ((h n i).mp hi)

theorem congr (h : Inverse f g) (hf : ∀ n, f' n = f n) (hg : ∀ i, g' i = g i) : Inverse f' g' := by
  intro n i
  rw [hf, hg]
  exact h n i

variable [DecidableEq ν] [DecidableEq ι] {n : ν} {i : ι}

theorem insert (h : Inverse f g) (hn : f n = none) (hi : g i = none)
    (hf : ∀ m, f' m = if n = m then some i else f m)
    (hg : ∀ j, g' j = if i = j then some n else g j) : Inverse f' g' := by
  intro m j
  rw [hf, hg]
  by_cases hm : n = m <;> by_cases hj : i = j
  · simp [hm, hj]
  · subst hm
    rw [if_pos rfl, if_neg hj, ← h, hn]
    exact iff_of_false (fun h => hj (Option.some.inj h)) nofun
  · subst hj
    rw [if_neg hm, if_pos rfl, h, hi]
    exact iff_of_false nofun fun h => hm (Option.some.inj h)
  · rw [if_neg hm, if_neg hj]
    exact h m j

theorem erase (h : Inverse f g) (hi : g i = some n)
    (hf : ∀ m, f' m = if n = m then none else f m)
    (hg : ∀ j, g' j = if i = j then none else g j) : Inverse f' g' := by
  intro m j
  have hn := (h n i).mpr hi
  rw [hf, hg]
  by_cases hm : n = m <;> by_cases hj : i = j
  · simp [hm, hj]
  · subst hm
    rw [if_pos rfl, if_neg hj, ← h, hn]
    exact iff_of_false nofun fun h => hj (Option.some.inj h)
  · subst hj
    rw [if_neg hm, if_pos rfl, h, hi]
    exact iff_of_false (fun h => hm (Option.some.inj h)) nofun
  · rw [if_neg hm, if_neg hj]
    exact h m j

end Inverse

end NameIndex
