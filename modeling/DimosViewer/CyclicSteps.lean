import Mathlib.Data.List.Rotate
import Mathlib.Data.Set.Finite.Lattice
import Mathlib.Order.Bounds.Basic
import Mathlib.Order.Interval.Set.Defs
import Mathlib.Order.OrderDual

/-!
# Stepping through a set in turn

A step goes to the least element after a value, or back to the least of all. Steps
through the elements of a list visit each of them once and are undone by steps in the
dual order. A search that is strict and that starts anew at the bounds of a loop makes
such steps exactly if the bounds themselves can be missed.
-/

namespace CyclicSteps

variable {α : Type*} [LinearOrder α]

def IsNext (s : Set α) (c t : α) : Prop :=
  IsLeast {u | u ∈ s ∧ c < u} t ∨ (∀ u ∈ s, u ≤ c) ∧ IsLeast s t

def IsPrev (s : Set α) (c t : α) : Prop :=
  IsGreatest {u | u ∈ s ∧ u < c} t ∨ (∀ u ∈ s, c ≤ u) ∧ IsGreatest s t

variable {s : Set α} {c t t' : α}

theorem isPrev_iff_dual : IsPrev s c t ↔ IsNext (α := αᵒᵈ) s c t := Iff.rfl

namespace IsNext

theorem mem (h : IsNext s c t) : t ∈ s := h.elim (·.1.1) (·.2.1)

theorem unique (h : IsNext s c t) (h' : IsNext s c t') : t = t' := by
  rcases h with h | ⟨hall, h⟩ <;> rcases h' with h' | ⟨hall', h'⟩
  · exact h.unique h'
  · exact absurd h.1.2 (not_lt.mpr (hall' t h.1.1))
  · exact absurd h'.1.2 (not_lt.mpr (hall t' h'.1.1))
  · exact h.unique h'

theorem undo (h : IsNext s c t) (hc : c ∈ s) : IsPrev s t c := by
  rcases h with h | ⟨hall, h⟩
  · refine .inl ⟨⟨hc, h.1.2⟩, fun u hu => ?_⟩
    exact not_lt.mp fun hlt => absurd (h.2 ⟨hu.1, hlt⟩) (not_le.mpr hu.2)
  · exact .inr ⟨fun u hu => h.2 hu, hc, fun u hu => hall u hu⟩

end IsNext

-- ---------------------------------------------------------------------------
-- Whole turns
-- ---------------------------------------------------------------------------

section Turns

variable {l : List α}

theorem isNext_getElem (hl : l.Pairwise (· < ·)) {i : Nat} (hi : i < l.length) :
    IsNext {u | u ∈ l} l[i] (l.get ⟨(i + 1) % l.length, Nat.mod_lt _ (Nat.zero_lt_of_lt hi)⟩) := by
  rw [List.get_eq_getElem]
  have hlt : ∀ {j k : Nat} (hj : j < l.length) (hk : k < l.length), j < k → l[j] < l[k] :=
    fun hj hk hjk => List.pairwise_iff_getElem.mp hl _ _ hj hk hjk
  have hle : ∀ {j k : Nat} (hj : j < l.length) (hk : k < l.length), j ≤ k → l[j] ≤ l[k] := by
    intro j k hj hk hjk
    rcases Nat.lt_or_eq_of_le hjk with h | rfl
    · exact (hlt hj hk h).le
    · exact le_rfl
  rcases Nat.lt_or_ge (i + 1) l.length with h | h
  · refine .inl ⟨⟨List.getElem_mem _, ?_⟩, fun u hu => ?_⟩
    · simpa only [Nat.mod_eq_of_lt h] using hlt hi h (Nat.lt_succ_self i)
    · obtain ⟨j, hj, rfl⟩ := List.getElem_of_mem hu.1
      have hij : i < j := not_le.mp fun hji => absurd hu.2 (not_lt.mpr (hle hj hi hji))
      simpa only [Nat.mod_eq_of_lt h] using hle h hj hij
  · have hmod : (i + 1) % l.length = 0 := by
      rw [show i + 1 = l.length by omega, Nat.mod_self]
    refine .inr ⟨fun u hu => ?_, List.getElem_mem _, fun u hu => ?_⟩
    · obtain ⟨j, hj, rfl⟩ := List.getElem_of_mem hu
      exact hle hj hi (by omega)
    · obtain ⟨j, hj, rfl⟩ := List.getElem_of_mem hu
      simpa only [hmod] using hle (Nat.zero_lt_of_lt hi) hj (Nat.zero_le j)

/-- From anywhere, as many steps as there are elements visit each of them once. -/
theorem visits_perm (hl : l.Pairwise (· < ·)) {c : Nat → α}
    (hc : ∀ k < l.length, IsNext {u | u ∈ l} (c k) (c (k + 1))) :
    ((List.range l.length).map fun k => c (k + 1)).Perm l := by
  rcases Nat.eq_zero_or_pos l.length with h0 | hpos
  · rw [List.length_eq_zero_iff.mp h0]
    rfl
  obtain ⟨j, hj, hcj⟩ := List.getElem_of_mem (hc 0 hpos).mem
  have hsteps : ∀ k < l.length, l.get ⟨(k + j) % l.length, Nat.mod_lt _ hpos⟩ = c (k + 1) := by
    simp only [List.get_eq_getElem]
    intro k
    induction k with
    | zero =>
      intro _
      simp only [Nat.zero_add, Nat.mod_eq_of_lt hj, hcj]
    | succ k ih =>
      intro hk
      have hnext := isNext_getElem hl (Nat.mod_lt (k + j) hpos)
      rw [List.get_eq_getElem, ih (Nat.lt_of_succ_lt hk)] at hnext
      have := hnext.unique (hc (k + 1) hk)
      simpa only [Nat.mod_add_mod, Nat.succ_add] using this
  have hrotate : (List.range l.length).map (fun k => c (k + 1)) = l.rotate j := by
    refine List.ext_getElem (by simp) fun k hk _ => ?_
    rw [List.length_map, List.length_range] at hk
    rw [List.getElem_map, List.getElem_range, List.getElem_rotate, ← hsteps k hk,
      List.get_eq_getElem]
  rw [hrotate]
  exact List.rotate_perm l j

theorem visits_perm_back (hl : l.Pairwise (· < ·)) {c : Nat → α}
    (hc : ∀ k < l.length, IsPrev {u | u ∈ l} (c k) (c (k + 1))) :
    ((List.range l.length).map fun k => c (k + 1)).Perm l := by
  have hset : {u | u ∈ l.reverse} = {u | u ∈ l} := Set.ext fun _ => List.mem_reverse
  have hprev : ∀ k < l.reverse.length, IsPrev {u | u ∈ l.reverse} (c k) (c (k + 1)) := by
    rw [hset, List.length_reverse]
    exact hc
  have hperm : ((List.range l.reverse.length).map fun k => c (k + 1)).Perm l.reverse :=
    visits_perm (α := αᵒᵈ) (List.pairwise_reverse.mpr hl) hprev
  rw [List.length_reverse] at hperm
  exact hperm.trans (List.reverse_perm l)

end Turns

-- ---------------------------------------------------------------------------
-- A strict search that starts anew at the bounds
-- ---------------------------------------------------------------------------

/-- A step within a loop from `first` to `last`, or without one, which then starts anew at
`start`. -/
def step (find : α → Option α) (loop : Option (α × α)) (start : Option α) (c : α) : Option α :=
  match loop with
  | some (first, last) => some (((find c).filter (· ≤ last)).getD ((find first).getD first))
  | none => (find c).or start

/-- The search finds the least element after a value. It may miss the edge `m` from below. -/
structure Finds (find : α → Option α) (s : Set α) (m : α) : Prop where
  some_iff : ∀ c t, find c = some t ↔ IsLeast {u | u ∈ s ∧ c < u ∧ ¬ (c < m ∧ u = m)} t
  none_iff : ∀ c, find c = none ↔ {u | u ∈ s ∧ c < u ∧ ¬ (c < m ∧ u = m)} = ∅
  edge : ∀ u ∈ s, m ≤ u

namespace Finds

variable {find : α → Option α} {s : Set α} {m first last : α} {start : Option α}

/-- A search for the least of some values of another order, which are embedded into this one. -/
theorem of_image {γ : Type*} [LinearOrder γ] {ι : γ → α} (hι : ∀ a b, ι a ≤ ι b ↔ a ≤ b)
    {d : Set γ} {after : α → Set γ} {search : α → Option γ}
    (hsome : ∀ c x, search c = some x ↔ IsLeast (after c) x)
    (hnone : ∀ c, search c = none ↔ after c = ∅)
    (hafter : ∀ c x, x ∈ after c ↔ x ∈ d ∧ c < ι x ∧ ¬ (c < m ∧ ι x = m))
    (hedge : ∀ x ∈ d, m ≤ ι x) : Finds (fun c => (search c).map ι) (ι '' d) m where
  some_iff c t := by
    rw [Option.map_eq_some_iff]
    constructor
    · rintro ⟨x, hx, rfl⟩
      obtain ⟨hmem, hle⟩ := (hsome c x).mp hx
      have hx := (hafter c x).mp hmem
      refine ⟨⟨⟨x, hx.1, rfl⟩, hx.2⟩, ?_⟩
      rintro _ ⟨⟨y, hy, rfl⟩, hlt⟩
      exact (hι x y).mpr (hle ((hafter c y).mpr ⟨hy, hlt⟩))
    · rintro ⟨⟨⟨x, hx, rfl⟩, hlt⟩, hle⟩
      refine ⟨x, (hsome c x).mpr ⟨(hafter c x).mpr ⟨hx, hlt⟩, fun y hy => ?_⟩, rfl⟩
      have hy := (hafter c y).mp hy
      exact (hι x y).mp (hle ⟨⟨y, hy.1, rfl⟩, hy.2⟩)
  none_iff c := by
    rw [Option.map_eq_none_iff, hnone, Set.eq_empty_iff_forall_notMem,
      Set.eq_empty_iff_forall_notMem]
    constructor
    · rintro h _ ⟨⟨x, hx, rfl⟩, hlt⟩
      exact h x ((hafter c x).mpr ⟨hx, hlt⟩)
    · intro h x hx
      have hx := (hafter c x).mp hx
      exact h (ι x) ⟨⟨x, hx.1, rfl⟩, hx.2⟩
  edge := by
    rintro _ ⟨x, hx, rfl⟩
    exact hedge x hx

theorem some_iff_of (h : Finds find s m) (hc : ¬ (c < m ∧ m ∈ s)) :
    find c = some t ↔ IsLeast {u | u ∈ s ∧ c < u} t := by
  rw [h.some_iff]
  have heq : {u | u ∈ s ∧ c < u ∧ ¬ (c < m ∧ u = m)} = {u | u ∈ s ∧ c < u} := by
    ext u
    constructor
    · exact fun hu => ⟨hu.1, hu.2.1⟩
    · exact fun hu => ⟨hu.1, hu.2, fun hm => hc ⟨hm.1, hm.2 ▸ hu.1⟩⟩
  rw [heq]

theorem none_iff_of (h : Finds find s m) (hc : ¬ (c < m ∧ m ∈ s)) :
    find c = none ↔ ∀ u ∈ s, u ≤ c := by
  rw [h.none_iff, Set.eq_empty_iff_forall_notMem]
  refine forall_congr' fun u => ⟨fun hu hs => not_lt.mp fun hlt => ?_, fun hu hs => ?_⟩
  · exact hu ⟨hs, hlt, fun hm => hc ⟨hm.1, hm.2 ▸ hs⟩⟩
  · exact absurd hs.2.1 (not_lt.mpr (hu hs.1))

theorem lt_of_find (h : Finds find s m) (hf : find c = some t) : c < t ∧ (c < m → m < t) := by
  have ht := ((h.some_iff c t).mp hf).1
  exact ⟨ht.2.1, fun hcm => lt_of_le_of_ne (h.edge t ht.1) fun he => ht.2.2 ⟨hcm, he.symm⟩⟩

/-- Within a loop, steps are in turn unless a bound is an element that others follow. -/
theorem isNext_loop (h : Finds find s m) (hne : (s ∩ Set.Icc first last).Nonempty)
    (hfirst : ¬ (first ∈ s ∧ ∃ u ∈ s, first < u)) (hedge : ¬ (first < m ∧ m ∈ s))
    (hc : first ≤ c) :
    ∃ t, step find (some (first, last)) start c = some t ∧
      IsNext (s ∩ Set.Icc first last) c t := by
  have hcm : ¬ (c < m ∧ m ∈ s) := fun hm => hedge ⟨hc.trans_lt hm.1, hm.2⟩
  cases hf : (find c).filter (· ≤ last) with
  | some t =>
    obtain ⟨hft, hle⟩ := Option.filter_eq_some_iff.mp hf
    have ht := (h.some_iff_of hcm).mp hft
    have htl : t ≤ last := of_decide_eq_true hle
    refine ⟨t, by simp only [step, hf, Option.getD_some], .inl ⟨⟨⟨ht.1.1, ?_, htl⟩, ht.1.2⟩, fun u hu => ?_⟩⟩
    · exact hc.trans ht.1.2.le
    · exact ht.2 ⟨hu.1.1, hu.2⟩
  | none =>
    have hall : ∀ u ∈ s ∩ Set.Icc first last, u ≤ c := by
      intro u hu
      refine not_lt.mp fun hlt => ?_
      cases hfc : find c with
      | none => exact absurd hlt (not_lt.mpr ((h.none_iff_of hcm).mp hfc u hu.1))
      | some t =>
        have ht := ((h.some_iff_of hcm).mp hfc).2 ⟨hu.1, hlt⟩
        rw [hfc, Option.filter_some, if_pos (decide_eq_true (ht.trans hu.2.2))] at hf
        cases hf
    have hstep : step find (some (first, last)) start c = some ((find first).getD first) := by
      simp only [step, hf, Option.getD_none]
    refine ⟨_, hstep, .inr ⟨hall, ?_⟩⟩
    obtain ⟨v, hv⟩ := hne
    cases hff : find first with
    | some t =>
      have ht := (h.some_iff_of hedge).mp hff
      have hle : ∀ u ∈ s ∩ Set.Icc first last, t ≤ u := by
        intro u hu
        refine ht.2 ⟨hu.1, lt_of_le_of_ne hu.2.1 ?_⟩
        rintro rfl
        exact hfirst ⟨hu.1, t, ht.1⟩
      exact ⟨⟨ht.1.1, ht.1.2.le, (hle v hv).trans hv.2.2⟩, hle⟩
    | none =>
      have heq : v = first := le_antisymm ((h.none_iff_of hedge).mp hff v hv.1) hv.2.1
      exact ⟨heq ▸ hv, fun u hu => hu.2.1⟩

theorem loop_of_isNext (h : Finds find s m) (hne : (s ∩ Set.Icc first last).Nonempty)
    (hall : ∀ c, first ≤ c → c ≤ last → ∃ t, step find (some (first, last)) start c = some t ∧
      IsNext (s ∩ Set.Icc first last) c t) :
    ¬ (first ∈ s ∧ ∃ u ∈ s, first < u) ∧ ¬ (first < m ∧ m ∈ s) := by
  obtain ⟨v, hv⟩ := hne
  obtain ⟨t, hstep, hnext⟩ := hall last (hv.2.1.trans hv.2.2) le_rfl
  have hfilter : (find last).filter (· ≤ last) = none := by
    rw [Option.filter_eq_none_iff]
    intro u hu
    simpa using (h.lt_of_find hu).1
  have ht : t = (find first).getD first := by
    simp only [step, hfilter, Option.getD_none] at hstep
    exact (Option.some.inj hstep).symm
  have hleast : IsLeast (s ∩ Set.Icc first last) t := by
    rcases hnext with hn | hn
    · exact absurd hn.1.2 (not_lt.mpr hn.1.1.2.2)
    · exact hn.2
  constructor
  · rintro ⟨hfs, u, hus, hlt⟩
    have htf : t = first :=
      le_antisymm (hleast.2 ⟨hfs, le_rfl, hv.2.1.trans hv.2.2⟩) hleast.1.2.1
    cases hff : find first with
    | some w =>
      rw [hff, Option.getD_some, htf] at ht
      exact absurd (h.lt_of_find hff).1 (not_lt.mpr ht.ge)
    | none =>
      refine Set.eq_empty_iff_forall_notMem.mp ((h.none_iff first).mp hff) u
        ⟨hus, hlt, fun hm => ?_⟩
      exact absurd (h.edge first hfs) (not_le.mpr hm.1)
  · rintro ⟨hfm, hms⟩
    have htm : t ≤ m := hleast.2 ⟨hms, hfm.le, (h.edge v hv.1).trans hv.2.2⟩
    cases hff : find first with
    | some w =>
      rw [hff, Option.getD_some] at ht
      exact absurd ((h.lt_of_find hff).2 hfm) (not_lt.mpr (ht ▸ htm))
    | none =>
      rw [hff, Option.getD_none] at ht
      exact absurd (h.edge t hleast.1.1) (not_le.mpr (ht ▸ hfm))

/-- Without a loop, steps are in turn if they start anew at the least element, and none
follow an element at the edge. -/
theorem isNext_free (h : Finds find s m) (hstart : IsLeast s first)
    (hedge : ¬ (m ∈ s ∧ ∃ u ∈ s, m < u)) (c : α) :
    ∃ t, step find none (some first) c = some t ∧ IsNext s c t := by
  by_cases hcm : c < m ∧ m ∈ s
  · have hone : ∀ u ∈ s, u = m := fun u hu =>
      (h.edge u hu).antisymm' (not_lt.mp fun hlt => hedge ⟨hcm.2, u, hu, hlt⟩)
    have hf : find c = none := by
      rw [h.none_iff, Set.eq_empty_iff_forall_notMem]
      exact fun u hu => hu.2.2 ⟨hcm.1, hone u hu.1⟩
    refine ⟨first, by simp only [step, hf, Option.none_or], .inl ⟨⟨hstart.1, ?_⟩, fun u hu => hstart.2 hu.1⟩⟩
    exact hone first hstart.1 ▸ hcm.1
  · cases hf : find c with
    | some t => exact ⟨t, by simp only [step, hf, Option.some_or], .inl ((h.some_iff_of hcm).mp hf)⟩
    | none =>
      exact ⟨first, by simp only [step, hf, Option.none_or], .inr ⟨(h.none_iff_of hcm).mp hf, hstart⟩⟩

theorem free_of_isNext (h : Finds find s m) (hgreatest : IsGreatest s last) {low : α}
    (hlow : low < m) (hall : ∀ c, ∃ t, step find none start c = some t ∧ IsNext s c t) :
    (∃ first, start = some first ∧ IsLeast s first) ∧ ¬ (m ∈ s ∧ ∃ u ∈ s, m < u) := by
  constructor
  · obtain ⟨t, hstep, hnext⟩ := hall last
    have hf : find last = none := by
      refine (h.none_iff_of fun hm => ?_).mpr hgreatest.2
      exact absurd (hgreatest.2 hm.2) (not_le.mpr hm.1)
    simp only [step, hf, Option.none_or] at hstep
    rcases hnext with hn | hn
    · exact absurd (hgreatest.2 hn.1.1) (not_le.mpr hn.1.2)
    · exact ⟨t, hstep, hn.2⟩
  · rintro ⟨hms, u, hus, hlt⟩
    obtain ⟨t, hstep, hnext⟩ := hall low
    cases hf : find low with
    | none =>
      refine Set.eq_empty_iff_forall_notMem.mp ((h.none_iff low).mp hf) u
        ⟨hus, hlow.trans hlt, fun hm => hlt.ne' hm.2⟩
    | some w =>
      simp only [step, hf, Option.some_or] at hstep
      obtain rfl := Option.some.inj hstep
      have hmw := (h.lt_of_find hf).2 hlow
      rcases hnext with hn | hn
      · exact absurd (hn.2 ⟨hms, hlow⟩) (not_le.mpr hmw)
      · exact absurd (hn.1 m hms) (not_le.mpr hlow)

end Finds

end CyclicSteps
