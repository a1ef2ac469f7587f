import Mathlib.Data.Finset.Card
import Mathlib.Data.Finset.Filter
import Mathlib.Logic.Relation
import Mathlib.Order.WellFounded

/-!
# Forests of derived items

An item is a root, is cut from a root, or is merged from items that are not cut themselves. Merged
items are ranked above what they are merged from, so every derivation ends at roots.
-/

namespace DerivationForest

inductive Origin (α : Type*) where
  | root
  | cut (parent : α)
  | merged (sources : List α)

inductive MadeOf (origin : α → Option (Origin α)) : α → α → Prop
  | cut : origin x = some (.cut y) → MadeOf origin y x
  | merged : origin x = some (.merged sources) → y ∈ sources → MadeOf origin y x

def Whole (origin : α → Option (Origin α)) (x : α) : Prop :=
  origin x = some .root ∨ ∃ sources, origin x = some (.merged sources)

def Admits (origin : α → Option (Origin α)) (rank : α → Nat) (x : α) : Origin α → Prop
  | .root => True
  | .cut parent => origin parent = some .root
  | .merged sources => sources ≠ [] ∧ ∀ y ∈ sources, rank y < rank x ∧ Whole origin y

def Ordered (origin : α → Option (Origin α)) (rank : α → Nat) : Prop :=
  ∀ x o, origin x = some o → Admits origin rank x o

variable {origin origin' : α → Option (Origin α)} {rank : α → Nat} {x y p : α}

theorem Whole.recorded (h : Whole origin x) : ∃ o, origin x = some o :=
  h.elim (⟨_, ·⟩) fun ⟨_, hm⟩ => ⟨_, hm⟩

namespace Ordered

-- ---------------------------------------------------------------------------
-- Derivations end
-- ---------------------------------------------------------------------------

theorem whole_of_merged (h : Ordered origin rank) (hx : origin x = some (.merged sources))
    (hy : y ∈ sources) : rank y < rank x ∧ Whole origin y := (h x _ hx).2 y hy

theorem acc_root (hx : origin x = some .root) : Acc (MadeOf origin) x := by
  refine ⟨x, fun y hy => ?_⟩
  cases hy with
  | cut hc => rw [hx] at hc; cases hc
  | merged hm => rw [hx] at hm; cases hm

theorem acc_whole (h : Ordered origin rank) (hx : Whole origin x) : Acc (MadeOf origin) x := by
  induction hr : rank x using Nat.strong_induction_on generalizing x with
  | _ n ih =>
    rcases hx with hx | ⟨sources, hx⟩
    · exact acc_root hx
    · refine ⟨x, fun y hy => ?_⟩
      cases hy with
      | cut hc => rw [hx] at hc; cases hc
      | merged hm hmem =>
        obtain ⟨hlt, hwhole⟩ := h.whole_of_merged hm hmem
        exact ih (rank y) (hr ▸ hlt) hwhole rfl

theorem wellFounded (h : Ordered origin rank) : WellFounded (MadeOf origin) := by
  refine ⟨fun x => ⟨x, fun y hy => ?_⟩⟩
  cases hy with
  | cut hc => exact acc_root (h x _ hc)
  | merged hm hmem => exact h.acc_whole (h.whole_of_merged hm hmem).2

theorem whole_of_madeOf (h : Ordered origin rank) (hy : MadeOf origin y x) : Whole origin y := by
  cases hy with
  | cut hc => exact .inl (h x _ hc)
  | merged hm hmem => exact (h.whole_of_merged hm hmem).2

theorem whole_of_transGen (h : Ordered origin rank)
    (hy : Relation.TransGen (MadeOf origin) y x) : Whole origin y := by
  cases hy using Relation.TransGen.head_induction_on with
  | single hs => exact h.whole_of_madeOf hs
  | head hs _ _ => exact h.whole_of_madeOf hs

theorem root_of_leaf (h : Ordered origin rank) (hx : origin x = some o)
    (hleaf : ∀ y, ¬ MadeOf origin y x) : origin x = some .root := by
  cases o with
  | root => exact hx
  | cut parent => exact absurd (.cut hx) (hleaf parent)
  | merged sources =>
    obtain ⟨y, hy⟩ := List.exists_mem_of_ne_nil sources (h x _ hx).1
    exact absurd (.merged hx hy) (hleaf y)

-- ---------------------------------------------------------------------------
-- New records
-- ---------------------------------------------------------------------------

theorem congr (h : Ordered origin rank) (heq : ∀ y, origin' y = origin y) :
    Ordered origin' rank := (funext heq : origin' = origin) ▸ h

theorem add [DecidableEq α] (h : Ordered origin rank) (hx : origin x = none)
    (ho : Admits origin rank x o)
    (heq : ∀ y, origin' y = if x = y then some o else origin y) : Ordered origin' rank := by
  have hkept : ∀ y o', origin y = some o' → origin' y = some o' := by
    intro y o' hy
    rw [heq, if_neg, hy]
    rintro rfl
    rw [hx] at hy
    cases hy
  have hwhole : ∀ y, Whole origin y → Whole origin' y := fun y hy =>
    hy.imp (hkept y _) fun ⟨sources, hm⟩ => ⟨sources, hkept y _ hm⟩
  have hadmits : ∀ y o', Admits origin rank y o' → Admits origin' rank y o' := by
    intro y o' hy
    cases o' with
    | root => trivial
    | cut parent => exact hkept parent _ hy
    | merged sources => exact ⟨hy.1, fun z hz => ⟨(hy.2 z hz).1, hwhole z (hy.2 z hz).2⟩⟩
  intro y o' hy
  rw [heq] at hy
  by_cases hxy : x = y
  · rw [if_pos hxy] at hy
    obtain rfl := Option.some.inj hy
    exact hxy ▸ hadmits x o ho
  · rw [if_neg hxy] at hy
    exact hadmits y o' (h y o' hy)

end Ordered

-- ---------------------------------------------------------------------------
-- Heights
-- ---------------------------------------------------------------------------

/-- The number of items that are ranked no higher. -/
def height (items : Finset α) (rank : α → Nat) (x : α) : Nat :=
  (items.filter fun y => rank y ≤ rank x).card

theorem height_le (items : Finset α) (rank : α → Nat) (x : α) :
    height items rank x ≤ items.card := Finset.card_filter_le _ _

theorem height_pos {items : Finset α} (hx : x ∈ items) : 0 < height items rank x :=
  Finset.card_pos.mpr ⟨x, Finset.mem_filter.mpr ⟨hx, le_rfl⟩⟩

theorem height_lt {items : Finset α} (hx : x ∈ items) (hlt : rank y < rank x) :
    height items rank y < height items rank x := by
  refine Finset.card_lt_card (Finset.ssubset_iff_of_subset (fun z hz => ?_) |>.mpr ⟨x, ?_, ?_⟩)
  · obtain ⟨hz, hle⟩ := Finset.mem_filter.mp hz
    exact Finset.mem_filter.mpr ⟨hz, hle.trans hlt.le⟩
  · exact Finset.mem_filter.mpr ⟨hx, le_rfl⟩
  · exact fun hm => absurd (Finset.mem_filter.mp hm).2 (Nat.not_le.mpr hlt)

theorem wellFounded_of_rank {next : α → α → Prop} (hlt : ∀ x y, next x y → rank x < rank y)
    (hle : ∀ x y, next x y → rank y ≤ bound) : WellFounded fun y x => next x y := by
  refine Subrelation.wf (fun {y x} hxy => ?_) (measure fun x => bound - rank x).wf
  have hlt := hlt x y hxy
  have hle := hle x y hxy
  show bound - rank y < bound - rank x
  omega

end DerivationForest
