import Mathlib.Logic.Function.Basic
import Mathlib.Data.Option.Basic

/-!
# Memo tables with canonical keys

A search `f` answers a key with a value and the key at which the value lies. The memo table keeps the
value under both keys, and an answer found at a canonical key that is known already is taken from
the table. What is answered then depends on the table that was there at first, and not on the
look-ups since, as long as every search finds the same again at the key it names.
-/

namespace CanonicalMemo

variable {κ α : Type} {f : κ → Option (κ × α)} {m m₀ : κ → Option α} {t : κ}

def answer (f : κ → Option (κ × α)) (m : κ → Option α) (t : κ) : Option α :=
  (m t).or ((f t).map fun found => (m found.1).getD found.2)

/-- What is found at the named key is what was found there from elsewhere. -/
def Canonical (f : κ → Option (κ × α)) (t : κ) : Prop :=
  ∀ d a, f t = some (d, a) → f d = some (d, a)

/-- `m` is `m₀` with some of its answers written down. -/
structure Grown (f : κ → Option (κ × α)) (m₀ m : κ → Option α) : Prop where
  kept : ∀ t a, m₀ t = some a → m t = some a
  answers : ∀ t a, m t = some a → answer f m₀ t = some a

theorem answer_of_some (h : m t = some a) : answer f m t = some a := by
  rw [answer, h]
  rfl

theorem answer_of_none (h : m t = none) :
    answer f m t = (f t).map fun found => (m found.1).getD found.2 := by
  rw [answer, h]
  rfl

theorem Grown.refl (f : κ → Option (κ × α)) (m : κ → Option α) : Grown f m m :=
  ⟨fun _ _ h => h, fun _ _ h => answer_of_some h⟩

namespace Grown

theorem eq_none (h : Grown f m₀ m) (ht : m t = none) : m₀ t = none := by
  cases h₀ : m₀ t with
  | none => rfl
  | some a => exact absurd (h.kept t a h₀) (by simp [ht])

theorem answer_eq (h : Grown f m₀ m) (hc : Canonical f t) : answer f m t = answer f m₀ t := by
  cases hm : m t with
  | some a => rw [answer_of_some hm, h.answers t a hm]
  | none =>
    rw [answer_of_none hm, answer_of_none (h.eq_none hm)]
    cases hf : f t with
    | none => rfl
    | some found =>
      obtain ⟨d, a⟩ := found
      have hd := hc d a hf
      cases hmd : m d with
      | none => simp [hmd, h.eq_none hmd]
      | some b =>
        have hb := h.answers d b hmd
        cases hm₀ : m₀ d with
        | none =>
          rw [answer_of_none hm₀, hd] at hb
          simpa [hmd, hm₀] using hb.symm
        | some c =>
          rw [answer_of_some hm₀] at hb
          simpa [hmd, hm₀] using hb.symm

theorem insert [DecidableEq κ] (h : Grown f m₀ m) (ha : answer f m₀ t = some a) (hm : m t = none) :
    Grown f m₀ (Function.update m t (some a)) := by
  refine ⟨fun t' b hb => ?_, fun t' b hb => ?_⟩
  · rw [Function.update_of_ne]
    · exact h.kept t' b hb
    · rintro rfl
      exact absurd hb (by simp [h.eq_none hm])
  · by_cases he : t' = t
    · subst he
      rw [Function.update_self] at hb
      cases hb
      exact ha
    · rw [Function.update_of_ne he] at hb
      exact h.answers t' b hb

theorem answer_of_found (h : Grown f m₀ m) (hc : Canonical f t) (hf : f t = some (d, a))
    (hd : m d = none) : answer f m₀ d = some a := by
  rw [answer_of_none (h.eq_none hd), hc d a hf, Option.map_some, h.eq_none hd, Option.getD_none]

theorem filter (h : Grown f m₀ m) (keep : κ → Prop) [DecidablePred keep]
    (hk : ∀ t a, m₀ t = some a → keep t) :
    Grown f m₀ fun t => if keep t then m t else none := by
  refine ⟨fun t a ha => ?_, fun t a ha => ?_⟩
  · rw [if_pos (hk t a ha)]
    exact h.kept t a ha
  · split at ha
    · exact h.answers t a ha
    · cases ha

end Grown

end CanonicalMemo
