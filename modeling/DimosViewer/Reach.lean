import Mathlib.Data.List.Basic

/-!
# Runs of a system

A system steps from state to state. Its reachable states are built step by step,
and an invariant is proved one step at a time. A trace is a run of a relation
whose steps are labelled with what they emit.

A loop is a run that repeats one step until it leaves the size of the state as it is, and the last
step counts. A size that never shrinks and that stays below a bound settles.
-/

namespace Reach

-- ---------------------------------------------------------------------------
-- Reachable states
-- ---------------------------------------------------------------------------

inductive Reachable (init : σ) (next : σ → α → σ) (ok : σ → α → Prop) : σ → Prop
  | init : Reachable init next ok init
  | step : Reachable init next ok s → ok s a → Reachable init next ok (next s a)

namespace Reachable

variable {init : σ} {next : σ → α → σ} {ok ok' : σ → α → Prop} {inv inv' : σ → Prop}

theorem invariant (h0 : inv init) (hs : ∀ s a, inv s → ok s a → inv (next s a))
    (h : Reachable init next ok s) : inv s := by
  induction h with
  | init => exact h0
  | step _ ha ih => exact hs _ _ ih ha

theorem invariant_with (h' : ∀ s, Reachable init next ok s → inv' s) (h0 : inv init)
    (hs : ∀ s a, inv' s → inv s → ok s a → inv (next s a)) (h : Reachable init next ok s) :
    inv s := by
  induction h with
  | init => exact h0
  | step hr ha ih => exact hs _ _ (h' _ hr) ih ha

theorem mono (hok : ∀ s a, ok s a → ok' s a) (h : Reachable init next ok s) :
    Reachable init next ok' s := by
  induction h with
  | init => exact .init
  | step _ ha ih => exact .step ih (hok _ _ ha)

def Allows (next : σ → α → σ) (ok : σ → α → Prop) (s : σ) : List α → Prop
  | [] => True
  | a :: rest => ok s a ∧ Allows next ok (next s a) rest

instance decidableAllows [∀ s a, Decidable (ok s a)] (s : σ) :
    ∀ actions, Decidable (Allows next ok s actions)
  | [] => inferInstanceAs (Decidable True)
  | a :: rest =>
    have := decidableAllows (next s a) rest
    inferInstanceAs (Decidable (ok s a ∧ Allows next ok (next s a) rest))

theorem foldl (h : Reachable init next ok s) (ha : Allows next ok s actions) :
    Reachable init next ok (actions.foldl next s) := by
  induction actions generalizing s with
  | nil => exact h
  | cons a rest ih => exact ih (.step h ha.1) ha.2

end Reachable

-- ---------------------------------------------------------------------------
-- Traces
-- ---------------------------------------------------------------------------

inductive Trace (step : σ → List ε → σ → Prop) : σ → List ε → σ → Prop
  | refl : Trace step s [] s
  | tail : Trace step s es s' → step s' es' s'' → Trace step s (es ++ es') s''

namespace Trace

variable {step step' : σ → List ε → σ → Prop} {inv : σ → Prop}

theorem single (h : step s es s') : Trace step s es s' := .tail .refl h

theorem trans (h : Trace step s es s') (h' : Trace step s' es' s'') :
    Trace step s (es ++ es') s'' := by
  induction h' with
  | refl => rwa [List.append_nil]
  | tail _ hl ih => exact List.append_assoc _ _ _ ▸ ih.tail hl

theorem invariant (hs : ∀ s es s', inv s → step s es s' → inv s') (h : Trace step s es s')
    (h0 : inv s) : inv s' := by
  induction h with
  | refl => exact h0
  | tail _ hl ih => exact hs _ _ _ ih hl

/-- Reading the emitted values back follows the states, if every step does. -/
theorem foldl_eq {view : σ → β} {read : β → ε → β}
    (hs : ∀ s es s', inv s → step s es s' → inv s' ∧ es.foldl read (view s) = view s')
    (h : Trace step s es s') (h0 : inv s) : inv s' ∧ es.foldl read (view s) = view s' := by
  induction h with
  | refl => exact ⟨h0, rfl⟩
  | tail _ hl ih =>
    obtain ⟨hi, he⟩ := hs _ _ _ ih.1 hl
    exact ⟨hi, by rw [List.foldl_append, ih.2, he]⟩

end Trace

end Reach

-- ---------------------------------------------------------------------------
-- Loops that stop once they settle
-- ---------------------------------------------------------------------------

namespace Settling

inductive Settles (step : σ → σ) (size : σ → Nat) : σ → σ → Prop
  | stop : size (step x) = size x → Settles step size x (step x)
  | again : size (step x) ≠ size x → Settles step size (step x) y → Settles step size x y

def settle (step : σ → σ) (size : σ → Nat) : Nat → σ → σ
  | 0, x => x
  | fuel + 1, x => if size (step x) = size x then step x else settle step size fuel (step x)

variable {step : σ → σ} {size : σ → Nat} {inv : σ → Prop} {x y z : σ}

namespace Settles

theorem exists_last (h : Settles step size x y) (hs : ∀ x, inv x → inv (step x)) (hx : inv x) :
    ∃ w, inv w ∧ y = step w ∧ size (step w) = size w := by
  induction h with
  | @stop x heq => exact ⟨x, hx, rfl, heq⟩
  | again _ _ ih => exact ih (hs _ hx)

end Settles

structure Grows (step : σ → σ) (size : σ → Nat) (inv : σ → Prop) (bound : Nat) : Prop where
  keeps : ∀ x, inv x → inv (step x)
  le : ∀ x, inv x → size x ≤ size (step x)
  bounded : ∀ x, inv x → size x ≤ bound

/-- Each round but the last one takes up some of the room below the bound. -/
theorem Grows.settles_settle (h : Grows step size inv bound) (hx : inv x)
    (hf : bound < size x + fuel) : Settles step size x (settle step size fuel x) := by
  induction fuel generalizing x with
  | zero => exact absurd (h.bounded x hx) (Nat.not_le.mpr hf)
  | succ fuel ih =>
    rw [settle]
    by_cases heq : size (step x) = size x
    · rw [if_pos heq]
      exact .stop heq
    · rw [if_neg heq]
      have hle := h.le x hx
      exact .again heq (ih (h.keeps x hx) (by omega))

end Settling
