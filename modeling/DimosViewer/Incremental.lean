import Mathlib.Logic.Relation

/-!
# Machines that are fed in pieces

A machine takes what it needs from the front of its pending input and waits when that is too
little. A step it can take is not changed by input that arrives later, so the order in which
input arrives and steps are taken does not matter.
-/

namespace Incremental

variable {β σ ο : Type*}

/-- A step names the next control state, the input consumed and what is put out. -/
structure Machine (β σ ο : Type*) where
  step : σ → List β → Option (σ × Nat × Option ο)
  measure : σ → Nat → Nat
  stable : ∀ {s pending result}, step s pending = some result →
    ∀ more, step s (pending ++ more) = some result
  consumed_le : ∀ {s pending next consumed output},
    step s pending = some (next, consumed, output) → consumed ≤ pending.length
  decreasing : ∀ {s pending next consumed output},
    step s pending = some (next, consumed, output) →
      measure next (pending.length - consumed) < measure s pending.length

structure Config (β σ ο : Type*) where
  control : σ
  pending : List β
  produced : List ο

namespace Config

def push (c : Config β σ ο) (input : List β) : Config β σ ο :=
  { c with pending := c.pending ++ input }

@[simp] theorem push_nil (c : Config β σ ο) : c.push [] = c := by
  simp [push]

theorem push_push (c : Config β σ ο) (first second : List β) :
    (c.push first).push second = c.push (first ++ second) := by
  simp [push]

end Config

namespace Machine

variable (m : Machine β σ ο)

def advance? (c : Config β σ ο) : Option (Config β σ ο) :=
  (m.step c.control c.pending).map fun (next, consumed, output) =>
    ⟨next, c.pending.drop consumed, c.produced ++ output.toList⟩

theorem advance?_eq_none_iff {c : Config β σ ο} :
    m.advance? c = none ↔ m.step c.control c.pending = none := by
  simp [advance?]

theorem measure_advance? {c next : Config β σ ο} (h : m.advance? c = some next) :
    m.measure next.control next.pending.length < m.measure c.control c.pending.length := by
  obtain ⟨⟨control, consumed, output⟩, hstep, rfl⟩ := Option.map_eq_some_iff.mp h
  simpa using m.decreasing hstep

theorem advance?_push {c next : Config β σ ο} (h : m.advance? c = some next) (more : List β) :
    m.advance? (c.push more) = some (next.push more) := by
  obtain ⟨⟨control, consumed, output⟩, hstep, rfl⟩ := Option.map_eq_some_iff.mp h
  have hle := m.consumed_le hstep
  simp [advance?, Config.push, m.stable hstep more, List.drop_append_of_le_length hle]

def settle (c : Config β σ ο) : Config β σ ο :=
  match h : m.advance? c with
  | some next =>
    have := m.measure_advance? h
    settle next
  | none => c
termination_by m.measure c.control c.pending.length

theorem settle_of_advance {c next : Config β σ ο} (h : m.advance? c = some next) :
    m.settle c = m.settle next := by
  rw [settle]
  split
  case h_1 other hother => simp_all
  case h_2 hnone => simp_all

theorem settle_of_waiting {c : Config β σ ο} (h : m.advance? c = none) : m.settle c = c := by
  rw [settle]
  split
  case h_1 other hother => simp_all
  case h_2 hnone => rfl

def Advances : Config β σ ο → Config β σ ο → Prop :=
  Relation.ReflTransGen fun c next => m.advance? c = some next

variable {m} in
theorem Advances.trans {c c' c'' : Config β σ ο} (h : m.Advances c c')
    (h' : m.Advances c' c'') : m.Advances c c'' := Relation.ReflTransGen.trans h h'

theorem Advances.settle_eq {c c' : Config β σ ο} (h : m.Advances c c') :
    m.settle c = m.settle c' := by
  induction h with
  | refl => rfl
  | tail _ hstep ih => rw [ih, m.settle_of_advance hstep]

theorem Advances.push {c c' : Config β σ ο} (h : m.Advances c c') (more : List β) :
    m.Advances (c.push more) (c'.push more) := by
  induction h with
  | refl => exact .refl
  | tail _ hstep ih => exact ih.tail (m.advance?_push hstep more)

theorem produced_prefix_advance {c c' : Config β σ ο} (h : m.advance? c = some c') :
    c.produced <+: c'.produced := by
  obtain ⟨⟨control, consumed, output⟩, -, rfl⟩ := Option.map_eq_some_iff.mp h
  exact List.prefix_append ..

theorem produced_prefix_settle (c : Config β σ ο) : c.produced <+: (m.settle c).produced := by
  induction c using settle.induct m with
  | case1 c next hnext _ ih =>
    rw [m.settle_of_advance hnext]
    exact (m.produced_prefix_advance hnext).trans ih
  | case2 c hnone =>
    exact ⟨[], by rw [List.append_nil, m.settle_of_waiting hnone]⟩

theorem produced_prefix_of_advance {c c' : Config β σ ο} (h : m.advance? c = some c') :
    c'.produced <+: (m.settle c).produced := by
  rw [m.settle_of_advance h]
  exact m.produced_prefix_settle c'

/-- Runs in which input arrives and steps are taken, in any order. -/
inductive Arrival : Config β σ ο → List β → Config β σ ο → Prop
  | start (c) : Arrival c [] c
  | push : Arrival c arrived c' → (input : List β) → Arrival c (arrived ++ input) (c'.push input)
  | steps : Arrival c arrived c' → m.Advances c' c'' → Arrival c arrived c''

/-- However the input arrived, what is left to do is the same as when it is there at once. -/
theorem Arrival.settle_eq {c c' : Config β σ ο} (h : m.Arrival c arrived c') (more : List β) :
    m.settle (c.push (arrived ++ more)) = m.settle (c'.push more) := by
  induction h generalizing more with
  | start => simp
  | push _ input ih => rw [List.append_assoc, ih, Config.push_push]
  | steps _ hsteps ih => rw [ih, (hsteps.push m more).settle_eq]

theorem Arrival.settle_push {c c' : Config β σ ο} (h : m.Arrival c arrived c') :
    m.settle (c.push arrived) = m.settle c' := by
  simpa using h.settle_eq m []

theorem Advances.preserves {c c' : Config β σ ο} (h : m.Advances c c') (P : σ → Prop)
    (hstep : ∀ s pending next consumed output, P s →
      m.step s pending = some (next, consumed, output) → P next) (hc : P c.control) :
    P c'.control := by
  induction h with
  | refl => exact hc
  | tail _ hadvance ih =>
    obtain ⟨⟨next, consumed, output⟩, hnext, rfl⟩ := Option.map_eq_some_iff.mp hadvance
    exact hstep _ _ _ _ _ ih hnext

theorem Arrival.preserves {c c' : Config β σ ο} (h : m.Arrival c arrived c') (P : σ → Prop)
    (hstep : ∀ s pending next consumed output, P s →
      m.step s pending = some (next, consumed, output) → P next) (hc : P c.control) :
    P c'.control := by
  induction h with
  | start => exact hc
  | push _ input ih => exact ih
  | steps _ hadvances ih => exact hadvances.preserves m P hstep ih

end Machine

end Incremental
