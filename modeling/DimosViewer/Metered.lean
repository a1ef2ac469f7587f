import Mathlib.Data.List.Basic

/-!
# Computations that ask for memory

A metered computation gives a value, fails with an error its caller sees, or aborts the whole
program; on the way it asks for memory. It stays within a limit when it does not abort and
no single request is over the limit. Staying within composes: a sequence does if its first
part does, and what follows the value that part gives.
-/

namespace DimosViewer

inductive Metered.Outcome (φ ε α : Type) where
  | ok (value : α)
  | error (err : ε)
  | abort (fault : φ)
deriving DecidableEq, Repr

structure Metered (φ ε α : Type) where
  requested : List Nat
  outcome : Metered.Outcome φ ε α
deriving DecidableEq, Repr

namespace Metered

variable {φ ε ε' α β : Type}

def abort (fault : φ) : Metered φ ε α := ⟨[], .abort fault⟩

def fail (err : ε) : Metered φ ε α := ⟨[], .error err⟩

def request (size : Nat) : Metered φ ε Unit := ⟨[size], .ok ()⟩

def ofExcept : Except ε α → Metered φ ε α
  | .ok value => ⟨[], .ok value⟩
  | .error err => fail err

def attempt (x : Metered φ ε α) : Metered φ ε' (Except ε α) :=
  ⟨x.requested, match x.outcome with
    | .ok value => .ok (.ok value)
    | .error err => .ok (.error err)
    | .abort fault => .abort fault⟩

protected def bind (x : Metered φ ε α) (f : α → Metered φ ε β) : Metered φ ε β :=
  match x.outcome with
  | .ok value => ⟨x.requested ++ (f value).requested, (f value).outcome⟩
  | .error err => ⟨x.requested, .error err⟩
  | .abort fault => ⟨x.requested, .abort fault⟩

instance : Monad (Metered φ ε) where
  pure value := ⟨[], .ok value⟩
  bind := Metered.bind

def traverse (f : α → Metered φ ε β) : List α → Metered φ ε (List β)
  | [] => pure []
  | value :: values => do
    let first ← f value
    let rest ← traverse f values
    return first :: rest

-- ---------------------------------------------------------------------------
-- Outcomes
-- ---------------------------------------------------------------------------

@[simp] theorem outcome_pure (value : α) :
    (pure value : Metered φ ε α).outcome = .ok value := rfl

@[simp] theorem outcome_request (size : Nat) :
    (request size : Metered φ ε Unit).outcome = .ok () := rfl

@[simp] theorem outcome_abort (fault : φ) :
    (abort fault : Metered φ ε α).outcome = .abort fault := rfl

@[simp] theorem outcome_fail (err : ε) : (fail err : Metered φ ε α).outcome = .error err := rfl

@[simp] theorem outcome_ofExcept_eq_ok_iff (r : Except ε α) (value : α) :
    (ofExcept r : Metered φ ε α).outcome = .ok value ↔ r = .ok value := by
  cases r <;> simp [ofExcept]

theorem outcome_attempt_of_ok {x : Metered φ ε α} {value : α} (h : x.outcome = .ok value) :
    (attempt x : Metered φ ε' (Except ε α)).outcome = .ok (.ok value) := by
  simp [attempt, h]

theorem outcome_bind_eq_ok_iff (x : Metered φ ε α) (f : α → Metered φ ε β) (value : β) :
    (x >>= f).outcome = .ok value ↔
      ∃ a, x.outcome = .ok a ∧ (f a).outcome = .ok value := by
  change (Metered.bind x f).outcome = _ ↔ _
  rw [Metered.bind]
  split
  case h_1 a ha => simp [ha]
  case h_2 err herr => simp [herr]
  case h_3 fault hfault => simp [hfault]

@[simp] theorem attempt_fail (err : ε) :
    (attempt (fail err : Metered φ ε α) : Metered φ ε' (Except ε α)) = pure (.error err) := rfl

-- ---------------------------------------------------------------------------
-- Staying within a limit
-- ---------------------------------------------------------------------------

structure Within (limit : Nat) (x : Metered φ ε α) : Prop where
  requested : ∀ size ∈ x.requested, size ≤ limit
  completes : ∀ fault, x.outcome ≠ .abort fault

variable {limit : Nat}

@[simp] theorem within_pure (value : α) : Within limit (pure value : Metered φ ε α) :=
  ⟨fun _ h => absurd h List.not_mem_nil, fun _ h => by simp at h⟩

@[simp] theorem within_fail (err : ε) : Within limit (fail err : Metered φ ε α) :=
  ⟨fun _ h => absurd h List.not_mem_nil, fun _ h => by simp at h⟩

@[simp] theorem not_within_abort (fault : φ) : ¬ Within limit (abort fault : Metered φ ε α) :=
  fun h => h.completes fault rfl

@[simp] theorem within_request_iff (size : Nat) :
    Within limit (request size : Metered φ ε Unit) ↔ size ≤ limit := by
  constructor
  case mp => exact fun h => h.requested size List.mem_cons_self
  case mpr => exact fun h => ⟨by simpa [request] using h, fun _ h => by simp at h⟩

@[simp] theorem within_ofExcept (r : Except ε α) :
    Within limit (ofExcept r : Metered φ ε α) := by
  cases r
  case ok value => exact within_pure value
  case error err => exact within_fail err

@[simp] theorem within_attempt_iff (x : Metered φ ε α) :
    Within limit (attempt x : Metered φ ε' (Except ε α)) ↔ Within limit x := by
  obtain ⟨requested, outcome⟩ := x
  constructor
  case mp =>
    intro h
    refine ⟨h.requested, fun fault hfault => h.completes fault ?_⟩
    simp only at hfault
    simp [attempt, hfault]
  case mpr =>
    intro h
    refine ⟨h.requested, fun fault hfault => ?_⟩
    cases outcome with
    | abort fault' => exact h.completes fault' rfl
    | _ => simp [attempt] at hfault

theorem within_bind_iff (x : Metered φ ε α) (f : α → Metered φ ε β) :
    Within limit (x >>= f) ↔
      Within limit x ∧ ∀ a, x.outcome = .ok a → Within limit (f a) := by
  change Within limit (Metered.bind x f) ↔ _
  obtain ⟨requested, outcome⟩ := x
  cases outcome with
  | ok value =>
    simp only [Metered.bind, Outcome.ok.injEq, forall_eq']
    constructor
    case mp =>
      intro h
      refine ⟨⟨fun size hmem => h.requested size (List.mem_append_left _ hmem), ?_⟩, ?_⟩
      · exact fun fault hfault => by simp at hfault
      · exact ⟨fun size hmem => h.requested size (List.mem_append_right _ hmem), h.completes⟩
    case mpr =>
      rintro ⟨hx, hf⟩
      refine ⟨fun size hmem => ?_, hf.completes⟩
      obtain hmem | hmem := List.mem_append.mp hmem
      · exact hx.requested size hmem
      · exact hf.requested size hmem
  | error err =>
    simp only [Metered.bind, reduceCtorEq, IsEmpty.forall_iff, implies_true, and_true]
    exact ⟨fun h => ⟨h.requested, fun _ h => by simp at h⟩,
      fun h => ⟨h.requested, fun _ h => by simp at h⟩⟩
  | abort fault =>
    constructor
    case mp => exact fun h => absurd rfl (h.completes fault)
    case mpr => exact fun h => absurd rfl (h.1.completes fault)

theorem within_ofExcept_bind_iff (r : Except ε α) (f : α → Metered φ ε β) :
    Within limit (ofExcept r >>= f) ↔ ∀ a, r = .ok a → Within limit (f a) := by
  simp [within_bind_iff]

/-- A list is gone through up to the first element that gives no value. -/
theorem within_traverse_iff (f : α → Metered φ ε β) (values : List α) :
    Within limit (traverse f values) ↔
      ∀ before value after, values = before ++ value :: after →
        (∀ v ∈ before, ∃ b, (f v).outcome = .ok b) → Within limit (f value) := by
  induction values with
  | nil => simp [traverse]
  | cons value values ih =>
    have hrest : Within limit (traverse f (value :: values)) ↔
        Within limit (f value) ∧
          ((∃ b, (f value).outcome = .ok b) → Within limit (traverse f values)) := by
      simp only [traverse, within_bind_iff, within_pure, implies_true, and_true,
        forall_exists_index]
    rw [hrest, ih]
    constructor
    case mp =>
      rintro ⟨hvalue, hvalues⟩ before v after heq hbefore
      cases before with
      | nil =>
        obtain ⟨rfl, -⟩ := List.cons.inj heq
        exact hvalue
      | cons u before =>
        obtain ⟨rfl, htail⟩ := List.cons.inj heq
        obtain ⟨hu, hbefore⟩ := List.forall_mem_cons.mp hbefore
        exact hvalues hu before v after htail hbefore
    case mpr =>
      intro h
      refine ⟨h [] value values rfl (fun _ hmem => absurd hmem List.not_mem_nil), ?_⟩
      intro hvalue before v after heq hbefore
      exact h (value :: before) v after (by rw [heq]; rfl)
        (List.forall_mem_cons.mpr ⟨hvalue, hbefore⟩)

theorem within_foldlM_iff (f : β → α → Metered φ ε β) (b : β) (values : List α) :
    Within limit (values.foldlM f b) ↔
      ∀ before value after b', values = before ++ value :: after →
        (before.foldlM f b).outcome = .ok b' → Within limit (f b' value) := by
  induction values generalizing b with
  | nil => simp
  | cons first rest ih =>
    rw [List.foldlM_cons, within_bind_iff]
    simp only [ih]
    constructor
    case mp =>
      rintro ⟨hfirst, hrest⟩ before value after b' heq hbefore
      cases before with
      | nil =>
        obtain ⟨rfl, -⟩ := List.cons.inj heq
        rw [List.foldlM_nil, outcome_pure, Outcome.ok.injEq] at hbefore
        exact hbefore ▸ hfirst
      | cons u before =>
        obtain ⟨rfl, htail⟩ := List.cons.inj heq
        rw [List.foldlM_cons, outcome_bind_eq_ok_iff] at hbefore
        obtain ⟨c, hc, hbefore⟩ := hbefore
        exact hrest c hc before value after b' htail hbefore
    case mpr =>
      intro h
      refine ⟨h [] first rest b rfl (outcome_pure b), ?_⟩
      intro c hc before value after b' heq hbefore
      refine h (first :: before) value after b' (by rw [heq]; rfl) ?_
      rw [List.foldlM_cons, outcome_bind_eq_ok_iff]
      exact ⟨c, hc, hbefore⟩

theorem forM_eq_foldlM (f : α → Metered φ ε PUnit) (values : List α) :
    values.forM f = values.foldlM (fun _ value => f value) ⟨⟩ := by
  induction values with
  | nil => rfl
  | cons value values ih => exact congrArg (f value >>= ·) (funext fun _ => ih)

theorem within_forM_iff (f : α → Metered φ ε PUnit) (values : List α) :
    Within limit (values.forM f) ↔
      ∀ before value after, values = before ++ value :: after →
        (before.forM f).outcome = .ok ⟨⟩ → Within limit (f value) := by
  simp only [forM_eq_foldlM, within_foldlM_iff]
  exact ⟨fun h before value after => h before value after ⟨⟩,
    fun h before value after _ => h before value after⟩

end Metered

end DimosViewer
