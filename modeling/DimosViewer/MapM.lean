import Mathlib.Data.List.Forall2

/-!
# Maps with errors and with a state

`mapM` in `Except` or `Option` has a result if and only if every element has one. `mapAccum` maps a list from
left to right and hands a state on. While an invariant of the state makes every step answer like a
function without state, the whole map does.
-/

-- ---------------------------------------------------------------------------
-- Errors
-- ---------------------------------------------------------------------------

namespace DimosViewer

theorem forall₂_of_mapM {f : α → Except ε β} {l : List α} {l' : List β}
    (h : l.mapM f = .ok l') : List.Forall₂ (fun a b => f a = .ok b) l l' := by
  induction l generalizing l' with
  | nil =>
    cases h
    exact .nil
  | cons a rest ih =>
    rw [List.mapM_cons] at h
    cases ha : f a with
    | error e =>
      rw [ha] at h
      cases h
    | ok b =>
      cases hrest : rest.mapM f with
      | error e =>
        rw [ha, hrest] at h
        cases h
      | ok bs =>
        rw [ha, hrest] at h
        cases h
        exact .cons ha (ih hrest)

theorem forall₂_of_mapM_eq_some {f : α → Option β} {l : List α} {l' : List β}
    (h : l.mapM f = some l') : List.Forall₂ (fun a b => f a = some b) l l' := by
  induction l generalizing l' with
  | nil =>
    cases h
    exact .nil
  | cons a rest ih =>
    rw [List.mapM_cons] at h
    obtain ⟨b, hb, h⟩ := Option.bind_eq_some_iff.mp h
    obtain ⟨bs, hbs, h⟩ := Option.bind_eq_some_iff.mp h
    cases h
    exact .cons hb (ih hbs)

theorem exists_right_of_forall₂ {R : α → β → Prop} {l : List α} {l' : List β}
    (h : List.Forall₂ R l l') (ha : a ∈ l) : ∃ b ∈ l', R a b := by
  induction h with
  | nil => cases ha
  | cons hab _ ih =>
    rcases List.mem_cons.mp ha with rfl | ha
    · exact ⟨_, List.mem_cons_self, hab⟩
    · obtain ⟨b, hb, hr⟩ := ih ha
      exact ⟨b, List.mem_cons_of_mem _ hb, hr⟩

theorem exists_left_of_forall₂ {R : α → β → Prop} {l : List α} {l' : List β}
    (h : List.Forall₂ R l l') (hb : b ∈ l') : ∃ a ∈ l, R a b :=
  exists_right_of_forall₂ h.flip hb

theorem forall₂_comp {R : α → β → Prop} {S : β → γ → Prop} {a : List α} {b : List β} {c : List γ}
    (h : List.Forall₂ R a b) (h' : List.Forall₂ S b c) :
    List.Forall₂ (fun x z => ∃ y, R x y ∧ S y z) a c := by
  induction h generalizing c with
  | nil =>
    cases h'
    exact .nil
  | cons hr _ ih =>
    cases h' with
    | cons hs h' => exact .cons ⟨_, hr, hs⟩ (ih h')

theorem mapM_ok {f : α → Except ε β} {p : α → β → Prop} {l : List α}
    (h : ∀ a ∈ l, ∃ b, f a = .ok b ∧ p a b) : ∃ l', l.mapM f = .ok l' ∧ List.Forall₂ p l l' := by
  induction l with
  | nil => exact ⟨[], rfl, .nil⟩
  | cons a rest ih =>
    obtain ⟨b, hb, hp⟩ := h a List.mem_cons_self
    obtain ⟨bs, hbs, hps⟩ := ih fun a' ha => h a' (List.mem_cons_of_mem _ ha)
    exact ⟨b :: bs, by rw [List.mapM_cons, hb, hbs]; rfl, .cons hp hps⟩

end DimosViewer

-- ---------------------------------------------------------------------------
-- States
-- ---------------------------------------------------------------------------

namespace MapAccum

variable {σ α β : Type}

def mapAccum (f : σ → α → σ × β) : σ → List α → σ × List β
  | s, [] => (s, [])
  | s, a :: rest =>
    let (s, b) := f s a
    let (s, bs) := mapAccum f s rest
    (s, b :: bs)

def Yields (inv : σ → Prop) (result : σ × β) (b : β) : Prop := result.2 = b ∧ inv result.1

theorem Yields.mapAccum {inv : σ → Prop} {f : σ → α → σ × β} {g : α → β} {l : List α}
    (h : ∀ a ∈ l, ∀ s, inv s → Yields inv (f s a) (g a)) {s : σ} (hs : inv s) :
    Yields inv (mapAccum f s l) (l.map g) := by
  induction l generalizing s with
  | nil => exact ⟨rfl, hs⟩
  | cons a rest ih =>
    obtain ⟨heq, hinv⟩ := h a (.head _) s hs
    obtain ⟨hrest, hinv'⟩ := ih (fun b hb => h b (.tail _ hb)) hinv
    exact ⟨congrArg₂ List.cons heq hrest, hinv'⟩

end MapAccum
