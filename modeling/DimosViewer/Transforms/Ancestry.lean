import DimosViewer.Transforms.Forest
import Mathlib.Algebra.BigOperators.Group.List.Basic
import Mathlib.Data.List.Chain

/-!
# Ancestry of transform frames

What the transform forest is for: the parents of the known frames, the ancestor a frame is resolved
to, and the transform to it. Cycles are lists of frames, in the order in which a stack of transforms
holds them: each frame comes after its parent.
-/

namespace DimosViewer.KnownFrames

variable {F T P : Type*} [Monoid T]
variable {known : KnownFrames F T P}

-- ---------------------------------------------------------------------------
-- Parents, pinholes and transforms
-- ---------------------------------------------------------------------------

variable (known) in
def Parent (f p : F) : Prop := f ∈ known.frames ∧ (known.transformsAt f).parentFrame = some p

variable (known) in
def IsPinhole (f : F) : Prop :=
  f ∈ known.frames ∧ ((known.transformsAt f).pinholeProjection).isSome

variable (known) in
def transform (f : F) : T := ((known.transformsAt f).parentFromChild.map (·.transform)).getD 1

@[simp] theorem childFrame_transformsAt : (known.transformsAt f).childFrame = f := by
  unfold transformsAt
  grind

theorem parentFrame_of_pinhole (h : (known.transformsAt f).pinholeProjection = some pinhole) :
    ∃ p, (known.transformsAt f).parentFrame = some p := by
  unfold transformsAt at h ⊢
  grind

theorem transform_of_parentFrame (h : (known.transformsAt f).parentFrame = none) :
    known.transform f = 1 := by
  unfold transform
  unfold transformsAt at h ⊢
  grind

theorem Parent.unique (h : known.Parent f p) (h' : known.Parent f p') : p = p' :=
  Option.some.inj (h.2.symm.trans h'.2)

-- ---------------------------------------------------------------------------
-- The ancestor that a frame is resolved to
-- ---------------------------------------------------------------------------

variable (known) in
/-- `r` is reached from `f` without crossing a pinhole, and `x` is the composition of the transforms
on the way. -/
inductive Along : F → F → T → Prop
  | refl : Along f f 1
  | step : known.Parent f p → ¬ known.IsPinhole f → Along p r x → Along f r (x * known.transform f)

variable (known) in
/-- A frame with no parent, or a pinhole: nothing is crossed there. -/
def IsTop (f : F) : Prop := known.IsPinhole f ∨ ∀ p, ¬ known.Parent f p

variable (known) in
/-- `r` is the topmost ancestor of `f` that is reached without crossing a pinhole, or the nearest
pinhole. -/
def Resolves (f r : F) (x : T) : Prop := known.Along f r x ∧ known.IsTop r

/-- Parents are unique, so what a frame is resolved to lies above all that is on the way. -/
theorem Along.resolves (h : known.Along f r x) (h' : known.Resolves f r' x') :
    ∃ y, known.Resolves r r' y ∧ x' = y * x := by
  induction h generalizing x' with
  | refl => exact ⟨x', h', (mul_one x').symm⟩
  | @step f p r x hparent hpin _ ih =>
    obtain ⟨halong, htop⟩ := h'
    cases halong with
    | refl =>
      exact htop.elim (fun hp => absurd hp hpin) (fun hnone => absurd hparent (hnone p))
    | step hparent' _ halong =>
      obtain rfl := hparent.unique hparent'
      obtain ⟨y, hy, rfl⟩ := ih ⟨halong, htop⟩
      exact ⟨y, hy, mul_assoc y x _⟩

theorem Resolves.of_isTop (h : known.Resolves r r' y) (htop : known.IsTop r) : r' = r ∧ y = 1 := by
  obtain ⟨halong, -⟩ := h
  cases halong with
  | refl => exact ⟨rfl, rfl⟩
  | step hparent hpin _ =>
    exact htop.elim (fun hp => absurd hp hpin) (fun hnone => absurd hparent (hnone _))

theorem Resolves.unique (h : known.Resolves f r x) (h' : known.Resolves f r' x') :
    r = r' ∧ x = x' := by
  obtain ⟨y, hy, rfl⟩ := h.1.resolves h'
  obtain ⟨rfl, rfl⟩ := hy.of_isTop h.2
  exact ⟨rfl, (one_mul x).symm⟩

-- ---------------------------------------------------------------------------
-- Cycles
-- ---------------------------------------------------------------------------

variable (known) in
/-- Each frame comes after its parent, and the first one's parent is the last one. -/
structure IsCycle (c : List F) : Prop where
  nodup : c.Nodup
  chain : c.IsChain (fun p f => known.Parent f p)
  closes : ∃ top ∈ c.head?, ∃ bottom ∈ c.getLast?, known.Parent top bottom

variable (known) in
def OnCycle (f : F) : Prop := ∃ c, known.IsCycle c ∧ f ∈ c

variable (known) in
def Acyclic : Prop := ∀ c, ¬ known.IsCycle c

variable (known) in
/-- From whichever frame a cycle is entered (its last one in the list): that frame is a pinhole, or
no frame of the cycle is and the transforms once around compose to the identity. -/
def CyclesClose : Prop :=
  ∀ c f, known.IsCycle (c ++ [f]) → known.IsPinhole f ∨
    ((∀ g ∈ c ++ [f], ¬ known.IsPinhole g) ∧ ((c ++ [f]).map known.transform).prod = 1)

theorem parent_of_mem_chain {c : List F} (hchain : c.IsChain (fun p f => known.Parent f p))
    (hmem : f ∈ c) (hhead : c.head? ≠ some f) : ∃ p ∈ c, known.Parent f p := by
  induction c with
  | nil => simp at hmem
  | cons g c ih =>
    rcases List.mem_cons.mp hmem with rfl | hmem
    · simp at hhead
    · cases c with
      | nil => simp at hmem
      | cons g' c =>
        rw [List.isChain_cons_cons] at hchain
        by_cases hg : f = g'
        · exact ⟨g, by simp, hg ▸ hchain.1⟩
        · obtain ⟨p, hp, hparent⟩ := ih hchain.2 hmem (by simpa using fun h => hg h.symm)
          exact ⟨p, List.mem_cons_of_mem _ hp, hparent⟩

theorem IsCycle.parent_of_mem (hc : known.IsCycle c) (hmem : f ∈ c) :
    ∃ p ∈ c, known.Parent f p := by
  by_cases hhead : c.head? = some f
  · obtain ⟨top, htop, bottom, hbottom, hparent⟩ := hc.closes
    obtain rfl : f = top := Option.some.inj (hhead.symm.trans htop)
    exact ⟨bottom, List.mem_of_getLast? hbottom, hparent⟩
  · exact parent_of_mem_chain hc.chain hmem hhead

/-- Nothing on a cycle without a pinhole is resolved. -/
theorem IsCycle.not_resolves (hc : known.IsCycle c) (hpin : ∀ g ∈ c, ¬ known.IsPinhole g)
    (hmem : f ∈ c) : ¬ known.Resolves f r x := by
  rintro ⟨halong, htop⟩
  induction halong with
  | @refl f =>
    obtain ⟨p, -, hparent⟩ := hc.parent_of_mem hmem
    exact htop.elim (hpin f hmem) (fun hnone => hnone p hparent)
  | step hparent _ _ ih =>
    obtain ⟨p, hp, hparent'⟩ := hc.parent_of_mem hmem
    exact ih (hparent.unique hparent' ▸ hp) htop

theorem Acyclic.cyclesClose (h : known.Acyclic) : known.CyclesClose :=
  fun _ _ hc => absurd hc (h _)

end DimosViewer.KnownFrames
