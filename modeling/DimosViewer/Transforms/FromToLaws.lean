import DimosViewer.Transforms.Forest
import DimosViewer.Transforms.WellFormed
import Mathlib.Data.List.Chain

/-!
# What is composed from one frame to another

Without cycles, the result for a source is the composition through the common root, or
through the image plane of a pinhole, unless the target lies under a pinhole too: then a
pinhole nested in the target's tree is never looked at.
-/

namespace DimosViewer

-- ---------------------------------------------------------------------------
-- Without cycles
-- ---------------------------------------------------------------------------

namespace KnownFrames

variable {F T P : Type*} [Monoid T] {known : KnownFrames F T P}

theorem exists_isCycle {l : List F} (hchain : l.IsChain known.Parent) (hdup : ¬ l.Nodup) :
    ∃ c, known.IsCycle c := by
  induction l with
  | nil => exact absurd .nil hdup
  | cons f l ih => ?_
  by_cases hnodup : l.Nodup
  · have hmem : f ∈ l := by
      by_contra hmem
      exact hdup (List.nodup_cons.mpr ⟨hmem, hnodup⟩)
    obtain ⟨between, rest, rfl⟩ := List.append_of_mem hmem
    -- The frames between the two, and the frame itself.
    refine ⟨(f :: between).reverse, ?_, ?_, ?_⟩
    · rw [List.nodup_reverse]
      refine List.nodup_cons.mpr ⟨fun h => ?_, hnodup.of_append_left⟩
      exact (List.nodup_append.mp hnodup).2.2 f h f List.mem_cons_self rfl
    · rw [List.isChain_reverse]
      exact (List.cons_append ▸ hchain : ((f :: between) ++ f :: rest).IsChain _).left_of_append
    · have hclose := (List.isChain_append.mp
        (List.cons_append ▸ hchain : ((f :: between) ++ f :: rest).IsChain _)).2.2
      obtain ⟨top, htop⟩ : ∃ top, (f :: between).getLast? = some top :=
        ⟨_, List.getLast?_cons⟩
      refine ⟨top, by rw [List.head?_reverse]; exact htop, f, by simp, ?_⟩
      exact hclose top htop f rfl
  · exact ih hchain.tail hnodup

theorem Acyclic.irrefl (h : known.Acyclic) : ¬ Relation.TransGen known.Parent f f := by
  intro hf
  obtain ⟨p, hparent, hreach⟩ := Relation.TransGen.head'_iff.mp hf
  obtain ⟨l, hchain, hlast⟩ := List.exists_isChain_cons_of_relationReflTransGen hreach
  obtain ⟨c, hc⟩ := exists_isCycle (List.isChain_cons_cons.mpr ⟨hparent, hchain⟩) (by
    rw [List.nodup_cons, not_and_or, not_not]
    exact .inl (hlast ▸ List.getLast_mem _))
  exact h c hc

theorem acyclic_of_rank (rank : F → ℕ) (h : ∀ f p, known.Parent f p → rank p < rank f) :
    known.Acyclic := by
  intro c hc
  have hnone : ∀ n, ∀ f ∈ c, rank f ≠ n := by
    intro n
    induction n using Nat.strong_induction_on with
    | h n ih =>
      rintro f hf rfl
      obtain ⟨p, hp, hparent⟩ := hc.parent_of_mem hf
      exact ih (rank p) (h f p hparent) p hp rfl
  obtain ⟨top, htop, -⟩ := hc.closes
  exact hnone _ top (List.mem_of_mem_head? htop) rfl

theorem Along.reaches (h : known.Along f r x) : Relation.ReflTransGen known.Parent f r := by
  induction h with
  | refl => exact .refl
  | step hparent _ _ ih => exact .head hparent ih

variable (known) in
def Related (f : F) : Prop := f ∈ known.frames ∨ ∃ g, known.Parent g f

variable (known) in
/-- The tree of the pinhole `s` stands in the tree of `r`, by the transform `e`. -/
def Embeds (s r : F) (pinhole : ResolvedPinholeProjection F P) (e : T) : Prop :=
  (known.transformsAt s).pinholeProjection = some pinhole ∧
    ∃ p y, known.Parent s p ∧ known.Resolves p r y ∧ e = y * known.transform s

theorem Embeds.reaches (h : known.Embeds s r pinhole e) : Relation.TransGen known.Parent s r := by
  obtain ⟨-, p, y, hparent, hres, -⟩ := h
  exact .head' hparent hres.1.reaches

theorem Embeds.unique (h : known.Embeds s r pinhole e) (h' : known.Embeds s r' pinhole' e') :
    r = r' ∧ pinhole = pinhole' ∧ e = e' := by
  obtain ⟨hproj, p, y, hparent, hres, rfl⟩ := h
  obtain ⟨hproj', p', y', hparent', hres', rfl⟩ := h'
  obtain rfl := hparent.unique hparent'
  obtain ⟨rfl, rfl⟩ := hres.unique hres'
  exact ⟨rfl, Option.some.inj (hproj.symm.trans hproj'), rfl⟩

theorem Embeds.isPinhole (h : known.Embeds s r pinhole e) : known.IsPinhole s := by
  obtain ⟨hproj, p, y, hparent, -⟩ := h
  exact ⟨hparent.1, by rw [hproj]; rfl⟩

theorem Acyclic.ne_of_embeds (h : known.Acyclic) (he : known.Embeds s r pinhole e) : s ≠ r := by
  rintro rfl
  exact h.irrefl he.reaches

theorem Acyclic.not_embeds (h : known.Acyclic) (he : known.Embeds s r pinhole e) :
    ¬ known.Embeds r s pinhole' e' := fun he' => h.irrefl (he.reaches.trans he'.reaches)

end KnownFrames

-- ---------------------------------------------------------------------------
-- What the composition is
-- ---------------------------------------------------------------------------

namespace KnownFrames

variable {F T P : Type*} [Group T]

section Compositions

variable (pinhole3dFromImagePlane : ResolvedPinholeProjection F P → ℚ → T)
variable (lookupImagePlaneDistance : F → ℚ) (known : KnownFrames F T P) (target source : F)

/-- `x` is the composition from `source` to `target`: through the root of both, out of the image
plane of the source's pinhole, or onto that of the target's pinhole. -/
inductive Composes : T → Prop
  | sameRoot : known.Resolves target r y → known.Resolves source r z → Composes (y⁻¹ * z)
  | outOfPlane : known.Resolves target r y → known.Resolves source s z →
      known.Embeds s r pinhole e →
      Composes (y⁻¹ * e * pinhole3dFromImagePlane pinhole (lookupImagePlaneDistance s) * z)
  | ontoPlane : known.Resolves target s y → known.Resolves source r z →
      known.Embeds s r pinhole e →
      Composes (y⁻¹ * (pinhole3dFromImagePlane pinhole 500)⁻¹ * e⁻¹ * z)

/-- The composition if there is one and both frames are known, with the root of the source, and an
error otherwise. -/
structure Answers (result : Except (TransformFromToError F) (TreeTransform F T)) : Prop where
  ok : known.Related target → known.Related source →
    ∀ x, Composes pinhole3dFromImagePlane lookupImagePlaneDistance known target source x →
      ∃ r z, known.Resolves source r z ∧ result = .ok ⟨r, x⟩
  error : (known.Related target → known.Related source →
    ∀ x, ¬ Composes pinhole3dFromImagePlane lookupImagePlaneDistance known target source x) →
      ∃ e, result = .error e

/-- The source lies under a pinhole in the target's tree, and the target under a pinhole too. -/
def Hidden : Prop :=
  known.Related target ∧ known.Related source ∧ ∃ t y s z pinhole e,
    known.Resolves target t y ∧ known.Resolves source s z ∧ known.IsPinhole t ∧
      known.Embeds s t pinhole e

end Compositions

end KnownFrames

-- ---------------------------------------------------------------------------
-- What the forest says
-- ---------------------------------------------------------------------------

namespace TransformForest

section Sound

variable {F T P : Type*} [Monoid T] {known : KnownFrames F T P} {forest : TransformForest F T P}

theorem Sound.rootFromFrame_iff [DecidableEq F] (h : Sound known forest [] [])
    (hacyclic : known.Acyclic) :
    forest.rootFromFrame f = some ⟨r, x⟩ ↔ known.Related f ∧ known.Resolves f r x := by
  constructor
  · intro hf
    obtain ⟨halong, hroot⟩ := h.along f _ hf
    exact ⟨h.related f (by rw [hf]; rfl), halong, h.isTop hacyclic hroot⟩
  · rintro ⟨hrel, hres⟩
    obtain ⟨t, ht⟩ := Option.isSome_iff_exists.mp (h.isSome_rootFromFrame.mpr hrel)
    rw [ht, h.eq_of_resolves ht hres]

theorem Sound.embeds (h : Sound known forest [] []) (hacyclic : known.Acyclic)
    (hr : forest.roots r = some (.pinhole q)) :
    known.Embeds r q.parentTreeRoot q.pinholeProjection q.parentRootFromPinholeRoot := by
  obtain ⟨hproj, hroot, p, x, hparent, halong, hx⟩ := h.projected r q hr
  exact ⟨hproj, p, x, hparent, ⟨halong, h.isTop hacyclic hroot⟩, hx⟩

theorem Sound.not_isPinhole (h : Sound known forest [] [])
    (hr : forest.roots r = some .transformFrameRoot) : ¬ known.IsPinhole r :=
  h.framed r hr (by simp)

end Sound

-- ---------------------------------------------------------------------------
-- The cache
-- ---------------------------------------------------------------------------

section Cache

variable {F T P : Type*} [DecidableEq F] [Group T] {forest : TransformForest F T P}
variable {pinhole3dFromImagePlane : ResolvedPinholeProjection F P → ℚ → T}
variable {lookupImagePlaneDistance : F → ℚ}

/-- Every entry is what would be computed for its key. -/
def Memo (value : F → T) (cache : F → Option T) : Prop :=
  ∀ key v, cache key = some v → v = value key

omit [Group T] in
theorem orInsertWith_memo {value : F → T} {cache : F → Option T} (h : Memo value cache) (key : F) :
    (orInsertWith cache key (value key)).1 = value key ∧
      Memo value (orInsertWith cache key (value key)).2 := by
  rw [orInsertWith]
  cases hk : cache key with
  | some v => exact ⟨h key v hk, h⟩
  | none =>
    refine ⟨rfl, fun k v hv => ?_⟩
    by_cases hkk : k = key
    · subst hkk
      simpa [eq_comm] using hv
    · simp only [Function.update_of_ne hkk] at hv
      exact h k v hv

variable (pinhole3dFromImagePlane lookupImagePlaneDistance forest) in
/-- What the cache is asked for: which of the two connections it is depends on the target. -/
def connection (target : TargetInfo F T) (root : F) : T :=
  match forest.roots target.root, forest.roots root with
  | some (.pinhole q), _ =>
    target.targetFromRoot * (pinhole3dFromImagePlane q.pinholeProjection 500)⁻¹ *
      q.parentRootFromPinholeRoot⁻¹
  | _, some (.pinhole q) =>
    target.targetFromRoot * q.parentRootFromPinholeRoot *
      pinhole3dFromImagePlane q.pinholeProjection (lookupImagePlaneDistance root)
  | _, _ => 1

omit [DecidableEq F] [Group T] in
theorem memo_empty (value : F → T) : Memo value fun _ => none := by simp [Memo]

theorem from3d_memo {target : TargetInfo F T} {source : SourceInfo F T}
    {q : PinholeTreeRoot F T P} {value : F → T} {cache : F → Option T} (h : Memo value cache)
    (hv : value source.root =
      target.targetFromRoot * (pinhole3dFromImagePlane q.pinholeProjection 500)⁻¹ *
        q.parentRootFromPinholeRoot⁻¹) :
    (from3dSourceTo2dTarget pinhole3dFromImagePlane target source q cache).1 =
        (from3dSourceTo2dTarget pinhole3dFromImagePlane target source q fun _ => none).1 ∧
      Memo value (from3dSourceTo2dTarget pinhole3dFromImagePlane target source q cache).2 := by
  rw [from3dSourceTo2dTarget, from3dSourceTo2dTarget]
  split
  · exact ⟨rfl, h⟩
  · obtain ⟨hv', hmemo⟩ := orInsertWith_memo h source.root
    rw [hv] at hv' hmemo
    refine ⟨?_, hmemo⟩
    simp only [hv']
    rfl

theorem from2d_memo {target : TargetInfo F T} {source : SourceInfo F T}
    {q : PinholeTreeRoot F T P} {value : F → T} {cache : F → Option T} (h : Memo value cache)
    (hv : value source.root = target.targetFromRoot * q.parentRootFromPinholeRoot *
      pinhole3dFromImagePlane q.pinholeProjection (lookupImagePlaneDistance source.root)) :
    (from2dSourceTo3dTarget pinhole3dFromImagePlane lookupImagePlaneDistance target source q
        cache).1 =
        (from2dSourceTo3dTarget pinhole3dFromImagePlane lookupImagePlaneDistance target source q
          fun _ => none).1 ∧
      Memo value (from2dSourceTo3dTarget pinhole3dFromImagePlane lookupImagePlaneDistance target
        source q cache).2 := by
  rw [from2dSourceTo3dTarget, from2dSourceTo3dTarget]
  split
  · exact ⟨rfl, h⟩
  · obtain ⟨hv', hmemo⟩ := orInsertWith_memo h source.root
    rw [hv] at hv' hmemo
    refine ⟨?_, hmemo⟩
    simp only [hv']
    rfl

/-- A result does not depend on what has been cached. -/
theorem transformSource_memo {target : TargetInfo F T} {cache : F → Option T}
    (h : Memo (forest.connection pinhole3dFromImagePlane lookupImagePlaneDistance target) cache)
    (source : F) :
    (forest.transformSource pinhole3dFromImagePlane lookupImagePlaneDistance target cache
        source).1 =
      (forest.transformSource pinhole3dFromImagePlane lookupImagePlaneDistance target
        (fun _ => none) source).1 ∧
      Memo (forest.connection pinhole3dFromImagePlane lookupImagePlaneDistance target)
        (forest.transformSource pinhole3dFromImagePlane lookupImagePlaneDistance target cache
          source).2 := by
  simp only [transformSource]
  cases forest.rootFromFrame source with
  | none => exact ⟨rfl, h⟩
  | some t => ?_
  by_cases hroot : t.root = target.root
  · simp only [if_pos hroot]
    split
    · exact ⟨rfl, h⟩
    · exact ⟨rfl, h⟩
  simp only [if_neg hroot]
  rcases htarget : forest.roots target.root with _ | _ | q
  case some.pinhole => exact from3d_memo h (by simp only [connection, htarget])
  all_goals
    rcases hsource : forest.roots t.root with _ | _ | q
    case some.pinhole => exact from2d_memo h (by simp only [connection, htarget, hsource])
    all_goals exact ⟨rfl, h⟩

theorem transformSources_eq {target : TargetInfo F T} {cache : F → Option T}
    (h : Memo (forest.connection pinhole3dFromImagePlane lookupImagePlaneDistance target) cache)
    (sources : List F) :
    forest.transformSources pinhole3dFromImagePlane lookupImagePlaneDistance target cache sources =
      sources.map fun source => (source,
        (forest.transformSource pinhole3dFromImagePlane lookupImagePlaneDistance target
          (fun _ => none) source).1) := by
  induction sources generalizing cache with
  | nil => rfl
  | cons source sources ih =>
    obtain ⟨hresult, hmemo⟩ := transformSource_memo h source
    rw [transformSources, ih hmemo, hresult, List.map_cons]

end Cache

-- ---------------------------------------------------------------------------
-- Each result
-- ---------------------------------------------------------------------------

section Results

open KnownFrames

variable {F T P : Type*} [DecidableEq F] [Group T] {known : KnownFrames F T P}
variable {forest : TransformForest F T P}
variable {pinhole3dFromImagePlane : ResolvedPinholeProjection F P → ℚ → T}
variable {lookupImagePlaneDistance : F → ℚ}

omit [DecidableEq F] in
theorem answers_of_ok {result : Except (TransformFromToError F) (TreeTransform F T)}
    (htarget : known.Related target) (hsource : known.Related source)
    (hres : known.Resolves source r z)
    (hx : Composes pinhole3dFromImagePlane lookupImagePlaneDistance known target source x)
    (hunique : ∀ x', Composes pinhole3dFromImagePlane lookupImagePlaneDistance known target source
      x' → x' = x) (hresult : result = .ok ⟨r, x⟩) :
    Answers pinhole3dFromImagePlane lookupImagePlaneDistance known target source result where
  ok _ _ x' hx' := ⟨r, z, hres, by rw [hunique x' hx', hresult]⟩
  error hnone := absurd hx (hnone htarget hsource x)

omit [DecidableEq F] in
theorem answers_error_iff {e : TransformFromToError F} :
    Answers pinhole3dFromImagePlane lookupImagePlaneDistance known target source (.error e) ↔
      (known.Related target → known.Related source → ∀ x,
        ¬ Composes pinhole3dFromImagePlane lookupImagePlaneDistance known target source x) := by
  constructor
  · intro h ht hs x hx
    obtain ⟨r, z, -, he⟩ := h.ok ht hs x hx
    cases he
  · exact fun h => ⟨fun ht hs x hx => absurd hx (h ht hs x), fun _ => ⟨e, rfl⟩⟩

omit [DecidableEq F] in
/-- Which compositions there are depends on the roots only. -/
theorem composes_iff (ht : known.Resolves target t y) (hs : known.Resolves source s z) :
    Composes pinhole3dFromImagePlane lookupImagePlaneDistance known target source x ↔
      t = s ∧ x = y⁻¹ * z ∨
      (∃ pinhole e, known.Embeds s t pinhole e ∧
        x = y⁻¹ * e * pinhole3dFromImagePlane pinhole (lookupImagePlaneDistance s) * z) ∨
      ∃ pinhole e, known.Embeds t s pinhole e ∧
        x = y⁻¹ * (pinhole3dFromImagePlane pinhole 500)⁻¹ * e⁻¹ * z := by
  constructor
  · intro h
    cases h with
    | sameRoot ht' hs' =>
      obtain ⟨rfl, rfl⟩ := ht.unique ht'
      obtain ⟨rfl, rfl⟩ := hs.unique hs'
      exact .inl ⟨rfl, rfl⟩
    | outOfPlane ht' hs' he =>
      obtain ⟨rfl, rfl⟩ := ht.unique ht'
      obtain ⟨rfl, rfl⟩ := hs.unique hs'
      exact .inr (.inl ⟨_, _, he, rfl⟩)
    | ontoPlane ht' hs' he =>
      obtain ⟨rfl, rfl⟩ := ht.unique ht'
      obtain ⟨rfl, rfl⟩ := hs.unique hs'
      exact .inr (.inr ⟨_, _, he, rfl⟩)
  · rintro (⟨rfl, rfl⟩ | ⟨pinhole, e, he, rfl⟩ | ⟨pinhole, e, he, rfl⟩)
    · exact .sameRoot ht hs
    · exact .outOfPlane ht hs he
    · exact .ontoPlane ht hs he

omit [DecidableEq F] in
theorem hidden_iff (htarget : known.Related target) (hsource : known.Related source)
    (ht : known.Resolves target t y) (hs : known.Resolves source s z) :
    known.Hidden target source ↔ known.IsPinhole t ∧ ∃ pinhole e, known.Embeds s t pinhole e := by
  constructor
  · rintro ⟨-, -, t', y', s', z', pinhole, e, ht', hs', hpin, he⟩
    obtain ⟨rfl, rfl⟩ := ht.unique ht'
    obtain ⟨rfl, rfl⟩ := hs.unique hs'
    exact ⟨hpin, pinhole, e, he⟩
  · rintro ⟨hpin, pinhole, e, he⟩
    exact ⟨htarget, hsource, t, y, s, z, pinhole, e, ht, hs, hpin, he⟩

theorem Sound.answers_sameRoot (h : Sound known forest [] []) (hacyclic : known.Acyclic)
    (htarget : forest.rootFromFrame target = some ⟨r, y⟩)
    (hsource : forest.rootFromFrame source = some ⟨r, z⟩) :
    Answers pinhole3dFromImagePlane lookupImagePlaneDistance known target source
      (forest.transformSource pinhole3dFromImagePlane lookupImagePlaneDistance ⟨target, r, y⁻¹⟩
        (fun _ => none) source).1 := by
  obtain ⟨hreltarget, ht⟩ := (h.rootFromFrame_iff hacyclic).mp htarget
  obtain ⟨hrelsource, hs⟩ := (h.rootFromFrame_iff hacyclic).mp hsource
  have hone : r = target → y = 1 := by
    rintro rfl
    have hself := h.rooted r (h.along r _ htarget).2 (by simp)
    exact (TreeTransform.mk.inj (Option.some.inj (htarget.symm.trans hself))).2
  have hresult : (if r = target then
      (.ok ⟨r, z⟩ : Except (TransformFromToError F) (TreeTransform F T))
      else .ok (TreeTransform.leftMultiply ⟨r, z⟩ y⁻¹)) = .ok ⟨r, y⁻¹ * z⟩ := by
    split
    · rw [hone ‹_›, inv_one, one_mul]
    · rfl
  simp only [transformSource, hsource]
  rw [if_pos trivial, apply_ite Prod.fst, hresult]
  refine answers_of_ok hreltarget hrelsource hs (.sameRoot ht hs) (fun x hx => ?_) rfl
  rcases (composes_iff ht hs).mp hx with ⟨-, rfl⟩ | ⟨_, _, he, -⟩ | ⟨_, _, he, -⟩
  · rfl
  · exact absurd rfl (hacyclic.ne_of_embeds he)
  · exact absurd rfl (hacyclic.ne_of_embeds he)

theorem Sound.answers_pinhole_iff (h : Sound known forest [] []) (hacyclic : known.Acyclic)
    (htarget : forest.rootFromFrame target = some ⟨t, y⟩)
    (hsource : forest.rootFromFrame source = some ⟨s, z⟩) (hroot : s ≠ t)
    (hinfo : forest.roots t = some (.pinhole q)) :
    Answers pinhole3dFromImagePlane lookupImagePlaneDistance known target source
      (forest.transformSource pinhole3dFromImagePlane lookupImagePlaneDistance ⟨target, t, y⁻¹⟩
        (fun _ => none) source).1 ↔ ¬ known.Hidden target source := by
  obtain ⟨hreltarget, ht⟩ := (h.rootFromFrame_iff hacyclic).mp htarget
  obtain ⟨hrelsource, hs⟩ := (h.rootFromFrame_iff hacyclic).mp hsource
  have he := h.embeds hacyclic hinfo
  rw [hidden_iff hreltarget hrelsource ht hs]
  simp only [transformSource, hsource, if_neg hroot, hinfo, from3dSourceTo2dTarget]
  by_cases hparent : q.parentTreeRoot = s
  · subst hparent
    rw [if_neg (by simp)]
    refine iff_of_true (answers_of_ok hreltarget hrelsource hs (.ontoPlane ht hs he) ?_ rfl) ?_
    · intro x hx
      rcases (composes_iff ht hs).mp hx with ⟨he, -⟩ | ⟨_, _, he', -⟩ | ⟨_, _, he', rfl⟩
      · exact absurd he.symm hroot
      · exact absurd he' (hacyclic.not_embeds he)
      · obtain ⟨-, rfl, rfl⟩ := he.unique he'
        rfl
    · rintro ⟨-, _, _, he'⟩
      exact hacyclic.not_embeds he he'
  · rw [if_pos hparent, answers_error_iff]
    constructor
    · rintro hno ⟨-, _, _, he'⟩
      exact hno hreltarget hrelsource _ (.outOfPlane ht hs he')
    · intro hno _ _ x hx
      rcases (composes_iff ht hs).mp hx with ⟨he', -⟩ | ⟨_, _, he', -⟩ | ⟨_, _, he', -⟩
      · exact hroot he'.symm
      · exact hno ⟨he.isPinhole, _, _, he'⟩
      · exact hparent (he.unique he').1

theorem Sound.answers_frame (h : Sound known forest [] []) (hacyclic : known.Acyclic)
    (htarget : forest.rootFromFrame target = some ⟨t, y⟩)
    (hsource : forest.rootFromFrame source = some ⟨s, z⟩) (hroot : s ≠ t)
    (hinfo : forest.roots t = some .transformFrameRoot) :
    Answers pinhole3dFromImagePlane lookupImagePlaneDistance known target source
      (forest.transformSource pinhole3dFromImagePlane lookupImagePlaneDistance ⟨target, t, y⁻¹⟩
        (fun _ => none) source).1 := by
  obtain ⟨hreltarget, ht⟩ := (h.rootFromFrame_iff hacyclic).mp htarget
  obtain ⟨hrelsource, hs⟩ := (h.rootFromFrame_iff hacyclic).mp hsource
  have hpin := h.not_isPinhole hinfo
  obtain ⟨info, hinfo'⟩ := Option.isSome_iff_exists.mp (h.along source _ hsource).2
  simp only [transformSource, hsource, if_neg hroot, hinfo, hinfo']
  cases info with
  | pinhole q =>
    have he := h.embeds hacyclic hinfo'
    simp only [from2dSourceTo3dTarget]
    by_cases hparent : q.parentTreeRoot = t
    · subst hparent
      rw [if_neg (by simp)]
      refine answers_of_ok hreltarget hrelsource hs (.outOfPlane ht hs he) (fun x hx => ?_) rfl
      rcases (composes_iff ht hs).mp hx with ⟨he, -⟩ | ⟨_, _, he', rfl⟩ | ⟨_, _, he', -⟩
      · exact absurd he.symm hroot
      · obtain ⟨-, rfl, rfl⟩ := he.unique he'
        rfl
      · exact absurd he'.isPinhole hpin
    · rw [if_pos hparent, answers_error_iff]
      intro _ _ x hx
      rcases (composes_iff ht hs).mp hx with ⟨he', -⟩ | ⟨_, _, he', -⟩ | ⟨_, _, he', -⟩
      · exact hroot he'.symm
      · exact hparent (he.unique he').1
      · exact hpin he'.isPinhole
  | transformFrameRoot =>
    rw [answers_error_iff]
    intro _ _ x hx
    rcases (composes_iff ht hs).mp hx with ⟨he', -⟩ | ⟨_, _, he', -⟩ | ⟨_, _, he', -⟩
    · exact hroot he'.symm
    · exact h.not_isPinhole hinfo' he'.isPinhole
    · exact hpin he'.isPinhole

theorem Sound.answers_iff (h : Sound known forest [] []) (hacyclic : known.Acyclic)
    (htarget : forest.rootFromFrame target = some ⟨t, y⟩) (source : F) :
    Answers pinhole3dFromImagePlane lookupImagePlaneDistance known target source
      (forest.transformSource pinhole3dFromImagePlane lookupImagePlaneDistance ⟨target, t, y⁻¹⟩
        (fun _ => none) source).1 ↔ ¬ known.Hidden target source := by
  cases hsource : forest.rootFromFrame source with
  | none =>
    have hunrelated : ¬ known.Related source := by
      intro hrel
      have := h.isSome_rootFromFrame.mpr hrel
      rw [hsource] at this
      cases this
    simp only [transformSource, hsource]
    rw [answers_error_iff]
    exact iff_of_true (fun _ hs => absurd hs hunrelated) fun hh => hunrelated hh.2.1
  | some entry => ?_
  obtain ⟨s, z⟩ := entry
  obtain ⟨hreltarget, ht⟩ := (h.rootFromFrame_iff hacyclic).mp htarget
  obtain ⟨hrelsource, hs⟩ := (h.rootFromFrame_iff hacyclic).mp hsource
  by_cases hroot : s = t
  · subst hroot
    refine iff_of_true (h.answers_sameRoot hacyclic htarget hsource) ?_
    rw [hidden_iff hreltarget hrelsource ht hs]
    rintro ⟨-, _, _, he⟩
    exact hacyclic.ne_of_embeds he rfl
  obtain ⟨info, hinfo⟩ := Option.isSome_iff_exists.mp (h.along target _ htarget).2
  cases info with
  | pinhole q => exact h.answers_pinhole_iff hacyclic htarget hsource hroot hinfo
  | transformFrameRoot =>
    refine iff_of_true (h.answers_frame hacyclic htarget hsource hroot hinfo) ?_
    rw [hidden_iff hreltarget hrelsource ht hs]
    exact fun hh => h.not_isPinhole hinfo hh.1

theorem Sound.exists_answer (h : Sound known forest [] []) (hacyclic : known.Acyclic)
    (target : F) :
    ∃ answer : F → Except (TransformFromToError F) (TreeTransform F T),
      (∀ sources, forest.transformFromTo pinhole3dFromImagePlane lookupImagePlaneDistance target
        sources = sources.map fun source => (source, answer source)) ∧
      ∀ source, Answers pinhole3dFromImagePlane lookupImagePlaneDistance known target source
        (answer source) ↔ ¬ known.Hidden target source := by
  cases htarget : forest.rootFromFrame target with
  | none =>
    have hunrelated : ¬ known.Related target := by
      intro hrel
      have := h.isSome_rootFromFrame.mpr hrel
      rw [htarget] at this
      cases this
    refine ⟨fun _ => .error (.unknownTargetFrame target), fun sources => ?_, fun source => ?_⟩
    · simp only [transformFromTo, htarget]
    · rw [answers_error_iff]
      exact iff_of_true (fun ht => absurd ht hunrelated) fun hh => hunrelated hh.1
  | some entry =>
    refine ⟨_, fun sources => ?_, h.answers_iff hacyclic htarget⟩
    simp only [transformFromTo, htarget]
    exact transformSources_eq (memo_empty _) sources

/-- Whatever the other sources are, each source gets its answer, unless it lies under a pinhole in
the target's tree and the target lies under a pinhole too. -/
theorem transformFromTo_answers_iff (hacyclic : known.Acyclic) (horder : order.Perm known.frames)
    (pinhole3dFromImagePlane : ResolvedPinholeProjection F P → ℚ → T)
    (lookupImagePlaneDistance : F → ℚ) (target : F) (sources : List F) :
    (new known order).transformFromTo pinhole3dFromImagePlane lookupImagePlaneDistance target
        sources =
      (sources.flatMap fun source =>
        (new known order).transformFromTo pinhole3dFromImagePlane lookupImagePlaneDistance target
          [source]) ∧
    (List.Forall₂ (fun source result => result.1 = source ∧
        Answers pinhole3dFromImagePlane lookupImagePlaneDistance known target source result.2)
      sources ((new known order).transformFromTo pinhole3dFromImagePlane lookupImagePlaneDistance
        target sources) ↔ ∀ source ∈ sources, ¬ known.Hidden target source) := by
  have h := sound_new hacyclic.cyclesClose horder
  obtain ⟨answer, hall, hanswer⟩ := @Sound.exists_answer _ _ _ _ _ _ _
    pinhole3dFromImagePlane lookupImagePlaneDistance h hacyclic target
  simp only [hall]
  constructor
  · exact List.map_eq_flatMap
  · rw [List.forall₂_map_right_iff, List.forall₂_same]
    simp only [true_and, hanswer]

-- A pinhole nested in another one's tree.

/-- Two pinholes, the second in the tree of the first. -/
def nestedPinholes : KnownFrames ℕ (Multiplicative ℤ) Unit where
  frames := [1, 2]
  nodup := by decide
  latestAtTransform _ := none
  latestAtPinhole f := if f = 0 then none else some ⟨f - 1, ()⟩
  implicitParent _ := none

theorem nestedPinholes_parent (h : nestedPinholes.Parent f p) : p < f := by
  obtain ⟨-, hp⟩ := h
  by_cases hf : f = 0
  · simp [KnownFrames.transformsAt, nestedPinholes, hf] at hp
  · simp [KnownFrames.transformsAt, nestedPinholes, hf] at hp
    omega

theorem nestedPinholes_acyclic : nestedPinholes.Acyclic :=
  acyclic_of_rank id fun _ _ => nestedPinholes_parent

theorem nestedPinholes_resolves (hf : f ∈ [1, 2]) : nestedPinholes.Resolves f f 1 := by
  refine ⟨.refl, .inl ⟨hf, ?_⟩⟩
  rcases List.mem_cons.mp hf with rfl | hf
  · rfl
  · obtain rfl := List.mem_singleton.mp hf
    rfl

def distanceOnly : ResolvedPinholeProjection ℕ Unit → ℚ → Multiplicative ℤ :=
  fun _ distance => .ofAdd distance.num

theorem nestedPinholes_reaches (h : Relation.TransGen nestedPinholes.Parent f r) : r < f := by
  induction h with
  | single h => exact nestedPinholes_parent h
  | tail _ h ih => exact (nestedPinholes_parent h).trans ih

theorem nestedPinholes_embeds : nestedPinholes.Embeds 2 1 ⟨1, ()⟩ 1 :=
  ⟨rfl, 1, 1, ⟨by decide, rfl⟩, nestedPinholes_resolves (by decide), rfl⟩

theorem nestedPinholes_not_hidden : ¬ nestedPinholes.Hidden 2 1 := by
  rintro ⟨-, -, t, y, s, z, pinhole, e, ht, hs, -, he⟩
  obtain ⟨rfl, -⟩ := ht.unique (nestedPinholes_resolves (by decide))
  obtain ⟨rfl, -⟩ := hs.unique (nestedPinholes_resolves (by decide))
  exact absurd (nestedPinholes_reaches he.reaches) (by decide)

/-- Points of the outer pinhole's image plane, on the plane of the nested one. -/
theorem transformFromTo_answers_nested :
    Answers distanceOnly (fun _ => 1) nestedPinholes 2 1 (.ok ⟨1, .ofAdd (-500)⟩) := by
  have hall := ((transformFromTo_answers_iff nestedPinholes_acyclic (.refl _) distanceOnly
    (fun _ => 1) 2 [1]).2).mpr (by simpa using nestedPinholes_not_hidden)
  have heq : (new nestedPinholes nestedPinholes.frames).transformFromTo distanceOnly (fun _ => 1)
      2 [1] = [(1, .ok ⟨1, .ofAdd (-500)⟩)] := by decide +kernel
  rw [heq] at hall
  exact (List.forall₂_cons.mp hall).1.2

/-- The way back is not found. -/
theorem nested_pinhole_not_found :
    (new nestedPinholes nestedPinholes.frames).transformFromTo distanceOnly (fun _ => 1) 1 [2] =
        [(2, .error (.noPathBetweenFrames 1 2 1 2))] ∧
      nestedPinholes.Related 1 ∧ nestedPinholes.Related 2 ∧
      Composes distanceOnly (fun _ => 1) nestedPinholes 1 2 (.ofAdd 1) := by
  refine ⟨by decide +kernel, .inl (by decide), .inl (by decide), ?_⟩
  exact .outOfPlane (nestedPinholes_resolves (by decide)) (nestedPinholes_resolves (by decide))
    nestedPinholes_embeds

end Results

end TransformForest

end DimosViewer
