import DimosViewer.Transforms.ForestLaws
import Mathlib.Algebra.Group.Int.TypeTags
import Mathlib.Data.List.Perm.Basic

/-!
# When the transform forest is well formed

Whatever the order in which frames are taken, the forest is well formed exactly if cycles close, and
without cycles the order makes no difference at all. A build with debug assertions panics on every
cycle that is entered first, and without cycles never.
-/

namespace DimosViewer

namespace TransformForest

variable {F T P : Type*} [DecidableEq F] [Monoid T]
variable {known : KnownFrames F T P} {forest forest' : TransformForest F T P}

variable (known forest) in
structure WellFormed : Prop where
  covered : ∀ f ∈ known.frames, (forest.rootFromFrame f).isSome
  registered : ∀ f t, forest.rootFromFrame f = some t → (forest.roots t.root).isSome
  rooted : ∀ r, (forest.roots r).isSome → forest.rootFromFrame r = some (.newRoot r)
  resolved : ∀ f ∈ known.frames, ¬ known.OnCycle f → ∀ r x, known.Resolves f r x →
    forest.rootFromFrame f = some ⟨r, x⟩

omit [DecidableEq F] in
theorem Sound.eq_of_resolves (h : Sound known forest [] [])
    (ht : forest.rootFromFrame f = some t) (hres : known.Resolves f r x) : t = ⟨r, x⟩ := by
  obtain ⟨halong, hroot⟩ := h.along f t ht
  obtain ⟨y, hy, rfl⟩ := halong.resolves hres
  rcases h.ended _ hroot with htop | ⟨c, hc, hmem, hpin⟩
  · obtain ⟨rfl, rfl⟩ := hy.of_isTop htop
    rw [one_mul]
  · exact absurd hy (hc.not_resolves hpin hmem)

omit [DecidableEq F] in
theorem Sound.wellFormed (h : Sound known forest [] []) : WellFormed known forest where
  covered f hf := h.covered f hf (by simp) (by simp)
  registered f t ht := (h.along f t ht).2
  rooted r hr := h.rooted r hr (by simp)
  resolved f hf _ r x hres := by
    obtain ⟨t, ht⟩ := Option.isSome_iff_exists.mp (h.covered f hf (by simp) (by simp))
    rw [ht, h.eq_of_resolves ht hres]

-- ---------------------------------------------------------------------------
-- Without cycles
-- ---------------------------------------------------------------------------

omit [DecidableEq F] in
theorem Sound.isTop (h : Sound known forest [] []) (hacyclic : known.Acyclic)
    (hroot : (forest.roots r).isSome) : known.IsTop r :=
  (h.ended r hroot).resolve_right fun ⟨c, hc, _⟩ => hacyclic c hc

omit [DecidableEq F] in
theorem Sound.isSome_rootFromFrame (h : Sound known forest [] []) :
    (forest.rootFromFrame f).isSome ↔ f ∈ known.frames ∨ ∃ g, known.Parent g f := by
  refine ⟨h.related f, ?_⟩
  rintro (hf | ⟨g, hg⟩)
  · exact h.covered f hf (by simp) (by simp)
  · exact h.parents g f hg (by simp) (by simp)

omit [DecidableEq F] in
theorem Sound.rootFromFrame_eq (h : Sound known forest [] []) (h' : Sound known forest' [] [])
    (hacyclic : known.Acyclic) : forest.rootFromFrame f = forest'.rootFromFrame f := by
  have hsome : (forest.rootFromFrame f).isSome ↔ (forest'.rootFromFrame f).isSome :=
    h.isSome_rootFromFrame.trans h'.isSome_rootFromFrame.symm
  cases ht : forest.rootFromFrame f with
  | none =>
    rw [ht] at hsome
    exact (Option.not_isSome_iff_eq_none.mp fun ht' => by simpa using hsome.mpr ht').symm
  | some t =>
    obtain ⟨t', ht'⟩ := Option.isSome_iff_exists.mp (hsome.mp (by simp [ht]))
    obtain ⟨halong, hroot⟩ := h.along f t ht
    rw [ht', h'.eq_of_resolves ht' ⟨halong, h.isTop hacyclic hroot⟩]

omit [DecidableEq F] in
theorem Sound.isSome_roots (h : Sound known forest [] []) :
    (forest.roots r).isSome ↔ forest.rootFromFrame r = some (.newRoot r) :=
  ⟨fun hr => h.rooted r hr (by simp), fun hr => (h.along r _ hr).2⟩

omit [DecidableEq F] in
theorem Sound.roots_eq (h : Sound known forest [] []) (h' : Sound known forest' [] [])
    (hacyclic : known.Acyclic) : forest.roots r = forest'.roots r := by
  have hsome : (forest.roots r).isSome ↔ (forest'.roots r).isSome := by
    rw [h.isSome_roots, h'.isSome_roots, h.rootFromFrame_eq h' hacyclic]
  cases hr : forest.roots r with
  | none =>
    rw [hr] at hsome
    exact (Option.not_isSome_iff_eq_none.mp fun hr' => by simpa using hsome.mpr hr').symm
  | some info =>
    obtain ⟨info', hr'⟩ := Option.isSome_iff_exists.mp (hsome.mp (by simp [hr]))
    rw [hr']
    cases info with
    | transformFrameRoot =>
      cases info' with
      | transformFrameRoot => rfl
      | pinhole q =>
        obtain ⟨hproj, -, p, x, hparent, -⟩ := h'.projected r q hr'
        exact absurd ⟨hparent.1, by simp [hproj]⟩ (h.framed r hr (by simp))
    | pinhole q =>
      obtain ⟨hproj, hroot, p, x, hparent, halong, hx⟩ := h.projected r q hr
      cases info' with
      | transformFrameRoot =>
        exact absurd ⟨hparent.1, by simp [hproj]⟩ (h'.framed r hr' (by simp))
      | pinhole q' =>
        obtain ⟨hproj', hroot', p', x', hparent', halong', hx'⟩ := h'.projected r q' hr'
        obtain rfl := hparent.unique hparent'
        obtain ⟨hq, rfl⟩ := KnownFrames.Resolves.unique ⟨halong, h.isTop hacyclic hroot⟩
          ⟨halong', h'.isTop hacyclic hroot'⟩
        obtain ⟨root, proj, y⟩ := q
        obtain ⟨root', proj', y'⟩ := q'
        simp_all

/-- Without cycles the order makes no difference. -/
theorem new_eq_of_acyclic (hacyclic : known.Acyclic) (h : order.Perm known.frames)
    (h' : order'.Perm known.frames) : new known order = new known order' :=
  have hs := sound_new hacyclic.cyclesClose h
  have hs' := sound_new hacyclic.cyclesClose h'
  TransformForest.ext (fun _ => hs.roots_eq hs' hacyclic)
    fun _ => hs.rootFromFrame_eq hs' hacyclic

-- ---------------------------------------------------------------------------
-- What is kept, cycles or not
-- ---------------------------------------------------------------------------

variable (forest forest') in
/-- What `forest'` still says of the frames and roots of `forest`, except for the entries of
`frames`. -/
structure Keeps (frames : List F) : Prop where
  entries : ∀ f t, f ∉ frames → forest.rootFromFrame f = some t →
    forest'.rootFromFrame f = some t
  registered : ∀ r, (forest.roots r).isSome → (forest'.roots r).isSome

omit [DecidableEq F] [Monoid T] in
theorem Keeps.refl (forest : TransformForest F T P) (frames : List F) :
    Keeps forest forest frames := ⟨fun _ _ _ h => h, fun _ h => h⟩

theorem keeps_popTransforms (known : KnownFrames F T P) (forest : TransformForest F T P)
    (root : F) (x : T) (f : F) :
    Keeps forest (popTransforms (forest, root, x) (known.transformsAt f)).1 [f] := by
  cases hpin : (known.transformsAt f).pinholeProjection with
  | none =>
    rw [popTransforms_of_not_pinhole hpin]
    refine ⟨fun g t hg ht => ?_, fun r hr => hr⟩
    rwa [rootFromFrame_insertFrame_of_ne (by simpa using hg)]
  | some pinhole =>
    rw [popTransforms_of_pinhole hpin]
    refine ⟨fun g t hg ht => ?_, fun r hr => isSome_roots_insertRoot hr⟩
    rwa [rootFromFrame_insertFrame_of_ne (by simpa using hg), rootFromFrame_insertRoot]

theorem keeps_foldl (known : KnownFrames F T P) (path : List F) (forest : TransformForest F T P)
    (root : F) (x : T) :
    Keeps forest ((path.map known.transformsAt).foldl popTransforms (forest, root, x)).1 path := by
  induction path generalizing forest root x with
  | nil => exact .refl _ _
  | cons f path ih =>
    rw [List.map_cons, List.foldl_cons]
    obtain ⟨hentries, hroots⟩ := keeps_popTransforms known forest root x f
    have hrest := ih (popTransforms (forest, root, x) (known.transformsAt f)).1
      (popTransforms (forest, root, x) (known.transformsAt f)).2.1
      (popTransforms (forest, root, x) (known.transformsAt f)).2.2
    refine ⟨fun g t hg ht => ?_, fun r hr => hrest.registered r (hroots r hr)⟩
    rw [List.mem_cons, not_or] at hg
    exact hrest.entries g t hg.2 (hentries g t (by simpa using hg.1) ht)

theorem keeps_rootOfStack (forest : TransformForest F T P) (top : ParentChildTransforms F T P) :
    Keeps forest (forest.rootOfStack top).1 [] := by
  unfold rootOfStack
  split
  · split
    · exact .refl _ _
    · rename_i hnone
      refine ⟨fun f t _ ht => ?_, fun r hr => isSome_roots_insertRoot hr⟩
      rwa [rootFromFrame_insertFrame_of_ne (by rintro rfl; simp [hnone] at ht)]
  · split
    · exact ⟨fun f t _ ht => ht, fun r hr => isSome_roots_insertRoot hr⟩
    · exact ⟨fun f t _ ht => ht, fun r hr => isSome_roots_insertRoot hr⟩

theorem keeps_addStack (known : KnownFrames F T P) (forest : TransformForest F T P)
    (path : List F) :
    Keeps forest (forest.addStackOfTransforms (path.map known.transformsAt)) path := by
  cases path with
  | nil => exact .refl _ _
  | cons top path =>
    obtain ⟨hentries, hroots⟩ := keeps_rootOfStack forest (known.transformsAt top)
    have hfold := keeps_foldl known (top :: path) (forest.rootOfStack (known.transformsAt top)).1
      (forest.rootOfStack (known.transformsAt top)).2.1
      (forest.rootOfStack (known.transformsAt top)).2.2
    exact ⟨fun f t hf ht => hfold.entries f t hf (hentries f t (by simp) ht),
      fun r hr => hfold.registered r (hroots r hr)⟩

theorem keeps_addFrames (known : KnownFrames F T P) (forest : TransformForest F T P)
    (hnodup : unprocessed.Nodup) (hmem : ∀ f ∈ unprocessed, f ∈ known.frames) :
    Keeps forest (known.addFrames unprocessed forest) unprocessed := by
  fun_induction KnownFrames.addFrames known unprocessed forest with
  | case1 => exact .refl _ _
  | case2 forest current rest walked ih =>
    obtain ⟨path, hw, -, hstack⟩ := known.walked_cons hnodup hmem
    have hstack : walked.2 = path.map known.transformsAt := hstack
    have hrest := ih hw.remains.1 fun f hf => hmem f ((hw.remains.2 f).mp hf).1
    obtain ⟨hentries, hroots⟩ := keeps_addStack known forest path
    rw [← hstack] at hentries hroots
    exact ⟨fun f t hf ht => hrest.entries f t (fun h => hf ((hw.remains.2 f).mp h).1)
      (hentries f t (fun h => hf (hw.subset f h)) ht), fun r hr => hrest.registered r (hroots r hr)⟩

-- ---------------------------------------------------------------------------
-- A cycle that is entered first
-- ---------------------------------------------------------------------------

theorem foldl_root (known : KnownFrames F T P) (path : List F) (forest : TransformForest F T P)
    (root : F) (x : T) (hmem : ∀ f ∈ path, f ∈ known.frames) :
    ((path.map known.transformsAt).foldl popTransforms (forest, root, x)).2.1 ∈ path ∨
      ((∀ f ∈ path, ¬ known.IsPinhole f) ∧
        ((path.map known.transformsAt).foldl popTransforms (forest, root, x)).2 =
          (root, x * (path.map known.transform).prod)) := by
  induction path generalizing forest root x with
  | nil => exact .inr ⟨by simp, by simp⟩
  | cons f path ih =>
    rw [List.map_cons, List.foldl_cons]
    have hmem' : ∀ g ∈ path, g ∈ known.frames := fun g hg => hmem g (List.mem_cons_of_mem _ hg)
    cases hpin : (known.transformsAt f).pinholeProjection with
    | none =>
      rw [popTransforms_of_not_pinhole hpin]
      rcases ih _ _ _ hmem' with h | ⟨hnone, heq⟩
      · exact .inl (List.mem_cons_of_mem _ h)
      · refine .inr ⟨?_, by simp [heq, mul_assoc]⟩
        exact List.forall_mem_cons.mpr ⟨fun h => by simp [KnownFrames.IsPinhole, hpin] at h, hnone⟩
    | some pinhole =>
      rw [popTransforms_of_pinhole hpin]
      rcases ih _ _ _ hmem' with h | ⟨-, heq⟩
      · exact .inl (List.mem_cons_of_mem _ h)
      · exact .inl (by simp [heq])

end TransformForest

namespace KnownFrames

variable {F T P : Type*} [DecidableEq F] [Monoid T] {known : KnownFrames F T P}

theorem walkTowardsParent_path (path : List F) (f : F) (unprocessed : List F)
    (stack : List (ParentChildTransforms F T P))
    (hchain : (path ++ [f]).IsChain (fun p f => known.Parent f p)) (hnodup : (path ++ [f]).Nodup)
    (hmem : ∀ g ∈ path ++ [f], g ∈ unprocessed) :
    ∀ top ∈ (path ++ [f]).head?,
      known.walkTowardsParent (some f) unprocessed stack =
        known.walkTowardsParent (known.transformsAt top).parentFrame
          (unprocessed.diff (f :: path.reverse))
          ((path ++ [f]).map known.transformsAt ++ stack) := by
  induction path using List.reverseRecOn generalizing f unprocessed stack with
  | nil =>
    intro top htop
    obtain rfl : f = top := by simpa using htop
    rw [walkTowardsParent]
    simp [hmem f (by simp)]
  | append_singleton path e ih =>
    intro top htop
    have hparent : known.Parent f e := by
      rw [List.append_assoc, List.isChain_append] at hchain
      simpa using hchain.2.1
    have hne : ∀ g ∈ path ++ [e], g ≠ f := fun g hg h =>
      (List.nodup_append.mp hnodup).2.2 g hg f (by simp) h
    have hmem' : ∀ g ∈ path ++ [e], g ∈ unprocessed.erase f := fun g hg =>
      (List.mem_erase_of_ne (hne g hg)).mpr (hmem g (List.mem_append_left _ hg))
    have htop' : top ∈ (path ++ [e]).head? := by
      cases path with
      | nil => simpa using htop
      | cons g path => simpa using htop
    rw [walkTowardsParent, if_pos (hmem f (by simp)), hparent.2]
    rw [ih e (unprocessed.erase f) (known.transformsAt f :: stack) hchain.left_of_append
      (List.nodup_append.mp hnodup).1 hmem' top htop']
    simp

omit [DecidableEq F] in
theorem IsCycle.mem_frames (hc : known.IsCycle c) (hmem : f ∈ c) : f ∈ known.frames := by
  obtain ⟨p, -, hp⟩ := hc.parent_of_mem hmem
  exact hp.1

theorem IsCycle.walkTowardsParent (hc : known.IsCycle (c ++ [f])) (hnodup : unprocessed.Nodup)
    (hmem : ∀ g ∈ c ++ [f], g ∈ unprocessed) :
    known.walkTowardsParent (some f) unprocessed [] =
      (unprocessed.diff (f :: c.reverse), (c ++ [f]).map known.transformsAt) := by
  obtain ⟨top, htop, bottom, hbottom, hparent⟩ := hc.closes
  obtain rfl : f = bottom := by simpa using hbottom
  have hleft : f ∉ unprocessed.diff (f :: c.reverse) := by
    rw [hnodup.mem_sdiff_iff]
    simp
  rw [walkTowardsParent_path c f unprocessed [] hc.chain hc.nodup hmem top htop, hparent.2,
    KnownFrames.walkTowardsParent, if_neg hleft, List.append_nil]

end KnownFrames

namespace TransformForest

variable {F T P : Type*} [DecidableEq F] [Monoid T] {known : KnownFrames F T P}

/-- The cycle is popped from the frame where it was entered, down to that frame again. -/
theorem addStack_of_cycle (hc : known.IsCycle (c ++ [f])) (hpin : ¬ known.IsPinhole f) :
    ∃ forest : TransformForest F T P, (forest.roots f).isSome ∧ ∃ root x,
      ({} : TransformForest F T P).addStackOfTransforms ((c ++ [f]).map known.transformsAt) =
        forest.insertFrame f ⟨root, x * known.transform f⟩ ∧
      (root ∈ c ∨ ((∀ g ∈ c, ¬ known.IsPinhole g) ∧
        (root, x) = (f, (c.map known.transform).prod))) := by
  obtain ⟨top, htop, bottom, hbottom, hparent⟩ := hc.closes
  obtain rfl : f = bottom := by simpa using hbottom
  have hnone : (known.transformsAt f).pinholeProjection = none :=
    Option.not_isSome_iff_eq_none.mp fun h => hpin ⟨hc.mem_frames (by simp), h⟩
  let base := (({} : TransformForest F T P).insertRoot f .transformFrameRoot).insertFrame f
    (.newRoot f)
  have hroot : ({} : TransformForest F T P).rootOfStack (known.transformsAt top) =
      (base, f, 1) := by
    simp [rootOfStack, hparent.2, base]
  have hpops := foldl_root known c base f 1 fun g hg => hc.mem_frames (List.mem_append_left _ hg)
  rw [one_mul] at hpops
  have hkeeps := (keeps_foldl known c base f 1).registered f (by simp [base])
  refine ⟨_, hkeeps, _, _, ?_, hpops⟩
  have htop : (c ++ [f]).head? = some top := htop
  simp only [addStackOfTransforms, List.head?_map, htop, Option.map_some, hroot]
  simp only [List.map_append, List.foldl_append, List.map_cons, List.map_nil, List.foldl_cons,
    List.foldl_nil]
  exact congrArg Prod.fst (popTransforms_of_not_pinhole hnone)

/-- If the first frame that is taken lies on a cycle, it is registered as a root, and is resolved to
itself at most if the cycle has no pinhole: then by the transforms once around. -/
theorem new_of_cycle (hc : known.IsCycle (c ++ [f])) (hpin : ¬ known.IsPinhole f)
    (horder : (f :: rest).Perm known.frames) :
    ((new known (f :: rest)).roots f).isSome ∧ ∃ root x,
      (new known (f :: rest)).rootFromFrame f = some ⟨root, x * known.transform f⟩ ∧
        (root ∈ c ∨ ((∀ g ∈ c, ¬ known.IsPinhole g) ∧
          (root, x) = (f, (c.map known.transform).prod))) := by
  obtain ⟨forest, hroot, root, x, hstack, hres⟩ := addStack_of_cycle hc hpin
  have hnodup : (f :: rest).Nodup := horder.nodup_iff.mpr known.nodup
  have hwalk := hc.walkTowardsParent hnodup
    fun g hg => horder.mem_iff.mpr (hc.mem_frames hg)
  have hnew : new known (f :: rest) = known.addFrames ((f :: rest).diff (f :: c.reverse))
      (forest.insertFrame f ⟨root, x * known.transform f⟩) := by
    rw [new, KnownFrames.addFrames]
    simp only [hwalk, hstack]
  obtain ⟨hentries, hroots⟩ := keeps_addFrames known
    (forest.insertFrame f ⟨root, x * known.transform f⟩) hnodup.diff
    fun g hg => horder.mem_iff.mp (List.diff_subset _ _ hg)
  rw [hnew]
  refine ⟨hroots f hroot, root, x, hentries f _ ?_ (by simp), hres⟩
  rw [hnodup.mem_sdiff_iff]
  simp

theorem cyclesClose_of_wellFormed
    (h : ∀ order : List F, order.Perm known.frames → WellFormed known (new known order)) :
    known.CyclesClose := by
  intro c f hc
  by_cases hpin : known.IsPinhole f
  · exact .inl hpin
  have horder : (f :: known.frames.erase f).Perm known.frames :=
    (List.perm_cons_erase (hc.mem_frames (by simp))).symm
  obtain ⟨hroot, root, x, hentry, hres⟩ := new_of_cycle hc hpin horder
  obtain ⟨rfl, hx⟩ : root = f ∧ x * known.transform f = 1 := by
    simpa [TreeTransform.newRoot] using hentry.symm.trans ((h _ horder).rooted f hroot)
  have hmem : root ∉ c := fun hmem =>
    (List.nodup_append.mp hc.nodup).2.2 root hmem root (by simp) rfl
  obtain ⟨hnone, heq⟩ := hres.resolve_left hmem
  obtain rfl : x = (c.map known.transform).prod := congrArg Prod.snd heq
  refine .inr ⟨fun g hg => ?_, by simpa using hx⟩
  rcases List.mem_append.mp hg with hg | hg
  · exact hnone g hg
  · exact List.mem_singleton.mp hg ▸ hpin

-- ---------------------------------------------------------------------------
-- Debug assertions
-- ---------------------------------------------------------------------------

variable {stack stack' : List (ParentChildTransforms F T P)}

theorem popsAsserted_append (state : TransformForest F T P × F × T)
    (stack stack' : List (ParentChildTransforms F T P)) :
    popsAsserted state (stack ++ stack') =
      (popsAsserted state stack && popsAsserted (stack.foldl popTransforms state) stack') := by
  induction stack generalizing state with
  | nil => rfl
  | cons transforms stack ih =>
    rw [List.cons_append, popsAsserted, popsAsserted, ih, List.foldl_cons, Bool.and_assoc]

theorem rootFromFrame_popTransforms_of_ne (known : KnownFrames F T P)
    (forest : TransformForest F T P) (root : F) (x : T) (hne : g ≠ f) :
    (popTransforms (forest, root, x) (known.transformsAt f)).1.rootFromFrame g =
      forest.rootFromFrame g := by
  cases hpin : (known.transformsAt f).pinholeProjection with
  | none =>
    rw [popTransforms_of_not_pinhole hpin]
    exact rootFromFrame_insertFrame_of_ne hne
  | some pinhole =>
    rw [popTransforms_of_pinhole hpin]
    exact rootFromFrame_insertFrame_of_ne hne

theorem rootFromFrame_foldl_of_not_mem (known : KnownFrames F T P) (path : List F)
    (state : TransformForest F T P × F × T) (hg : g ∉ path) :
    ((path.map known.transformsAt).foldl popTransforms state).1.rootFromFrame g =
      state.1.rootFromFrame g := by
  induction path generalizing state with
  | nil => rfl
  | cons f path ih =>
    rw [List.mem_cons, not_or] at hg
    rw [List.map_cons, List.foldl_cons, ih _ hg.2]
    exact rootFromFrame_popTransforms_of_ne known state.1 state.2.1 state.2.2 hg.1

/-- The frames of a path have no entry, and its pinholes are no roots. -/
def Blank (known : KnownFrames F T P) (forest : TransformForest F T P) (path : List F) : Prop :=
  ∀ f ∈ path, forest.rootFromFrame f = none ∧ (known.IsPinhole f → forest.roots f = none)

theorem Blank.popTransforms (h : Blank known forest (f :: path)) (hnodup : (f :: path).Nodup)
    (root : F) (x : T) :
    Blank known (popTransforms (forest, root, x) (known.transformsAt f)).1 path := by
  intro g hg
  have hne : g ≠ f := fun he => (List.nodup_cons.mp hnodup).1 (he ▸ hg)
  obtain ⟨hframe, hroot⟩ := h g (List.mem_cons_of_mem _ hg)
  refine ⟨(rootFromFrame_popTransforms_of_ne known forest root x hne).trans hframe, fun hpin => ?_⟩
  cases hf : (known.transformsAt f).pinholeProjection with
  | none =>
    rw [popTransforms_of_not_pinhole hf]
    exact hroot hpin
  | some pinhole =>
    rw [popTransforms_of_pinhole hf, roots_insertFrame, roots_insertRoot_of_ne hne]
    exact hroot hpin

theorem Blank.popsAsserted (h : Blank known forest path) (hnodup : path.Nodup)
    (hmem : ∀ f ∈ path, f ∈ known.frames) (root : F) (x : T) :
    popsAsserted (forest, root, x) (path.map known.transformsAt) := by
  induction path generalizing forest root x with
  | nil => rfl
  | cons f path ih =>
    obtain ⟨hframe, hroot⟩ := h f List.mem_cons_self
    have hpop : popAsserted forest (known.transformsAt f) := by
      rw [popAsserted, KnownFrames.childFrame_transformsAt, hframe]
      cases hpin : (known.transformsAt f).pinholeProjection with
      | none => rfl
      | some pinhole => simp [hroot ⟨hmem f List.mem_cons_self, by simp [hpin]⟩]
    rw [List.map_cons, TransformForest.popsAsserted, hpop, Bool.true_and]
    exact ih (h.popTransforms hnodup root x) hnodup.of_cons
      (fun g hg => hmem g (List.mem_cons_of_mem _ hg)) _ _

omit [DecidableEq F] in
theorem not_mem_of_acyclic (hacyclic : known.Acyclic)
    (hw : known.Walked next unprocessed (top :: path) left) (hparent : known.Parent top p) :
    p ∉ top :: path := by
  intro hmem
  obtain ⟨above, below, hsplit⟩ := List.append_of_mem hmem
  exact hacyclic _ (hw.isCycle hparent hsplit)

theorem Sound.stackAsserted (h : Sound known forest unprocessed []) (hacyclic : known.Acyclic)
    (hblank : ∀ f ∈ unprocessed, forest.rootFromFrame f = none)
    (hw : known.Walked next unprocessed path left) (hne : path ≠ [])
    (hmem : ∀ f ∈ path, f ∈ known.frames) :
    forest.stackAsserted (path.map known.transformsAt) ∧
      ∀ f ∈ left,
        (forest.addStackOfTransforms (path.map known.transformsAt)).rootFromFrame f = none := by
  obtain ⟨top, path, rfl⟩ := List.exists_cons_of_ne_nil hne
  have hroots : ∀ f ∈ top :: path, forest.roots f = none := fun f hf =>
    Option.not_isSome_iff_eq_none.mp (h.not_root_of_mem hw hf)
  have hframes : ∀ f ∈ top :: path, forest.rootFromFrame f = none := fun f hf =>
    hblank f (hw.subset f hf)
  -- What the root of the stack leaves untouched is asserted of it.
  have hstack : forest.rootAsserted (known.transformsAt top) ∧
      Blank known (forest.rootOfStack (known.transformsAt top)).1 (top :: path) ∧
      ∀ f ∈ left, (forest.rootOfStack (known.transformsAt top)).1.rootFromFrame f = none := by
    have hleft : ∀ f ∈ left, forest.rootFromFrame f = none := fun f hf =>
      hblank f ((hw.remains.2 f).mp hf).1
    rw [rootAsserted, rootOfStack, KnownFrames.childFrame_transformsAt]
    cases hparent : (known.transformsAt top).parentFrame with
    | none =>
      have hpin : (known.transformsAt top).pinholeProjection = none :=
        Option.eq_none_iff_forall_ne_some.mpr fun pinhole hp => by
          obtain ⟨p, hp⟩ := KnownFrames.parentFrame_of_pinhole hp
          exact Option.some_ne_none p (hp.symm.trans hparent)
      simp only [hpin, hroots top List.mem_cons_self]
      refine ⟨rfl, fun f hf => ⟨hframes f hf, fun hp => ?_⟩, hleft⟩
      have hft : f ≠ top := by
        rintro rfl
        simp [KnownFrames.IsPinhole, hpin] at hp
      rw [roots_insertRoot_of_ne hft]
      exact hroots f hf
    | some p =>
      have hparent : known.Parent top p := ⟨hmem top List.mem_cons_self, hparent⟩
      dsimp only
      cases ht : forest.rootFromFrame p with
      | some t => exact ⟨(h.along p t ht).2, fun f hf => ⟨hframes f hf, fun _ => hroots f hf⟩, hleft⟩
      | none =>
        have hnone : forest.roots p = none := Option.not_isSome_iff_eq_none.mp fun hroot => by
          rw [h.rooted p hroot (by simp)] at ht
          cases ht
        have hp := not_mem_of_acyclic hacyclic hw hparent
        refine ⟨by simp [hnone], fun f hf => ?_, fun f hf => ?_⟩
        · have hfp : f ≠ p := fun he => hp (he ▸ hf)
          rw [rootFromFrame_insertFrame_of_ne hfp, roots_insertFrame, roots_insertRoot_of_ne hfp]
          exact ⟨hframes f hf, fun _ => hroots f hf⟩
        · have hfp : f ≠ p := fun he => hw.stops p hparent.2 (he ▸ hf)
          rw [rootFromFrame_insertFrame_of_ne hfp]
          exact hleft f hf
  obtain ⟨hroot, hpath, hleft⟩ := hstack
  rw [TransformForest.stackAsserted, addStackOfTransforms]
  simp only [List.map_cons, List.head?_cons]
  rw [← List.map_cons, hroot, Bool.true_and]
  refine ⟨hpath.popsAsserted hw.nodup hmem _ _, fun f hf => ?_⟩
  rw [rootFromFrame_foldl_of_not_mem known _ _ ((hw.remains.2 f).mp hf).2]
  exact hleft f hf

theorem Sound.framesAsserted (h : Sound known forest unprocessed []) (hacyclic : known.Acyclic)
    (hblank : ∀ f ∈ unprocessed, forest.rootFromFrame f = none) (hnodup : unprocessed.Nodup)
    (hmem : ∀ f ∈ unprocessed, f ∈ known.frames) :
    known.framesAsserted unprocessed forest := by
  fun_induction KnownFrames.framesAsserted known unprocessed forest with
  | case1 => rfl
  | case2 forest current rest walked ih =>
    obtain ⟨path, hw, hne, hstack⟩ := known.walked_cons hnodup hmem
    have hstack : walked.2 = path.map known.transformsAt := hstack
    have hpath : ∀ f ∈ path, f ∈ known.frames := fun f hf => hmem f (hw.subset f hf)
    obtain ⟨hasserted, hleft⟩ := h.stackAsserted hacyclic hblank hw hne hpath
    rw [hstack] at ih ⊢
    rw [hasserted, Bool.true_and]
    exact ih (h.addStack hacyclic.cyclesClose hw hne hpath) hleft hw.remains.1
      fun f hf => hmem f ((hw.remains.2 f).mp hf).1

theorem framesAsserted_of_acyclic (hacyclic : known.Acyclic) (h : order.Perm known.frames) :
    known.framesAsserted order ({} : TransformForest F T P) :=
  (sound_empty h).framesAsserted hacyclic (fun _ _ => rfl) (h.nodup_iff.mpr known.nodup)
    fun _ hf => h.mem_iff.mp hf

/-- The frame at which a cycle is entered has its entry already when it is popped. -/
theorem framesAsserted_of_cycle (hc : known.IsCycle (c ++ [f]))
    (horder : (f :: rest).Perm known.frames) :
    known.framesAsserted (f :: rest) ({} : TransformForest F T P) = false := by
  obtain ⟨top, htop, bottom, hbottom, hparent⟩ := hc.closes
  obtain rfl : f = bottom := by simpa using hbottom
  have htop : (c ++ [f]).head? = some top := htop
  have hnodup : (f :: rest).Nodup := horder.nodup_iff.mpr known.nodup
  have hwalk := hc.walkTowardsParent hnodup fun g hg => horder.mem_iff.mpr (hc.mem_frames hg)
  have hf : f ∉ c := fun hmem => (List.nodup_append.mp hc.nodup).2.2 f hmem f (by simp) rfl
  have hentry : ((c.map known.transformsAt).foldl popTransforms
      (({} : TransformForest F T P).rootOfStack (known.transformsAt top))).1.rootFromFrame f =
      some (.newRoot f) := by
    rw [rootFromFrame_foldl_of_not_mem known c _ hf]
    simp [rootOfStack, hparent.2]
  rw [KnownFrames.framesAsserted]
  simp only [hwalk, TransformForest.stackAsserted, List.head?_map, htop, Option.map_some]
  rw [List.map_append, popsAsserted_append, List.map_cons, TransformForest.popsAsserted, popAsserted,
    KnownFrames.childFrame_transformsAt, hentry]
  simp

-- ---------------------------------------------------------------------------
-- The forest of any order
-- ---------------------------------------------------------------------------

theorem build_of_acyclic (debugAssertions : Bool) (hacyclic : known.Acyclic)
    (h : order.Perm known.frames) : build debugAssertions known order = some (new known order) := by
  rw [build, framesAsserted_of_acyclic hacyclic h]
  simp

theorem acyclic_of_build
    (h : ∀ order : List F, order.Perm known.frames → (build true known order).isSome) :
    known.Acyclic := by
  intro c hc
  obtain ⟨f, hf, bottom, hbottom, -⟩ := hc.closes
  obtain ⟨c, rfl⟩ := List.getLast?_eq_some_iff.mp hbottom
  have horder : (bottom :: known.frames.erase bottom).Perm known.frames :=
    (List.perm_cons_erase (hc.mem_frames (by simp))).symm
  have hsome := h _ horder
  rw [build, framesAsserted_of_cycle hc horder] at hsome
  cases hsome

/-- The forest is well formed in every order exactly if each cycle is entered at a pinhole or has
none and composes to the identity; with debug assertions, if there is no cycle at all. Without
cycles it is the same in every order. -/
theorem wellFormed_new_iff (debugAssertions : Bool) (known : KnownFrames F T P) :
    ((∀ order : List F, order.Perm known.frames →
        ∃ forest, build debugAssertions known order = some forest ∧ WellFormed known forest) ↔
      known.CyclesClose ∧ (debugAssertions → known.Acyclic)) ∧
    (known.Acyclic → ∀ order order' : List F, order.Perm known.frames →
      order'.Perm known.frames →
        build debugAssertions known order = build debugAssertions known order') := by
  refine ⟨⟨fun h => ⟨?_, ?_⟩, fun ⟨hclose, hacyclic⟩ order horder => ?_⟩,
    fun hacyclic order order' h h' => ?_⟩
  · refine cyclesClose_of_wellFormed fun order horder => ?_
    obtain ⟨forest, hbuild, hwell⟩ := h order horder
    rw [build] at hbuild
    split at hbuild
    · cases hbuild
    · exact Option.some.inj hbuild ▸ hwell
  · rintro rfl
    refine acyclic_of_build fun order horder => ?_
    obtain ⟨forest, hbuild, -⟩ := h order horder
    rw [hbuild]
    rfl
  · refine ⟨new known order, ?_, (sound_new hclose horder).wellFormed⟩
    cases debugAssertions with
    | false => rfl
    | true => exact build_of_acyclic true (hacyclic rfl) horder
  · rw [build_of_acyclic _ hacyclic h, build_of_acyclic _ hacyclic h', new_eq_of_acyclic hacyclic h h']

def twoFrames : KnownFrames Bool (Multiplicative ℤ) Unit where
  frames := [true, false]
  nodup := by decide
  latestAtTransform f := some ⟨!f, Multiplicative.ofAdd 1⟩
  latestAtPinhole _ := none
  implicitParent _ := none

/-- The frame that was taken first is a root, but is mapped to itself by going around. -/
theorem twoFrames_not_wellFormed :
    ((new twoFrames twoFrames.frames).roots true).isSome ∧
      (new twoFrames twoFrames.frames).rootFromFrame true =
        some ⟨true, Multiplicative.ofAdd 2⟩ ∧
      ∀ debugAssertions, ¬ ∀ order : List Bool, order.Perm twoFrames.frames →
        ∃ forest, build debugAssertions twoFrames order = some forest ∧
          WellFormed twoFrames forest := by
  have hroot : ((new twoFrames twoFrames.frames).roots true).isSome := by decide +kernel
  have hentry : (new twoFrames twoFrames.frames).rootFromFrame true =
      some ⟨true, Multiplicative.ofAdd 2⟩ := by decide +kernel
  refine ⟨hroot, hentry, fun debugAssertions h => ?_⟩
  obtain ⟨forest, hbuild, hwell⟩ := h _ (.refl _)
  rw [build] at hbuild
  split at hbuild
  · cases hbuild
  obtain rfl := Option.some.inj hbuild
  have hself := hwell.rooted true hroot
  exact absurd (hentry.symm.trans hself) (by decide)

end TransformForest

end DimosViewer
