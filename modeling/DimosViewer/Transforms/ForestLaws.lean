import DimosViewer.Transforms.Ancestry
import Mathlib.Data.List.Basic

/-!
# Laws of the transform forest

A walk takes a path of unprocessed frames; popping it keeps the forest sound. What is kept: each
entry is a composition of transforms along a path that crosses no pinhole, up to a registered root.
-/

namespace DimosViewer

variable {F T P : Type*} [DecidableEq F] {forest : TransformForest F T P}

-- ---------------------------------------------------------------------------
-- What an update leaves
-- ---------------------------------------------------------------------------

namespace TransformForest

@[simp] theorem roots_insertRoot : (forest.insertRoot f info).roots f = some info := by
  simp [insertRoot]

theorem roots_insertRoot_of_ne (h : g ≠ f) :
    (forest.insertRoot f info).roots g = forest.roots g := by
  simp [insertRoot, h]

@[simp] theorem rootFromFrame_insertRoot :
    (forest.insertRoot f info).rootFromFrame = forest.rootFromFrame := rfl

@[simp] theorem roots_insertFrame : (forest.insertFrame f t).roots = forest.roots := rfl

@[simp] theorem rootFromFrame_insertFrame :
    (forest.insertFrame f t).rootFromFrame f = some t := by
  simp [insertFrame]

theorem rootFromFrame_insertFrame_of_ne (h : g ≠ f) :
    (forest.insertFrame f t).rootFromFrame g = forest.rootFromFrame g := by
  simp [insertFrame, h]

theorem isSome_roots_insertRoot (h : (forest.roots g).isSome) :
    ((forest.insertRoot f info).roots g).isSome := by
  by_cases hg : g = f
  · simp [hg]
  · rwa [roots_insertRoot_of_ne hg]

theorem isSome_rootFromFrame_insertFrame (h : (forest.rootFromFrame g).isSome) :
    ((forest.insertFrame f t).rootFromFrame g).isSome := by
  by_cases hg : g = f
  · simp [hg]
  · rwa [rootFromFrame_insertFrame_of_ne hg]

end TransformForest

variable [Monoid T] {known : KnownFrames F T P}

-- ---------------------------------------------------------------------------
-- The path that a walk takes
-- ---------------------------------------------------------------------------

namespace KnownFrames

variable (known) in
/-- `path` is what a walk that goes to `next` takes from `unprocessed`, the last frame first. -/
structure Walked (next : Option F) (unprocessed path left : List F) : Prop where
  nodup : path.Nodup
  subset : ∀ f ∈ path, f ∈ unprocessed
  chain : path.IsChain (fun p f => known.Parent f p)
  bottom : ∀ f ∈ path.getLast?, next = some f
  remains : left.Nodup ∧ ∀ f, f ∈ left ↔ f ∈ unprocessed ∧ f ∉ path
  stops : ∀ p, path.head?.elim next (fun f => (known.transformsAt f).parentFrame) = some p →
    p ∉ left

theorem walked (known : KnownFrames F T P) (next : Option F) {unprocessed : List F}
    (hnodup : unprocessed.Nodup) (hknown : ∀ f ∈ unprocessed, f ∈ known.frames)
    (stack : List (ParentChildTransforms F T P)) :
    ∃ path, known.Walked next unprocessed path
        (known.walkTowardsParent next unprocessed stack).1 ∧
      (known.walkTowardsParent next unprocessed stack).2 =
        path.map known.transformsAt ++ stack := by
  fun_induction walkTowardsParent known next unprocessed stack with
  | case1 unprocessed stack =>
    exact ⟨[], ⟨by simp, by simp, by simp, by simp, ⟨hnodup, by simp⟩, by simp⟩, rfl⟩
  | case2 unprocessed stack current hmem ih =>
    obtain ⟨path, hw, hstack⟩ :=
      ih (hnodup.erase _) (fun f hf => hknown f (List.mem_of_mem_erase hf))
    have hcurrent : current ∉ path := fun h => hnodup.not_mem_erase (hw.subset current h)
    refine ⟨path ++ [current], ⟨?_, ?_, ?_, by simp, ⟨hw.remains.1, fun f => ?_⟩, ?_⟩,
      by simp [hstack]⟩
    · refine List.nodup_append.mpr ⟨hw.nodup, by simp, ?_⟩
      rintro a ha b hb rfl
      exact hcurrent (List.mem_singleton.mp hb ▸ ha)
    · intro f hf
      rcases List.mem_append.mp hf with hf | hf
      · exact List.mem_of_mem_erase (hw.subset f hf)
      · exact List.mem_singleton.mp hf ▸ hmem
    · refine List.isChain_append.mpr ⟨hw.chain, List.isChain_singleton _, ?_⟩
      intro f hf g hg
      obtain rfl : current = g := by simpa using hg
      exact ⟨hknown current hmem, hw.bottom f hf⟩
    · rw [hw.remains.2, hnodup.mem_erase_iff]
      simp only [List.mem_append, List.mem_singleton, not_or]
      tauto
    · intro p hp
      refine hw.stops p ?_
      cases path with
      | nil => simpa using hp
      | cons g path => simpa using hp
  | case3 unprocessed stack current hmem =>
    exact ⟨[], ⟨by simp, by simp, by simp, by simp, ⟨hnodup, by simp⟩, by simpa using hmem⟩, rfl⟩

omit [DecidableEq F] in
/-- If the parent of the last frame that was taken was taken too, the walk has closed a cycle. -/
theorem Walked.isCycle (hw : known.Walked next unprocessed (top :: path) left)
    (hparent : known.Parent top p) (hpath : top :: path = above ++ p :: below) :
    known.IsCycle (above ++ [p]) := by
  have hprefix : (above ++ [p]) <+: (top :: path) := ⟨below, by simp [hpath]⟩
  refine ⟨hw.nodup.sublist hprefix.sublist, hw.chain.prefix hprefix, top, ?_, p, by simp, hparent⟩
  cases above with
  | nil =>
    obtain ⟨rfl, -⟩ := List.cons.inj hpath
    rfl
  | cons a above =>
    obtain ⟨rfl, -⟩ := List.cons.inj hpath
    rfl

theorem walked_cons (known : KnownFrames F T P) {current : F} {rest : List F}
    (hnodup : (current :: rest).Nodup) (hknown : ∀ f ∈ current :: rest, f ∈ known.frames) :
    ∃ path, known.Walked (some current) (current :: rest) path
        (known.walkTowardsParent (some current) (current :: rest) []).1 ∧ path ≠ [] ∧
      (known.walkTowardsParent (some current) (current :: rest) []).2 =
        path.map known.transformsAt := by
  obtain ⟨path, hw, hstack⟩ := known.walked (some current) hnodup hknown []
  refine ⟨path, hw, ?_, hstack.trans (List.append_nil _)⟩
  rintro rfl
  exact hw.stops current rfl ((hw.remains.2 current).mpr ⟨List.mem_cons_self, by simp⟩)

end KnownFrames

-- ---------------------------------------------------------------------------
-- Popping one frame
-- ---------------------------------------------------------------------------

namespace TransformForest

theorem popTransforms_of_pinhole
    (h : (known.transformsAt f).pinholeProjection = some pinhole) :
    popTransforms (forest, root, x) (known.transformsAt f) =
      ((forest.insertRoot f (.pinhole ⟨root, pinhole, x * known.transform f⟩)).insertFrame f
        (.newRoot f), f, 1) := by
  simp [popTransforms, h, KnownFrames.transform, TreeTransform.newRoot]

theorem popTransforms_of_not_pinhole (h : (known.transformsAt f).pinholeProjection = none) :
    popTransforms (forest, root, x) (known.transformsAt f) =
      (forest.insertFrame f ⟨root, x * known.transform f⟩, root, x * known.transform f) := by
  simp [popTransforms, h, KnownFrames.transform]

variable (known) in
/-- A forest while the frames of `pending` are still on the stack and those of `unprocessed` are yet
to be taken. -/
structure Sound (forest : TransformForest F T P) (unprocessed pending : List F) : Prop where
  along : ∀ f t, forest.rootFromFrame f = some t →
    known.Along f t.root t.targetFromSource ∧ (forest.roots t.root).isSome
  rooted : ∀ r, (forest.roots r).isSome → r ∉ pending →
    forest.rootFromFrame r = some (.newRoot r)
  ended : ∀ r, (forest.roots r).isSome → known.IsTop r ∨
    ∃ c, known.IsCycle c ∧ r ∈ c ∧ ∀ g ∈ c, ¬ known.IsPinhole g
  fresh : ∀ r, (forest.roots r).isSome → r ∉ unprocessed
  framed : ∀ r, forest.roots r = some .transformFrameRoot → r ∉ pending → ¬ known.IsPinhole r
  projected : ∀ r q, forest.roots r = some (.pinhole q) →
    (known.transformsAt r).pinholeProjection = some q.pinholeProjection ∧
      (forest.roots q.parentTreeRoot).isSome ∧ ∃ p x, known.Parent r p ∧
        known.Along p q.parentTreeRoot x ∧ q.parentRootFromPinholeRoot = x * known.transform r
  covered : ∀ f ∈ known.frames, f ∉ unprocessed → f ∉ pending → (forest.rootFromFrame f).isSome
  parents : ∀ f p, known.Parent f p → f ∉ unprocessed → p ∉ pending →
    (forest.rootFromFrame p).isSome
  related : ∀ f, (forest.rootFromFrame f).isSome → f ∈ known.frames ∨ ∃ g, known.Parent g f

variable (known) in
/-- `root` and `x` are what the parent of the next frame on the stack is resolved to. A root that is
still on the stack is reached again by transforms that compose to the identity. -/
structure Climbs (forest : TransformForest F T P) (path : List F) (root : F) (x : T) : Prop where
  registered : (forest.roots root).isSome
  leads : ∀ f ∈ path.head?, (∀ p, known.Parent f p → known.Along p root x) ∧
    ((∀ p, ¬ known.Parent f p) → root = f ∧ x = 1)
  closes : ∀ above f below, path = above ++ f :: below → (forest.roots f).isSome →
    ¬ known.IsPinhole f → root = f ∧ (∀ g ∈ above, ¬ known.IsPinhole g) ∧
      x * ((above ++ [f]).map known.transform).prod = 1

omit [DecidableEq F] in
theorem Climbs.along (h : Climbs known forest (f :: path) root x) (hmem : f ∈ known.frames)
    (hpin : ¬ known.IsPinhole f) : known.Along f root (x * known.transform f) := by
  obtain ⟨hparent, hnone⟩ := h.leads f rfl
  cases hp : (known.transformsAt f).parentFrame with
  | some p => exact .step ⟨hmem, hp⟩ hpin (hparent p ⟨hmem, hp⟩)
  | none =>
    obtain ⟨rfl, rfl⟩ := hnone fun p h => Option.some_ne_none p (h.2.symm.trans hp)
    rw [KnownFrames.transform_of_parentFrame hp, mul_one]
    exact .refl

theorem Sound.popFrame (h : Sound known forest unprocessed (f :: path))
    (hclimbs : Climbs known forest (f :: path) root x) (hmem : f ∈ known.frames)
    (hpin : ¬ known.IsPinhole f) :
    Sound known (forest.insertFrame f ⟨root, x * known.transform f⟩) unprocessed path where
  along := by
    intro g t ht
    by_cases hg : g = f
    · subst hg
      obtain rfl : ⟨root, x * known.transform g⟩ = t := by simpa using ht
      exact ⟨hclimbs.along hmem hpin, hclimbs.registered⟩
    · rw [rootFromFrame_insertFrame_of_ne hg] at ht
      exact h.along g t ht
  rooted := by
    intro r hr hpending
    by_cases hrf : r = f
    · subst hrf
      obtain ⟨rfl, -, hprod⟩ := hclimbs.closes [] r path rfl hr hpin
      rw [rootFromFrame_insertFrame, TreeTransform.newRoot]
      simpa using hprod
    · rw [rootFromFrame_insertFrame_of_ne hrf]
      exact h.rooted r hr (by simp [hrf, hpending])
  ended := h.ended
  fresh := h.fresh
  framed := by
    intro r hr hpending
    by_cases hrf : r = f
    · exact hrf ▸ hpin
    · exact h.framed r hr (by simp [hrf, hpending])
  projected := h.projected
  covered := by
    intro g hg hun hpending
    by_cases hgf : g = f
    · simp [hgf]
    · exact isSome_rootFromFrame_insertFrame (h.covered g hg hun (by simp [hgf, hpending]))
  parents := by
    intro g p hparent hun hpending
    by_cases hpf : p = f
    · simp [hpf]
    · exact isSome_rootFromFrame_insertFrame (h.parents g p hparent hun (by simp [hpf, hpending]))
  related := by
    intro g hg
    by_cases hgf : g = f
    · exact .inl (hgf ▸ hmem)
    · exact h.related g (by rwa [rootFromFrame_insertFrame_of_ne hgf] at hg)

theorem Climbs.popFrame (h : Climbs known forest (f :: path) root x) (hmem : f ∈ known.frames)
    (hpin : ¬ known.IsPinhole f) (hchain : (f :: path).IsChain (fun p f => known.Parent f p)) :
    Climbs known (forest.insertFrame f ⟨root, x * known.transform f⟩) path root
      (x * known.transform f) where
  registered := h.registered
  leads := by
    intro g hg
    obtain ⟨path, rfl⟩ : ∃ path', path = g :: path' := by
      cases path with
      | nil => simp at hg
      | cons g' path => exact ⟨path, by simpa using hg⟩
    rw [List.isChain_cons_cons] at hchain
    refine ⟨fun p hp => ?_, fun hnone => absurd hchain.1 (hnone f)⟩
    obtain rfl := hchain.1.unique hp
    exact h.along hmem hpin
  closes := by
    rintro above g below rfl hroot hg
    obtain ⟨hroot, habove, hprod⟩ := h.closes (f :: above) g below rfl hroot hg
    refine ⟨hroot, fun a ha => habove a (List.mem_cons_of_mem _ ha), ?_⟩
    simpa [mul_assoc] using hprod

theorem Sound.popPinhole (h : Sound known forest unprocessed (f :: path))
    (hclimbs : Climbs known forest (f :: path) root x) (hmem : f ∈ known.frames)
    (hun : f ∉ unprocessed)
    (hpin : (known.transformsAt f).pinholeProjection = some pinhole) :
    Sound known ((forest.insertRoot f
      (.pinhole ⟨root, pinhole, x * known.transform f⟩)).insertFrame f (.newRoot f))
      unprocessed path where
  along := by
    intro g t ht
    by_cases hg : g = f
    · subst hg
      obtain rfl : TreeTransform.newRoot g = t := by simpa using ht
      exact ⟨.refl, by simp [TreeTransform.newRoot]⟩
    · rw [rootFromFrame_insertFrame_of_ne hg, rootFromFrame_insertRoot] at ht
      exact ⟨(h.along g t ht).1, isSome_roots_insertRoot (h.along g t ht).2⟩
  rooted := by
    intro r hr hpending
    by_cases hrf : r = f
    · simp [hrf]
    · rw [roots_insertFrame, roots_insertRoot_of_ne hrf] at hr
      rw [rootFromFrame_insertFrame_of_ne hrf]
      exact h.rooted r hr (by simp [hrf, hpending])
  ended := by
    intro r hr
    by_cases hrf : r = f
    · exact .inl (.inl ⟨hrf ▸ hmem, by simp [hrf, hpin]⟩)
    · rw [roots_insertFrame, roots_insertRoot_of_ne hrf] at hr
      exact h.ended r hr
  fresh := by
    intro r hr
    by_cases hrf : r = f
    · exact hrf ▸ hun
    · rw [roots_insertFrame, roots_insertRoot_of_ne hrf] at hr
      exact h.fresh r hr
  framed := by
    intro r hr hpending
    by_cases hrf : r = f
    · simp [hrf] at hr
    · rw [roots_insertFrame, roots_insertRoot_of_ne hrf] at hr
      exact h.framed r hr (by simp [hrf, hpending])
  projected := by
    intro r q hr
    by_cases hrf : r = f
    · subst hrf
      obtain rfl : (⟨root, pinhole, x * known.transform r⟩ : PinholeTreeRoot F T P) = q := by
        simpa using hr
      obtain ⟨p, hp⟩ := KnownFrames.parentFrame_of_pinhole hpin
      exact ⟨hpin, isSome_roots_insertRoot hclimbs.registered, p, x, ⟨hmem, hp⟩,
        (hclimbs.leads r rfl).1 p ⟨hmem, hp⟩, rfl⟩
    · rw [roots_insertFrame, roots_insertRoot_of_ne hrf] at hr
      obtain ⟨hproj, hroot, hrest⟩ := h.projected r q hr
      exact ⟨hproj, isSome_roots_insertRoot hroot, hrest⟩
  covered := by
    intro g hg hun hpending
    by_cases hgf : g = f
    · simp [hgf]
    · exact isSome_rootFromFrame_insertFrame (h.covered g hg hun (by simp [hgf, hpending]))
  parents := by
    intro g p hparent hun hpending
    by_cases hpf : p = f
    · simp [hpf]
    · exact isSome_rootFromFrame_insertFrame (h.parents g p hparent hun (by simp [hpf, hpending]))
  related := by
    intro g hg
    by_cases hgf : g = f
    · exact .inl (hgf ▸ hmem)
    · exact h.related g (by rwa [rootFromFrame_insertFrame_of_ne hgf] at hg)

theorem Climbs.popPinhole (h : Climbs known forest (f :: path) root x)
    (hpin : known.IsPinhole f) (hchain : (f :: path).IsChain (fun p f => known.Parent f p))
    (hnodup : (f :: path).Nodup) :
    Climbs known ((forest.insertRoot f info).insertFrame f t) path f 1 where
  registered := by simp
  leads := by
    intro g hg
    obtain ⟨path, rfl⟩ : ∃ path', path = g :: path' := by
      cases path with
      | nil => simp at hg
      | cons g' path => exact ⟨path, by simpa using hg⟩
    rw [List.isChain_cons_cons] at hchain
    refine ⟨fun p hp => ?_, fun hnone => absurd hchain.1 (hnone f)⟩
    obtain rfl := hchain.1.unique hp
    exact .refl
  closes := by
    rintro above g below rfl hroot hg
    have hgf : g ≠ f := by
      rintro rfl
      simp at hnodup
    rw [roots_insertFrame, roots_insertRoot_of_ne hgf] at hroot
    obtain ⟨-, habove, -⟩ := h.closes (f :: above) g below rfl hroot hg
    exact absurd hpin (habove f List.mem_cons_self)

theorem Sound.foldl (h : Sound known forest unprocessed path)
    (hclimbs : Climbs known forest path root x) (hmem : ∀ f ∈ path, f ∈ known.frames)
    (hun : ∀ f ∈ path, f ∉ unprocessed)
    (hchain : path.IsChain (fun p f => known.Parent f p)) (hnodup : path.Nodup) :
    Sound known ((path.map known.transformsAt).foldl popTransforms (forest, root, x)).1
      unprocessed [] := by
  induction path generalizing forest root x with
  | nil => exact h
  | cons f path ih =>
    rw [List.map_cons, List.foldl_cons]
    have hrest : ∀ g ∈ path, g ∈ f :: path := fun g => List.mem_cons_of_mem _
    have hf := hmem f List.mem_cons_self
    cases hpin : (known.transformsAt f).pinholeProjection with
    | none =>
      have hnot : ¬ known.IsPinhole f := fun hp => by simp [KnownFrames.IsPinhole, hpin] at hp
      rw [popTransforms_of_not_pinhole hpin]
      exact ih (h.popFrame hclimbs hf hnot) (hclimbs.popFrame hf hnot hchain)
        (fun g hg => hmem g (hrest g hg)) (fun g hg => hun g (hrest g hg)) hchain.of_cons
        hnodup.of_cons
    | some pinhole =>
      rw [popTransforms_of_pinhole hpin]
      exact ih (h.popPinhole hclimbs hf (hun f List.mem_cons_self) hpin)
        (hclimbs.popPinhole ⟨hf, by simp [hpin]⟩ hchain hnodup)
        (fun g hg => hmem g (hrest g hg)) (fun g hg => hun g (hrest g hg)) hchain.of_cons
        hnodup.of_cons

-- ---------------------------------------------------------------------------
-- The root of a stack
-- ---------------------------------------------------------------------------

omit [DecidableEq F] in
theorem Sound.not_root_of_mem (h : Sound known forest unprocessed [])
    (hw : known.Walked next unprocessed path left) (hmem : f ∈ path) : ¬ (forest.roots f).isSome :=
  fun hroot => h.fresh f hroot (hw.subset f hmem)

omit [DecidableEq F] in
theorem Sound.covered_left (h : Sound known forest unprocessed [])
    (hw : known.Walked next unprocessed path left) (hmem : f ∈ known.frames) (hleft : f ∉ left)
    (hpath : f ∉ path) : (forest.rootFromFrame f).isSome :=
  h.covered f hmem (fun hun => hleft ((hw.remains.2 f).mpr ⟨hun, hpath⟩)) (by simp)

omit [DecidableEq F] in
theorem Sound.parents_left (h : Sound known forest unprocessed [])
    (hw : known.Walked next unprocessed (top :: path) left) (htop : f ≠ top)
    (hparent : known.Parent f p) (hleft : f ∉ left) (hp : p ∉ top :: path) :
    (forest.rootFromFrame p).isSome := by
  by_cases hf : f ∈ top :: path
  · obtain ⟨p', hp', hparent'⟩ := KnownFrames.parent_of_mem_chain hw.chain hf
      (by simpa using fun h => htop h.symm)
    exact absurd (hparent.unique hparent' ▸ hp') hp
  · exact h.parents f p hparent (fun hun => hleft ((hw.remains.2 f).mpr ⟨hun, hf⟩)) (by simp)

omit [DecidableEq F] in
theorem Sound.take (h : Sound known forest unprocessed [])
    (hw : known.Walked next unprocessed (top :: path) left) (hparent : known.Parent top p)
    (ht : forest.rootFromFrame p = some t) :
    Sound known forest left (top :: path) ∧
      Climbs known forest (top :: path) t.root t.targetFromSource := by
  refine ⟨⟨h.along, fun r hr _ => h.rooted r hr (by simp), h.ended, fun r hr hleft => ?_,
    fun r hr _ => h.framed r hr (by simp), h.projected, fun f hf => h.covered_left hw hf,
    fun f q hq hf hpath => ?_, h.related⟩, ⟨(h.along p t ht).2, ?_, ?_⟩⟩
  · exact h.fresh r hr ((hw.remains.2 r).mp hleft).1
  · by_cases hftop : f = top
    · subst hftop
      simp [hq.unique hparent, ht]
    · exact h.parents_left hw hftop hq hf hpath
  · rintro f hf
    obtain rfl : top = f := by simpa using hf
    refine ⟨fun p' hp' => ?_, fun hnone => absurd hparent (hnone p)⟩
    exact hp'.unique hparent ▸ (h.along p t ht).1
  · intro above f below hpath hroot
    exact absurd hroot (h.not_root_of_mem hw (hpath ▸ by simp))

/-- A stack below a frame without an entry: either nothing is known of that frame, or it is itself on
the stack, which then closes a cycle. -/
theorem Sound.takeNew (h : Sound known forest unprocessed []) (hclose : known.CyclesClose)
    (hw : known.Walked next unprocessed (top :: path) left) (hparent : known.Parent top p)
    (ht : forest.rootFromFrame p = none) :
    Sound known ((forest.insertRoot p .transformFrameRoot).insertFrame p (.newRoot p)) left
        (top :: path) ∧
      Climbs known ((forest.insertRoot p .transformFrameRoot).insertFrame p (.newRoot p))
        (top :: path) p 1 := by
  have hleft : p ∉ left := hw.stops p hparent.2
  have hunknown : p ∉ top :: path → p ∉ known.frames := fun hpath hmem => by
    simpa [ht] using h.covered_left hw hmem hleft hpath
  have hcycle : ∀ above below, top :: path = above ++ p :: below →
      known.IsCycle (above ++ [p]) := fun _ _ => hw.isCycle hparent
  refine ⟨⟨?_, ?_, ?_, ?_, ?_, ?_, ?_, ?_, ?_⟩, ⟨by simp, ?_, ?_⟩⟩
  · intro f t hf
    by_cases hfp : f = p
    · subst hfp
      obtain rfl : TreeTransform.newRoot f = t := by simpa using hf
      exact ⟨.refl, by simp [TreeTransform.newRoot]⟩
    · rw [rootFromFrame_insertFrame_of_ne hfp, rootFromFrame_insertRoot] at hf
      exact ⟨(h.along f t hf).1, isSome_roots_insertRoot (h.along f t hf).2⟩
  · intro r hr _
    by_cases hrp : r = p
    · simp [hrp]
    · rw [roots_insertFrame, roots_insertRoot_of_ne hrp] at hr
      rw [rootFromFrame_insertFrame_of_ne hrp]
      exact h.rooted r hr (by simp)
  · intro r hr
    by_cases hrp : r = p
    · subst hrp
      by_cases hpath : r ∈ top :: path
      · obtain ⟨above, below, hsplit⟩ := List.append_of_mem hpath
        rcases hclose above r (hcycle above below hsplit) with hpin | ⟨hpin, -⟩
        · exact .inl (.inl hpin)
        · exact .inr ⟨above ++ [r], hcycle above below hsplit, by simp, hpin⟩
      · exact .inl (.inr fun q hq => hunknown hpath hq.1)
    · rw [roots_insertFrame, roots_insertRoot_of_ne hrp] at hr
      exact h.ended r hr
  · intro r hr hrleft
    by_cases hrp : r = p
    · exact hleft (hrp ▸ hrleft)
    · rw [roots_insertFrame, roots_insertRoot_of_ne hrp] at hr
      exact h.fresh r hr ((hw.remains.2 r).mp hrleft).1
  · intro r hr hpath hpin
    by_cases hrp : r = p
    · exact hunknown (hrp ▸ hpath) (hrp ▸ hpin.1)
    · rw [roots_insertFrame, roots_insertRoot_of_ne hrp] at hr
      exact h.framed r hr (by simp) hpin
  · intro r q hr
    by_cases hrp : r = p
    · simp [hrp] at hr
    · rw [roots_insertFrame, roots_insertRoot_of_ne hrp] at hr
      obtain ⟨hproj, hroot, hrest⟩ := h.projected r q hr
      exact ⟨hproj, isSome_roots_insertRoot hroot, hrest⟩
  · intro f hf hfleft hpath
    exact isSome_rootFromFrame_insertFrame (h.covered_left hw hf hfleft hpath)
  · intro f q hq hfleft hpath
    by_cases hqp : q = p
    · simp [hqp]
    · rw [rootFromFrame_insertFrame_of_ne hqp]
      refine h.parents_left hw ?_ hq hfleft hpath
      rintro rfl
      exact hqp (hq.unique hparent)
  · intro f hf
    by_cases hfp : f = p
    · exact .inr ⟨top, hfp ▸ hparent⟩
    · exact h.related f (by rwa [rootFromFrame_insertFrame_of_ne hfp] at hf)
  · rintro f hf
    obtain rfl : top = f := by simpa using hf
    refine ⟨fun p' hp' => ?_, fun hnone => absurd hparent (hnone p)⟩
    obtain rfl := hp'.unique hparent
    exact .refl
  · intro above f below hpath hroot hpin
    by_cases hfp : f = p
    · subst hfp
      rcases hclose above f (hcycle above below hpath) with hpin' | ⟨hnone, hprod⟩
      · exact absurd hpin' hpin
      · exact ⟨rfl, fun g hg => hnone g (by simp [hg]), by rw [one_mul, hprod]⟩
    · rw [roots_insertFrame, roots_insertRoot_of_ne hfp] at hroot
      exact absurd hroot (h.not_root_of_mem hw (hpath ▸ by simp))

theorem Sound.takeRoot (h : Sound known forest unprocessed [])
    (hw : known.Walked next unprocessed (top :: path) left) (hmem : top ∈ known.frames)
    (hparent : (known.transformsAt top).parentFrame = none) :
    Sound known (forest.insertRoot top .transformFrameRoot) left (top :: path) ∧
      Climbs known (forest.insertRoot top .transformFrameRoot) (top :: path) top 1 := by
  have hnone : ∀ p, ¬ known.Parent top p :=
    fun p hp => Option.some_ne_none p (hp.2.symm.trans hparent)
  have htop : top ∉ left := fun h => ((hw.remains.2 top).mp h).2 List.mem_cons_self
  refine ⟨⟨?_, ?_, ?_, ?_, ?_, ?_, fun f hf => h.covered_left hw hf, ?_, h.related⟩,
    ⟨by simp, ?_, ?_⟩⟩
  · intro f t hf
    exact ⟨(h.along f t hf).1, isSome_roots_insertRoot (h.along f t hf).2⟩
  · intro r hr hpath
    have hrt : r ≠ top := fun h => hpath (h ▸ List.mem_cons_self)
    rw [roots_insertRoot_of_ne hrt] at hr
    exact h.rooted r hr (by simp)
  · intro r hr
    by_cases hrt : r = top
    · exact .inl (.inr (hrt ▸ hnone))
    · rw [roots_insertRoot_of_ne hrt] at hr
      exact h.ended r hr
  · intro r hr hleft
    by_cases hrt : r = top
    · exact htop (hrt ▸ hleft)
    · rw [roots_insertRoot_of_ne hrt] at hr
      exact h.fresh r hr ((hw.remains.2 r).mp hleft).1
  · intro r hr hpath
    have hrt : r ≠ top := fun h => hpath (h ▸ List.mem_cons_self)
    rw [roots_insertRoot_of_ne hrt] at hr
    exact h.framed r hr (by simp)
  · intro r q hr
    by_cases hrt : r = top
    · simp [hrt] at hr
    · rw [roots_insertRoot_of_ne hrt] at hr
      obtain ⟨hproj, hroot, hrest⟩ := h.projected r q hr
      exact ⟨hproj, isSome_roots_insertRoot hroot, hrest⟩
  · intro f q hq hf hpath
    refine h.parents_left hw ?_ hq hf hpath
    rintro rfl
    exact hnone q hq
  · rintro f hf
    obtain rfl : top = f := by simpa using hf
    exact ⟨fun p hp => absurd hp (hnone p), fun _ => ⟨rfl, rfl⟩⟩
  · intro above f below hpath hroot hpin
    by_cases hft : f = top
    · subst hft
      obtain rfl : above = [] := by
        cases above with
        | nil => rfl
        | cons a above =>
          obtain ⟨rfl, rfl⟩ := List.cons.inj hpath
          simpa using hw.nodup
      exact ⟨rfl, by simp, by simp [KnownFrames.transform_of_parentFrame hparent]⟩
    · rw [roots_insertRoot_of_ne hft] at hroot
      exact absurd hroot (h.not_root_of_mem hw (hpath ▸ by simp))

/-- One stack, if cycles close. -/
theorem Sound.addStack (h : Sound known forest unprocessed []) (hclose : known.CyclesClose)
    (hw : known.Walked next unprocessed path left) (hne : path ≠ [])
    (hmem : ∀ f ∈ path, f ∈ known.frames) :
    Sound known (forest.addStackOfTransforms (path.map known.transformsAt)) left [] := by
  obtain ⟨top, path, rfl⟩ := List.exists_cons_of_ne_nil hne
  have hleft : ∀ f ∈ top :: path, f ∉ left := fun f hf h => ((hw.remains.2 f).mp h).2 hf
  have htop := hmem top List.mem_cons_self
  simp only [addStackOfTransforms, List.map_cons, List.head?_cons]
  rw [← List.map_cons, rootOfStack]
  cases hparent : (known.transformsAt top).parentFrame with
  | none =>
    have hpin : (known.transformsAt top).pinholeProjection = none :=
      Option.eq_none_iff_forall_ne_some.mpr fun pinhole hp => by
        obtain ⟨p, hp⟩ := KnownFrames.parentFrame_of_pinhole hp
        exact Option.some_ne_none p (hp.symm.trans hparent)
    simp only [hpin, KnownFrames.childFrame_transformsAt]
    obtain ⟨hs, hc⟩ := h.takeRoot hw htop hparent
    exact hs.foldl hc hmem hleft hw.chain hw.nodup
  | some p =>
    cases ht : forest.rootFromFrame p with
    | none =>
      simp only [ht]
      obtain ⟨hs, hc⟩ := h.takeNew hclose hw ⟨htop, hparent⟩ ht
      exact hs.foldl hc hmem hleft hw.chain hw.nodup
    | some t =>
      simp only [ht]
      obtain ⟨hs, hc⟩ := h.take hw ⟨htop, hparent⟩ ht
      exact hs.foldl hc hmem hleft hw.chain hw.nodup

-- ---------------------------------------------------------------------------
-- All frames
-- ---------------------------------------------------------------------------

theorem Sound.addFrames (h : Sound known forest unprocessed []) (hclose : known.CyclesClose)
    (hnodup : unprocessed.Nodup) (hmem : ∀ f ∈ unprocessed, f ∈ known.frames) :
    Sound known (known.addFrames unprocessed forest) [] [] := by
  fun_induction KnownFrames.addFrames known unprocessed forest with
  | case1 => exact h
  | case2 forest current rest walked ih =>
    obtain ⟨path, hw, hne, hstack⟩ := known.walked_cons hnodup hmem
    have hstack : walked.2 = path.map known.transformsAt := hstack
    refine ih ?_ hw.remains.1 (fun f hf => hmem f ((hw.remains.2 f).mp hf).1)
    rw [hstack]
    exact h.addStack hclose hw hne fun f hf => hmem f (hw.subset f hf)

omit [DecidableEq F] in
theorem sound_empty (horder : order.Perm known.frames) :
    Sound known ({} : TransformForest F T P) order [] where
  along := by simp
  rooted := by simp
  ended := by simp
  fresh := by simp
  framed := by simp
  projected := by simp
  covered f hf hun := absurd (horder.mem_iff.mpr hf) hun
  parents f p hp hun := absurd (horder.mem_iff.mpr hp.1) hun
  related := by simp

theorem sound_new (hclose : known.CyclesClose) (horder : order.Perm known.frames) :
    Sound known (new known order) [] [] :=
  (sound_empty horder).addFrames hclose (horder.nodup_iff.mpr known.nodup)
    fun _ hf => horder.mem_iff.mp hf

end TransformForest

end DimosViewer
