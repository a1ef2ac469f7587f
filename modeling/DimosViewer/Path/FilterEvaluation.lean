import DimosViewer.Path.FilterLaws

/-!
# Filters prune trees

One pass over the rules answers whether a path is included and whether anything at or
below it is. The second answer is wrong for a path that is excluded alone, under an
inclusion that reaches past it.
-/

namespace DimosViewer

-- ---------------------------------------------------------------------------
-- Subtrees
-- ---------------------------------------------------------------------------

def SubtreeIncludes (effects : RuleTarget → Option RuleEffect) (path : EntityPath) : Prop :=
  ∃ q, path <+: q ∧ Includes effects q

def IncludesBelow (effects : RuleTarget → Option RuleEffect) (path : EntityPath) : Prop :=
  ∃ t, effects t = some .include ∧ path <+: t.1

def CoveredByInclusion (effects : RuleTarget → Option RuleEffect) (path : EntityPath) : Prop :=
  ∃ t, effects t = some .include ∧ t.2 = true ∧ t.1 <+: path ∧
    ∀ u, (effects u).isSome → u.2 = true → u.1 <+: path → u.specificity ≤ t.specificity

section Subtrees

variable {effects : RuleTarget → Option RuleEffect} {path : EntityPath}

theorem RuleTarget.isMatch_subtree {t : RuleTarget} (h : t.2 = true) :
    t.isMatch path ↔ t.1 <+: path := by
  simp only [isMatch, if_pos h]

theorem RuleTarget.isMatch_exact {t : RuleTarget} (h : t.2 = false) :
    t.isMatch path ↔ path = t.1 := by
  simp only [isMatch, h, Bool.false_eq_true, if_false]

theorem RuleTarget.isMatch.of_fresh {t : RuleTarget} {part : String}
    (h : t.isMatch (path ++ [part])) (hne : t.1 ≠ path ++ [part]) : t.2 = true ∧ t.1 <+: path := by
  refine ⟨?_, (List.prefix_concat_iff.mp h.isPrefix).resolve_left hne⟩
  cases hs : t.2 with
  | false => exact absurd ((RuleTarget.isMatch_exact hs).mp h).symm hne
  | true => rfl

theorem CoveredByInclusion.includes_fresh {part : String} (h : CoveredByInclusion effects path)
    (hfresh : ∀ t, (effects t).isSome → t.1 ≠ path ++ [part]) :
    Includes effects (path ++ [part]) := by
  obtain ⟨t, ht, hsub, hpre, hmax⟩ := h
  refine ⟨t, ht, ?_, fun u hu hum => ?_⟩
  · exact (RuleTarget.isMatch_subtree hsub).mpr (hpre.trans (List.prefix_append _ _))
  · obtain ⟨hus, hupre⟩ := hum.of_fresh (hfresh u hu)
    exact hmax u hu hus hupre

theorem CoveredByInclusion.includes {targets : List RuleTarget}
    (htargets : ∀ t, (effects t).isSome → t ∈ targets) (h : CoveredByInclusion effects path) :
    ∃ q, path <+: q ∧ Includes effects q := by
  obtain ⟨part, hpart⟩ := exists_fresh_part (targets.map Prod.fst)
  refine ⟨path ++ [part], List.prefix_append _ _, h.includes_fresh fun u hu he => ?_⟩
  exact hpart u.1 (List.mem_map_of_mem (htargets u hu)) (he ▸ List.mem_append_right _ (by simp))

theorem subtreeIncludes_iff {targets : List RuleTarget}
    (htargets : ∀ t, (effects t).isSome → t ∈ targets) :
    SubtreeIncludes effects path ↔
      IncludesBelow effects path ∨ CoveredByInclusion effects path := by
  constructor
  · rintro ⟨q, hq, t, ht, hm, hmax⟩
    by_cases hbelow : path <+: t.1
    · exact .inl ⟨t, ht, hbelow⟩
    have habove : t.1 <+: path :=
      (List.prefix_or_prefix_of_prefix hm.isPrefix hq).resolve_right hbelow
    have hsub : t.2 = true := by
      cases hs : t.2 with
      | false => exact absurd ((RuleTarget.isMatch_exact hs).mp hm ▸ hq) hbelow
      | true => rfl
    refine .inr ⟨t, ht, hsub, habove, fun u hu hs hpre => hmax u hu ?_⟩
    exact (RuleTarget.isMatch_subtree hs).mpr (hpre.trans hq)
  · rintro (⟨t, ht, hbelow⟩ | h)
    · obtain ⟨q, hm, hmax⟩ := t.exists_probe targets
      exact ⟨q, hbelow.trans hm.isPrefix, t, ht, hm, fun u hu => hmax u (htargets u hu)⟩
    · exact h.includes htargets

theorem Includes.below_or_covered (h : Includes effects path) :
    IncludesBelow effects path ∨ CoveredByInclusion effects path := by
  obtain ⟨t, ht, hm, hmax⟩ := h
  cases hs : t.2 with
  | false => exact .inl ⟨t, ht, (RuleTarget.isMatch_exact hs).mp hm ▸ List.prefix_rfl⟩
  | true =>
    refine .inr ⟨t, ht, hs, (RuleTarget.isMatch_subtree hs).mp hm, fun u hu hsu hpre => ?_⟩
    exact hmax u hu ((RuleTarget.isMatch_subtree hsu).mpr hpre)

/-- A path in an included subtree is included, unless it is excluded alone. -/
theorem CoveredByInclusion.includes_iff (h : CoveredByInclusion effects path)
    (hbelow : ¬ IncludesBelow effects path) :
    Includes effects path ↔ effects (path, false) ≠ some .exclude := by
  obtain ⟨t, ht, hsub, hpre, hmax⟩ := h
  have hmatch : t.isMatch path := (RuleTarget.isMatch_subtree hsub).mpr hpre
  constructor
  · rintro ⟨u, hu, hum, humax⟩ he
    have hus : u.2 = true := by
      cases hs : u.2 with
      | false =>
        exact absurd ⟨u, hu, (RuleTarget.isMatch_exact hs).mp hum ▸ List.prefix_rfl⟩ hbelow
      | true => rfl
    have hle := humax (path, false) (he ▸ rfl) rfl
    rw [RuleTarget.specificity, RuleTarget.specificity, Prod.Lex.toLex_le_toLex, hus] at hle
    rcases hle with hlt | ⟨-, hb⟩
    · exact absurd hlt (Nat.not_lt.mpr hum.isPrefix.length_le)
    · exact Bool.noConfusion (hb rfl)
  · intro he
    refine ⟨t, ht, hmatch, fun u hu hum => ?_⟩
    cases hs : u.2 with
    | true => exact hmax u hu hs hum.isPrefix
    | false =>
      obtain ⟨effect, hue⟩ := Option.isSome_iff_exists.mp hu
      have heq : u = (path, false) := Prod.ext ((RuleTarget.isMatch_exact hs).mp hum).symm hs
      rcases effect with - | -
      · exact absurd ⟨u, hue, heq ▸ List.prefix_rfl⟩ hbelow
      · exact absurd (heq ▸ hue) he

end Subtrees

-- ---------------------------------------------------------------------------
-- Evaluation
-- ---------------------------------------------------------------------------

structure FilterEvaluation where
  subtreeIncluded : Bool
  isMatch : Bool
  matchesExactly : Bool
deriving DecidableEq

structure EvaluationState where
  subtreeIncluded : Bool := false
  matchesExactly : Bool := false
  lastMatch : Option (RuleEffect × Bool) := none
  foundIncludeInSubtree : Bool := false

def isIncludeBelow (path : EntityPath) (e : ResolvedEntityPathRule × RuleEffect) : Bool :=
  e.2 = .include && e.1.resolvedPath.startsWith path

def isExactInclude (path : EntityPath) (e : ResolvedEntityPathRule × RuleEffect) : Bool :=
  e.2 = .include && !e.1.rule.includeSubtree && e.1.resolvedPath = path

def EvaluationState.visit (path : EntityPath) (s : EvaluationState)
    (e : ResolvedEntityPathRule × RuleEffect) : EvaluationState :=
  let s := if !s.foundIncludeInSubtree && isIncludeBelow path e then
    { s with foundIncludeInSubtree := true, subtreeIncluded := true } else s
  let s := if !s.matchesExactly && isExactInclude path e then
    { s with matchesExactly := true } else s
  if e.1.isMatch path then { s with lastMatch := some (e.2, e.1.rule.includeSubtree) } else s

def EvaluationState.finish (s : EvaluationState) : FilterEvaluation where
  subtreeIncluded :=
    match s.lastMatch with
    | some (.include, _) => true
    | some (.exclude, includeSubtree) =>
      -- Nothing below is included, so the flag is not set here anyway.
      if includeSubtree && !s.foundIncludeInSubtree then false else s.subtreeIncluded
    | none => s.subtreeIncluded
  isMatch := s.lastMatch.any (·.1 = .include)
  matchesExactly := s.matchesExactly

namespace ResolvedEntityPathFilter

variable {natural : NaturalOrder}

def matchesExactly (filter : ResolvedEntityPathFilter natural) (path : EntityPath) : Bool :=
  filter.rules.toList.any (isExactInclude path)

def scanSubtree (path : EntityPath) : List (ResolvedEntityPathRule × RuleEffect) → Bool
  | [] => false
  | (rule, effect) :: rest =>
    if rule.isMatch path then
      match effect with
      | .include => true
      | .exclude => if rule.rule.includeSubtree then false else scanSubtree path rest
    else scanSubtree path rest

def isAnythingInSubtreeIncluded (filter : ResolvedEntityPathFilter natural)
    (path : EntityPath) : Bool :=
  filter.rules.toList.any (isIncludeBelow path) || scanSubtree path filter.rules.toList.reverse

def evaluate (filter : ResolvedEntityPathFilter natural) (path : EntityPath) : FilterEvaluation :=
  (filter.rules.toList.foldl (EvaluationState.visit path) {}).finish

/-- The single pass agrees with the separate scans, and the subtree is included exactly
if something in it is. -/
structure EvaluatesSoundly (filter : ResolvedEntityPathFilter natural) (path : EntityPath) :
    Prop where
  subtree : (filter.evaluate path).subtreeIncluded = true ↔
    ∃ q, q.startsWith path = true ∧ filter.isMatch q = true
  anything : (filter.evaluate path).subtreeIncluded = filter.isAnythingInSubtreeIncluded path
  isMatch : (filter.evaluate path).isMatch = filter.isMatch path
  exactly : (filter.evaluate path).matchesExactly = filter.matchesExactly path

-- ---------------------------------------------------------------------------
-- What the passes find
-- ---------------------------------------------------------------------------

variable {filter : ResolvedEntityPathFilter natural} {path : EntityPath}

theorem foldl_visit (path : EntityPath) (l : List (ResolvedEntityPathRule × RuleEffect)) :
    l.foldl (EvaluationState.visit path) {} =
      { subtreeIncluded := l.any (isIncludeBelow path)
        matchesExactly := l.any (isExactInclude path)
        lastMatch := (l.reverse.find? (·.1.isMatch path)).map fun e =>
          (e.2, e.1.rule.includeSubtree)
        foundIncludeInSubtree := l.any (isIncludeBelow path) } := by
  induction l using List.reverseRecOn with
  | nil => rfl
  | append_singleton l e ih =>
    rw [List.foldl_append, ih, List.foldl_cons, List.foldl_nil, EvaluationState.visit]
    simp only [List.any_append, List.any_cons, List.any_nil, Bool.or_false, List.reverse_append,
      List.reverse_singleton, List.singleton_append, List.find?_cons]
    cases l.any (isIncludeBelow path) <;> cases l.any (isExactInclude path) <;>
      cases isIncludeBelow path e <;> cases isExactInclude path e <;>
      cases e.1.isMatch path <;> rfl

theorem evaluate_isMatch : (filter.evaluate path).isMatch = filter.isMatch path := by
  rw [evaluate, foldl_visit, isMatch, mostSpecificMatch]
  cases filter.rules.toList.reverse.find? (·.1.isMatch path) with
  | none => rfl
  | some e =>
    obtain ⟨rule, effect⟩ := e
    cases effect <;> rfl

theorem evaluate_matchesExactly :
    (filter.evaluate path).matchesExactly = filter.matchesExactly path := by
  rw [evaluate, foldl_visit]
  rfl

theorem evaluate_subtreeIncluded : (filter.evaluate path).subtreeIncluded =
    (filter.rules.toList.any (isIncludeBelow path) || filter.isMatch path) := by
  rw [← evaluate_isMatch, evaluate, foldl_visit]
  cases filter.rules.toList.reverse.find? (·.1.isMatch path) with
  | none => simp [EvaluationState.finish]
  | some e =>
    obtain ⟨rule, effect⟩ := e
    cases effect with
    | «include» => simp [EvaluationState.finish]
    | exclude =>
      cases filter.rules.toList.any (isIncludeBelow path) <;>
        cases hs : rule.rule.includeSubtree <;> simp [EvaluationState.finish, hs]

theorem any_isIncludeBelow_iff :
    filter.rules.toList.any (isIncludeBelow path) = true ↔ IncludesBelow filter.effects path := by
  simp only [List.any_eq_true, isIncludeBelow, Bool.and_eq_true, decide_eq_true_eq, IncludesBelow,
    effects_eq_some_iff, EntityPath.startsWith, List.isPrefixOf_iff_prefix]
  constructor
  · rintro ⟨e, hmem, he, hpre⟩
    exact ⟨e.1.target, ⟨e.1, rfl, he ▸ hmem⟩, hpre⟩
  · rintro ⟨t, ⟨rule, rfl, hmem⟩, hpre⟩
    exact ⟨_, hmem, rfl, hpre⟩

theorem effects_mem_targets (t : RuleTarget) (h : (filter.effects t).isSome) :
    t ∈ filter.rules.toList.map (·.1.target) := by
  obtain ⟨effect, he⟩ := Option.isSome_iff_exists.mp h
  obtain ⟨rule, rfl, hmem⟩ := effects_eq_some_iff.mp he
  exact List.mem_map_of_mem (f := fun e => e.1.target) hmem

def decides (path : EntityPath) (e : ResolvedEntityPathRule × RuleEffect) : Bool :=
  e.1.isMatch path && (e.2 = .include || e.1.rule.includeSubtree)

theorem scanSubtree_eq (path : EntityPath) (l : List (ResolvedEntityPathRule × RuleEffect)) :
    scanSubtree path l = (l.find? (decides path)).any (·.2 = .include) := by
  induction l with
  | nil => rfl
  | cons e rest ih =>
    obtain ⟨rule, effect⟩ := e
    rw [List.find?_cons, decides]
    cases effect with
    | «include» => cases hm : rule.isMatch path <;> simp [scanSubtree, hm, ih]
    | exclude =>
      cases hm : rule.isMatch path <;> cases hs : rule.rule.includeSubtree <;>
        simp [scanSubtree, hm, hs, ih]

/-- Once nothing below is included, the scan from the back finds the narrowest subtree. -/
theorem scanSubtree_iff (hbelow : ¬ IncludesBelow filter.effects path) :
    scanSubtree path filter.rules.toList.reverse = true ↔
      CoveredByInclusion filter.effects path := by
  have hsub : ∀ rule : ResolvedEntityPathRule, (rule, RuleEffect.include) ∈ filter.rules.toList →
      RuleTarget.isMatch rule.target path → rule.target.2 = true := by
    intro rule hmem hm
    cases hs : rule.target.2 with
    | true => rfl
    | false =>
      have heq : path = rule.target.1 := (RuleTarget.isMatch_exact hs).mp hm
      exact absurd ⟨_, effects_eq_some_iff.mpr ⟨rule, rfl, hmem⟩, heq ▸ List.prefix_rfl⟩ hbelow
  have hfind : scanSubtree path filter.rules.toList.reverse = true ↔ ∃ rule,
      filter.rules.toList.reverse.find? (decides path) = some (rule, RuleEffect.include) := by
    rw [scanSubtree_eq]
    cases filter.rules.toList.reverse.find? (decides path) with
    | none => simp
    | some e =>
      obtain ⟨rule, effect⟩ := e
      cases effect <;> simp
  rw [hfind]
  simp only [find?_reverse_eq_some_iff, isLast_toList, decides, Bool.and_eq_true, Bool.or_eq_true,
    decide_eq_true_eq, ResolvedEntityPathRule.isMatch_iff]
  constructor
  · rintro ⟨rule, hmem, ⟨hm, -⟩, hmax⟩
    refine ⟨rule.target, effects_eq_some_iff.mpr ⟨rule, rfl, hmem⟩, hsub rule hmem hm,
      hm.isPrefix, fun u hu hus hpre => ?_⟩
    obtain ⟨effect, he⟩ := Option.isSome_iff_exists.mp hu
    obtain ⟨rule', rfl, hmem'⟩ := effects_eq_some_iff.mp he
    have hm' := (RuleTarget.isMatch_subtree hus).mpr hpre
    exact (ResolvedEntityPathRule.cmp_ne_gt_iff natural hm' hm).mp
      (hmax _ hmem' ⟨hm', .inr hus⟩)
  · rintro ⟨t, ht, hts, hpre, hmax⟩
    obtain ⟨rule, rfl, hmem⟩ := effects_eq_some_iff.mp ht
    have hm := (RuleTarget.isMatch_subtree hts).mpr hpre
    refine ⟨rule, hmem, ⟨hm, .inl trivial⟩, fun e he ⟨hme, hde⟩ => ?_⟩
    refine (ResolvedEntityPathRule.cmp_ne_gt_iff natural hme hm).mpr (hmax _ ?_ ?_ hme.isPrefix)
    · exact Option.isSome_iff_exists.mpr ⟨e.2, effects_eq_some_iff.mpr ⟨e.1, rfl, he⟩⟩
    · refine hde.elim (fun hi => ?_) id
      exact hsub e.1 (hi ▸ he) hme

theorem isAnythingInSubtreeIncluded_iff :
    filter.isAnythingInSubtreeIncluded path = true ↔
      IncludesBelow filter.effects path ∨ CoveredByInclusion filter.effects path := by
  rw [isAnythingInSubtreeIncluded, Bool.or_eq_true, any_isIncludeBelow_iff]
  by_cases hbelow : IncludesBelow filter.effects path
  · exact iff_of_true (.inl hbelow) (.inl hbelow)
  · rw [scanSubtree_iff hbelow]

theorem isAnythingInSubtreeIncluded_sound :
    filter.isAnythingInSubtreeIncluded path = true ↔ SubtreeIncludes filter.effects path := by
  rw [isAnythingInSubtreeIncluded_iff, subtreeIncludes_iff effects_mem_targets]

theorem evaluate_subtreeIncluded_iff : (filter.evaluate path).subtreeIncluded = true ↔
    IncludesBelow filter.effects path ∨ Includes filter.effects path := by
  rw [evaluate_subtreeIncluded, Bool.or_eq_true, any_isIncludeBelow_iff, isMatch_iff]

-- ---------------------------------------------------------------------------
-- When the single pass is right
-- ---------------------------------------------------------------------------

/-- The path is excluded alone, nothing at or below it is included by a rule of its own, and
the narrowest subtree that holds it is included. -/
def ExcludedAlone (filter : ResolvedEntityPathFilter natural) (path : EntityPath) : Prop :=
  filter.effects (path, false) = some .exclude ∧ ¬ IncludesBelow filter.effects path ∧
    CoveredByInclusion filter.effects path

/-- The pass misses exactly the subtrees of which only the root is excluded. -/
theorem evaluate_subtreeIncluded_sound_iff :
    ((filter.evaluate path).subtreeIncluded = true ↔ SubtreeIncludes filter.effects path) ↔
      ¬ ExcludedAlone filter path := by
  rw [evaluate_subtreeIncluded_iff, subtreeIncludes_iff effects_mem_targets]
  by_cases hbelow : IncludesBelow filter.effects path
  · exact iff_of_true (iff_of_true (.inl hbelow) (.inl hbelow)) fun h => h.2.1 hbelow
  by_cases hcov : CoveredByInclusion filter.effects path
  · rw [hcov.includes_iff hbelow, ExcludedAlone]
    simp [hbelow, hcov]
  · refine iff_of_true (iff_of_false ?_ (by simp [hbelow, hcov])) fun h => hcov h.2.2
    rintro (h | h)
    · exact hbelow h
    · exact h.below_or_covered.elim hbelow hcov

theorem evaluatesSoundly_iff (filter : ResolvedEntityPathFilter natural) (path : EntityPath) :
    EvaluatesSoundly filter path ↔ ¬ ExcludedAlone filter path := by
  have hspec : SubtreeIncludes filter.effects path ↔
      ∃ q, q.startsWith path = true ∧ filter.isMatch q = true := by
    refine exists_congr fun q => and_congr ?_ isMatch_iff.symm
    rw [EntityPath.startsWith, List.isPrefixOf_iff_prefix]
  rw [← evaluate_subtreeIncluded_sound_iff]
  constructor
  · intro h
    rw [hspec]
    exact h.subtree
  · intro h
    refine ⟨h.trans hspec, ?_, evaluate_isMatch, evaluate_matchesExactly⟩
    exact Bool.eq_iff_iff.mpr (h.trans isAnythingInSubtreeIncluded_sound.symm)

def worldAlone : ResolvedEntityPathFilter .alphabetical :=
  (EntityPathFilter.parseForgiving "+ /**\n- /world").resolveForgiving .asciiOnly .alphabetical
    .empty

/-- Only the root of the subtree is excluded, but all of it is pruned. -/
theorem worldAlone_not_sound :
    (worldAlone.evaluate ["world"]).subtreeIncluded = false ∧
    worldAlone.isAnythingInSubtreeIncluded ["world"] = true ∧
    worldAlone.isMatch ["world", "a"] = true ∧ ¬ EvaluatesSoundly worldAlone ["world"] := by
  have heval : (worldAlone.evaluate ["world"]).subtreeIncluded = false := by decide +kernel
  have hany : worldAlone.isAnythingInSubtreeIncluded ["world"] = true := by decide +kernel
  refine ⟨heval, hany, by decide +kernel, fun h => ?_⟩
  exact Bool.false_ne_true (heval ▸ hany ▸ h.anything)

end ResolvedEntityPathFilter

end DimosViewer
