import DimosViewer.Path.FilterEvaluation
import Mathlib.Data.Set.Finite.Lemmas

/-!
# One filter covers another

Whether everything that one filter includes is also included by another is read off their
rules: each inclusion must lie in an inclusion of the other that reaches as far, and where
the other excludes something, this one must exclude it too. At the root of an excluded subtree
the second question is about the root only.
-/

namespace DimosViewer

-- ---------------------------------------------------------------------------
-- The rule that decides
-- ---------------------------------------------------------------------------

structure Decides (effects : RuleTarget → Option RuleEffect) (path : EntityPath)
    (t : RuleTarget) : Prop where
  found : (effects t).isSome
  isMatch : t.isMatch path
  mostSpecific : ∀ u, (effects u).isSome → u.isMatch path → u.specificity ≤ t.specificity

section Deciding

variable {effects : RuleTarget → Option RuleEffect} {path : EntityPath} {t u : RuleTarget}

theorem exists_decides {targets : List RuleTarget}
    (htargets : ∀ t, (effects t).isSome → t ∈ targets) (ht : (effects t).isSome)
    (hm : t.isMatch path) : ∃ u, Decides effects path u := by
  have hfin : {u : RuleTarget | (effects u).isSome ∧ u.isMatch path}.Finite :=
    targets.finite_toSet.subset fun u hu => htargets u hu.1
  obtain ⟨u, ⟨hu, hum⟩, hmax⟩ :=
    Set.exists_max_image _ RuleTarget.specificity hfin ⟨t, ht, hm⟩
  exact ⟨u, hu, hum, fun v hv hvm => hmax v ⟨hv, hvm⟩⟩

theorem includes_iff_decides :
    Includes effects path ↔ ∃ t, Decides effects path t ∧ effects t = some .include := by
  constructor
  · rintro ⟨t, ht, hm, hmax⟩
    exact ⟨t, ⟨ht ▸ rfl, hm, hmax⟩, ht⟩
  · rintro ⟨t, ⟨-, hm, hmax⟩, ht⟩
    exact ⟨t, ht, hm, hmax⟩

theorem not_includes_fresh {part : String} (h : effects (path, true) = some .exclude)
    (hfresh : ∀ t, (effects t).isSome → t.1 ≠ path ++ [part]) :
    ¬ Includes effects (path ++ [part]) := by
  have hmatch : RuleTarget.isMatch (path, true) (path ++ [part]) :=
    (RuleTarget.isMatch_subtree rfl).mpr (List.prefix_append _ _)
  have hmax : ∀ u, (effects u).isSome → u.isMatch (path ++ [part]) →
      u.specificity ≤ RuleTarget.specificity (path, true) := by
    intro u hu hum
    obtain ⟨hus, hupre⟩ := hum.of_fresh (hfresh u hu)
    rw [RuleTarget.specificity, RuleTarget.specificity, hus, Prod.Lex.toLex_le_toLex]
    exact (Nat.lt_or_eq_of_le hupre.length_le).imp_right fun hlen => ⟨hlen, le_rfl⟩
  rw [includes_probe (h ▸ rfl) hmatch hmax, h]
  simp

end Deciding

-- ---------------------------------------------------------------------------
-- What is checked
-- ---------------------------------------------------------------------------

structure CoversRules (effects other : RuleTarget → Option RuleEffect) : Prop where
  inclusions : ∀ u, other u = some .include →
    ∃ t, Decides effects u.1 t ∧ effects t = some .include ∧ (u.2 = true → t.2 = true)
  exclusions : ∀ t, effects t = some .exclude → ∀ u, Decides other t.1 u → other u = some .exclude

/-- The subtree of the path is excluded, while the other filter excludes the path alone from
a subtree that it includes. -/
def ExcludesAround (effects other : RuleTarget → Option RuleEffect) (path : EntityPath) : Prop :=
  effects (path, true) = some .exclude ∧ other (path, false) = some .exclude ∧
    CoveredByInclusion other path

section Covering

variable {effects other : RuleTarget → Option RuleEffect} {path : EntityPath} {t q : RuleTarget}

theorem RuleTarget.isMatch.of_reaching {s : RuleTarget} (hs : s.isMatch q.1)
    (hq : q.isMatch path) (hsub : q.2 = true → s.2 = true) : s.isMatch path := by
  cases hqs : q.2 with
  | false => exact (RuleTarget.isMatch_exact hqs).mp hq ▸ hs
  | true => exact (RuleTarget.isMatch_subtree (hsub hqs)).mpr (hs.isPrefix.trans hq.isPrefix)

theorem Decides.strictly_below (ht : Decides effects path t) (hq : q.isMatch path)
    (hno : ¬ t.isMatch q.1) : q.2 = true ∧ q.1 <+: t.1 := by
  have hsub : q.2 = true := by
    cases hs : q.2 with
    | false => exact absurd ((RuleTarget.isMatch_exact hs).mp hq ▸ ht.isMatch) hno
    | true => rfl
  refine ⟨hsub, ?_⟩
  refine (List.prefix_or_prefix_of_prefix hq.isPrefix ht.isMatch.isPrefix).resolve_right ?_
  intro hpre
  cases hs : t.2 with
  | true => exact hno ((RuleTarget.isMatch_subtree hs).mpr hpre)
  | false =>
    have hpath : path = t.1 := (RuleTarget.isMatch_exact hs).mp ht.isMatch
    have heq : t.1 = q.1 := hpre.eq_of_length_le (hpath ▸ hq.isPrefix.length_le)
    exact hno ((RuleTarget.isMatch_exact hs).mpr heq.symm)

/-- An exclusion that keeps out a path which the other filter includes is the root of a
subtree that the other filter excludes alone. -/
theorem CoversRules.excludesAround {targets : List RuleTarget}
    (htargets : ∀ t, (other t).isSome → t ∈ targets) (h : CoversRules effects other)
    (hq : Decides other path q) (hqi : other q = some .include) (ht : Decides effects path t)
    (hte : effects t = some .exclude) : ExcludesAround effects other t.1 := by
  obtain ⟨s, hs, hsi, hsub⟩ := h.inclusions q hqi
  have hno : ¬ t.isMatch q.1 := by
    intro hm
    have hsm : s.isMatch path := hs.isMatch.of_reaching hq.isMatch hsub
    have heq : t = s := RuleTarget.eq_of_specificity ht.isMatch hsm
      (le_antisymm (hs.mostSpecific t ht.found hm) (ht.mostSpecific s hs.found hsm))
    rw [← heq, hte] at hsi
    cases hsi
  obtain ⟨hqs, hqt⟩ := ht.strictly_below hq.isMatch hno
  obtain ⟨u, hu⟩ := exists_decides htargets hq.found ((RuleTarget.isMatch_subtree hqs).mpr hqt)
  have hue := h.exclusions t hte u hu
  have hupath : ¬ u.isMatch path := by
    intro hum
    have hle : q.specificity ≤ u.specificity :=
      hu.mostSpecific q hq.found ((RuleTarget.isMatch_subtree hqs).mpr hqt)
    have heq : u = q := RuleTarget.eq_of_specificity hum hq.isMatch
      (le_antisymm (hq.mostSpecific u hu.found hum) hle)
    rw [heq, hqi] at hue
    cases hue
  -- A subtree, or the path itself, would decide about the path too.
  have hus : u.2 = false := by
    cases hs : u.2 with
    | false => rfl
    | true =>
      exact absurd ((RuleTarget.isMatch_subtree hs).mpr
        (hu.isMatch.isPrefix.trans ht.isMatch.isPrefix)) hupath
  have hut : t.1 = u.1 := (RuleTarget.isMatch_exact hus).mp hu.isMatch
  have hts : t.2 = true := by
    cases hs : t.2 with
    | true => rfl
    | false => exact absurd ((RuleTarget.isMatch_exact hs).mp ht.isMatch ▸ hu.isMatch) hupath
  refine ⟨?_, ?_, q, hqi, hqs, hqt, fun w hw hws hwt => ?_⟩
  · rw [← hts]
    exact hte
  · rw [hut, ← hus]
    exact hue
  · exact hq.mostSpecific w hw
      ((RuleTarget.isMatch_subtree hws).mpr (hwt.trans ht.isMatch.isPrefix))

theorem CoversRules.includes {targets targets' : List RuleTarget}
    (htargets : ∀ t, (effects t).isSome → t ∈ targets)
    (htargets' : ∀ t, (other t).isSome → t ∈ targets') (h : CoversRules effects other)
    (haround : ∀ path, ¬ ExcludesAround effects other path) (hp : Includes other path) :
    Includes effects path := by
  obtain ⟨q, hq, hqi⟩ := includes_iff_decides.mp hp
  obtain ⟨s, hs, -, hsub⟩ := h.inclusions q hqi
  obtain ⟨t, ht⟩ := exists_decides htargets hs.found (hs.isMatch.of_reaching hq.isMatch hsub)
  refine includes_iff_decides.mpr ⟨t, ht, ?_⟩
  obtain ⟨effect, hte⟩ := Option.isSome_iff_exists.mp ht.found
  cases effect with
  | «include» => exact hte
  | exclude => exact absurd (h.excludesAround htargets' hq hqi ht hte) (haround t.1)

theorem ExcludesAround.exists_lost {targets targets' : List RuleTarget}
    (htargets : ∀ t, (effects t).isSome → t ∈ targets)
    (htargets' : ∀ t, (other t).isSome → t ∈ targets') (h : ExcludesAround effects other path) :
    ∃ q, Includes other q ∧ ¬ Includes effects q := by
  obtain ⟨hexclude, -, hcovered⟩ := h
  obtain ⟨part, hpart⟩ := exists_fresh_part ((targets ++ targets').map Prod.fst)
  have hfresh : ∀ t ∈ targets ++ targets', t.1 ≠ path ++ [part] := fun t ht he =>
    hpart t.1 (List.mem_map_of_mem ht) (he ▸ List.mem_append_right _ (List.mem_singleton_self _))
  refine ⟨path ++ [part], hcovered.includes_fresh fun t ht => ?_,
    not_includes_fresh hexclude fun t ht => ?_⟩
  · exact hfresh t (List.mem_append_right _ (htargets' t ht))
  · exact hfresh t (List.mem_append_left _ (htargets t ht))

end Covering

-- ---------------------------------------------------------------------------
-- The check
-- ---------------------------------------------------------------------------

namespace ResolvedEntityPathFilter

variable {natural : NaturalOrder}

def lastMatch (filter : ResolvedEntityPathFilter natural) (path : EntityPath) :
    Option (ResolvedEntityPathRule × RuleEffect) :=
  filter.rules.toList.reverse.find? (·.1.isMatch path)

/-- Is what this rule of another filter includes also included here. -/
def includesRule (filter : ResolvedEntityPathFilter natural) :
    ResolvedEntityPathRule × RuleEffect → Bool
  | (otherRule, .include) =>
    match filter.lastMatch otherRule.resolvedPath with
    | some (selfRule, .include) =>
      -- The matching rule must reach as far as the other one.
      !(otherRule.rule.includeSubtree && !selfRule.rule.includeSubtree)
    | some (_, .exclude) => false
    | none => false
  | (_, .exclude) => true

/-- Is what this rule of another filter excludes not included here. -/
def allowsExclusion (filter : ResolvedEntityPathFilter natural) :
    ResolvedEntityPathRule × RuleEffect → Bool
  | (_, .include) => true
  | (otherRule, .exclude) =>
    match filter.lastMatch otherRule.resolvedPath with
    | some (_, .include) => false
    | some (_, .exclude) => true
    | none => true

def isSupersetOf (filter other : ResolvedEntityPathFilter natural) : Bool :=
  other.rules.toList.all filter.includesRule && filter.rules.toList.all other.allowsExclusion

variable {filter other : ResolvedEntityPathFilter natural} {path : EntityPath}

theorem lastMatch_eq_some_iff {rule : ResolvedEntityPathRule} {effect : RuleEffect} :
    filter.lastMatch path = some (rule, effect) ↔
      (rule, effect) ∈ filter.rules.toList ∧ Decides filter.effects path rule.target := by
  simp only [lastMatch, find?_reverse_eq_some_iff, isLast_toList,
    ResolvedEntityPathRule.isMatch_iff]
  constructor
  · rintro ⟨hmem, hmatch, hmax⟩
    refine ⟨hmem, ?_, hmatch, fun u hu hum => ?_⟩
    · rw [effects_eq_some_iff.mpr ⟨rule, rfl, hmem⟩]
      rfl
    · obtain ⟨effect, he⟩ := Option.isSome_iff_exists.mp hu
      obtain ⟨rule', rfl, hmem'⟩ := effects_eq_some_iff.mp he
      exact (ResolvedEntityPathRule.cmp_ne_gt_iff natural hum hmatch).mp (hmax _ hmem' hum)
  · rintro ⟨hmem, -, hmatch, hmax⟩
    refine ⟨hmem, hmatch, fun e he hem => ?_⟩
    refine (ResolvedEntityPathRule.cmp_ne_gt_iff natural hem hmatch).mpr (hmax _ ?_ hem)
    exact Option.isSome_iff_exists.mpr ⟨e.2, effects_eq_some_iff.mpr ⟨e.1, rfl, he⟩⟩

theorem exists_lastMatch {t : RuleTarget} (h : Decides filter.effects path t) :
    ∃ rule effect, filter.lastMatch path = some (rule, effect) ∧ rule.target = t ∧
      filter.effects t = some effect := by
  obtain ⟨effect, he⟩ := Option.isSome_iff_exists.mp h.found
  obtain ⟨rule, rfl, hmem⟩ := effects_eq_some_iff.mp he
  exact ⟨rule, effect, lastMatch_eq_some_iff.mpr ⟨hmem, h⟩, rfl, he⟩

theorem includesRule_iff (rule : ResolvedEntityPathRule) :
    filter.includesRule (rule, .include) = true ↔
      ∃ t, Decides filter.effects rule.resolvedPath t ∧ filter.effects t = some .include ∧
        (rule.rule.includeSubtree = true → t.2 = true) := by
  constructor
  · intro h
    rw [includesRule] at h
    split at h
    case h_1 selfRule hlast =>
      obtain ⟨hmem, hd⟩ := lastMatch_eq_some_iff.mp hlast
      refine ⟨selfRule.target, hd, effects_eq_some_iff.mpr ⟨selfRule, rfl, hmem⟩, fun hs => ?_⟩
      simpa [hs, ResolvedEntityPathRule.target] using h
    case h_2 => cases h
    case h_3 => cases h
  · rintro ⟨t, hd, hi, hsub⟩
    obtain ⟨selfRule, effect, hlast, rfl, he⟩ := exists_lastMatch hd
    obtain rfl : effect = .include := Option.some.inj (he.symm.trans hi)
    simp only [includesRule, hlast]
    cases hs : rule.rule.includeSubtree with
    | false => rfl
    | true =>
      have : selfRule.rule.includeSubtree = true := hsub hs
      rw [this]
      rfl

theorem allowsExclusion_iff (rule : ResolvedEntityPathRule) :
    filter.allowsExclusion (rule, .exclude) = true ↔
      ∀ u, Decides filter.effects rule.resolvedPath u → filter.effects u = some .exclude := by
  constructor
  · intro h u hu
    obtain ⟨rule', effect, hlast, rfl, he⟩ := exists_lastMatch hu
    rw [allowsExclusion, hlast] at h
    cases effect with
    | «include» => cases h
    | exclude => exact he
  · intro h
    rw [allowsExclusion]
    split
    case h_1 rule' hlast =>
      obtain ⟨hmem, hd⟩ := lastMatch_eq_some_iff.mp hlast
      have hi := effects_eq_some_iff.mpr ⟨rule', rfl, hmem⟩
      rw [h _ hd] at hi
      cases hi
    case h_2 => rfl
    case h_3 => rfl

theorem isSupersetOf_iff :
    filter.isSupersetOf other = true ↔ CoversRules filter.effects other.effects := by
  rw [isSupersetOf, Bool.and_eq_true, List.all_eq_true, List.all_eq_true]
  constructor
  · rintro ⟨hinclude, hexclude⟩
    refine ⟨fun u hu => ?_, fun t ht => ?_⟩
    · obtain ⟨rule, rfl, hmem⟩ := effects_eq_some_iff.mp hu
      exact (includesRule_iff rule).mp (hinclude _ hmem)
    · obtain ⟨rule, rfl, hmem⟩ := effects_eq_some_iff.mp ht
      exact (allowsExclusion_iff rule).mp (hexclude _ hmem)
  · rintro ⟨hinclude, hexclude⟩
    refine ⟨fun e hmem => ?_, fun e hmem => ?_⟩
    · obtain ⟨rule, effect⟩ := e
      cases effect with
      | «include» =>
        exact (includesRule_iff rule).mpr (hinclude _ (effects_eq_some_iff.mpr ⟨rule, rfl, hmem⟩))
      | exclude => rfl
    · obtain ⟨rule, effect⟩ := e
      cases effect with
      | «include» => rfl
      | exclude =>
        exact (allowsExclusion_iff rule).mpr
          (hexclude _ (effects_eq_some_iff.mpr ⟨rule, rfl, hmem⟩))

/-- A filter that passes the check covers the other one exactly if it does not exclude
a subtree of which the other one only excludes the root. -/
theorem covers_iff_of_isSupersetOf (h : filter.isSupersetOf other = true) :
    (∀ path, other.isMatch path = true → filter.isMatch path = true) ↔
      ∀ path, ¬ ExcludesAround filter.effects other.effects path := by
  constructor
  · intro hcovers path haround
    obtain ⟨q, hq, hlost⟩ := haround.exists_lost effects_mem_targets effects_mem_targets
    exact hlost (isMatch_iff.mp (hcovers q (isMatch_iff.mpr hq)))
  · intro haround path hp
    exact isMatch_iff.mpr ((isSupersetOf_iff.mp h).includes effects_mem_targets
      effects_mem_targets haround (isMatch_iff.mp hp))

def worldPruned : ResolvedEntityPathFilter .alphabetical :=
  (EntityPathFilter.parseForgiving "+ /**\n- /world/**").resolveForgiving .asciiOnly .alphabetical
    .empty

theorem covers_of_isSupersetOf_worldAlone :
    worldAlone.isSupersetOf worldPruned = true ∧
      ((∀ path, worldPruned.isMatch path = true → worldAlone.isMatch path = true) ↔
        ∀ path, ¬ ExcludesAround worldAlone.effects worldPruned.effects path) := by
  have h : worldAlone.isSupersetOf worldPruned = true := by decide +kernel
  exact ⟨h, covers_iff_of_isSupersetOf h⟩

/-- Below the world, what the pruned filter leaves out is included by the other one. -/
theorem worldPruned_not_superset : worldPruned.isSupersetOf worldAlone = true ∧
    worldAlone.isMatch ["world", "a"] = true ∧ worldPruned.isMatch ["world", "a"] = false := by
  decide +kernel

end ResolvedEntityPathFilter

end DimosViewer
