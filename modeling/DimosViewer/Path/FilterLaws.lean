import Mathlib.Data.Fintype.EquivFin
import DimosViewer.Path.Filter

/-!
# Filters follow their documentation

The documented meaning of a filter: of the rules that match, the most specific one
decides, and of equally specific ones the last in the text. The code agrees as long
as rules of one target agree on their effect however they are spelled.
-/

namespace DimosViewer

open Std (TreeMap TransCmp LawfulEqCmp OrientedCmp ReflCmp)

-- ---------------------------------------------------------------------------
-- Order of paths
-- ---------------------------------------------------------------------------

section Order

variable (natural : NaturalOrder)

instance : TransCmp natural.compare := natural.trans
instance : LawfulEqCmp natural.compare := natural.lawful

theorem EntityPathPart.cmp_eq : EntityPathPart.cmp natural =
    compareLex (compareOn (RESERVED_NAMESPACE_PREFIX.toList.isPrefixOf ·.toList))
      natural.compare := by
  funext a b
  simp only [EntityPathPart.cmp, compareLex, compareOn]
  cases RESERVED_NAMESPACE_PREFIX.toList.isPrefixOf a.toList <;>
    cases RESERVED_NAMESPACE_PREFIX.toList.isPrefixOf b.toList <;> rfl

instance : TransCmp (EntityPathPart.cmp natural) := EntityPathPart.cmp_eq natural ▸ inferInstance

instance : LawfulEqCmp (EntityPathPart.cmp natural) where
  eq_of_compare h := by
    rw [EntityPathPart.cmp_eq, compareLex, Ordering.then_eq_eq] at h
    exact LawfulEqCmp.eq_of_compare h.2

instance : TransCmp (EntityPath.cmp natural) :=
  inferInstanceAs (TransCmp (List.compareLex (EntityPathPart.cmp natural)))

instance : LawfulEqCmp (EntityPath.cmp natural) :=
  inferInstanceAs (LawfulEqCmp (List.compareLex (EntityPathPart.cmp natural)))

theorem EntityPath.cmp_of_prefix {a b : EntityPath} (h : a <+: b) (hlt : a.length < b.length) :
    EntityPath.cmp natural a b = .lt := by
  obtain ⟨rest, rfl⟩ := h
  induction a with
  | nil =>
    cases rest with
    | nil => exact absurd hlt (Nat.lt_irrefl _)
    | cons => exact List.compareLex_nil_cons
  | cons part a ih =>
    have hself : EntityPathPart.cmp natural part part = .eq := ReflCmp.compare_self
    rw [List.cons_append, EntityPath.cmp, List.compareLex_cons_cons, hself]
    exact ih (Nat.lt_of_succ_lt_succ hlt)

namespace ResolvedEntityPathRule

def target (rule : ResolvedEntityPathRule) : EntityPath × Bool :=
  (rule.resolvedPath, rule.rule.includeSubtree)

theorem cmp_eq : cmp natural = compareLex
    (fun a b => EntityPath.cmp natural a.resolvedPath b.resolvedPath)
    (compareOn fun a => !a.rule.includeSubtree) := rfl

instance : TransCmp (cmp natural) :=
  have : TransCmp (α := ResolvedEntityPathRule)
      fun a b => EntityPath.cmp natural a.resolvedPath b.resolvedPath :=
    { eq_swap := OrientedCmp.eq_swap
      isLE_trans := TransCmp.isLE_trans }
  cmp_eq natural ▸ inferInstance

theorem cmp_eq_iff {a b : ResolvedEntityPathRule} :
    cmp natural a b = .eq ↔ a.target = b.target := by
  rw [cmp, Ordering.then_eq_eq, LawfulEqCmp.compare_eq_iff_eq, LawfulEqCmp.compare_eq_iff_eq,
    target, target, Prod.mk.injEq, Bool.not_inj_iff]

end ResolvedEntityPathRule

end Order

-- ---------------------------------------------------------------------------
-- Targets
-- ---------------------------------------------------------------------------

/-- A path, and whether everything below it is meant too. -/
abbrev RuleTarget := EntityPath × Bool

namespace RuleTarget

def isMatch (t : RuleTarget) (path : EntityPath) : Prop :=
  if t.2 then t.1 <+: path else path = t.1

/-- Longer paths are more specific, and so is a path alone. -/
def specificity (t : RuleTarget) : Nat ×ₗ Bool := toLex (t.1.length, !t.2)

theorem isMatch.isPrefix {t : RuleTarget} (h : t.isMatch path) : t.1 <+: path := by
  unfold isMatch at h
  split at h
  · exact h
  · exact h ▸ List.prefix_rfl

theorem path_eq_of_length {t u : RuleTarget} (ht : t.isMatch path) (hu : u.isMatch path)
    (h : t.1.length = u.1.length) : t.1 = u.1 :=
  (List.prefix_of_prefix_length_le ht.isPrefix hu.isPrefix h.le).eq_of_length h

/-- Among the targets that match a path, specificity tells them apart. -/
theorem eq_of_specificity {t u : RuleTarget} (ht : t.isMatch path) (hu : u.isMatch path)
    (h : t.specificity = u.specificity) : t = u := by
  simp only [specificity, EmbeddingLike.apply_eq_iff_eq, Prod.mk.injEq, Bool.not_inj_iff] at h
  exact Prod.ext (path_eq_of_length ht hu h.1) h.2

def toRule (t : RuleTarget) : ResolvedEntityPathRule := ⟨if t.2 then "/**" else "", t.1⟩

theorem target_toRule (t : RuleTarget) : t.toRule.target = t := by
  obtain ⟨path, subtree⟩ := t
  have hexact : EntityPathRule.includeSubtree "" = false := by decide
  have hsubtree : EntityPathRule.includeSubtree "/**" = true := by decide
  cases subtree with
  | false => simp [toRule, ResolvedEntityPathRule.target, hexact]
  | true => simp [toRule, ResolvedEntityPathRule.target, hsubtree]

end RuleTarget

theorem ResolvedEntityPathRule.isMatch_iff {rule : ResolvedEntityPathRule} {path : EntityPath} :
    rule.isMatch path = true ↔ RuleTarget.isMatch rule.target path := by
  unfold ResolvedEntityPathRule.isMatch RuleTarget.isMatch target EntityPath.startsWith
  split <;> simp [*]

/-- Among the rules that match a path, the later one is the more specific one. -/
theorem ResolvedEntityPathRule.cmp_ne_gt_iff (natural : NaturalOrder)
    {a b : ResolvedEntityPathRule} {path : EntityPath} (ha : RuleTarget.isMatch a.target path)
    (hb : RuleTarget.isMatch b.target path) :
    cmp natural a b ≠ .gt ↔
      RuleTarget.specificity a.target ≤ RuleTarget.specificity b.target := by
  have hpre := ha.isPrefix
  have hpre' := hb.isPrefix
  rw [RuleTarget.specificity, RuleTarget.specificity, Prod.Lex.toLex_le_toLex]
  rcases Nat.lt_trichotomy a.target.1.length b.target.1.length with h | h | h
  · have hlt := EntityPath.cmp_of_prefix natural
      (List.prefix_of_prefix_length_le hpre hpre' h.le) h
    refine iff_of_true ?_ (.inl h)
    rw [cmp, show EntityPath.cmp natural a.resolvedPath b.resolvedPath = .lt from hlt]
    exact Ordering.noConfusion
  · have heq : a.resolvedPath = b.resolvedPath := RuleTarget.path_eq_of_length ha hb h
    have hself : EntityPath.cmp natural b.resolvedPath b.resolvedPath = .eq :=
      ReflCmp.compare_self
    rw [cmp, heq, hself]
    simp only [h, Nat.lt_irrefl, false_or, true_and]
    have key : ∀ x y : Bool, (Ordering.then .eq (compare (!x) !y) ≠ .gt ↔ (!x) ≤ !y) := by decide
    exact key _ _
  · have hlt := EntityPath.cmp_of_prefix natural
      (List.prefix_of_prefix_length_le hpre' hpre h.le) h
    refine iff_of_false ?_ (by omega)
    have hgt : EntityPath.cmp natural a.resolvedPath b.resolvedPath = .gt := by
      rw [OrientedCmp.gt_iff_lt]
      exact hlt
    rw [cmp, hgt]
    exact fun hne => hne rfl

-- ---------------------------------------------------------------------------
-- Filters as maps from targets to effects
-- ---------------------------------------------------------------------------

def Includes (effects : RuleTarget → Option RuleEffect) (path : EntityPath) : Prop :=
  ∃ t, effects t = some .include ∧ t.isMatch path ∧
    ∀ u, (effects u).isSome → u.isMatch path → u.specificity ≤ t.specificity

namespace ResolvedEntityPathFilter

variable {natural : NaturalOrder}

def effects (filter : ResolvedEntityPathFilter natural) (t : RuleTarget) : Option RuleEffect :=
  filter.rules[t.toRule]?

theorem effects_eq_some_iff {filter : ResolvedEntityPathFilter natural} {t : RuleTarget}
    {effect : RuleEffect} :
    filter.effects t = some effect ↔
      ∃ rule, ResolvedEntityPathRule.target rule = t ∧ (rule, effect) ∈ filter.rules.toList := by
  rw [effects, TreeMap.getElem?_eq_some_iff_exists_compare_eq_eq_and_mem_toList]
  refine exists_congr fun rule => and_congr_left fun _ => ?_
  rw [ResolvedEntityPathRule.cmp_eq_iff, RuleTarget.target_toRule, eq_comm]

theorem isMatch_iff {filter : ResolvedEntityPathFilter natural} {path : EntityPath} :
    filter.isMatch path = true ↔ Includes filter.effects path := by
  have hfind : filter.isMatch path = true ↔ ∃ rule,
      filter.rules.toList.reverse.find? (·.1.isMatch path) = some (rule, RuleEffect.include) := by
    unfold isMatch mostSpecificMatch
    cases filter.rules.toList.reverse.find? (·.1.isMatch path) with
    | none => simp
    | some e =>
      obtain ⟨rule, effect⟩ := e
      cases effect <;> simp
  rw [hfind]
  simp only [find?_reverse_eq_some_iff, isLast_toList, ResolvedEntityPathRule.isMatch_iff]
  constructor
  · rintro ⟨rule, hmem, hmatch, hmax⟩
    refine ⟨rule.target, effects_eq_some_iff.mpr ⟨rule, rfl, hmem⟩, hmatch, fun u hu hum => ?_⟩
    obtain ⟨effect, he⟩ := Option.isSome_iff_exists.mp hu
    obtain ⟨rule', rfl, hmem'⟩ := effects_eq_some_iff.mp he
    exact (ResolvedEntityPathRule.cmp_ne_gt_iff natural hum hmatch).mp (hmax _ hmem' hum)
  · rintro ⟨t, ht, hmatch, hmax⟩
    obtain ⟨rule, rfl, hmem⟩ := effects_eq_some_iff.mp ht
    refine ⟨rule, hmem, hmatch, fun e he hem => ?_⟩
    refine (ResolvedEntityPathRule.cmp_ne_gt_iff natural hem hmatch).mpr (hmax _ ?_ hem)
    exact Option.isSome_iff_exists.mpr ⟨e.2, effects_eq_some_iff.mpr ⟨e.1, rfl, he⟩⟩

end ResolvedEntityPathFilter

-- ---------------------------------------------------------------------------
-- Telling filters apart
-- ---------------------------------------------------------------------------

theorem exists_fresh_part (paths : List EntityPath) : ∃ part, ∀ path ∈ paths, part ∉ path := by
  obtain ⟨chars, h⟩ := Infinite.exists_notMem_finset (paths.flatten.map String.toList).toFinset
  refine ⟨String.ofList chars, fun path hp hm => h ?_⟩
  rw [List.mem_toFinset, List.mem_map]
  exact ⟨_, List.mem_flatten.mpr ⟨path, hp, hm⟩, String.toList_ofList⟩

/-- For every target some path is matched by nothing that is more specific. -/
theorem RuleTarget.exists_probe (t : RuleTarget) (targets : List RuleTarget) :
    ∃ path, t.isMatch path ∧
      ∀ u ∈ targets, u.isMatch path → u.specificity ≤ t.specificity := by
  obtain ⟨path, subtree⟩ := t
  cases subtree with
  | false =>
    refine ⟨path, rfl, fun u _ hu => ?_⟩
    rw [specificity, specificity, Prod.Lex.toLex_le_toLex]
    rcases Nat.lt_or_eq_of_le hu.isPrefix.length_le with h | h
    · exact .inl h
    · exact .inr ⟨h, Bool.le_true _⟩
  | true =>
    obtain ⟨part, hpart⟩ := exists_fresh_part (targets.map Prod.fst)
    refine ⟨path ++ [part], List.prefix_append path [part], fun u hu hum => ?_⟩
    have hne : u.1 ≠ path ++ [part] := by
      intro he
      exact hpart u.1 (List.mem_map_of_mem hu) (he ▸ List.mem_append_right path (by simp))
    have hpre : u.1 <+: path := (List.prefix_concat_iff.mp hum.isPrefix).resolve_left hne
    rw [specificity, specificity, Prod.Lex.toLex_le_toLex]
    rcases Nat.lt_or_eq_of_le hpre.length_le with h | h
    · exact .inl h
    · refine .inr ⟨h, ?_⟩
      unfold isMatch at hum
      split at hum
      · rename_i hsub
        rw [hsub]
      · exact (hne hum.symm).elim

theorem includes_probe {effects : RuleTarget → Option RuleEffect} {t : RuleTarget}
    {path : EntityPath} (ht : (effects t).isSome) (hm : t.isMatch path)
    (hmax : ∀ u, (effects u).isSome → u.isMatch path → u.specificity ≤ t.specificity) :
    Includes effects path ↔ effects t = some .include := by
  refine ⟨?_, fun h => ⟨t, h, hm, hmax⟩⟩
  rintro ⟨u, hu, hum, humax⟩
  have heq := le_antisymm (humax t ht hm) (hmax u (hu ▸ rfl) hum)
  exact RuleTarget.eq_of_specificity hm hum heq ▸ hu

theorem forall_includes_iff {effects effects' : RuleTarget → Option RuleEffect}
    {targets : List RuleTarget} (hsome : ∀ t, (effects t).isSome = (effects' t).isSome)
    (htargets : ∀ t, (effects t).isSome → t ∈ targets) :
    (∀ path, Includes effects path ↔ Includes effects' path) ↔ ∀ t, effects t = effects' t := by
  constructor
  · intro h t
    cases ht : effects t with
    | none =>
      have := hsome t
      rw [ht] at this
      exact (Option.isNone_iff_eq_none.mp (by simpa using this.symm)).symm
    | some effect =>
      have hs : (effects t).isSome := ht ▸ rfl
      obtain ⟨path, hm, hmax⟩ := t.exists_probe targets
      have h1 := @includes_probe effects t path hs hm fun u hu => hmax u (htargets u hu)
      have h2 := @includes_probe effects' t path (hsome t ▸ hs) hm fun u hu =>
        hmax u (htargets u ((hsome u).trans hu))
      obtain ⟨effect', ht'⟩ := Option.isSome_iff_exists.mp (hsome t ▸ hs)
      have hiff := h1.symm.trans ((h path).trans h2)
      rw [ht, ht'] at hiff
      rw [ht']
      cases effect <;> cases effect' <;> simp_all
  · intro h path
    rw [funext h]

-- ---------------------------------------------------------------------------
-- The documented meaning
-- ---------------------------------------------------------------------------

def propertiesTarget : RuleTarget := (EntityPath.properties, true)

namespace EntityPathFilter

def textualRules (text : String) : List (EntityPathRule × RuleEffect) :=
  (splitWhitespaceSmart text.toList).filterMap ruleOf

def resolvedRules (substEnv : EntityPathSubs) (rules : List (EntityPathRule × RuleEffect)) :
    List (ResolvedEntityPathRule × RuleEffect) :=
  rules.map fun (rule, effect) => (ResolvedEntityPathRule.parseForgiving rule substEnv, effect)

/-- The resolved rules in the order of the text, with the rule that is implied. -/
def documentedRules (table : CharTable) (substEnv : EntityPathSubs)
    (rules : List (EntityPathRule × RuleEffect)) : List (ResolvedEntityPathRule × RuleEffect) :=
  let resolved := resolvedRules substEnv rules
  if ∃ e ∈ resolved, e.1.target = propertiesTarget then resolved
  else resolved ++ [(.includingSubtree table .properties, .exclude)]

/-- Of the rules that match the path, the most specific one is an inclusion, and of equally
specific ones the last. -/
def DocumentedIncludes (rules : List (ResolvedEntityPathRule × RuleEffect))
    (path : EntityPath) : Prop :=
  ∃ i rule, rules[i]? = some (rule, .include) ∧ rule.isMatch path ∧
    ∀ (j : Nat) other effect, rules[j]? = some (other, effect) → other.isMatch path →
      RuleTarget.specificity other.target < RuleTarget.specificity rule.target ∨
      RuleTarget.specificity other.target = RuleTarget.specificity rule.target ∧ j ≤ i

def lastEffect (rules : List (ResolvedEntityPathRule × RuleEffect)) (t : RuleTarget) :
    Option RuleEffect :=
  (rules.reverse.find? (·.1.target = t)).map Prod.snd

theorem lastEffect_eq_some_iff {rules : List (ResolvedEntityPathRule × RuleEffect)}
    {t : RuleTarget} {effect : RuleEffect} :
    lastEffect rules t = some effect ↔
      ∃ i rule, IsLast (fun e => e.1.target = t) rules i (rule, effect) := by
  simp only [lastEffect, Option.map_eq_some_iff, find?_reverse_eq_some_iff, decide_eq_true_eq]
  constructor
  · rintro ⟨⟨rule, _⟩, ⟨i, h⟩, rfl⟩
    exact ⟨i, rule, h⟩
  · rintro ⟨i, rule, h⟩
    exact ⟨(rule, effect), ⟨i, h⟩, rfl⟩

theorem documentedIncludes_iff {rules : List (ResolvedEntityPathRule × RuleEffect)}
    {path : EntityPath} : DocumentedIncludes rules path ↔ Includes (lastEffect rules) path := by
  constructor
  · rintro ⟨i, rule, hi, hm, hlast⟩
    rw [ResolvedEntityPathRule.isMatch_iff] at hm
    refine ⟨rule.target, lastEffect_eq_some_iff.mpr ⟨i, rule, hi, rfl, ?_⟩, hm, ?_⟩
    · rintro j ⟨other, effect⟩ hj ht
      have hmo := ResolvedEntityPathRule.isMatch_iff.mpr (ht.symm ▸ hm)
      refine ((hlast j other effect hj hmo).resolve_left ?_).2
      rw [ht]
      exact lt_irrefl _
    · intro u hu hum
      obtain ⟨effect, he⟩ := Option.isSome_iff_exists.mp hu
      obtain ⟨j, other, hj⟩ := lastEffect_eq_some_iff.mp he
      have hmo := ResolvedEntityPathRule.isMatch_iff.mpr (hj.holds.symm ▸ hum)
      rw [← hj.holds]
      exact (hlast j other effect hj.found hmo).elim le_of_lt fun h => h.1.le
  · rintro ⟨t, ht, hm, hmax⟩
    obtain ⟨i, rule, hi⟩ := lastEffect_eq_some_iff.mp ht
    obtain rfl := hi.holds
    refine ⟨i, rule, hi.found, ResolvedEntityPathRule.isMatch_iff.mpr hm, ?_⟩
    intro j other effect hj hmo
    rw [ResolvedEntityPathRule.isMatch_iff] at hmo
    have hsome : (lastEffect rules other.target).isSome := by
      obtain ⟨k, e, hk⟩ := exists_isLast (p := fun e => e.1.target = other.target)
        ⟨_, List.mem_of_getElem? hj, rfl⟩
      exact Option.isSome_iff_exists.mpr ⟨e.2, lastEffect_eq_some_iff.mpr ⟨k, e.1, hk⟩⟩
    refine (lt_or_eq_of_le (hmax _ hsome hmo)).imp_right fun h => ⟨h, ?_⟩
    exact hi.last j _ hj (RuleTarget.eq_of_specificity hmo hm h)

-- ---------------------------------------------------------------------------
-- The rules as the code keeps them
-- ---------------------------------------------------------------------------

def targetOf (substEnv : EntityPathSubs) (rule : EntityPathRule) : RuleTarget :=
  (ResolvedEntityPathRule.parseForgiving rule substEnv).target

structure LastSpelled (substEnv : EntityPathSubs) (rules : List (EntityPathRule × RuleEffect))
    (t : RuleTarget) (i : Nat) (e : EntityPathRule × RuleEffect) : Prop where
  target : targetOf substEnv e.1 = t
  last : IsLast (·.1 = e.1) rules i e
  greatest : ∀ other ∈ rules, targetOf substEnv other.1 = t → compare other.1 e.1 ≠ .gt

/-- However a target is spelled, the last of its rules and the last one with the
alphabetically greatest spelling have the same effect. -/
def SpellingsAgree (substEnv : EntityPathSubs) (rules : List (EntityPathRule × RuleEffect)) :
    Prop :=
  ∀ t i j a b, IsLast (fun e => targetOf substEnv e.1 = t) rules i a →
    LastSpelled substEnv rules t j b → a.2 = b.2

variable {substEnv : EntityPathSubs} {rules : List (EntityPathRule × RuleEffect)} {t : RuleTarget}

/-- The map of raw rules, read in its order, holds the last rule of every spelling. -/
theorem mem_toList_insertEntries {e : EntityPathRule × RuleEffect} :
    e ∈ (insertEntries rules : TreeMap EntityPathRule RuleEffect).toList ↔
      ∃ i, IsLast (·.1 = e.1) rules i e := by
  obtain ⟨rule, effect⟩ := e
  rw [TreeMap.mem_toList_iff_getElem?_eq_some, getElem?_insertEntries]
  simp only [LawfulEqCmp.compare_eq_iff_eq]
  constructor
  · rintro ⟨i, rule', h⟩
    obtain rfl := h.holds
    exact ⟨i, h⟩
  · rintro ⟨i, h⟩
    exact ⟨i, rule, h⟩

theorem lastSpelled_iff {e : EntityPathRule × RuleEffect} :
    (∃ i, LastSpelled substEnv rules t i e) ↔ ∃ i, IsLast (targetOf substEnv ·.1 = t)
      (insertEntries rules : TreeMap EntityPathRule RuleEffect).toList i e := by
  simp only [isLast_toList, mem_toList_insertEntries]
  constructor
  · rintro ⟨i, h⟩
    exact ⟨⟨i, h.last⟩, h.target, fun e' ⟨j, hj⟩ ht => h.greatest e' hj.mem ht⟩
  · rintro ⟨⟨i, hi⟩, ht, hmax⟩
    refine ⟨i, ht, hi, fun other hmem hto => ?_⟩
    obtain ⟨j, last, hj⟩ := exists_isLast (p := fun e => e.1 = other.1) ⟨other, hmem, rfl⟩
    have hle := hmax last ⟨j, hj.holds.symm ▸ hj⟩ (hj.holds ▸ hto)
    rwa [hj.holds] at hle

theorem exists_lastSpelled (h : ∃ e ∈ rules, targetOf substEnv e.1 = t) :
    ∃ i e, LastSpelled substEnv rules t i e := by
  obtain ⟨e, he, ht⟩ := h
  obtain ⟨i, last, hi⟩ := exists_isLast (p := fun e' => e'.1 = e.1) ⟨e, he, rfl⟩
  obtain ⟨j, a, hj⟩ := exists_isLast (p := fun e => targetOf substEnv e.1 = t)
    ⟨last, mem_toList_insertEntries.mpr ⟨i, hi.holds.symm ▸ hi⟩, hi.holds ▸ ht⟩
  obtain ⟨k, hk⟩ := lastSpelled_iff.mpr ⟨j, hj⟩
  exact ⟨k, a, hk⟩

theorem target_properties (table : CharTable) :
    (ResolvedEntityPathRule.includingSubtree table .properties).target = propertiesTarget := by
  refine Prod.ext rfl (List.isSuffixOf_iff_suffix.mpr ?_)
  rw [ResolvedEntityPathRule.includingSubtree, EntityPathRule.includingEntitySubtree,
    EntityPathRule.includingSubtree, String.toList_append]
  exact List.suffix_append _ _

def Unmentioned (substEnv : EntityPathSubs) (rules : List (EntityPathRule × RuleEffect))
    (t : RuleTarget) : Prop :=
  ∀ e ∈ rules, targetOf substEnv e.1 ≠ t

theorem LastSpelled.mem {i : Nat} {e : EntityPathRule × RuleEffect}
    (h : LastSpelled substEnv rules t i e) : e ∈ rules := h.last.mem

theorem LastSpelled.self {i : Nat} {e : EntityPathRule × RuleEffect}
    (h : LastSpelled substEnv rules t i e) :
    LastSpelled substEnv rules (ResolvedEntityPathRule.parseForgiving e.1 substEnv).target i e := by
  rw [show (ResolvedEntityPathRule.parseForgiving e.1 substEnv).target = t from h.target]
  exact h

/-- The rules that a filter resolves to: the last spelling of every target, and the implied
rule. -/
theorem mem_resolveForgiving (table : CharTable) (natural : NaturalOrder)
    {e : ResolvedEntityPathRule × RuleEffect} :
    e ∈ (resolveForgiving table natural ⟨insertEntries rules⟩ substEnv).rules.toList ↔
      (∃ i r, LastSpelled substEnv rules e.1.target i r ∧
        (ResolvedEntityPathRule.parseForgiving r.1 substEnv, r.2) = e) ∨
      (Unmentioned substEnv rules propertiesTarget ∧
        e = (.includingSubtree table .properties, .exclude)) := by
  let m : TreeMap ResolvedEntityPathRule RuleEffect (ResolvedEntityPathRule.cmp natural) :=
    insertEntries (resolvedRules substEnv (insertEntries rules :
      TreeMap EntityPathRule RuleEffect).toList)
  have hm : ∀ {e}, e ∈ m.toList ↔ ∃ i r, LastSpelled substEnv rules e.1.target i r ∧
      (ResolvedEntityPathRule.parseForgiving r.1 substEnv, r.2) = e := by
    intro e
    simp only [m, mem_insertEntries, resolvedRules, IsLast.map, ResolvedEntityPathRule.cmp_eq_iff]
    constructor
    · rintro ⟨i, r, he, h⟩
      obtain ⟨j, hj⟩ := lastSpelled_iff.mpr ⟨i, h⟩
      exact ⟨j, r, hj, he⟩
    · rintro ⟨i, r, h, he⟩
      obtain ⟨j, hj⟩ := lastSpelled_iff.mp ⟨i, h⟩
      exact ⟨j, r, he, hj⟩
  have hproperties : ResolvedEntityPathRule.includingSubtree table .properties ∉ m ↔
      Unmentioned substEnv rules propertiesTarget := by
    rw [not_iff_comm, TreeMap.mem_iff_isSome_getElem?, Option.isSome_iff_exists]
    simp only [TreeMap.getElem?_eq_some_iff_exists_compare_eq_eq_and_mem_toList,
      ResolvedEntityPathRule.cmp_eq_iff, target_properties, hm, Unmentioned, not_forall, not_not]
    constructor
    · rintro ⟨e, he, ht⟩
      obtain ⟨i, r, hr⟩ := exists_lastSpelled ⟨e, he, ht⟩
      exact ⟨r.2, _, hr.target.symm, i, r, hr.self, rfl⟩
    · rintro ⟨effect, rule, ht, i, r, hr, he⟩
      exact ⟨r, hr.mem, hr.target.trans ht.symm⟩
  change e ∈ (m.insertIfNew _ _).toList ↔ _
  rw [mem_insertIfNew, hm, hproperties]

theorem effects_insertEntries (table : CharTable) (natural : NaturalOrder)
    {effect : RuleEffect} :
    (resolveForgiving table natural ⟨insertEntries rules⟩ substEnv).effects t = some effect ↔
      (∃ i e, LastSpelled substEnv rules t i e ∧ e.2 = effect) ∨
      (Unmentioned substEnv rules t ∧ t = propertiesTarget ∧ .exclude = effect) := by
  rw [ResolvedEntityPathFilter.effects_eq_some_iff]
  simp only [mem_resolveForgiving]
  constructor
  · rintro ⟨rule, rfl, ⟨i, r, hr, he⟩ | ⟨hnone, he⟩⟩
    · exact .inl ⟨i, r, hr, congrArg Prod.snd he⟩
    · obtain ⟨rfl, rfl⟩ := Prod.mk.inj he
      rw [target_properties]
      exact .inr ⟨hnone, rfl, rfl⟩
  · rintro (⟨i, r, hr, rfl⟩ | ⟨hnone, rfl, rfl⟩)
    · exact ⟨_, hr.target, .inl ⟨i, r, hr.self, rfl⟩⟩
    · exact ⟨_, target_properties table, .inr ⟨hnone, rfl⟩⟩

theorem effects_resolveForgiving (table : CharTable) (natural : NaturalOrder) (text : String)
    {effect : RuleEffect} :
    ((parseForgiving text).resolveForgiving table natural substEnv).effects t = some effect ↔
      (∃ i e, LastSpelled substEnv (textualRules text) t i e ∧ e.2 = effect) ∨
      (Unmentioned substEnv (textualRules text) t ∧ t = propertiesTarget ∧
        .exclude = effect) :=
  effects_insertEntries table natural

theorem lastEffect_resolvedRules {effect : RuleEffect} :
    lastEffect (resolvedRules substEnv rules) t = some effect ↔
      ∃ i e, IsLast (fun e => targetOf substEnv e.1 = t) rules i e ∧ e.2 = effect := by
  rw [lastEffect_eq_some_iff]
  simp only [resolvedRules, IsLast.map, Prod.mk.injEq]
  constructor
  · rintro ⟨i, rule, e, ⟨-, he⟩, h⟩
    exact ⟨i, e, h, he⟩
  · rintro ⟨i, e, h, he⟩
    exact ⟨i, _, e, ⟨rfl, he⟩, h⟩

theorem lastEffect_concat {rules : List (ResolvedEntityPathRule × RuleEffect)}
    (e : ResolvedEntityPathRule × RuleEffect) (t : RuleTarget) :
    lastEffect (rules ++ [e]) t = if e.1.target = t then some e.2 else lastEffect rules t := by
  simp only [lastEffect, List.reverse_append, List.reverse_singleton, List.singleton_append,
    List.find?_cons]
  by_cases h : e.1.target = t <;> simp [h]

theorem lastEffect_documentedRules (table : CharTable) {effect : RuleEffect} :
    lastEffect (documentedRules table substEnv rules) t = some effect ↔
      (∃ i e, IsLast (fun e => targetOf substEnv e.1 = t) rules i e ∧ e.2 = effect) ∨
      (Unmentioned substEnv rules t ∧ t = propertiesTarget ∧ .exclude = effect) := by
  have hmention : (∃ e ∈ resolvedRules substEnv rules, e.1.target = propertiesTarget) ↔
      ¬ Unmentioned substEnv rules propertiesTarget := by
    simp only [resolvedRules, List.mem_map, Unmentioned, not_forall, not_not]
    constructor
    · rintro ⟨_, ⟨e, he, rfl⟩, ht⟩
      exact ⟨e, he, ht⟩
    · rintro ⟨e, he, ht⟩
      exact ⟨_, ⟨e, he, rfl⟩, ht⟩
  have hnot : Unmentioned substEnv rules t →
      ¬ ∃ i e, IsLast (fun e => targetOf substEnv e.1 = t) rules i e ∧ e.2 = effect :=
    fun hnone ⟨_, e, h, _⟩ => hnone e h.mem h.holds
  rw [documentedRules]
  split
  · rename_i hmen
    rw [lastEffect_resolvedRules]
    exact ⟨.inl, fun h => h.resolve_right fun h => hmention.mp hmen (h.2.1 ▸ h.1)⟩
  · rename_i hmen
    rw [hmention, not_not] at hmen
    rw [lastEffect_concat, target_properties, ← lastEffect_resolvedRules]
    by_cases ht : propertiesTarget = t
    · subst ht
      rw [← lastEffect_resolvedRules] at hnot
      rw [if_pos rfl, Option.some.injEq]
      exact ⟨fun h => .inr ⟨hmen, rfl, h⟩, fun h => (h.resolve_left (hnot hmen)).2.2⟩
    · rw [if_neg ht]
      exact ⟨.inl, fun h => h.resolve_right fun h => ht h.2.1.symm⟩

theorem isSome_iff {effects : Option RuleEffect} {p : RuleEffect → Prop}
    (h : ∀ {effect}, effects = some effect ↔
      p effect ∨ (Unmentioned substEnv rules t ∧ t = propertiesTarget ∧ .exclude = effect))
    (hp : ∀ effect, p effect → ¬ Unmentioned substEnv rules t)
    (hex : ¬ Unmentioned substEnv rules t → ∃ effect, p effect) :
    effects.isSome ↔ ¬ Unmentioned substEnv rules t ∨ t = propertiesTarget := by
  rw [Option.isSome_iff_exists]
  constructor
  · rintro ⟨effect, he⟩
    exact (h.mp he).imp (hp effect) fun h => h.2.1
  · intro hor
    by_cases hun : Unmentioned substEnv rules t
    · exact ⟨.exclude, h.mpr (.inr ⟨hun, hor.resolve_left (not_not.mpr hun), rfl⟩)⟩
    · exact (hex hun).imp fun effect he => h.mpr (.inl he)

/-- The code includes the documented paths exactly if the spellings of its rules agree. -/
theorem isMatch_iff_documented (table : CharTable) (natural : NaturalOrder)
    (substEnv : EntityPathSubs) (text : String) :
    (∀ path, ((parseForgiving text).resolveForgiving table natural substEnv).isMatch path = true ↔
      DocumentedIncludes (documentedRules table substEnv (textualRules text)) path) ↔
      SpellingsAgree substEnv (textualRules text) := by
  generalize hrules : textualRules text = rules
  have hcode : ∀ {t effect}, _ := fun {t effect} =>
    @effects_resolveForgiving substEnv t table natural text effect
  rw [hrules] at hcode
  have hdoc := fun {t effect} => @lastEffect_documentedRules substEnv rules t table effect
  have hmem : ∀ {t}, ¬ Unmentioned substEnv rules t ↔
      ∃ e ∈ rules, targetOf substEnv e.1 = t := by
    simp [Unmentioned]
  have hsome : ∀ t, (((parseForgiving text).resolveForgiving table natural substEnv).effects
      t).isSome ↔ ¬ Unmentioned substEnv rules t ∨ t = propertiesTarget := fun t => by
    refine isSome_iff hcode (fun _ ⟨_, e, h, _⟩ hun => hun e h.mem h.target) fun hun => ?_
    obtain ⟨i, e, h⟩ := exists_lastSpelled (hmem.mp hun)
    exact ⟨e.2, i, e, h, rfl⟩
  have hsome' : ∀ t, (lastEffect (documentedRules table substEnv rules) t).isSome ↔
      ¬ Unmentioned substEnv rules t ∨ t = propertiesTarget := fun t => by
    refine isSome_iff hdoc (fun _ ⟨_, e, h, _⟩ hun => hun e h.mem h.holds) fun hun => ?_
    obtain ⟨i, e, h⟩ := exists_isLast (hmem.mp hun)
    exact ⟨e.2, i, e, h, rfl⟩
  simp only [ResolvedEntityPathFilter.isMatch_iff, documentedIncludes_iff]
  rw [@forall_includes_iff _ _ (propertiesTarget :: rules.map (targetOf substEnv ·.1))
    (fun t => Bool.eq_iff_iff.mpr ((hsome t).trans (hsome' t).symm))]
  · constructor
    · intro h t i j a b ha hb
      have hb' := hcode.mpr (.inl ⟨j, b, hb, rfl⟩)
      rw [h t, hdoc.mpr (.inl ⟨i, a, ha, rfl⟩)] at hb'
      exact Option.some.inj hb'
    · intro hagree t
      by_cases hun : Unmentioned substEnv rules t
      · refine Option.ext fun effect => hcode.trans (Iff.trans (or_congr_left ?_) hdoc.symm)
        exact iff_of_false (fun ⟨_, e, h, _⟩ => hun e h.mem h.target)
          fun ⟨_, e, h, _⟩ => hun e h.mem h.holds
      · obtain ⟨i, a, ha⟩ := exists_isLast (hmem.mp hun)
        obtain ⟨j, b, hb⟩ := exists_lastSpelled (hmem.mp hun)
        rw [hcode.mpr (.inl ⟨j, b, hb, rfl⟩), hdoc.mpr (.inl ⟨i, a, ha, rfl⟩),
          hagree t i j a b ha hb]
  · intro t ht
    rcases (hsome t).mp ht with hun | rfl
    · obtain ⟨e, he, rfl⟩ := hmem.mp hun
      exact List.mem_cons_of_mem _ (List.mem_map_of_mem he)
    · exact List.mem_cons_self

/-- Both rules are about the same path, but the one that is spelled without the slash is
the last one in the alphabet. -/
theorem respelled_not_documented :
    ((parseForgiving "- world\n+ /world").resolveForgiving .asciiOnly .alphabetical
      .empty).isMatch ["world"] = false ∧
    DocumentedIncludes (documentedRules .asciiOnly .empty (textualRules "- world\n+ /world"))
      ["world"] := by
  refine ⟨by decide +kernel, 1, ⟨"/world", ["world"]⟩, by decide +kernel, by decide +kernel, ?_⟩
  have hrules : documentedRules .asciiOnly .empty (textualRules "- world\n+ /world") =
      [(⟨"world", ["world"]⟩, .exclude), (⟨"/world", ["world"]⟩, .include),
        (⟨"/__properties/**", ["__properties"]⟩, .exclude)] := by decide +kernel
  rw [hrules]
  rintro (_ | _ | _ | j) other effect hj hm
  · cases hj
    exact .inr ⟨by decide, by decide⟩
  · cases hj
    exact .inr ⟨rfl, le_rfl⟩
  · cases hj
    revert hm
    decide
  · cases hj

end EntityPathFilter

end DimosViewer
