import DimosViewer.Datafusion.ComparisonLaws
import DimosViewer.Datafusion.PushdownLaws
import DimosViewer.MapM

/-!
# When a filter may be pushed down

A filter stands for alternatives: one way through its disjunctions, with one base request for
every comparison on the way. Pushing it down merges what an alternative consists of, and where
one merge fails there is an error for the whole filter.
-/

namespace DimosViewer.Datafusion

-- ---------------------------------------------------------------------------
-- Merging
-- ---------------------------------------------------------------------------

structure Merges (requests : List QueryDatasetRequest) (request : QueryDatasetRequest) : Prop where
  listed (sid : String) : Listed request.segmentIds sid ↔ ∀ r ∈ requests, Listed r.segmentIds sid
  time : TimePart.Sums (requests.map (·.timePart)) request.timePart

/-- Two lists of merged requests may be merged further: they leave a segment, the time parts of
the one meet those of the other, and all are of one index, unless there is a specific time. -/
structure Mergeable (left right : List QueryDatasetRequest) : Prop where
  segment : ∃ sid, ∀ r ∈ left ++ right, Listed r.segmentIds sid
  meets : ∀ p ∈ left, ∀ q ∈ right, p.timePart.Meets q.timePart
  sameIndex : (∀ r ∈ left ++ right, ¬ r.timePart.IsAt) →
    ∀ p ∈ left, ∀ q ∈ right, p.timePart.SameIndex q.timePart

def Passes (requests : List QueryDatasetRequest) (row : Row) : Prop :=
  (∀ r ∈ requests, Listed r.segmentIds row.segmentId) ∧
    ((∃ r ∈ requests, r.timePart.IsAt) ∨ ∀ r ∈ requests, r.timePart.Admits row)

/-- Nothing is left by all of the requests: no segment, or of some index no time. -/
def Clash (requests : List QueryDatasetRequest) : Prop :=
  (¬ ∃ sid, ∀ r ∈ requests, Listed r.segmentIds sid) ∨
    ∃ p ∈ requests, ∃ q ∈ requests, ∃ a b, p.timePart = .range a ∧ q.timePart = .range b ∧
      a.index = b.index ∧ ¬ a.indexRange.intersects b.indexRange

namespace Merges

variable {x y : List QueryDatasetRequest} {left right request : QueryDatasetRequest}

theorem singleton (request : QueryDatasetRequest) : Merges [request] request :=
  ⟨fun sid => by simp, TimePart.sums_singleton _⟩

theorem append (hx : Merges x left) (hy : Merges y right)
    (h : mergeQueriesAnd left right = .ok request) : Merges (x ++ y) request := by
  obtain ⟨hlisted, hmerge⟩ := QueryDatasetRequest.merge_spec h
  refine ⟨fun sid => ?_, ?_⟩
  · rw [hlisted, hx.listed, hy.listed, List.forall_mem_append]
  · rw [List.map_append]
    exact hx.time.append hy.time hmerge

theorem admits_iff (hx : Merges x request) : request.Admits row ↔ Passes x row := by
  rw [QueryDatasetRequest.admits_iff, hx.listed]
  refine and_congr_right fun _ => ?_
  have hat := hx.time.isAt
  have hadmits (h) := (hx.time.admits row h).trans List.forall_mem_map
  simp only [List.mem_map, exists_exists_and_eq_and] at hat
  by_cases hm : request.timePart.IsAt
  · exact iff_of_true (hm.admits row) (.inl (hat.mp hm))
  · rw [or_iff_right (hat.not.mp hm), hadmits hm]

theorem exists_listed (ids : List String) : ∃ sid, Listed ids sid := by
  cases ids with
  | nil => exact ⟨"", .inl rfl⟩
  | cons id ids => exact ⟨id, .inr List.mem_cons_self⟩

theorem mergeable_iff (hx : Merges x left) (hy : Merges y right) :
    (∃ request, mergeQueriesAnd left right = .ok request) ↔ Mergeable x y := by
  have hmeets := hx.time.meets_sums hy.time
  have hindex := hx.time.sameIndex_sums hy.time
  simp only [List.forall_mem_map, ← List.map_append] at hmeets hindex
  constructor
  · rintro ⟨request, h⟩
    obtain ⟨hlisted, hmerge⟩ := QueryDatasetRequest.merge_spec h
    obtain ⟨sid, hsid⟩ := exists_listed request.segmentIds
    refine ⟨⟨sid, ?_⟩, hmeets.mp hmerge.meets.1, hindex.mp hmerge.meets.2⟩
    exact ((hx.append hy h).listed sid).mp hsid
  · rintro ⟨⟨sid, hsid⟩, hm, hi⟩
    obtain ⟨hl, hr⟩ := List.forall_mem_append.mp hsid
    exact QueryDatasetRequest.merge_ok ((hx.listed sid).mpr hl) ((hy.listed sid).mpr hr)
      (hmeets.mpr hm) (hindex.mpr hi)

end Merges

theorem Clash.not_admits (h : Clash requests) (row : Row) :
    ¬ ∀ r ∈ requests, r.Admits row := by
  intro hall
  simp only [QueryDatasetRequest.admits_iff] at hall
  obtain hsegment | ⟨p, hp, q, hq, a, b, ha, hb, hindex, hdisjoint⟩ := h
  · exact hsegment ⟨row.segmentId, fun r hr => (hall r hr).1⟩
  · have hpa := (hall p hp).2
    have hqb := (hall q hq).2
    rw [ha] at hpa
    rw [hb] at hqb
    obtain ⟨t, ht, hin⟩ := hpa
    obtain ⟨t', ht', hin'⟩ := hqb
    rw [hindex, ht'] at ht
    cases ht
    exact hdisjoint (AbsoluteTimeRange.intersects_of_contains hin hin')

-- ---------------------------------------------------------------------------
-- Plans
-- ---------------------------------------------------------------------------

instance (value : ScalarValue) : Decidable value.NoOverflow := by
  unfold ScalarValue.NoOverflow
  split <;> infer_instance

/-- What is merged for a filter that is pushed down, whether this succeeds, and whether what is
merged has the meaning of the filter. The ways are the alternatives as the filter means them. -/
structure Plan where
  alternatives : Option (List (List QueryDatasetRequest))
  ways : Option (List (List QueryDatasetRequest))
  possible : Prop
  faithful : Prop

namespace Plan

def ignored : Plan := ⟨none, none, True, True⟩

def cross : Option (List (List QueryDatasetRequest)) → Option (List (List QueryDatasetRequest)) →
    Option (List (List QueryDatasetRequest))
  | none, other | other, none => other
  | some a, some b => some (a.flatMap fun x => b.map fun y => x ++ y)

section Queries

variable (schema : List Field) (queries : List QueryDatasetRequest)

def base : List (List QueryDatasetRequest) := queries.map fun request => [request]

/-- If one side is not pushed down, neither is the other. -/
def join : Option (List (List QueryDatasetRequest)) → Option (List (List QueryDatasetRequest)) →
    Option (List (List QueryDatasetRequest))
  | some a, some b => some (a ++ b)
  | _, _ => some (base queries)

/-- A comparison with the segment id replaces the segments of a request. -/
def known (literal : Expr) (column : KnownFilterColumn) (op : Operator) : Plan :=
  match column with
  | .index indexName time =>
    match comparisonQuery indexName time op with
    | .ok query =>
      let pairs := queries.map fun request => [request, withQuery request query]
      let exact := (exprToLiteralScalar literal).all fun value => decide value.NoOverflow
      { alternatives := some pairs
        ways := if exact then some pairs else none
        possible := ∀ request ∈ queries, Mergeable [request] [withQuery request query]
        faithful := exact = true }
    | .error _ => ignored
  | .segmentId segmentId =>
    if op = .eq then {
      alternatives := some (queries.map fun request => [{ request with segmentIds := [segmentId] }])
      ways := some (queries.map fun request => [request, { segmentIds := [segmentId] }])
      possible := True
      faithful := ∀ request ∈ queries, Listed request.segmentIds segmentId }
    else ignored
  | .unknown => ignored

def comparison (left : Expr) (op : Operator) (right : Expr) : Plan :=
  let (left, op, right) := arrangeBinaryExprAsColOnLeft left op right
  match op with
  | .eq | .gt | .gtEq | .lt | .ltEq =>
    known queries right (knownFilterColumn schema left right) op
  | _ => ignored

def and (left right : Plan) : Plan where
  alternatives := cross left.alternatives right.alternatives
  ways := cross left.ways right.ways
  possible := left.possible ∧ right.possible ∧
    ∀ a ∈ left.alternatives, ∀ b ∈ right.alternatives, ∀ x ∈ a, ∀ y ∈ b, Mergeable x y
  faithful := left.faithful ∧ right.faithful

/-- The right side is looked at only if the left one is pushed down. -/
def or (left right : Plan) : Plan where
  alternatives := join queries left.alternatives right.alternatives
  ways := join queries left.ways right.ways
  possible := left.possible ∧ (left.alternatives.isSome → right.possible)
  faithful := left.alternatives.isSome → right.alternatives.isSome →
    left.faithful ∧ right.faithful

def inList (expr first : Expr) (rest : List Expr) : Plan :=
  rest.foldl (fun acc item => or queries (comparison schema queries expr .eq item) acc)
    (comparison schema queries expr .eq first)

end Queries

def Void (p : Plan) (queries : List QueryDatasetRequest) : Prop :=
  ∀ way ∈ p.ways.getD (base queries), Clash way

end Plan

/-- A negated list is pushed down as if it were not negated. -/
def plan (schema : List Field) (queries : List QueryDatasetRequest) : Expr → Plan
  | .alias expr _ => plan schema queries expr
  | .binaryExpr left op right =>
    let l := plan schema queries left
    let r := plan schema queries right
    match op with
    | .and => if left.isColumn then l.and r else r.and l
    | .or => if left.isColumn then .or queries l r else .or queries r l
    | _ => .comparison schema queries left op right
  | .between expr negated low high =>
    if negated then .ignored
    else (Plan.comparison schema queries expr .ltEq high).and
      (.comparison schema queries expr .gtEq low)
  | .inList expr (first :: rest) negated =>
    let p := Plan.inList schema queries expr first rest
    if negated then
      { p with
        ways := none
        faithful := p.faithful ∧ ∃ item ∈ first :: rest,
          (Plan.comparison schema queries expr .eq item).alternatives = none }
    else p
  | .inList _ [] negated =>
    { Plan.ignored with ways := if negated then none else some [], possible := False }
  | .column _ | .literal _ | .other _ => .ignored

-- ---------------------------------------------------------------------------
-- Results
-- ---------------------------------------------------------------------------

/-- The result is what the plan says, and it is an error just if something cannot be merged. -/
def Plan.Describes (p : Plan) : Pushed → Prop
  | .ok o => p.possible ∧ Option.Rel (List.Forall₂ Merges) p.alternatives o
  | .error _ => ¬ p.possible

theorem comparisonQuery_isComparison (hop : op.IsComparison) :
    ∃ query, comparisonQuery index time op = .ok query := by
  cases op <;> first
    | exact hop.elim
    | exact ⟨_, rfl⟩

theorem mapM_cases (f : α → Except ε β) (l : List α) :
    (∃ l', l.mapM f = .ok l' ∧ List.Forall₂ (fun a b => f a = .ok b) l l') ∨
      ∃ e, l.mapM f = .error e ∧ ∃ a ∈ l, ∀ b, f a ≠ .ok b := by
  cases h : l.mapM f with
  | ok l' => exact .inl ⟨l', rfl, forall₂_of_mapM h⟩
  | error e =>
    refine .inr ⟨e, rfl, by_contra fun hall => ?_⟩
    push Not at hall
    obtain ⟨l', hl', -⟩ := mapM_ok (p := fun _ _ => True) fun a ha =>
      (hall a ha).imp fun b hb => ⟨hb, trivial⟩
    cases h.symm.trans hl'

namespace Plan

variable {queries : List QueryDatasetRequest}

theorem Describes.alternatives_isSome {p : Plan} (h : p.Describes (.ok (some out))) :
    p.alternatives.isSome := by
  obtain ⟨alternatives, ways, possible, faithful⟩ := p
  obtain ⟨-, hrel⟩ := h
  cases hrel
  rfl

theorem describes_ignored : ignored.Describes (.ok none) := ⟨trivial, .none⟩

section Known

theorem known_index (h : comparisonQuery index time op = .ok query) (literal : Expr) :
    known queries literal (.index index time) op =
      let pairs := queries.map fun request => [request, withQuery request query]
      let exact := (exprToLiteralScalar literal).all fun value => decide value.NoOverflow
      { alternatives := some pairs
        ways := if exact then some pairs else none
        possible := ∀ request ∈ queries, Mergeable [request] [withQuery request query]
        faithful := exact = true } := by
  rw [known, h]

theorem describes_index (h : comparisonQuery index time op = .ok query) (literal : Expr) :
    (known queries literal (.index index time) op).Describes
      (applyKnown queries (.index index time) op) := by
  have hreplace := replaceTimeInQuery_eq h
  have hmergeable (request : QueryDatasetRequest) :=
    (Merges.singleton request).mergeable_iff (.singleton (withQuery request query))
  rw [known_index h, applyKnown]
  obtain ⟨out, hout, hall⟩ | ⟨e, he, request, hr, hfails⟩ :=
    mapM_cases (replaceTimeInQuery · index time op) queries
  · rw [hout]
    refine ⟨fun request hr => ?_, .some (List.forall₂_map_left_iff.mpr ?_)⟩
    · obtain ⟨replaced, -, hmerge⟩ := exists_right_of_forall₂ hall hr
      exact (hmergeable request).mp ⟨replaced, (hreplace request).symm.trans hmerge⟩
    · refine hall.imp fun request replaced hmerge => ?_
      exact (Merges.singleton request).append (.singleton (withQuery request query))
        ((hreplace request).symm.trans hmerge)
  · rw [he]
    intro hpossible
    obtain ⟨merged, hm⟩ := (hmergeable request).mpr (hpossible request hr)
    exact hfails merged ((hreplace request).trans hm)

theorem describes_segmentId (segmentId : String) (literal : Expr) :
    (known queries literal (.segmentId segmentId) .eq).Describes
      (applyKnown queries (.segmentId segmentId) .eq) := by
  refine ⟨trivial, .some ?_⟩
  refine List.forall₂_map_left_iff.mpr (List.forall₂_map_right_iff.mpr ?_)
  exact List.forall₂_same.mpr fun request _ => .singleton _

theorem describes_comparison (schema : List Field) (left : Expr) (op : Operator) (right : Expr) :
    (comparison schema queries left op right).Describes
      (applyComparison schema queries left op right) := by
  have hknown : ∀ (column literal : Expr) (op : Operator), op.IsComparison →
      (known queries literal (knownFilterColumn schema column literal) op).Describes
        (applyKnown queries (knownFilterColumn schema column literal) op) := by
    intro column literal op hop
    cases knownFilterColumn schema column literal with
    | unknown => exact describes_ignored
    | segmentId segmentId =>
      by_cases heq : op = .eq
      · subst heq
        exact describes_segmentId segmentId literal
      · rw [known, applyKnown, if_neg heq, if_neg heq]
        exact describes_ignored
    | index name time =>
      obtain ⟨query, hq⟩ := comparisonQuery_isComparison hop
      exact describes_index hq literal
  rw [comparison, applyComparison]
  obtain ⟨column, op, literal⟩ := arrangeBinaryExprAsColOnLeft left op right
  cases op <;> first
    | exact describes_ignored
    | exact hknown column literal _ trivial

end Known

-- ---------------------------------------------------------------------------
-- Conjunctions and disjunctions
-- ---------------------------------------------------------------------------

section Combined

variable {l r : Plan} {left right : Pushed}

def pairs (left right : List QueryDatasetRequest) :
    List (QueryDatasetRequest × QueryDatasetRequest) :=
  left.flatMap fun x => right.map fun y => (x, y)

theorem applyAnd_some (left right : List QueryDatasetRequest) :
    applyAnd (.ok (some left)) (.ok (some right)) =
      ((pairs left right).mapM fun p => mergeQueriesAnd p.1 p.2).map some := by
  rw [applyAnd]
  change ((pairs left right).mapM (fun p => mergeQueriesAnd p.1 p.2) >>= _) = _
  cases (pairs left right).mapM (fun p => mergeQueriesAnd p.1 p.2) <;> rfl

theorem mem_pairs {left right : List QueryDatasetRequest} :
    (x, y) ∈ pairs left right ↔ x ∈ left ∧ y ∈ right := by
  simp [pairs]

theorem forall₂_pairs {R S : List QueryDatasetRequest → QueryDatasetRequest → Prop}
    {a b : List (List QueryDatasetRequest)} {left right : List QueryDatasetRequest}
    (ha : List.Forall₂ R a left) (hb : List.Forall₂ S b right) :
    List.Forall₂ (fun z p => ∃ x ∈ a, ∃ y ∈ b, z = x ++ y ∧ R x p.1 ∧ S y p.2)
      (a.flatMap fun x => b.map fun y => x ++ y) (pairs left right) := by
  have ha := (List.forall₂_and_left _ _).mpr ⟨fun x hx => hx, ha⟩
  have hb := (List.forall₂_and_left _ _).mpr ⟨fun y hy => hy, hb⟩
  refine List.rel_flatMap ha fun x p ⟨hx, hr⟩ => ?_
  refine List.forall₂_map_left_iff.mpr (List.forall₂_map_right_iff.mpr ?_)
  exact hb.imp fun y q ⟨hy, hs⟩ => ⟨x, hx, y, hy, rfl, hr, hs⟩

theorem applyAnd_ok (h : applyAnd left right = .ok o) :
    ∃ a b, left = .ok a ∧ right = .ok b := by
  match left, right, h with
  | .error e, _, h => cases h
  | .ok a, .error e, h => cases h
  | .ok a, .ok b, _ => exact ⟨a, b, rfl, rfl⟩

theorem applyAnd_mapM {a b : List QueryDatasetRequest}
    (h : applyAnd (.ok (some a)) (.ok (some b)) = .ok o) :
    ∃ out, o = some out ∧ (pairs a b).mapM (fun p => mergeQueriesAnd p.1 p.2) = .ok out := by
  rw [applyAnd_some] at h
  cases hm : (pairs a b).mapM (fun p => mergeQueriesAnd p.1 p.2) with
  | error e =>
    rw [hm] at h
    cases h
  | ok out =>
    rw [hm] at h
    cases h
    exact ⟨out, rfl, rfl⟩

theorem describes_pairs {a b : List (List QueryDatasetRequest)}
    {out out' : List QueryDatasetRequest} {lways rways} {lp rp lf rf : Prop} (hlp : lp) (hrp : rp)
    (ha : List.Forall₂ Merges a out) (hb : List.Forall₂ Merges b out') :
    (Plan.and ⟨some a, lways, lp, lf⟩ ⟨some b, rways, rp, rf⟩).Describes
      (applyAnd (.ok (some out)) (.ok (some out'))) := by
  have hpairs := forall₂_pairs ha hb
  rw [applyAnd_some]
  obtain ⟨merged, hout, hall⟩ | ⟨e, he, ⟨x', y'⟩, hp, hfails⟩ :=
    mapM_cases (fun p => mergeQueriesAnd p.1 p.2) (pairs out out')
  · rw [hout]
    refine ⟨⟨hlp, hrp, fun a' ha' b' hb' x hx y hy => ?_⟩, .some ?_⟩
    · cases ha'
      cases hb'
      obtain ⟨x', hx', hmx⟩ := exists_right_of_forall₂ ha hx
      obtain ⟨y', hy', hmy⟩ := exists_right_of_forall₂ hb hy
      obtain ⟨request, -, hm⟩ := exists_right_of_forall₂ hall (mem_pairs.mpr ⟨hx', hy'⟩)
      exact (hmx.mergeable_iff hmy).mp ⟨request, hm⟩
    · refine (forall₂_comp hpairs hall).imp ?_
      rintro _ m ⟨p, ⟨x, -, y, -, rfl, hmx, hmy⟩, hm⟩
      exact hmx.append hmy hm
  · rw [he]
    rintro ⟨-, -, hmergeable⟩
    obtain ⟨hx', hy'⟩ := mem_pairs.mp hp
    obtain ⟨x, hx, hmx⟩ := exists_left_of_forall₂ ha hx'
    obtain ⟨y, hy, hmy⟩ := exists_left_of_forall₂ hb hy'
    obtain ⟨request, hm⟩ := (hmx.mergeable_iff hmy).mpr (hmergeable a rfl b rfl x hx y hy)
    exact hfails request hm

theorem Describes.and (hl : l.Describes left) (hr : r.Describes right) :
    (l.and r).Describes (applyAnd left right) := by
  match left, right with
  | .error e, _ => exact fun hp => hl hp.1
  | .ok a, .error e => exact fun hp => hr hp.2.1
  | .ok a, .ok b =>
    obtain ⟨la, lways, lp, lf⟩ := l
    obtain ⟨ra, rways, rp, rf⟩ := r
    obtain ⟨hlp, hla⟩ := hl
    obtain ⟨hrp, hrb⟩ := hr
    cases hla with
    | none =>
      cases hrb with
      | none => exact ⟨⟨hlp, hrp, nofun⟩, .none⟩
      | some hrb => exact ⟨⟨hlp, hrp, nofun⟩, .some hrb⟩
    | some hla =>
      cases hrb with
      | none => exact ⟨⟨hlp, hrp, fun _ _ => nofun⟩, .some hla⟩
      | some hrb => exact describes_pairs hlp hrp hla hrb

theorem applyOr_ok (h : applyOr queries left right = .ok o) :
    left = .ok none ∧ o = some queries ∨
      ∃ a, left = .ok (some a) ∧ (right = .ok none ∧ o = some queries ∨
        ∃ b, right = .ok (some b) ∧ o = some (a ++ b)) := by
  match left, right, h with
  | .error e, _, h => cases h
  | .ok none, _, h =>
    cases h
    exact .inl ⟨rfl, rfl⟩
  | .ok (some a), .error e, h => cases h
  | .ok (some a), .ok none, h =>
    cases h
    exact .inr ⟨a, rfl, .inl ⟨rfl, rfl⟩⟩
  | .ok (some a), .ok (some b), h =>
    cases h
    exact .inr ⟨a, rfl, .inr ⟨b, rfl, rfl⟩⟩

theorem merges_base : List.Forall₂ Merges (base queries) queries :=
  List.forall₂_map_left_iff.mpr (List.forall₂_same.mpr fun request _ => .singleton request)

theorem Describes.or (hl : l.Describes left) (hr : r.Describes right) :
    (Plan.or queries l r).Describes (applyOr queries left right) := by
  obtain ⟨la, lways, lp, lf⟩ := l
  obtain ⟨ra, rways, rp, rf⟩ := r
  match left, right with
  | .error e, _ => exact fun hp => hl hp.1
  | .ok none, right =>
    obtain ⟨hlp, hla⟩ := hl
    cases hla
    exact ⟨⟨hlp, nofun⟩, .some merges_base⟩
  | .ok (some a), .error e =>
    obtain ⟨-, hla⟩ := hl
    cases hla
    exact fun hp => hr (hp.2 rfl)
  | .ok (some a), .ok b =>
    obtain ⟨hlp, hla⟩ := hl
    obtain ⟨hrp, hrb⟩ := hr
    cases hla with
    | some hla =>
      cases hrb with
      | none => exact ⟨⟨hlp, fun _ => hrp⟩, .some merges_base⟩
      | some hrb => exact ⟨⟨hlp, fun _ => hrp⟩, .some (List.rel_append hla hrb)⟩

theorem describes_inList (schema : List Field) (expr first : Expr) (rest : List Expr) :
    (inList schema queries expr first rest).Describes
      (applyInList schema queries expr first rest) := by
  have hfold : ∀ (p : Plan) (result : Pushed), p.Describes result →
      (rest.foldl (fun acc item => or queries (comparison schema queries expr .eq item) acc)
        p).Describes (rest.foldl (fun acc item =>
          applyOr queries (applyComparison schema queries expr .eq item) acc) result) := by
    induction rest with
    | nil => exact fun _ _ h => h
    | cons item rest ih => exact fun p result h => ih _ _ ((describes_comparison ..).or h)
  exact hfold _ _ (describes_comparison ..)

theorem Describes.congr {p p' : Plan} (h : p.Describes result)
    (ha : p'.alternatives = p.alternatives) (hp : p'.possible = p.possible) :
    p'.Describes result := by
  match result, h with
  | .ok o, h => exact ⟨hp ▸ h.1, ha ▸ h.2⟩
  | .error e, h => exact fun hp' => h (hp ▸ hp')

end Combined

end Plan

theorem plan_comparison (hand : op = .and → False) (hor : op = .or → False) :
    plan schema queries (.binaryExpr left op right) =
      .comparison schema queries left op right := by
  cases op <;> first
    | exact absurd rfl hand
    | exact absurd rfl hor
    | rfl

theorem plan_describes (schema : List Field) (queries : List QueryDatasetRequest) (expr : Expr) :
    (plan schema queries expr).Describes (applyFilterExprToQueries schema queries expr) := by
  fun_induction applyFilterExprToQueries with
  | case1 expr name ih =>
    rw [plan]
    exact ih
  | case2 left right l r hcolumn ihl ihr =>
    rw [plan, if_pos hcolumn]
    exact ihl.and ihr
  | case3 left right l r hcolumn ihl ihr =>
    rw [plan, if_neg hcolumn]
    exact ihr.and ihl
  | case4 left right l r hcolumn ihl ihr =>
    rw [plan, if_pos hcolumn]
    exact ihl.or ihr
  | case5 left right l r hcolumn ihl ihr =>
    rw [plan, if_neg hcolumn]
    exact ihr.or ihl
  | case6 left op right hand hor =>
    rw [plan_comparison hand hor]
    exact Plan.describes_comparison ..
  | case7 =>
    rw [plan, if_pos rfl]
    exact Plan.describes_ignored
  | case8 =>
    rw [plan, if_neg ‹_›]
    exact (Plan.describes_comparison ..).and (Plan.describes_comparison ..)
  | case9 expr first rest negated =>
    rw [plan]
    split
    · exact (Plan.describes_inList ..).congr rfl rfl
    · exact Plan.describes_inList ..
  | case10 =>
    rw [plan]
    exact id
  | case11 | case12 | case13 =>
    rw [plan]
    exact Plan.describes_ignored

end DimosViewer.Datafusion
