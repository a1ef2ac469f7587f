import DimosViewer.Datafusion.PushdownPlan

/-!
# Filter pushdown and the answers of a query

A filter whose plan is faithful is pushed down without loss, if all that is merged can be
merged. Otherwise there is an error, which is right if no way through the filter leaves anything.
-/

namespace DimosViewer.Datafusion

-- ---------------------------------------------------------------------------
-- Comparisons
-- ---------------------------------------------------------------------------

def Compares (m : Meaning) (schema : List Field) (left : Expr) (op : Operator) (right : Expr)
    (row : Row) : Prop :=
  evalBinary m op (eval m schema row left) (eval m schema row right) = .bool true

structure Pushes (schema : List Field) (column : Expr) (op : Operator) (literal : Expr)
    (sat : Row → Prop) : Prop where
  index (name : String) (time : TimeInt) (query : Query) :
    knownFilterColumn schema column literal = .index name time →
    (∀ value, exprToLiteralScalar literal = some value → value.NoOverflow) →
    comparisonQuery name time op = .ok query → ∀ row, sat row → query.Admits row
  segment (sid : String) : knownFilterColumn schema column literal = .segmentId sid →
    op = .eq → ∀ row, sat row → row.segmentId = sid

theorem pushes_arranged {m : Meaning} {schema : List Field}
    (h : arrangeBinaryExprAsColOnLeft left op right = (column, op', literal))
    (hop : op'.IsComparison) :
    Pushes schema column op' literal (Compares m schema left op right) := by
  rw [arrangeBinaryExprAsColOnLeft] at h
  split at h <;> cases h
  · refine ⟨fun _ _ _ hk hno hq row hrow => (comparison_admits hk hno hop).1 hrow hq,
      fun sid hk heq row hrow => ?_⟩
    subst heq
    exact (comparison_segment hk).1 hrow
  · have hop' := swapOperator_isComparison.mp hop
    refine ⟨fun _ _ _ hk hno hq row hrow => (comparison_admits hk hno hop').2 hrow hq,
      fun sid hk heq row hrow => ?_⟩
    have heq : op = .eq := by
      cases op <;> first
        | rfl
        | cases heq
    subst heq
    exact (comparison_segment hk).2 hrow

theorem noOverflow_of_all {literal : Expr}
    (h : (exprToLiteralScalar literal).all fun value => decide value.NoOverflow) :
    ∀ value, exprToLiteralScalar literal = some value → value.NoOverflow := by
  intro value hv
  rw [hv] at h
  exact of_decide_eq_true h

-- ---------------------------------------------------------------------------
-- Results
-- ---------------------------------------------------------------------------

/-- What a result does with rows: it keeps those that are let through, and adds none. -/
structure Good (queries : List QueryDatasetRequest) (sat : Row → Prop) (result : Pushed) :
    Prop where
  complete {out : List QueryDatasetRequest} {row : Row} : result = .ok (some out) →
    Admitted queries row → sat row → Admitted out row
  sound {out : List QueryDatasetRequest} {row : Row} : result = .ok (some out) →
    Admitted out row → Admitted queries row

namespace Good

variable {schema : List Field} {queries : List QueryDatasetRequest} {m : Meaning}

theorem ignored {sat : Row → Prop} : Good queries sat (.ok none) where
  complete h := by cases h
  sound h := by cases h

theorem error {sat : Row → Prop} : Good queries sat (.error e) where
  complete h := by cases h
  sound h := by cases h

theorem imp {sat sat' : Row → Prop} (h : Good queries sat result)
    (himp : ∀ row, sat' row → sat row) : Good queries sat' result where
  complete hout hq hsat := h.complete hout hq (himp _ hsat)
  sound := h.sound

theorem index {sat : Row → Prop} (h : comparisonQuery name time op = .ok query)
    (hsat : ∀ row, sat row → query.Admits row) :
    Good queries sat (applyKnown queries (.index name time) op) := by
  have hout : ∀ {out}, applyKnown queries (.index name time) op = .ok (some out) →
      List.Forall₂ (fun q replaced => replaceTimeInQuery q name time op = .ok replaced)
        queries out := by
    intro out hout
    rw [applyKnown] at hout
    cases hm : queries.mapM (replaceTimeInQuery · name time op) with
    | error e =>
      rw [hm] at hout
      cases hout
    | ok updated =>
      rw [hm] at hout
      cases hout
      exact forall₂_of_mapM hm
  constructor
  · rintro out row ho ⟨q, hq, hadmits⟩ hrow
    obtain ⟨replaced, hmem, hreplace⟩ := exists_right_of_forall₂ (hout ho) hq
    exact ⟨replaced, hmem, (replaceTimeInQuery_admits h hreplace).1 hadmits (hsat row hrow)⟩
  · rintro out row ho ⟨r, hr, hadmits⟩
    obtain ⟨q, hq, hreplace⟩ := exists_left_of_forall₂ (hout ho) hr
    exact ⟨q, hq, (replaceTimeInQuery_admits h hreplace).2 hadmits⟩

theorem segmentId {sat : Row → Prop} (hlisted : ∀ q ∈ queries, Listed q.segmentIds sid)
    (hsat : ∀ row, sat row → row.segmentId = sid) :
    Good queries sat (applyKnown queries (.segmentId sid) .eq) := by
  refine ⟨fun {out row} ho ⟨q, hq, hadmits⟩ hrow => ?_, fun {out row} ho ⟨r, hr, hadmits⟩ => ?_⟩
  · cases ho
    refine ⟨_, List.mem_map_of_mem hq, .inr ?_, hadmits.2⟩
    exact List.mem_singleton.mpr (hsat row hrow)
  · cases ho
    obtain ⟨q, hq, rfl⟩ := List.mem_map.mp hr
    have hsegment : row.segmentId = sid :=
      List.mem_singleton.mp (hadmits.1.resolve_left (List.cons_ne_nil _ _))
    exact ⟨q, hq, hsegment ▸ hlisted q hq, hadmits.2⟩

theorem known {sat : Row → Prop} {column literal : Expr} (hop : op.IsComparison)
    (hk : Pushes schema column op literal sat)
    (h : (Plan.known queries literal (knownFilterColumn schema column literal) op).faithful) :
    Good queries sat (applyKnown queries (knownFilterColumn schema column literal) op) := by
  obtain ⟨hindex, hsegment⟩ := hk
  cases hk : knownFilterColumn schema column literal with
  | unknown => exact ignored
  | segmentId sid =>
    by_cases heq : op = .eq
    · subst heq
      rw [hk, Plan.known, if_pos rfl] at h
      exact segmentId h (hsegment sid hk rfl)
    · rw [applyKnown, if_neg heq]
      exact ignored
  | index name time =>
    obtain ⟨query, hq⟩ := comparisonQuery_isComparison hop
    rw [hk, Plan.known_index hq] at h
    exact index hq (hindex name time query hk (noOverflow_of_all h) hq)

theorem comparison {left : Expr} {op : Operator} {right : Expr}
    (h : (Plan.comparison schema queries left op right).faithful) :
    Good queries (Compares m schema left op right)
      (applyComparison schema queries left op right) := by
  rw [Plan.comparison] at h
  rw [applyComparison]
  cases harranged : arrangeBinaryExprAsColOnLeft left op right with
  | mk column rest =>
    obtain ⟨op', literal⟩ := rest
    rw [harranged] at h
    cases op' <;> first
      | exact ignored
      | exact known trivial (pushes_arranged harranged trivial) h

-- ---------------------------------------------------------------------------
-- Conjunctions, disjunctions and lists
-- ---------------------------------------------------------------------------

variable {left right : Pushed} {satL satR : Row → Prop}

theorem and (hl : Good queries satL left) (hr : Good queries satR right) :
    Good queries (fun row => satL row ∧ satR row) (applyAnd left right) := by
  refine ⟨fun {out row} ho hq ⟨hsl, hsr⟩ => ?_, fun {out row} ho hadmitted => ?_⟩
  · obtain ⟨a, b, rfl, rfl⟩ := Plan.applyAnd_ok ho
    match a, b, ho with
    | some a, none, ho =>
      cases ho
      exact hl.complete rfl hq hsl
    | none, some b, ho =>
      cases ho
      exact hr.complete rfl hq hsr
    | some a, some b, ho =>
      obtain ⟨_, hout, hm⟩ := Plan.applyAnd_mapM ho
      cases hout
      obtain ⟨x, hx, hxrow⟩ := hl.complete rfl hq hsl
      obtain ⟨y, hy, hyrow⟩ := hr.complete rfl hq hsr
      obtain ⟨merged, hmem, hmerge⟩ :=
        exists_right_of_forall₂ (forall₂_of_mapM hm) (Plan.mem_pairs.mpr ⟨hx, hy⟩)
      exact ⟨merged, hmem, (QueryDatasetRequest.merge_admits hmerge).1 hxrow hyrow⟩
  · obtain ⟨a, b, rfl, rfl⟩ := Plan.applyAnd_ok ho
    match a, b, ho with
    | some a, none, ho =>
      cases ho
      exact hl.sound rfl hadmitted
    | none, some b, ho =>
      cases ho
      exact hr.sound rfl hadmitted
    | some a, some b, ho =>
      obtain ⟨_, hout, hm⟩ := Plan.applyAnd_mapM ho
      cases hout
      obtain ⟨merged, hmem, hrow⟩ := hadmitted
      obtain ⟨⟨x, y⟩, hpair, hmerge⟩ := exists_left_of_forall₂ (forall₂_of_mapM hm) hmem
      obtain ⟨hx, hy⟩ := Plan.mem_pairs.mp hpair
      rcases (QueryDatasetRequest.merge_admits hmerge).2 hrow with hxrow | ⟨hyrow, -⟩
      · exact hl.sound rfl ⟨x, hx, hxrow⟩
      · exact hr.sound rfl ⟨y, hy, hyrow⟩

theorem or (h : ∀ a b, left = .ok (some a) → right = .ok (some b) →
      Good queries satL left ∧ Good queries satR right) :
    Good queries (fun row => satL row ∨ satR row) (applyOr queries left right) := by
  refine ⟨fun {out row} ho hq hsat => ?_, fun {out row} ho hadmitted => ?_⟩
  · rcases Plan.applyOr_ok ho with ⟨-, hout⟩ | ⟨a, rfl, ⟨-, hout⟩ | ⟨b, rfl, hout⟩⟩ <;> cases hout
    · exact hq
    · exact hq
    · obtain ⟨hl, hr⟩ := h a b rfl rfl
      rcases hsat with hsl | hsr
      · obtain ⟨x, hx, hrow⟩ := hl.complete rfl hq hsl
        exact ⟨x, List.mem_append_left _ hx, hrow⟩
      · obtain ⟨y, hy, hrow⟩ := hr.complete rfl hq hsr
        exact ⟨y, List.mem_append_right _ hy, hrow⟩
  · rcases Plan.applyOr_ok ho with ⟨-, hout⟩ | ⟨a, rfl, ⟨-, hout⟩ | ⟨b, rfl, hout⟩⟩ <;> cases hout
    · exact hadmitted
    · exact hadmitted
    · obtain ⟨hl, hr⟩ := h a b rfl rfl
      obtain ⟨x, hx, hrow⟩ := hadmitted
      rcases List.mem_append.mp hx with hx | hx
      · exact hl.sound rfl ⟨x, hx, hrow⟩
      · exact hr.sound rfl ⟨x, hx, hrow⟩

/-- The two sides of a disjunction matter if both are pushed down. -/
theorem or_of_faithful {l r : Plan} (hl : l.Describes left)
    (hr : r.Describes right) (hgl : l.faithful → Good queries satL left)
    (hgr : r.faithful → Good queries satR right) (h : (Plan.or queries l r).faithful) :
    Good queries (fun row => satL row ∨ satR row) (applyOr queries left right) := by
  refine or fun a b hleft hright => ?_
  subst hleft hright
  obtain ⟨hfl, hfr⟩ := h hl.alternatives_isSome hr.alternatives_isSome
  exact ⟨hgl hfl, hgr hfr⟩

theorem inList {expr first : Expr} {rest : List Expr}
    (h : (Plan.inList schema queries expr first rest).faithful) :
    Good queries (fun row => ∃ item ∈ first :: rest, Compares m schema expr .eq item row)
      (applyInList schema queries expr first rest) := by
  have hfold : ∀ (p : Plan) (result : Pushed) (sat : Row → Prop), p.Describes result →
      (p.faithful → Good queries sat result) →
      (rest.foldl (fun acc item =>
        Plan.or queries (Plan.comparison schema queries expr .eq item) acc) p).faithful →
      Good queries (fun row => sat row ∨ ∃ item ∈ rest, Compares m schema expr .eq item row)
        (rest.foldl (fun acc item =>
          applyOr queries (applyComparison schema queries expr .eq item) acc) result) := by
    clear h
    induction rest with
    | nil => exact fun p result sat _ hg hf => (hg hf).imp (by simp)
    | cons item rest ih =>
      intro p result sat hp hg hf
      have hitem : (Plan.comparison schema queries expr .eq item).Describes
          (applyComparison schema queries expr .eq item) := Plan.describes_comparison ..
      have hor := or_of_faithful hitem hp (comparison (m := m)) hg
      refine (ih _ _ _ (hitem.or hp) hor hf).imp fun row hsat => ?_
      rcases hsat with hsat | ⟨x, hx, hsat⟩
      · exact .inl (.inr hsat)
      · rcases List.mem_cons.mp hx with rfl | hx
        · exact .inl (.inl hsat)
        · exact .inr ⟨x, hx, hsat⟩
  refine (hfold _ _ _ (Plan.describes_comparison ..) (comparison (m := m)) h).imp fun row hsat => ?_
  obtain ⟨item, hitem, hsat⟩ := hsat
  rcases List.mem_cons.mp hitem with rfl | hitem
  · exact .inl hsat
  · exact .inr ⟨item, hitem, hsat⟩

/-- With an item that is not pushed down, a list keeps all rows. -/
theorem inList_ignored {expr first : Expr} {rest : List Expr} (hitem : item ∈ first :: rest)
    (hnone : (Plan.comparison schema queries expr .eq item).alternatives = none)
    (ho : applyInList schema queries expr first rest = .ok (some out))
    (hq : Admitted queries row) : Admitted out row := by
  have hskip : ∀ a, applyComparison schema queries expr .eq item ≠ .ok (some a) := by
    intro a ha
    have hitem : (Plan.comparison schema queries expr .eq item).Describes
        (applyComparison schema queries expr .eq item) := Plan.describes_comparison ..
    rw [ha] at hitem
    exact absurd hitem.alternatives_isSome (by simp [hnone])
  have hfold : ∀ result : Pushed,
      (item ∈ rest ∨ ∀ out, result = .ok (some out) → Admitted out row) →
      ∀ out, rest.foldl (fun acc item =>
        applyOr queries (applyComparison schema queries expr .eq item) acc) result =
        .ok (some out) → Admitted out row := by
    clear ho hitem
    induction rest with
    | nil => exact fun result h => h.resolve_left List.not_mem_nil
    | cons x rest ih =>
      intro result h
      refine ih _ ?_
      by_cases hin : item ∈ rest
      · exact .inl hin
      refine .inr fun out hout => ?_
      rcases Plan.applyOr_ok hout with ⟨-, hout⟩ | ⟨a, ha, ⟨-, hout⟩ | ⟨b, hb, hout⟩⟩ <;> cases hout
      · exact hq
      · exact hq
      · rcases h with hmem | hkeep
        · obtain rfl := (List.mem_cons.mp hmem).resolve_right hin
          exact absurd ha (hskip a)
        · obtain ⟨y, hy, hrow⟩ := hkeep b hb
          exact ⟨y, List.mem_append_right _ hy, hrow⟩
  refine hfold _ ?_ out ho
  rcases List.mem_cons.mp hitem with rfl | hin
  · exact .inr fun out hout => absurd hout (hskip out)
  · exact .inl hin

end Good

-- ---------------------------------------------------------------------------
-- Filters
-- ---------------------------------------------------------------------------

theorem ofBool_eq_true : Value.ofBool b = .bool true ↔ b = some true := by
  cases b <;> simp [Value.ofBool]

theorem toBool_eq_true {v : Value} : v.toBool = some true ↔ v = .bool true := by
  cases v <;> simp [Value.toBool]

theorem and3_eq_true : and3 a b = some true ↔ a = some true ∧ b = some true := by
  rcases a with _ | _ | _ <;> rcases b with _ | _ | _ <;> simp [and3]

theorem or3_eq_true : or3 a b = some true ↔ a = some true ∨ b = some true := by
  rcases a with _ | _ | _ <;> rcases b with _ | _ | _ <;> simp [or3]

section Filters

variable {m : Meaning} {schema : List Field} {row : Row}

theorem satisfies_and : Satisfies m schema row (.binaryExpr left .and right) ↔
    Satisfies m schema row left ∧ Satisfies m schema row right := by
  rw [Satisfies, eval, evalBinary, ofBool_eq_true, and3_eq_true, toBool_eq_true, toBool_eq_true]
  rfl

theorem satisfies_or : Satisfies m schema row (.binaryExpr left .or right) ↔
    Satisfies m schema row left ∨ Satisfies m schema row right := by
  rw [Satisfies, eval, evalBinary, ofBool_eq_true, or3_eq_true, toBool_eq_true, toBool_eq_true]
  rfl

theorem satisfies_between (h : Satisfies m schema row (.between expr false low high)) :
    Compares m schema expr .ltEq high row ∧ Compares m schema expr .gtEq low row := by
  rw [Satisfies, eval, if_neg (by simp), ofBool_eq_true, and3_eq_true, toBool_eq_true,
    toBool_eq_true] at h
  exact h.symm

theorem satisfies_inList (h : Satisfies m schema row (.inList expr list false)) :
    ∃ item ∈ list, Compares m schema expr .eq item row := by
  rw [Satisfies, eval, if_neg (by simp), ofBool_eq_true] at h
  induction list with
  | nil => simp [evalAny] at h
  | cons item list ih =>
    rw [evalAny, or3_eq_true, toBool_eq_true] at h
    rcases h with h | h
    · exact ⟨item, List.mem_cons_self, h⟩
    · obtain ⟨x, hx, hsat⟩ := ih h
      exact ⟨x, List.mem_cons_of_mem _ hx, hsat⟩

end Filters

theorem plan_good (m : Meaning) (schema : List Field) (queries : List QueryDatasetRequest)
    (expr : Expr) (h : (plan schema queries expr).faithful) :
    Good queries (fun row => Satisfies m schema row expr)
      (applyFilterExprToQueries schema queries expr) := by
  fun_induction applyFilterExprToQueries with
  | case1 expr name ih =>
    rw [plan] at h
    refine (ih h).imp fun row hsat => ?_
    rwa [Satisfies, eval] at hsat
  | case2 left right l r hcolumn ihl ihr =>
    rw [plan, if_pos hcolumn] at h
    exact ((ihl h.1).and (ihr h.2)).imp fun row hsat => satisfies_and.mp hsat
  | case3 left right l r hcolumn ihl ihr =>
    rw [plan, if_neg hcolumn] at h
    exact ((ihr h.1).and (ihl h.2)).imp fun row hsat => (satisfies_and.mp hsat).symm
  | case4 left right l r hcolumn ihl ihr =>
    rw [plan, if_pos hcolumn] at h
    exact (Good.or_of_faithful (plan_describes ..) (plan_describes ..) ihl ihr h).imp
      fun row hsat => satisfies_or.mp hsat
  | case5 left right l r hcolumn ihl ihr =>
    rw [plan, if_neg hcolumn] at h
    exact (Good.or_of_faithful (plan_describes ..) (plan_describes ..) ihr ihl h).imp
      fun row hsat => (satisfies_or.mp hsat).symm
  | case6 left op right hand hor =>
    rw [plan_comparison hand hor] at h
    refine (Good.comparison (m := m) h).imp fun row hsat => ?_
    rwa [Satisfies, eval] at hsat
  | case7 => exact .ignored
  | case8 =>
    rw [plan, if_neg ‹_›] at h
    refine ((Good.comparison (m := m) h.1).and
      (Good.comparison (m := m) h.2)).imp fun row hsat => ?_
    rw [Bool.not_eq_true] at *
    subst_vars
    exact satisfies_between hsat
  | case9 expr first rest negated =>
    rw [plan] at h
    cases negated with
    | true =>
      obtain ⟨hf, item, hitem, hnone⟩ := h
      exact ⟨fun ho hq _ => Good.inList_ignored hitem hnone ho hq, (Good.inList (m := m) hf).sound⟩
    | false => exact (Good.inList h).imp fun row hsat => satisfies_inList hsat
  | case10 => exact .error
  | case11 | case12 | case13 => exact .ignored

-- ---------------------------------------------------------------------------
-- Ways
-- ---------------------------------------------------------------------------

namespace Plan

variable {schema : List Field} {queries : List QueryDatasetRequest} {m : Meaning}
  {sat satL satR : Row → Prop}

/-- Every row that is let through is on a way. -/
def Keeps (queries : List QueryDatasetRequest) (sat : Row → Prop)
    (ways : Option (List (List QueryDatasetRequest))) : Prop :=
  ∀ l ∈ ways, ∀ row, Admitted queries row → sat row → ∃ way ∈ l, ∀ r ∈ way, r.Admits row

theorem keeps_none : Keeps queries sat none := nofun

theorem Keeps.imp {ways} (h : Keeps queries sat ways) (himp : ∀ row, satL row → sat row) :
    Keeps queries satL ways :=
  fun l hl row hq hsat => h l hl row hq (himp row hsat)

theorem Keeps.cross {a b} (ha : Keeps queries satL a) (hb : Keeps queries satR b) :
    Keeps queries (fun row => satL row ∧ satR row) (cross a b) := by
  cases a with
  | none => exact hb.imp fun _ => And.right
  | some a =>
    cases b with
    | none => exact ha.imp fun _ => And.left
    | some b =>
      rintro l hl row hq ⟨hsl, hsr⟩
      cases hl
      obtain ⟨x, hx, hxrow⟩ := ha a rfl row hq hsl
      obtain ⟨y, hy, hyrow⟩ := hb b rfl row hq hsr
      exact ⟨x ++ y, List.mem_flatMap.mpr ⟨x, hx, List.mem_map_of_mem hy⟩,
        List.forall_mem_append.mpr ⟨hxrow, hyrow⟩⟩

theorem keeps_base : Keeps queries sat (some (base queries)) := by
  rintro l hl row ⟨request, hr, hrow⟩ -
  cases hl
  exact ⟨[request], List.mem_map_of_mem hr, List.forall_mem_singleton.mpr hrow⟩

theorem Keeps.join {a b} (ha : Keeps queries satL a) (hb : Keeps queries satR b) :
    Keeps queries (fun row => satL row ∨ satR row) (join queries a b) := by
  cases a with
  | none => exact keeps_base
  | some a =>
    cases b with
    | none => exact keeps_base
    | some b =>
      rintro l hl row hq hsat
      cases hl
      obtain hsl | hsr := hsat
      · obtain ⟨x, hx, hrow⟩ := ha a rfl row hq hsl
        exact ⟨x, List.mem_append_left _ hx, hrow⟩
      · obtain ⟨y, hy, hrow⟩ := hb b rfl row hq hsr
        exact ⟨y, List.mem_append_right _ hy, hrow⟩

theorem keeps_known {column literal : Expr} (hop : op.IsComparison)
    (hk : Pushes schema column op literal sat) :
    Keeps queries sat
      (known queries literal (knownFilterColumn schema column literal) op).ways := by
  obtain ⟨hindex, hsegment⟩ := hk
  cases hk : knownFilterColumn schema column literal with
  | unknown => exact keeps_none
  | segmentId sid =>
    by_cases heq : op = .eq
    · subst heq
      rw [known, if_pos rfl]
      rintro l hl row ⟨request, hr, hrow⟩ hsat
      cases hl
      refine ⟨_, List.mem_map_of_mem hr, List.forall_mem_cons.mpr ⟨hrow,
        List.forall_mem_singleton.mpr ⟨.inr ?_, by simp⟩⟩⟩
      exact List.mem_singleton.mpr (hsegment sid hk rfl row hsat)
    · rw [known, if_neg heq]
      exact keeps_none
  | index name time =>
    obtain ⟨query, hq⟩ := comparisonQuery_isComparison hop
    rw [known_index hq]
    dsimp only
    split
    case isTrue hexact =>
      rintro l hl row ⟨request, hr, hrow⟩ hsat
      cases hl
      have hadmits := hindex name time query hk (noOverflow_of_all hexact) hq row hsat
      exact ⟨_, List.mem_map_of_mem hr, List.forall_mem_cons.mpr ⟨hrow,
        List.forall_mem_singleton.mpr ⟨hrow.1, fun _ h => Option.some.inj h ▸ hadmits⟩⟩⟩
    case isFalse => exact keeps_none

theorem keeps_comparison (left : Expr) (op : Operator) (right : Expr) :
    Keeps queries (Compares m schema left op right)
      (comparison schema queries left op right).ways := by
  rw [comparison]
  cases harranged : arrangeBinaryExprAsColOnLeft left op right with
  | mk column rest =>
    obtain ⟨op', literal⟩ := rest
    cases op' <;> first
      | exact keeps_none
      | exact keeps_known trivial (pushes_arranged harranged trivial)

theorem keeps_inList (expr first : Expr) (rest : List Expr) :
    Keeps queries (fun row => ∃ item ∈ first :: rest, Compares m schema expr .eq item row)
      (inList schema queries expr first rest).ways := by
  have hfold : ∀ (p : Plan) (sat : Row → Prop), Keeps queries sat p.ways →
      Keeps queries (fun row => sat row ∨ ∃ item ∈ rest, Compares m schema expr .eq item row)
        (rest.foldl (fun acc item => or queries (comparison schema queries expr .eq item) acc)
          p).ways := by
    induction rest with
    | nil => exact fun p sat hp => hp.imp (by simp)
    | cons item rest ih =>
      intro p sat hp
      refine (ih _ _ ((keeps_comparison (m := m) expr .eq item).join hp)).imp fun row hsat => ?_
      obtain hsat | ⟨x, hx, hsat⟩ := hsat
      · exact .inl (.inr hsat)
      · obtain rfl | hx := List.mem_cons.mp hx
        · exact .inl (.inl hsat)
        · exact .inr ⟨x, hx, hsat⟩
  refine (hfold _ _ (keeps_comparison (m := m) expr .eq first)).imp fun row hsat => ?_
  obtain ⟨item, hitem, hsat⟩ := hsat
  obtain rfl | hitem := List.mem_cons.mp hitem
  · exact .inl hsat
  · exact .inr ⟨item, hitem, hsat⟩

end Plan

theorem plan_keeps (m : Meaning) (schema : List Field) (queries : List QueryDatasetRequest)
    (expr : Expr) : Plan.Keeps queries (fun row => Satisfies m schema row expr)
      (plan schema queries expr).ways := by
  fun_induction applyFilterExprToQueries schema queries expr with
  | case1 expr name ih =>
    rw [plan]
    refine ih.imp fun row hsat => ?_
    rwa [Satisfies, eval] at hsat
  | case2 left right l r hcolumn ihl ihr =>
    rw [plan, if_pos hcolumn]
    exact (ihl.cross ihr).imp fun row hsat => satisfies_and.mp hsat
  | case3 left right l r hcolumn ihl ihr =>
    rw [plan, if_neg hcolumn]
    exact (ihr.cross ihl).imp fun row hsat => (satisfies_and.mp hsat).symm
  | case4 left right l r hcolumn ihl ihr =>
    rw [plan, if_pos hcolumn]
    exact (ihl.join ihr).imp fun row hsat => satisfies_or.mp hsat
  | case5 left right l r hcolumn ihl ihr =>
    rw [plan, if_neg hcolumn]
    exact (ihr.join ihl).imp fun row hsat => (satisfies_or.mp hsat).symm
  | case6 left op right hand hor =>
    rw [plan_comparison hand hor]
    refine (Plan.keeps_comparison (m := m) left op right).imp fun row hsat => ?_
    rwa [Satisfies, eval] at hsat
  | case7 =>
    rw [plan, if_pos rfl]
    exact Plan.keeps_none
  | case8 =>
    rw [plan, if_neg ‹_›]
    refine ((Plan.keeps_comparison (m := m) _ _ _).cross
      (Plan.keeps_comparison (m := m) _ _ _)).imp fun row hsat => ?_
    rw [Bool.not_eq_true] at *
    subst_vars
    exact satisfies_between hsat
  | case9 expr first rest negated =>
    rw [plan]
    cases negated with
    | true => exact Plan.keeps_none
    | false => exact (Plan.keeps_inList expr first rest).imp fun row hsat => satisfies_inList hsat
  | case10 expr negated =>
    rw [plan]
    cases negated with
    | true => exact Plan.keeps_none
    | false =>
      rintro l hl row - hsat
      obtain ⟨item, hitem, -⟩ := satisfies_inList hsat
      exact absurd hitem List.not_mem_nil
  | case11 | case12 | case13 =>
    rw [plan]
    exact Plan.keeps_none

/-- No row that the requests admit satisfies the filter. -/
def NoAnswer (m : Meaning) (schema : List Field) (queries : List QueryDatasetRequest)
    (expr : Expr) : Prop :=
  ∀ row, Admitted queries row → ¬ Satisfies m schema row expr

theorem Plan.Void.noAnswer {m : Meaning} {schema : List Field}
    {queries : List QueryDatasetRequest} {expr : Expr}
    (h : (plan schema queries expr).Void queries) : NoAnswer m schema queries expr := by
  intro row hq hsat
  have hkeeps : Keeps queries (fun row => Satisfies m schema row expr)
      (some ((plan schema queries expr).ways.getD (base queries))) := by
    have hways := plan_keeps m schema queries expr
    cases hw : (plan schema queries expr).ways with
    | none => exact keeps_base
    | some l => exact hw ▸ hways
  obtain ⟨way, hway, hrow⟩ := hkeeps _ rfl row hq hsat
  exact (h way hway).not_admits row hrow

/-- The alternatives let the same answers through as the base requests. -/
def Plan.KeepsAnswers (p : Plan) (m : Meaning) (schema : List Field)
    (queries : List QueryDatasetRequest) (expr : Expr) : Prop :=
  ∀ alternatives ∈ p.alternatives, ∀ row, Satisfies m schema row expr →
    (Admitted queries row ↔ ∃ x ∈ alternatives, Passes x row)

theorem preserved_iff (m : Meaning) (schema : List Field) (queries : List QueryDatasetRequest)
    (expr : Expr) : Preserved m schema queries expr ↔
      (plan schema queries expr).possible ∧
          (plan schema queries expr).KeepsAnswers m schema queries expr ∨
        ¬ (plan schema queries expr).possible ∧ NoAnswer m schema queries expr := by
  have hplan := plan_describes schema queries expr
  rw [Preserved]
  cases hresult : applyFilterExprToQueries schema queries expr with
  | error e =>
    rw [hresult] at hplan
    rw [or_iff_right fun h => hplan h.1]
    exact (and_iff_right hplan).symm
  | ok o =>
    rw [hresult] at hplan
    obtain ⟨hpossible, hrel⟩ := hplan
    rw [or_iff_left fun h => h.1 hpossible, and_iff_right hpossible, Plan.KeepsAnswers]
    cases o with
    | none =>
      cases ha : (plan schema queries expr).alternatives with
      | none => simp
      | some a =>
        rw [ha] at hrel
        cases hrel
    | some returned =>
      cases ha : (plan schema queries expr).alternatives with
      | none =>
        rw [ha] at hrel
        cases hrel
      | some a =>
        rw [ha] at hrel
        cases hrel with
        | some hall =>
          have hadmitted (row : Row) : Admitted returned row ↔ ∃ x ∈ a, Passes x row := by
            constructor
            · rintro ⟨request, hr, hrow⟩
              obtain ⟨x, hx, hm⟩ := exists_left_of_forall₂ hall hr
              exact ⟨x, hx, hm.admits_iff.mp hrow⟩
            · rintro ⟨x, hx, hrow⟩
              obtain ⟨request, hr, hm⟩ := exists_right_of_forall₂ hall hx
              exact ⟨request, hr, hm.admits_iff.mpr hrow⟩
          simp [hadmitted]

/-- Where everything can be merged, a faithful plan keeps the answers. Where something cannot be,
there is an error, and no answer if no way leaves anything. -/
theorem pushdown_preserved (m : Meaning) (schema : List Field)
    (queries : List QueryDatasetRequest) (expr : Expr) :
    let p := plan schema queries expr
    (p.possible ∧ p.faithful ∨ ¬ p.possible ∧ p.Void queries → Preserved m schema queries expr) ∧
    (Preserved m schema queries expr ↔
      p.possible ∧ p.KeepsAnswers m schema queries expr ∨
        ¬ p.possible ∧ NoAnswer m schema queries expr) := by
  refine ⟨?_, preserved_iff m schema queries expr⟩
  have hplan := plan_describes schema queries expr
  rw [Preserved]
  cases hresult : applyFilterExprToQueries schema queries expr with
  | error e =>
    rw [hresult] at hplan
    rintro (⟨hpossible, -⟩ | ⟨-, hvoid⟩)
    · exact absurd hpossible hplan
    · exact hvoid.noAnswer
  | ok o =>
    rw [hresult] at hplan
    rintro (⟨-, hf⟩ | ⟨hp, -⟩)
    · have hgood := plan_good m schema queries expr hf
      cases o with
      | none => trivial
      | some returned =>
        exact fun row hsat => ⟨fun hq => hgood.complete hresult hq hsat, hgood.sound hresult⟩
    · exact absurd hplan.1 hp

-- ---------------------------------------------------------------------------
-- A list that is negated
-- ---------------------------------------------------------------------------

def nullMeaning : Meaning := ⟨fun _ _ _ => .null, fun _ _ => .null⟩

def rowOf (segmentId : String) : Row where
  segmentId := segmentId
  index := fun _ => none
  other := fun _ => .null
  temporal := by simp

def notInA : Expr := .inList (.column "rerun_segment_id") [.literal (.utf8 (some "a"))] true

/-- Of all segments, only the one is asked for that the filter excludes. -/
theorem not_in_list_not_preserved : ¬ Preserved nullMeaning [] [{}] notInA := by
  intro h
  have hsat : Satisfies nullMeaning [] (rowOf "b") notInA := by
    simp [Satisfies, notInA, eval, evalAny, evalBinary, Row.column, rowOf, ScalarValue.value,
      Operator.holds, Value.toBool, or3, not3, Value.ofBool]
  have hq : Admitted [{}] (rowOf "b") := ⟨{}, List.mem_singleton.mpr rfl, .inl rfl, by simp⟩
  obtain ⟨request, hr, hadmits, -⟩ := (h (rowOf "b") hsat).mp hq
  cases List.mem_singleton.mp hr
  exact absurd (hadmits.resolve_left (List.cons_ne_nil _ _)) (by decide)

/-- `a >= 3 AND b >= 4`, on two indexes. -/
def aboveOnBoth : Expr :=
  .binaryExpr (.binaryExpr (.column "a") .gtEq (.literal (.int64 (some 3)))) .and
    (.binaryExpr (.column "b") .gtEq (.literal (.int64 (some 4))))

def bothIndexes : List Field := [⟨"a", some "index"⟩, ⟨"b", some "index"⟩]

def latestRequest (time : Int) : QueryDatasetRequest where
  query := some { latestAt := some { index := some "a", at' := .newTemporal time } }

def twoSegments : Expr :=
  let segment (sid : String) : Expr :=
    .binaryExpr (.column "rerun_segment_id") .eq (.literal (.utf8 (some sid)))
  .binaryExpr (.binaryExpr (segment "a") .and (segment "b")) .or
    (.binaryExpr (segment "c") .and (segment "d"))

/-- The specific time of the request is in both ranges, and no way leaves two segments. -/
theorem pushdown_preserved_latest_at :
    Preserved nullMeaning bothIndexes [latestRequest 5] aboveOnBoth ∧
      Preserved nullMeaning [] [{}] twoSegments := by
  constructor
  · have hmergeable (x y : List QueryDatasetRequest) (hsegments : ∀ r ∈ x ++ y, r.segmentIds = [])
        (hmeets : ∀ p ∈ x, ∀ q ∈ y, p.timePart.Meets q.timePart)
        (hat : ∃ r ∈ x ++ y, r.timePart.IsAt) : Mergeable x y :=
      ⟨⟨"", fun r hr => .inl (hsegments r hr)⟩, hmeets, fun hnone =>
        (hnone _ hat.choose_spec.1 hat.choose_spec.2).elim⟩
    refine (pushdown_preserved nullMeaning bothIndexes [latestRequest 5] aboveOnBoth).1
      (.inl ⟨⟨?_, ?_, ?_⟩, rfl, rfl⟩)
    · exact List.forall_mem_singleton.mpr (hmergeable _ _ (by decide) (by decide) (by decide))
    · exact List.forall_mem_singleton.mpr (hmergeable _ _ (by decide) (by decide) (by decide))
    · rintro _ ⟨⟩ _ ⟨⟩
      refine List.forall_mem_singleton.mpr (List.forall_mem_singleton.mpr ?_)
      exact hmergeable _ _ (by decide) (by decide) (by decide)
  · have hclash {x : List QueryDatasetRequest} (h : ∃ p ∈ x, ∃ q ∈ x, p.segmentIds ≠ [] ∧
        q.segmentIds ≠ [] ∧ ∀ sid ∈ p.segmentIds, sid ∉ q.segmentIds) :
        ¬ ∃ sid, ∀ r ∈ x, Listed r.segmentIds sid := by
      obtain ⟨p, hp, q, hq, hnp, hnq, hdisjoint⟩ := h
      rintro ⟨sid, hall⟩
      exact hdisjoint sid ((hall p hp).resolve_left hnp) ((hall q hq).resolve_left hnq)
    refine (pushdown_preserved nullMeaning [] [{}] twoSegments).1 (.inr ⟨?_, fun way hway => ?_⟩)
    · rintro ⟨⟨-, -, hmergeable⟩, -⟩
      exact hclash (by decide) (hmergeable _ rfl _ rfl _ List.mem_cons_self _
        List.mem_cons_self).segment
    · have hways : ∀ way ∈ (plan [] [{}] twoSegments).ways.getD (Plan.base [{}]), ∃ p ∈ way,
          ∃ q ∈ way, p.segmentIds ≠ [] ∧ q.segmentIds ≠ [] ∧
            ∀ sid ∈ p.segmentIds, sid ∉ q.segmentIds := by
        decide
      exact .inl (hclash (hways way hway))

end DimosViewer.Datafusion
