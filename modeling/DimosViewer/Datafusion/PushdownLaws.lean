import DimosViewer.Datafusion.FilterMeaning

/-!
# What filter pushdown preserves

Requests are merged part by part: what a merged request admits, both do, or one of them when
the other asks for a specific time. Merging fails when no segment and no time are left by both.
-/

namespace DimosViewer.Datafusion

-- ---------------------------------------------------------------------------
-- Segments
-- ---------------------------------------------------------------------------

def Listed (ids : List String) (sid : String) : Prop := ids = [] ∨ sid ∈ ids

theorem mergeSegmentIds_iff (h : mergeSegmentIds left right = .ok ids) :
    Listed ids sid ↔ Listed left sid ∧ Listed right sid := by
  rw [mergeSegmentIds] at h
  split at h
  · rename_i hr
    cases h
    simp [Listed, List.isEmpty_iff.mp hr]
  split at h
  · rename_i hl
    cases h
    simp [Listed, List.isEmpty_iff.mp hl]
  · rename_i hr hl
    dsimp only at h
    split at h
    · cases h
    · rename_i hm
      cases h
      rw [List.isEmpty_iff] at hl hr hm
      rw [Listed, Listed, Listed, or_iff_right hl, or_iff_right hr, or_iff_right hm]
      simp

theorem mergeSegmentIds_ok (hl : Listed left sid) (hr : Listed right sid) :
    ∃ ids, mergeSegmentIds left right = .ok ids := by
  rw [mergeSegmentIds]
  split
  · exact ⟨_, rfl⟩
  split
  · exact ⟨_, rfl⟩
  · rename_i hright hleft
    rw [List.isEmpty_iff] at hleft hright
    have hmem : sid ∈ left.filter (right.contains ·) :=
      List.mem_filter.mpr ⟨hl.resolve_left hleft, by simpa using hr.resolve_left hright⟩
    exact ⟨_, if_neg (by simpa [List.isEmpty_iff] using List.ne_nil_of_mem hmem)⟩

-- ---------------------------------------------------------------------------
-- Times
-- ---------------------------------------------------------------------------

theorem computeRangeOverlap_ok {left right : QueryRange} (hi : left.index = right.index)
    (hm : left.indexRange.intersects right.indexRange) :
    ∃ range, computeRangeOverlap left right = .ok range := by
  rw [AbsoluteTimeRange.intersects_iff] at hm
  rw [computeRangeOverlap, if_neg (by simp [hi]), if_neg]
  · exact ⟨_, rfl⟩
  · rintro (hlt | hlt)
    · exact absurd hm.2 (not_le.mpr hlt)
    · exact absurd hm.1 (not_le.mpr hlt)

theorem computeRangeOverlap_eq (h : computeRangeOverlap left right = .ok range) :
    left.index = right.index ∧ left.indexRange.intersects right.indexRange ∧
      range = ⟨left.index, ⟨max left.indexRange.min right.indexRange.min,
        min left.indexRange.max right.indexRange.max⟩⟩ := by
  rw [computeRangeOverlap] at h
  split at h
  · cases h
  rename_i hindex
  split at h
  · cases h
  · rename_i hoverlap
    cases h
    rw [not_or, not_lt, not_lt] at hoverlap
    exact ⟨not_not.mp hindex, AbsoluteTimeRange.intersects_iff.mpr hoverlap.symm, rfl⟩

/-- The time part of a request: a range, or a specific time if there is no range. -/
inductive TimePart where
  | any
  | range (range : QueryRange)
  | at' (time : TimeInt)

def Query.timePart (query : Query) : TimePart :=
  match query.range, query.latestAt with
  | some range, _ => .range range
  | none, some la => .at' la.at'
  | none, none => .any

namespace TimePart

variable {p l r m n : TimePart}

/-- A specific time alone does not exclude any row. -/
def Admits (p : TimePart) (row : Row) : Prop :=
  match p with
  | .range r => ∃ t, row.index r.index = some t ∧ r.indexRange.contains t
  | _ => True

/-- Two ranges meet, a range contains a specific time, or two specific times are the same,
whatever index they are of. -/
def Meets : TimePart → TimePart → Prop
  | .range a, .range b => a.indexRange.intersects b.indexRange
  | .range a, .at' t | .at' t, .range a => a.indexRange.contains t
  | .at' t, .at' t' => t = t'
  | .any, _ | _, .any => True

def SameIndex : TimePart → TimePart → Prop
  | .range a, .range b => a.index = b.index
  | _, _ => True

def IsAt : TimePart → Prop
  | .at' _ => True
  | _ => False

instance : ∀ p q : TimePart, Decidable (p.Meets q)
  | .range a, .range b => inferInstanceAs (Decidable (a.indexRange.intersects b.indexRange = true))
  | .range a, .at' t | .at' t, .range a => inferInstanceAs (Decidable (a.indexRange.contains t = true))
  | .at' t, .at' t' => inferInstanceAs (Decidable (t = t'))
  | .any, q => .isTrue (by cases q <;> trivial)
  | .range _, .any | .at' _, .any => .isTrue trivial

instance : ∀ p : TimePart, Decidable p.IsAt
  | .at' _ => .isTrue trivial
  | .any | .range _ => .isFalse id

theorem Meets.symm (h : l.Meets r) : r.Meets l := by
  cases l <;> cases r <;> simp only [Meets, AbsoluteTimeRange.intersects_iff] at h ⊢
  case range.range => exact h.symm
  case range.at' | at'.range => exact h
  case at'.at' => exact Eq.symm h

theorem SameIndex.symm (h : l.SameIndex r) : r.SameIndex l := by
  cases l <;> cases r <;> first
    | trivial
    | exact Eq.symm h

theorem IsAt.admits (h : p.IsAt) (row : Row) : p.Admits row := by
  cases p with
  | at' => trivial
  | any | range => exact h.elim

inductive Merge : TimePart → TimePart → TimePart → Prop
  | ranges {a b c : QueryRange} : computeRangeOverlap a b = .ok c →
    Merge (.range a) (.range b) (.range c)
  | rangeAt {a : QueryRange} {t : TimeInt} : a.indexRange.contains t →
    Merge (.range a) (.at' t) (.at' t)
  | atRange {a : QueryRange} {t : TimeInt} : a.indexRange.contains t →
    Merge (.at' t) (.range a) (.at' t)
  | atAt (t : TimeInt) : Merge (.at' t) (.at' t) (.at' t)
  | anyLeft (p : TimePart) : Merge .any p p
  | anyRight (p : TimePart) : Merge p .any p

namespace Merge

variable {row : Row}

theorem isAt_iff (h : Merge l r m) : m.IsAt ↔ l.IsAt ∨ r.IsAt := by
  cases h <;> simp [IsAt]

theorem admits_iff (h : Merge l r m) (hm : ¬ m.IsAt) :
    m.Admits row ↔ l.Admits row ∧ r.Admits row := by
  cases h with
  | ranges hrange =>
    obtain ⟨hindex, -, rfl⟩ := computeRangeOverlap_eq hrange
    simp only [Admits, AbsoluteTimeRange.contains_iff, max_le_iff, le_min_iff, ← hindex]
    constructor
    · rintro ⟨t, ht, hmin, hmax⟩
      exact ⟨⟨t, ht, hmin.1, hmax.1⟩, t, ht, hmin.2, hmax.2⟩
    · rintro ⟨⟨t, ht, hmin, hmax⟩, t', ht', hmin', hmax'⟩
      obtain rfl := Option.some.inj (ht.symm.trans ht')
      exact ⟨t, ht, ⟨hmin, hmin'⟩, hmax, hmax'⟩
  | rangeAt | atRange | atAt => exact absurd trivial hm
  | anyLeft => exact (and_iff_right trivial).symm
  | anyRight => exact (and_iff_left trivial).symm

/-- Only a specific time on the right lets more rows through than the left part. -/
theorem admits (h : Merge l r m) :
    (l.Admits row → r.Admits row → m.Admits row) ∧ (m.Admits row → l.Admits row ∨ r.IsAt) := by
  by_cases hm : m.IsAt
  · refine ⟨fun _ _ => hm.admits row, fun _ => ?_⟩
    exact (h.isAt_iff.mp hm).imp_left (·.admits row)
  · rw [h.admits_iff hm]
    exact ⟨And.intro, fun hboth => .inl hboth.1⟩

theorem meets (h : Merge l r m) : l.Meets r ∧ l.SameIndex r := by
  cases h with
  | ranges hrange =>
    obtain ⟨hindex, hmeets, -⟩ := computeRangeOverlap_eq hrange
    exact ⟨hmeets, hindex⟩
  | rangeAt hin => exact ⟨hin, trivial⟩
  | atRange hin => exact ⟨hin, trivial⟩
  | atAt => exact ⟨rfl, trivial⟩
  | anyLeft => exact ⟨by cases r <;> trivial, trivial⟩
  | anyRight => exact ⟨by cases l <;> trivial, by cases l <;> trivial⟩

theorem meets_iff (h : Merge l r m) (q : TimePart) : m.Meets q ↔ l.Meets q ∧ r.Meets q := by
  cases h with
  | ranges hrange =>
    obtain ⟨-, -, rfl⟩ := computeRangeOverlap_eq hrange
    cases q with
    | any => exact ⟨fun _ => ⟨trivial, trivial⟩, fun _ => trivial⟩
    | range b =>
      simp only [Meets, AbsoluteTimeRange.intersects_iff, max_le_iff, le_min_iff]
      exact and_and_and_comm
    | at' t =>
      simp only [Meets, AbsoluteTimeRange.contains_iff, max_le_iff, le_min_iff]
      exact and_and_and_comm
  | rangeAt hin =>
    refine ⟨fun hq => ⟨?_, hq⟩, And.right⟩
    cases q with
    | any => trivial
    | range b => exact AbsoluteTimeRange.intersects_of_contains hin hq
    | at' t' => exact (show _ = t' from hq) ▸ hin
  | atRange hin =>
    refine ⟨fun hq => ⟨hq, ?_⟩, And.left⟩
    cases q with
    | any => trivial
    | range b => exact AbsoluteTimeRange.intersects_of_contains hin hq
    | at' t' => exact (show _ = t' from hq) ▸ hin
  | atAt => exact and_self_iff.symm
  | anyLeft => exact (and_iff_right (by cases q <;> trivial)).symm
  | anyRight => exact (and_iff_left (by cases q <;> trivial)).symm

theorem sameIndex_iff (h : Merge l r m) (hm : ¬ m.IsAt) (q : TimePart) :
    m.SameIndex q ↔ l.SameIndex q ∧ r.SameIndex q := by
  cases h with
  | ranges hrange =>
    obtain ⟨hindex, -, rfl⟩ := computeRangeOverlap_eq hrange
    cases q with
    | range b => exact (and_iff_left_of_imp fun he => hindex.symm.trans he).symm
    | any | at' => exact (and_self_iff (a := True)).symm
  | rangeAt | atRange | atAt => exact absurd trivial hm
  | anyLeft => exact (and_iff_right trivial).symm
  | anyRight => exact (and_iff_left trivial).symm

end Merge

structure Sums (parts : List TimePart) (m : TimePart) : Prop where
  meets (q : TimePart) : m.Meets q ↔ ∀ p ∈ parts, p.Meets q
  isAt : m.IsAt ↔ ∃ p ∈ parts, p.IsAt
  sameIndex (q : TimePart) : ¬ m.IsAt → (m.SameIndex q ↔ ∀ p ∈ parts, p.SameIndex q)
  admits (row : Row) : ¬ m.IsAt → (m.Admits row ↔ ∀ p ∈ parts, p.Admits row)

theorem sums_singleton (p : TimePart) : Sums [p] p :=
  ⟨fun q => by simp, by simp, fun q _ => by simp, fun row _ => by simp⟩

theorem Sums.append {parts parts' : List TimePart} (hl : Sums parts l) (hr : Sums parts' r)
    (h : Merge l r m) : Sums (parts ++ parts') m := by
  refine ⟨fun q => ?_, ?_, fun q hm => ?_, fun row hm => ?_⟩
  · rw [h.meets_iff, hl.meets, hr.meets, List.forall_mem_append]
  · rw [h.isAt_iff, hl.isAt, hr.isAt]
    simp only [List.mem_append, or_and_right, exists_or]
  · obtain ⟨hml, hmr⟩ := not_or.mp (h.isAt_iff.not.mp hm)
    rw [h.sameIndex_iff hm, hl.sameIndex q hml, hr.sameIndex q hmr, List.forall_mem_append]
  · obtain ⟨hml, hmr⟩ := not_or.mp (h.isAt_iff.not.mp hm)
    rw [h.admits_iff hm, hl.admits row hml, hr.admits row hmr, List.forall_mem_append]

theorem Sums.meets_sums {parts parts' : List TimePart} (hl : Sums parts l) (hr : Sums parts' r) :
    l.Meets r ↔ ∀ p ∈ parts, ∀ q ∈ parts', p.Meets q := by
  rw [hl.meets]
  refine forall₂_congr fun p _ => ?_
  constructor
  · exact fun h q hq => ((hr.meets p).mp h.symm q hq).symm
  · exact fun h => ((hr.meets p).mpr fun q hq => (h q hq).symm).symm

theorem Sums.sameIndex_sums {parts parts' : List TimePart} (hl : Sums parts l)
    (hr : Sums parts' r) : l.SameIndex r ↔ ((∀ p ∈ parts ++ parts', ¬ p.IsAt) →
      ∀ p ∈ parts, ∀ q ∈ parts', p.SameIndex q) := by
  by_cases hat : l.IsAt ∨ r.IsAt
  · refine ⟨fun _ hnone => ?_, fun _ => ?_⟩
    · obtain hat | hat := hat
      · obtain ⟨p, hp, hat⟩ := hl.isAt.mp hat
        exact absurd hat (hnone p (List.mem_append_left _ hp))
      · obtain ⟨p, hp, hat⟩ := hr.isAt.mp hat
        exact absurd hat (hnone p (List.mem_append_right _ hp))
    · cases l <;> cases r <;> first
        | trivial
        | exact absurd hat (not_or.mpr ⟨id, id⟩)
  · obtain ⟨hatl, hatr⟩ := not_or.mp hat
    rw [forall_prop_of_true, hl.sameIndex _ hatl]
    · refine forall₂_congr fun p _ => ?_
      constructor
      · exact fun h q hq => ((hr.sameIndex p hatr).mp h.symm q hq).symm
      · exact fun h => ((hr.sameIndex p hatr).mpr fun q hq => (h q hq).symm).symm
    · refine List.forall_mem_append.mpr ⟨fun p hp hat => ?_, fun p hp hat => ?_⟩
      · exact hatl (hl.isAt.mpr ⟨p, hp, hat⟩)
      · exact hatr (hr.isAt.mpr ⟨p, hp, hat⟩)

end TimePart

theorem Query.admits_iff {query : Query} : query.Admits row ↔ query.timePart.Admits row := by
  obtain ⟨la, range⟩ := query
  rcases la with _ | la <;> rcases range with _ | range <;>
    simp [Query.Admits, timePart, TimePart.Admits]

theorem mergeQuery_merge {left right : Query} (h : mergeQuery left right = .ok query) :
    left.timePart.Merge right.timePart query.timePart := by
  obtain ⟨lla, lrange⟩ := left
  obtain ⟨rla, rrange⟩ := right
  rw [mergeQuery] at h
  match lrange, rrange, lla, rla, h with
  | some a, some b, _, _, h =>
    dsimp only at h
    cases hrange : computeRangeOverlap a b with
    | error e =>
      rw [hrange] at h
      cases h
    | ok range =>
      rw [hrange] at h
      cases h
      exact .ranges hrange
  | some a, none, _, some rla, h =>
    dsimp only at h
    split at h
    case isTrue hin =>
      cases h
      exact .rangeAt (AbsoluteTimeRange.contains_iff.mpr hin)
    case isFalse => cases h
  | some a, none, _, none, h =>
    cases h
    exact .anyRight _
  | none, some b, some lla, _, h =>
    dsimp only at h
    split at h
    case isTrue hin =>
      cases h
      exact .atRange (AbsoluteTimeRange.contains_iff.mpr hin)
    case isFalse => cases h
  | none, some b, none, rla, h =>
    have h : Except.ok { latestAt := rla, range := some b } = Except.ok (ε := String) query := by
      cases rla <;> exact h
    cases h
    exact .anyLeft _
  | none, none, some lla, some rla, h =>
    dsimp only at h
    split at h
    case isTrue => cases h
    case isFalse hat =>
      cases h
      have hat : lla.at' = rla.at' := not_not.mp hat
      simp only [Query.timePart, hat]
      exact .atAt _
  | none, none, some lla, none, h =>
    cases h
    exact .anyRight _
  | none, none, none, some rla, h =>
    cases h
    exact .anyLeft _
  | none, none, none, none, h =>
    cases h
    exact .anyLeft _

theorem mergeQuery_ok {left right : Query} (hm : left.timePart.Meets right.timePart)
    (hi : left.timePart.SameIndex right.timePart) : ∃ query, mergeQuery left right = .ok query := by
  obtain ⟨lla, lrange⟩ := left
  obtain ⟨rla, rrange⟩ := right
  rw [mergeQuery]
  match lrange, rrange, lla, rla with
  | some a, some b, _, _ =>
    obtain ⟨range, hrange⟩ := computeRangeOverlap_ok hi hm
    dsimp only
    rw [hrange]
    exact ⟨_, rfl⟩
  | some a, none, _, some rla => exact ⟨_, if_pos (AbsoluteTimeRange.contains_iff.mp hm)⟩
  | some a, none, _, none => exact ⟨_, rfl⟩
  | none, some b, some lla, _ => exact ⟨_, if_pos (AbsoluteTimeRange.contains_iff.mp hm)⟩
  | none, some b, none, rla => cases rla <;> exact ⟨_, rfl⟩
  | none, none, some lla, some rla => exact ⟨_, if_neg (not_not.mpr hm)⟩
  | none, none, some lla, none => exact ⟨_, rfl⟩
  | none, none, none, some rla => exact ⟨_, rfl⟩
  | none, none, none, none => exact ⟨_, rfl⟩

-- ---------------------------------------------------------------------------
-- Requests
-- ---------------------------------------------------------------------------

namespace QueryDatasetRequest

variable {left right request : QueryDatasetRequest}

def timePart (request : QueryDatasetRequest) : TimePart := request.query.elim .any Query.timePart

theorem admits_iff : request.Admits row ↔
    Listed request.segmentIds row.segmentId ∧ request.timePart.Admits row := by
  refine and_congr_right fun _ => ?_
  rw [timePart]
  cases request.query with
  | none => exact ⟨fun _ => trivial, fun _ _ h => nomatch h⟩
  | some query =>
    rw [Option.elim_some, ← Query.admits_iff]
    exact ⟨fun h => h query rfl, fun h _ hq => Option.some.inj hq ▸ h⟩

theorem merge_spec (h : mergeQueriesAnd left right = .ok request) :
    (∀ sid, Listed request.segmentIds sid ↔
      Listed left.segmentIds sid ∧ Listed right.segmentIds sid) ∧
    left.timePart.Merge right.timePart request.timePart := by
  rw [mergeQueriesAnd] at h
  cases hids : mergeSegmentIds left.segmentIds right.segmentIds with
  | error e =>
    rw [hids] at h
    cases h
  | ok ids =>
    rw [hids] at h
    have hlisted : ∀ sid, Listed ids sid ↔ _ := fun _ => mergeSegmentIds_iff hids
    simp only [timePart]
    match hr : right.query, hl : left.query, h with
    | some rq, some lq, h =>
      change (mergeQuery lq rq >>= _) = _ at h
      cases hq : mergeQuery lq rq with
      | error e =>
        rw [hq] at h
        cases h
      | ok query =>
        rw [hq] at h
        cases h
        exact ⟨hlisted, mergeQuery_merge hq⟩
    | some rq, none, h =>
      cases h
      exact ⟨hlisted, .anyLeft _⟩
    | none, _, h =>
      cases h
      exact ⟨hlisted, hl ▸ .anyRight _⟩

theorem merge_ok (hl : Listed left.segmentIds sid) (hr : Listed right.segmentIds sid)
    (hm : left.timePart.Meets right.timePart) (hi : left.timePart.SameIndex right.timePart) :
    ∃ request, mergeQueriesAnd left right = .ok request := by
  obtain ⟨ids, hids⟩ := mergeSegmentIds_ok hl hr
  rw [mergeQueriesAnd, hids]
  rw [timePart, timePart] at hm hi
  match hrq : right.query, hlq : left.query with
  | some rq, some lq =>
    rw [hrq, hlq] at hm hi
    obtain ⟨query, hq⟩ := mergeQuery_ok hm hi
    change ∃ request, (mergeQuery lq rq >>= _) = _
    rw [hq]
    exact ⟨_, rfl⟩
  | some rq, none => exact ⟨_, rfl⟩
  | none, _ => exact ⟨_, rfl⟩

/-- Only a specific time of the right request lets more rows through than the left one. -/
theorem merge_admits (h : mergeQueriesAnd left right = .ok request) :
    (left.Admits row → right.Admits row → request.Admits row) ∧
      (request.Admits row → left.Admits row ∨ (right.Admits row ∧ right.timePart.IsAt)) := by
  obtain ⟨hlisted, hmerge⟩ := merge_spec h
  simp only [admits_iff, hlisted]
  refine ⟨fun hl hr => ⟨⟨hl.1, hr.1⟩, hmerge.admits.1 hl.2 hr.2⟩, fun hm => ?_⟩
  exact (hmerge.admits.2 hm.2).imp (⟨hm.1.1, ·⟩) fun hat => ⟨⟨hm.1.2, hat.admits _⟩, hat⟩

end QueryDatasetRequest

-- ---------------------------------------------------------------------------
-- The time part of a comparison
-- ---------------------------------------------------------------------------

theorem comparisonQuery_range (h : comparisonQuery index time op = .ok query) :
    ∃ range, query.range = some range := by
  cases op <;> cases h <;> exact ⟨_, rfl⟩

def withQuery (request : QueryDatasetRequest) (query : Query) : QueryDatasetRequest :=
  { request with query := some query }

theorem replaceTimeInQuery_eq (h : comparisonQuery index time op = .ok query)
    (request : QueryDatasetRequest) : replaceTimeInQuery request index time op =
      mergeQueriesAnd request (withQuery request query) := by
  rw [replaceTimeInQuery, h]
  rfl

theorem replaceTimeInQuery_admits {request replaced : QueryDatasetRequest}
    (hq : comparisonQuery index time op = .ok query)
    (h : replaceTimeInQuery request index time op = .ok replaced) :
    (request.Admits row → query.Admits row → replaced.Admits row) ∧
      (replaced.Admits row → request.Admits row) := by
  rw [replaceTimeInQuery_eq hq] at h
  have ⟨hboth, hone⟩ : (request.Admits row → _) ∧ _ := QueryDatasetRequest.merge_admits h
  refine ⟨fun hr hadmits => hboth hr ⟨hr.1, fun q hmem => ?_⟩, fun hadmits => ?_⟩
  · cases hmem
    exact hadmits
  · refine (hone hadmits).resolve_right fun ⟨_, hat⟩ => ?_
    obtain ⟨range, hrange⟩ := comparisonQuery_range hq
    rw [withQuery, QueryDatasetRequest.timePart, Option.elim_some, Query.timePart, hrange] at hat
    exact hat

end DimosViewer.Datafusion
