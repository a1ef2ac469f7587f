import DimosViewer.EntityDb.PriorityStages
import Mathlib.Order.WithBot

/-!
# The order of priority

The iterator yields one list, whichever turns it takes for it: what remains of the list depends on
the stage alone. The list is sorted by stage.
-/

namespace DimosViewer

-- ---------------------------------------------------------------------------
-- The order of the stages
-- ---------------------------------------------------------------------------

namespace FetchStage

/-- Stages are ordered by their kind, then by the real time, where none at all is the longest. -/
def key : FetchStage → Nat ×ₗ WithTop Duration
  | .required => toLex (0, ⊤)
  | .similar none => toLex (1, ⊤)
  | .similar (some d) => toLex (1, .some d)
  | .everything => toLex (2, ⊤)

theorem lt_iff_key {a b : FetchStage} : a < b ↔ a.key < b.key := by
  show a.cmp b = .lt ↔ _
  match a, b with
  | .required, .required | .everything, .everything => simp [cmp]
  | .similar (some a), .similar (some b) =>
    simp [cmp, key, Prod.Lex.toLex_lt_toLex, Nat.compare_eq_lt]
  | .similar (some a), .similar none => simp [cmp, key, Prod.Lex.toLex_lt_toLex]
  | .similar none, .similar (some b) => simp [cmp, key, Prod.Lex.toLex_lt_toLex]
  | .similar none, .similar none => simp [cmp]
  | .required, .similar b => cases b <;> simp [cmp, key, Prod.Lex.toLex_lt_toLex]
  | .required, .everything => simp [cmp, key, Prod.Lex.toLex_lt_toLex]
  | .similar a, .everything => cases a <;> simp [cmp, key, Prod.Lex.toLex_lt_toLex]
  | .similar a, .required => cases a <;> simp [cmp, key, Prod.Lex.toLex_lt_toLex]
  | .everything, .required => simp [cmp, key, Prod.Lex.toLex_lt_toLex]
  | .everything, .similar b => cases b <;> simp [cmp, key, Prod.Lex.toLex_lt_toLex]

theorem le_iff_key {a b : FetchStage} : a ≤ b ↔ a.key ≤ b.key := by
  rw [← not_lt, ← lt_iff_key]
  show a.cmp b ≠ .gt ↔ ¬ b.cmp a = .lt
  match a, b with
  | .required, .required | .everything, .everything => simp [cmp]
  | .similar (some a), .similar (some b) => simp [cmp, Nat.compare_eq_gt, Nat.compare_eq_lt]
  | .similar (some a), .similar none => simp [cmp]
  | .similar none, .similar (some b) => simp [cmp]
  | .similar none, .similar none => simp [cmp]
  | .required, .similar b => simp [cmp]
  | .required, .everything => simp [cmp]
  | .similar a, .everything => simp [cmp]
  | .similar a, .required => simp [cmp]
  | .everything, .required => simp [cmp]
  | .everything, .similar b => simp [cmp]

instance : Preorder FetchStage where
  le_refl a := le_iff_key.mpr le_rfl
  le_trans a b c hab hbc := le_iff_key.mpr ((le_iff_key.mp hab).trans (le_iff_key.mp hbc))
  lt_iff_le_not_ge a b := by rw [lt_iff_key, le_iff_key, le_iff_key, lt_iff_le_not_ge]

theorem not_lt_iff {a b : FetchStage} : ¬ a < b ↔ b ≤ a := by
  rw [lt_iff_key, le_iff_key, not_lt]

theorem required_le (a : FetchStage) : .required ≤ a := by
  show cmp .required a ≠ .gt
  cases a <;> simp [cmp]

theorem le_everything (a : FetchStage) : a ≤ .everything := by
  show cmp a .everything ≠ .gt
  cases a <;> simp [cmp]

theorem similar_le_none (d : Option Duration) : FetchStage.similar d ≤ .similar none := by
  show cmp (.similar d) (.similar none) ≠ .gt
  cases d <;> simp [cmp]

theorem le_required_iff {a : FetchStage} : a ≤ .required ↔ a.isRequired := by
  show cmp a .required ≠ .gt ↔ _
  cases a <;> simp [cmp, isRequired]

end FetchStage

-- ---------------------------------------------------------------------------
-- What remains
-- ---------------------------------------------------------------------------

def TimeRangeStage.following : TimeRangeStage → List TimeRangeStage
  | .afterCursor => [.beforeCursor, .afterCursorOutsideLoop, .beforeCursorOutsideLoop]
  | .beforeCursor => [.afterCursorOutsideLoop, .beforeCursorOutsideLoop]
  | .afterCursorOutsideLoop => [.beforeCursorOutsideLoop]
  | .beforeCursorOutsideLoop => []

theorem TimeRangeStage.following_eq (stage : TimeRangeStage) :
    stage.following = stage.next.elim [] fun next => next :: next.following := by
  cases stage <;> rfl

namespace FetchSource

def timeQueryChunks (s : FetchSource) (stage : TimeRangeStage) (iterState : Option Nat)
    (interesting : Bool) : List PrioritizedRootChunk :=
  match s.timeCursor with
  | none => []
  | some timeCursor =>
    match (timeCursor.query stage).filter (!·.isEmpty),
        s.prioritizer.rootChunkIntervals timeCursor.timeline with
    | some query, some map =>
      let idx := iterState.getD (map.findFirstPossible (query.min, query.max))
      ((map.overlapsFrom (query.min, query.max) idx).filter
        fun e => s.isInteresting e.2 == interesting).map fun e =>
          if interesting then .similar e.2
            (timeCursor.offset stage (AbsoluteTimeRange.new e.1.1 e.1.2).min)
          else .everything e.2
    | _, _ => []

theorem timeQueryChunks_eq (s : FetchSource) (stage : TimeRangeStage) (iterState : Option Nat)
    (interesting : Bool) :
    s.timeQueryChunks stage iterState interesting =
      match s.nextInTimeQuery stage iterState interesting with
      | (none, _) => []
      | (some chunk, iterState) => chunk :: s.timeQueryChunks stage iterState interesting := by
  unfold timeQueryChunks nextInTimeQuery
  cases s.timeCursor with
  | none => rfl
  | some timeCursor =>
    simp only
    cases (timeCursor.query stage).filter (!·.isEmpty) with
    | none => rfl
    | some query =>
      cases s.prioritizer.rootChunkIntervals timeCursor.timeline with
      | none => rfl
      | some map =>
        simp only
        rw [SortedRangeMap.filter_overlapsFrom_eq_find]
        generalize map.find (query.min, query.max) _ _ = found
        obtain ⟨_ | ⟨⟨start, «end»⟩, chunk⟩, idx⟩ := found
        · rfl
        · rfl

def laterTimeQueries (s : FetchSource) (stage : TimeRangeStage) (interesting : Bool) :
    List PrioritizedRootChunk :=
  stage.following.flatMap fun stage => s.timeQueryChunks stage none interesting

def everythingChunks (s : FetchSource) : List PrioritizedRootChunk :=
  s.rootChunkKeys.map .everything

/-- What comes after the time queries for chunks of interest, or after the others. -/
def afterTimeQueries (s : FetchSource) : Bool → List PrioritizedRootChunk
  | true =>
    s.timeQueryChunks .afterCursor none false ++ s.laterTimeQueries .afterCursor false ++
      s.everythingChunks
  | false => s.everythingChunks

def timeQueries (s : FetchSource) : List PrioritizedRootChunk :=
  s.timeQueryChunks .afterCursor none true ++ s.laterTimeQueries .afterCursor true ++
    s.afterTimeQueries true

def highPrioFrom (s : FetchSource) (idx : IterState) : List PrioritizedRootChunk :=
  s.timeCursor.elim [] fun cursor =>
    let chunks := s.highPrioChunks cursor
    let count := ((s.highPrioIdx cursor idx).filter (· < chunks.length)).elim 0 (· + 1)
    (chunks.take count).reverse.map fun chunk => .required chunk.chunkId

def staticFrom (s : FetchSource) (idx : Nat) : List PrioritizedRootChunk :=
  (s.prioritizer.staticChunkIds.drop idx).map .required

def remaining (s : FetchSource) : ChunkPriorityStage → List PrioritizedRootChunk
  | .start tracker =>
    (s.missingRoots tracker).map .required ++ s.staticFrom 0 ++ s.highPrioFrom .uninited ++
      s.timeQueries
  | .missing rest =>
    rest.map .required ++ s.staticFrom 0 ++ s.highPrioFrom .uninited ++ s.timeQueries
  | .static idx => s.staticFrom idx ++ s.highPrioFrom .uninited ++ s.timeQueries
  | .highPrio idx => s.highPrioFrom idx ++ s.timeQueries
  | .timeQuery stage iterState interesting =>
    s.timeQueryChunks stage iterState interesting ++ s.laterTimeQueries stage interesting ++
      s.afterTimeQueries interesting
  | .everything rest => rest.map .everything
  | .done => []

theorem highPrioFrom_eq (s : FetchSource) (idx : IterState) :
    s.highPrioFrom idx =
      match s.highPrioAt idx with
      | some (0, chunk) => [.required chunk.chunkId]
      | some (i + 1, chunk) => .required chunk.chunkId :: s.highPrioFrom (.idx i)
      | none => [] := by
  unfold highPrioFrom highPrioAt
  cases s.timeCursor with
  | none => rfl
  | some cursor =>
    simp only [Option.elim_some, Option.bind_some]
    cases s.highPrioIdx cursor idx with
    | none => simp
    | some i =>
      rw [Option.bind_some]
      by_cases hlt : i < (s.highPrioChunks cursor).length
      · rw [List.getElem?_eq_getElem hlt, Option.map_some]
        cases i with
        | zero =>
          simp only [Option.filter_some, hlt, decide_true, if_true, Option.elim_some, zero_add]
          rw [List.take_one, List.head?_eq_getElem?, List.getElem?_eq_getElem hlt]
          rfl
        | succ i =>
          simp only [Option.filter_some, hlt, decide_true, if_true, Option.elim_some, highPrioIdx,
            Nat.lt_of_succ_lt hlt]
          rw [List.take_succ_eq_append_getElem hlt, List.reverse_append]
          rfl
      · rw [List.getElem?_eq_none (Nat.le_of_not_lt hlt), Option.filter_some,
          if_neg (by simpa using hlt)]
        rfl

theorem remaining_turn (s : FetchSource) (stage : ChunkPriorityStage) :
    s.remaining stage =
      match s.turn stage with
      | .yields chunk stage' => chunk :: s.remaining stage'
      | .moves stage' => s.remaining stage'
      | .ends => [] := by
  cases stage with
  | start tracker => rfl
  | missing rest => cases rest <;> rfl
  | static idx =>
    simp only [remaining, turn, staticFrom]
    cases h : s.prioritizer.staticChunkIds[idx]? with
    | none =>
      rw [List.drop_eq_nil_of_le (List.getElem?_eq_none_iff.mp h)]
      rfl
    | some chunk =>
      obtain ⟨hlt, rfl⟩ := List.getElem?_eq_some_iff.mp h
      rw [List.drop_eq_getElem_cons hlt]
      rfl
  | highPrio idx =>
    simp only [remaining, turn]
    rw [highPrioFrom_eq]
    rcases h : s.highPrioAt idx with _ | ⟨_ | i, chunk⟩
    · rfl
    · have hdone : s.highPrioFrom .done = [] := by
        rw [highPrioFrom_eq, highPrioAt]
        cases s.timeCursor <;> rfl
      simp only [hdone]
      rfl
    · rfl
  | timeQuery stage iterState interesting =>
    simp only [remaining, turn]
    rw [timeQueryChunks_eq]
    rcases s.nextInTimeQuery stage iterState interesting with ⟨_ | chunk, iterState'⟩
    · simp only [laterTimeQueries, TimeRangeStage.following_eq stage]
      cases stage.next with
      | some next => rfl
      | none =>
        cases interesting with
        | true => rfl
        | false => rfl
    · rfl
  | everything rest => cases rest <;> rfl
  | done => rfl

theorem remaining_nextChunk (s : FetchSource) (stage : ChunkPriorityStage) :
    s.remaining stage =
      match s.nextChunk stage with
      | (none, _) => []
      | (some chunk, stage') => chunk :: s.remaining stage' := by
  fun_induction s.nextChunk stage with
  | case1 stage chunk stage' h => rw [remaining_turn, h]
  | case2 stage stage' h ih =>
    rw [remaining_turn, h]
    exact ih
  | case3 stage h => rw [remaining_turn, h]

theorem remaining_of_nextChunk_none {s : FetchSource} (h : s.nextChunk stage = (none, stage')) :
    s.remaining stage' = [] := by
  fun_induction s.nextChunk stage with
  | case1 => simp at h
  | case2 stage next hturn ih => exact ih h
  | case3 stage hturn =>
    obtain rfl : stage = stage' := by simpa using h
    rw [remaining_turn, hturn]

end FetchSource

-- ---------------------------------------------------------------------------
-- Offsets
-- ---------------------------------------------------------------------------

namespace TimeInt

theorem asI64_sub (a b : TimeInt) : (a.sub b).asI64 =
    if a = STATIC ∨ b = STATIC then i64Min
    else max (i64Min + 1) (min i64Max (a.asI64 - b.asI64)) := by
  unfold sub
  split
  · rfl
  · rfl

theorem sub_mono {a a' : TimeInt} (b : TimeInt) (h : a ≤ a') : a.sub b ≤ a'.sub b := by
  rw [le_iff] at h ⊢
  have hl := a.lower
  have hl' := a'.lower
  rw [asI64_sub, asI64_sub]
  simp only [TimeInt.ext_iff, STATIC]
  have hmin : i64Min + 1 ≤ i64Max := by decide
  split <;> split <;> omega

theorem asI64_add_of_nonneg {a b : TimeInt} (ha : ZERO ≤ a) (hb : ZERO ≤ b) :
    (a.add b).asI64 = min i64Max (a.asI64 + b.asI64) := by
  rw [le_iff] at ha hb
  have ha : 0 ≤ a.asI64 := ha
  have hb : 0 ≤ b.asI64 := hb
  have hmin : i64Min < 0 := by decide
  have hmax : 0 ≤ i64Max := by decide
  rw [add, if_neg (by simp only [TimeInt.ext_iff, STATIC]; omega), newTemporal_asI64]
  omega

theorem add_mono {a b b' : TimeInt} (ha : ZERO ≤ a) (hb : ZERO ≤ b) (h : b ≤ b') :
    a.add b ≤ a.add b' := by
  rw [le_iff, asI64_add_of_nonneg ha hb, asI64_add_of_nonneg ha (hb.trans h)]
  rw [le_iff] at h
  omega

theorem le_add {a b : TimeInt} (ha : ZERO ≤ a) (hb : ZERO ≤ b) : a ≤ a.add b := by
  rw [le_iff, asI64_add_of_nonneg ha hb]
  rw [le_iff] at hb
  have hb : 0 ≤ b.asI64 := hb
  have := a.upper
  omega

end TimeInt

namespace PrefetchTimeCursor

theorem ZERO_le_distance (a b : TimeInt) : TimeInt.ZERO ≤ distance a b := le_max_right _ _

theorem distance_mono {a a' : TimeInt} (b : TimeInt) (h : a ≤ a') : distance a b ≤ distance a' b :=
  max_le_max (TimeInt.sub_mono b h) le_rfl

variable {cursor : PrefetchTimeCursor}

/-- Within a stage, chunks that start later are reached later. -/
theorem offset_mono (stage : TimeRangeStage) {a b : TimeInt} (h : a ≤ b) :
    FetchStage.similar (cursor.offset stage a) ≤ .similar (cursor.offset stage b) := by
  have hafter := cursor.realTimeOffset_mono _ _ (ZERO_le_distance a cursor.time)
    (distance_mono cursor.time h)
  cases stage with
  | afterCursor => exact hafter
  | beforeCursor =>
    unfold offset
    cases cursor.loopRange with
    | none => exact le_rfl
    | some r =>
      have hmono := TimeInt.add_mono (ZERO_le_distance r.max cursor.time)
        (ZERO_le_distance a r.min) (distance_mono r.min h)
      exact cursor.realTimeOffset_mono _ _ ((ZERO_le_distance _ _).trans
        (TimeInt.le_add (ZERO_le_distance _ _) (ZERO_le_distance _ _))) hmono
  | afterCursorOutsideLoop =>
    unfold offset
    cases cursor.loopRange with
    | none => exact hafter
    | some r => exact le_rfl
  | beforeCursorOutsideLoop => exact le_rfl

/-- What lies before the cursor is only reached after the rest of the loop. -/
theorem offset_after_le_before (hloop : cursor.loopRange = some r) (htime : cursor.time ≤ r.max)
    (h : a ≤ r.max.saturatedTemporal) (b : TimeInt) :
    FetchStage.similar (cursor.offset .afterCursor a) ≤
      .similar (cursor.offset .beforeCursor b) := by
  have hdistance : distance a cursor.time ≤ distance r.max cursor.time := by
    by_cases hstatic : r.max = .STATIC
    · obtain htime : cursor.time = .STATIC := by
        refine TimeInt.ext (le_antisymm ?_ cursor.time.lower)
        exact TimeInt.le_iff.mp (hstatic ▸ htime)
      simp [distance, TimeInt.sub, htime]
    · refine distance_mono cursor.time ?_
      rwa [TimeInt.saturatedTemporal, max_eq_left (TimeInt.MIN_le_iff.mpr hstatic)] at h
  simp only [offset, hloop, Option.bind_some]
  exact cursor.realTimeOffset_mono _ _ (ZERO_le_distance _ _)
    (hdistance.trans (TimeInt.le_add (ZERO_le_distance _ _) (ZERO_le_distance _ _)))

end PrefetchTimeCursor

-- ---------------------------------------------------------------------------
-- Stages never decrease
-- ---------------------------------------------------------------------------

namespace FetchSource

variable {s : FetchSource}

theorem mem_timeQueryChunks {interesting : Bool} :
    p ∈ s.timeQueryChunks stage none interesting ↔
      ∃ cursor query map, s.timeCursor = some cursor ∧ cursor.query stage = some query ∧
        query.isEmpty = false ∧ s.prioritizer.rootChunkIntervals cursor.timeline = some map ∧
        ∃ e ∈ map.entries, (e.1.1 ≤ query.max ∧ query.min ≤ e.1.2) ∧
          s.isInteresting e.2 = interesting ∧
          p = if interesting then .similar e.2
            (cursor.offset stage (AbsoluteTimeRange.new e.1.1 e.1.2).min) else .everything e.2 := by
  unfold timeQueryChunks
  cases s.timeCursor with
  | none => simp
  | some cursor =>
    simp only
    rcases hquery : (cursor.query stage).filter (!·.isEmpty) with _ | query
    · rw [hquery]
      simp only [List.not_mem_nil, false_iff]
      rintro ⟨_, query, map, hcursor, hquery', hempty, -⟩
      obtain rfl := Option.some.inj hcursor
      rw [hquery', Option.filter_some, if_pos (by simpa using hempty)] at hquery
      simp at hquery
    · rw [hquery]
      obtain ⟨hquery, hempty⟩ := Option.filter_eq_some_iff.mp hquery
      rcases hmap : s.prioritizer.rootChunkIntervals cursor.timeline with _ | map
      · simp only [List.not_mem_nil, false_iff]
        rintro ⟨_, _, _, hcursor, -, -, hmap', -⟩
        obtain rfl := Option.some.inj hcursor
        simp [hmap] at hmap'
      · simp only [Option.getD_none, SortedRangeMap.overlapsFrom_findFirstPossible, List.mem_map,
          List.mem_filter, decide_eq_true_eq, beq_iff_eq]
        constructor
        · rintro ⟨e, ⟨⟨he, hoverlap⟩, hinterest⟩, rfl⟩
          exact ⟨cursor, query, map, rfl, hquery, by simpa using hempty, hmap, e, he, hoverlap,
            hinterest, rfl⟩
        · rintro ⟨_, query', map', hcursor, hquery', -, hmap', e, he, hoverlap, hinterest, rfl⟩
          obtain rfl := Option.some.inj hcursor
          obtain rfl := Option.some.inj (hquery.symm.trans hquery')
          obtain rfl := Option.some.inj (hmap.symm.trans hmap')
          exact ⟨e, ⟨⟨he, hoverlap⟩, hinterest⟩, rfl⟩

theorem timeQueryChunks_pairwise (stage : TimeRangeStage) :
    (s.timeQueryChunks stage none true).Pairwise fun p q => p.stage ≤ q.stage := by
  unfold timeQueryChunks
  cases s.timeCursor with
  | none => exact .nil
  | some cursor =>
    simp only
    split
    · rename_i query map _ _
      simp only [Option.getD_none, SortedRangeMap.overlapsFrom_findFirstPossible, if_true]
      refine List.Pairwise.map _ ?_ ((map.sorted.filter _).filter _)
      intro e e' hle
      exact PrefetchTimeCursor.offset_mono stage (max_le_max hle le_rfl)
    · exact .nil

theorem stage_of_mem_timeQueryChunks (h : p ∈ s.timeQueryChunks stage none false) :
    p.stage = .everything := by
  obtain ⟨_, _, _, -, -, -, -, e, -, -, -, rfl⟩ := mem_timeQueryChunks.mp h
  rfl

variable (s) in
def LoopsAroundCursor : Prop :=
  ∀ cursor r, s.timeCursor = some cursor → cursor.loopRange = some r → r.contains cursor.time

theorem after_le_before (hloop : s.LoopsAroundCursor)
    (hp : p ∈ s.timeQueryChunks .afterCursor none true)
    (hq : q ∈ s.timeQueryChunks .beforeCursor none true) : p.stage ≤ q.stage := by
  obtain ⟨cursor, query, map, hcursor, hquery, -, -, e, -, ⟨hmax, -⟩, -, rfl⟩ :=
    mem_timeQueryChunks.mp hp
  obtain ⟨_, query', _, hcursor', -, -, -, e', -, -, -, rfl⟩ := mem_timeQueryChunks.mp hq
  obtain rfl := Option.some.inj (hcursor.symm.trans hcursor')
  obtain ⟨r, hr, rfl⟩ := Option.map_eq_some_iff.mp hquery
  exact PrefetchTimeCursor.offset_after_le_before hr
    (AbsoluteTimeRange.contains_iff.mp (hloop cursor r hcursor hr)).2
    (max_le hmax (le_max_right _ _)) _

/-- What the loop yields comes before what lies outside of it, which is never reached. -/
theorem inside_le_outside (hstage : stage = .afterCursor ∨ stage = .beforeCursor)
    (hp : p ∈ s.timeQueryChunks stage none true)
    (hq : q ∈ s.timeQueryChunks .afterCursorOutsideLoop none true) : p.stage ≤ q.stage := by
  obtain ⟨cursor, query, _, hcursor, hquery, -, -, e, -, -, -, rfl⟩ := mem_timeQueryChunks.mp hp
  obtain ⟨_, _, _, hcursor', -, -, -, e', -, -, -, rfl⟩ := mem_timeQueryChunks.mp hq
  obtain rfl := Option.some.inj (hcursor.symm.trans hcursor')
  obtain ⟨r, hr⟩ : ∃ r, cursor.loopRange = some r := by
    rcases hstage with rfl | rfl
    · obtain ⟨r, hr, -⟩ := Option.map_eq_some_iff.mp hquery
      exact ⟨r, hr⟩
    · obtain ⟨r, hr, -⟩ := Option.map_eq_some_iff.mp hquery
      exact ⟨r, hr⟩
  simp only [if_true, PrioritizedRootChunk.similar, PrefetchTimeCursor.offset, hr,
    Option.isSome_some]
  exact FetchStage.similar_le_none _

theorem le_beforeCursorOutsideLoop (hp : p ∈ s.timeQueryChunks stage none true)
    (hq : q ∈ s.timeQueryChunks .beforeCursorOutsideLoop none true) : p.stage ≤ q.stage := by
  obtain ⟨_, _, _, -, -, -, -, e, -, -, -, rfl⟩ := mem_timeQueryChunks.mp hp
  obtain ⟨_, _, _, -, -, -, -, e', -, -, -, rfl⟩ := mem_timeQueryChunks.mp hq
  exact FetchStage.similar_le_none _

theorem interesting_pairwise (hloop : s.LoopsAroundCursor) :
    (s.timeQueryChunks .afterCursor none true ++ s.laterTimeQueries .afterCursor true).Pairwise
      fun p q => p.stage ≤ q.stage := by
  simp only [laterTimeQueries, TimeRangeStage.following, List.flatMap_cons, List.flatMap_nil,
    List.append_nil, List.pairwise_append, List.mem_append]
  refine ⟨timeQueryChunks_pairwise _, ⟨timeQueryChunks_pairwise _, ⟨timeQueryChunks_pairwise _,
    timeQueryChunks_pairwise _, fun p hp q hq => le_beforeCursorOutsideLoop hp hq⟩, ?_⟩, ?_⟩
  · rintro p hp q (hq | hq)
    · exact inside_le_outside (.inr rfl) hp hq
    · exact le_beforeCursorOutsideLoop hp hq
  · rintro p hp q (hq | hq | hq)
    · exact after_le_before hloop hp hq
    · exact inside_le_outside (.inl rfl) hp hq
    · exact le_beforeCursorOutsideLoop hp hq

theorem stage_of_mem_everything
    (h : p ∈ s.afterTimeQueries true) : p.stage = .everything := by
  simp only [afterTimeQueries, laterTimeQueries, everythingChunks, List.mem_append,
    List.mem_flatMap, List.mem_map] at h
  rcases h with (h | ⟨_, -, h⟩) | ⟨chunk, -, rfl⟩
  · exact stage_of_mem_timeQueryChunks h
  · exact stage_of_mem_timeQueryChunks h
  · rfl

variable (s) in
def requiredChunks (tracker : QueriedChunkIdTracker) : List PrioritizedRootChunk :=
  (s.missingRoots tracker).map .required ++ s.staticFrom 0 ++ s.highPrioFrom .uninited

theorem stage_of_mem_required (h : p ∈ s.requiredChunks tracker) : p.stage = .required := by
  simp only [requiredChunks, staticFrom, highPrioFrom, List.mem_append, List.mem_map] at h
  rcases h with (⟨_, -, rfl⟩ | ⟨_, -, rfl⟩) | h
  · rfl
  · rfl
  · cases hcursor : s.timeCursor with
    | none => simp [hcursor] at h
    | some cursor =>
      simp only [hcursor, Option.elim_some, List.mem_map] at h
      obtain ⟨_, -, rfl⟩ := h
      rfl

/-- The stages of what is yielded never decrease. -/
theorem remaining_pairwise (hloop : s.LoopsAroundCursor) (tracker : QueriedChunkIdTracker) :
    (s.remaining (.start tracker)).Pairwise fun p q => p.stage ≤ q.stage := by
  show (s.requiredChunks tracker ++ s.timeQueries).Pairwise _
  have hall {l : List PrioritizedRootChunk} {stage : FetchStage}
      (h : ∀ p ∈ l, p.stage = stage) : l.Pairwise fun p q => p.stage ≤ q.stage :=
    List.pairwise_of_forall_mem_list fun p hp q hq => by rw [h p hp, h q hq]
  refine List.pairwise_append.mpr ⟨hall fun p => stage_of_mem_required, ?_, ?_⟩
  · refine List.pairwise_append.mpr ⟨interesting_pairwise hloop,
      hall fun p => stage_of_mem_everything, fun p _ q hq => ?_⟩
    rw [stage_of_mem_everything hq]
    exact FetchStage.le_everything _
  · intro p hp q _
    rw [stage_of_mem_required hp]
    exact FetchStage.required_le _

end FetchSource

end DimosViewer
