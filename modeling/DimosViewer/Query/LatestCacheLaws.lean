import DimosViewer.CanonicalMemo
import DimosViewer.Query.LatestCache
import DimosViewer.Store.RangeLookup

/-!
# What a look-up has found stays found

The cache of one key is a memo table over the search in the store. The search at the data time of a
row finds that row again if it visits the same chunks, and it does so unless the last start time of
the index is above all the rows: the key of a chunk that has been removed, or of one without rows.
-/

namespace DimosViewer

open ChunkStore (partitionPoint)
open Grouping
open Std (TreeMap TreeSet)

namespace Chunk

-- ---------------------------------------------------------------------------
-- The answer of one chunk at two times
-- ---------------------------------------------------------------------------

theorem lastValid_congr {column : SerializedComponentColumn} {n m : Nat} (hle : n ≤ m)
    (h : ∀ i, n ≤ i → i < m → column.isValid i = false) :
    lastValid column m = lastValid column n := by
  induction m with
  | zero => rw [Nat.le_zero.mp hle]
  | succ m ih =>
    obtain rfl | hlt := hle.eq_or_lt
    · rfl
    · have hm := Nat.le_of_lt_succ hlt
      rw [lastValid, if_neg (by simp [h m hm (Nat.lt_succ_self m)])]
      exact ih hm fun i hi hlt => h i hi (Nat.lt_succ_of_lt hlt)

theorem latestRow_congr {c : Chunk} (h : c.WellFormed) {timeline : TimelineName}
    {component : ComponentIdentifier} {lo hi : TimeInt} (hle : lo ≤ hi)
    (hrows : ∀ i key, c.Candidate ⟨timeline, hi⟩ component i key → (ofLex key).1 ≤ lo) :
    c.latestRow ⟨timeline, hi⟩ component = c.latestRow ⟨timeline, lo⟩ component := by
  rw [latestRow, latestRow]
  cases hc : c.components.get component with
  | none => rfl
  | some column =>
    rw [Option.bind_some, Option.bind_some, latestIndex, latestIndex]
    cases hst : c.isStatic with
    | true => rfl
    | false =>
      simp only [Bool.false_eq_true, if_false]
      cases ht : c.timeline? timeline with
      | none => rfl
      | some tc =>
        obtain ⟨htc, hlen⟩ := h.timeline_of_lookup ht
        -- A valid row up to `hi` is up to `lo` already.
        have hvalid (i : Nat) (time : TimeInt) (hi' : tc.times[i]? = some time)
            (hv : column.isValid i = true) (hat : time ≤ hi) : time ≤ lo :=
          hrows i _ ⟨hlen ▸ (List.getElem?_eq_some_iff.mp hi').1, isSome_cells_rowAt hc i ▸ hv,
            time, timeAt_eq hst ht i ▸ hi', hat, rfl⟩
        simp only [Option.bind_eq_bind, Option.bind_some]
        cases hts : tc.isSorted with
        | true =>
          have hpair := isSortedList_iff.mp (htc.sorted ▸ hts)
          have hlt (at' : TimeInt) {i : Nat} {time : TimeInt} (hi' : tc.times[i]? = some time) :
              i < partitionPoint (· ≤ at') tc.times ↔ time ≤ at' := by
            simpa using lt_partitionPoint_iff hpair (p := (· ≤ at'))
              (fun a b hab hb => decide_eq_true (hab.trans (of_decide_eq_true hb))) hi'
          have hmem (at' : TimeInt) {i : Nat} (hi' : i < partitionPoint (· ≤ at') tc.times) :
              ∃ time, tc.times[i]? = some time :=
            ⟨_, List.getElem?_eq_getElem
              (hi'.trans_le (List.takeWhile_prefix _).length_le)⟩
          have hpoints : partitionPoint (· ≤ lo) tc.times ≤ partitionPoint (· ≤ hi) tc.times := by
            by_contra hgt
            obtain ⟨time, htime⟩ := hmem lo (not_le.mp hgt)
            have hlo := (hlt lo htime).mp (not_le.mp hgt)
            exact (lt_irrefl _) ((hlt hi htime).mpr (hlo.trans hle))
          refine congrArg (if c.isEmpty then none else ·) ?_
          refine lastValid_congr (by omega) fun i hge hlt' => ?_
          have hin : i < partitionPoint (· ≤ hi) tc.times := by omega
          obtain ⟨time, htime⟩ := hmem hi hin
          by_contra hv
          have hlo := hvalid i time htime (Bool.not_eq_false _ ▸ hv) ((hlt hi htime).mp hin)
          have := (hlt lo htime).mpr hlo
          omega
        | false =>
          refine congrArg (if c.isEmpty then none else ·) ?_
          have hstep : ∀ acc, ∀ entry ∈ (tc.times.zip c.rowIds).zipIdx,
              closer column hi acc entry = closer column lo acc entry := by
            rintro ⟨closest, closestRowId, index⟩ ⟨⟨time, rowId⟩, i⟩ hentry
            have hrow : (tc.times.zip c.rowIds)[i]? = some (time, rowId) := by
              simpa using List.mem_zipIdx_iff_getElem?.mp hentry
            have htime := (List.getElem?_zip_eq_some.mp hrow).1
            have hmin := htc.temporal time (List.mem_of_getElem? htime)
            simp only [closer, TimeInt.newTemporal_asI64_eq hmin]
            cases hv : column.isValid i with
            | false => rfl
            | true =>
              have hiff : time ≤ hi ↔ time ≤ lo :=
                ⟨hvalid i time htime hv, fun hlo => hlo.trans hle⟩
              simp only [hiff]
          simp only [Bool.false_eq_true, if_false, closestTemporal_eq]
          rw [List.foldl_ext _ _ _ hstep]

theorem latestAt_congr {c : Chunk} (h : c.WellFormed) {timeline : TimelineName}
    {component : ComponentIdentifier} {lo hi : TimeInt} (hle : lo ≤ hi)
    (hrows : ∀ i key, c.Candidate ⟨timeline, hi⟩ component i key → (ofLex key).1 ≤ lo)
    (id : ChunkId) :
    c.latestAt id ⟨timeline, hi⟩ component = c.latestAt id ⟨timeline, lo⟩ component := by
  rw [latestAt_eq, latestAt_eq, latestRow_congr h hle hrows]

-- ---------------------------------------------------------------------------
-- The index of an answer
-- ---------------------------------------------------------------------------

theorem isStatic_rowSliced (c : Chunk) (id : ChunkId) (index len : Nat) :
    (c.rowSliced id index len).isStatic = c.isStatic := by
  rw [rowSliced]
  split
  · simp [isStatic, emptied]
  · dsimp only
    split <;> simp [isStatic, emptied]

theorem index_rowSlicedUnit {c : Chunk} (h : c.WellFormed) {id : ChunkId} {i : Nat}
    (hi : i < c.numRows) (hu : c.rowSlicedUnit id i = some unit) (timeline : TimelineName) :
    unit.index timeline =
      (c.timeAt timeline i).map fun time => toLex (time, (c.rowAt i).rowId) := by
  obtain ⟨unit', hu', hrows⟩ := rows_rowSlicedUnit h id hi
  cases hu.symm.trans hu'
  have hstatic : unit.chunk.isStatic = c.isStatic := by
    rw [rowSlicedUnit, intoUnitWithOriginalChunkId] at hu
    split at hu
    case isTrue => cases hu; exact isStatic_rowSliced c id i 1
    case isFalse => cases hu
  -- The only row of the unit is the row of the chunk.
  have hrow : unit.chunk.rowAt 0 = c.rowAt i := by
    have := congrArg List.head? hrows
    simpa [rows, unit.one] using this
  have hrowId : unit.chunk.rowIds.head? = some (c.rowAt i).rowId := by
    have hone := unit.one
    rw [List.head?_eq_getElem?, ← hrow]
    exact rowAt_rowId (by omega)
  rw [UnitChunkShared.index, timeAt, hstatic]
  split
  · rw [hrowId, Option.map_some, Option.map_some]
  · rw [hrowId, ← hrow]
    simp only [times_rowAt, columnAt]
    cases unit.chunk.timeline? timeline with
    | none => rfl
    | some tc =>
      simp only [Option.bind_eq_bind, Option.bind_some, Option.map_some, List.head?_eq_getElem?]
      cases tc.times[0]? <;> rfl

-- ---------------------------------------------------------------------------
-- The answer and the rows that may answer
-- ---------------------------------------------------------------------------

theorem latestAt_rows {c : Chunk} (h : c.WellFormed) (hs : c.isSorted = true) (id : ChunkId)
    {query : LatestAtQuery} (hat : TimeInt.MIN ≤ query.at') {component : ComponentIdentifier}
    (hfirst : ¬ c.BeforeFirst query component) :
    (c.latestAt id query component = none ∧ ∀ i key, c.Candidate query component i key →
      c.isStatic = false ∧ key = toLex (TimeInt.MIN, RowId.ZERO)) ∨
    ∃ unit i key, c.latestAt id query component = some unit ∧ unit.chunk.rows = [c.rowAt i] ∧
      unit.index query.timeline = some key ∧ c.Candidate query component i key ∧
      ∀ j key', c.Candidate query component j key' → key' ≤ key := by
  by_cases hleast : c.OnlyLeast query component
  · refine .inl ⟨?_, fun i key hcand => ⟨?_, hleast.2.2 i key hcand⟩⟩
    · rw [latestAt_eq_none_iff h hs id hat, hleast.latestRow h hat]
    · obtain ⟨tc, ht, -⟩ := hleast.1
      exact isStatic_eq_false ht
  · have htakes := latestRow_takesLatest h hs hat hfirst hleast
    cases hrow : c.latestRow query component with
    | none =>
      refine .inl ⟨(latestAt_eq_none_iff h hs id hat component).mpr hrow, fun i key hcand => ?_⟩
      exact absurd hcand (htakes.none hrow i key)
    | some i =>
      obtain ⟨key, hcand, hgreatest⟩ := htakes.some i hrow
      obtain ⟨unit, hunit, hrows⟩ := rows_rowSlicedUnit h id hcand.row
      refine .inr ⟨unit, i, key, ?_, hrows, ?_, hcand, hgreatest⟩
      · rw [latestAt_eq, hrow, Option.bind_some, hunit]
      · obtain ⟨time, htime, -, rfl⟩ := hcand.key
        rw [index_rowSlicedUnit h hcand.row hunit, htime, Option.map_some]

/-- A chunk answers with its greatest candidate, or has none above the least key. -/
theorem latestAt_cases {c : Chunk} (h : c.WellFormed) (hs : c.isSorted = true) (id : ChunkId)
    {query : LatestAtQuery} (hat : TimeInt.MIN ≤ query.at') {component : ComponentIdentifier}
    (hfirst : ¬ c.BeforeFirst query component) :
    (c.latestAt id query component = none ∧ ∀ i key, c.Candidate query component i key →
      c.isStatic = false ∧ key = toLex (TimeInt.MIN, RowId.ZERO)) ∨
    ∃ unit i key, c.latestAt id query component = some unit ∧
      unit.index query.timeline = some key ∧ c.Candidate query component i key ∧
      ∀ j key', c.Candidate query component j key' → key' ≤ key :=
  (latestAt_rows h hs id hat hfirst).imp_right
    fun ⟨unit, i, key, hu, _, hi, hgreatest⟩ => ⟨unit, i, key, hu, hi, hgreatest⟩

theorem Candidate.MIN_le {c : Chunk} (h : c.WellFormed) {key : TimeInt ×ₗ RowId}
    (hcand : c.Candidate query component i key) (hst : c.isStatic = false) :
    TimeInt.MIN ≤ (ofLex key).1 := by
  obtain ⟨-, -, time, htime, -, rfl⟩ := hcand
  simp only [timeAt, hst, Bool.false_eq_true, if_false, rowAt] at htime
  obtain ⟨⟨timeline, time'⟩, hrow, rfl⟩ := Option.map_eq_some_iff.mp htime
  obtain ⟨tc, ht, hrow⟩ := Option.bind_eq_some_iff.mp hrow
  obtain ⟨time', hi, heq⟩ := Option.map_eq_some_iff.mp hrow
  cases heq
  exact (h.timeline_of_lookup ht).1.temporal time' (List.mem_of_getElem? hi)

end Chunk

-- ---------------------------------------------------------------------------
-- The greatest index
-- ---------------------------------------------------------------------------

theorem maxByKey_spec {κ α : Type} [LinearOrder κ] {l : List (κ × α)} {entry : κ × α}
    (h : maxByKey l = some entry) : entry ∈ l ∧ ∀ other ∈ l, other.1 ≤ entry.1 := by
  have hconcat (l : List (κ × α)) (x : κ × α) : maxByKey (l ++ [x]) =
      some ((maxByKey l).elim x fun best => if x.1 < best.1 then best else x) := by
    rw [maxByKey, List.foldl_append, ← maxByKey]
    cases maxByKey l with
    | none => rfl
    | some best =>
      by_cases hlt : x.1 < best.1 <;> simp [hlt]
  induction l using List.reverseRecOn generalizing entry with
  | nil => cases h
  | append_singleton l x ih =>
    rw [hconcat] at h
    cases hbest : maxByKey l with
    | none =>
      rw [hbest] at h
      cases h
      cases l using List.reverseRecOn with
      | nil => simp
      | append_singleton l y => simp [hconcat] at hbest
    | some best =>
      obtain ⟨hmem, hle⟩ := ih hbest
      simp only [hbest, Option.elim_some, Option.some.injEq] at h
      split at h
      case isTrue hlt =>
        subst h
        refine ⟨List.mem_append_left _ hmem, fun other ho => ?_⟩
        obtain ho | ho := List.mem_append.mp ho
        · exact hle other ho
        · exact List.mem_singleton.mp ho ▸ hlt.le
      case isFalse hlt =>
        subst h
        refine ⟨List.mem_append_right _ (List.mem_singleton_self _), fun other ho => ?_⟩
        obtain ho | ho := List.mem_append.mp ho
        · exact (hle other ho).trans (not_lt.mp hlt)
        · exact (List.mem_singleton.mp ho) ▸ le_rfl

-- ---------------------------------------------------------------------------
-- The search in the store
-- ---------------------------------------------------------------------------

namespace ChunkStore

variable {env : Env} {pol : Policy} {s : ChunkStore} {query : LatestAtQuery}
  {entityPath : EntityPath} {component : ComponentIdentifier} {unitId : ChunkId}

abbrev latestResults (s : ChunkStore) (query : LatestAtQuery) (entityPath : EntityPath)
    (component : ComponentIdentifier) : QueryResults :=
  s.latestAtRelevantChunks .report query entityPath component

def latestFound (unitId : ChunkId) (s : ChunkStore) (timeline : TimelineName)
    (entityPath : EntityPath) (component : ComponentIdentifier) (at' : TimeInt) :
    Option (TimeInt × UnitChunkShared) :=
  let results := s.latestResults ⟨timeline, at'⟩ entityPath component
  if !results.missingVirtual.isEmpty then none
  else (maxByKey (latestUnits unitId ⟨timeline, at'⟩ component results.chunks)).map
    fun found => ((ofLex found.1).1, found.2)

def Answers (s : ChunkStore) (query : LatestAtQuery) (entityPath : EntityPath)
    (component : ComponentIdentifier) (key : TimeInt ×ₗ RowId) : Prop :=
  ∃ c ∈ (s.latestResults query entityPath component).chunks, ∃ i,
    c.Candidate query component i key

/-- What a look-up visits is what the indices say, and if there is a row that may answer, then
there is one from the last start time on. -/
structure Anchored (s : ChunkStore) (query : LatestAtQuery) (entityPath : EntityPath)
    (component : ComponentIdentifier) : Prop where
  kind : ∀ c ∈ (s.latestResults query entityPath component).chunks,
    c.isStatic = (s.staticChunkId? entityPath component).isSome
  begun : ∀ c ∈ (s.latestResults query entityPath component).chunks,
    ¬ c.BeforeFirst query component
  fresh : s.staticChunkId? entityPath component = none → ∀ p last,
    s.perTimeOfComponent? entityPath query.timeline component = some p →
    p.lastStart query.at' = some last →
    (∃ key, s.Answers query entityPath component key) →
    ∃ key, s.Answers query entityPath component key ∧ last ≤ (ofLex key).1

/-- A look-up that misses chunks finds nothing, any other one is anchored. -/
def Settled (s : ChunkStore) (query : LatestAtQuery) (entityPath : EntityPath)
    (component : ComponentIdentifier) : Prop :=
  (s.latestResults query entityPath component).missingVirtual = [] →
    s.Anchored query entityPath component

theorem storable_of_mem_latestResults (h : Core env pol s)
    (hc : c ∈ (s.latestResults query entityPath component).chunks) : c.Storable := by
  have hphys : ∃ key : ChunkId, s.physicalChunksPerChunkId[key]? = some c := by
    rw [latestResults, latestAtRelevantChunks] at hc
    split at hc <;>
      obtain ⟨key, -, hk⟩ := List.mem_filterMap.mp hc <;>
      exact ⟨key, hk⟩
  exact h.storable hphys.choose_spec

theorem latestAt_congr {p : ChunkIdSetPerTime} {timeline : TimelineName} {lo hi : TimeInt}
    (hle : lo ≤ hi) (hlast : ∀ last, p.lastStart hi = some last → last ≤ lo) :
    latestAt ⟨timeline, hi⟩ p = latestAt ⟨timeline, lo⟩ p := by
  have hentries : p.entriesUpTo hi = p.entriesUpTo lo := by
    refine List.filter_congr fun entry hentry => decide_eq_decide.mpr ⟨fun hin => ?_, (·.trans hle)⟩
    have hmem : entry.1 ∈ p.perStartTime := by
      rw [Std.TreeMap.mem_toList_iff_getElem?_eq_some] at hentry
      exact Std.TreeMap.mem_iff_isSome_getElem?.mpr (hentry ▸ rfl)
    obtain ⟨last, hl, hle'⟩ := ChunkIdSetPerTime.le_lastStart hmem hin
    exact hle'.trans (hlast last hl)
  have hstart : p.lastStart hi = p.lastStart lo := by
    rw [ChunkIdSetPerTime.lastStart, ChunkIdSetPerTime.lastStart, hentries]
  rw [latestAt, latestAt, hstart, hentries]

theorem mem_latestUnits {chunks : List Chunk} {entry : (TimeInt ×ₗ RowId) × UnitChunkShared} :
    entry ∈ latestUnits unitId query component chunks ↔
      ∃ c ∈ chunks, c.latestAt unitId query component = some entry.2 ∧
        entry.2.index query.timeline = some entry.1 := by
  simp only [latestUnits, List.mem_filterMap, Option.bind_eq_bind, Option.bind_eq_some_iff,
    Option.pure_def, Option.some.injEq]
  constructor
  · rintro ⟨c, hc, unit, hu, index, hi, rfl⟩
    exact ⟨c, hc, hu, hi⟩
  · rintro ⟨c, hc, hu, hi⟩
    exact ⟨c, hc, entry.2, hu, entry.1, hi, rfl⟩

/-- The row that is found has the greatest index, and lies within the query. -/
theorem latestFound_spec (hcore : Core env pol s) (hat : TimeInt.MIN ≤ query.at')
    (hset : s.Settled query entityPath component)
    (hf : s.latestFound unitId query.timeline entityPath component query.at' = some (time, unit)) :
    s.Anchored query entityPath component ∧ (∃ rowId, s.Answers query entityPath component
      (toLex (time, rowId))) ∧
      ∀ key, s.Answers query entityPath component key → (ofLex key).1 ≤ time := by
  rw [latestFound] at hf
  split at hf
  case isTrue => cases hf
  case isFalse hmissing =>
    have hanchored := hset (by simpa using hmissing)
    obtain ⟨⟨index, unit'⟩, hmax, heq⟩ := Option.map_eq_some_iff.mp hf
    cases heq
    obtain ⟨hmem, hle⟩ := maxByKey_spec hmax
    obtain ⟨c₀, hc₀, hu₀, hi₀⟩ := mem_latestUnits.mp hmem
    -- The row that is found is one of the candidates.
    obtain ⟨i₀, hcand₀⟩ : ∃ i, c₀.Candidate query component i index := by
      have hw := storable_of_mem_latestResults hcore hc₀
      obtain ⟨hnone, -⟩ | ⟨unit', i, key, hu, hi, hcand, -⟩ :=
        Chunk.latestAt_cases hw.wellFormed hw.isSorted unitId hat (hanchored.begun c₀ hc₀)
      · cases hu₀.symm.trans hnone
      · cases hu.symm.trans hu₀
        cases hi.symm.trans hi₀
        exact ⟨i, hcand⟩
    refine ⟨hanchored, ⟨(ofLex index).2, c₀, hc₀, i₀, hcand₀⟩, ?_⟩
    rintro key ⟨c, hc, i, hcand⟩
    have hw := storable_of_mem_latestResults hcore hc
    obtain ⟨-, hleast⟩ | ⟨unit', i', key', hu, hi, -, hgreatest⟩ :=
      Chunk.latestAt_cases hw.wellFormed hw.isSorted unitId hat (hanchored.begun c hc)
    · obtain ⟨hst, rfl⟩ := hleast i key hcand
      have hst₀ := (hanchored.kind c₀ hc₀).trans ((hanchored.kind c hc).symm.trans hst)
      exact hcand₀.MIN_le (storable_of_mem_latestResults hcore hc₀).wellFormed hst₀
    · have hkey := (hgreatest i key hcand).trans
        (hle (key', unit') (mem_latestUnits.mpr ⟨c, hc, hu, hi⟩))
      exact Prod.Lex.monotone_fst _ _ hkey

theorem Answers.time_le (h : s.Answers query entityPath component key) :
    (ofLex key).1 ≤ query.at' := by
  obtain ⟨c, -, i, -, -, time, -, hat, rfl⟩ := h
  exact hat

/-- A settled look-up at the data time of a row finds the row again. -/
theorem canonical_latestFound (hcore : Core env pol s) (hat : TimeInt.MIN ≤ query.at')
    (hset : s.Settled query entityPath component) :
    CanonicalMemo.Canonical (s.latestFound unitId query.timeline entityPath component)
      query.at' := by
  intro time unit hf
  obtain ⟨hanchored, ⟨rowId, hans⟩, hle⟩ := latestFound_spec hcore hat hset hf
  have htime : time ≤ query.at' := hans.time_le
  have hresults : s.latestResults ⟨query.timeline, query.at'⟩ entityPath component =
      s.latestResults ⟨query.timeline, time⟩ entityPath component := by
    rw [latestResults, latestResults, latestAtRelevantChunks, latestAtRelevantChunks]
    cases hst : s.staticChunkId? entityPath component with
    | some staticChunkId => rfl
    | none =>
      cases hp : s.perTimeOfComponent? entityPath query.timeline component with
      | none => rfl
      | some p =>
        simp only [Option.map_some, Option.getD_some]
        rw [latestAt_congr htime fun last hlast => ?_]
        obtain ⟨key, hkey, hlast⟩ := hanchored.fresh hst p last hp hlast ⟨_, hans⟩
        exact hlast.trans (hle key hkey)
  rw [← hf, latestFound, latestFound, ← hresults]
  have hunits : latestUnits unitId ⟨query.timeline, time⟩ component
        (s.latestResults query entityPath component).chunks =
      latestUnits unitId query component (s.latestResults query entityPath component).chunks := by
    refine List.filterMap_congr fun c hc => ?_
    rw [Chunk.latestAt_congr (storable_of_mem_latestResults hcore hc).wellFormed htime
      fun i key hcand => hle key ⟨c, hc, i, hcand⟩]
  simp only [hunits]

end ChunkStore

-- ---------------------------------------------------------------------------
-- One cache
-- ---------------------------------------------------------------------------

open CanonicalMemo (answer)

namespace LatestAtCache

def units (perQueryTime : TreeMap TimeInt LatestAtCachedChunk) (time : TimeInt) :
    Option UnitChunkShared :=
  (perQueryTime[time]?).map (·.unit)

def table (cache : LatestAtCache) : TimeInt → Option UnitChunkShared :=
  units cache.handlePendingInvalidation.perQueryTime

/-- `cache` is `cache₀` after some look-ups; what was there at first is never invalidated again. -/
structure Grown (f : TimeInt → Option (TimeInt × UnitChunkShared))
    (cache₀ cache : LatestAtCache) : Prop where
  table : CanonicalMemo.Grown f cache₀.table cache.table
  pending : ∀ x ∈ cache.handlePendingInvalidation.pendingInvalidations, ∀ time unit,
    cache₀.table time = some unit → time < x

def Kept (pending : TreeSet TimeInt) (time : TimeInt) : Prop :=
  ∀ oldest ∈ pending.min?, time < oldest

instance (pending : TreeSet TimeInt) : DecidablePred (Kept pending) := fun time =>
  decidable_of_iff ((pending.min?).all fun oldest => time < oldest) (by
    rw [Kept]
    cases pending.min? <;> simp)

theorem table_apply (cache : LatestAtCache) (time : TimeInt) :
    cache.table time =
      if Kept cache.pendingInvalidations time then units cache.perQueryTime time else none := by
  rw [table, handlePendingInvalidation]
  cases hmin : cache.pendingInvalidations.min? with
  | none => simp [Kept, hmin]
  | some oldest =>
    simp only [units, Std.TreeMap.getElem?_filter', Kept, hmin, Option.mem_def,
      Option.some.injEq, forall_eq']
    cases cache.perQueryTime[time]? <;> by_cases hlt : time < oldest <;> simp [hlt]

theorem mem_pending {cache : LatestAtCache}
    (h : x ∈ cache.handlePendingInvalidation.pendingInvalidations) :
    x ∈ cache.pendingInvalidations := by
  rw [handlePendingInvalidation] at h
  split at h
  · exact h
  · exact Std.TreeSet.mem_of_mem_filter h

theorem Grown.refl (f : TimeInt → Option (TimeInt × UnitChunkShared)) (cache : LatestAtCache) :
    Grown f cache cache := by
  refine ⟨.refl f _, fun x hx time unit ht => ?_⟩
  rw [table_apply] at ht
  split at ht
  case isTrue hkept =>
    have hx := mem_pending hx
    cases hmin : cache.pendingInvalidations.min? with
    | none =>
      rw [Std.TreeSet.min?_eq_none_iff] at hmin
      have := Std.TreeSet.isEmpty_eq_false_of_contains (Std.TreeSet.mem_iff_contains.mp hx)
      simp [hmin] at this
    | some oldest =>
      have hle := (Std.TreeSet.min?_eq_some_iff_mem_and_forall.mp hmin).2 x hx
      exact (hkept oldest hmin).trans_le (compare_le_iff_le.mp (Ordering.isLE_iff_ne_gt.mp hle))
  case isFalse => cases ht

theorem grown_insertIfNew {f : TimeInt → Option (TimeInt × UnitChunkShared)}
    {m₀ : TimeInt → Option UnitChunkShared} {m : TreeMap TimeInt LatestAtCachedChunk}
    (h : CanonicalMemo.Grown f m₀ (units m)) {time : TimeInt} {cached : LatestAtCachedChunk}
    (ha : m[time]? = none → answer f m₀ time = some cached.unit) :
    CanonicalMemo.Grown f m₀ (units (m.insertIfNew time cached)) := by
  by_cases hm : time ∈ m
  · have heq : units (m.insertIfNew time cached) = units m := by
      funext t
      rw [units, OrdMap.getElem?_insertIfNew, if_neg (fun hne => hne.2 hm), units]
    rwa [heq]
  · have hnone := Std.TreeMap.getElem?_eq_none hm
    have heq : units (m.insertIfNew time cached) =
        Function.update (units m) time (some cached.unit) := by
      funext t
      rw [units, OrdMap.getElem?_insertIfNew, Function.update_apply]
      by_cases ht : t = time
      · subst ht
        rw [if_pos ⟨rfl, hm⟩, if_pos rfl, Option.map_some]
      · rw [if_neg (fun hne => ht hne.1.symm), if_neg ht, units]
    rw [heq]
    exact h.insert (ha hnone) (by rw [units, hnone, Option.map_none])

theorem latestAt_spec {env : Env} {pol : ChunkStore.Policy} {s : ChunkStore}
    (hcore : ChunkStore.Core env pol s) {unitId : ChunkId} {query : LatestAtQuery}
    {entityPath : EntityPath} {component : ComponentIdentifier}
    (hat : TimeInt.MIN ≤ query.at') (hset : s.Settled query entityPath component)
    {cache₀ cache : LatestAtCache}
    (h : Grown (s.latestFound unitId query.timeline entityPath component) cache₀ cache) :
    let unit := answer (s.latestFound unitId query.timeline entityPath component) cache₀.table
      query.at'
    ∃ cache', cache.handlePendingInvalidation.latestAt unitId s query entityPath component =
        (cache', unit, if unit.isSome then []
          else (s.latestResults query entityPath component).missingVirtual) ∧
      Grown (s.latestFound unitId query.timeline entityPath component) cache₀ cache' := by
  have hcanon : CanonicalMemo.Canonical (s.latestFound unitId query.timeline entityPath component)
      query.at' := ChunkStore.canonical_latestFound hcore hat hset
  have hf := ChunkStore.latestFound.eq_1 unitId s query.timeline entityPath component query.at'
  generalize s.latestFound unitId query.timeline entityPath component = f at *
  obtain ⟨htable, hpending⟩ := h
  rw [← htable.answer_eq hcanon]
  have hunits : cache.table = units cache.handlePendingInvalidation.perQueryTime := rfl
  generalize cache.handlePendingInvalidation = looked at *
  rw [hunits] at htable ⊢
  -- What is written down is kept or invalidated with the next look-up.
  have hgrown (perQueryTime : TreeMap TimeInt LatestAtCachedChunk)
      (hg : CanonicalMemo.Grown f cache₀.table (units perQueryTime)) :
      Grown f cache₀ { looked with perQueryTime } := by
    refine ⟨?_, fun x hx => ?_⟩
    case refine_2 =>
      have hx := mem_pending hx
      exact hpending x hx
    have happly : LatestAtCache.table { looked with perQueryTime } = fun time =>
        if Kept looked.pendingInvalidations time then units perQueryTime time else none :=
      funext fun time => table_apply _ time
    rw [happly]
    refine hg.filter _ fun time unit ht oldest hmin => ?_
    have hmem := (Std.TreeSet.min?_eq_some_iff_mem_and_forall.mp hmin).1
    exact hpending oldest hmem time unit ht
  rw [LatestAtCache.latestAt]
  cases hm : looked.perQueryTime[query.at']? with
  | some cached =>
    have hans : answer f (units looked.perQueryTime) query.at' = some cached.unit :=
      CanonicalMemo.answer_of_some (by rw [units, hm, Option.map_some])
    exact ⟨looked, by simp [hans], hgrown _ htable⟩
  | none =>
    have hans : answer f (units looked.perQueryTime) query.at' =
        (f query.at').map fun found => (units looked.perQueryTime found.1).getD found.2 :=
      CanonicalMemo.answer_of_none (by rw [units, hm, Option.map_none])
    dsimp only
    split
    case isTrue hmissing =>
      rw [hf, if_pos hmissing, Option.map_none] at hans
      exact ⟨looked, by simp [hans], hgrown _ htable⟩
    case isFalse hmissing =>
      rw [if_neg hmissing] at hf
      have hnil : (s.latestResults query entityPath component).missingVirtual = [] := by
        simpa using hmissing
      cases hmax : maxByKey (latestUnits unitId query component
          (s.latestResults query entityPath component).chunks) with
      | none =>
        rw [hmax, Option.map_none] at hf
        rw [hf, Option.map_none] at hans
        exact ⟨looked, by simp [hans, hnil], hgrown _ htable⟩
      | some found =>
        obtain ⟨index, unit⟩ := found
        rw [hmax, Option.map_some] at hf
        rw [hf, Option.map_some] at hans
        have hunit : (units looked.perQueryTime (ofLex index).1).getD unit =
            ((looked.perQueryTime[(ofLex index).1]?).getD ⟨unit, false⟩).unit := by
          rw [units]
          cases looked.perQueryTime[(ofLex index).1]? <;> rfl
        rw [hunit] at hans
        dsimp only
        generalize hcached :
          (looked.perQueryTime[(ofLex index).1]?).getD ⟨unit, false⟩ = cached at hans ⊢
        have hdata : CanonicalMemo.Grown f cache₀.table
            (units (looked.perQueryTime.insertIfNew (ofLex index).1 cached)) := by
          refine grown_insertIfNew htable fun hnone => ?_
          rw [hnone, Option.getD_none] at hcached
          subst hcached
          exact htable.answer_of_found hcanon hf (by rw [units, hnone, Option.map_none])
        have hquery : CanonicalMemo.Grown f cache₀.table (units
            (if query.at' ≠ (ofLex index).1 ∧ ¬ (ofLex index).1.isStatic then
              (looked.perQueryTime.insertIfNew (ofLex index).1 cached).insertIfNew query.at'
                ⟨cached.unit, true⟩
            else looked.perQueryTime.insertIfNew (ofLex index).1 cached)) := by
          split
          · exact grown_insertIfNew hdata fun _ => (htable.answer_eq hcanon).symm.trans hans
          · exact hdata
        exact ⟨_, Prod.ext rfl (by simp [hans]), hgrown _ hquery⟩

end LatestAtCache

-- ---------------------------------------------------------------------------
-- All caches
-- ---------------------------------------------------------------------------

namespace QueryCache

variable {env : Env} {pol : ChunkStore.Policy} {s : ChunkStore} {unitId : ChunkId}
  {query : LatestAtQuery} {entityPath : EntityPath} {component : ComponentIdentifier}
  {caches₀ caches : QueryCache}

def cacheOf (caches : QueryCache) (key : QueryCacheKey) : LatestAtCache :=
  (caches.latestAtPerCacheKey.lookup key).getD {}

structure Grown (unitId : ChunkId) (s : ChunkStore) (caches₀ caches : QueryCache) : Prop where
  cache : ∀ key : QueryCacheKey, LatestAtCache.Grown
    (s.latestFound unitId key.timelineName key.entityPath key.component)
    (caches₀.cacheOf key) (caches.cacheOf key)
  clears : caches.mightRequireClearing = caches₀.mightRequireClearing

theorem Grown.refl (unitId : ChunkId) (s : ChunkStore) (caches : QueryCache) :
    Grown unitId s caches caches :=
  ⟨fun _ => .refl _ _, rfl⟩

def respond (unitId : ChunkId) (s : ChunkStore) (caches₀ : QueryCache) (query : LatestAtQuery)
    (entityPath : EntityPath) (component : ComponentIdentifier) :
    Option UnitChunkShared × List ChunkId :=
  let unit := answer (s.latestFound unitId query.timeline entityPath component)
    (caches₀.cacheOf ⟨entityPath, query.timeline, component⟩).table query.at'
  (unit, if unit.isSome then []
    else (s.latestResults query entityPath component).missingVirtual)

theorem lookUp_spec (hcore : ChunkStore.Core env pol s) (hat : TimeInt.MIN ≤ query.at')
    (hset : s.Settled query entityPath component) (h : Grown unitId s caches₀ caches) :
    ∃ caches', caches.lookUp unitId s query entityPath component =
        (caches', respond unitId s caches₀ query entityPath component) ∧
      Grown unitId s caches₀ caches' ∧ caches'.rangePerCacheKey = caches.rangePerCacheKey := by
  let key : QueryCacheKey := ⟨entityPath, query.timeline, component⟩
  obtain ⟨cache', hlook, hgrown⟩ := LatestAtCache.latestAt_spec hcore hat hset (h.cache key)
  let entries := upsertEntry key cache' (fun _ => cache') caches.latestAtPerCacheKey
  refine ⟨{ caches with latestAtPerCacheKey := entries }, ?_, ⟨?_, h.clears⟩, rfl⟩
  · rw [cacheOf] at hlook
    rw [lookUp, hlook]
    rfl
  · intro key'
    have hcache : (entries.lookup key').getD {} =
        if key' = key then cache' else caches.cacheOf key' := by
      rw [lookup_upsertEntry]
      split <;> rfl
    rw [cacheOf.eq_1 { caches with latestAtPerCacheKey := entries }, hcache]
    split
    case isTrue he =>
      subst he
      exact hgrown
    case isFalse => exact h.cache key'

/-- Every look-up of a query is settled, those of the tombstones included. -/
structure Settled (s : ChunkStore) (caches : QueryCache) (query : LatestAtQuery)
    (entityPath : EntityPath) (components : List ComponentIdentifier) : Prop where
  clears : ∀ path ∈ entityPath.lineage, path ∈ caches.mightRequireClearing →
    s.Settled query path clearIsRecursive
  components : ∀ component ∈ components,
    s.entityHasComponentOnTimeline query.timeline entityPath component →
    s.Settled query entityPath component

def response (unitId : ChunkId) (s : ChunkStore) (caches₀ : QueryCache) (query : LatestAtQuery)
    (entityPath : EntityPath) (components : List ComponentIdentifier) : LatestAtResults :=
  let clear := (entityPath.lineage.filter caches₀.mightRequireClearing.contains).foldl
    (fun acc path =>
      let answer := respond unitId s caches₀ query path clearIsRecursive
      (maxClear entityPath path query.timeline acc.1 answer.1 answer.2, acc.2 ++ answer.2))
    (toLex (TimeInt.MIN, RowId.ZERO), [])
  (components.filter (s.entityHasComponentOnTimeline query.timeline entityPath)).foldl
    (fun results component =>
      let answer := respond unitId s caches₀ query entityPath component
      addResult query.timeline clear.1 component answer.1 answer.2 results)
    { entityPath, query, missingVirtual := clear.2 }

theorem foldl_clearStep (hcore : ChunkStore.Core env pol s) (hat : TimeInt.MIN ≤ query.at')
    {paths : List EntityPath} (hset : ∀ path ∈ paths, s.Settled query path clearIsRecursive)
    (h : Grown unitId s caches₀ caches) (acc : (TimeInt ×ₗ RowId) × List ChunkId) :
    ∃ caches', paths.foldl (clearStep unitId s query entityPath) (caches, acc) =
        (caches', paths.foldl (fun acc path =>
          let answer := respond unitId s caches₀ query path clearIsRecursive
          (maxClear entityPath path query.timeline acc.1 answer.1 answer.2, acc.2 ++ answer.2))
          acc) ∧
      Grown unitId s caches₀ caches' ∧ caches'.rangePerCacheKey = caches.rangePerCacheKey := by
  induction paths generalizing caches acc with
  | nil => exact ⟨caches, rfl, h, rfl⟩
  | cons path rest ih =>
    obtain ⟨caches', hlook, hgrown, hrange⟩ := lookUp_spec hcore hat (hset path (.head _)) h
    obtain ⟨caches'', hfold, hgrown', hrange'⟩ :=
      ih (fun path hm => hset path (.tail _ hm)) hgrown _
    refine ⟨caches'', ?_, hgrown', hrange'.trans hrange⟩
    rw [List.foldl_cons, List.foldl_cons, ← hfold, clearStep, hlook]

theorem foldl_resultStep (hcore : ChunkStore.Core env pol s) (hat : TimeInt.MIN ≤ query.at')
    {components : List ComponentIdentifier}
    (hset : ∀ component ∈ components, s.Settled query entityPath component)
    (h : Grown unitId s caches₀ caches) (maxClearIndex : TimeInt ×ₗ RowId)
    (results : LatestAtResults) :
    ∃ caches', components.foldl (resultStep unitId s query entityPath maxClearIndex)
        (caches, results) =
        (caches', components.foldl (fun results component =>
          let answer := respond unitId s caches₀ query entityPath component
          addResult query.timeline maxClearIndex component answer.1 answer.2 results) results) ∧
      Grown unitId s caches₀ caches' ∧ caches'.rangePerCacheKey = caches.rangePerCacheKey := by
  induction components generalizing caches results with
  | nil => exact ⟨caches, rfl, h, rfl⟩
  | cons component rest ih =>
    obtain ⟨caches', hlook, hgrown, hrange⟩ := lookUp_spec hcore hat (hset component (.head _)) h
    obtain ⟨caches'', hfold, hgrown', hrange'⟩ :=
      ih (fun component hm => hset component (.tail _ hm)) hgrown _
    refine ⟨caches'', ?_, hgrown', hrange'.trans hrange⟩
    rw [List.foldl_cons, List.foldl_cons, ← hfold, resultStep, hlook]

/-- A query is answered as the first caches would answer it, whatever was looked up since. -/
theorem latestAt_spec (hcore : ChunkStore.Core env pol s) (hat : TimeInt.MIN ≤ query.at')
    {components : List ComponentIdentifier}
    (hset : Settled s caches₀ query entityPath components) (h : Grown unitId s caches₀ caches) :
    ∃ caches', caches.latestAt unitId s query entityPath components =
        (caches', response unitId s caches₀ query entityPath components) ∧
      Grown unitId s caches₀ caches' ∧ caches'.rangePerCacheKey = caches.rangePerCacheKey := by
  rw [latestAt, response, h.clears]
  have hclears : ∀ path ∈ entityPath.lineage.filter caches₀.mightRequireClearing.contains,
      s.Settled query path clearIsRecursive := fun path hm =>
    hset.clears path (List.mem_filter.mp hm).1
      (Std.TreeSet.mem_iff_contains.mpr (List.mem_filter.mp hm).2)
  obtain ⟨caches', hfold, hgrown, hrange⟩ := @foldl_clearStep _ _ _ _ _ entityPath _ _
    hcore hat _ hclears h (toLex (TimeInt.MIN, RowId.ZERO), [])
  rw [hfold]
  have hcomponents : ∀ component ∈
      components.filter (s.entityHasComponentOnTimeline query.timeline entityPath),
      s.Settled query entityPath component := fun component hm =>
    hset.components component (List.mem_filter.mp hm).1 (List.mem_filter.mp hm).2
  obtain ⟨caches'', hfold', hgrown', hrange'⟩ := foldl_resultStep hcore hat hcomponents hgrown _ _
  exact ⟨caches'', hfold', hgrown', hrange'.trans hrange⟩

end QueryCache

end DimosViewer
