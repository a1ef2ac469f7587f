import DimosViewer.Chunk.Rows
import DimosViewer.Query.RangeLaws

/-!
# Latest-at on one chunk

The answer of `Chunk::latest_at` is compared with the rows that may answer the query. A time-sorted
chunk answers a query before its first row with that row, and an unsorted one never answers with the
least key of all, from which its scan starts.
-/

namespace DimosViewer

open ChunkStore (partitionPoint)

/-- The query never includes static time. -/
def LatestAtQuery.new (timeline : TimelineName) (at' : TimeInt) : LatestAtQuery :=
  ⟨timeline, at'.saturatedTemporal⟩

namespace Chunk

-- ---------------------------------------------------------------------------
-- The rows that may answer
-- ---------------------------------------------------------------------------

/-- All rows of a static chunk are at static time. -/
def timeAt (c : Chunk) (timeline : TimelineName) (i : Nat) : Option TimeInt :=
  if c.isStatic then some .STATIC else ((c.rowAt i).times timeline).map Prod.snd

structure Candidate (c : Chunk) (query : LatestAtQuery) (component : ComponentIdentifier) (i : Nat)
    (key : TimeInt ×ₗ RowId) : Prop where
  row : i < c.numRows
  cell : ((c.rowAt i).cells component).isSome
  key : ∃ time, c.timeAt query.timeline i = some time ∧ time ≤ query.at' ∧
    key = toLex (time, (c.rowAt i).rowId)

/-- The answer is one row, none is later, and there is an answer if there is a row. -/
structure AnswersLatest (c : Chunk) (id : ChunkId) (query : LatestAtQuery)
    (component : ComponentIdentifier) : Prop where
  none_iff : c.latestAt id query component = none ↔ ∀ i key, ¬ c.Candidate query component i key
  greatest : ∀ unit, c.latestAt id query component = some unit →
    ∃ i key, c.Candidate query component i key ∧ unit.chunk.rows = [c.rowAt i] ∧
      ∀ j key', c.Candidate query component j key' → key' ≤ key

/-- All rows are after the query time, and the first one is not null. -/
def BeforeFirst (c : Chunk) (query : LatestAtQuery) (component : ComponentIdentifier) : Prop :=
  ∃ tc, c.timeline? query.timeline = some tc ∧ tc.isSorted = true ∧
    (∃ first ∈ tc.times.head?, query.at' < first) ∧ ((c.rowAt 0).cells component).isSome

/-- The times are unsorted, and no row that may answer is above the least key. -/
def OnlyLeast (c : Chunk) (query : LatestAtQuery) (component : ComponentIdentifier) : Prop :=
  (∃ tc, c.timeline? query.timeline = some tc ∧ tc.isSorted = false) ∧
    (∃ i key, c.Candidate query component i key) ∧
    ∀ i key, c.Candidate query component i key → key = toLex (TimeInt.MIN, RowId.ZERO)

-- ---------------------------------------------------------------------------
-- The scan of an unsorted chunk
-- ---------------------------------------------------------------------------

def closer (column : SerializedComponentColumn) (at' : TimeInt) :
    TimeInt × RowId × Option Nat → (TimeInt × RowId) × Nat → TimeInt × RowId × Option Nat :=
  fun (closestDataTime, closestRowId, index) ((time, rowId), i) =>
    if !column.isValid i then (closestDataTime, closestRowId, index)
    else
      let dataTime := TimeInt.newTemporal time.asI64
      let isCloserTime := closestDataTime < dataTime ∧ dataTime ≤ at'
      let isSameTimeButCloserRowId := dataTime = closestDataTime ∧ closestRowId < rowId
      if isCloserTime ∨ isSameTimeButCloserRowId then (dataTime, rowId, some i)
      else (closestDataTime, closestRowId, index)

theorem closestTemporal_eq (column : SerializedComponentColumn) (at' : TimeInt)
    (rows : List (TimeInt × RowId)) :
    closestTemporal column at' rows =
      (rows.zipIdx.foldl (closer column at') (TimeInt.MIN, RowId.ZERO, none)).2.2 := rfl

theorem closer_eq {column : SerializedComponentColumn} {at' closest time : TimeInt}
    (hc : closest ≤ at') (ht : TimeInt.MIN ≤ time) (closestRowId rowId : RowId)
    (index : Option Nat) (i : Nat) :
    closer column at' (closest, closestRowId, index) ((time, rowId), i) =
      if column.isValid i = true ∧ time ≤ at' ∧
          toLex (closest, closestRowId) < toLex (time, rowId) then (time, rowId, some i)
      else (closest, closestRowId, index) := by
  simp only [closer, TimeInt.newTemporal_asI64_eq ht, Prod.Lex.toLex_lt_toLex]
  cases column.isValid i with
  | false => simp
  | true =>
    simp only [Bool.not_true, Bool.false_eq_true, if_false, true_and]
    refine if_congr ⟨?_, ?_⟩ rfl rfl
    · rintro (⟨hlt, hat⟩ | ⟨rfl, hlt⟩)
      · exact ⟨hat, .inl hlt⟩
      · exact ⟨hc, .inr ⟨rfl, hlt⟩⟩
    · rintro ⟨hat, hlt | ⟨rfl, hlt⟩⟩
      · exact .inl ⟨hlt, hat⟩
      · exact .inr ⟨rfl, hlt⟩

theorem foldl_closer (column : SerializedComponentColumn) {at' : TimeInt}
    {rows : List (TimeInt × RowId)} (ht : ∀ row ∈ rows, TimeInt.MIN ≤ row.1) (n : Nat)
    {closest : TimeInt} (hc : closest ≤ at') (closestRowId : RowId) (index : Option Nat) :
    ∃ time rowId index', (rows.zipIdx n).foldl (closer column at') (closest, closestRowId, index) =
        (time, rowId, index') ∧
      toLex (closest, closestRowId) ≤ toLex (time, rowId) ∧
      (∀ i row, rows[i]? = some row → column.isValid (n + i) = true → row.1 ≤ at' →
        toLex row ≤ toLex (time, rowId)) ∧
      ((time, rowId, index') = (closest, closestRowId, index) ∨
        ∃ i, rows[i]? = some (time, rowId) ∧ column.isValid (n + i) = true ∧ time ≤ at' ∧
          toLex (closest, closestRowId) < toLex (time, rowId) ∧ index' = some (n + i)) := by
  induction rows generalizing n closest closestRowId index with
  | nil => exact ⟨closest, closestRowId, index, rfl, le_rfl, by simp, .inl rfl⟩
  | cons row rows ih =>
    obtain ⟨time, rowId⟩ := row
    have ht' : ∀ row ∈ rows, TimeInt.MIN ≤ row.1 := fun row hm => ht row (.tail _ hm)
    rw [List.zipIdx_cons, List.foldl_cons, closer_eq hc (ht _ (.head _))]
    split
    case isTrue htaken =>
      obtain ⟨hv, hat, hlt⟩ := htaken
      obtain ⟨time', rowId', index', heq, hle, hall, hfrom⟩ := ih ht' (n + 1) hat rowId (some n)
      refine ⟨time', rowId', index', heq, hlt.le.trans hle, ?_, .inr ?_⟩
      · rintro (_ | i) row hrow hvi hati
        · cases hrow
          exact hle
        · exact hall i row hrow (by rwa [Nat.add_right_comm]) hati
      · obtain heq' | ⟨i, hrow, hvi, hati, hlti, rfl⟩ := hfrom
        · obtain ⟨rfl, rfl, rfl⟩ : time' = time ∧ rowId' = rowId ∧ index' = some n := by
            simpa using heq'
          exact ⟨0, rfl, hv, hat, hlt, rfl⟩
        · exact ⟨i + 1, hrow, by rwa [Nat.add_right_comm] at hvi, hati, hlt.trans hlti,
            congrArg some (Nat.add_right_comm n 1 i)⟩
    case isFalse hnot =>
      obtain ⟨time', rowId', index', heq, hle, hall, hfrom⟩ := ih ht' (n + 1) hc closestRowId index
      refine ⟨time', rowId', index', heq, hle, ?_, ?_⟩
      · rintro (_ | i) row hrow hvi hati
        · cases hrow
          exact (not_lt.mp fun hlt => hnot ⟨hvi, hati, hlt⟩).trans hle
        · exact hall i row hrow (by rwa [Nat.add_right_comm]) hati
      · obtain heq' | ⟨i, hrow, hvi, hati, hlti, rfl⟩ := hfrom
        · exact .inl heq'
        · exact .inr ⟨i + 1, hrow, by rwa [Nat.add_right_comm] at hvi, hati, hlti,
            congrArg some (Nat.add_right_comm n 1 i)⟩

-- ---------------------------------------------------------------------------
-- Rows by their index
-- ---------------------------------------------------------------------------

theorem isSome_cells_rowAt {c : Chunk} {component : ComponentIdentifier}
    (hc : c.components.get component = some column) (i : Nat) :
    ((c.rowAt i).cells component).isSome = column.isValid i := by
  simp only [rowAt, hc, Option.bind_some, Option.isSome_map, SerializedComponentColumn.isValid,
    List.getD_eq_getElem?_getD]
  cases column.listArray[i]? <;> rfl

theorem timeAt_eq {c : Chunk} {timeline : TimelineName} (hst : c.isStatic = false)
    (ht : c.timeline? timeline = some tc) (i : Nat) : c.timeAt timeline i = tc.times[i]? := by
  simp only [timeAt, hst, Bool.false_eq_true, if_false, rowAt, ht, Option.bind_some]
  cases tc.times[i]? <;> rfl

theorem isStatic_eq_false {c : Chunk} (ht : c.timeline? timeline = some tc) :
    c.isStatic = false := by
  rw [isStatic, List.isEmpty_eq_false_iff]
  rintro htl
  simp [timeline?, htl] at ht

theorem rowAt_rowId {c : Chunk} {i : Nat} (hi : i < c.numRows) :
    c.rowIds[i]? = some (c.rowAt i).rowId := by
  rw [rowAt, List.getD_eq_getElem?_getD, List.getElem?_eq_getElem hi]
  rfl

def latestRow (c : Chunk) (query : LatestAtQuery) (component : ComponentIdentifier) : Option Nat :=
  if c.isEmpty then none else (c.components.get component).bind (c.latestIndex query)

theorem latestAt_eq (c : Chunk) (id : ChunkId) (query : LatestAtQuery)
    (component : ComponentIdentifier) :
    c.latestAt id query component = (c.latestRow query component).bind (c.rowSlicedUnit id) := by
  rw [latestAt, latestRow]
  split
  · rfl
  · cases c.components.get component with
    | none => rfl
    | some column => rfl

theorem rows_rowSlicedUnit {c : Chunk} (h : c.WellFormed) (id : ChunkId) {i : Nat}
    (hi : i < c.numRows) :
    ∃ unit, c.rowSlicedUnit id i = some unit ∧ unit.chunk.rows = [c.rowAt i] := by
  have hrows : (c.rowSliced id i 1).rows = [c.rowAt i] := by
    have hlen : min (i + 1) c.numRows - i = 1 := by omega
    rw [rows_rowSliced h.aligned, hlen]
    rfl
  have hone : (c.rowSliced id i 1).numRows = 1 := by
    rw [← length_rows, hrows, List.length_singleton]
  rw [rowSlicedUnit, intoUnitWithOriginalChunkId, dif_pos hone]
  exact ⟨_, rfl, hrows⟩

-- ---------------------------------------------------------------------------
-- The row that is taken
-- ---------------------------------------------------------------------------

theorem lt_partitionPoint_iff [Preorder α] {l : List α} (hs : l.Pairwise (· ≤ ·)) {p : α → Bool}
    (hp : ∀ a b, a ≤ b → p b = true → p a = true) {i : Nat} (hi : l[i]? = some a) :
    i < partitionPoint p l ↔ p a = true := by
  induction l generalizing i with
  | nil => simp at hi
  | cons b l ih =>
    rw [List.pairwise_cons] at hs
    rw [partitionPoint, List.takeWhile_cons]
    cases hb : p b with
    | false =>
      have ha : ¬ p a = true := by
        intro ha
        cases i with
        | zero =>
          cases hi
          simp [hb] at ha
        | succ i =>
          have := hp b a (hs.1 a (List.mem_of_getElem? hi)) ha
          simp [hb] at this
      simp [ha]
    | true =>
      cases i with
      | zero =>
        cases hi
        simp [hb]
      | succ i =>
        have := ih hs.2 (i := i) hi
        simpa [partitionPoint] using this

structure TakesLatest (c : Chunk) (query : LatestAtQuery) (component : ComponentIdentifier)
    (row : Option Nat) : Prop where
  none : row = none → ∀ i key, ¬ c.Candidate query component i key
  some : ∀ i, row = some i → ∃ key, c.Candidate query component i key ∧
    ∀ j key', c.Candidate query component j key' → key' ≤ key

theorem lt_of_isValid {c : Chunk} (h : c.WellFormed) (hc : c.components.get component = some column)
    (hv : column.isValid i = true) : i < c.numRows := by
  rw [← h.aligned.length_listArray hc]
  by_contra hle
  rw [SerializedComponentColumn.isValid, List.getD_eq_getElem?_getD,
    List.getElem?_eq_none (not_lt.mp hle)] at hv
  cases hv

theorem rowId_le {c : Chunk} (h : c.WellFormed) (hs : c.isSorted = true) {i j : Nat} (hij : i ≤ j)
    (hj : j < c.numRows) : (c.rowAt i).rowId ≤ (c.rowAt j).rowId := by
  have hpair := isSortedList_iff.mp (h.sorted ▸ hs)
  have hi := (List.getElem?_eq_some_iff.mp (rowAt_rowId (hij.trans_lt hj))).2
  have hj' := (List.getElem?_eq_some_iff.mp (rowAt_rowId hj)).2
  rw [← hi, ← hj']
  exact hpair.rel_get_of_le hij

theorem takesLatest_static {c : Chunk} (h : c.WellFormed) (hs : c.isSorted = true)
    (hst : c.isStatic = true) (hc : c.components.get component = some column)
    (query : LatestAtQuery) :
    c.TakesLatest query component (lastValid column c.numRows) := by
  have htime (i) : c.timeAt query.timeline i = some .STATIC := by rw [timeAt, if_pos hst]
  refine ⟨fun hnone i key hcand => ?_, fun i hi => ?_⟩
  · have hv := lastValid_eq_none hnone i hcand.row
    rw [← isSome_cells_rowAt hc, hcand.cell] at hv
    cases hv
  · obtain ⟨hlt, hv, hlast⟩ := lastValid_eq_some hi
    refine ⟨_, ⟨hlt, isSome_cells_rowAt hc i ▸ hv, .STATIC, htime i, query.at'.lower, rfl⟩, ?_⟩
    rintro j key' ⟨hj, hcell, time, ht, -, rfl⟩
    rw [htime] at ht
    cases ht
    refine Prod.Lex.toLex_le_toLex.mpr (.inr ⟨rfl, rowId_le h hs ?_ hlt⟩)
    by_contra hlt'
    have hv' := hlast j (not_le.mp hlt') hj
    rw [← isSome_cells_rowAt hc, hcell] at hv'
    cases hv'

theorem Candidate.time {c : Chunk} {key : TimeInt ×ₗ RowId}
    (hcand : c.Candidate query component i key) (hst : c.isStatic = false)
    (ht : c.timeline? query.timeline = some tc) (hc : c.components.get component = some column) :
    ∃ time, tc.times[i]? = some time ∧ time ≤ query.at' ∧ column.isValid i = true ∧
      key = toLex (time, (c.rowAt i).rowId) := by
  obtain ⟨-, hcell, time, htime, hat, rfl⟩ := hcand
  exact ⟨time, timeAt_eq hst ht i ▸ htime, hat, isSome_cells_rowAt hc i ▸ hcell, rfl⟩

theorem takesLatest_sorted {c : Chunk} (h : c.WellFormed) (hs : c.isSorted = true)
    (hst : c.isStatic = false) (hc : c.components.get component = some column)
    (ht : c.timeline? query.timeline = some tc) (hts : tc.isSorted = true)
    (hfirst : ¬ c.BeforeFirst query component) :
    c.TakesLatest query component
      (lastValid column (partitionPoint (· ≤ query.at') tc.times - 1 + 1)) := by
  obtain ⟨htc, hlen⟩ := h.timeline_of_lookup ht
  have hpair := isSortedList_iff.mp (htc.sorted ▸ hts)
  -- The rows in time are those before the partition point.
  have hlt {i : Nat} {time : TimeInt} (hi : tc.times[i]? = some time) :
      i < partitionPoint (· ≤ query.at') tc.times ↔ time ≤ query.at' := by
    simpa using lt_partitionPoint_iff hpair (p := (· ≤ query.at'))
      (fun a b hab hb => decide_eq_true (hab.trans (of_decide_eq_true hb))) hi
  generalize partitionPoint (· ≤ query.at') tc.times = n at hlt
  refine ⟨fun hnone i key hcand => ?_, fun i hi => ?_⟩
  · obtain ⟨time, hi, hat, hv, -⟩ := hcand.time hst ht hc
    have hv' := lastValid_eq_none hnone i (by have := (hlt hi).mpr hat; omega)
    rw [hv] at hv'
    cases hv'
  · obtain ⟨hle, hv, hlast⟩ := lastValid_eq_some hi
    have hrow := lt_of_isValid h hc hv
    obtain ⟨time, htime⟩ : ∃ time, tc.times[i]? = some time :=
      ⟨_, List.getElem?_eq_getElem (hlen ▸ hrow)⟩
    have hin : i < n := by
      by_contra hn
      obtain rfl : i = 0 := by omega
      refine hfirst ⟨tc, ht, hts, ⟨time, List.head?_eq_getElem? ▸ htime, ?_⟩, ?_⟩
      · exact not_le.mp fun hat => hn ((hlt htime).mpr hat)
      · exact isSome_cells_rowAt hc 0 ▸ hv
    refine ⟨_, ⟨hrow, isSome_cells_rowAt hc i ▸ hv, time, timeAt_eq hst ht i ▸ htime,
      (hlt htime).mp hin, rfl⟩, fun j key' hcand => ?_⟩
    obtain ⟨time', htime', hat', hv', rfl⟩ := hcand.time hst ht hc
    have hji : j ≤ i := by
      by_contra hij
      have hjn := (hlt htime').mpr hat'
      rw [hlast j (not_le.mp hij) (by omega)] at hv'
      cases hv'
    rw [Prod.Lex.toLex_le_toLex]
    have hle : time' ≤ time := by
      obtain ⟨hj, rfl⟩ := List.getElem?_eq_some_iff.mp htime'
      obtain ⟨hi, rfl⟩ := List.getElem?_eq_some_iff.mp htime
      exact hpair.rel_get_of_le hji
    obtain hlt' | rfl := hle.lt_or_eq
    · exact .inl hlt'
    · exact .inr ⟨rfl, rowId_le h hs hji hrow⟩

theorem getElem?_timedRows {c : Chunk} {tc : TimeColumn} {i : Nat}
    {row : TimeInt × RowId} : (tc.times.zip c.rowIds)[i]? = some row ↔
      tc.times[i]? = some row.1 ∧ i < c.numRows ∧ row.2 = (c.rowAt i).rowId := by
  rw [List.getElem?_zip_eq_some]
  refine and_congr_right fun ht => ⟨fun hr => ?_, fun ⟨hi, hr⟩ => hr ▸ rowAt_rowId hi⟩
  have hi := (List.getElem?_eq_some_iff.mp hr).1
  exact ⟨hi, Option.some.inj (hr.symm.trans (rowAt_rowId hi))⟩

/-- The scan of an unsorted chunk ends at the greatest candidate, or where it began. -/
theorem closestTemporal_spec {c : Chunk} (h : c.WellFormed) (hst : c.isStatic = false)
    (hc : c.components.get component = some column)
    (ht : c.timeline? query.timeline = some tc) (hat : TimeInt.MIN ≤ query.at') :
    ∃ key index, closestTemporal column query.at' (tc.times.zip c.rowIds) = index ∧
      (∀ j key', c.Candidate query component j key' → key' ≤ key) ∧
      (key = toLex (TimeInt.MIN, RowId.ZERO) ∧ index = none ∨
        ∃ i, c.Candidate query component i key ∧ toLex (TimeInt.MIN, RowId.ZERO) < key ∧
          index = some i) := by
  obtain ⟨htc, -⟩ := h.timeline_of_lookup ht
  have hrows : ∀ row ∈ tc.times.zip c.rowIds, TimeInt.MIN ≤ row.1 :=
    fun row hm => htc.temporal row.1 (List.of_mem_zip hm).1
  obtain ⟨time, rowId, index, heq, -, hall, hfrom⟩ :=
    foldl_closer column hrows 0 hat RowId.ZERO none
  rw [closestTemporal_eq, heq]
  simp only [Nat.zero_add] at hall hfrom
  refine ⟨toLex (time, rowId), index, rfl, fun j key' hcand => ?_, ?_⟩
  · obtain ⟨time', htime', hat', hv', rfl⟩ := hcand.time hst ht hc
    exact hall j (time', (c.rowAt j).rowId) (getElem?_timedRows.mpr ⟨htime', hcand.row, rfl⟩)
      hv' hat'
  · obtain hseed | ⟨i, hrow, hv, hati, hlt, rfl⟩ := hfrom
    · obtain ⟨rfl, rfl, rfl⟩ : time = TimeInt.MIN ∧ rowId = RowId.ZERO ∧ index = none := by
        simpa using hseed
      exact .inl ⟨rfl, rfl⟩
    · obtain ⟨htime, hi, hrowId⟩ := getElem?_timedRows.mp hrow
      exact .inr ⟨i, ⟨hi, isSome_cells_rowAt hc i ▸ hv, time, timeAt_eq hst ht i ▸ htime, hati,
        by rw [← hrowId]⟩, hlt, rfl⟩

theorem Candidate.least_le {c : Chunk} {key : TimeInt ×ₗ RowId} (h : c.WellFormed)
    (hst : c.isStatic = false) (ht : c.timeline? query.timeline = some tc)
    (hc : c.components.get component = some column)
    (hcand : c.Candidate query component i key) : toLex (TimeInt.MIN, RowId.ZERO) ≤ key := by
  obtain ⟨htc, -⟩ := h.timeline_of_lookup ht
  obtain ⟨time, htime, -, -, rfl⟩ := hcand.time hst ht hc
  rw [Prod.Lex.toLex_le_toLex]
  obtain hlt | heq := (htc.temporal time (List.mem_of_getElem? htime)).lt_or_eq
  · exact .inl hlt
  · exact .inr ⟨heq, Fin.zero_le _⟩

theorem takesLatest_unsorted {c : Chunk} (h : c.WellFormed) (hst : c.isStatic = false)
    (hc : c.components.get component = some column)
    (ht : c.timeline? query.timeline = some tc) (hts : tc.isSorted = false)
    (hat : TimeInt.MIN ≤ query.at') (hleast : ¬ c.OnlyLeast query component) :
    c.TakesLatest query component
      (closestTemporal column query.at' (tc.times.zip c.rowIds)) := by
  obtain ⟨key, index, heq, hle, ⟨rfl, rfl⟩ | ⟨i, hcand, -, rfl⟩⟩ :=
    closestTemporal_spec h hst hc ht hat
  · rw [heq]
    refine ⟨fun _ i key hcand => hleast ⟨⟨tc, ht, hts⟩, ⟨i, key, hcand⟩, fun j key' hcand' => ?_⟩,
      fun i hi => (Option.some_ne_none i hi.symm).elim⟩
    exact (hle j key' hcand').antisymm (hcand'.least_le h hst ht hc)
  · rw [heq]
    refine ⟨fun hnone => (Option.some_ne_none i hnone).elim, fun j hj => ?_⟩
    cases hj
    exact ⟨key, hcand, hle⟩

theorem latestRow_takesLatest {c : Chunk} (h : c.WellFormed) (hs : c.isSorted = true)
    (hat : TimeInt.MIN ≤ query.at') (hfirst : ¬ c.BeforeFirst query component)
    (hleast : ¬ c.OnlyLeast query component) :
    c.TakesLatest query component (c.latestRow query component) := by
  rw [latestRow]
  split
  case isTrue he =>
    refine ⟨fun _ i key hcand => ?_, fun i hi => by cases hi⟩
    have := hcand.row
    simp [numRows, List.isEmpty_iff.mp he] at this
  case isFalse =>
    cases hc : c.components.get component with
    | none =>
      refine ⟨fun _ i key hcand => ?_, fun i hi => by cases hi⟩
      have := hcand.cell
      simp [rowAt, hc] at this
    | some column =>
      rw [Option.bind_some, latestIndex]
      cases hst : c.isStatic with
      | true =>
        rw [if_pos rfl, if_pos hs]
        exact takesLatest_static h hs hst hc query
      | false =>
        cases ht : c.timeline? query.timeline with
        | none =>
          refine ⟨fun _ i key hcand => ?_, fun i hi => by cases hi⟩
          obtain ⟨time, htime, -⟩ := hcand.key
          simp [timeAt, hst, rowAt, ht] at htime
        | some tc =>
          simp only [Bool.false_eq_true, if_false, Option.bind_eq_bind, Option.bind_some]
          cases hts : tc.isSorted with
          | true => exact takesLatest_sorted h hs hst hc ht hts hfirst
          | false => exact takesLatest_unsorted h hst hc ht hts hat hleast

-- ---------------------------------------------------------------------------
-- The answer
-- ---------------------------------------------------------------------------

theorem latestRow_lt {c : Chunk} (h : c.WellFormed) (hs : c.isSorted = true)
    (hat : TimeInt.MIN ≤ query.at') (hrow : c.latestRow query component = some i) :
    i < c.numRows := by
  rw [latestRow] at hrow
  split at hrow
  case isTrue => cases hrow
  case isFalse =>
    obtain ⟨column, hc, hindex⟩ := Option.bind_eq_some_iff.mp hrow
    rw [latestIndex] at hindex
    split at hindex
    case isTrue =>
      exact (lastValid_eq_some hindex).1
    case isFalse =>
      obtain ⟨tc, ht, hindex⟩ := Option.bind_eq_some_iff.mp hindex
      dsimp only at hindex
      split at hindex
      case isTrue => exact lt_of_isValid h hc (lastValid_eq_some hindex).2.1
      case isFalse =>
        obtain ⟨key, index, heq, -, ⟨-, rfl⟩ | ⟨j, hcand, -, rfl⟩⟩ :=
          closestTemporal_spec h (isStatic_eq_false ht) hc ht hat
        · cases heq.symm.trans hindex
        · cases heq.symm.trans hindex
          exact hcand.row

theorem latestAt_eq_none_iff {c : Chunk} (h : c.WellFormed) (hs : c.isSorted = true)
    (id : ChunkId) {query : LatestAtQuery} (hat : TimeInt.MIN ≤ query.at')
    (component : ComponentIdentifier) :
    c.latestAt id query component = none ↔ c.latestRow query component = none := by
  rw [latestAt_eq]
  cases hrow : c.latestRow query component with
  | none => simp
  | some i =>
    obtain ⟨unit, hunit, -⟩ := rows_rowSlicedUnit h id (latestRow_lt h hs hat hrow)
    simp [hunit]

/-- Before its first row a time-sorted chunk answers with that row. -/
theorem BeforeFirst.latestRow {c : Chunk} (h : c.WellFormed)
    (hfirst : c.BeforeFirst query component) : c.latestRow query component = some 0 := by
  obtain ⟨tc, ht, hts, ⟨first, hhead, hlt⟩, hcell⟩ := hfirst
  obtain ⟨htc, hlen⟩ := h.timeline_of_lookup ht
  have hst := isStatic_eq_false ht
  have hn : partitionPoint (· ≤ query.at') tc.times = 0 := by
    cases htimes : tc.times with
    | nil => rfl
    | cons time times =>
      rw [htimes] at hhead
      cases hhead
      simp [partitionPoint, not_le.mpr hlt]
  have hne : c.isEmpty = false := by
    rw [isEmpty, List.isEmpty_eq_false_iff, ← List.length_pos_iff]
    have hpos := List.length_pos_of_mem (List.mem_of_mem_head? hhead)
    rwa [hlen] at hpos
  cases hc : c.components.get component with
  | none => simp [rowAt, hc] at hcell
  | some column =>
    rw [isSome_cells_rowAt hc] at hcell
    simp [Chunk.latestRow, hne, hc, latestIndex, hst, ht, hts, hn, lastValid, hcell]

theorem BeforeFirst.not_candidate {c : Chunk} (h : c.WellFormed)
    (hfirst : c.BeforeFirst query component) (i key) : ¬ c.Candidate query component i key := by
  obtain ⟨tc, ht, hts, ⟨first, hhead, hlt⟩, -⟩ := hfirst
  obtain ⟨htc, -⟩ := h.timeline_of_lookup ht
  have hst := isStatic_eq_false ht
  rintro ⟨-, -, time, htime, hat, -⟩
  rw [timeAt_eq hst ht] at htime
  have hpair := isSortedList_iff.mp (htc.sorted ▸ hts)
  cases htimes : tc.times with
  | nil => simp [htimes] at hhead
  | cons first' times =>
    rw [htimes] at hhead htime hpair
    cases hhead
    have hle : first ≤ time := by
      obtain rfl | hm := List.mem_cons.mp (List.mem_of_getElem? htime)
      · exact le_rfl
      · exact (List.pairwise_cons.mp hpair).1 time hm
    exact absurd (hlt.trans_le hle) (not_lt.mpr hat)

/-- Above the least key there is nothing to be found, so an unsorted chunk has no answer. -/
theorem OnlyLeast.latestRow {c : Chunk} (h : c.WellFormed) (hat : TimeInt.MIN ≤ query.at')
    (hleast : c.OnlyLeast query component) :
    c.latestRow query component = none := by
  obtain ⟨⟨tc, ht, hts⟩, ⟨i, key, hcand⟩, honly⟩ := hleast
  have hst := isStatic_eq_false ht
  rw [Chunk.latestRow]
  split
  · rfl
  · cases hc : c.components.get component with
    | none => rfl
    | some column =>
      rw [Option.bind_some, latestIndex, if_neg (by simp [hst]), ht]
      simp only [Option.bind_eq_bind, Option.bind_some, hts, Bool.false_eq_true, if_false]
      obtain ⟨key', index, heq, -, ⟨-, rfl⟩ | ⟨j, hcand', hlt, -⟩⟩ :=
        closestTemporal_spec h hst hc ht hat
      · exact heq
      · exact absurd (honly j key' hcand') hlt.ne'

/-- A query is answered by the latest of the rows that may answer it, unless it lies before the
first row of a time-sorted chunk, or an unsorted chunk offers it the least key of all only. -/
theorem answersLatest_iff {c : Chunk} (h : c.WellFormed) (hs : c.isSorted = true) (id : ChunkId)
    (timeline : TimelineName) (at' : TimeInt) (component : ComponentIdentifier) :
    c.AnswersLatest id (.new timeline at') component ↔
      ¬ c.BeforeFirst (.new timeline at') component ∧
        ¬ c.OnlyLeast (.new timeline at') component := by
  have hat : TimeInt.MIN ≤ (LatestAtQuery.new timeline at').at' := le_max_right _ _
  generalize LatestAtQuery.new timeline at' = query at hat
  refine ⟨fun hans => ⟨fun hfirst => ?_, fun hleast => ?_⟩, fun ⟨hfirst, hleast⟩ => ?_⟩
  · have hnone := hans.none_iff.mpr (hfirst.not_candidate h)
    rw [latestAt_eq_none_iff h hs id hat, hfirst.latestRow h] at hnone
    cases hnone
  · obtain ⟨i, key, hcand⟩ := hleast.2.1
    refine hans.none_iff.mp ?_ i key hcand
    rw [latestAt_eq_none_iff h hs id hat, hleast.latestRow h hat]
  · have htakes := latestRow_takesLatest h hs hat hfirst hleast
    refine ⟨?_, fun unit hunit => ?_⟩
    · rw [latestAt_eq_none_iff h hs id hat]
      refine ⟨htakes.none, fun hno => ?_⟩
      cases hrow : c.latestRow query component with
      | none => rfl
      | some i =>
        obtain ⟨key, hcand, -⟩ := htakes.some i hrow
        exact absurd hcand (hno i key)
    · rw [latestAt_eq] at hunit
      obtain ⟨i, hrow, hslice⟩ := Option.bind_eq_some_iff.mp hunit
      obtain ⟨key, hcand, hgreatest⟩ := htakes.some i hrow
      obtain ⟨unit', hslice', hrows⟩ := rows_rowSlicedUnit h id hcand.row
      cases hslice.symm.trans hslice'
      exact ⟨i, key, hcand, hrows, hgreatest⟩

-- ---------------------------------------------------------------------------
-- Two rows
-- ---------------------------------------------------------------------------

def twoFrames (first second : Int) : Chunk where
  id := 0
  entityPath := ["points"]
  isSorted := true
  rowIds := [1, 2]
  timelines := [("frame", .new none ⟨"frame", .sequence⟩ [.newTemporal first, .newTemporal second])]
  components := [⟨"position", "f32", [some [.bytes [1]], some [.bytes [2]]]⟩]

/-- The second row is the earlier one. -/
theorem answersLatest_swapped :
    (twoFrames 20 10).AnswersLatest 1 (.new "frame" (.newTemporal 15)) "position" := by
  refine (answersLatest_iff (by decide +kernel) rfl 1 "frame" _ "position").mpr ⟨?_, ?_⟩
  · rintro ⟨tc, ht, hts, -⟩
    cases ht
    exact absurd hts (by decide)
  · rintro ⟨-, -, honly⟩
    have hcand : (twoFrames 20 10).Candidate (.new "frame" (.newTemporal 15)) "position" 1
        (toLex (.newTemporal 10, 2)) := ⟨by decide, rfl, .newTemporal 10, rfl, by decide, rfl⟩
    exact absurd (honly 1 _ hcand) (by decide)

theorem early_query_answered :
    ¬ (twoFrames 10 20).AnswersLatest 1 (.new "frame" (.newTemporal 5)) "position" := by
  intro h
  have hfirst : (twoFrames 10 20).BeforeFirst (.new "frame" (.newTemporal 5)) "position" :=
    ⟨_, rfl, by decide, ⟨_, rfl, by decide⟩, rfl⟩
  have hnone := h.none_iff.mpr (hfirst.not_candidate (by decide +kernel))
  exact absurd hnone (by decide +kernel)

end Chunk

end DimosViewer
