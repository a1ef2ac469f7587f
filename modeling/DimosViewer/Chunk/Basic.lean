import DimosViewer.Time
import Mathlib.Data.List.Chain
import Mathlib.Data.List.Basic
import Mathlib.Data.Fin.Basic
import Mathlib.Order.Fin.Basic
import Mathlib.Data.Prod.Lex

/-!
# Chunks

A chunk is kept as columns: row ids, time columns and sparse component columns.
Hash maps are lists in their iteration order. The sortedness flags and the time
range of a time column are cached values, as in the source; `WellFormed` is what
`sanity_check` demands of them. The build meant is one without debug assertions, which
does not run that check on the chunks it makes.
-/

namespace DimosViewer

abbrev RowId := Fin (2 ^ 128)
abbrev ChunkId := Nat
abbrev ComponentIdentifier := String
abbrev EntityPath := List String
abbrev DataType := String

instance RowId.instNeZero : NeZero (2 ^ 128) := ⟨by decide⟩

def RowId.ZERO : RowId := 0
def RowId.MAX : RowId := Fin.last _

/-- One instance inside a cell. Only booleans are ever looked into. -/
inductive Value where
  | boolean : Bool → Value
  | bytes : List Nat → Value
deriving DecidableEq, Repr

abbrev Cell := List Value

def isSortedList [LE α] [DecidableLE α] (l : List α) : Bool := l.IsChain (· ≤ ·)

structure TimeColumn where
  timeline : Timeline
  times : List TimeInt
  isSorted : Bool
  timeRange : AbsoluteTimeRange
deriving DecidableEq

structure SerializedComponentColumn where
  component : ComponentIdentifier
  dataType : DataType
  listArray : List (Option Cell)
deriving DecidableEq

abbrev ChunkComponents := List SerializedComponentColumn

structure Chunk where
  id : ChunkId
  entityPath : EntityPath
  isSorted : Bool
  rowIds : List RowId
  timelines : List (TimelineName × TimeColumn)
  components : ChunkComponents
deriving DecidableEq

namespace SerializedComponentColumn

def isValid (column : SerializedComponentColumn) (i : Nat) : Bool :=
  (column.listArray.getD i none).isSome

def numValid (column : SerializedComponentColumn) : Nat := column.listArray.countP (·.isSome)

/-- The entries of another column of the chunk in rows where this one is not null. -/
def validEntries (column : SerializedComponentColumn) (entries : List α) : List α :=
  (entries.zip column.listArray).filterMap fun (entry, cell) => cell.map fun _ => entry

end SerializedComponentColumn

namespace ChunkComponents

def get (components : ChunkComponents) (component : ComponentIdentifier) :
    Option SerializedComponentColumn :=
  components.find? (·.component == component)

end ChunkComponents

-- ---------------------------------------------------------------------------
-- Time columns
-- ---------------------------------------------------------------------------

namespace TimeColumn

/-- `TimeColumn::new`. An unknown sortedness is computed. -/
def new (isSorted : Option Bool) (timeline : Timeline) (times : List TimeInt) : TimeColumn :=
  let isSorted := isSorted.getD (isSortedList times)
  let minTime := if isSorted then times.head? else times.min?
  let maxTime := if isSorted then times.getLast? else times.max?
  { timeline, times, isSorted,
    timeRange :=
      ⟨minTime.elim .MIN (TimeInt.newTemporal ·.asI64),
        maxTime.elim .MAX (TimeInt.newTemporal ·.asI64)⟩ }

def timeRangeOf (tc : TimeColumn) (column : SerializedComponentColumn) :
    Option AbsoluteTimeRange :=
  if column.listArray.isEmpty then none
  else if column.numValid = column.listArray.length then some tc.timeRange
  else
    let validTimes := column.validEntries tc.times
    let timeMin := if isSortedList tc.times then validTimes.head? else validTimes.min?
    let timeMax := if isSortedList tc.times then validTimes.getLast? else validTimes.max?
    -- An entirely null column gets the empty range.
    some ⟨timeMin.elim .MAX (TimeInt.newTemporal ·.asI64),
      timeMax.elim .MIN (TimeInt.newTemporal ·.asI64)⟩

def timeRangePerComponent (tc : TimeColumn) (components : ChunkComponents) :
    List (ComponentIdentifier × AbsoluteTimeRange) :=
  components.filterMap fun column => (tc.timeRangeOf column).map (column.component, ·)

end TimeColumn

-- ---------------------------------------------------------------------------
-- Chunks
-- ---------------------------------------------------------------------------

namespace Chunk

def numRows (c : Chunk) : Nat := c.rowIds.length

def isEmpty (c : Chunk) : Bool := c.rowIds.isEmpty

def isStatic (c : Chunk) : Bool := c.timelines.isEmpty

def timeline? (c : Chunk) (name : TimelineName) : Option TimeColumn := c.timelines.lookup name

def isTimeSorted (c : Chunk) : Bool := c.timelines.all (·.2.isSorted)

/-- First and last row id of a sorted chunk, least and greatest of an unsorted one. -/
def rowIdRange (c : Chunk) : Option (RowId × RowId) :=
  if c.isSorted then
    match c.rowIds.head?, c.rowIds.getLast? with
    | some first, some last => some (first, last)
    | _, _ => none
  else
    match c.rowIds.min?, c.rowIds.max? with
    | some least, some greatest => some (least, greatest)
    | _, _ => none

def rowIdMin (c : Chunk) : Option RowId := c.rowIdRange.map Prod.fst

def numEventsCumulative (c : Chunk) : Nat := (c.components.map (·.numValid)).sum

def timeRangePerComponent (c : Chunk) :
    List (TimelineName × List (ComponentIdentifier × AbsoluteTimeRange)) :=
  c.timelines.map fun (name, tc) => (name, tc.timeRangePerComponent c.components)

/-- The row ids of one column as `row_id_range_per_component` computes them. Each
loop overwrites its result in every valid row, so in a sorted chunk the first
entry is the last valid row id and the second entry the first valid one. -/
def rowIdRangeOf (c : Chunk) (column : SerializedComponentColumn) : Option (RowId × RowId) :=
  let valid := column.validEntries c.rowIds
  if c.isSorted then
    let rowIdMin := valid.foldl (fun _ r => some r) none
    let rowIdMax := valid.reverse.foldl (fun _ r => some r) none
    match rowIdMin, rowIdMax with
    | some rowIdMin, some rowIdMax => some (rowIdMin, rowIdMax)
    | _, _ => none
  else
    some (valid.foldl (fun acc r => if r > acc then r else acc) RowId.MAX,
      valid.reverse.foldl (fun acc r => if r < acc then r else acc) RowId.ZERO)

def rowIdRangePerComponent (c : Chunk) : List (ComponentIdentifier × (RowId × RowId)) :=
  c.components.filterMap fun column => (c.rowIdRangeOf column).map (column.component, ·)

end Chunk

def Chunk.componentRows (c : Chunk) (timeline : TimelineName) (component : ComponentIdentifier) :
    List (TimeInt ×ₗ RowId) :=
  match c.timeline? timeline, c.components.get component with
  | some tc, some column =>
    column.validEntries (tc.times.zipWith (fun time rowId => toLex (time, rowId)) c.rowIds)
  | _, _ => []

-- ---------------------------------------------------------------------------
-- Well-formed chunks
-- ---------------------------------------------------------------------------

/-- The cached fields of a time column tell the truth and no time is static. -/
structure TimeColumn.WellFormed (tc : TimeColumn) : Prop where
  sorted : tc.isSorted = isSortedList tc.times
  temporal : ∀ t ∈ tc.times, TimeInt.MIN ≤ t
  min_mem : tc.times ≠ [] → tc.timeRange.min ∈ tc.times
  max_mem : tc.times ≠ [] → tc.timeRange.max ∈ tc.times
  bounds : ∀ t ∈ tc.times, tc.timeRange.contains t

structure Chunk.WellFormed (c : Chunk) : Prop where
  sorted : c.isSorted = isSortedList c.rowIds
  timelines_nodup : (c.timelines.map Prod.fst).Nodup
  components_nodup : (c.components.map (·.component)).Nodup
  timeline : ∀ entry ∈ c.timelines, entry.2.WellFormed ∧ entry.2.times.length = c.numRows
  component : ∀ column ∈ c.components, column.listArray.length = c.numRows

instance (tc : TimeColumn) : Decidable tc.WellFormed :=
  decidable_of_iff (tc.isSorted = isSortedList tc.times ∧ (∀ t ∈ tc.times, TimeInt.MIN ≤ t) ∧
    (tc.times ≠ [] → tc.timeRange.min ∈ tc.times) ∧ (tc.times ≠ [] → tc.timeRange.max ∈ tc.times) ∧
    ∀ t ∈ tc.times, tc.timeRange.contains t)
    ⟨fun ⟨h1, h2, h3, h4, h5⟩ => ⟨h1, h2, h3, h4, h5⟩,
      fun ⟨h1, h2, h3, h4, h5⟩ => ⟨h1, h2, h3, h4, h5⟩⟩

instance (c : Chunk) : Decidable c.WellFormed :=
  decidable_of_iff (c.isSorted = isSortedList c.rowIds ∧ (c.timelines.map Prod.fst).Nodup ∧
    (c.components.map (·.component)).Nodup ∧
    (∀ entry ∈ c.timelines, entry.2.WellFormed ∧ entry.2.times.length = c.numRows) ∧
    ∀ column ∈ c.components, column.listArray.length = c.numRows)
    ⟨fun ⟨h1, h2, h3, h4, h5⟩ => ⟨h1, h2, h3, h4, h5⟩,
      fun ⟨h1, h2, h3, h4, h5⟩ => ⟨h1, h2, h3, h4, h5⟩⟩

end DimosViewer
