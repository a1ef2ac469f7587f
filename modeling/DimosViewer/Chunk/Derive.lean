import DimosViewer.Chunk.Rows
import DimosViewer.Query.Units
import DimosViewer.Store.SplitThickThin

/-!
# Chunks from chunks

The constructor of a chunk and the operations that keep some of its rows or columns. The ids of new
chunks are given by the caller.
-/

namespace DimosViewer

abbrev BooleanArray := List (Bool × Bool)

namespace BooleanArray

def values (filter : BooleanArray) : List Bool := filter.map Prod.fst

/-- A null is taken for false. -/
def mask (filter : BooleanArray) : List Bool := filter.map fun (value, valid) => value && valid

end BooleanArray

/-- The number of set bits is that of all values, valid or not. -/
def TimeColumn.filteredNullable (tc : TimeColumn) (filter : BooleanArray) : TimeColumn :=
  let isSorted := tc.isSorted || decide (filter.values.count true < 2)
  .new (if isSorted then some true else none) tc.timeline (filterArray filter.mask tc.times)

-- ---------------------------------------------------------------------------
-- Runs of one value
-- ---------------------------------------------------------------------------

/-- The runs of equal values, with their lengths. -/
def dedupWithCount [DecidableEq α] : List α → List (Nat × α)
  | [] => []
  | x :: rest =>
    match dedupWithCount rest with
    | [] => [(1, x)]
    | (count, y) :: runs =>
      if x = y then (count + 1, y) :: runs else (1, x) :: (count, y) :: runs

/-- The last index of each run, the first of which starts at `i`. -/
def runEnds : Nat → List (Nat × α) → List Nat
  | _, [] => []
  | i, (count, _) :: runs => (i + count - 1) :: runEnds (i + count) runs

namespace Chunk

def sanityCheck (c : Chunk) : Except ChunkError Unit :=
  if c.timelines.all (fun entry => entry.2.times.length = c.rowIds.length) &&
      c.components.all fun column => column.listArray.length = c.rowIds.length then .ok ()
  else .error .malformed

def new (id : ChunkId) (entityPath : EntityPath) (isSorted : Option Bool) (rowIds : List RowId)
    (timelines : List (TimelineName × TimeColumn)) (components : ChunkComponents) :
    Except ChunkError Chunk := do
  let chunk : Chunk :=
    { id, entityPath, isSorted := isSorted.getD (isSortedList rowIds), rowIds, timelines,
      components }
  chunk.sanityCheck
  return chunk

def timelinesSliced (c : Chunk) (id : ChunkId) (timelinesToKeep : List TimelineName) : Chunk :=
  { c with id, timelines := c.timelines.filter fun entry => timelinesToKeep.contains entry.1 }

/-- The chunk keeps its id if it has none of the columns. -/
def componentsDropped (c : Chunk) (id : ChunkId) (componentsToDrop : List ComponentIdentifier) :
    Chunk :=
  if !c.components.any fun column => componentsToDrop.contains column.component then c
  else
    { c with
      id
      components := c.components.filter fun column =>
        !componentsToDrop.contains column.component }

-- ---------------------------------------------------------------------------
-- Rows
-- ---------------------------------------------------------------------------

/-- Keeps the rows of the mask, `none` if it has another length. -/
def filtered (c : Chunk) (id : ChunkId) (filter : BooleanArray) : Option Chunk :=
  if filter.length ≠ c.numRows then none
  else if c.isEmpty then some c
  else
    let numFiltered := filter.values.count true
    if numFiltered = 0 then some (c.emptied id)
    else
      let rowIds := filterArray filter.mask c.rowIds
      some {
        id, entityPath := c.entityPath,
        isSorted := c.isSorted || decide (numFiltered < 2) || isSortedList rowIds,
        rowIds,
        timelines := c.timelines.map fun (name, tc) => (name, tc.filteredNullable filter),
        components := c.components.map (·.filtered filter.mask) }

/-- Keeps the last row of each run of one time. The flag of the chunk is kept as it is. -/
def dedupedLatestOnIndex (c : Chunk) (id : ChunkId) (index : TimelineName) : Chunk :=
  if c.isEmpty then c
  else if c.isStatic then c.rowSliced id (c.numRows - 1) 1
  else
    match c.timeline? index with
    | none => c
    | some tc =>
      let indices := runEnds 0 (dedupWithCount tc.times)
      { id, entityPath := c.entityPath, isSorted := c.isSorted,
        rowIds := shuffled indices c.rowIds,
        timelines := c.timelines.map fun (name, tc) => (name, tc.taken indices),
        components := c.components.map fun column =>
          { column with listArray := shuffled indices column.listArray } }

end Chunk

end DimosViewer
