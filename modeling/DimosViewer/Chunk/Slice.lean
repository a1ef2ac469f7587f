import DimosViewer.Chunk.Basic
import Mathlib.Data.List.Sort
import Mathlib.Data.Prod.Lex

/-!
# Slicing, sorting and splitting chunks by rows

Every new chunk is given its id by the caller: `newId n` is the `n`-th id that
`ChunkId::new` hands out, and a function that draws ids returns the next `n`.
-/

namespace DimosViewer

-- ---------------------------------------------------------------------------
-- Slices
-- ---------------------------------------------------------------------------

namespace TimeColumn

def emptied (tc : TimeColumn) : TimeColumn := new (some true) tc.timeline []

def rowSliced (tc : TimeColumn) (index len : Nat) : TimeColumn :=
  let numRows := tc.times.length
  if numRows ≤ index then tc.emptied
  else
    let len := min (index + len) numRows - index
    if len = 0 then tc.emptied
    else
      let isSorted := tc.isSorted || decide (len < 2)
      new (if isSorted then some true else none) tc.timeline ((tc.times.drop index).take len)

end TimeColumn

namespace SerializedComponentColumn

def rowSliced (column : SerializedComponentColumn) (index len : Nat) : SerializedComponentColumn :=
  { column with listArray := (column.listArray.drop index).take len }

end SerializedComponentColumn

namespace Chunk

def emptied (c : Chunk) (id : ChunkId) : Chunk :=
  { id, entityPath := c.entityPath, isSorted := true, rowIds := [],
    timelines := c.timelines.map fun (name, tc) => (name, tc.emptied),
    components := c.components.map fun column => { column with listArray := [] } }

/-- `row_sliced_impl`. Shallow and deep slices hold the same data. -/
def rowSliced (c : Chunk) (id : ChunkId) (index len : Nat) : Chunk :=
  if c.numRows ≤ index then c.emptied id
  else
    let len := min (index + len) c.numRows - index
    if len = 0 then c.emptied id
    else
      let isSorted := c.isSorted || decide (len < 2)
      let rowIds := (c.rowIds.drop index).take len
      { id, entityPath := c.entityPath,
        isSorted := isSorted || isSortedList rowIds,
        rowIds,
        timelines := c.timelines.map fun (name, tc) => (name, tc.rowSliced index len),
        components := c.components.map (·.rowSliced index len) }

end Chunk

-- ---------------------------------------------------------------------------
-- Sorting
-- ---------------------------------------------------------------------------

/-- The stable sorting permutation: entry `i` is the old index of the new row `i`. -/
def argsort [LE κ] [DecidableLE κ] (keys : List κ) : List Nat :=
  (keys.zipIdx.insertionSort fun a b => a.1 ≤ b.1).map Prod.snd

def shuffled (swaps : List Nat) (l : List α) : List α := swaps.filterMap (l[·]?)

namespace Chunk

def shuffleWith (c : Chunk) (id : ChunkId) (swaps : List Nat) : Chunk :=
  let rowIds := shuffled swaps c.rowIds
  { id, entityPath := c.entityPath, isSorted := isSortedList rowIds, rowIds,
    timelines := c.timelines.map fun (name, tc) =>
      let times := shuffled swaps tc.times
      (name, { tc with times, isSorted := isSortedList times }),
    components := c.components.map fun column =>
      { column with listArray := shuffled swaps column.listArray } }

/-- The first id drawn is replaced by the one of the shuffle. -/
def sortIfUnsorted (newId : Nat → ChunkId) (n : Nat) (c : Chunk) : Chunk × Nat :=
  if c.isSorted then (c, n)
  else (c.shuffleWith (newId (n + 1)) (argsort c.rowIds), n + 2)

def sortedByTimelineIfUnsorted (newId : Nat → ChunkId) (n : Nat) (c : Chunk)
    (timeline : TimelineName) : Chunk × Nat :=
  match c.timeline? timeline with
  | none => (c, n)
  | some tc =>
    if tc.isSorted then (c, n)
    else
      let keys : List (TimeInt ×ₗ RowId) := tc.times.zipWith (fun t r => toLex (t, r)) c.rowIds
      (c.shuffleWith (newId (n + 1)) (argsort keys), n + 2)

end Chunk

/-- The sortedness of the whole column is kept, whatever the order of the indices. -/
def TimeColumn.taken (tc : TimeColumn) (indices : List Nat) : TimeColumn :=
  .new (some tc.isSorted) tc.timeline (shuffled indices tc.times)

/-- No index is null. -/
def Chunk.taken (c : Chunk) (id : ChunkId) (indices : List Nat) : Chunk :=
  if c.isEmpty then c
  else if indices.isEmpty then c.emptied id
  else
    let rowIds := shuffled indices c.rowIds
    { id, entityPath := c.entityPath,
      isSorted := c.isSorted || decide (indices.length < 2) || isSortedList rowIds,
      rowIds,
      timelines := c.timelines.map fun (name, tc) => (name, tc.taken indices),
      components := c.components.map fun column =>
        { column with listArray := shuffled indices column.listArray } }

-- ---------------------------------------------------------------------------
-- Splits
-- ---------------------------------------------------------------------------

structure ChunkSplitConfig where
  chunkMaxBytes : Nat
  chunkMaxRows : Nat
  chunkMaxRowsIfUnsorted : Nat
deriving DecidableEq

/-- The `(start, len)` of the pieces from `startIdx` on. Each piece takes at
least one row, `numRows` rounds are enough. -/
def splitBounds (numRows targetRows : Nat) : Nat → Nat → List (Nat × Nat)
  | 0, _ => []
  | fuel + 1, startIdx =>
    if startIdx < numRows then
      let chunkSize := min (numRows - startIdx) targetRows
      (startIdx, chunkSize) :: splitBounds numRows targetRows fuel (startIdx + chunkSize)
    else []

namespace Chunk

/-- The number of rows of a piece, `none` if no threshold is exceeded. -/
def splitTargetRows (sizeBytes : Chunk → Nat) (c : Chunk) (cfg : ChunkSplitConfig) : Option Nat :=
  let needsSplitBytes := 0 < cfg.chunkMaxBytes ∧ cfg.chunkMaxBytes < sizeBytes c
  let needsSplitRows := 0 < cfg.chunkMaxRows ∧ cfg.chunkMaxRows < c.numRows
  let needsSplitUnsorted := 0 < cfg.chunkMaxRowsIfUnsorted ∧
    cfg.chunkMaxRowsIfUnsorted < c.numRows ∧ ¬ c.isTimeSorted
  if c.numRows ≤ 1 then none
  else if needsSplitUnsorted then some (max cfg.chunkMaxRowsIfUnsorted 1)
  else if needsSplitRows then some (max cfg.chunkMaxRows 1)
  else if needsSplitBytes then
    let bytesPerRow := sizeBytes c / max c.numRows 1
    some (max (cfg.chunkMaxBytes / max bytesPerRow 1) 1)
  else none

def splitChunkIfNeeded (sizeBytes : Chunk → Nat) (newId : Nat → ChunkId) (n : Nat) (c : Chunk)
    (cfg : ChunkSplitConfig) : List Chunk × Nat :=
  match c.splitTargetRows sizeBytes cfg with
  | none => ([c], n)
  | some targetRows =>
    let bounds := splitBounds c.numRows targetRows c.numRows 0
    (bounds.zipIdx.map fun ((startIdx, len), i) => c.rowSliced (newId (n + i)) startIdx len,
      n + bounds.length)

end Chunk

end DimosViewer
