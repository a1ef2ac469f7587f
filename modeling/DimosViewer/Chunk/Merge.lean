import DimosViewer.Chunk.Slice

/-!
# Concatenation

Two chunks of one entity with the same timelines become one. Component columns
that only one side has are padded with nulls.
-/

namespace DimosViewer

inductive ChunkError where
  | malformed
deriving DecidableEq, Repr

namespace TimeColumn

def concatenated (lhs rhs : TimeColumn) : Option TimeColumn :=
  if lhs.timeline ≠ rhs.timeline then none
  else
    some {
      timeline := lhs.timeline
      times := lhs.times ++ rhs.times
      isSorted := lhs.isSorted && rhs.isSorted && decide (lhs.timeRange.max ≤ rhs.timeRange.min)
      timeRange := lhs.timeRange.union rhs.timeRange }

end TimeColumn

namespace Chunk

def sameEntityPaths (lhs rhs : Chunk) : Bool := lhs.entityPath = rhs.entityPath

/-- Compares the names only. -/
def sameTimelines (lhs rhs : Chunk) : Bool :=
  lhs.timelines.map Prod.fst = rhs.timelines.map Prod.fst

def sameDatatypes (lhs rhs : Chunk) : Bool :=
  lhs.components.all fun lhsColumn =>
    match rhs.components.get lhsColumn.component with
    | some rhsColumn => lhsColumn.dataType = rhsColumn.dataType
    | none => true

def concatenable (lhs rhs : Chunk) : Bool :=
  lhs.sameEntityPaths rhs && lhs.sameTimelines rhs && lhs.sameDatatypes rhs

def concatComponentsLeft (lhs rhs : Chunk) : ChunkComponents :=
  lhs.components.map fun lhsColumn =>
    match rhs.components.get lhsColumn.component with
    | some rhsColumn =>
      { lhsColumn with listArray := lhsColumn.listArray ++ rhsColumn.listArray }
    | none =>
      { lhsColumn with listArray := lhsColumn.listArray ++ List.replicate rhs.numRows none }

def concatComponentsRight (lhs rhs : Chunk) : ChunkComponents :=
  rhs.components.filterMap fun rhsColumn =>
    match lhs.components.get rhsColumn.component with
    | some _ => none
    | none =>
      some { rhsColumn with listArray := List.replicate lhs.numRows none ++ rhsColumn.listArray }

def concatenated (newId : Nat → ChunkId) (n : Nat) (cl cr : Chunk) :
    Except ChunkError (Chunk × Nat) :=
  if ¬ cl.concatenable cr then .error .malformed
  else
    match cl.rowIdRange, cr.rowIdRange with
    | none, _ => .ok (cr, n)
    | some _, none => .ok (cl, n)
    | some (_, cl1), some (cr0, _) =>
      .ok ({
        id := newId n
        entityPath := cl.entityPath
        isSorted := cl.isSorted && cr.isSorted && decide (cl1 ≤ cr0)
        rowIds := cl.rowIds ++ cr.rowIds
        timelines := (cl.timelines.zip cr.timelines).filterMap fun ((name, lhs), (_, rhs)) =>
          (lhs.concatenated rhs).map (name, ·)
        components := cl.concatComponentsLeft cr ++ cl.concatComponentsRight cr }, n + 1)

/-- `Option<RowId>` comparison: `None` comes first. -/
def rowIdMinLt : Option RowId → Option RowId → Bool
  | none, none => false
  | none, some _ => true
  | some _, none => false
  | some a, some b => a < b

/-- Picks the order by the smallest row id, and sorts the result. -/
def concatAndSort (newId : Nat → ChunkId) (n : Nat) (left right : Chunk) :
    Except ChunkError (Chunk × Nat) :=
  let concatenation :=
    if rowIdMinLt left.rowIdMin right.rowIdMin then left.concatenated newId n right
    else right.concatenated newId n left
  concatenation.map fun (compacted, n) => compacted.sortIfUnsorted newId n

end Chunk

end DimosViewer
