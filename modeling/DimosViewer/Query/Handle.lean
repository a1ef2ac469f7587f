import DimosViewer.MapM
import DimosViewer.Query.LatestCache

/-!
# Dataframe queries

A query handle fetches the chunks of all columns once, and then joins them row by row: each chunk
has a cursor, and each row has an index value. The schema of the store is not looked into, the
columns of the view are given. Hash sets of entities are lists. The build meant is one without debug
assertions.
-/

namespace DimosViewer

open MapAccum (mapAccum)
open QueryCache (clearIsRecursive)
open Std (TreeMap TreeSet)

-- ---------------------------------------------------------------------------
-- Queries
-- ---------------------------------------------------------------------------

inductive SparseFillStrategy where
  | none
  | latestAtGlobal
deriving DecidableEq, Repr

structure ComponentColumnSelector where
  entityPath : EntityPath
  component : ComponentIdentifier
deriving DecidableEq

inductive ColumnSelector where
  | rowId
  | time (timeline : TimelineName)
  | component (selector : ComponentColumnSelector)
deriving DecidableEq

structure ComponentColumnDescriptor where
  storeDatatype : DataType
  entityPath : EntityPath
  component : ComponentIdentifier
deriving DecidableEq

inductive ColumnDescriptor where
  | rowId
  | time (timeline : Timeline) (datatype : DataType)
  | component (descr : ComponentColumnDescriptor)
deriving DecidableEq

def ComponentColumnDescriptor.isMatch (descr : ComponentColumnDescriptor)
    (selector : ComponentColumnSelector) : Bool :=
  descr.entityPath = selector.entityPath ∧ descr.component = selector.component

def ColumnDescriptor.component? : ColumnDescriptor → Option ComponentColumnDescriptor
  | .component descr => some descr
  | _ => none

/-- What selects the columns of the view is left out. -/
structure QueryExpression where
  filteredIndex : Option TimelineName := none
  filteredIndexRange : Option AbsoluteTimeRange := none
  filteredIndexValues : Option (TreeSet TimeInt) := none
  usingIndexValues : Option (TreeSet TimeInt) := none
  filteredIsNotNull : Option ComponentColumnSelector := none
  sparseFillStrategy : SparseFillStrategy := .none
  selection : Option (List ColumnSelector) := none

/-- The ids of new chunks, and the child array under the column of tombstones of a chunk: `none`
if it does not hold booleans. -/
structure HandleEnv where
  newId : Nat → ChunkId
  unitId : ChunkId
  clearValues : Chunk → Option (List (Option Bool))

-- ---------------------------------------------------------------------------
-- The state of a handle
-- ---------------------------------------------------------------------------

/-- Every column of the view has its chunks, each with a cursor. The number of a selected column is
its place in the view. -/
structure QueryHandleState where
  viewContents : List ColumnDescriptor
  selectedContents : List (Nat × ColumnDescriptor)
  selectedStaticValues : List (Option UnitChunkShared)
  filteredIndex : TimelineName
  viewChunks : List (List (Nat × Chunk))
  curRow : Nat
  uniqueIndexValues : List TimeInt

/-- The place of a column that is not in the view. -/
def usizeMax : Nat := 2 ^ 64 - 1

def computeUserSelection (viewContents : List ColumnDescriptor) (selection : List ColumnSelector) :
    List (Nat × ColumnDescriptor) :=
  let place (p : ColumnDescriptor → Bool) : Option (Nat × ColumnDescriptor) :=
    (viewContents.zipIdx.find? fun entry => p entry.1).map fun entry => (entry.2, entry.1)
  selection.map fun
    | .rowId => (place (· = .rowId)).getD (usizeMax, .rowId)
    | .time timeline =>
      (place fun
        | .time viewTimeline _ => viewTimeline.name = timeline
        | _ => false).getD (usizeMax, .time ⟨timeline, .sequence⟩ "Null")
    | .component selector =>
      (place fun column => column.component?.any (·.isMatch selector)).getD
        (usizeMax, .component ⟨"Null", selector.entityPath, selector.component⟩)

namespace QueryExpression

/-- The default is irrelevant, there is only static data then. -/
def index (query : QueryExpression) : TimelineName := query.filteredIndex.getD ""

def indexRange (query : QueryExpression) : AbsoluteTimeRange :=
  if query.filteredIndex.isNone then .EMPTY
  else
    match query.usingIndexValues with
    | some values =>
      match values.min?, values.max? with
      | some first, some last => .new first last
      | _, _ => .EMPTY
    | none => query.filteredIndexRange.getD .EVERYTHING

def rangeQuery (query : QueryExpression) : RangeQuery where
  timeline := query.index
  range := query.indexRange
  includeExtendedBounds := false
  keepExtraTimelines := true

def viewPovChunksIdx (query : QueryExpression) (viewContents : List ColumnDescriptor) :
    Option Nat :=
  query.filteredIsNotNull.map fun pov =>
    ((viewContents.zipIdx.reverse.find? fun entry =>
      entry.1.component?.any (·.isMatch pov)).map Prod.snd).getD usizeMax

/-- The chunks are those of all columns of the view, or of the one that must not be null. -/
def uniqueIndexValues (query : QueryExpression) (viewContents : List ColumnDescriptor)
    (viewChunks : List (List Chunk)) : List TimeInt :=
  if query.filteredIndex.isNone then [.STATIC]
  else
    match query.usingIndexValues with
    | some values => values.toList.filter fun value => !value.isStatic
    | none =>
      let viewChunks :=
        match query.viewPovChunksIdx viewContents with
        | some idx => (viewChunks[idx]?).toList
        | none => viewChunks
      let times := viewChunks.flatten.flatMap fun c =>
        ((c.timeline? query.index).map (·.times)).getD []
      let all := TreeSet.ofList (times.map fun time => TimeInt.newTemporal time.asI64)
      let all := query.filteredIndexValues.elim all fun values => all.filter values.contains
      all.toList.filter fun value => !value.isStatic

end QueryExpression

-- ---------------------------------------------------------------------------
-- Fetching chunks
-- ---------------------------------------------------------------------------

/-- The rows of recursive tombstones. The outer `none` is a panic: an index beyond the last row. -/
def chunkFilterRecursiveOnly (id : ChunkId) (values : Option (List (Option Bool))) (c : Chunk) :
    Option (Option Chunk) :=
  match c.components.get clearIsRecursive, values with
  | some _, some values =>
    let indices := values.zipIdx.filterMap fun (isRecursive, index) =>
      if isRecursive = some true then some index else none
    if c.isEmpty then some none
    else if indices.any (c.numRows ≤ ·) then none
    else
      let chunk := c.taken id indices
      some (if chunk.isEmpty then none else some chunk)
  | _, _ => some none

namespace Chunk

def componentsRemoved (c : Chunk) (id : ChunkId) : Chunk := { c with id, components := [] }

/-- The tombstones as empty cells of a component. -/
def withEmpties (c : Chunk) (id : ChunkId) (descr : ComponentColumnDescriptor) : Chunk :=
  { c with
    id
    components :=
      [⟨descr.component, descr.storeDatatype, List.replicate c.numRows (some [])⟩] }

def startOn (c : Chunk) (timeline : TimelineName) : TimeInt :=
  (c.timeline? timeline).elim .STATIC (·.timeRange.min)

end Chunk

namespace HandleEnv

variable (env : HandleEnv) (store : ChunkStore)

def fetchChunks (query : RangeQuery) (caches : QueryCache)
    (column : EntityPath × ComponentIdentifier) : QueryCache × Option (List Chunk) :=
  let (caches, results) := caches.range env.newId store query column.1 [column.2]
  (caches, results.components.values.head?)

/-- The chunks of the columns of the view; times and row ids have none. -/
def fetchViewChunks (query : RangeQuery) (viewContents : List ColumnDescriptor)
    (caches : QueryCache) : QueryCache × List (List Chunk) :=
  mapAccum (fun caches column =>
    match column.component? with
    | none => (caches, [])
    | some descr =>
      let (caches, chunks) := env.fetchChunks store query caches (descr.entityPath, descr.component)
      (caches, chunks.getD [])) caches viewContents

/-- All tombstones of an entity, and the recursive ones of the entities above it. -/
def fetchClearChunksOf (query : RangeQuery) (caches : QueryCache) (entityPath : EntityPath) :
    QueryCache × Option (List Chunk) :=
  let (caches, flatChunks) := env.fetchChunks store query caches (entityPath, clearIsRecursive)
  let (caches, ancestors) :=
    mapAccum (env.fetchChunks store query) caches (entityPath.lineage.tail.map (·, clearIsRecursive))
  let recursiveChunks := (ancestors.flatMap (·.getD [])).mapM fun c =>
    chunkFilterRecursiveOnly (env.newId 0) (env.clearValues c) c
  (caches, recursiveChunks.map fun recursiveChunks =>
    (flatChunks.getD [] ++ recursiveChunks.reduceOption).map (·.componentsRemoved (env.newId 0)))

def fetchClearChunks (query : RangeQuery) (viewContents : List ColumnDescriptor)
    (caches : QueryCache) : QueryCache × Option (List (EntityPath × List Chunk)) :=
  let entityPaths := (viewContents.filterMap (·.component?)).map (·.entityPath)
  let (caches, clearChunks) := mapAccum (env.fetchClearChunksOf store query) caches entityPaths.dedup
  (caches, (clearChunks.mapM id).map fun clearChunks =>
    (entityPaths.dedup.zip clearChunks).filter fun entry => !entry.2.isEmpty)

/-- The chunks of a column and, where the entity has been cleared, the tombstones as empty cells. -/
def withClears (index : TimelineName) (clearChunks : List (EntityPath × List Chunk))
    (column : ColumnDescriptor) (chunks : List Chunk) : List Chunk :=
  match column.component? with
  | none => chunks
  | some descr =>
    match clearChunks.lookup descr.entityPath with
    | none => chunks
    | some clearChunks =>
      (chunks ++ clearChunks.map (·.withEmpties (env.newId 0) descr)).insertionSort
        fun a b => a.startOn index ≤ b.startOn index

def staticValue (caches : QueryCache) (column : ColumnDescriptor) :
    QueryCache × Option UnitChunkShared :=
  match column.component? with
  | none => (caches, none)
  | some descr =>
    let (caches, results) :=
      caches.latestAt env.unitId store (.new "" .STATIC) descr.entityPath [descr.component]
    (caches, results.components.values.head?)

/-- `init_`. `none` is a panic. -/
def init (query : QueryExpression) (viewContents : List ColumnDescriptor) (caches : QueryCache) :
    QueryCache × Option QueryHandleState :=
  let selectedContents :=
    match query.selection with
    | some selection => computeUserSelection viewContents selection
    | none => viewContents.zipIdx.map fun (column, idx) => (idx, column)
  let (caches, viewChunks) := env.fetchViewChunks store query.rangeQuery viewContents caches
  let (caches, clearChunks) := env.fetchClearChunks store query.rangeQuery viewContents caches
  match clearChunks with
  | none => (caches, none)
  | some clearChunks =>
    let viewChunks := viewContents.zipWith (env.withClears query.index clearChunks) viewChunks
    let (caches, selectedStaticValues) :=
      mapAccum (env.staticValue store) caches (selectedContents.map Prod.snd)
    (caches, some
      { viewContents, selectedContents, selectedStaticValues
        filteredIndex := query.index
        viewChunks := viewChunks.map fun chunks => chunks.map ((0, ·))
        curRow := 0
        uniqueIndexValues := query.uniqueIndexValues viewContents viewChunks })

end HandleEnv

end DimosViewer
