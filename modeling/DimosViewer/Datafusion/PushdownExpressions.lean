import DimosViewer.Time

/-!
# Filter pushdown

A filter of a dataset query is applied to the requests, which are sent to the server one by
one. Of a request only the segments and the time part are kept, of a schema the names of the
columns and what says that one is an index.
-/

namespace DimosViewer.Datafusion

-- ---------------------------------------------------------------------------
-- Requests
-- ---------------------------------------------------------------------------

structure QueryLatestAt where
  index : Option String
  at' : TimeInt
deriving DecidableEq

structure QueryRange where
  index : String
  indexRange : AbsoluteTimeRange
deriving DecidableEq

structure Query where
  latestAt : Option QueryLatestAt := none
  range : Option QueryRange := none
deriving DecidableEq

/-- Without segments, a request is for all of them. -/
structure QueryDatasetRequest where
  segmentIds : List String := []
  query : Option Query := none
deriving DecidableEq

structure Field where
  name : String
  rerunKind : Option String
deriving DecidableEq

-- ---------------------------------------------------------------------------
-- Expressions
-- ---------------------------------------------------------------------------

inductive Operator where
  | eq
  | notEq
  | gt
  | gtEq
  | lt
  | ltEq
  | and
  | or
  | other (name : String)
deriving DecidableEq

inductive ScalarValue where
  | boolean (v : Option Bool)
  | utf8 (v : Option String)
  | utf8View (v : Option String)
  | largeUtf8 (v : Option String)
  | uint8 (v : Option UInt8)
  | uint16 (v : Option UInt16)
  | uint32 (v : Option UInt32)
  | uint64 (v : Option UInt64)
  | int8 (v : Option Int8)
  | int16 (v : Option Int16)
  | int32 (v : Option Int32)
  | int64 (v : Option Int64)
  | timestampSecond (v : Option Int64) (tz : Option String)
  | timestampMillisecond (v : Option Int64) (tz : Option String)
  | timestampMicrosecond (v : Option Int64) (tz : Option String)
  | timestampNanosecond (v : Option Int64) (tz : Option String)
  | durationSecond (v : Option Int64)
  | durationMillisecond (v : Option Int64)
  | durationMicrosecond (v : Option Int64)
  | durationNanosecond (v : Option Int64)
  | other (id : Nat)
deriving DecidableEq

/-- `other` is any expression that is not taken apart. -/
inductive Expr where
  | column (name : String)
  | literal (value : ScalarValue)
  | alias (expr : Expr) (name : String)
  | binaryExpr (left : Expr) (op : Operator) (right : Expr)
  | between (expr : Expr) (negated : Bool) (low high : Expr)
  | inList (expr : Expr) (list : List Expr) (negated : Bool)
  | other (id : Nat)

inductive KnownFilterColumn where
  | segmentId (segmentId : String)
  | index (indexName : String) (time : TimeInt)
  | unknown
deriving DecidableEq

def Expr.isColumn : Expr → Bool
  | .column _ => true
  | _ => false

def exprToLiteralScalar : Expr → Option ScalarValue
  | .literal value => some value
  | .alias expr _ => exprToLiteralScalar expr
  | _ => none

def isTimeIndex (colName : String) (schema : List Field) : Bool :=
  (schema.find? (·.name = colName)).any (·.rerunKind = some "index")

def segmentText : ScalarValue → Option String
  | .utf8 (some v) | .utf8View (some v) | .largeUtf8 (some v) => some v
  | _ => none

/-- The value of a literal that is compared with an index. Products of `i64` wrap. -/
def indexValue : ScalarValue → Option Int
  | .uint8 (some v) => some v.toNat
  | .uint16 (some v) => some v.toNat
  | .uint32 (some v) => some v.toNat
  | .uint64 (some v) => some (saturatingCast v.toNat)
  | .int8 (some v) => some v.toInt
  | .int16 (some v) => some v.toInt
  | .int32 (some v) => some v.toInt
  | .int64 (some v) | .timestampNanosecond (some v) _ | .durationNanosecond (some v) =>
    some v.toInt
  | .timestampSecond (some v) _ | .durationSecond (some v) => some (v * 1000000000).toInt
  | .timestampMillisecond (some v) _ | .durationMillisecond (some v) => some (v * 1000000).toInt
  | .timestampMicrosecond (some v) _ | .durationMicrosecond (some v) => some (v * 1000).toInt
  | _ => none

def knownFilterColumn (schema : List Field) (columnExpr valueExpr : Expr) : KnownFilterColumn :=
  match columnExpr, exprToLiteralScalar valueExpr with
  | .column name, some value =>
    if name = "rerun_segment_id" then
      match segmentText value with
      | some text => .segmentId text
      | none => .unknown
    else if isTimeIndex name schema then
      match indexValue value with
      | some time => .index name (.newTemporal time)
      | none => .unknown
    else .unknown
  | _, _ => .unknown

/-- The operator of a comparison whose column is on the right. -/
def swapOperator : Operator → Operator
  | .gt => .ltEq
  | .gtEq => .lt
  | .lt => .gtEq
  | .ltEq => .gt
  | op => op

def arrangeBinaryExprAsColOnLeft (left : Expr) (op : Operator) (right : Expr) :
    Expr × Operator × Expr :=
  if left.isColumn then (left, op, right) else (right, swapOperator op, left)

-- ---------------------------------------------------------------------------
-- Merging requests
-- ---------------------------------------------------------------------------

def latestAtFromRange (range : QueryRange) : QueryLatestAt :=
  { index := some range.index, at' := range.indexRange.min }

def computeRangeOverlap (left right : QueryRange) : Except String QueryRange :=
  if left.index ≠ right.index then
    .error "Attempting to compute range overlaps with different indexes"
  else if left.indexRange.max < right.indexRange.min ∨
      left.indexRange.min > right.indexRange.max then
    .error "Attempting to compute range overlaps that are mutually exclusive"
  else
    .ok { index := left.index, indexRange := {
      min := max left.indexRange.min right.indexRange.min
      max := min left.indexRange.max right.indexRange.max } }

def mergeSegmentIds (left right : List String) : Except String (List String) :=
  if right.isEmpty then .ok left
  else if left.isEmpty then .ok right
  else
    let merged := left.filter (right.contains ·)
    if merged.isEmpty then
      .error ("Attempting to perform AND statement that would return no results " ++
        "due to segment ID mismatch")
    else .ok merged

def mergeQuery (left right : Query) : Except String Query :=
  match left.latestAt, left.range, right.latestAt, right.range with
  | _, some leftRange, _, some rightRange => do
    let newRange ← computeRangeOverlap leftRange rightRange
    return { latestAt := some (latestAtFromRange newRange), range := some newRange }
  | _, some leftRange, some rightLa, none =>
    if leftRange.indexRange.min ≤ rightLa.at' ∧ leftRange.indexRange.max ≥ rightLa.at' then
      .ok { latestAt := some rightLa, range := none }
    else
      .error "Attempting to merge time range and specific time that are mutually exclusive"
  | some leftLa, none, _, some rightRange =>
    if rightRange.indexRange.min ≤ leftLa.at' ∧ rightRange.indexRange.max ≥ leftLa.at' then
      .ok left
    else
      .error "Attempting to merge time range and specific time that are mutually exclusive"
  | some leftLa, none, some rightLa, none =>
    if leftLa.at' ≠ rightLa.at' then
      .error "Attempting to merge two specific time requests that are mutually exclusive"
    else .ok left
  | _, _, none, none => .ok left
  | none, none, _, _ => .ok { latestAt := right.latestAt, range := right.range }

def mergeQueriesAnd (left right : QueryDatasetRequest) : Except String QueryDatasetRequest := do
  let segmentIds ← mergeSegmentIds left.segmentIds right.segmentIds
  match right.query, left.query with
  | some rightQuery, some leftQuery =>
    let query ← mergeQuery leftQuery rightQuery
    return { segmentIds, query := some query }
  | some rightQuery, none => return { segmentIds, query := some rightQuery }
  | none, _ => return { left with segmentIds }

def comparisonQuery (index : String) (time : TimeInt) : Operator → Except String Query
  | .eq => .ok {
      latestAt := some { index := some index, at' := time }
      range := some { index, indexRange := { min := time, max := time } } }
  | .gt | .gtEq => .ok {
      latestAt := some { index := some index, at' := time }
      range := some { index, indexRange := { min := time, max := .MAX } } }
  | .lt | .ltEq => .ok {
      latestAt := none
      range := some { index, indexRange := { min := .MIN, max := time } } }
  | _ => .error "Invalid operator for merge_time_to_query"

def replaceTimeInQuery (datasetQuery : QueryDatasetRequest) (index : String) (time : TimeInt)
    (op : Operator) : Except String QueryDatasetRequest := do
  let query ← comparisonQuery index time op
  mergeQueriesAnd datasetQuery { datasetQuery with query := some query }

-- ---------------------------------------------------------------------------
-- `apply_filter_expr_to_queries`
-- ---------------------------------------------------------------------------

/-- `none` is a filter that is not pushed down. -/
abbrev Pushed := Except String (Option (List QueryDatasetRequest))

section Apply

variable (schema : List Field) (queries : List QueryDatasetRequest)

def applyKnown (known : KnownFilterColumn) (op : Operator) : Pushed :=
  match known with
  | .index indexName time => do
    let updated ← queries.mapM (replaceTimeInQuery · indexName time op)
    return some updated
  | .segmentId segmentId =>
    if op = .eq then .ok (some (queries.map fun query => { query with segmentIds := [segmentId] }))
    else .ok none
  | .unknown => .ok none

/-- Two operands that are no conjunction and no disjunction. -/
def applyComparison (left : Expr) (op : Operator) (right : Expr) : Pushed :=
  let (left, op, right) := arrangeBinaryExprAsColOnLeft left op right
  match op with
  | .eq | .gt | .gtEq | .lt | .ltEq => applyKnown queries (knownFilterColumn schema left right) op
  | _ => .ok none

def applyAnd (left right : Pushed) : Pushed := do
  match ← left, ← right with
  | none, none => return none
  | some queries, none | none, some queries => return some queries
  | some leftQueries, some rightQueries =>
    let finalExprs ← (leftQueries.flatMap fun left =>
      rightQueries.map fun right => (left, right)).mapM fun (left, right) =>
        mergeQueriesAnd left right
    return some finalExprs

def applyOr (left right : Pushed) : Pushed := do
  match ← left with
  | none => return some queries
  | some leftQueries =>
    match ← right with
    | none => return some queries
    | some rightQueries => return some (leftQueries ++ rightQueries)

/-- What stands for a list: the last item is on the left of the outermost `OR`. -/
def applyInList (expr : Expr) (first : Expr) (rest : List Expr) : Pushed :=
  rest.foldl (fun acc item => applyOr queries (applyComparison schema queries expr .eq item) acc)
    (applyComparison schema queries expr .eq first)

def applyFilterExprToQueries : Expr → Pushed
  | .alias expr _ => applyFilterExprToQueries expr
  | .binaryExpr left op right =>
    let l := applyFilterExprToQueries left
    let r := applyFilterExprToQueries right
    match op with
    | .and => if left.isColumn then applyAnd l r else applyAnd r l
    | .or => if left.isColumn then applyOr queries l r else applyOr queries r l
    | _ => applyComparison schema queries left op right
  | .between expr negated low high =>
    if negated then .ok none
    else
      -- A comparison is no column, so the conjunction is turned round.
      applyAnd (applyComparison schema queries expr .ltEq high)
        (applyComparison schema queries expr .gtEq low)
  | .inList expr (first :: rest) _ => applyInList schema queries expr first rest
  | .inList _ [] _ =>
    .error "Attempting to perform InList statement that would return no results due to empty list"
  | .column _ | .literal _ | .other _ => .ok none

end Apply

end DimosViewer.Datafusion
