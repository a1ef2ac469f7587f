import Mathlib.Order.Compare
import DimosViewer.Datafusion.PushdownExpressions

/-!
# What filters and requests mean

A filter has a value for every row, in the logic of three values where a comparison with null
is null. How values other than texts and numbers compare, what other columns hold and what
other expressions yield is left open. Numbers are exact: nanoseconds where a type has a unit.
-/

namespace DimosViewer.Datafusion

inductive Value where
  | null
  | bool (b : Bool)
  | text (s : String)
  | number (n : Int)
  | other (id : Nat)
deriving DecidableEq

def ScalarValue.value : ScalarValue → Value
  | .boolean (some v) => .bool v
  | .utf8 (some v) | .utf8View (some v) | .largeUtf8 (some v) => .text v
  | .uint8 (some v) => .number v.toNat
  | .uint16 (some v) => .number v.toNat
  | .uint32 (some v) => .number v.toNat
  | .uint64 (some v) => .number v.toNat
  | .int8 (some v) => .number v.toInt
  | .int16 (some v) => .number v.toInt
  | .int32 (some v) => .number v.toInt
  | .int64 (some v) | .timestampNanosecond (some v) _ | .durationNanosecond (some v) =>
    .number v.toInt
  | .timestampSecond (some v) _ | .durationSecond (some v) => .number (v.toInt * 1000000000)
  | .timestampMillisecond (some v) _ | .durationMillisecond (some v) =>
    .number (v.toInt * 1000000)
  | .timestampMicrosecond (some v) _ | .durationMicrosecond (some v) => .number (v.toInt * 1000)
  | .other id => .other id
  | _ => .null

structure Row where
  segmentId : String
  index : String → Option TimeInt
  other : String → Value
  temporal {name : String} {t : TimeInt} : index name = some t → t ≠ .STATIC

structure Meaning where
  binary : Operator → Value → Value → Value
  other : Nat → Row → Value

def Row.column (schema : List Field) (row : Row) (name : String) : Value :=
  if name = "rerun_segment_id" then .text row.segmentId
  else if isTimeIndex name schema then
    match row.index name with
    | some t => .number t.asI64
    | none => .null
  else row.other name

-- ---------------------------------------------------------------------------
-- Three values
-- ---------------------------------------------------------------------------

def Value.toBool : Value → Option Bool
  | .bool b => some b
  | _ => none

def Value.ofBool : Option Bool → Value
  | some b => .bool b
  | none => .null

def and3 : Option Bool → Option Bool → Option Bool
  | some false, _ | _, some false => some false
  | some true, some true => some true
  | _, _ => none

def or3 : Option Bool → Option Bool → Option Bool
  | some true, _ | _, some true => some true
  | some false, some false => some false
  | _, _ => none

def not3 (b : Option Bool) : Option Bool := b.map not

def Operator.holds : Operator → Ordering → Option Bool
  | .eq, o => some (o = .eq)
  | .notEq, o => some (o ≠ .eq)
  | .gt, o => some (o = .gt)
  | .gtEq, o => some (o ≠ .lt)
  | .lt, o => some (o = .lt)
  | .ltEq, o => some (o ≠ .gt)
  | _, _ => none

-- ---------------------------------------------------------------------------
-- Filters and requests
-- ---------------------------------------------------------------------------

section Meaning

variable (m : Meaning) (schema : List Field) (row : Row)

def evalBinary (op : Operator) (a b : Value) : Value :=
  match op, a, b with
  | .and, a, b => .ofBool (and3 a.toBool b.toBool)
  | .or, a, b => .ofBool (or3 a.toBool b.toBool)
  | op, .text s, .text s' => (op.holds (compare s s')).elim (m.binary op a b) .bool
  | op, .number n, .number n' => (op.holds (compare n n')).elim (m.binary op a b) .bool
  | _, .null, _ | _, _, .null => .null
  | op, a, b => m.binary op a b

mutual

def eval : Expr → Value
  | .column name => row.column schema name
  | .literal value => value.value
  | .alias expr _ => eval expr
  | .binaryExpr left op right => evalBinary m op (eval left) (eval right)
  | .between expr negated low high =>
    let b := and3 (evalBinary m .gtEq (eval expr) (eval low)).toBool
      (evalBinary m .ltEq (eval expr) (eval high)).toBool
    .ofBool (if negated then not3 b else b)
  | .inList expr list negated =>
    let b := evalAny (eval expr) list
    .ofBool (if negated then not3 b else b)
  | .other id => m.other id row

def evalAny (value : Value) : List Expr → Option Bool
  | [] => some false
  | item :: list => or3 (evalBinary m .eq value (eval item)).toBool (evalAny value list)

end

def Satisfies (expr : Expr) : Prop := eval m schema row expr = .bool true

end Meaning

def Query.Admits (query : Query) (row : Row) : Prop :=
  ∀ range ∈ query.range, ∃ t, row.index range.index = some t ∧ range.indexRange.contains t

/-- The request lets the row through. A specific time alone does not exclude any. -/
def QueryDatasetRequest.Admits (request : QueryDatasetRequest) (row : Row) : Prop :=
  (request.segmentIds = [] ∨ row.segmentId ∈ request.segmentIds) ∧
    ∀ query ∈ request.query, query.Admits row

def Admitted (requests : List QueryDatasetRequest) (row : Row) : Prop :=
  ∃ request ∈ requests, request.Admits row

/-- The filter may be pushed down: the requests that are sent admit the same rows of those
that it lets through, and there is only an error where there are none. -/
def Preserved (m : Meaning) (schema : List Field) (queries : List QueryDatasetRequest)
    (expr : Expr) : Prop :=
  match applyFilterExprToQueries schema queries expr with
  | .ok (some returned) => ∀ row, Satisfies m schema row expr →
    (Admitted queries row ↔ Admitted returned row)
  | .ok none => True
  | .error _ => ∀ row, Admitted queries row → ¬ Satisfies m schema row expr

end DimosViewer.Datafusion
