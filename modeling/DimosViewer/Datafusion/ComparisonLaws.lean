import DimosViewer.Datafusion.FilterMeaning

/-!
# Comparisons that are pushed down

The time part of a comparison admits the rows that satisfy it, unless the literal was
multiplied beyond an `i64`. A comparison is turned round with an operator that is too wide at
the literal itself, and ranges include their ends.
-/

namespace DimosViewer.Datafusion

-- ---------------------------------------------------------------------------
-- Literals
-- ---------------------------------------------------------------------------

/-- The literal is a number of nanoseconds that an `i64` holds, if it has another unit. -/
def ScalarValue.NoOverflow : ScalarValue → Prop
  | .timestampSecond (some v) _ | .durationSecond (some v) =>
    i64Min ≤ v.toInt * 1000000000 ∧ v.toInt * 1000000000 ≤ i64Max
  | .timestampMillisecond (some v) _ | .durationMillisecond (some v) =>
    i64Min ≤ v.toInt * 1000000 ∧ v.toInt * 1000000 ≤ i64Max
  | .timestampMicrosecond (some v) _ | .durationMicrosecond (some v) =>
    i64Min ≤ v.toInt * 1000 ∧ v.toInt * 1000 ≤ i64Max
  | _ => True

theorem toInt_mul_of_bounds {v factor : Int64} (hl : i64Min ≤ v.toInt * factor.toInt)
    (hu : v.toInt * factor.toInt ≤ i64Max) : (v * factor).toInt = v.toInt * factor.toInt := by
  rw [Int64.toInt_mul, Int.bmod_eq_of_le]
  · simpa [i64Min] using hl
  · exact Int.lt_of_le_of_lt hu (by decide)

theorem newTemporal_saturatingCast (n : Nat) :
    TimeInt.newTemporal (saturatingCast n) = TimeInt.newTemporal n := by
  ext
  rw [TimeInt.newTemporal_asI64, TimeInt.newTemporal_asI64, saturatingCast]
  omega

/-- Saturation does not matter, as times are clamped. -/
theorem indexValue_value {value : ScalarValue} (h : indexValue value = some time)
    (hno : value.NoOverflow) :
    ∃ n, value.value = .number n ∧ TimeInt.newTemporal time = TimeInt.newTemporal n := by
  have hmul : ∀ {v factor : Int64} {k : Int}, factor.toInt = k → i64Min ≤ v.toInt * k →
      v.toInt * k ≤ i64Max → (v * factor).toInt = v.toInt * k := by
    rintro v factor _ rfl hl hu
    exact toInt_mul_of_bounds hl hu
  rw [indexValue.eq_def] at h
  split at h
  case h_4 => exact ⟨_, rfl, Option.some.inj h ▸ newTemporal_saturatingCast _⟩
  case h_11 | h_12 | h_13 | h_14 | h_15 | h_16 =>
    exact ⟨_, rfl, by rw [← Option.some.inj h, hmul (by decide) hno.1 hno.2]⟩
  case h_17 => cases h
  all_goals exact ⟨_, rfl, by rw [← Option.some.inj h]⟩

theorem segmentText_value {value : ScalarValue} (h : segmentText value = some s) :
    value.value = .text s := by
  rw [segmentText.eq_def] at h
  split at h <;> cases h <;> rfl

theorem eval_literal (m : Meaning) (schema : List Field) (row : Row)
    (h : exprToLiteralScalar expr = some value) : eval m schema row expr = value.value := by
  fun_induction exprToLiteralScalar expr with
  | case1 =>
    cases h
    rw [eval]
  | case2 expr name ih => rw [eval, ih h]
  | case3 => cases h

-- ---------------------------------------------------------------------------
-- Ranges
-- ---------------------------------------------------------------------------

theorem newTemporal_le {t : TimeInt} (ht : t ≠ .STATIC) (h : n ≤ t.asI64) :
    TimeInt.newTemporal n ≤ t := by
  have hmin := TimeInt.le_iff.mp (TimeInt.MIN_le_iff.mpr ht)
  have hmax := t.upper
  rw [TimeInt.le_iff, TimeInt.newTemporal_asI64]
  simp only [TimeInt.MIN] at hmin
  omega

theorem le_newTemporal {t : TimeInt} (h : t.asI64 ≤ n) : t ≤ TimeInt.newTemporal n := by
  have hmax := t.upper
  rw [TimeInt.le_iff, TimeInt.newTemporal_asI64]
  omega

/-- Does the part ask for the index in a range that contains the time. -/
def Query.Covers (query : Query) (index : String) (t : TimeInt) : Prop :=
  ∃ range, query.range = some range ∧ range.index = index ∧ range.indexRange.contains t

theorem comparisonQuery_eq {t : TimeInt} (hge : time ≤ t) (hle : t ≤ time)
    (h : comparisonQuery index time .eq = .ok query) : query.Covers index t := by
  cases h
  exact ⟨_, rfl, rfl, AbsoluteTimeRange.contains_iff.mpr ⟨hge, hle⟩⟩

theorem comparisonQuery_ge {t : TimeInt} (hge : time ≤ t) (hop : op = .gt ∨ op = .gtEq)
    (h : comparisonQuery index time op = .ok query) : query.Covers index t := by
  rcases hop with rfl | rfl <;>
  · cases h
    exact ⟨_, rfl, rfl, AbsoluteTimeRange.contains_iff.mpr ⟨hge, t.le_MAX⟩⟩

theorem comparisonQuery_le {t : TimeInt} (ht : t ≠ .STATIC) (hle : t ≤ time)
    (hop : op = .lt ∨ op = .ltEq) (h : comparisonQuery index time op = .ok query) :
    query.Covers index t := by
  rcases hop with rfl | rfl <;>
  · cases h
    exact ⟨_, rfl, rfl, AbsoluteTimeRange.contains_iff.mpr ⟨TimeInt.MIN_le_iff.mpr ht, hle⟩⟩

theorem comparisonQuery_covers {t : TimeInt} (ht : t ≠ .STATIC)
    (hop : op.holds (compare t.asI64 n) = some true)
    (h : comparisonQuery index (.newTemporal n) op = .ok query) : query.Covers index t := by
  cases op with
  | eq =>
    have heq : t.asI64 = n := by simpa [Operator.holds, compare_eq_iff_eq] using hop
    exact comparisonQuery_eq (newTemporal_le ht heq.ge) (le_newTemporal heq.le) h
  | gt =>
    have hlt : n < t.asI64 := by simpa [Operator.holds, compare_gt_iff_gt] using hop
    exact comparisonQuery_ge (newTemporal_le ht hlt.le) (.inl rfl) h
  | gtEq =>
    have hle : n ≤ t.asI64 := by simpa [Operator.holds, compare_lt_iff_lt] using hop
    exact comparisonQuery_ge (newTemporal_le ht hle) (.inr rfl) h
  | lt =>
    have hlt : t.asI64 < n := by simpa [Operator.holds, compare_lt_iff_lt] using hop
    exact comparisonQuery_le ht (le_newTemporal hlt.le) (.inl rfl) h
  | ltEq =>
    have hle : t.asI64 ≤ n := by simpa [Operator.holds, compare_gt_iff_gt] using hop
    exact comparisonQuery_le ht (le_newTemporal hle) (.inr rfl) h
  | notEq | and | or | other => cases h

theorem comparisonQuery_covers_swapped {t : TimeInt} (ht : t ≠ .STATIC)
    (hop : op.holds (compare n t.asI64) = some true)
    (h : comparisonQuery index (.newTemporal n) (swapOperator op) = .ok query) :
    query.Covers index t := by
  cases op with
  | eq =>
    have heq : n = t.asI64 := by simpa [Operator.holds, compare_eq_iff_eq] using hop
    exact comparisonQuery_eq (newTemporal_le ht heq.le) (le_newTemporal heq.ge) h
  | gt =>
    have hlt : t.asI64 < n := by simpa [Operator.holds, compare_gt_iff_gt] using hop
    exact comparisonQuery_le ht (le_newTemporal hlt.le) (.inr rfl) h
  | gtEq =>
    have hle : t.asI64 ≤ n := by simpa [Operator.holds, compare_lt_iff_lt] using hop
    exact comparisonQuery_le ht (le_newTemporal hle) (.inl rfl) h
  | lt =>
    have hlt : n < t.asI64 := by simpa [Operator.holds, compare_lt_iff_lt] using hop
    exact comparisonQuery_ge (newTemporal_le ht hlt.le) (.inr rfl) h
  | ltEq =>
    have hle : n ≤ t.asI64 := by simpa [Operator.holds, compare_gt_iff_gt] using hop
    exact comparisonQuery_ge (newTemporal_le ht hle) (.inl rfl) h
  | notEq | and | or | other => cases h

-- ---------------------------------------------------------------------------
-- Columns
-- ---------------------------------------------------------------------------

theorem knownFilterColumn_index (h : knownFilterColumn schema left right = .index name time) :
    left = .column name ∧ name ≠ "rerun_segment_id" ∧ isTimeIndex name schema ∧
      ∃ value k, exprToLiteralScalar right = some value ∧ indexValue value = some k ∧
        time = .newTemporal k := by
  rw [knownFilterColumn.eq_def] at h
  split at h
  · rename_i value hvalue
    split at h
    · split at h <;> cases h
    rename_i hname
    split at h
    · rename_i hindex
      split at h
      · rename_i k hk
        cases h
        exact ⟨rfl, hname, hindex, value, k, hvalue, hk, rfl⟩
      · cases h
    · cases h
  · cases h

theorem knownFilterColumn_segmentId
    (h : knownFilterColumn schema left right = .segmentId segmentId) :
    left = .column "rerun_segment_id" ∧
      ∃ value, exprToLiteralScalar right = some value ∧ segmentText value = some segmentId := by
  rw [knownFilterColumn.eq_def] at h
  split at h
  · rename_i value hvalue
    split at h
    · rename_i hname
      split at h
      · rename_i text htext
        cases h
        exact ⟨hname ▸ rfl, value, hvalue, htext⟩
      · cases h
    split at h
    · split at h <;> cases h
    · cases h
  · cases h

def Operator.IsComparison : Operator → Prop
  | .eq | .gt | .gtEq | .lt | .ltEq => True
  | _ => False

theorem swapOperator_isComparison : (swapOperator op).IsComparison ↔ op.IsComparison := by
  cases op <;> rfl

section Meaning

variable {m : Meaning} {schema : List Field} {row : Row}

theorem evalBinary_number (hop : op.IsComparison)
    (h : evalBinary m op (.number a) (.number b) = .bool true) :
    op.holds (compare a b) = some true := by
  cases op <;> first
    | exact hop.elim
    | simpa [evalBinary, Operator.holds] using h

theorem evalBinary_text (h : evalBinary m .eq (.text s) (.text s') = .bool true) : s = s' := by
  simpa [evalBinary, Operator.holds] using h

theorem evalBinary_null (hop : op.IsComparison) (b : Value) :
    evalBinary m op .null b ≠ .bool true ∧ evalBinary m op b .null ≠ .bool true := by
  cases op <;> first
    | exact hop.elim
    | cases b <;> simp [evalBinary]

theorem comparison_admits {op : Operator}
    (hknown : knownFilterColumn schema column literal = .index name time)
    (hno : ∀ value, exprToLiteralScalar literal = some value → value.NoOverflow)
    (hop : op.IsComparison) :
    (evalBinary m op (eval m schema row column) (eval m schema row literal) = .bool true →
      comparisonQuery name time op = .ok query → query.Admits row) ∧
    (evalBinary m op (eval m schema row literal) (eval m schema row column) = .bool true →
      comparisonQuery name time (swapOperator op) = .ok query → query.Admits row) := by
  obtain ⟨rfl, hname, hindex, value, k, hliteral, hk, rfl⟩ := knownFilterColumn_index hknown
  obtain ⟨n, hn, htime⟩ := indexValue_value hk (hno value hliteral)
  have hcovers : ∀ t, row.index name = some t → query.Covers name t → query.Admits row := by
    rintro t ht ⟨range, hrange, rfl, hin⟩ r hr
    rw [hrange] at hr
    cases hr
    exact ⟨t, ht, hin⟩
  have hcolumn : eval m schema row (.column name) =
      (row.index name).elim .null fun t => .number t.asI64 := by
    rw [eval, Row.column, if_neg hname, if_pos hindex]
    cases row.index name <;> rfl
  rw [eval_literal m schema row hliteral, hn, hcolumn, htime]
  cases ht : row.index name with
  | none =>
    exact ⟨fun h => absurd h (evalBinary_null hop _).1, fun h => absurd h (evalBinary_null hop _).2⟩
  | some t =>
    have hstatic := row.temporal ht
    exact ⟨fun h hq => hcovers t ht
        (comparisonQuery_covers hstatic (evalBinary_number hop h) hq),
      fun h hq => hcovers t ht
        (comparisonQuery_covers_swapped hstatic (evalBinary_number hop h) hq)⟩

theorem comparison_segment
    (hknown : knownFilterColumn schema column literal = .segmentId segmentId) :
    (evalBinary m .eq (eval m schema row column) (eval m schema row literal) = .bool true →
      row.segmentId = segmentId) ∧
    (evalBinary m .eq (eval m schema row literal) (eval m schema row column) = .bool true →
      row.segmentId = segmentId) := by
  obtain ⟨rfl, value, hliteral, htext⟩ := knownFilterColumn_segmentId hknown
  have hcolumn : eval m schema row (.column "rerun_segment_id") = .text row.segmentId := by
    rw [eval, Row.column, if_pos rfl]
  rw [eval_literal m schema row hliteral, segmentText_value htext, hcolumn]
  exact ⟨evalBinary_text, fun h => (evalBinary_text h).symm⟩

end Meaning

end DimosViewer.Datafusion
