import DimosViewer.IntervalMap
import DimosViewer.Reach

/-!
# Deques whose indices stay valid

A deque with an offset that is added to local positions. It is a map from an interval of
indices, except that a range that starts before the first element reaches too far.
-/

namespace DimosViewer.Video

structure StableIndexDeque (α : Type _) where
  vec : List α
  indexOffset : Nat
deriving DecidableEq

namespace StableIndexDeque

variable {α : Type _}

def new : StableIndexDeque α := ⟨[], 0⟩

def pushBack (d : StableIndexDeque α) (value : α) : StableIndexDeque α :=
  { d with vec := d.vec ++ [value] }

def popFront (d : StableIndexDeque α) : Option α × StableIndexDeque α :=
  match d.vec with
  | [] => (none, d)
  | value :: vec => (some value, ⟨vec, d.indexOffset + 1⟩)

def popBack (d : StableIndexDeque α) : Option α × StableIndexDeque α :=
  (d.vec.getLast?, { d with vec := d.vec.dropLast })

def extend (d : StableIndexDeque α) (values : List α) : StableIndexDeque α :=
  { d with vec := d.vec ++ values }

def iterIndexed (d : StableIndexDeque α) : List (Nat × α) :=
  d.vec.zipIdx.map fun (v, i) => (i + d.indexOffset, v)

/-- The elements that a mutable iterator visits. -/
def iterIndexedMut (d : StableIndexDeque α) : List (Nat × α) :=
  d.vec.zipIdx.map fun (v, i) => (i + d.indexOffset, v)

def removeAllWithIndexLargerEqual (d : StableIndexDeque α) (firstIndexNotContained : Nat) :
    StableIndexDeque α :=
  { d with vec := d.vec.take (firstIndexNotContained - d.indexOffset) }

/-- `while !self.vec.is_empty() && first_index_contained >= self.index_offset`, over the
elements that are left. -/
def popFrontWhile (firstIndexContained : Nat) : List α → Nat → StableIndexDeque α
  | [], indexOffset => ⟨[], indexOffset⟩
  | value :: vec, indexOffset =>
    if firstIndexContained ≥ indexOffset then popFrontWhile firstIndexContained vec (indexOffset + 1)
    else ⟨value :: vec, indexOffset⟩

def removeAllWithIndexSmallerEqual (d : StableIndexDeque α) (firstIndexContained : Nat) :
    StableIndexDeque α :=
  popFrontWhile firstIndexContained d.vec d.indexOffset

/-- `VecDeque::partition_point`, where the predicate holds of a prefix. -/
def partitionPoint (d : StableIndexDeque α) (f : α → Bool) : Nat :=
  (d.vec.takeWhile f).length + d.indexOffset

def isEmpty (d : StableIndexDeque α) : Bool := d.vec.isEmpty

/-- `index.checked_sub(self.index_offset)?` -/
def get (d : StableIndexDeque α) (index : Nat) : Option α :=
  if d.indexOffset ≤ index then d.vec[index - d.indexOffset]? else none

def nextIndex (d : StableIndexDeque α) : Nat := d.vec.length + d.indexOffset

def minIndex (d : StableIndexDeque α) : Nat := d.indexOffset

def numElements (d : StableIndexDeque α) : Nat := d.vec.length

/-- Panics, as `None`, when the range is out of bounds. -/
def replace (d : StableIndexDeque α) (start stop : Nat) (replacement : List α) :
    Option (StableIndexDeque α) :=
  if d.indexOffset ≤ start ∧ start ≤ stop ∧ stop ≤ d.nextIndex then
    let localStart := start - d.indexOffset
    let localEnd := stop - d.indexOffset
    let drained := d.vec.take localStart ++ d.vec.drop localEnd
    let tail := drained.drop localStart
    some { d with vec := drained.take localStart ++ replacement ++ tail }
  else none

/-- The range has `start ≤ stop`. -/
def iterIndexRangeClamped (d : StableIndexDeque α) (start stop : Nat) : List (Nat × α) :=
  let rangeStart := start - d.indexOffset
  let numElements := stop - start
  (d.iterIndexed.drop rangeStart).take numElements

def iterIndexRangeClampedMut (d : StableIndexDeque α) (start stop : Nat) : List (Nat × α) :=
  let rangeStart := start - d.indexOffset
  let numElements := stop - start
  (d.iterIndexedMut.drop rangeStart).take numElements

-- ---------------------------------------------------------------------------
-- Operations
-- ---------------------------------------------------------------------------

inductive Op (α : Type _) where
  | pushBack (value : α)
  | popFront
  | popBack
  | extend (values : List α)
  | removeAllWithIndexLargerEqual (firstIndexNotContained : Nat)
  | removeAllWithIndexSmallerEqual (firstIndexContained : Nat)
  | replace (start stop : Nat) (replacement : List α)

def apply (d : StableIndexDeque α) : Op α → StableIndexDeque α
  | .pushBack value => d.pushBack value
  | .popFront => d.popFront.2
  | .popBack => d.popBack.2
  | .extend values => d.extend values
  | .removeAllWithIndexLargerEqual k => d.removeAllWithIndexLargerEqual k
  | .removeAllWithIndexSmallerEqual k => d.removeAllWithIndexSmallerEqual k
  | .replace start stop replacement => (d.replace start stop replacement).getD d

/-- Only `replace` asks for something. -/
def InBounds (d : StableIndexDeque α) : Op α → Prop
  | .replace start stop _ => d.minIndex ≤ start ∧ start ≤ stop ∧ stop ≤ d.nextIndex
  | _ => True

def Op.onMap (m : IntervalMap α) : Op α → IntervalMap α
  | .pushBack value => m.pushBack value
  | .popFront => m.eraseBelow (m.lo + 1)
  | .popBack => m.eraseFrom (m.hi - 1)
  | .extend values => values.foldl .pushBack m
  | .removeAllWithIndexLargerEqual k => m.eraseFrom k
  | .removeAllWithIndexSmallerEqual k => m.eraseBelow (k + 1)
  | .replace start stop replacement =>
    if h : m.lo ≤ start ∧ start ≤ stop ∧ stop ≤ m.hi then m.splice start stop replacement h else m

def toMap (d : StableIndexDeque α) : IntervalMap α where
  lo := d.minIndex
  hi := d.nextIndex
  get := d.get
  le := Nat.le_add_left _ _
  isSome_iff i := by
    unfold get minIndex nextIndex
    split
    case isTrue h => simp; omega
    case isFalse h => simp; omega

-- ---------------------------------------------------------------------------
-- Refinement
-- ---------------------------------------------------------------------------

theorem get_mk (vec : List α) (k i : Nat) :
    get ⟨vec, k⟩ i = if k ≤ i then vec[i - k]? else none := rfl

theorem toMap_pushBack (d : StableIndexDeque α) (v : α) :
    (d.pushBack v).toMap = d.toMap.pushBack v := by
  refine IntervalMap.ext rfl ?_ (funext fun i => ?_)
  · simp [toMap, nextIndex, pushBack, IntervalMap.pushBack]
    omega
  · change get ⟨d.vec ++ [v], _⟩ i = if i = d.nextIndex then some v else d.get i
    rw [get_mk, get, nextIndex]
    split
    case isTrue h =>
      rw [List.getElem?_append]
      split
      case isTrue hl => rw [if_neg (by omega)]
      case isFalse hl =>
        split
        case isTrue he => simp [he]
        case isFalse he =>
          rw [List.getElem?_eq_none (by simp; omega), List.getElem?_eq_none (by omega)]
    case isFalse h => rw [if_neg (by omega)]

theorem toMap_drop (vec : List α) (offset k : Nat) :
    toMap ⟨vec.drop (k - offset), offset + min vec.length (k - offset)⟩ =
      (toMap ⟨vec, offset⟩).eraseBelow k := by
  refine IntervalMap.ext ?_ ?_ (funext fun i => ?_)
  · simp only [toMap, IntervalMap.eraseBelow, minIndex, nextIndex]
    omega
  · simp only [toMap, IntervalMap.eraseBelow, nextIndex, List.length_drop]
    omega
  · change get ⟨_, _⟩ i = if k ≤ i then get ⟨vec, offset⟩ i else none
    rw [get_mk, get_mk, List.getElem?_drop]
    by_cases hk : k ≤ i
    · rw [if_pos hk]
      split
      case isTrue h =>
        rw [if_pos (by omega)]
        by_cases hl : k - offset ≤ vec.length
        · exact congrArg (vec[·]?) (by omega)
        · rw [List.getElem?_eq_none (by omega), List.getElem?_eq_none (by omega)]
      case isFalse h => rw [if_neg (by omega)]
    · rw [if_neg hk]
      split
      -- Everything was dropped.
      case isTrue h => exact List.getElem?_eq_none (by omega)
      case isFalse => rfl

theorem toMap_take (vec : List α) (offset k : Nat) :
    toMap ⟨vec.take (k - offset), offset⟩ = (toMap ⟨vec, offset⟩).eraseFrom k := by
  refine IntervalMap.ext rfl ?_ (funext fun i => ?_)
  · simp only [toMap, IntervalMap.eraseFrom, minIndex, nextIndex, List.length_take]
    omega
  · change get ⟨_, _⟩ i = if i < k then get ⟨vec, offset⟩ i else none
    rw [get_mk, get_mk]
    by_cases ho : offset ≤ i
    · rw [if_pos ho, if_pos ho, List.getElem?_take]
      exact if_congr (by omega) rfl rfl
    · rw [if_neg ho, if_neg ho, ite_self]

theorem toMap_popFront (d : StableIndexDeque α) :
    d.popFront.2.toMap = d.toMap.eraseBelow (d.minIndex + 1) := by
  obtain ⟨vec, offset⟩ := d
  have h := toMap_drop vec offset (offset + 1)
  rw [Nat.add_sub_cancel_left] at h
  cases vec with
  | nil => exact h
  | cons v vec =>
    rw [List.length_cons, Nat.min_eq_right (Nat.le_add_left 1 _)] at h
    exact h

theorem toMap_popBack (d : StableIndexDeque α) :
    d.popBack.2.toMap = d.toMap.eraseFrom (d.nextIndex - 1) := by
  obtain ⟨vec, offset⟩ := d
  have h := toMap_take vec offset (vec.length + offset - 1)
  rw [show vec.length + offset - 1 - offset = vec.length - 1 by omega, ← List.dropLast_eq_take] at h
  exact h

theorem toMap_extend (d : StableIndexDeque α) (values : List α) :
    (d.extend values).toMap = values.foldl .pushBack d.toMap := by
  induction values generalizing d with
  | nil =>
    rw [extend, List.append_nil]
    rfl
  | cons v values ih =>
    rw [List.foldl_cons, ← toMap_pushBack, ← ih]
    exact congrArg toMap (congrArg (StableIndexDeque.mk · _) (List.append_cons _ _ _))

theorem popFrontWhile_eq (k : Nat) (vec : List α) (offset : Nat) :
    popFrontWhile k vec offset =
      ⟨vec.drop (k + 1 - offset), offset + min vec.length (k + 1 - offset)⟩ := by
  induction vec generalizing offset with
  | nil => simp [popFrontWhile]
  | cons v vec ih =>
    unfold popFrontWhile
    split
    case isTrue h =>
      rw [ih, show k + 1 - offset = k + 1 - (offset + 1) + 1 by omega, List.drop_succ_cons,
        List.length_cons, Nat.add_min_add_right, Nat.add_assoc, Nat.add_comm 1]
    case isFalse h =>
      rw [show k + 1 - offset = 0 by omega]
      simp

theorem toMap_replace (d : StableIndexDeque α) (start stop : Nat) (replacement : List α)
    (h : d.toMap.lo ≤ start ∧ start ≤ stop ∧ stop ≤ d.toMap.hi) :
    (d.replace start stop replacement).map toMap =
      some (d.toMap.splice start stop replacement h) := by
  obtain ⟨vec, offset⟩ := d
  change offset ≤ start ∧ start ≤ stop ∧ stop ≤ vec.length + offset at h
  have hvec : replace ⟨vec, offset⟩ start stop replacement = some
      ⟨vec.take (start - offset) ++ replacement ++ vec.drop (stop - offset), offset⟩ := by
    have hl : (vec.take (start - offset)).length = start - offset := by
      rw [List.length_take]
      omega
    refine (if_pos h).trans ?_
    dsimp only
    rw [List.take_left' hl, List.drop_left' hl]
  rw [hvec, Option.map_some]
  refine congrArg some (IntervalMap.ext rfl ?_ (funext fun i => ?_))
  · simp only [toMap, IntervalMap.splice, nextIndex, List.length_append, List.length_take,
      List.length_drop]
    omega
  · change get ⟨_, offset⟩ i = if i < start then get ⟨vec, offset⟩ i
      else if i < start + replacement.length then replacement[i - start]?
      else get ⟨vec, offset⟩ (i - replacement.length + (stop - start))
    simp only [get_mk, List.append_assoc, List.getElem?_append, List.length_take,
      List.getElem?_take, List.getElem?_drop]
    by_cases ho : offset ≤ i
    · rw [if_pos ho]
      by_cases hs : i < start
      · rw [if_pos (by omega), if_pos (by omega), if_pos hs, if_pos ho]
      · rw [if_neg (by omega), if_neg hs]
        by_cases hr : i < start + replacement.length
        · rw [if_pos (by omega), if_pos hr]
          exact congrArg (replacement[·]?) (by omega)
        · rw [if_neg (by omega), if_neg hr, if_pos (by omega)]
          exact congrArg (vec[·]?) (by omega)
    · rw [if_neg ho, if_pos (by omega), if_neg ho]

theorem toMap_apply (d : StableIndexDeque α) :
    ∀ op, d.InBounds op → (d.apply op).toMap = op.onMap d.toMap
  | .pushBack v, _ => d.toMap_pushBack v
  | .popFront, _ => d.toMap_popFront
  | .popBack, _ => d.toMap_popBack
  | .extend values, _ => d.toMap_extend values
  | .removeAllWithIndexLargerEqual k, _ => toMap_take d.vec d.indexOffset k
  | .removeAllWithIndexSmallerEqual k, _ => by
    rw [apply, removeAllWithIndexSmallerEqual, popFrontWhile_eq]
    exact toMap_drop d.vec d.indexOffset (k + 1)
  | .replace start stop replacement, h => by
    have hr := d.toMap_replace start stop replacement h
    obtain ⟨d', hd, hm⟩ := Option.map_eq_some_iff.mp hr
    rw [apply, hd]
    exact hm.trans (dif_pos h).symm

theorem toMap_run (d : StableIndexDeque α) (h : Reach.Reachable.Allows apply InBounds d ops) :
    (ops.foldl apply d).toMap = ops.foldl (fun m op => op.onMap m) d.toMap := by
  induction ops generalizing d with
  | nil => rfl
  | cons op ops ih =>
    rw [List.foldl_cons, List.foldl_cons, ← d.toMap_apply op h.1]
    exact ih _ h.2

-- ---------------------------------------------------------------------------
-- Iteration
-- ---------------------------------------------------------------------------

theorem iterIndexed_cons (v : α) (vec : List α) (offset : Nat) :
    iterIndexed ⟨v :: vec, offset⟩ = (offset, v) :: iterIndexed ⟨vec, offset + 1⟩ := by
  simp only [iterIndexed, List.zipIdx_cons', List.map_cons, List.map_map, Nat.zero_add]
  refine congrArg _ (List.map_congr_left fun p _ => ?_)
  simp only [Function.comp_apply, Prod.map_fst, Prod.map_snd, id]
  rw [Nat.add_right_comm, Nat.add_assoc]

theorem iterIndexed_eq (d : StableIndexDeque α) : d.iterIndexed = d.toMap.pairs := by
  obtain ⟨vec, offset⟩ := d
  change _ = (List.range' offset (vec.length + offset - offset)).filterMap fun i =>
    (get ⟨vec, offset⟩ i).map (i, ·)
  rw [Nat.add_sub_cancel]
  induction vec generalizing offset with
  | nil => rfl
  | cons v vec ih =>
    rw [iterIndexed_cons, ih, List.length_cons, List.range'_succ, List.filterMap_cons, get_mk,
      if_pos (Nat.le_refl _), Nat.sub_self]
    refine congrArg ((offset, v) :: ·) (List.filterMap_congr fun i hi => ?_)
    have hlt := (List.mem_range'_1.mp hi).1
    rw [get_mk, get_mk, if_pos hlt, if_pos (by omega), show i - offset = i - (offset + 1) + 1 by omega]
    rfl

theorem length_iterIndexed (d : StableIndexDeque α) : d.iterIndexed.length = d.vec.length := by
  simp [iterIndexed]

theorem filter_iterIndexed (vec : List α) (offset start stop : Nat) :
    (iterIndexed ⟨vec, offset⟩).filter (fun p => start ≤ p.1 ∧ p.1 < stop) =
      ((iterIndexed ⟨vec, offset⟩).drop (start - offset)).take (stop - max start offset) := by
  induction vec generalizing offset with
  | nil => simp [iterIndexed]
  | cons v vec ih =>
    rw [iterIndexed_cons, List.filter_cons, ih]
    by_cases hs : start ≤ offset
    · rw [show start - (offset + 1) = 0 by omega, show start - offset = 0 by omega,
        Nat.max_eq_right hs, Nat.max_eq_right (Nat.le_succ_of_le hs), List.drop_zero,
        List.drop_zero]
      by_cases ht : offset < stop
      · rw [if_pos (by simp [hs, ht]), show stop - offset = stop - (offset + 1) + 1 by omega,
          List.take_succ_cons]
      · rw [if_neg (by simp [ht]), show stop - offset = 0 by omega,
          show stop - (offset + 1) = 0 by omega]
        rfl
    · rw [if_neg (by simp [hs]), show start - offset = start - (offset + 1) + 1 by omega,
        List.drop_succ_cons, Nat.max_eq_left (by omega), Nat.max_eq_left (by omega)]

/-- The elements that are visited are those of the range, unless the range starts too early
and stops too early. -/
theorem iterIndexRangeClamped_eq_iff (d : StableIndexDeque α) (h : start ≤ stop) :
    d.iterIndexRangeClamped start stop =
        d.toMap.pairs.filter (fun p => start ≤ p.1 ∧ p.1 < stop) ↔
      d.minIndex ≤ start ∨ start = stop ∨ d.isEmpty ∨ d.nextIndex ≤ stop := by
  rw [← iterIndexed_eq]
  obtain ⟨vec, offset⟩ := d
  rw [filter_iterIndexed]
  change _ ↔ offset ≤ start ∨ start = stop ∨ vec.isEmpty ∨ vec.length + offset ≤ stop
  by_cases hs : offset ≤ start
  · rw [Nat.max_eq_left hs]
    exact iff_of_true rfl (.inl hs)
  · rw [iterIndexRangeClamped, Nat.max_eq_right (by omega), List.take_eq_take_iff,
      List.length_drop, length_iterIndexed, List.isEmpty_iff_length_eq_zero]
    dsimp only
    omega

/-- What the deque should be for one range: it reads as the map, and so does the range,
for the iterator and its mutable twin. -/
def ReadsAs (d : StableIndexDeque α) (m : IntervalMap α) (start stop : Nat) : Prop :=
  d.minIndex = m.lo ∧ d.nextIndex = m.hi ∧ (∀ i, d.get i = m.get i) ∧ d.iterIndexed = m.pairs ∧
    d.iterIndexRangeClamped start stop = m.pairs.filter (fun p => start ≤ p.1 ∧ p.1 < stop) ∧
    d.iterIndexRangeClampedMut start stop = m.pairs.filter (fun p => start ≤ p.1 ∧ p.1 < stop)

/-- A deque is the map that its operations make, and a range is read from it as long as it
does not both start before the first element and stop before the last. -/
theorem readsAs_iff (h : Reach.Reachable.Allows apply InBounds new ops) (hle : start ≤ stop) :
    ReadsAs (α := α) (ops.foldl apply new) (ops.foldl (fun m op => op.onMap m) .empty) start stop ↔
      let d : StableIndexDeque α := ops.foldl apply new
      d.minIndex ≤ start ∨ start = stop ∨ d.isEmpty ∨ d.nextIndex ≤ stop := by
  have hnew : (new : StableIndexDeque α).toMap = .empty :=
    IntervalMap.ext rfl rfl (funext fun i => by simp [toMap, get, new, IntervalMap.empty])
  have hm := toMap_run new h
  rw [hnew] at hm
  rw [← hm]
  refine Iff.trans ⟨fun hr => hr.2.2.2.2.1, fun hr => ?_⟩ (iterIndexRangeClamped_eq_iff _ hle)
  exact ⟨rfl, rfl, fun _ => rfl, iterIndexed_eq _, hr, hr⟩

def droppedFront : List (Op Nat) := [.extend [10, 11, 12], .popFront]

theorem readsAs_iff_droppedFront :
    ReadsAs (droppedFront.foldl apply new)
        (droppedFront.foldl (fun m op => op.onMap m) .empty) 1 2 ↔
      let d := droppedFront.foldl apply new
      d.minIndex ≤ 1 ∨ 1 = 2 ∨ d.isEmpty ∨ d.nextIndex ≤ 2 :=
  readsAs_iff ⟨trivial, trivial, trivial⟩ (by decide)

/-- The range from 0 to 2 has one element left, but two are visited. -/
theorem range_visits_too_much : ¬∀ (ops : List (Op Nat)) (start stop : Nat),
    Reach.Reachable.Allows apply InBounds new ops → start ≤ stop →
      ReadsAs (ops.foldl apply new) (ops.foldl (fun m op => op.onMap m) .empty) start stop := by
  intro h
  obtain ⟨-, -, -, -, hr, -⟩ := h droppedFront 0 2 ⟨trivial, trivial, trivial⟩ (by decide)
  revert hr
  decide

end StableIndexDeque

end DimosViewer.Video
