import DimosViewer.Lenses.ListArray

/-!
# Flattening and exploding lists

`none` is a panic: an offset, a row or a slice out of range, or a refused constructor.
-/

namespace DimosViewer.Lenses

open Offsets

inductive Error
  | offsetOverflow (actual : Nat) (expectedType : String)
  | typeMismatch (expected actual context : String)
  deriving DecidableEq, Repr

def sliceArray (values : List β) (offset length : Nat) : Option (List β) :=
  if offset + length ≤ values.length then some (slice values offset (offset + length)) else none

-- ---------------------------------------------------------------------------
-- Flatten
-- ---------------------------------------------------------------------------

inductive NestedValues (β : Type)
  | list (array : ListArray (List β))
  | fixed (array : FixedSizeListArray β)
  | other (len : Nat) (dataType : String)

def NestedValues.size : NestedValues β → Nat
  | .list array => array.len
  | .fixed array => array.len
  | .other len _ => len

instance : Sized (NestedValues β) := ⟨NestedValues.size⟩

def fixedSizeListToList (fixed : FixedSizeListArray β) :
    Option (Except Error (ListArray (List β))) :=
  if fixed.len < 2 ^ 31 then
    let offsets := (List.range (fixed.len + 1)).map fun i => i * fixed.size
    (ListArray.new offsets fixed.nulls fixed.values).map .ok
  else
    some (.error (.offsetOverflow fixed.len "i32"))

namespace Flatten

def innerList : NestedValues β → Option (Except Error (ListArray (List β)))
  | .list array => some (.ok array)
  | .fixed array => fixedSizeListToList array
  | .other _ dataType =>
    some (.error (.typeMismatch "List or FixedSizeList" dataType
      "Flatten expects List<List<T>> or List<FixedSizeList<T>>"))

/-- Each outer list holds at most one inner list. -/
def isTrivial (source : ListArray (NestedValues β)) : Bool :=
  source.slots.all fun slot => !slot.valid || decide (slot.stop - slot.start ≤ 1)

/-- The outer offsets are mapped through the inner ones. -/
def unwrap (source : ListArray (NestedValues β)) (inner : ListArray (List β)) :
    Option (ListArray (List β)) := do
  let newOffsets ← source.offsets.mapM fun outerIdx => inner.offsets[outerIdx]?
  ListArray.new newOffsets source.nulls inner.values

abbrev ValueRanges := List (Nat × Nat)

def pushRange (valueRanges : ValueRanges) (innerStart length : Nat) : ValueRanges :=
  match valueRanges.getLast? with
  | some (lastStart, lastLen) =>
    if lastStart + lastLen = innerStart then
      valueRanges.dropLast ++ [(lastStart, lastLen + length)]
    else valueRanges ++ [(innerStart, length)]
  | none => valueRanges ++ [(innerStart, length)]

structure Collected where
  currentOffset : Nat
  valueRanges : ValueRanges

def visitInner (collected : Collected) (slot : Slot) : Collected :=
  if slot.valid then
    let length := slot.stop - slot.start
    if 0 < length then
      ⟨collected.currentOffset + length, pushRange collected.valueRanges slot.start length⟩
    else collected
  else collected

def visitRow (inner : ListArray (List β)) (state : List Nat × Collected) (slot : Slot) :
    Option (List Nat × Collected) :=
  if slot.valid then do
    let innerSlots ← sliceArray inner.slots slot.start (slot.stop - slot.start)
    let collected := innerSlots.foldl visitInner state.2
    some (state.1 ++ [collected.currentOffset], collected)
  else some (state.1 ++ [state.2.currentOffset], state.2)

def flattenedValues (innerValues : List β) : ValueRanges → Option (List β)
  | [] => sliceArray innerValues 0 0
  | [(start, length)] => sliceArray innerValues start length
  | valueRanges =>
    (valueRanges.mapM fun range => sliceArray innerValues range.1 range.2).map List.flatten

def collect (source : ListArray (NestedValues β)) (inner : ListArray (List β)) :
    Option (ListArray (List β)) := do
  let state ← source.slots.foldlM (visitRow inner) ([0], ⟨0, []⟩)
  let values ← flattenedValues inner.values state.2.valueRanges
  ListArray.new state.1 source.nulls values

def transform (source : ListArray (NestedValues β)) :
    Option (Except Error (Option (ListArray (List β)))) :=
  match innerList source.values with
  | none => none
  | some (.error err) => some (.error err)
  | some (.ok inner) =>
    let target := if isTrivial source then unwrap source inner else collect source inner
    target.map fun array => .ok (some array)

end Flatten

-- ---------------------------------------------------------------------------
-- Explode
-- ---------------------------------------------------------------------------

namespace Explode

structure State where
  indices : List Nat := []
  newOffsets : List Nat := [0]
  newValidity : List Bool := []
  currentOffset : Nat := 0

def pushElement (values : List (Option τ)) (state : State) (j : Nat) : Option State := do
  let element ← values[j]?
  some {
    indices := state.indices ++ [j]
    newOffsets := state.newOffsets ++ [state.currentOffset + 1]
    newValidity := state.newValidity ++ [element.isSome]
    currentOffset := state.currentOffset + 1 }

def pushRow (state : State) (valid : Bool) : State :=
  { state with
    newOffsets := state.newOffsets ++ [state.currentOffset]
    newValidity := state.newValidity ++ [valid] }

def visitRow (values : List (Option τ)) (state : State) (slot : Slot) : Option State :=
  if !slot.valid then some (pushRow state false)
  else if slot.start = slot.stop then some (pushRow state true)
  else (List.range' slot.start (slot.stop - slot.start)).foldlM (pushElement values) state

def takeValues (values : List (Option τ)) (indices : List Nat) : Option (List (Option τ)) :=
  if indices.isEmpty then sliceArray values 0 0 else indices.mapM fun j => values[j]?

def transform (source : ListArray (List (Option τ))) :
    Option (Except Error (Option (ListArray (List (Option τ))))) := do
  let state ← source.slots.foldlM (visitRow source.values) {}
  let values ← takeValues source.values state.indices
  let target ← ListArray.new state.newOffsets (some state.newValidity) values
  some (.ok (some target))

end Explode

-- ---------------------------------------------------------------------------
-- What they are for
-- ---------------------------------------------------------------------------

def NestedValues.lists : NestedValues β → Option (List (Option (List β)))
  | .list array => some (array.rows array.values)
  | .fixed array => some array.rows
  | .other _ _ => none

def flattenRow (row : Option (List (Option (List β)))) : Option (List β) :=
  row.map fun lists => lists.flatMap (·.getD [])

def explodeRow : Option (List (Option τ)) → List (Option (List (Option τ)))
  | none => [none]
  | some [] => [some []]
  | some elements => elements.map fun element => element.map fun value => [some value]

def FlattensRows (source : ListArray (NestedValues β)) (lists : List (Option (List β))) : Prop :=
  ∃ target, Flatten.transform source = some (.ok (some target)) ∧
    target.rows target.values = (source.rows lists).map flattenRow

def ExplodesRows (source : ListArray (List (Option τ))) : Prop :=
  ∃ target, Explode.transform source = some (.ok (some target)) ∧
    target.rows target.values = (source.rows source.values).flatMap explodeRow

def NestedValues.slots : NestedValues β → List Slot
  | .list array => array.slots
  | .fixed array => array.slots
  | .other _ _ => []

/-- The lists can be given `i32` offsets. -/
def NestedValues.Addressable : NestedValues β → Prop
  | .list _ => True
  | .fixed array => array.len < 2 ^ 31 ∧ array.len * array.size < 2 ^ 31
  | .other _ _ => True

/-- The only list of some row is null, but covers values. -/
def CoversNull (source : ListArray (NestedValues β)) : Prop :=
  ∃ slot ∈ source.slots, slot.valid ∧ slot.stop = slot.start + 1 ∧
    ∃ inner, source.values.slots[slot.start]? = some inner ∧ inner.valid = false ∧
      inner.start < inner.stop

end DimosViewer.Lenses
