import Mathlib.Data.List.Basic
import Mathlib.Data.Option.Basic

/-!
# Maps from an interval of indices

A map whose keys are the indices of an interval. It grows at its end, and what is taken
away at either end leaves the other keys as they are.
-/

@[ext] structure IntervalMap (α : Type _) where
  lo : Nat
  hi : Nat
  get : Nat → Option α
  le : lo ≤ hi
  isSome_iff : ∀ i, (get i).isSome ↔ lo ≤ i ∧ i < hi

namespace IntervalMap

variable {α : Type _}

def empty : IntervalMap α where
  lo := 0
  hi := 0
  get _ := none
  le := Nat.le_refl 0
  isSome_iff i := by simp

def pushBack (m : IntervalMap α) (v : α) : IntervalMap α where
  lo := m.lo
  hi := m.hi + 1
  get i := if i = m.hi then some v else m.get i
  le := Nat.le_succ_of_le m.le
  isSome_iff i := by
    have hle := m.le
    split
    case isTrue h => simp [h, hle]
    case isFalse h => rw [m.isSome_iff]; omega

def eraseBelow (m : IntervalMap α) (k : Nat) : IntervalMap α where
  lo := min m.hi (max m.lo k)
  hi := m.hi
  get i := if k ≤ i then m.get i else none
  le := Nat.min_le_left _ _
  isSome_iff i := by
    split
    case isTrue h => rw [m.isSome_iff]; omega
    case isFalse h => simp; omega

def eraseFrom (m : IntervalMap α) (k : Nat) : IntervalMap α where
  lo := m.lo
  hi := max m.lo (min m.hi k)
  get i := if i < k then m.get i else none
  le := Nat.le_max_left _ _
  isSome_iff i := by
    split
    case isTrue h => rw [m.isSome_iff]; omega
    case isFalse h => simp; omega

/-- Other values in the place of the keys from `a` up to `b`. The later keys move. -/
def splice (m : IntervalMap α) (a b : Nat) (vs : List α) (h : m.lo ≤ a ∧ a ≤ b ∧ b ≤ m.hi) :
    IntervalMap α where
  lo := m.lo
  hi := m.hi - (b - a) + vs.length
  get i :=
    if i < a then m.get i
    else if i < a + vs.length then vs[i - a]?
    else m.get (i - vs.length + (b - a))
  le := by omega
  isSome_iff i := by
    split
    case isTrue => rw [m.isSome_iff]; omega
    case isFalse =>
      split
      case isTrue => simp; omega
      case isFalse => rw [m.isSome_iff]; omega

def pairs (m : IntervalMap α) : List (Nat × α) :=
  (List.range' m.lo (m.hi - m.lo)).filterMap fun i => (m.get i).map (i, ·)

end IntervalMap
