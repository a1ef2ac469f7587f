import Mathlib.Order.Basic
import Mathlib.Data.Int.Order.Basic
import Mathlib.Order.MinMax
import Mathlib.Algebra.Ring.Int.Defs
import Mathlib.Algebra.Ring.Nat
import Mathlib.Algebra.GroupWithZero.Nat

/-!
# Times and time ranges

A `TimeInt` is read through its `i64`: the least `i64` marks static data, every
other value is temporal. Arithmetic saturates as in the source. An
`AbsoluteTimeRange` may be empty, its start then lies after its end.
-/

namespace DimosViewer

def i64Min : Int := -2 ^ 63
def i64Max : Int := 2 ^ 63 - 1

def saturatingSub (a b : Int) : Int := max i64Min (min i64Max (a - b))

def saturatingCast (n : Nat) : Int := min (n : Int) i64Max

/-- `None` of the source is the value `i64::MIN`. -/
structure TimeInt where
  asI64 : Int
  lower : i64Min ≤ asI64
  upper : asI64 ≤ i64Max

namespace TimeInt

theorem asI64_injective : Function.Injective asI64 := by
  rintro ⟨a, _, _⟩ ⟨b, _, _⟩ h
  cases h
  rfl

instance : LinearOrder TimeInt := LinearOrder.lift' asI64 asI64_injective

theorem le_iff {a b : TimeInt} : a ≤ b ↔ a.asI64 ≤ b.asI64 := Iff.rfl

theorem lt_iff {a b : TimeInt} : a < b ↔ a.asI64 < b.asI64 := Iff.rfl

@[ext] theorem ext {a b : TimeInt} (h : a.asI64 = b.asI64) : a = b := asI64_injective h

def STATIC : TimeInt := ⟨i64Min, by decide, by decide⟩
def MIN : TimeInt := ⟨i64Min + 1, by decide, by decide⟩
def MAX : TimeInt := ⟨i64Max, by decide, by decide⟩

instance : Inhabited TimeInt := ⟨MIN⟩

def isStatic (t : TimeInt) : Bool := t = STATIC

/-- The temporal time closest to `time`. On an `i64` only `i64::MIN` is moved. -/
def newTemporal (time : Int) : TimeInt :=
  ⟨max (i64Min + 1) (min i64Max time), by unfold i64Min; omega, by unfold i64Min i64Max; omega⟩

def saturatedTemporal (t : TimeInt) : TimeInt := max t MIN

def ZERO : TimeInt := ⟨0, by decide, by decide⟩

/-- Static plus anything is static. -/
def add (a b : TimeInt) : TimeInt :=
  if a = STATIC ∨ b = STATIC then STATIC else newTemporal (a.asI64 + b.asI64)

def sub (a b : TimeInt) : TimeInt :=
  if a = STATIC ∨ b = STATIC then STATIC else newTemporal (a.asI64 - b.asI64)

def subInt (t : TimeInt) (arg : Int) : TimeInt :=
  if t = STATIC then STATIC else newTemporal (t.asI64 - arg)

def inc (t : TimeInt) : TimeInt := if t = STATIC then t else newTemporal (t.asI64 + 1)

theorem newTemporal_asI64 (time : Int) :
    (newTemporal time).asI64 = max (i64Min + 1) (min i64Max time) := rfl

theorem newTemporal_of_bounds {time : Int} (hl : i64Min < time) (hu : time ≤ i64Max) :
    (newTemporal time).asI64 = time := by
  rw [newTemporal_asI64]
  omega

theorem le_MAX (t : TimeInt) : t ≤ MAX := t.upper

theorem MIN_le_iff {t : TimeInt} : MIN ≤ t ↔ t ≠ STATIC := by
  rw [le_iff, ne_eq, TimeInt.ext_iff]
  have h := t.lower
  simp only [MIN, STATIC]
  omega

theorem newTemporal_asI64_eq {t : TimeInt} (h : MIN ≤ t) : newTemporal t.asI64 = t := by
  ext
  exact newTemporal_of_bounds (Int.lt_of_add_one_le h) t.upper

end TimeInt

structure AbsoluteTimeRange where
  min : TimeInt
  max : TimeInt
deriving DecidableEq, Inhabited

namespace AbsoluteTimeRange

def EMPTY : AbsoluteTimeRange := ⟨.MAX, .MIN⟩
def EVERYTHING : AbsoluteTimeRange := ⟨.MIN, .MAX⟩

def new (min max : TimeInt) : AbsoluteTimeRange := ⟨min.saturatedTemporal, max.saturatedTemporal⟩

def isEmpty (r : AbsoluteTimeRange) : Bool := r.max < r.min

def absLength (r : AbsoluteTimeRange) : Nat := (r.min.asI64 - r.max.asI64).natAbs

def contains (r : AbsoluteTimeRange) (time : TimeInt) : Bool := r.min ≤ time ∧ time ≤ r.max

def containsRange (r other : AbsoluteTimeRange) : Bool := r.min ≤ other.min ∧ other.max ≤ r.max

def intersects (r other : AbsoluteTimeRange) : Bool := r.min ≤ other.max ∧ r.max ≥ other.min

def union (r other : AbsoluteTimeRange) : AbsoluteTimeRange :=
  ⟨Min.min r.min other.min, Max.max r.max other.max⟩

theorem contains_iff {r : AbsoluteTimeRange} : r.contains t ↔ r.min ≤ t ∧ t ≤ r.max := by
  simp [contains]

theorem intersects_iff {r other : AbsoluteTimeRange} :
    r.intersects other ↔ r.min ≤ other.max ∧ other.min ≤ r.max := by
  simp [intersects]

theorem intersects_of_contains {r other : AbsoluteTimeRange} (h : r.contains t)
    (ho : other.contains t) : r.intersects other := by
  rw [contains_iff] at h ho
  rw [intersects_iff]
  exact ⟨h.1.trans ho.2, ho.1.trans h.2⟩

theorem asI64_sub_le_absLength (r : AbsoluteTimeRange) :
    r.max.asI64 - r.min.asI64 ≤ (r.absLength : Int) := by
  unfold absLength
  omega

end AbsoluteTimeRange

inductive TimeType where
  | sequence
  | durationNs
  | timestampNs
deriving DecidableEq, Repr

structure TimeCell where
  typ : TimeType
  value : TimeInt
  temporal : TimeInt.MIN ≤ value

abbrev TimelineName := String

structure Timeline where
  name : TimelineName
  typ : TimeType
deriving DecidableEq, Repr

end DimosViewer
