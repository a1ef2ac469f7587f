import DimosViewer.Offsets

/-!
# Arrow list arrays

The rows of a list array are slices of its values. A row that is not valid is null, whatever its
slice holds. Values are lists of elements, or list arrays again; a slice of an array is an array
with fewer offsets. What panics in a constructor is `none`.
-/

namespace DimosViewer.Lenses

open Offsets

class Sized (V : Type) where
  size : V → Nat

instance : Sized (List β) := ⟨List.length⟩

/-- What the constructors of offset buffers and list arrays check. -/
structure ListArray.Valid (offsets : List Nat) (nulls : Option (List Bool)) (size : Nat) :
    Prop where
  nonempty : offsets ≠ []
  sorted : offsets.Pairwise (· ≤ ·)
  fits : ∀ offset ∈ offsets, offset < 2 ^ 31
  inRange : ∀ offset ∈ offsets, offset ≤ size
  rowNulls : ∀ validity ∈ nulls, validity.length + 1 = offsets.length

instance : Decidable (ListArray.Valid offsets nulls size) :=
  decidable_of_iff
    (offsets ≠ [] ∧ offsets.Pairwise (· ≤ ·) ∧ (∀ offset ∈ offsets, offset < 2 ^ 31) ∧
      (∀ offset ∈ offsets, offset ≤ size) ∧
      ∀ validity ∈ nulls, validity.length + 1 = offsets.length)
    ⟨fun ⟨h₁, h₂, h₃, h₄, h₅⟩ => ⟨h₁, h₂, h₃, h₄, h₅⟩,
      fun ⟨h₁, h₂, h₃, h₄, h₅⟩ => ⟨h₁, h₂, h₃, h₄, h₅⟩⟩

structure ListArray (V : Type) [Sized V] where
  offsets : List Nat
  nulls : Option (List Bool)
  values : V
  valid : ListArray.Valid offsets nulls (Sized.size values)

structure Slot where
  valid : Bool
  start : Nat
  stop : Nat
  deriving DecidableEq

def Slot.row (elements : List β) (slot : Slot) : Option (List β) :=
  if slot.valid then some (slice elements slot.start slot.stop) else none

namespace ListArray

variable {V : Type} [Sized V]

/-- `ListArray::new`. An `i32` offset that has overflowed is negative, and refused as well. -/
def new (offsets : List Nat) (nulls : Option (List Bool)) (values : V) : Option (ListArray V) :=
  if h : Valid offsets nulls (Sized.size values) then some ⟨offsets, nulls, values, h⟩ else none

def len (array : ListArray V) : Nat := array.offsets.length - 1

instance : Sized (ListArray V) := ⟨len⟩

def validity (array : ListArray V) : List Bool := array.nulls.getD (List.replicate array.len true)

def slots (array : ListArray V) : List Slot :=
  (array.validity.zip (cuts array.offsets)).map fun entry => ⟨entry.1, entry.2.1, entry.2.2⟩

def rows (array : ListArray V) (elements : List β) : List (Option (List β)) :=
  array.slots.map (Slot.row elements)

end ListArray

structure FixedSizeListArray.Valid (len size : Nat) (nulls : Option (List Bool)) (count : Nat) :
    Prop where
  fits : size < 2 ^ 31
  inRange : len * size ≤ count
  rowNulls : ∀ validity ∈ nulls, validity.length = len

/-- A list array whose rows cover equally many values. -/
structure FixedSizeListArray (β : Type) where
  len : Nat
  size : Nat
  nulls : Option (List Bool)
  values : List β
  valid : FixedSizeListArray.Valid len size nulls values.length

namespace FixedSizeListArray

def validity (array : FixedSizeListArray β) : List Bool :=
  array.nulls.getD (List.replicate array.len true)

def slots (array : FixedSizeListArray β) : List Slot :=
  (array.validity.zip (List.range array.len)).map fun entry =>
    ⟨entry.1, entry.2 * array.size, (entry.2 + 1) * array.size⟩

def rows (array : FixedSizeListArray β) : List (Option (List β)) :=
  array.slots.map (Slot.row array.values)

end FixedSizeListArray

-- ---------------------------------------------------------------------------
-- Laws
-- ---------------------------------------------------------------------------

namespace ListArray

variable {V : Type} [Sized V] {array : ListArray V}

theorem new_eq {offsets : List Nat} {nulls : Option (List Bool)} {values : V}
    (h : Valid offsets nulls (Sized.size values)) :
    new offsets nulls values = some ⟨offsets, nulls, values, h⟩ := dif_pos h

theorem length_offsets (array : ListArray V) : array.offsets.length = array.len + 1 := by
  have := List.length_pos_iff.mpr array.valid.nonempty
  rw [len]
  omega

@[simp] theorem length_validity (array : ListArray V) : array.validity.length = array.len := by
  rw [validity]
  cases h : array.nulls with
  | none => exact List.length_replicate
  | some validity =>
    have := array.valid.rowNulls validity h
    have := array.length_offsets
    rw [Option.getD_some]
    omega

theorem length_validity_eq (array : ListArray V) :
    array.validity.length = (cuts array.offsets).length := by
  rw [length_validity, length_cuts, len]

@[simp] theorem length_slots (array : ListArray V) : array.slots.length = array.len := by
  rw [slots, List.length_map, List.length_zip, length_validity, length_cuts, ← len, Nat.min_self]

theorem slots_valid (array : ListArray V) : array.slots.map Slot.valid = array.validity := by
  rw [slots, List.map_map]
  exact List.map_fst_zip (Nat.le_of_eq array.length_validity_eq)

theorem cut_of_mem_slots (h : slot ∈ array.slots) :
    (slot.start, slot.stop) ∈ cuts array.offsets := by
  obtain ⟨entry, hentry, rfl⟩ := List.mem_map.mp h
  exact (List.of_mem_zip hentry).2

theorem slot_le (h : slot ∈ array.slots) : slot.start ≤ slot.stop :=
  le_of_mem_cuts array.valid.sorted (cut_of_mem_slots h)

theorem slot_inRange (h : slot ∈ array.slots) : slot.stop ≤ Sized.size array.values :=
  array.valid.inRange _ (mem_of_mem_cuts (cut_of_mem_slots h)).2

theorem slot_offsets (h : array.slots[i]? = some slot) :
    array.offsets[i]? = some slot.start ∧ array.offsets[i + 1]? = some slot.stop := by
  rw [slots, List.getElem?_map, Option.map_eq_some_iff] at h
  obtain ⟨entry, hentry, rfl⟩ := h
  have hcut := (List.getElem?_zip_eq_some.mp hentry).2
  rw [cuts, List.getElem?_zip_eq_some, List.getElem?_tail] at hcut
  exact hcut

def offsetAt (array : ListArray V) (i : Nat) : Nat := array.offsets.getD i 0

theorem getElem?_offsets (h : i ≤ array.len) : array.offsets[i]? = some (array.offsetAt i) := by
  have hlt : i < array.offsets.length := by
    rw [length_offsets]
    omega
  rw [offsetAt, List.getD_eq_getElem?_getD, List.getElem?_eq_getElem hlt, Option.getD_some]

theorem offsetAt_mem (h : i ≤ array.len) : array.offsetAt i ∈ array.offsets :=
  List.mem_of_getElem? (getElem?_offsets h)

theorem offsetAt_mono (hle : i ≤ j) (h : j ≤ array.len) : array.offsetAt i ≤ array.offsetAt j := by
  obtain ⟨hi, hival⟩ := List.getElem?_eq_some_iff.mp (getElem?_offsets (hle.trans h))
  obtain ⟨hj, hjval⟩ := List.getElem?_eq_some_iff.mp (getElem?_offsets h)
  rw [← hival, ← hjval]
  obtain hlt | rfl := Nat.lt_or_eq_of_le hle
  · exact List.pairwise_iff_getElem.mp array.valid.sorted i j hi hj hlt
  · exact Nat.le_refl _

theorem getElem?_slots (h : i < array.len) :
    ∃ slot, array.slots[i]? = some slot ∧ slot.start = array.offsetAt i ∧
      slot.stop = array.offsetAt (i + 1) := by
  have hlt : i < array.slots.length := by
    rw [length_slots]
    exact h
  have hslot : array.slots[i]? = some array.slots[i] := List.getElem?_eq_getElem hlt
  obtain ⟨hstart, hstop⟩ := slot_offsets hslot
  rw [getElem?_offsets (Nat.le_of_lt h)] at hstart
  rw [getElem?_offsets h] at hstop
  exact ⟨_, hslot, (Option.some.inj hstart).symm, (Option.some.inj hstop).symm⟩

theorem sum_slots_le (array : ListArray V) (hle : start ≤ stop) (h : stop ≤ array.len) :
    ((slice array.slots start stop).map fun slot => slot.stop - slot.start).sum ≤
      array.offsetAt stop - array.offsetAt start := by
  induction stop, hle using Nat.le_induction with
  | base => simp
  | succ stop hle ih =>
    obtain ⟨slot, hslot, hstart, hstop⟩ := getElem?_slots h
    have hbelow := offsetAt_mono hle (Nat.le_of_succ_le h)
    have hstep := offsetAt_mono (Nat.le_succ stop) h
    have hrest := ih (Nat.le_of_succ_le h)
    rw [← slice_append_slice _ hle (Nat.le_succ stop), slice_succ hslot, List.map_append,
      List.sum_append, List.map_singleton, List.sum_singleton, hstart, hstop]
    rw [Nat.succ_eq_add_one] at hstep
    omega

theorem sum_slots_lt (array : ListArray V) :
    (array.slots.map fun slot => slot.stop - slot.start).sum < 2 ^ 31 := by
  have hall : slice array.slots 0 array.len = array.slots := by
    rw [slice, List.drop_zero, Nat.sub_zero, ← length_slots, List.take_length]
  have hsum := array.sum_slots_le (Nat.zero_le _) (Nat.le_refl _)
  have hfits := array.valid.fits _ (offsetAt_mem (Nat.le_refl array.len))
  rw [hall] at hsum
  omega

theorem validity_congr {U : Type} [Sized U] {other : ListArray U}
    (hnulls : other.nulls = array.nulls) (hlen : other.len = array.len) :
    other.validity = array.validity := by
  rw [validity, validity, hnulls, hlen]

theorem slots_map {U : Type} [Sized U] {other : ListArray U} (f : Nat → Nat)
    (hoffsets : other.offsets = array.offsets.map f) (hnulls : other.nulls = array.nulls) :
    other.slots = array.slots.map fun slot => ⟨slot.valid, f slot.start, f slot.stop⟩ := by
  have hlen : other.len = array.len := by rw [len, len, hoffsets, List.length_map]
  rw [slots, slots, validity_congr hnulls hlen, hoffsets, cuts_map, List.zip_map_right,
    List.map_map, List.map_map]
  rfl

theorem rows_running {array : ListArray (List β)} {contents : List (List β)}
    (hoffsets : array.offsets = running 0 (contents.map List.length))
    (hvalues : array.values = contents.flatten) :
    array.rows array.values =
      List.zipWith (fun valid content => if valid then some content else none) array.validity
        contents := by
  have hslices := slices_running [] 0 contents rfl
  rw [← hoffsets, List.nil_append, ← hvalues] at hslices
  rw [rows, slots, List.map_map]
  conv_rhs => rw [← hslices]
  rw [List.zipWith_map_right, ← List.map_uncurry_zip_eq_zipWith]
  rfl

end ListArray

namespace FixedSizeListArray

variable {array : FixedSizeListArray β}

end FixedSizeListArray

end DimosViewer.Lenses
