import DimosViewer.SortedEntries

/-!
# A map that keeps count of its heap size

The counter follows every operation, from the sizes at hand. An operation is `None` where a
subtraction from the counter underflows.
-/

namespace DimosViewer

open Std (TransOrd)

/-- `SizeBytes`, as far as the heap goes. -/
class SizeBytes (α : Type) where
  heapSizeBytes : α → Nat

export SizeBytes (heapSizeBytes)

structure BookkeepingBTreeMap (K V : Type) [Ord K] where
  map : SortedEntries K V
  kvHeapSizeBytes : Nat

def checkedSub (a b : Nat) : Option Nat := if b ≤ a then some (a - b) else none

theorem checkedSub_eq_some : checkedSub a b = some c ↔ b ≤ a ∧ c = a - b := by
  rw [checkedSub]
  split <;> simp_all [eq_comm]

namespace BookkeepingBTreeMap

variable {K V : Type} [Ord K]

def new : BookkeepingBTreeMap K V := ⟨.empty, 0⟩

def entrySize [SizeBytes K] [SizeBytes V] (e : K × V) : Nat :=
  heapSizeBytes e.1 + heapSizeBytes e.2

variable [TransOrd K] [SizeBytes K] [SizeBytes V]

def mutateEntry (m : BookkeepingBTreeMap K V) (key : K) (defaultValue : V) (mutator : V → V) :
    Option (BookkeepingBTreeMap K V) :=
  match m.map.entry? key with
  | none =>
    let value := mutator defaultValue
    some ⟨m.map.put key value, m.kvHeapSizeBytes + heapSizeBytes key + heapSizeBytes value⟩
  | some (_, stored) => do
    let kvHeapSizeBytes ← checkedSub m.kvHeapSizeBytes (heapSizeBytes stored)
    let value := mutator stored
    return ⟨m.map.put key value, kvHeapSizeBytes + heapSizeBytes value⟩

/-- The last entry whose key is not greater, with what the mutator returns for it. -/
def mutateLatestAt (m : BookkeepingBTreeMap K V) (key : K) (mutator : K → V → R × V) :
    Option (BookkeepingBTreeMap K V × Option R) :=
  match m.map.latestAt key with
  | none => some (m, none)
  | some (key, stored) => do
    let kvHeapSizeBytes ← checkedSub m.kvHeapSizeBytes (heapSizeBytes stored)
    let (ret, value) := mutator key stored
    return (⟨m.map.put key value, kvHeapSizeBytes + heapSizeBytes value⟩, some ret)

def insert (m : BookkeepingBTreeMap K V) (key : K) (value : V) :
    Option (BookkeepingBTreeMap K V × Option V) :=
  let newKeySize := heapSizeBytes key
  let newValueSize := heapSizeBytes value
  match m.map.entry? key with
  | some (_, oldValue) => do
    -- The key remains the same.
    let kvHeapSizeBytes ← checkedSub m.kvHeapSizeBytes (heapSizeBytes oldValue)
    return (⟨m.map.put key value, kvHeapSizeBytes + newValueSize⟩, some oldValue)
  | none => some (⟨m.map.put key value, m.kvHeapSizeBytes + (newKeySize + newValueSize)⟩, none)

def remove (m : BookkeepingBTreeMap K V) (key : K) :
    Option (BookkeepingBTreeMap K V × Option V) :=
  match m.map.entry? key with
  | some (_, value) => do
    -- The size of the key that was asked for.
    let kvHeapSizeBytes ← checkedSub m.kvHeapSizeBytes (heapSizeBytes key)
    let kvHeapSizeBytes ← checkedSub kvHeapSizeBytes (heapSizeBytes value)
    return (⟨m.map.erase key, kvHeapSizeBytes⟩, some value)
  | none => some (m, none)

def extend (m : BookkeepingBTreeMap K V) (entries : List (K × V)) :
    Option (BookkeepingBTreeMap K V) :=
  entries.foldlM (fun m (key, value) => (m.insert key value).map Prod.fst) m

/-- What is done to a map. Mutators may return anything, here nothing. -/
inductive Op (K V : Type) where
  | insert (key : K) (value : V)
  | remove (key : K)
  | mutateEntry (key : K) (defaultValue : V) (mutator : V → V)
  | mutateLatestAt (key : K) (mutator : K → V → V)
  | extend (entries : List (K × V))

def step (m : BookkeepingBTreeMap K V) : Op K V → Option (BookkeepingBTreeMap K V)
  | .insert key value => (m.insert key value).map Prod.fst
  | .remove key => (m.remove key).map Prod.fst
  | .mutateEntry key defaultValue mutator => m.mutateEntry key defaultValue mutator
  | .mutateLatestAt key mutator =>
    (m.mutateLatestAt key fun key value => ((), mutator key value)).map Prod.fst
  | .extend entries => m.extend entries

def run (m : BookkeepingBTreeMap K V) (ops : List (Op K V)) : Option (BookkeepingBTreeMap K V) :=
  ops.foldlM step m

-- ---------------------------------------------------------------------------
-- Exact counters
-- ---------------------------------------------------------------------------

def Exact (m : BookkeepingBTreeMap K V) : Prop := m.kvHeapSizeBytes = m.map.total entrySize

def SameKeySize (m : BookkeepingBTreeMap K V) : Op K V → Prop
  | .remove key => ∀ e, m.map.entry? key = some e → heapSizeBytes e.1 = heapSizeBytes key
  | _ => True

def SameKeySizes : BookkeepingBTreeMap K V → List (Op K V) → Prop
  | _, [] => True
  | m, op :: ops => m.SameKeySize op ∧ ∀ m', m.step op = some m' → SameKeySizes m' ops

section Laws

variable {m : BookkeepingBTreeMap K V}

omit [TransOrd K] in
theorem Exact.value_le (h : m.Exact) (he : m.map.entry? key = some (stored, value)) :
    heapSizeBytes value ≤ m.kvHeapSizeBytes := by
  have hle := SortedEntries.le_total entrySize he
  simp only [entrySize] at hle
  rw [h]
  omega

theorem Exact.put_stored (h : m.Exact) (he : m.map.entry? key = some (stored, value)) (v : V) :
    (⟨m.map.put key v, m.kvHeapSizeBytes - heapSizeBytes value + heapSizeBytes v⟩ :
      BookkeepingBTreeMap K V).Exact := by
  have hle := h.value_le he
  have ht := m.map.total_put entrySize key v
  rw [he, Option.elim_some, Option.elim_some] at ht
  simp only [entrySize] at ht
  rw [Exact] at h ⊢
  dsimp only
  omega

theorem Exact.put_new (h : m.Exact) (he : m.map.entry? key = none) (v : V) :
    (⟨m.map.put key v, m.kvHeapSizeBytes + (heapSizeBytes key + heapSizeBytes v)⟩ :
      BookkeepingBTreeMap K V).Exact := by
  have ht := m.map.total_put entrySize key v
  rw [he, Option.elim_none, Option.elim_none, Nat.add_zero] at ht
  simp only [entrySize] at ht
  rw [Exact] at h ⊢
  dsimp only
  omega

theorem Exact.insert (h : m.Exact) (key : K) (value : V) :
    ∃ m' old, m.insert key value = some (m', old) ∧ m'.Exact := by
  rw [BookkeepingBTreeMap.insert]
  cases he : m.map.entry? key with
  | none => exact ⟨_, _, rfl, h.put_new he value⟩
  | some e =>
    refine ⟨_, some e.2, ?_, h.put_stored he value⟩
    simp only [checkedSub, if_pos (h.value_le he)]
    rfl

theorem Exact.mutateEntry (h : m.Exact) (key : K) (defaultValue : V) (mutator : V → V) :
    ∃ m', m.mutateEntry key defaultValue mutator = some m' ∧ m'.Exact := by
  rw [BookkeepingBTreeMap.mutateEntry]
  cases he : m.map.entry? key with
  | none =>
    refine ⟨_, rfl, ?_⟩
    rw [Nat.add_assoc]
    exact h.put_new he _
  | some e =>
    refine ⟨_, ?_, h.put_stored he (mutator e.2)⟩
    simp only [checkedSub, if_pos (h.value_le he)]
    rfl

theorem Exact.mutateLatestAt (h : m.Exact) (key : K) (mutator : K → V → R × V) :
    ∃ m' ret, m.mutateLatestAt key mutator = some (m', ret) ∧ m'.Exact := by
  rw [BookkeepingBTreeMap.mutateLatestAt]
  cases hl : m.map.latestAt key with
  | none => exact ⟨_, _, rfl, h⟩
  | some e =>
    have he := SortedEntries.entry?_of_latestAt hl
    refine ⟨_, some (mutator e.1 e.2).1, ?_, h.put_stored he (mutator e.1 e.2).2⟩
    simp only [checkedSub, if_pos (h.value_le he)]
    rfl

theorem Exact.extend (h : m.Exact) (entries : List (K × V)) :
    ∃ m', m.extend entries = some m' ∧ m'.Exact := by
  induction entries generalizing m with
  | nil => exact ⟨m, rfl, h⟩
  | cons e rest ih =>
    obtain ⟨key, value⟩ := e
    obtain ⟨m', old, hi, hm'⟩ := h.insert key value
    obtain ⟨m'', hext, hm''⟩ := ih hm'
    refine ⟨m'', ?_, hm''⟩
    rw [BookkeepingBTreeMap.extend, List.foldlM_cons]
    dsimp only
    rw [hi]
    exact hext

omit [TransOrd K] in
theorem Exact.remove_iff (h : m.Exact) (key : K) :
    (∃ m' old, m.remove key = some (m', old) ∧ m'.Exact) ↔ m.SameKeySize (.remove key) := by
  rw [BookkeepingBTreeMap.remove, SameKeySize]
  cases he : m.map.entry? key with
  | none =>
    refine iff_of_true ⟨_, _, rfl, h⟩ ?_
    rintro e ⟨⟩
  | some e =>
    have ht := m.map.total_erase entrySize key
    rw [he, Option.elim_some, entrySize] at ht
    rw [Exact] at h
    simp only [Option.some.injEq, forall_eq']
    constructor
    · rintro ⟨m', old, hr, hm'⟩
      obtain ⟨a, ha, hr⟩ := Option.bind_eq_some_iff.mp hr
      obtain ⟨b, hb, hr⟩ := Option.bind_eq_some_iff.mp hr
      obtain ⟨hale, rfl⟩ := checkedSub_eq_some.mp ha
      obtain ⟨hble, rfl⟩ := checkedSub_eq_some.mp hb
      cases hr
      rw [Exact] at hm'
      dsimp only at hm'
      omega
    · intro hsize
      have hkey : heapSizeBytes key ≤ m.kvHeapSizeBytes := by omega
      have hvalue : heapSizeBytes e.2 ≤ m.kvHeapSizeBytes - heapSizeBytes key := by omega
      refine ⟨⟨m.map.erase key, m.kvHeapSizeBytes - heapSizeBytes key - heapSizeBytes e.2⟩,
        some e.2, ?_, ?_⟩
      · simp only [checkedSub, if_pos hkey, Option.bind_eq_bind, Option.bind_some, if_pos hvalue]
        rfl
      · rw [Exact]
        dsimp only
        omega

theorem Exact.step (h : m.Exact) {op : Op K V} (hs : m.SameKeySize op) :
    ∃ m', m.step op = some m' ∧ m'.Exact := by
  cases op with
  | insert key value =>
    obtain ⟨m', old, he, hm'⟩ := h.insert key value
    exact ⟨m', Option.map_eq_some_iff.mpr ⟨_, he, rfl⟩, hm'⟩
  | remove key =>
    obtain ⟨m', old, he, hm'⟩ := (h.remove_iff key).mpr hs
    exact ⟨m', Option.map_eq_some_iff.mpr ⟨_, he, rfl⟩, hm'⟩
  | mutateEntry key defaultValue mutator => exact h.mutateEntry key defaultValue mutator
  | mutateLatestAt key mutator =>
    obtain ⟨m', ret, he, hm'⟩ := h.mutateLatestAt key fun key value => ((), mutator key value)
    exact ⟨m', Option.map_eq_some_iff.mpr ⟨_, he, rfl⟩, hm'⟩
  | extend entries => exact h.extend entries

theorem Exact.run (h : m.Exact) {ops : List (Op K V)} (hs : m.SameKeySizes ops) :
    ∃ m', m.run ops = some m' ∧ m'.Exact := by
  induction ops generalizing m with
  | nil => exact ⟨m, rfl, h⟩
  | cons op ops ih =>
    obtain ⟨m', hstep, hm'⟩ := h.step hs.1
    obtain ⟨m'', hrun, hm''⟩ := ih hm' (hs.2 m' hstep)
    refine ⟨m'', ?_, hm''⟩
    rw [BookkeepingBTreeMap.run, List.foldlM_cons, hstep]
    exact hrun

theorem SameKeySizes.append {before after : List (Op K V)}
    (h : m.SameKeySizes (before ++ after)) : m.SameKeySizes before := by
  induction before generalizing m with
  | nil => trivial
  | cons op before ih => exact ⟨h.1, fun m' hstep => ih (h.2 m' hstep)⟩

end Laws

omit [TransOrd K] in
theorem exact_new : (new : BookkeepingBTreeMap K V).Exact := rfl

/-- In a run from an empty map whose removals name keys as large as the stored ones, every
state that is reached has the exact size, and no subtraction underflows. -/
theorem run_exact {ops : List (Op K V)} (h : (new : BookkeepingBTreeMap K V).SameKeySizes ops) :
    ∀ before, before <+: ops →
      ∃ m, (new : BookkeepingBTreeMap K V).run before = some m ∧ m.Exact := by
  rintro before ⟨behind, rfl⟩
  exact exact_new.run h.append

-- ---------------------------------------------------------------------------
-- Keys of different sizes
-- ---------------------------------------------------------------------------

/-- A string on the heap, with room for more. Strings are compared by their text. -/
structure HeapString where
  text : String
  capacity : Nat

instance : Ord HeapString := ⟨compareOn HeapString.text⟩

instance : TransOrd HeapString := inferInstanceAs (Std.TransCmp (compareOn HeapString.text))

instance : SizeBytes HeapString := ⟨HeapString.capacity⟩

instance : SizeBytes Nat := ⟨fun _ => 0⟩

/-- A removal by a key with more room than the stored one underflows the counter, one with less
room leaves bytes that nothing takes. -/
theorem remove_drifts :
    ((new : BookkeepingBTreeMap HeapString Nat).run
        [.insert ⟨"a", 1⟩ 7, .remove ⟨"a", 16⟩]).isNone ∧
      ((new : BookkeepingBTreeMap HeapString Nat).run
          [.insert ⟨"a", 16⟩ 7, .remove ⟨"a", 1⟩]).map
        (fun m => (m.kvHeapSizeBytes, m.map.entries.length)) = some (15, 0) := by
  decide

theorem run_exact_same_key :
    ∃ m, (new : BookkeepingBTreeMap HeapString Nat).run
      [.insert ⟨"a", 16⟩ 7, .insert ⟨"a", 1⟩ 8, .remove ⟨"a", 16⟩] = some m ∧ m.Exact := by
  have hops : (new : BookkeepingBTreeMap HeapString Nat).SameKeySizes
      [.insert ⟨"a", 16⟩ 7, .insert ⟨"a", 1⟩ 8, .remove ⟨"a", 16⟩] := by
    refine ⟨trivial, fun m₁ h₁ => ⟨trivial, fun m₂ h₂ => ⟨?_, fun _ _ => trivial⟩⟩⟩
    obtain rfl := Option.some.inj h₁
    obtain rfl := Option.some.inj h₂
    rintro e he
    obtain rfl := Option.some.inj he
    rfl
  exact run_exact hops _ (List.prefix_refl _)

end BookkeepingBTreeMap

end DimosViewer
