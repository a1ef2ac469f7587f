import Mathlib.Order.Bounds.Basic
import Mathlib.Order.MinMax
import Mathlib.Data.List.Basic
import Mathlib.Data.List.Pairwise

/-!
# Searching for the least value

Values are found under ids, and ids are listed under keys, in ascending order. Ids
under keys ahead are not looked at once the result is no greater than their key. In
the dual order this is a search for the greatest value.
-/

namespace NeighborSearch

variable {α ι : Type*} [LinearOrder α]

def optMin : Option α → Option α → Option α
  | some a, some b => some (min a b)
  | a, b => a.or b

def searchIds (find : ι → Option α) (result : Option α) (ids : List ι) : Option α :=
  ids.foldl (fun result id => optMin result (find id)) result

def searchAhead (find : ι → Option α) (result : Option α) : List (α × List ι) → Option α
  | [] => result
  | (key, ids) :: rest =>
    if result.any (· ≤ key) then result else searchAhead find (searchIds find result ids) rest

def searchAll (find : ι → Option α) (result : Option α) (entries : List (α × List ι)) :
    Option α :=
  entries.foldl (fun result entry => searchIds find result entry.2) result

-- ---------------------------------------------------------------------------
-- Soundness and coverage
-- ---------------------------------------------------------------------------

def Covers (result : Option α) (t : α) : Prop := ∃ a ∈ result, a ≤ t

variable {find : ι → Option α} {result other : Option α} {t : α} {ids : List ι}
  {entries : List (α × List ι)}

theorem covers_optMin : Covers (optMin result other) t ↔ Covers result t ∨ Covers other t := by
  cases result <;> cases other <;> simp [Covers, optMin]

theorem mem_optMin (h : t ∈ optMin result other) : t ∈ result ∨ t ∈ other := by
  cases result with
  | none => exact .inr (by simpa [optMin] using h)
  | some a =>
    cases other with
    | none => exact .inl (by simpa [optMin] using h)
    | some b =>
      simp only [optMin, Option.mem_def, Option.some.injEq] at h
      rcases min_choice a b with hm | hm
      · exact .inl (congrArg some (hm.symm.trans h))
      · exact .inr (congrArg some (hm.symm.trans h))

theorem covers_searchIds :
    Covers (searchIds find result ids) t ↔ Covers result t ∨ ∃ id ∈ ids, Covers (find id) t := by
  induction ids generalizing result with
  | nil => simp [searchIds]
  | cons id rest ih =>
    rw [searchIds, List.foldl_cons]
    change Covers (searchIds find _ rest) t ↔ _
    rw [ih, covers_optMin, or_assoc]
    simp only [List.mem_cons, exists_eq_or_imp]

theorem mem_searchIds (h : t ∈ searchIds find result ids) :
    t ∈ result ∨ ∃ id ∈ ids, t ∈ find id := by
  induction ids generalizing result with
  | nil => exact .inl h
  | cons id rest ih =>
    rcases ih h with h | ⟨id', hid, h⟩
    · exact (mem_optMin h).imp_right fun h => ⟨id, List.mem_cons_self, h⟩
    · exact .inr ⟨id', List.mem_cons_of_mem _ hid, h⟩

theorem covers_searchAll : Covers (searchAll find result entries) t ↔
    Covers result t ∨ ∃ entry ∈ entries, ∃ id ∈ entry.2, Covers (find id) t := by
  induction entries generalizing result with
  | nil => simp [searchAll]
  | cons entry rest ih =>
    rw [searchAll, List.foldl_cons]
    change Covers (searchAll find _ rest) t ↔ _
    rw [ih, covers_searchIds, or_assoc]
    simp only [List.mem_cons, exists_eq_or_imp]

theorem mem_searchAll (h : t ∈ searchAll find result entries) :
    t ∈ result ∨ ∃ entry ∈ entries, ∃ id ∈ entry.2, t ∈ find id := by
  induction entries generalizing result with
  | nil => exact .inl h
  | cons entry rest ih =>
    rcases ih h with h | ⟨entry', he, h⟩
    · exact (mem_searchIds h).imp_right fun h => ⟨entry, List.mem_cons_self, h⟩
    · exact .inr ⟨entry', List.mem_cons_of_mem _ he, h⟩

theorem mem_searchAhead (h : t ∈ searchAhead find result entries) :
    t ∈ result ∨ ∃ entry ∈ entries, ∃ id ∈ entry.2, t ∈ find id := by
  induction entries generalizing result with
  | nil => exact .inl h
  | cons entry rest ih =>
    rw [searchAhead] at h
    split at h
    · exact .inl h
    · rcases ih h with h | ⟨entry', he, h⟩
      · exact (mem_searchIds h).imp_right fun h => ⟨entry, List.mem_cons_self, h⟩
      · exact .inr ⟨entry', List.mem_cons_of_mem _ he, h⟩

theorem Covers.searchAhead (h : Covers result t) : Covers (searchAhead find result entries) t := by
  induction entries generalizing result with
  | nil => exact h
  | cons entry rest ih =>
    rw [NeighborSearch.searchAhead]
    split
    · exact h
    · exact ih (covers_searchIds.mpr (.inl h))

/-- To stop early misses nothing: what is listed under later keys is not less than them. -/
theorem covers_searchAhead (hsorted : entries.Pairwise (·.1 ≤ ·.1)) {entry : α × List ι}
    (he : entry ∈ entries) {id : ι} (hid : id ∈ entry.2) (hkey : entry.1 ≤ t)
    (hfind : Covers (find id) t) : Covers (searchAhead find result entries) t := by
  induction entries generalizing result with
  | nil => cases he
  | cons first rest ih =>
    rw [List.pairwise_cons] at hsorted
    rw [searchAhead]
    split
    · rename_i hstop
      obtain ⟨a, ha, hle⟩ := (Option.any_eq_true ..).mp hstop
      refine ⟨a, ha, (of_decide_eq_true hle).trans (le_trans ?_ hkey)⟩
      rcases List.mem_cons.mp he with rfl | he
      · exact le_rfl
      · exact hsorted.1 entry he
    · rcases List.mem_cons.mp he with rfl | he
      · exact (covers_searchIds.mpr (.inr ⟨id, hid, hfind⟩)).searchAhead
      · exact ih hsorted.2 he

theorem covers_foldl {β : Type*} {step : Option α → β → Option α} {l : List β} {x : β}
    (hkeep : ∀ result x, Covers result t → Covers (step result x) t) (hx : x ∈ l)
    (hfind : ∀ result, Covers (step result x) t) : Covers (l.foldl step result) t := by
  have hrest : ∀ (l : List β) result, Covers result t → Covers (l.foldl step result) t := by
    intro l
    induction l with
    | nil => exact fun _ h => h
    | cons y rest ih => exact fun result h => ih _ (hkeep result y h)
  induction l generalizing result with
  | nil => cases hx
  | cons y rest ih =>
    rcases List.mem_cons.mp hx with rfl | hx
    · exact hrest rest _ (hfind result)
    · exact ih hx

omit [LinearOrder α] in
theorem mem_foldl {β : Type*} {step : Option α → β → Option α} {l : List β} {s : Set α}
    (hstep : ∀ result x, ∀ t ∈ step result x, t ∈ result ∨ t ∈ s)
    (h : t ∈ l.foldl step result) : t ∈ result ∨ t ∈ s := by
  induction l generalizing result with
  | nil => exact .inl h
  | cons y rest ih =>
    rcases ih h with h | h
    · exact hstep result y t h
    · exact .inr h

theorem eq_some_iff_isLeast {s : Set α} (hmem : ∀ t ∈ result, t ∈ s)
    (hcov : ∀ t ∈ s, Covers result t) : result = some t ↔ IsLeast s t := by
  constructor
  · rintro rfl
    refine ⟨hmem t rfl, fun u hu => ?_⟩
    obtain ⟨a, ha, hle⟩ := hcov u hu
    cases ha
    exact hle
  · rintro ⟨ht, hle⟩
    obtain ⟨a, ha, hat⟩ := hcov t ht
    rw [ha, le_antisymm hat (hle (hmem a ha))]

theorem eq_none_iff_empty {s : Set α} (hmem : ∀ t ∈ result, t ∈ s)
    (hcov : ∀ t ∈ s, Covers result t) : result = none ↔ s = ∅ := by
  constructor
  · rintro rfl
    refine Set.eq_empty_of_forall_notMem fun t ht => ?_
    obtain ⟨a, ha, -⟩ := hcov t ht
    cases ha
  · rintro rfl
    exact Option.eq_none_iff_forall_not_mem.mpr hmem

end NeighborSearch
