import Mathlib.Data.List.Sort

/-!
# Records rolled up by their keys

Records of one key are merged into one: sorted by key, then merged with their neighbors.
What the records of a key come to is the same before and after.
-/

namespace Rollup

variable {ρ κ β : Type} [DecidableEq κ] (key : ρ → κ) (val : ρ → β) (merge : ρ → ρ → ρ)
  (op : β → β → β)

/-- The first record takes up those of its key that follow it directly. -/
def absorb (first : ρ) : List ρ → List ρ
  | [] => [first]
  | next :: rest =>
    if key next = key first then absorb (merge first next) rest
    else first :: absorb next rest

/-- `dedup_by`, where the closure merges what it drops. -/
def mergeNeighbors : List ρ → List ρ
  | [] => []
  | first :: rest => absorb key merge first rest

def total (k : κ) : List ρ → Option β
  | [] => none
  | record :: rest =>
    if key record = k then Option.merge op (some (val record)) (total k rest) else total k rest

-- ---------------------------------------------------------------------------
-- Totals
-- ---------------------------------------------------------------------------

section Total

variable {key} {val} {op}

theorem total_append [Std.Associative op] (k : κ) (l l' : List ρ) :
    total key val op k (l ++ l') =
      Option.merge op (total key val op k l) (total key val op k l') := by
  induction l with
  | nil => rw [List.nil_append, total, Option.merge_none_left]
  | cons record rest ih =>
    rw [List.cons_append, total, total, ih]
    split
    case isTrue => exact (Option.associative_merge op).assoc _ _ _ |>.symm
    case isFalse => rfl

theorem total_perm [Std.Associative op] [Std.Commutative op] (h : l.Perm l') (k : κ) :
    total key val op k l = total key val op k l' := by
  induction h with
  | nil => rfl
  | cons record _ ih => rw [total, total, ih]
  | swap first second rest =>
    simp only [total]
    split <;> split
    · ac_rfl
    · rfl
    · rfl
    · rfl
  | trans _ _ ih ih' => exact ih.trans ih'

theorem total_map (f : γ → ρ) (l : List γ) :
    total key val op k (l.map f) = total (fun x => key (f x)) (fun x => val (f x)) op k l := by
  induction l with
  | nil => rfl
  | cons x rest ih => rw [List.map_cons, total, total, ih]

theorem total_eq_none_iff : total key val op k l = none ↔ k ∉ l.map key := by
  induction l with
  | nil => simp [total]
  | cons record rest ih =>
    rw [total, List.map_cons, List.mem_cons]
    split
    case isTrue h => cases total key val op k rest <;> simp [h]
    case isFalse h => simp [ih, Ne.symm h]

theorem total_of_mem (hn : (l.map key).Nodup) (h : record ∈ l) :
    total key val op (key record) l = some (val record) := by
  induction l with
  | nil => cases h
  | cons first rest ih =>
    rw [List.map_cons, List.nodup_cons] at hn
    obtain rfl | h := List.mem_cons.mp h
    · rw [total, if_pos rfl, total_eq_none_iff.mpr hn.1, Option.merge_none_right]
    · have hne : key first ≠ key record := fun he => hn.1 (he ▸ List.mem_map_of_mem h)
      rw [total, if_neg hne, ih hn.2 h]

theorem total_induction {motive : List ρ → β → Prop}
    (single : ∀ record, motive [record] (val record))
    (step : ∀ record l b, key record = k → motive l b →
      motive (record :: l) (op (val record) b))
    (h : total key val op k l = some b) : motive (l.filter (key · = k)) b := by
  induction l generalizing b with
  | nil => cases h
  | cons record rest ih =>
    rw [total] at h
    split at h
    case isTrue hk =>
      rw [List.filter_cons_of_pos (by simpa using hk)]
      cases hrest : total key val op k rest with
      | none =>
        rw [hrest, Option.merge_none_right, Option.some.injEq] at h
        have hnil : rest.filter (key · = k) = [] := by
          refine List.filter_eq_nil_iff.mpr fun other ho hko => ?_
          exact total_eq_none_iff.mp hrest (List.mem_map.mpr ⟨other, ho, by simpa using hko⟩)
        rw [hnil, ← h]
        exact single record
      | some c =>
        rw [hrest, Option.merge_some_some, Option.some.injEq] at h
        exact h ▸ step record _ c hk (ih hrest)
    case isFalse hk =>
      rw [List.filter_cons_of_neg (by simpa using hk)]
      exact ih h

end Total

-- ---------------------------------------------------------------------------
-- Merged neighbors
-- ---------------------------------------------------------------------------

section Merge

variable {key} {val} {merge} {op}

theorem total_absorb [Std.Associative op] (hkey : ∀ a b, key (merge a b) = key a)
    (hval : ∀ a b, val (merge a b) = op (val a) (val b)) (k : κ) (first : ρ) (rest : List ρ) :
    total key val op k (absorb key merge first rest) = total key val op k (first :: rest) := by
  induction rest generalizing first with
  | nil => rfl
  | cons next rest ih =>
    rw [absorb]
    split
    case isTrue h =>
      rw [ih, total, hkey, hval, total, total, h]
      split
      case isTrue => rw [← (Option.associative_merge op).assoc, Option.merge_some_some]
      case isFalse => rfl
    case isFalse => rw [total, ih, ← total]

theorem total_mergeNeighbors [Std.Associative op] (hkey : ∀ a b, key (merge a b) = key a)
    (hval : ∀ a b, val (merge a b) = op (val a) (val b)) (k : κ) (l : List ρ) :
    total key val op k (mergeNeighbors key merge l) = total key val op k l := by
  cases l with
  | nil => rfl
  | cons first rest => exact total_absorb hkey hval k first rest

theorem keys_absorb [LinearOrder κ] (hkey : ∀ a b, key (merge a b) = key a) (first : ρ)
    (rest : List ρ) (h : ((first :: rest).map key).Pairwise (· ≤ ·)) :
    ((absorb key merge first rest).map key).Pairwise (· < ·) ∧
      ∀ k ∈ (absorb key merge first rest).map key, key first ≤ k := by
  induction rest generalizing first with
  | nil => exact ⟨List.pairwise_singleton _ _, fun k hk => (List.mem_singleton.mp hk).ge⟩
  | cons next rest ih =>
    rw [List.map_cons, List.map_cons, List.pairwise_cons] at h
    obtain ⟨hfirst, hrest⟩ := h
    rw [absorb]
    split
    case isTrue =>
      rw [← hkey first next]
      refine ih (merge first next) (List.pairwise_cons.mpr ⟨fun k hk => ?_, ?_⟩)
      · rw [hkey]
        exact hfirst k (List.mem_cons_of_mem _ hk)
      · exact (List.pairwise_cons.mp hrest).2
    case isFalse hne =>
      obtain ⟨hsorted, hge⟩ := ih next hrest
      have hlt : key first < key next := lt_of_le_of_ne (hfirst _ List.mem_cons_self) (Ne.symm hne)
      refine ⟨List.pairwise_cons.mpr ⟨fun k hk => hlt.trans_le (hge k hk), hsorted⟩, ?_⟩
      intro k hk
      obtain rfl | hk := List.mem_cons.mp hk
      · exact le_rfl
      · exact hlt.le.trans (hge k hk)

theorem nodup_keys_mergeNeighbors [LinearOrder κ] (hkey : ∀ a b, key (merge a b) = key a)
    (h : (l.map key).Pairwise (· ≤ ·)) : ((mergeNeighbors key merge l).map key).Nodup := by
  cases l with
  | nil => exact .nil
  | cons first rest => exact (keys_absorb hkey first rest h).1.imp ne_of_lt

theorem absorb_of_nodup (first : ρ) (rest : List ρ) (h : ((first :: rest).map key).Nodup) :
    absorb key merge first rest = first :: rest := by
  induction rest generalizing first with
  | nil => rfl
  | cons next rest ih =>
    rw [List.map_cons, List.nodup_cons] at h
    have hne : key next ≠ key first := fun he => h.1 (List.mem_cons.mpr (.inl he.symm))
    rw [absorb, if_neg hne, ih next h.2]

theorem mergeNeighbors_of_nodup (h : (l.map key).Nodup) : mergeNeighbors key merge l = l := by
  cases l with
  | nil => rfl
  | cons first rest => exact absorb_of_nodup first rest h

end Merge

end Rollup
