import DimosViewer.OrdMap
import Mathlib.Data.List.Induction

/-!
# Association lists that grow in place

`upsertEntry` is `entry(k).or_insert(d)` followed by an update. Collecting the values under
each key this way groups a list: the groups are the sublists of equal key.
-/

set_option linter.unusedSectionVars false

namespace Grouping

variable [DecidableEq κ] [BEq κ] [LawfulBEq κ]

def upsertEntry (k : κ) (d : β) (f : β → β) : List (κ × β) → List (κ × β)
  | [] => [(k, f d)]
  | (k', v) :: rest => if k' = k then (k, f v) :: rest else (k', v) :: upsertEntry k d f rest

def orInsert (k : κ) (d : β) (l : List (κ × β)) : List (κ × β) := upsertEntry k d id l

theorem lookup_upsertEntry (k k' : κ) (d : β) (f : β → β) (l : List (κ × β)) :
    (upsertEntry k d f l).lookup k' =
      if k' = k then some (f ((l.lookup k).getD d)) else l.lookup k' := by
  induction l with
  | nil => simp [upsertEntry, OrdMap.lookup_cons]
  | cons entry rest ih =>
    obtain ⟨k₀, v⟩ := entry
    rw [upsertEntry]
    by_cases h : k₀ = k
    · subst h
      by_cases hk : k' = k₀ <;> simp [OrdMap.lookup_cons, hk]
    · rw [if_neg h, OrdMap.lookup_cons, ih, OrdMap.lookup_cons, OrdMap.lookup_cons]
      by_cases hk : k' = k₀
      · simp [hk, h]
      · simp [hk, Ne.symm h]

theorem lookup_orInsert (k k' : κ) (d : β) (l : List (κ × β)) :
    (orInsert k d l).lookup k' = if k' = k then some ((l.lookup k).getD d) else l.lookup k' :=
  lookup_upsertEntry k k' d id l

theorem keys_upsertEntry (k : κ) (d : β) (f : β → β) (l : List (κ × β)) :
    (upsertEntry k d f l).map Prod.fst =
      if k ∈ l.map Prod.fst then l.map Prod.fst else l.map Prod.fst ++ [k] := by
  induction l with
  | nil => simp [upsertEntry]
  | cons entry rest ih =>
    obtain ⟨k₀, v⟩ := entry
    rw [upsertEntry]
    by_cases h : k₀ = k
    · simp [h]
    · rw [if_neg h, List.map_cons, ih]
      by_cases hk : k ∈ rest.map Prod.fst
      · simp [hk]
      · simp [hk, Ne.symm h]

theorem mem_keys_upsertEntry {k k' : κ} {d : β} {f : β → β} {l : List (κ × β)} :
    k' ∈ (upsertEntry k d f l).map Prod.fst ↔ k' = k ∨ k' ∈ l.map Prod.fst := by
  rw [keys_upsertEntry]
  split
  case isTrue h =>
    refine ⟨.inr, ?_⟩
    rintro (rfl | h')
    · exact h
    · exact h'
  case isFalse h => simp [or_comm]

theorem nodup_keys_upsertEntry (k : κ) (d : β) (f : β → β) {l : List (κ × β)}
    (h : (l.map Prod.fst).Nodup) : ((upsertEntry k d f l).map Prod.fst).Nodup := by
  rw [keys_upsertEntry]
  split
  case isTrue => exact h
  case isFalse hk =>
    refine List.nodup_append.mpr ⟨h, List.pairwise_singleton _ k, ?_⟩
    intro a ha b hb hab
    rw [List.mem_singleton] at hb
    exact hk (hb ▸ hab ▸ ha)

theorem mem_upsertEntry {k : κ} {v : β} {l : List (κ × β)} {entry : κ × β}
    (h : entry ∈ upsertEntry k v (fun _ => v) l) : entry ∈ l ∨ entry = (k, v) := by
  induction l with
  | nil => exact .inr (List.mem_singleton.mp h)
  | cons entry' rest ih =>
    obtain ⟨k', v'⟩ := entry'
    rw [upsertEntry] at h
    split at h
    case isTrue =>
      rcases List.mem_cons.mp h with h | h
      · exact .inr h
      · exact .inl (List.mem_cons_of_mem _ h)
    case isFalse =>
      rcases List.mem_cons.mp h with h | h
      · exact .inl (h ▸ List.mem_cons_self)
      · exact (ih h).imp_left (List.mem_cons_of_mem _)

theorem mem_of_lookup {k : κ} {l : List (κ × β)} (h : l.lookup k = some v) : (k, v) ∈ l := by
  induction l with
  | nil => cases h
  | cons entry rest ih =>
    obtain ⟨k', v'⟩ := entry
    rw [OrdMap.lookup_cons] at h
    split at h
    case isTrue hk =>
      cases h
      exact hk ▸ List.mem_cons_self
    case isFalse => exact List.mem_cons_of_mem _ (ih h)

-- ---------------------------------------------------------------------------
-- Groups
-- ---------------------------------------------------------------------------

/-- `entry(key(x)).or_default().push(x)` for every `x`. -/
def groupInto (key : α → κ) (l : List α) : List (κ × List α) :=
  l.foldl (fun groups x => upsertEntry (key x) [] (· ++ [x]) groups) []

theorem groupInto_append_singleton (key : α → κ) (l : List α) (x : α) :
    groupInto key (l ++ [x]) = upsertEntry (key x) [] (· ++ [x]) (groupInto key l) := by
  simp [groupInto]

theorem nodup_keys_groupInto (key : α → κ) (l : List α) :
    ((groupInto key l).map Prod.fst).Nodup := by
  induction l using List.reverseRecOn with
  | nil => exact .nil
  | append_singleton l x ih =>
    rw [groupInto_append_singleton]
    exact nodup_keys_upsertEntry _ _ _ ih

theorem getD_lookup_groupInto (key : α → κ) (l : List α) (k : κ) :
    ((groupInto key l).lookup k).getD [] = l.filter (key · = k) := by
  induction l using List.reverseRecOn with
  | nil => rfl
  | append_singleton l x ih =>
    rw [groupInto_append_singleton, lookup_upsertEntry, List.filter_append]
    by_cases h : k = key x
    · subst h
      simp [ih]
    · simp [h, Ne.symm h, ih]

theorem ne_nil_of_mem_groupInto {key : α → κ} {l : List α} (h : (k, group) ∈ groupInto key l) :
    group ≠ [] := by
  rw [← OrdMap.lookup_eq_some_iff_mem (nodup_keys_groupInto key l)] at h
  induction l using List.reverseRecOn with
  | nil => simp [groupInto] at h
  | append_singleton l x ih =>
    rw [groupInto_append_singleton, lookup_upsertEntry] at h
    split at h
    case isTrue =>
      cases h
      simp
    case isFalse => exact ih h

theorem group_eq_filter {key : α → κ} {l : List α} (h : (k, group) ∈ groupInto key l) :
    group = l.filter (key · = k) := by
  rw [← OrdMap.lookup_eq_some_iff_mem (nodup_keys_groupInto key l)] at h
  rw [← getD_lookup_groupInto, h]
  rfl

theorem flatMap_upsertEntry_perm (k : κ) (x : α) (l : List (κ × List α)) :
    ((upsertEntry k [] (· ++ [x]) l).flatMap Prod.snd).Perm (l.flatMap Prod.snd ++ [x]) := by
  induction l with
  | nil => simp [upsertEntry]
  | cons entry rest ih =>
    obtain ⟨k', group⟩ := entry
    rw [upsertEntry]
    split
    case isTrue =>
      simp only [List.flatMap_cons, List.append_assoc]
      exact List.perm_append_comm.append_left group
    case isFalse =>
      simp only [List.flatMap_cons, List.append_assoc]
      exact ih.append_left group

theorem flatMap_upsertEntry_perm_append (k : κ) (f : List α → List α) (added : List α)
    (l : List (κ × List α))
    (h : (f ((l.lookup k).getD [])).Perm ((l.lookup k).getD [] ++ added)) :
    ((upsertEntry k [] f l).flatMap Prod.snd).Perm (l.flatMap Prod.snd ++ added) := by
  induction l with
  | nil => simpa [upsertEntry] using h
  | cons entry rest ih =>
    obtain ⟨k', group⟩ := entry
    rw [OrdMap.lookup_cons] at h
    rw [upsertEntry]
    by_cases hk : k' = k
    · subst hk
      rw [if_pos rfl, List.flatMap_cons, List.flatMap_cons, List.append_assoc]
      rw [if_pos rfl] at h
      refine (h.append_right _).trans ?_
      rw [Option.getD_some, List.append_assoc]
      exact List.perm_append_comm.append_left group
    · rw [if_neg hk, List.flatMap_cons, List.flatMap_cons, List.append_assoc]
      rw [if_neg (Ne.symm hk)] at h
      exact (ih h).append_left group

theorem flatMap_filter_perm (key : α → κ) (l : List α) {keys : List κ} (h : keys.Nodup) :
    (keys.flatMap fun k => l.filter (key · = k)).Perm (l.filter (key · ∈ keys)) := by
  induction keys with
  | nil => simp
  | cons k keys ih =>
    obtain ⟨hk, hkeys⟩ := List.nodup_cons.mp h
    rw [List.flatMap_cons]
    refine ((ih hkeys).append_left _).trans ?_
    refine .trans (.of_eq ?_)
      (List.filter_append_perm (key · = k) (l.filter (key · ∈ k :: keys)))
    rw [List.filter_filter, List.filter_filter]
    congr 1
    · refine List.filter_congr fun x _ => ?_
      by_cases hx : key x = k <;> simp [hx]
    · refine List.filter_congr fun x _ => ?_
      by_cases hx : key x = k <;> simp [hx, hk]

theorem flatMap_groupInto_perm (key : α → κ) (l : List α) :
    ((groupInto key l).flatMap Prod.snd).Perm l := by
  induction l using List.reverseRecOn with
  | nil => exact .nil
  | append_singleton l x ih =>
    rw [groupInto_append_singleton]
    exact (flatMap_upsertEntry_perm _ _ _).trans (ih.append_right [x])

end Grouping
