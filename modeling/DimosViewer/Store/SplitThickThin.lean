import DimosViewer.Grouping
import DimosViewer.Offsets
import DimosViewer.Store.Query
import DimosViewer.Store.Run
import DimosViewer.Chunk.MergeLaws
import Mathlib.Algebra.Order.Field.Rat
import Mathlib.Data.List.Dedup

/-!
# Thick and thin columns

`split_chunk` parts a chunk where the sizes of its groups of columns jump. Sizes are
compared by their exact quotient.
-/

namespace DimosViewer

abbrev ArchetypeName := String

/-- Columns of one archetype stay together, a column without one is on its own. -/
inductive ComponentGroup where
  | archetype (name : ArchetypeName)
  | component (component : ComponentIdentifier)
deriving DecidableEq

def Chunk.componentsSliced (c : Chunk) (id : ChunkId)
    (componentsToKeep : List ComponentIdentifier) : Chunk :=
  { c with id, components := componentsToKeep.filterMap c.components.get }

structure SizedGroup where
  bytes : Nat
  components : List ComponentIdentifier
deriving DecidableEq

/-- The orders in which hash maps are gone through. -/
structure HashOrder where
  order : {α : Type} → List α → List α
  order_perm : ∀ {α : Type} (l : List α), (order l).Perm l

/-- What the split reads of descriptors and buffers, and the order of its hash map. -/
structure ThickThin where
  archetype : ComponentIdentifier → Option ArchetypeName
  heapSizeBytes : SerializedComponentColumn → Nat
  hashOrder : HashOrder
  newId : Nat → ChunkId

/-- By how much the heavier one of two neighbors outweighs the lighter one. -/
def quotient (heavier lighter : Nat) : ℚ := heavier / (max lighter 1 : Nat)

def splitPoints (ratio : ℚ) (sizes : List Nat) : List Nat :=
  (sizes.zip sizes.tail).zipIdx.filterMap fun ((heavier, lighter), i) =>
    if ratio ≤ quotient heavier lighter then some (i + 1) else none

namespace ThickThin

def group (t : ThickThin) (column : SerializedComponentColumn) : ComponentGroup :=
  match t.archetype column.component with
  | some name => .archetype name
  | none => .component column.component

def groups (t : ThickThin) (columns : ChunkComponents) : List (ComponentGroup × SizedGroup) :=
  columns.foldl (fun groups column =>
    Grouping.upsertEntry (t.group column) ⟨0, []⟩
      (fun group =>
        ⟨group.bytes + t.heapSizeBytes column, group.components ++ [column.component]⟩)
      groups) []

/-- The heaviest group comes first. -/
def sorted (t : ThickThin) (columns : ChunkComponents) : List (ComponentGroup × SizedGroup) :=
  (t.hashOrder.order (t.groups columns)).insertionSort fun a b => b.2.bytes ≤ a.2.bytes

def splitChunk (t : ThickThin) (chunk : Chunk) (ratio : ℚ) : Option (List Chunk) :=
  if chunk.components.length < 2 then none
  else if (t.groups chunk.components).length < 2 then none
  else
    let sorted := (t.sorted chunk.components).map Prod.snd
    let points := splitPoints ratio (sorted.map (·.bytes))
    if points.isEmpty then none
    else some <| (Offsets.cuts (0 :: (points ++ [sorted.length]))).zipIdx.map
      fun ((start, stop), n) =>
        chunk.componentsSliced (t.newId n)
          ((Offsets.slice sorted start stop).flatMap (·.components))

-- ---------------------------------------------------------------------------
-- The promise
-- ---------------------------------------------------------------------------

def members (t : ThickThin) (columns : ChunkComponents) (group : ComponentGroup) :
    ChunkComponents :=
  columns.filter (t.group · = group)

def bytes (t : ThickThin) (columns : ChunkComponents) (group : ComponentGroup) : Nat :=
  ((t.members columns group).map t.heapSizeBytes).sum

def factor (t : ThickThin) (columns : ChunkComponents) (g g' : ComponentGroup) : ℚ :=
  quotient (max (t.bytes columns g) (t.bytes columns g'))
    (min (t.bytes columns g) (t.bytes columns g'))

/-- The pieces of a chunk: nothing is lost, archetypes stay together, and two groups of one
piece are of like size. -/
structure SplitsWithin (t : ThickThin) (ratio : ℚ) (chunk : Chunk) (pieces : List Chunk) :
    Prop where
  columns : (pieces.flatMap (·.components)).Perm chunk.components
  rows : ∀ piece ∈ pieces, piece.entityPath = chunk.entityPath ∧
    piece.rowIds = chunk.rowIds ∧ piece.timelines = chunk.timelines
  together : ∀ piece ∈ pieces, ∀ a ∈ piece.components, ∀ b ∈ chunk.components,
    t.group b = t.group a → b ∈ piece.components
  bound : ∀ piece ∈ pieces, ∀ a ∈ piece.components, ∀ b ∈ piece.components,
    t.group a ≠ t.group b → t.factor chunk.components (t.group a) (t.group b) < ratio

def sizes (t : ThickThin) (columns : ChunkComponents) : List Nat :=
  ((columns.map t.group).dedup.map (t.bytes columns)).insertionSort (· ≥ ·)

end ThickThin

/-- Where two sizes are far apart, two neighbors between them are far apart already. -/
def JumpsBetween (ratio : ℚ) (sizes : List Nat) : Prop :=
  ∀ j < sizes.length, ∀ i < j, ratio ≤ quotient (sizes.getD i 0) (sizes.getD j 0) →
    ∃ k < j, i ≤ k ∧ ratio ≤ quotient (sizes.getD k 0) (sizes.getD (k + 1) 0)

instance (ratio : ℚ) (sizes : List Nat) : Decidable (JumpsBetween ratio sizes) := by
  unfold JumpsBetween
  infer_instance

-- ---------------------------------------------------------------------------
-- Split points
-- ---------------------------------------------------------------------------

theorem mem_splitPoints : o ∈ splitPoints ratio sizes ↔ ∃ k, o = k + 1 ∧ k + 1 < sizes.length ∧
    ratio ≤ quotient (sizes.getD k 0) (sizes.getD (k + 1) 0) := by
  simp only [splitPoints, List.mem_filterMap, Prod.exists, List.mem_zipIdx_iff_getElem?,
    Option.ite_none_right_eq_some, Option.some.injEq]
  constructor
  · rintro ⟨heavier, lighter, k, hk, hratio, rfl⟩
    obtain ⟨hheavier, hlighter⟩ := List.getElem?_zip_eq_some.mp hk
    rw [List.getElem?_tail] at hlighter
    obtain ⟨hlt, -⟩ := List.getElem?_eq_some_iff.mp hlighter
    refine ⟨k, rfl, hlt, ?_⟩
    simpa [List.getD_eq_getElem?_getD, hheavier, hlighter] using hratio
  · rintro ⟨k, rfl, hlt, hratio⟩
    refine ⟨sizes.getD k 0, sizes.getD (k + 1) 0, k, ?_, hratio, rfl⟩
    refine List.getElem?_zip_eq_some.mpr ⟨?_, ?_⟩
    · simp [List.getElem?_eq_getElem (show k < sizes.length by omega)]
    · simp [List.getElem?_tail, List.getElem?_eq_getElem hlt]

theorem splitPoints_sorted (ratio : ℚ) (sizes : List Nat) :
    (splitPoints ratio sizes).Pairwise (· < ·) := by
  have hindex : (sizes.zip sizes.tail).zipIdx.Pairwise (·.2 < ·.2) :=
    List.pairwise_map.mp (by simpa using List.pairwise_lt_range')
  refine hindex.filterMap _ fun a b hlt o ho o' ho' => ?_
  simp only [Option.ite_none_right_eq_some, Option.some.injEq] at ho ho'
  omega

theorem splitPoints_of_length_lt (h : sizes.length < 2) : splitPoints ratio sizes = [] := by
  refine List.eq_nil_iff_forall_not_mem.mpr fun o ho => ?_
  obtain ⟨k, -, hlt, -⟩ := mem_splitPoints.mp ho
  omega

def boundaries (ratio : ℚ) (sizes : List Nat) : List Nat :=
  0 :: (splitPoints ratio sizes ++ [sizes.length])

theorem boundaries_sorted (ratio : ℚ) (sizes : List Nat) :
    (boundaries ratio sizes).Pairwise (· ≤ ·) := by
  refine List.pairwise_cons.mpr ⟨fun _ _ => Nat.zero_le _, List.pairwise_append.mpr
    ⟨(splitPoints_sorted ratio sizes).imp Nat.le_of_lt, List.pairwise_singleton _ _, ?_⟩⟩
  intro o ho last hlast
  obtain rfl := List.mem_singleton.mp hlast
  obtain ⟨k, rfl, hlt, -⟩ := mem_splitPoints.mp ho
  exact hlt.le

/-- Two sizes of one piece are far apart just where a jump is missing between them. -/
theorem jumpsBetween_iff : JumpsBetween ratio sizes ↔
    ∀ cut ∈ Offsets.cuts (boundaries ratio sizes), ∀ j < sizes.length, j < cut.2 →
      ∀ i < j, cut.1 ≤ i → quotient (sizes.getD i 0) (sizes.getD j 0) < ratio := by
  constructor
  · intro h cut hcut j hj hstop i hi hstart
    by_contra hfar
    obtain ⟨k, hkj, hik, hk⟩ := h j hj i hi (not_lt.mp hfar)
    have hpoint : k + 1 ∈ boundaries ratio sizes :=
      List.mem_cons_of_mem _ (List.mem_append_left _ (mem_splitPoints.mpr ⟨k, rfl, by omega, hk⟩))
    obtain h | h := Offsets.le_or_le_of_mem_cuts (boundaries_sorted ratio sizes) hcut hpoint
    · omega
    · omega
  · intro h j hj i hi hfar
    obtain ⟨cut, hcut, hstart, hstop⟩ := Offsets.exists_cut (Nat.zero_le i)
      (List.mem_append_right (splitPoints ratio sizes) (List.mem_singleton_self sizes.length))
      (hi.trans hj)
    have hle : cut.2 ≤ j := by
      by_contra hlt
      exact absurd (h cut hcut j hj (by omega) i hi hstart) (not_lt.mpr hfar)
    -- The piece of the greater size ends before the lesser one.
    obtain hzero | hmem := List.mem_cons.mp (Offsets.mem_of_mem_cuts hcut).2
    · omega
    · obtain hpoint | hlast := List.mem_append.mp hmem
      · obtain ⟨k, hk, -, hjump⟩ := mem_splitPoints.mp hpoint
        exact ⟨k, by omega, by omega, hjump⟩
      · have := List.mem_singleton.mp hlast
        omega

-- ---------------------------------------------------------------------------
-- Groups
-- ---------------------------------------------------------------------------

theorem filterMap_get {columns : ChunkComponents}
    (hn : (columns.map (·.component)).Nodup) (h : kept ⊆ columns) :
    (kept.map (·.component)).filterMap columns.get = kept := by
  induction kept with
  | nil => rfl
  | cons column kept ih =>
    obtain ⟨hcolumn, hkept⟩ := List.cons_subset.mp h
    rw [List.map_cons, List.filterMap_cons_some
      ((ChunkComponents.get_eq_some_iff hn).mpr ⟨hcolumn, rfl⟩), ih hkept]

namespace ThickThin

variable (t : ThickThin) (columns : ChunkComponents)

theorem groups_concat (column : SerializedComponentColumn) :
    t.groups (columns ++ [column]) =
      Grouping.upsertEntry (t.group column) ⟨0, []⟩
        (fun group =>
          ⟨group.bytes + t.heapSizeBytes column, group.components ++ [column.component]⟩)
        (t.groups columns) := by
  simp [groups]

theorem nodup_keys_groups : ((t.groups columns).map Prod.fst).Nodup := by
  induction columns using List.reverseRecOn with
  | nil => exact .nil
  | append_singleton columns column ih =>
    rw [groups_concat]
    exact Grouping.nodup_keys_upsertEntry _ _ _ ih

theorem mem_keys_groups : g ∈ (t.groups columns).map Prod.fst ↔ g ∈ columns.map t.group := by
  induction columns using List.reverseRecOn with
  | nil => rfl
  | append_singleton columns column ih =>
    rw [groups_concat, Grouping.mem_keys_upsertEntry, ih, List.map_append, List.mem_append,
      or_comm, List.map_singleton, List.mem_singleton]

theorem getD_lookup_groups (g : ComponentGroup) :
    ((t.groups columns).lookup g).getD ⟨0, []⟩ =
      ⟨t.bytes columns g, (t.members columns g).map (·.component)⟩ := by
  induction columns using List.reverseRecOn with
  | nil => rfl
  | append_singleton columns column ih =>
    rw [groups_concat, Grouping.lookup_upsertEntry]
    by_cases h : g = t.group column
    · subst h
      simp [ih, bytes, members]
    · rw [if_neg h, ih]
      simp [bytes, members, Ne.symm h]

theorem eq_of_mem_groups (h : entry ∈ t.groups columns) : entry.2 =
    ⟨t.bytes columns entry.1, (t.members columns entry.1).map (·.component)⟩ := by
  rw [← getD_lookup_groups,
    (OrdMap.lookup_eq_some_iff_mem (t.nodup_keys_groups columns)).mpr h]
  rfl

-- ---------------------------------------------------------------------------
-- The order of the groups
-- ---------------------------------------------------------------------------

def keys : List ComponentGroup := (t.sorted columns).map Prod.fst

theorem sorted_perm : (t.sorted columns).Perm (t.groups columns) :=
  (List.perm_insertionSort _ _).trans (t.hashOrder.order_perm _)

theorem nodup_keys : (t.keys columns).Nodup :=
  ((t.sorted_perm columns).map Prod.fst).nodup_iff.mpr (t.nodup_keys_groups columns)

theorem mem_keys : g ∈ t.keys columns ↔ ∃ column ∈ columns, t.group column = g := by
  rw [keys, ((t.sorted_perm columns).map Prod.fst).mem_iff, mem_keys_groups, List.mem_map]

theorem sorted_eq : (t.sorted columns).map Prod.snd = (t.keys columns).map fun g =>
    ⟨t.bytes columns g, (t.members columns g).map (·.component)⟩ := by
  rw [keys, List.map_map]
  refine List.map_congr_left fun entry h => ?_
  exact t.eq_of_mem_groups columns ((t.sorted_perm columns).mem_iff.mp h)

theorem keys_sorted :
    (t.keys columns).Pairwise fun g g' => t.bytes columns g' ≤ t.bytes columns g := by
  have h : (t.sorted columns).Pairwise fun a b => b.2.bytes ≤ a.2.bytes :=
    List.pairwise_insertionSort _ _
  refine List.pairwise_map.mpr (h.imp_of_mem fun {a b} ha hb hle => ?_)
  rw [t.eq_of_mem_groups columns ((t.sorted_perm columns).mem_iff.mp ha),
    t.eq_of_mem_groups columns ((t.sorted_perm columns).mem_iff.mp hb)] at hle
  exact hle

/-- The order among groups of one size is of no account. -/
theorem sizes_eq : (t.keys columns).map (t.bytes columns) = t.sizes columns := by
  have hkeys : (t.keys columns).Perm (columns.map t.group).dedup := by
    refine (List.perm_ext_iff_of_nodup (t.nodup_keys columns) (List.nodup_dedup _)).mpr fun g => ?_
    rw [mem_keys, List.mem_dedup, List.mem_map]
  have hsorted : ((t.keys columns).map (t.bytes columns)).Pairwise (· ≥ ·) :=
    List.pairwise_map.mpr (t.keys_sorted columns)
  exact List.Perm.eq_of_pairwise' hsorted (List.pairwise_insertionSort _ _)
    ((hkeys.map _).trans (List.perm_insertionSort _ _).symm)

-- ---------------------------------------------------------------------------
-- The pieces
-- ---------------------------------------------------------------------------

variable {t} {columns}

/-- A piece holds the groups of a cut, and every row. -/
structure IsPiece (t : ThickThin) (chunk piece : Chunk) (cut : Nat × Nat) : Prop where
  columns : piece.components.Perm
    ((Offsets.slice (t.keys chunk.components) cut.1 cut.2).flatMap (t.members chunk.components))
  entityPath : piece.entityPath = chunk.entityPath
  rowIds : piece.rowIds = chunk.rowIds
  timelines : piece.timelines = chunk.timelines

theorem IsPiece.mem (h : IsPiece t chunk piece cut) : column ∈ piece.components ↔
    column ∈ chunk.components ∧
      t.group column ∈ Offsets.slice (t.keys chunk.components) cut.1 cut.2 := by
  rw [h.columns.mem_iff, List.mem_flatMap]
  simp [members, and_comm]

theorem flatMap_members_perm (t : ThickThin) (columns : ChunkComponents) :
    ((t.keys columns).flatMap (t.members columns)).Perm columns := by
  have h := Grouping.flatMap_filter_perm t.group columns (t.nodup_keys columns)
  have hall : columns.filter (fun column => t.group column ∈ t.keys columns) = columns :=
    List.filter_eq_self.mpr fun column hc =>
      decide_eq_true ((t.mem_keys columns).mpr ⟨column, hc, rfl⟩)
  rwa [hall] at h

theorem isPiece_componentsSliced (hn : (chunk.components.map (·.component)).Nodup)
    (cut : Nat × Nat) (id : ChunkId) :
    IsPiece t chunk (chunk.componentsSliced id
      ((Offsets.slice ((t.sorted chunk.components).map Prod.snd) cut.1 cut.2).flatMap
        (·.components))) cut := by
  refine ⟨.of_eq ?_, rfl, rfl, rfl⟩
  rw [t.sorted_eq, Offsets.slice_map, List.flatMap_map, ← List.map_flatMap]
  refine filterMap_get hn fun column h => ?_
  obtain ⟨g, -, hg⟩ := List.mem_flatMap.mp h
  exact List.mem_of_mem_filter hg

theorem isPiece_whole (t : ThickThin) (chunk : Chunk) :
    IsPiece t chunk chunk (0, (t.keys chunk.components).length) := by
  refine ⟨?_, rfl, rfl, rfl⟩
  rw [Offsets.slice, List.drop_zero, Nat.sub_zero, List.take_length]
  exact (flatMap_members_perm t _).symm

theorem length_groups_le (columns : ChunkComponents) :
    (t.groups columns).length ≤ columns.length := by
  have h : ((t.groups columns).map Prod.fst).Subperm (columns.map t.group) :=
    List.subperm_of_subset (t.nodup_keys_groups columns) fun g => (t.mem_keys_groups columns).mp
  simpa using h.length_le

theorem forall₂_zipIdx {R : Chunk → Nat × Nat → Prop} {f : (Nat × Nat) × Nat → Chunk}
    (h : ∀ cut n, R (f (cut, n)) cut) (cuts : List (Nat × Nat)) (k : Nat) :
    List.Forall₂ R ((cuts.zipIdx k).map f) cuts := by
  induction cuts generalizing k with
  | nil => exact .nil
  | cons cut cuts ih => exact .cons (h cut k) (ih (k + 1))

theorem length_sizes (columns : ChunkComponents) :
    (t.sizes columns).length = (t.keys columns).length := by
  rw [← sizes_eq, List.length_map]

theorem length_keys (columns : ChunkComponents) :
    (t.keys columns).length = (t.groups columns).length := by
  rw [keys, List.length_map, (t.sorted_perm columns).length_eq]

theorem pieces_splitChunk (hn : (chunk.components.map (·.component)).Nodup) (ratio : ℚ) :
    List.Forall₂ (IsPiece t chunk) ((t.splitChunk chunk ratio).getD [chunk])
      (Offsets.cuts (boundaries ratio (t.sizes chunk.components))) := by
  have hwhole (h : splitPoints ratio (t.sizes chunk.components) = []) :
      List.Forall₂ (IsPiece t chunk) [chunk]
        (Offsets.cuts (boundaries ratio (t.sizes chunk.components))) := by
    rw [boundaries, h, length_sizes]
    exact .cons (isPiece_whole t chunk) .nil
  have hfew (h : (t.groups chunk.components).length < 2) :
      splitPoints ratio (t.sizes chunk.components) = [] :=
    splitPoints_of_length_lt (by rwa [length_sizes, length_keys])
  have hsizes : ((t.sorted chunk.components).map Prod.snd).map (·.bytes) =
      t.sizes chunk.components := by
    rw [sorted_eq, List.map_map, ← sizes_eq]
    rfl
  have hlength : ((t.sorted chunk.components).map Prod.snd).length =
      (t.sizes chunk.components).length := by
    rw [← hsizes, List.length_map, List.length_map, List.length_map]
  rw [splitChunk]
  split
  case isTrue h => exact hwhole (hfew ((length_groups_le _).trans_lt h))
  case isFalse =>
    split
    case isTrue h => exact hwhole (hfew h)
    case isFalse =>
      dsimp only
      rw [hsizes, hlength]
      split
      case isTrue h => exact hwhole (List.isEmpty_iff.mp h)
      case isFalse => exact forall₂_zipIdx (fun cut n => isPiece_componentsSliced hn cut _) _ _

-- ---------------------------------------------------------------------------
-- The bound
-- ---------------------------------------------------------------------------

theorem exists_cut_of_mem {cuts : List (Nat × Nat)}
    (h : List.Forall₂ (IsPiece t chunk) pieces cuts) (hp : piece ∈ pieces) :
    ∃ cut ∈ cuts, IsPiece t chunk piece cut := by
  induction h with
  | nil => cases hp
  | cons hpiece _ ih =>
    obtain rfl | hp := List.mem_cons.mp hp
    · exact ⟨_, List.mem_cons_self, hpiece⟩
    · obtain ⟨cut, hcut, h⟩ := ih hp
      exact ⟨cut, List.mem_cons_of_mem _ hcut, h⟩

theorem exists_piece_of_mem {cuts : List (Nat × Nat)}
    (h : List.Forall₂ (IsPiece t chunk) pieces cuts) (hc : cut ∈ cuts) :
    ∃ piece ∈ pieces, IsPiece t chunk piece cut := by
  induction h with
  | nil => cases hc
  | cons hpiece _ ih =>
    obtain rfl | hc := List.mem_cons.mp hc
    · exact ⟨_, List.mem_cons_self, hpiece⟩
    · obtain ⟨piece, hp, h⟩ := ih hc
      exact ⟨piece, List.mem_cons_of_mem _ hp, h⟩

theorem flatMap_components_perm {cuts : List (Nat × Nat)}
    (h : List.Forall₂ (IsPiece t chunk) pieces cuts) :
    (pieces.flatMap (·.components)).Perm
      ((cuts.flatMap fun cut => Offsets.slice (t.keys chunk.components) cut.1 cut.2).flatMap
        (t.members chunk.components)) := by
  induction h with
  | nil => exact .nil
  | cons hpiece _ ih =>
    rw [List.flatMap_cons, List.flatMap_cons, List.flatMap_append]
    exact hpiece.columns.append ih

theorem getD_sizes (h : (t.keys columns)[i]? = some g) :
    (t.sizes columns).getD i 0 = t.bytes columns g := by
  rw [← sizes_eq, List.getD_eq_getElem?_getD, List.getElem?_map, h]
  rfl

theorem factor_of_lt (hij : i < j) (hi : (t.keys columns)[i]? = some g)
    (hj : (t.keys columns)[j]? = some g') : t.factor columns g g' =
      quotient ((t.sizes columns).getD i 0) ((t.sizes columns).getD j 0) := by
  obtain ⟨hilt, rfl⟩ := List.getElem?_eq_some_iff.mp hi
  obtain ⟨hjlt, rfl⟩ := List.getElem?_eq_some_iff.mp hj
  have hle := List.pairwise_iff_getElem.mp (t.keys_sorted columns) i j hilt hjlt hij
  rw [factor, max_eq_left hle, min_eq_right hle, getD_sizes hi, getD_sizes hj]

theorem factor_comm (g g' : ComponentGroup) : t.factor columns g g' = t.factor columns g' g := by
  rw [factor, factor, max_comm, min_comm]

theorem IsPiece.bound_iff (h : IsPiece t chunk piece cut) :
    (∀ a ∈ piece.components, ∀ b ∈ piece.components, t.group a ≠ t.group b →
      t.factor chunk.components (t.group a) (t.group b) < ratio) ↔
    ∀ j < (t.sizes chunk.components).length, j < cut.2 → ∀ i < j, cut.1 ≤ i →
      quotient ((t.sizes chunk.components).getD i 0) ((t.sizes chunk.components).getD j 0) <
        ratio := by
  constructor
  · intro hb j hj hstop i hij hstart
    rw [length_sizes] at hj
    have hi : i < (t.keys chunk.components).length := hij.trans hj
    have hgj := List.getElem?_eq_getElem hj
    have hgi := List.getElem?_eq_getElem hi
    obtain ⟨a, ha, hag⟩ := (t.mem_keys chunk.components).mp (List.getElem_mem hi)
    obtain ⟨b, hb', hbg⟩ := (t.mem_keys chunk.components).mp (List.getElem_mem hj)
    have hne : t.group a ≠ t.group b := by
      rw [hag, hbg]
      exact fun he => hij.ne ((t.nodup_keys chunk.components).getElem_inj_iff.mp he)
    rw [← factor_of_lt hij hgi hgj, ← hag, ← hbg]
    exact hb a (h.mem.mpr ⟨ha, hag ▸ Offsets.mem_slice.mpr ⟨i, hstart, by omega, hgi⟩⟩)
      b (h.mem.mpr ⟨hb', hbg ▸ Offsets.mem_slice.mpr ⟨j, by omega, hstop, hgj⟩⟩) hne
  · intro hs a ha b hb hne
    obtain ⟨i, hi, hi', hgi⟩ := Offsets.mem_slice.mp (h.mem.mp ha).2
    obtain ⟨j, hj, hj', hgj⟩ := Offsets.mem_slice.mp (h.mem.mp hb).2
    have hilt := (List.getElem?_eq_some_iff.mp hgi).1
    have hjlt := (List.getElem?_eq_some_iff.mp hgj).1
    rw [← length_sizes] at hilt hjlt
    obtain hlt | rfl | hlt := Nat.lt_trichotomy i j
    · rw [factor_of_lt hlt hgi hgj]
      exact hs j hjlt hj' i hlt hi
    · exact absurd (Option.some.inj (hgi.symm.trans hgj)) hne
    · rw [factor_comm, factor_of_lt hlt hgj hgi]
      exact hs i hilt hi' j hlt hj

/-- The pieces keep the promise if no two groups drift apart by small steps. -/
theorem splitsWithin_splitChunk_iff (t : ThickThin)
    (hn : (chunk.components.map (·.component)).Nodup) (ratio : ℚ) :
    t.SplitsWithin ratio chunk ((t.splitChunk chunk ratio).getD [chunk]) ↔
      JumpsBetween ratio (t.sizes chunk.components) := by
  have hpieces := pieces_splitChunk (t := t) hn ratio
  rw [jumpsBetween_iff]
  constructor
  · intro h cut hcut
    obtain ⟨piece, hp, hpiece⟩ := exists_piece_of_mem hpieces hcut
    exact hpiece.bound_iff.mp (h.bound piece hp)
  · intro h
    refine ⟨?_, fun piece hp => ?_, fun piece hp a ha b hb hg => ?_, fun piece hp => ?_⟩
    · refine (flatMap_components_perm hpieces).trans ?_
      rw [boundaries, Offsets.flatMap_slices _ (boundaries_sorted ratio _), List.getLastD_concat,
        length_sizes, Offsets.slice, List.drop_zero, Nat.sub_zero, List.take_length]
      exact flatMap_members_perm t _
    · obtain ⟨cut, -, hpiece⟩ := exists_cut_of_mem hpieces hp
      exact ⟨hpiece.entityPath, hpiece.rowIds, hpiece.timelines⟩
    · obtain ⟨cut, -, hpiece⟩ := exists_cut_of_mem hpieces hp
      exact hpiece.mem.mpr ⟨hb, hg ▸ (hpiece.mem.mp ha).2⟩
    · obtain ⟨cut, hcut, hpiece⟩ := exists_cut_of_mem hpieces hp
      exact hpiece.bound_iff.mpr (h cut hcut)

def steps : Chunk where
  id := 0
  entityPath := []
  isSorted := true
  rowIds := [0]
  timelines := []
  components := [⟨"a", "", [some [.bytes [8]]]⟩, ⟨"b", "", [some [.bytes [4]]]⟩,
    ⟨"c", "", [some [.bytes [2]]]⟩]

def bytesOf (cell : Option Cell) : Nat :=
  match cell with
  | some [.bytes bytes] => bytes.sum
  | _ => 0

def bare : ThickThin where
  archetype _ := none
  heapSizeBytes column := (column.listArray.map bytesOf).sum
  hashOrder := ⟨fun l => l, fun l => .refl l⟩
  newId n := n

/-- The greatest is four times the least, yet no two neighbors are three times apart. -/
theorem steps_not_within :
    ¬ bare.SplitsWithin 3 steps ((bare.splitChunk steps 3).getD [steps]) := by
  have hwhole : (bare.splitChunk steps 3).getD [steps] = [steps] := by decide +kernel
  intro h
  rw [hwhole] at h
  have hbound := h.bound steps List.mem_cons_self ⟨"a", "", [some [.bytes [8]]]⟩ (by decide)
    ⟨"c", "", [some [.bytes [2]]]⟩ (by decide) (by decide)
  revert hbound
  decide +kernel

theorem splitsWithin_steps_two :
    bare.SplitsWithin 2 steps ((bare.splitChunk steps 2).getD [steps]) :=
  (splitsWithin_splitChunk_iff bare (by decide) 2).mpr (by decide +kernel)

end ThickThin

end DimosViewer
