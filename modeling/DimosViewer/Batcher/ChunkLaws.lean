import DimosViewer.Batcher.RowsLaws

/-!
# What the built chunks hold

A chunk that is built from rows which agree on the types of their timelines and on the datatypes
of their components holds every one of them as it was logged.
-/

namespace DimosViewer

open Grouping

-- ---------------------------------------------------------------------------
-- Logged rows
-- ---------------------------------------------------------------------------

@[ext] structure LoggedRow where
  entityPath : EntityPath
  rowId : RowId
  time : TimelineName → Option (Timeline × TimeInt)
  cell : ComponentIdentifier → Option ArrayRef

def PendingRow.logged (entityPath : EntityPath) (row : PendingRow) : LoggedRow where
  entityPath
  rowId := row.rowId
  time name := (row.timepoint.get name).map fun cell => (⟨name, cell.typ⟩, cell.value)
  cell := row.get

def Chunk.loggedRow (c : Chunk) (rowId : RowId) (i : Nat) : LoggedRow where
  entityPath := c.entityPath
  rowId
  time name := (c.timeline? name).bind fun tc => (tc.times[i]?).map (tc.timeline, ·)
  cell component := (c.components.get component).bind fun column =>
    (column.listArray.getD i none).map (⟨column.dataType, ·⟩)

def Chunk.loggedRows (c : Chunk) : List LoggedRow :=
  c.rowIds.zipIdx.map fun (rowId, i) => c.loggedRow rowId i

namespace PendingRow

structure Agree (rows : List PendingRow) : Prop where
  timelines : ∀ row ∈ rows, ∀ row' ∈ rows, row.components ≠ [] →
    ∀ entry ∈ row.timepoint.cells, ∀ entry' ∈ row'.timepoint.cells, entry.1 = entry'.1 →
      entry.2.typ = entry'.2.typ
  components : ∀ row ∈ rows, ∀ row' ∈ rows, ∀ batch ∈ row.components, ∀ batch' ∈ row'.components,
    batch.component = batch'.component → batch.array.dataType = batch'.array.dataType

instance (rows : List PendingRow) : Decidable (Agree rows) :=
  decidable_of_iff ((∀ row ∈ rows, ∀ row' ∈ rows, row.components ≠ [] →
      ∀ entry ∈ row.timepoint.cells, ∀ entry' ∈ row'.timepoint.cells, entry.1 = entry'.1 →
        entry.2.typ = entry'.2.typ) ∧
    ∀ row ∈ rows, ∀ row' ∈ rows, ∀ batch ∈ row.components, ∀ batch' ∈ row'.components,
      batch.component = batch'.component → batch.array.dataType = batch'.array.dataType)
    ⟨fun ⟨h1, h2⟩ => ⟨h1, h2⟩, fun ⟨h1, h2⟩ => ⟨h1, h2⟩⟩

-- ---------------------------------------------------------------------------
-- Columns of rows
-- ---------------------------------------------------------------------------

theorem map_some_timesAt {rows : List PendingRow} (h : ∀ row ∈ rows, name ∈ row.timelineNames) :
    (timesAt rows name).map some = rows.map fun row => (row.timepoint.get name).map (·.value) := by
  induction rows with
  | nil => rfl
  | cons row rows ih =>
    obtain ⟨cell, hcell⟩ := Option.isSome_iff_exists.mp
      (get_isSome_iff.mpr (h row List.mem_cons_self))
    have ih := ih fun r hr => h r (List.mem_cons_of_mem _ hr)
    rw [timesAt] at ih
    rw [timesAt, List.filterMap_cons]
    simp [hcell, ih]

theorem length_timesAt {rows : List PendingRow} (h : ∀ row ∈ rows, name ∈ row.timelineNames) :
    (timesAt rows name).length = rows.length := by
  simpa using congrArg List.length (map_some_timesAt h)

theorem getElem?_timesAt {rows : List PendingRow} {row : PendingRow} {i : Nat}
    (h : ∀ row ∈ rows, name ∈ row.timelineNames)
    (hrow : rows[i]? = some row) :
    (timesAt rows name)[i]? = (row.timepoint.get name).map (·.value) := by
  have hget := congrArg (·[i]?) (map_some_timesAt h)
  simp only [List.getElem?_map, hrow, Option.map_some] at hget
  cases htime : (timesAt rows name)[i]? with
  | none => simp [htime] at hget
  | some time => simpa [htime] using hget

end PendingRow

theorem arraysToListArrayOpt_of_agree {arrays : List (Option ArrayRef)}
    (h : ∀ a a', some a ∈ arrays → some a' ∈ arrays → a.dataType = a'.dataType)
    (ha : some a ∈ arrays) :
    arraysToListArrayOpt arrays = some (a.dataType, arrays.map (·.map (·.values))) := by
  have hmem : ∀ a', a' ∈ arrays.filterMap id ↔ some a' ∈ arrays := by simp
  unfold arraysToListArrayOpt
  split
  case h_1 hnil =>
    rw [hnil] at hmem
    exact absurd ((hmem a).mpr ha) List.not_mem_nil
  case h_2 first rest hcons =>
    rw [hcons] at hmem
    have hfirst := (hmem first).mp List.mem_cons_self
    have hall : rest.all (·.dataType = first.dataType) = true := by
      simp only [List.all_eq_true, decide_eq_true_eq]
      exact fun a' ha' => h a' first ((hmem a').mp (List.mem_cons_of_mem _ ha')) hfirst
    rw [if_pos hall, h first a hfirst ha]

theorem arraysToListArrayOpt_eq_some {arrays : List (Option ArrayRef)}
    (h : arraysToListArrayOpt arrays = some (dataType, listArray)) :
    listArray = arrays.map (·.map (·.values)) ∧ ∃ a, some a ∈ arrays := by
  have hmem : ∀ a', a' ∈ arrays.filterMap id ↔ some a' ∈ arrays := by simp
  unfold arraysToListArrayOpt at h
  split at h
  case h_1 => cases h
  case h_2 first rest hcons =>
    split at h
    case isFalse => cases h
    case isTrue =>
      cases h
      exact ⟨rfl, first, (hmem first).mp (hcons ▸ List.mem_cons_self)⟩

-- ---------------------------------------------------------------------------
-- The components of a batch
-- ---------------------------------------------------------------------------

namespace PendingRow

theorem mem_orInserts {batches : List SerializedComponentBatch}
    {l : List (ComponentIdentifier × Unit)} :
    component ∈ (batches.foldl (fun all batch => orInsert batch.component () all) l).map Prod.fst ↔
      component ∈ l.map Prod.fst ∨ component ∈ batches.map (·.component) := by
  induction batches generalizing l with
  | nil => simp
  | cons batch batches ih =>
    rw [List.foldl_cons, ih, orInsert, mem_keys_upsertEntry, List.map_cons, List.mem_cons]
    tauto

theorem nodup_orInserts (batches : List SerializedComponentBatch)
    {l : List (ComponentIdentifier × Unit)} (h : (l.map Prod.fst).Nodup) :
    ((batches.foldl (fun all batch => orInsert batch.component () all) l).map Prod.fst).Nodup := by
  induction batches generalizing l with
  | nil => exact h
  | cons batch batches ih => exact ih (nodup_keys_upsertEntry _ _ _ h)

theorem mem_allComponents {rows : List PendingRow} :
    component ∈ allComponents rows ↔ ∃ row ∈ rows, component ∈ row.components.map (·.component) := by
  have hfold : ∀ l : List (ComponentIdentifier × Unit),
      component ∈ (rows.foldl (fun all row => row.components.foldl (fun all batch =>
        orInsert batch.component () all) all) l).map Prod.fst ↔
      component ∈ l.map Prod.fst ∨ ∃ row ∈ rows, component ∈ row.components.map (·.component) := by
    induction rows with
    | nil => simp
    | cons row rows ih =>
      intro l
      rw [List.foldl_cons, ih, mem_orInserts, List.exists_mem_cons_iff, or_assoc]
  rw [allComponents, hfold]
  simp

theorem nodup_allComponents (rows : List PendingRow) : (allComponents rows).Nodup := by
  have hfold : ∀ l : List (ComponentIdentifier × Unit), (l.map Prod.fst).Nodup →
      ((rows.foldl (fun all row => row.components.foldl (fun all batch =>
        orInsert batch.component () all) all) l).map Prod.fst).Nodup := by
    induction rows with
    | nil => exact fun l h => h
    | cons row rows ih => exact fun l h => ih _ (nodup_orInserts row.components h)
  exact hfold [] .nil

end PendingRow

-- ---------------------------------------------------------------------------
-- Built chunks
-- ---------------------------------------------------------------------------

namespace PendingChunks

open PendingRow

variable {all : List ComponentIdentifier} {p : PendingChunk} {piece : List PendingRow}

/-- A chunk of a piece. Its timelines are of the types of the first row. -/
structure Built (all : List ComponentIdentifier) (piece : List PendingRow)
    (entityPath : EntityPath) (c : Chunk) : Prop where
  entityPath : c.entityPath = entityPath
  isSorted : c.isSorted = true
  rowIds : c.rowIds = piece.map (·.rowId)
  nodup : (c.timelines.map Prod.fst).Nodup
  timeline : ∃ first, piece.head? = some first ∧ ∀ name,
    c.timeline? name = (first.timepoint.get name).map fun cell =>
      (PendingTimeColumn.ofTimes ⟨name, cell.typ⟩ (timesAt piece name)).finish
  components_nodup : (c.components.map (·.component)).Nodup
  mem_components : ∀ column, column ∈ c.components ↔ column.component ∈ all ∧
    arraysToListArrayOpt (piece.map (·.get column.component)) =
      some (column.dataType, column.listArray)

theorem MadeOf.mem_columns (h : MadeOf all p piece) (column : SerializedComponentColumn) :
    column ∈ p.components.filterMap (fun (component, arrays) =>
        (arraysToListArrayOpt arrays).map fun (dataType, listArray) =>
          (⟨component, dataType, listArray⟩ : SerializedComponentColumn)) ↔
      column.component ∈ all ∧ arraysToListArrayOpt (piece.map (·.get column.component)) =
        some (column.dataType, column.listArray) := by
  obtain ⟨_, _, hheld⟩ := h
  rw [hheld.components]
  simp only [List.mem_filterMap, List.mem_map, Option.map_eq_some_iff, Prod.exists]
  constructor
  · rintro ⟨_, _, ⟨component, hcomponent, ⟨⟩⟩, dataType, listArray, harrays, rfl⟩
    exact ⟨hcomponent, harrays⟩
  · rintro ⟨hcomponent, harrays⟩
    exact ⟨_, _, ⟨_, hcomponent, rfl⟩, _, _, harrays, rfl⟩

theorem MadeOf.columns_length (h : MadeOf all p piece) :
    (p.components.filterMap fun (component, arrays) =>
      (arraysToListArrayOpt arrays).map fun (dataType, listArray) =>
        (⟨component, dataType, listArray⟩ : SerializedComponentColumn)).all
      (·.listArray.length = p.rowIds.length) = true := by
  simp only [List.all_eq_true, decide_eq_true_eq]
  intro column hmem
  obtain ⟨_, harrays⟩ := (h.mem_columns column).mp hmem
  obtain ⟨_, _, hheld⟩ := h
  rw [(arraysToListArrayOpt_eq_some harrays).1, hheld.rowIds]
  simp

theorem MadeOf.times_length (h : MadeOf all p piece)
    (hnames : ∀ row ∈ piece, row.timelineNames = names) :
    (p.timelines.map fun (name, timeColumn) => (name, timeColumn.finish)).all
      (·.2.times.length = p.rowIds.length) = true := by
  obtain ⟨first, hhead, hheld⟩ := h
  have hfirst : first.timelineNames = names := hnames first (List.mem_of_mem_head? hhead)
  simp only [List.all_map, List.all_eq_true, Function.comp_apply, decide_eq_true_eq]
  rintro ⟨name, tc⟩ htc
  obtain ⟨cell, hcell, rfl⟩ := hheld.timeline name tc
    ((OrdMap.lookup_eq_some_iff_mem hheld.nodup).mpr htc)
  have hin : ∀ row ∈ piece, name ∈ row.timelineNames := by
    intro row hrow
    rw [hnames row hrow, ← hfirst]
    exact get_isSome_iff.mp (hcell ▸ rfl)
  rw [hheld.rowIds, PendingTimeColumn.finish, PendingTimeColumn.times_ofTimes,
    length_timesAt hin, List.length_map]

theorem MadeOf.build (h : MadeOf all p piece) (hall : all.Nodup)
    (hnames : ∀ row ∈ piece, row.timelineNames = names) (id : ChunkId) (entityPath : EntityPath) :
    ∃ c, p.build id entityPath = .ok c ∧ Built all piece entityPath c := by
  have hlengths := And.intro (h.times_length hnames) h.columns_length
  have hcolumn := h.mem_columns
  obtain ⟨first, hhead, hheld⟩ := h
  have hpiece : piece ≠ [] := fun h => by simp [h] at hhead
  refine ⟨_, if_pos hlengths, rfl, rfl, hheld.rowIds, ?_, ⟨first, hhead, ?_⟩, ?_, hcolumn⟩
  · simpa [Function.comp_def] using hheld.nodup
  · intro name
    rw [Chunk.timeline?, OrdMap.lookup_map_snd _ fun _ tc => PendingTimeColumn.finish tc]
    cases hlookup : p.timelines.lookup name with
    | some tc =>
      obtain ⟨cell, hcell, rfl⟩ := hheld.timeline name tc hlookup
      rw [hcell]
      rfl
    | none =>
      cases hcell : first.timepoint.get name with
      | none => rfl
      | some cell =>
        have hname : name ∈ first.timelineNames := get_isSome_iff.mp (hcell ▸ rfl)
        exact absurd (hheld.complete hpiece name hname)
          (OrdMap.lookup_eq_none_iff_not_mem.mp hlookup)
  · refine List.Nodup.sublist (map_filterMap_sublist _ _ Prod.fst ?_ _) ?_
    · rintro ⟨component, arrays⟩ column hc
      obtain ⟨pair, -, rfl⟩ := Option.map_eq_some_iff.mp hc
      rfl
    · simpa [hheld.components, Function.comp_def] using hall

section Built

variable {entityPath : EntityPath} {row : PendingRow} {i : Nat} {c : Chunk}
  (h : Built all piece entityPath c)
include h

theorem Built.column (hagree : Agree piece)
    (hall : ∀ row ∈ piece, ∀ batch ∈ row.components, batch.component ∈ all)
    (hrow : row ∈ piece) (hget : row.get component = some array) :
    ⟨component, array.dataType, piece.map fun row => (row.get component).map (·.values)⟩ ∈
      c.components := by
  have hmem : some array ∈ piece.map (·.get component) := List.mem_map.mpr ⟨row, hrow, hget⟩
  have harrays : ∀ a a', some a ∈ piece.map (·.get component) →
      some a' ∈ piece.map (·.get component) → a.dataType = a'.dataType := by
    intro a a' ha ha'
    obtain ⟨r, hr, hra⟩ := List.mem_map.mp ha
    obtain ⟨r', hr', hra'⟩ := List.mem_map.mp ha'
    exact hagree.components r hr r' hr' _ (get_eq_some_iff.mp hra) _ (get_eq_some_iff.mp hra') rfl
  refine (h.mem_components _).mpr ⟨hall row hrow _ (get_eq_some_iff.mp hget), ?_⟩
  rw [arraysToListArrayOpt_of_agree harrays hmem, List.map_map]
  rfl

theorem Built.components_eq_nil_iff (hagree : Agree piece)
    (hall : ∀ row ∈ piece, ∀ batch ∈ row.components, batch.component ∈ all) :
    c.components = [] ↔ ∀ row ∈ piece, row.components = [] := by
  rw [List.eq_nil_iff_forall_not_mem]
  constructor
  · intro hnil row hrow
    rw [List.eq_nil_iff_forall_not_mem]
    intro batch hbatch
    exact hnil _ (h.column hagree hall hrow (get_eq_some_iff.mpr hbatch))
  · intro hnil column hcolumn
    obtain ⟨-, a, ha⟩ := arraysToListArrayOpt_eq_some ((h.mem_components column).mp hcolumn).2
    obtain ⟨row, hrow, hget⟩ := List.mem_map.mp ha
    have hbatch := get_eq_some_iff.mp hget
    rw [hnil row hrow] at hbatch
    exact List.not_mem_nil hbatch

theorem Built.time_eq (hagree : Agree piece) (hnames : ∀ row ∈ piece, row.timelineNames = names)
    (hdata : row.components ≠ []) (hrow : piece[i]? = some row) (name : TimelineName) :
    ((c.timeline? name).bind fun tc => (tc.times[i]?).map (tc.timeline, ·)) =
      (row.timepoint.get name).map fun cell => (⟨name, cell.typ⟩, cell.value) := by
  obtain ⟨first, hhead, htimeline⟩ := h.timeline
  have hfirst : first ∈ piece := List.mem_of_mem_head? hhead
  have hmem : row ∈ piece := List.mem_of_getElem? hrow
  have hsame : first.timelineNames = row.timelineNames :=
    (hnames first hfirst).trans (hnames row hmem).symm
  rw [htimeline]
  cases hcell : row.timepoint.get name with
  | none =>
    have hnone : first.timepoint.get name = none := by
      rw [← Option.not_isSome_iff_eq_none, get_isSome_iff, hsame, ← get_isSome_iff, hcell]
      exact Bool.false_ne_true
    rw [hnone]
    rfl
  | some cell =>
    have hin : name ∈ row.timelineNames := get_isSome_iff.mp (hcell ▸ rfl)
    have hall : ∀ r ∈ piece, name ∈ r.timelineNames := fun r hr =>
      ((hnames r hr).trans (hnames row hmem).symm) ▸ hin
    obtain ⟨cell', hcell'⟩ := Option.isSome_iff_exists.mp (get_isSome_iff.mpr (hall first hfirst))
    have htyp := hagree.timelines row hmem first hfirst hdata (name, cell) (mem_of_lookup hcell)
      (name, cell') (mem_of_lookup hcell') rfl
    have htime := getElem?_timesAt hall hrow
    rw [hcell] at htime
    simp [hcell', PendingTimeColumn.finish, htime, show cell.typ = cell'.typ from htyp]

theorem Built.cell_eq (hagree : Agree piece)
    (hall : ∀ row ∈ piece, ∀ batch ∈ row.components, batch.component ∈ all)
    (hrow : piece[i]? = some row) (component : ComponentIdentifier) :
    ((c.components.get component).bind fun column =>
      (column.listArray.getD i none).map (⟨column.dataType, ·⟩)) = row.get component := by
  cases hget : row.get component with
  | some array =>
    have hcolumn := (ChunkComponents.get_eq_some_iff h.components_nodup).mpr
      ⟨h.column hagree hall (List.mem_of_getElem? hrow) hget, rfl⟩
    simp [hcolumn, List.getD_eq_getElem?_getD, hrow, hget]
  | none =>
    cases hcolumn : c.components.get component with
    | none => rfl
    | some column =>
      obtain ⟨hmem, rfl⟩ := (ChunkComponents.get_eq_some_iff h.components_nodup).mp hcolumn
      have harray := (arraysToListArrayOpt_eq_some ((h.mem_components column).mp hmem).2).1
      simp [harray, List.getD_eq_getElem?_getD, hrow, hget]

theorem Built.loggedRows (hagree : Agree piece)
    (hnames : ∀ row ∈ piece, row.timelineNames = names)
    (hdata : ∀ row ∈ piece, row.components ≠ [])
    (hall : ∀ row ∈ piece, ∀ batch ∈ row.components, batch.component ∈ all) :
    c.loggedRows = piece.map (·.logged entityPath) := by
  refine List.ext_getElem? fun i => ?_
  rw [Chunk.loggedRows, h.rowIds, List.getElem?_map, List.getElem?_zipIdx, List.getElem?_map,
    List.getElem?_map]
  cases hrow : piece[i]? with
  | none => rfl
  | some row =>
    have hmem : row ∈ piece := List.mem_of_getElem? hrow
    simp only [Option.map_some, Option.some.injEq, Nat.zero_add]
    refine LoggedRow.ext h.entityPath rfl (funext fun name => ?_) (funext fun component => ?_)
    · exact h.time_eq hagree hnames (hdata row hmem) hrow name
    · exact h.cell_eq hagree hall hrow component

end Built

end PendingChunks

-- ---------------------------------------------------------------------------
-- All chunks of some rows
-- ---------------------------------------------------------------------------

def Chunk.sendable : Except ChunkError Chunk → Option Chunk
  | .error _ => none
  | .ok chunk => if chunk.components = [] then none else some chunk

namespace PendingRow

def loggedRows (entityPath : EntityPath) (rows : List PendingRow) : List LoggedRow :=
  (rows.filter (·.components ≠ [])).map (·.logged entityPath)

@[simp] theorem loggedRows_nil (entityPath : EntityPath) : loggedRows entityPath [] = [] := rfl

@[simp] theorem loggedRows_append (entityPath : EntityPath) (rows rows' : List PendingRow) :
    loggedRows entityPath (rows ++ rows') =
      loggedRows entityPath rows ++ loggedRows entityPath rows' := by
  simp [loggedRows]

structure IsBatch (rows : List PendingRow) : Prop where
  ne_nil : rows ≠ []
  timelineNames : ∃ names, ∀ row ∈ rows, row.timelineNames = names
  dataTypes : ∃ types, ∀ row ∈ rows, row.dataTypes = types

theorem isBatch_of_mem_batches {rows : List PendingRow} (h : batch ∈ batches rows) :
    IsBatch batch := by
  obtain ⟨set, hset, hbatch⟩ := List.mem_flatMap.mp h
  obtain ⟨⟨names, _⟩, hnames, rfl⟩ := List.mem_map.mp hset
  obtain ⟨⟨types, _⟩, htypes, rfl⟩ := List.mem_map.mp hbatch
  refine ⟨ne_nil_of_mem_groupInto htypes, ⟨names, fun row hrow => ?_⟩, ⟨types, fun row hrow => ?_⟩⟩
  · rw [group_eq_filter htypes] at hrow
    have hrow := List.mem_of_mem_filter hrow
    rw [group_eq_filter hnames] at hrow
    exact of_decide_eq_true (List.mem_filter.mp hrow).2
  · rw [group_eq_filter htypes] at hrow
    exact of_decide_eq_true (List.mem_filter.mp hrow).2

theorem flatten_batches_perm (rows : List PendingRow) : (batches rows).flatten.Perm rows := by
  have hinner (sets : List (List PendingRow)) :
      (sets.flatMap fun rows => (groupInto dataTypes rows).map Prod.snd).flatten.Perm
        sets.flatten := by
    induction sets with
    | nil => exact .nil
    | cons set sets ih =>
      rw [List.flatMap_cons, List.flatten_append, List.flatten_cons, ← List.flatMap_def]
      exact (flatMap_groupInto_perm dataTypes set).append ih
  refine (hinner _).trans ?_
  rw [← List.flatMap_def]
  exact (flatMap_groupInto_perm timelineNames _).trans (List.perm_insertionSort _ rows)

theorem flatten_pieces_perm (maxRows : Nat) (rows : List PendingRow) :
    (pieces maxRows rows).flatten.Perm rows := by
  have hflatten (batches : List (List PendingRow)) :
      (batches.flatMap (piecesFrom maxRows [])).flatten = batches.flatten := by
    induction batches with
    | nil => rfl
    | cons batch batches ih =>
      rw [List.flatMap_cons, List.flatten_append, flatten_piecesFrom, ih, List.flatten_cons,
        List.nil_append]
  rw [pieces, hflatten]
  exact flatten_batches_perm rows

def Sends (entityPath : EntityPath) (p : PendingChunk) (piece : List PendingRow) : Prop :=
  ∀ id, (Chunk.sendable (p.build id entityPath)).toList.flatMap (·.loggedRows) =
    loggedRows entityPath piece

theorem sends_of_madeOf {all : List ComponentIdentifier} {p : PendingChunk}
    {piece : List PendingRow} (h : PendingChunks.MadeOf all p piece) (hall : all.Nodup)
    (hmem : ∀ row ∈ piece, ∀ batch ∈ row.components, batch.component ∈ all)
    (hnames : ∀ row ∈ piece, row.timelineNames = names)
    (htypes : ∀ row ∈ piece, row.dataTypes = types) (hagree : Agree piece)
    (entityPath : EntityPath) : Sends entityPath p piece := by
  intro id
  obtain ⟨c, hbuild, hbuilt⟩ := h.build hall hnames id entityPath
  have hempty : ∀ row ∈ piece, (row.components = [] ↔ types = []) := by
    intro row hrow
    rw [← htypes row hrow, dataTypes, List.map_eq_nil_iff]
  rw [hbuild, Chunk.sendable]
  by_cases ht : types = []
  · have hnone : ∀ row ∈ piece, row.components = [] := fun row hrow => (hempty row hrow).mpr ht
    rw [if_pos ((hbuilt.components_eq_nil_iff hagree hmem).mpr hnone), loggedRows,
      List.filter_eq_nil_iff.mpr fun row hrow => by simp [hnone row hrow]]
    rfl
  · have hdata : ∀ row ∈ piece, row.components ≠ [] :=
      fun row hrow hnil => ht ((hempty row hrow).mp hnil)
    have hsome : c.components ≠ [] := by
      obtain ⟨first, hhead, -⟩ := h
      have hfirst : first ∈ piece := List.mem_of_mem_head? hhead
      exact fun hnil => hdata first hfirst
        ((hbuilt.components_eq_nil_iff hagree hmem).mp hnil first hfirst)
    rw [if_neg hsome, loggedRows,
      List.filter_eq_self.mpr fun row hrow => by simp [hdata row hrow]]
    simp [hbuilt.loggedRows hagree hnames hdata hmem]

theorem sends_pieces {rows : List PendingRow} {maxRows : Nat}
    (hagree : ∀ piece ∈ pieces maxRows rows, Agree piece) (entityPath : EntityPath) :
    List.Forall₂ (Sends entityPath) ((batches rows).flatMap (batchIntoChunks maxRows))
      (pieces maxRows rows) := by
  have hbatch : ∀ batch ∈ batches rows, List.Forall₂ (Sends entityPath)
      (batchIntoChunks maxRows batch) (piecesFrom maxRows [] batch) := by
    intro batch hmem
    obtain ⟨hn, ⟨names, hnames⟩, ⟨types, htypes⟩⟩ := isBatch_of_mem_batches hmem
    have hrows : ∀ piece ∈ piecesFrom maxRows [] batch, Agree piece ∧ ∀ row ∈ piece, row ∈ batch := by
      intro piece hpiece
      refine ⟨hagree piece (List.mem_flatMap.mpr ⟨batch, hmem, hpiece⟩), fun row hrow => ?_⟩
      have hflat := List.mem_flatten.mpr ⟨piece, hpiece, hrow⟩
      rwa [flatten_piecesFrom] at hflat
    have hmade := (batchIntoChunks_madeOf hn hnames maxRows).flip
    refine ((List.forall₂_and_left _ _).mpr ⟨hrows, hmade⟩).flip.imp ?_
    rintro p piece ⟨⟨hagree, hsub⟩, hmade⟩
    refine sends_of_madeOf hmade (nodup_allComponents batch) ?_ (fun row hrow =>
      hnames row (hsub row hrow)) (fun row hrow => htypes row (hsub row hrow)) hagree entityPath
    exact fun row hrow b hb => mem_allComponents.mpr ⟨row, hsub row hrow, List.mem_map_of_mem hb⟩
  rw [pieces]
  generalize batches rows = all at hbatch
  induction all with
  | nil => exact .nil
  | cons batch rest ih =>
    exact List.rel_append (hbatch batch List.mem_cons_self)
      (ih fun b hb => hbatch b (List.mem_cons_of_mem _ hb))

theorem loggedRows_sent {pending : List PendingChunk} {pieces : List (List PendingRow)}
    {newId : Nat → ChunkId} {n : Nat} (h : List.Forall₂ (Sends entityPath) pending pieces) (k : Nat) :
    (((pending.zipIdx k).map fun (p, i) => p.build (newId (n + i)) entityPath).filterMap
      Chunk.sendable).flatMap (·.loggedRows) = loggedRows entityPath pieces.flatten := by
  induction h generalizing k with
  | nil => rfl
  | @cons p piece pending pieces hsends _ ih =>
    rw [List.flatten_cons, loggedRows_append, ← hsends (newId (n + k)), ← ih (k + 1),
      List.zipIdx_cons, List.map_cons, List.filterMap_cons]
    cases Chunk.sendable (p.build (newId (n + k)) entityPath) <;> simp

theorem manyIntoChunks_perm {rows : List PendingRow} {maxRows : Nat}
    (hagree : ∀ piece ∈ pieces maxRows rows, Agree piece) (newId : Nat → ChunkId) (n : Nat)
    (entityPath : EntityPath) :
    (((manyIntoChunks newId n entityPath maxRows rows).1.filterMap Chunk.sendable).flatMap
      (·.loggedRows)).Perm (loggedRows entityPath rows) := by
  rw [manyIntoChunks, loggedRows_sent (sends_pieces hagree entityPath) 0]
  exact ((flatten_pieces_perm maxRows rows).filter _).map _

end PendingRow

end DimosViewer
