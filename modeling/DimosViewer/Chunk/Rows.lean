import DimosViewer.Chunk.MergeLaws

/-!
# Rows of a chunk

A row is read across all columns. Taking rows, sorting them and concatenating chunks move whole rows,
as long as the timelines of a name are of one type.
-/

namespace DimosViewer

/-- The data of one row, which does not depend on how the columns are laid out. -/
@[ext]
structure RowData where
  rowId : RowId
  times : TimelineName → Option (Timeline × TimeInt)
  cells : ComponentIdentifier → Option (DataType × Cell)

namespace Chunk

def rowAt (c : Chunk) (i : Nat) : RowData where
  rowId := c.rowIds.getD i 0
  times name := (c.timeline? name).bind fun tc => (tc.times[i]?).map (tc.timeline, ·)
  cells component := (c.components.get component).bind fun column =>
    (column.listArray[i]?.join).map (column.dataType, ·)

def rows (c : Chunk) : List RowData := (List.range c.numRows).map c.rowAt

@[simp] theorem length_rows (c : Chunk) : c.rows.length = c.numRows := by
  simp [rows]

theorem Aligned.length_times {c : Chunk} (h : c.Aligned) (ht : c.timeline? name = some tc) :
    tc.times.length = c.numRows :=
  h.timeline (name, tc) ((OrdMap.lookup_eq_some_iff_mem h.timelines_nodup).mp ht)

theorem Aligned.length_listArray {c : Chunk} (h : c.Aligned)
    (hc : c.components.get name = some column) : column.listArray.length = c.numRows :=
  h.component column ((ChunkComponents.get_eq_some_iff h.components_nodup).mp hc).1

-- ---------------------------------------------------------------------------
-- Selections
-- ---------------------------------------------------------------------------

def columnAt (c : Chunk) (name : TimelineName) : Option (Timeline × List TimeInt) :=
  (c.timeline? name).map fun tc => (tc.timeline, tc.times)

def componentAt (c : Chunk) (component : ComponentIdentifier) :
    Option (DataType × List (Option Cell)) :=
  (c.components.get component).map fun column => (column.dataType, column.listArray)

structure IsSelection (c c' : Chunk) (indices : List Nat) : Prop where
  rowIds : c'.rowIds = shuffled indices c.rowIds
  times : ∀ name, c'.columnAt name =
    (c.columnAt name).map fun column => (column.1, shuffled indices column.2)
  cells : ∀ component, c'.componentAt component =
    (c.componentAt component).map fun column => (column.1, shuffled indices column.2)
  entityPath : c'.entityPath = c.entityPath

theorem getElem?_shuffled {indices : List Nat} {l : List α} (h : ∀ i ∈ indices, i < l.length)
    (j : Nat) : (shuffled indices l)[j]? = (indices[j]?).bind (l[·]?) := by
  induction indices generalizing j with
  | nil => simp [shuffled]
  | cons i rest ih =>
    obtain ⟨hi, hrest⟩ := List.forall_mem_cons.mp h
    have ih := ih hrest
    rw [shuffled] at ih
    rw [shuffled, List.filterMap_cons, List.getElem?_eq_getElem hi]
    cases j with
    | zero => simp [hi]
    | succ j => simpa using ih j

theorem length_shuffled {indices : List Nat} {l : List α} (h : ∀ i ∈ indices, i < l.length) :
    (shuffled indices l).length = indices.length := by
  induction indices with
  | nil => rfl
  | cons i rest ih =>
    obtain ⟨hi, hrest⟩ := List.forall_mem_cons.mp h
    have ih := ih hrest
    rw [shuffled] at ih
    simp [shuffled, hi, ih]

theorem IsSelection.rows {c c' : Chunk} {indices : List Nat} (hs : IsSelection c c' indices)
    (h : c.Aligned) (hi : ∀ i ∈ indices, i < c.numRows) : c'.rows = indices.map c.rowAt := by
  have hlen : c'.numRows = indices.length := by
    rw [numRows, hs.rowIds]
    exact length_shuffled hi
  refine List.ext_getElem (by simp [hlen]) fun j hj hj' => ?_
  have hj : j < indices.length := by simpa using hj'
  simp only [Chunk.rows, List.getElem_map, List.getElem_range]
  ext name : 2
  · simp only [rowAt, hs.rowIds, List.getD_eq_getElem?_getD]
    rw [getElem?_shuffled hi, List.getElem?_eq_getElem hj, Option.bind_some]
  · have ht := hs.times name
    simp only [columnAt] at ht
    simp only [rowAt]
    cases hc : c.timeline? name with
    | none =>
      rw [hc, Option.map_none, Option.map_none, Option.map_eq_none_iff] at ht
      rw [ht]
      rfl
    | some tc =>
      rw [hc, Option.map_some, Option.map_some] at ht
      obtain ⟨tc', hc', heq⟩ := Option.map_eq_some_iff.mp ht
      obtain ⟨htl, htimes⟩ := Prod.mk.inj heq
      rw [hc', Option.bind_some, Option.bind_some, htl, htimes,
        getElem?_shuffled (fun i hm => (h.length_times hc).symm ▸ hi i hm),
        List.getElem?_eq_getElem hj, Option.bind_some]
  · have ht := hs.cells name
    simp only [componentAt] at ht
    simp only [rowAt]
    cases hc : c.components.get name with
    | none =>
      rw [hc, Option.map_none, Option.map_none, Option.map_eq_none_iff] at ht
      rw [ht]
      rfl
    | some column =>
      rw [hc, Option.map_some, Option.map_some] at ht
      obtain ⟨column', hc', heq⟩ := Option.map_eq_some_iff.mp ht
      obtain ⟨htl, hlist⟩ := Prod.mk.inj heq
      rw [hc', Option.bind_some, Option.bind_some, htl, hlist,
        getElem?_shuffled (fun i hm => (h.length_listArray hc).symm ▸ hi i hm),
        List.getElem?_eq_getElem hj, Option.bind_some]

theorem lookup_map_column (f : TimelineName → TimeColumn → TimeColumn)
    (timelines : List (TimelineName × TimeColumn)) (name : TimelineName) :
    (timelines.map fun (name, tc) => (name, f name tc)).lookup name =
      (timelines.lookup name).map (f name) := by
  induction timelines with
  | nil => rfl
  | cons entry rest ih =>
    obtain ⟨name', tc⟩ := entry
    rw [List.map_cons, OrdMap.lookup_cons, OrdMap.lookup_cons, ih]
    by_cases h : name = name'
    · subst h
      simp
    · simp [h]

theorem get_map_column (f : SerializedComponentColumn → SerializedComponentColumn)
    (hf : ∀ column, (f column).component = column.component) (components : ChunkComponents)
    (name : ComponentIdentifier) :
    ChunkComponents.get (components.map f) name = (components.get name).map f := by
  rw [ChunkComponents.get, ChunkComponents.get, List.find?_map]
  congr 1
  exact congrArg (components.find? ·) (funext fun column => by simp [hf])

theorem isSelection_of_map {c c' : Chunk} {indices : List Nat}
    (f : TimelineName → TimeColumn → TimeColumn)
    (g : SerializedComponentColumn → SerializedComponentColumn)
    (hrows : c'.rowIds = shuffled indices c.rowIds)
    (htimes : c'.timelines = c.timelines.map fun (name, tc) => (name, f name tc))
    (hcells : c'.components = c.components.map g)
    (hf : ∀ name tc, (f name tc).timeline = tc.timeline ∧
      (f name tc).times = shuffled indices tc.times)
    (hg : ∀ column, (g column).component = column.component ∧
      (g column).dataType = column.dataType ∧
      (g column).listArray = shuffled indices column.listArray)
    (hpath : c'.entityPath = c.entityPath) : IsSelection c c' indices where
  rowIds := hrows
  times name := by
    rw [columnAt, columnAt, timeline?, timeline?, htimes, lookup_map_column]
    simp [hf, Function.comp_def]
  cells component := by
    rw [componentAt, componentAt, hcells, get_map_column g fun column => (hg column).1]
    simp [hg, Function.comp_def]
  entityPath := hpath

theorem shuffleWith_isSelection (c : Chunk) (id : ChunkId) (swaps : List Nat) :
    IsSelection c (c.shuffleWith id swaps) swaps :=
  isSelection_of_map
    (fun _ tc => { tc with
      times := shuffled swaps tc.times, isSorted := isSortedList (shuffled swaps tc.times) })
    (fun column => { column with listArray := shuffled swaps column.listArray })
    rfl rfl rfl (fun _ _ => ⟨rfl, rfl⟩) (fun _ => ⟨rfl, rfl, rfl⟩) rfl

theorem IsSelection.aligned {c c' : Chunk} {indices : List Nat} (hs : IsSelection c c' indices)
    (h : c.Aligned) (hi : ∀ i ∈ indices, i < c.numRows)
    (htimes : c'.timelines.map Prod.fst = c.timelines.map Prod.fst)
    (hcells : c'.components.map (·.component) = c.components.map (·.component)) : c'.Aligned := by
  have hlen : c'.numRows = indices.length := by
    rw [numRows, hs.rowIds]
    exact length_shuffled hi
  have htn := htimes ▸ h.timelines_nodup
  have hcn := hcells ▸ h.components_nodup
  refine ⟨htn, hcn, ?_, ?_⟩
  · rintro ⟨name, tc⟩ he
    have hlookup : c'.timeline? name = some tc := (OrdMap.lookup_eq_some_iff_mem htn).mpr he
    have ht := hs.times name
    rw [columnAt, hlookup, Option.map_some, columnAt] at ht
    obtain ⟨column, hcolumn, heq⟩ := Option.map_eq_some_iff.mp ht.symm
    obtain ⟨tc', htc', rfl⟩ := Option.map_eq_some_iff.mp hcolumn
    rw [← (Prod.mk.inj heq).2, hlen]
    exact length_shuffled fun i hm => (h.length_times htc').symm ▸ hi i hm
  · intro column he
    have hget : c'.components.get column.component = some column :=
      (ChunkComponents.get_eq_some_iff hcn).mpr ⟨he, rfl⟩
    have ht := hs.cells column.component
    rw [componentAt, hget, Option.map_some, componentAt] at ht
    obtain ⟨pair, hpair, heq⟩ := Option.map_eq_some_iff.mp ht.symm
    obtain ⟨column', hcolumn', rfl⟩ := Option.map_eq_some_iff.mp hpair
    rw [← (Prod.mk.inj heq).2, hlen]
    exact length_shuffled fun i hm => (h.length_listArray hcolumn').symm ▸ hi i hm

-- ---------------------------------------------------------------------------
-- Slices
-- ---------------------------------------------------------------------------

theorem shuffled_range' (l : List α) (i n : Nat) :
    shuffled (List.range' i n) l = (l.drop i).take n := by
  induction n generalizing i with
  | zero => rfl
  | succ n ih =>
    have ih := ih (i + 1)
    rw [shuffled] at ih
    rw [shuffled, List.range'_succ, List.filterMap_cons, ih]
    by_cases hi : i < l.length
    · rw [List.getElem?_eq_getElem hi, List.drop_eq_getElem_cons hi]
      rfl
    · have hle := Nat.le_of_not_lt hi
      rw [List.getElem?_eq_none hle, List.drop_of_length_le hle,
        List.drop_of_length_le (Nat.le_succ_of_le hle)]
      simp

theorem rowSliced_isSelection (c : Chunk) (id : ChunkId) (index len : Nat) :
    IsSelection c (c.rowSliced id index len)
      (List.range' index (min (index + len) c.numRows - index)) := by
  rw [rowSliced]
  by_cases hi : c.numRows ≤ index
  · rw [if_pos hi, Nat.sub_eq_zero_of_le ((Nat.min_le_right _ _).trans hi)]
    exact isSelection_of_map (fun _ tc => tc.emptied) (fun column => { column with listArray := [] })
      rfl rfl rfl (fun _ _ => ⟨rfl, rfl⟩) (fun _ => ⟨rfl, rfl, rfl⟩) rfl
  · rw [if_neg hi]
    by_cases hlen : min (index + len) c.numRows - index = 0
    · simp only [hlen, if_true]
      exact isSelection_of_map (fun _ tc => tc.emptied)
        (fun column => { column with listArray := [] })
        rfl rfl rfl (fun _ _ => ⟨rfl, rfl⟩) (fun _ => ⟨rfl, rfl, rfl⟩) rfl
    · simp only [hlen, if_false]
      refine isSelection_of_map
        (fun _ tc => tc.rowSliced index (min (index + len) c.numRows - index))
        (·.rowSliced index (min (index + len) c.numRows - index))
        (shuffled_range' _ _ _).symm rfl rfl (fun _ tc => ⟨?_, ?_⟩)
        (fun column => ⟨rfl, rfl, (shuffled_range' _ _ _).symm⟩) rfl
      · rw [TimeColumn.rowSliced]
        split
        · rfl
        · dsimp only
          split <;> rfl
      · rw [TimeColumn.rowSliced_times, shuffled_range']

theorem rows_rowSliced {c : Chunk} (h : c.Aligned) (id : ChunkId) (index len : Nat) :
    (c.rowSliced id index len).rows =
      (List.range' index (min (index + len) c.numRows - index)).map c.rowAt := by
  refine (c.rowSliced_isSelection id index len).rows h fun i hi => ?_
  have := List.mem_range'_1.mp hi
  omega

theorem rows_rowSliced_eq {c : Chunk} (h : c.Aligned) (id : ChunkId) (index len : Nat) :
    (c.rowSliced id index len).rows = (c.rows.drop index).take len := by
  rw [rows_rowSliced h, rows, ← List.map_drop, ← List.map_take, List.range_eq_range',
    List.drop_range']
  refine congrArg (List.map c.rowAt) (List.ext_getElem ?_ fun i hi hi' => ?_)
  · simp only [List.length_range', List.length_take]
    omega
  · simp

-- ---------------------------------------------------------------------------
-- Sorting
-- ---------------------------------------------------------------------------

structure SameRows (c c' : Chunk) : Prop where
  aligned : c'.Aligned
  rows : c'.rows.Perm c.rows
  entityPath : c'.entityPath = c.entityPath
  timelines : c'.columnTypes = c.columnTypes
  components : c'.components.map (·.component) = c.components.map (·.component)

theorem SameRows.refl {c : Chunk} (h : c.Aligned) : SameRows c c := ⟨h, .refl _, rfl, rfl, rfl⟩

theorem shuffleWith_sameRows {c : Chunk} (h : c.Aligned) {swaps : List Nat}
    (hs : swaps.Perm (List.range c.numRows)) (id : ChunkId) :
    SameRows c (c.shuffleWith id swaps) := by
  have hi : ∀ i ∈ swaps, i < c.numRows := fun i hm => List.mem_range.mp (hs.subset hm)
  have hsel := shuffleWith_isSelection c id swaps
  refine ⟨hsel.aligned h hi ?_ ?_, ?_, rfl, ?_, ?_⟩
  · simp [shuffleWith, Function.comp_def]
  · simp [shuffleWith, Function.comp_def]
  · rw [hsel.rows h hi]
    exact hs.map c.rowAt
  · simp [columnTypes, shuffleWith, Function.comp_def]
  · simp [shuffleWith, Function.comp_def]

theorem sortIfUnsorted_sameRows {c : Chunk} (h : c.Aligned) (newId : Nat → ChunkId) (n : Nat) :
    SameRows c (c.sortIfUnsorted newId n).1 := by
  unfold sortIfUnsorted
  split
  · exact .refl h
  · exact shuffleWith_sameRows h (argsort_perm _) _

end Chunk

-- ---------------------------------------------------------------------------
-- Concatenation
-- ---------------------------------------------------------------------------

theorem TimeColumn.concatenated_eq {lhs rhs : TimeColumn} (h : lhs.timeline = rhs.timeline) :
    ∃ tc, lhs.concatenated rhs = some tc ∧ tc.timeline = lhs.timeline ∧
      tc.times = lhs.times ++ rhs.times := by
  rw [TimeColumn.concatenated, if_neg (by simpa using h)]
  exact ⟨_, rfl, rfl, rfl⟩

namespace Chunk

def SameTypes (cl cr : Chunk) : Prop :=
  ∀ name lhs rhs, cl.timeline? name = some lhs → cr.timeline? name = some rhs →
    lhs.timeline = rhs.timeline

theorem SameTypes.symm {cl cr : Chunk} (h : SameTypes cl cr) : SameTypes cr cl :=
  fun name lhs rhs hl hr => (h name rhs lhs hr hl).symm

theorem lookup_zip_concatenated {l r : List (TimelineName × TimeColumn)}
    (hnames : l.map Prod.fst = r.map Prod.fst)
    (htypes : ∀ name lhs rhs, l.lookup name = some lhs → r.lookup name = some rhs →
      lhs.timeline = rhs.timeline) (hnodup : (l.map Prod.fst).Nodup) (name : TimelineName) :
    ((l.zip r).filterMap fun ((name, lhs), (_, rhs)) =>
        (lhs.concatenated rhs).map (name, ·)).lookup name =
      (l.lookup name).bind fun lhs => (r.lookup name).bind lhs.concatenated := by
  induction l generalizing r with
  | nil => rfl
  | cons entry rest ih =>
    obtain ⟨name', lhs⟩ := entry
    cases r with
    | nil => simp at hnames
    | cons entry' rest' =>
      obtain ⟨name'', rhs⟩ := entry'
      obtain ⟨hname, htail⟩ := List.cons.inj hnames
      obtain rfl : name' = name'' := hname
      obtain ⟨hnew, hrest⟩ := List.nodup_cons.mp hnodup
      have htype : lhs.timeline = rhs.timeline := htypes name' lhs rhs (by simp) (by simp)
      obtain ⟨tc, htc, -, -⟩ := TimeColumn.concatenated_eq htype
      have hne : ∀ other lhs', rest.lookup other = some lhs' → other ≠ name' := by
        rintro other lhs' hl rfl
        exact hnew (List.mem_map.mpr ⟨_, (OrdMap.lookup_eq_some_iff_mem hrest).mp hl, rfl⟩)
      have ih := ih htail (fun other lhs' rhs' hl hr =>
        htypes other lhs' rhs' (by simpa [OrdMap.lookup_cons, hne other lhs' hl] using hl)
          (by simpa [OrdMap.lookup_cons, hne other lhs' hl] using hr)) hrest
      rw [List.zip_cons_cons, List.filterMap_cons]
      simp only [htc, Option.map_some, OrdMap.lookup_cons]
      by_cases h : name = name'
      · simp [h, htc]
      · simpa [h] using ih

theorem columnAt_concatenated {cl cr c : Chunk} (hl : cl.Aligned) (htypes : SameTypes cl cr)
    (hnames : cl.sameTimelines cr = true)
    (hc : c.timelines = (cl.timelines.zip cr.timelines).filterMap fun ((name, lhs), (_, rhs)) =>
      (lhs.concatenated rhs).map (name, ·)) (name : TimelineName) :
    c.columnAt name = (cl.columnAt name).bind fun lhs => (cr.columnAt name).map fun rhs =>
      (lhs.1, lhs.2 ++ rhs.2) := by
  rw [sameTimelines, decide_eq_true_iff] at hnames
  rw [columnAt, columnAt, columnAt, timeline?, hc,
    lookup_zip_concatenated hnames htypes hl.timelines_nodup]
  show ((cl.timeline? name).bind fun lhs => (cr.timeline? name).bind lhs.concatenated).map _ = _
  cases hlhs : cl.timeline? name with
  | none => rfl
  | some lhs =>
    cases hrhs : cr.timeline? name with
    | none => rfl
    | some rhs =>
      obtain ⟨tc, htc, htimeline, htimes⟩ :=
        TimeColumn.concatenated_eq (htypes name lhs rhs hlhs hrhs)
      simp [htc, htimeline, htimes]

theorem get_append (left right : ChunkComponents) (name : ComponentIdentifier) :
    ChunkComponents.get (left ++ right) name = (left.get name).or (right.get name) :=
  List.find?_append

theorem get_concatComponentsLeft (cl cr : Chunk) (name : ComponentIdentifier) :
    (cl.concatComponentsLeft cr).get name = (cl.components.get name).map fun lhs =>
      { lhs with listArray := lhs.listArray ++
          ((cr.components.get name).map (·.listArray)).getD (List.replicate cr.numRows none) } := by
  unfold concatComponentsLeft
  rw [get_map_column _ fun column => by cases cr.components.get column.component <;> rfl]
  cases hlhs : cl.components.get name with
  | none => rfl
  | some lhs =>
    have hname : lhs.component = name := by simpa using List.find?_some hlhs
    simp only [Option.map_some, hname]
    cases cr.components.get name <;> rfl

theorem get_concatComponentsRight {cl cr : Chunk} (h : cl.components.get name = none) :
    (cl.concatComponentsRight cr).get name = (cr.components.get name).map fun rhs =>
      { rhs with listArray := List.replicate cl.numRows none ++ rhs.listArray } := by
  unfold concatComponentsRight
  induction cr.components with
  | nil => rfl
  | cons column rest ih =>
    rw [List.filterMap_cons]
    by_cases hname : column.component = name
    · rw [hname, h]
      simp [ChunkComponents.get, hname]
    · have hrest : ChunkComponents.get (column :: rest) name = ChunkComponents.get rest name := by
        rw [ChunkComponents.get, List.find?_cons, beq_false_of_ne hname]
        rfl
      rw [hrest, ← ih]
      cases cl.components.get column.component with
      | some _ => rfl
      | none =>
        rw [ChunkComponents.get, List.find?_cons]
        simp only [beq_false_of_ne hname]
        rfl

theorem componentAt_concatenated {cl cr c : Chunk}
    (hc : c.components = cl.concatComponentsLeft cr ++ cl.concatComponentsRight cr)
    (hdata : cl.sameDatatypes cr = true) (name : ComponentIdentifier) :
    c.componentAt name =
      match cl.componentAt name, cr.componentAt name with
      | some lhs, some rhs => some (rhs.1, lhs.2 ++ rhs.2)
      | some lhs, none => some (lhs.1, lhs.2 ++ List.replicate cr.numRows none)
      | none, some rhs => some (rhs.1, List.replicate cl.numRows none ++ rhs.2)
      | none, none => none := by
  rw [componentAt, componentAt, componentAt, hc, get_append, get_concatComponentsLeft]
  cases hlhs : cl.components.get name with
  | none =>
    rw [Option.map_none, Option.none_or, get_concatComponentsRight hlhs]
    cases cr.components.get name <;> rfl
  | some lhs =>
    rw [Option.map_some, Option.some_or, Option.map_some, Option.map_some]
    cases hrhs : cr.components.get name with
    | none => rfl
    | some rhs =>
      have hname : lhs.component = name := by simpa using List.find?_some hlhs
      have hmem := List.mem_of_find?_eq_some hlhs
      have htype := List.all_eq_true.mp hdata lhs hmem
      rw [hname, hrhs] at htype
      simp only [decide_eq_true_eq] at htype
      simp [htype]

theorem columnTypes_eq {l r : List (TimelineName × TimeColumn)}
    (hnames : l.map Prod.fst = r.map Prod.fst)
    (htypes : ∀ name lhs rhs, l.lookup name = some lhs → r.lookup name = some rhs →
      lhs.timeline = rhs.timeline) (hnodup : (l.map Prod.fst).Nodup) :
    (l.map fun (name, tc) => (name, tc.timeline)) = r.map fun (name, tc) => (name, tc.timeline) := by
  have hlen : l.length = r.length := by simpa using congrArg List.length hnames
  refine List.ext_getElem (by simp [hlen]) fun i hi hi' => ?_
  have hi : i < l.length := by simpa using hi
  have hi' : i < r.length := by simpa using hi'
  have hname : l[i].1 = r[i].1 := by
    have := congrArg (·[i]?) hnames
    simpa [hi, hi'] using this
  have hl := (OrdMap.lookup_eq_some_iff_mem hnodup).mpr (show (l[i].1, l[i].2) ∈ l from
    List.getElem_mem hi)
  have hr := (OrdMap.lookup_eq_some_iff_mem (hnames ▸ hnodup)).mpr
    (show (r[i].1, r[i].2) ∈ r from List.getElem_mem hi')
  simp [hname, htypes _ _ _ hl (hname ▸ hr)]

theorem columnTypes_zip {l r : List (TimelineName × TimeColumn)}
    (htypes : ∀ pair ∈ l.zip r, pair.1.2.timeline = pair.2.2.timeline)
    (hlen : l.length = r.length) :
    (((l.zip r).filterMap fun ((name, lhs), (_, rhs)) =>
        (lhs.concatenated rhs).map (name, ·)).map fun (name, tc) => (name, tc.timeline)) =
      l.map fun (name, tc) => (name, tc.timeline) := by
  induction l generalizing r with
  | nil => rfl
  | cons entry rest ih =>
    obtain ⟨name, lhs⟩ := entry
    cases r with
    | nil => simp at hlen
    | cons entry' rest' =>
      rw [List.zip_cons_cons] at htypes ⊢
      obtain ⟨hhead, hrest⟩ := List.forall_mem_cons.mp htypes
      obtain ⟨tc, htc, htimeline, -⟩ := TimeColumn.concatenated_eq hhead
      simp only [List.filterMap_cons]
      simp only at htc htimeline
      rw [htc]
      simp [htimeline, ih hrest (by simpa using hlen)]

theorem times_rowAt (c : Chunk) (i : Nat) (name : TimelineName) : (c.rowAt i).times name =
    (c.columnAt name).bind fun column => (column.2[i]?).map (column.1, ·) := by
  simp only [rowAt, columnAt]
  cases c.timeline? name <;> rfl

theorem cells_rowAt (c : Chunk) (i : Nat) (name : ComponentIdentifier) : (c.rowAt i).cells name =
    (c.componentAt name).bind fun column => (column.2[i]?.join).map (column.1, ·) := by
  simp only [rowAt, componentAt]
  cases c.components.get name <;> rfl

theorem Aligned.length_columnAt {c : Chunk} (h : c.Aligned) (hc : c.columnAt name = some column) :
    column.2.length = c.numRows := by
  obtain ⟨tc, htc, rfl⟩ := Option.map_eq_some_iff.mp hc
  exact h.length_times htc

theorem Aligned.length_componentAt {c : Chunk} (h : c.Aligned)
    (hc : c.componentAt name = some column) : column.2.length = c.numRows := by
  obtain ⟨column', hcolumn, rfl⟩ := Option.map_eq_some_iff.mp hc
  exact h.length_listArray hcolumn

/-- The columns of `c` are those of `cl` followed by those of `cr`, where a column that one of them
lacks is null. -/
structure Joins (cl cr c : Chunk) : Prop where
  rowIds : c.rowIds = cl.rowIds ++ cr.rowIds
  sameColumns : ∀ name, (cl.columnAt name).map Prod.fst = (cr.columnAt name).map Prod.fst
  sameDatatypes : ∀ name lhs rhs, cl.componentAt name = some lhs → cr.componentAt name = some rhs →
    lhs.1 = rhs.1
  times : ∀ name, c.columnAt name = (cl.columnAt name).bind fun lhs =>
    (cr.columnAt name).map fun rhs => (lhs.1, lhs.2 ++ rhs.2)
  cells : ∀ name, c.componentAt name =
    match cl.componentAt name, cr.componentAt name with
    | some lhs, some rhs => some (rhs.1, lhs.2 ++ rhs.2)
    | some lhs, none => some (lhs.1, lhs.2 ++ List.replicate cr.numRows none)
    | none, some rhs => some (rhs.1, List.replicate cl.numRows none ++ rhs.2)
    | none, none => none

theorem Joins.rowAt_left {cl cr c : Chunk} (h : Joins cl cr c) (hl : cl.Aligned)
    (hi : i < cl.numRows) : c.rowAt i = cl.rowAt i := by
  ext name : 2
  · simp only [rowAt, h.rowIds, List.getD_eq_getElem?_getD]
    rw [List.getElem?_append_left hi]
  · rw [times_rowAt, times_rowAt, h.times]
    have hname := h.sameColumns name
    cases hlhs : cl.columnAt name with
    | none => rfl
    | some lhs =>
      cases hrhs : cr.columnAt name with
      | none => simp [hlhs, hrhs] at hname
      | some rhs =>
        simp only [Option.bind_some, Option.map_some]
        rw [List.getElem?_append_left ((hl.length_columnAt hlhs).symm ▸ hi)]
  · rw [cells_rowAt, cells_rowAt, h.cells]
    cases hlhs : cl.componentAt name with
    | none =>
      cases hrhs : cr.componentAt name with
      | none => rfl
      | some rhs => simp [List.getElem?_append_left, hi]
    | some lhs =>
      have hi' : i < lhs.2.length := (hl.length_componentAt hlhs).symm ▸ hi
      cases hrhs : cr.componentAt name with
      | none => simp [List.getElem?_append_left hi']
      | some rhs => simp [List.getElem?_append_left hi', h.sameDatatypes name lhs rhs hlhs hrhs]

theorem Joins.rowAt_right {cl cr c : Chunk} (h : Joins cl cr c) (hl : cl.Aligned)
    (hi : i < cr.numRows) : c.rowAt (cl.numRows + i) = cr.rowAt i := by
  ext name : 2
  · simp only [rowAt, h.rowIds, List.getD_eq_getElem?_getD]
    rw [numRows, List.getElem?_append_right (Nat.le_add_right _ _), Nat.add_sub_cancel_left]
  · rw [times_rowAt, times_rowAt, h.times]
    have hname := h.sameColumns name
    cases hlhs : cl.columnAt name with
    | none =>
      cases hrhs : cr.columnAt name with
      | none => rfl
      | some rhs => simp [hlhs, hrhs] at hname
    | some lhs =>
      cases hrhs : cr.columnAt name with
      | none => simp [hlhs, hrhs] at hname
      | some rhs =>
        have htype : lhs.1 = rhs.1 := by simpa [hlhs, hrhs] using hname
        have hlen := hl.length_columnAt hlhs
        simp only [Option.bind_some, Option.map_some]
        rw [List.getElem?_append_right (by omega), htype, hlen, Nat.add_sub_cancel_left]
  · rw [cells_rowAt, cells_rowAt, h.cells]
    cases hlhs : cl.componentAt name with
    | none =>
      cases hrhs : cr.componentAt name with
      | none => rfl
      | some rhs =>
        simp only [Option.bind_some]
        rw [List.getElem?_append_right (by simp)]
        simp
    | some lhs =>
      have hlen := hl.length_componentAt hlhs
      cases hrhs : cr.componentAt name with
      | none =>
        simp only [Option.bind_some, Option.bind_none]
        rw [List.getElem?_append_right (by omega), hlen, Nat.add_sub_cancel_left]
        simp [hi]
      | some rhs =>
        simp only [Option.bind_some]
        rw [List.getElem?_append_right (by omega), hlen, Nat.add_sub_cancel_left]

theorem Joins.rows {cl cr c : Chunk} (h : Joins cl cr c) (hl : cl.Aligned) :
    c.rows = cl.rows ++ cr.rows := by
  have hlen : c.numRows = cl.numRows + cr.numRows := by simp [numRows, h.rowIds]
  rw [Chunk.rows, Chunk.rows, Chunk.rows, hlen, List.range_add, List.map_append, List.map_map]
  congr 1
  · exact List.map_congr_left fun i hi => h.rowAt_left hl (List.mem_range.mp hi)
  · exact List.map_congr_left fun i hi => h.rowAt_right hl (List.mem_range.mp hi)

theorem Joins.aligned {cl cr c : Chunk} (h : Joins cl cr c) (hl : cl.Aligned) (hr : cr.Aligned)
    (htypes : c.columnTypes = cl.columnTypes) (hnodup : (c.components.map (·.component)).Nodup) :
    c.Aligned := by
  have hlen : c.numRows = cl.numRows + cr.numRows := by simp [numRows, h.rowIds]
  have hnames : c.timelines.map Prod.fst = cl.timelines.map Prod.fst := by
    have := congrArg (List.map Prod.fst) htypes
    simpa [columnTypes, Function.comp_def] using this
  have htn : (c.timelines.map Prod.fst).Nodup := hnames ▸ hl.timelines_nodup
  refine ⟨htn, hnodup, ?_, ?_⟩
  · rintro ⟨name, tc⟩ hm
    have htimes := h.times name
    have hsome : c.columnAt name = some (tc.timeline, tc.times) := by
      rw [columnAt, timeline?, (OrdMap.lookup_eq_some_iff_mem htn).mpr hm]
      rfl
    rw [hsome] at htimes
    obtain ⟨lhs, hlhs, htimes⟩ := Option.bind_eq_some_iff.mp htimes.symm
    obtain ⟨rhs, hrhs, heq⟩ := Option.map_eq_some_iff.mp htimes
    rw [hlen, ← hl.length_columnAt hlhs, ← hr.length_columnAt hrhs, ← List.length_append]
    exact congrArg (List.length ∘ Prod.snd) heq.symm
  · intro column hm
    have hcells := h.cells column.component
    have hsome : c.componentAt column.component = some (column.dataType, column.listArray) := by
      rw [componentAt, (ChunkComponents.get_eq_some_iff hnodup).mpr ⟨hm, rfl⟩]
      rfl
    rw [hsome] at hcells
    rw [hlen]
    cases hlhs : cl.componentAt column.component with
    | none =>
      cases hrhs : cr.componentAt column.component with
      | none => simp [hlhs, hrhs] at hcells
      | some rhs =>
        simp only [hlhs, hrhs, Option.some.injEq, Prod.mk.injEq] at hcells
        rw [hcells.2, List.length_append, List.length_replicate, hr.length_componentAt hrhs]
    | some lhs =>
      cases hrhs : cr.componentAt column.component with
      | none =>
        simp only [hlhs, hrhs, Option.some.injEq, Prod.mk.injEq] at hcells
        rw [hcells.2, List.length_append, List.length_replicate, hl.length_componentAt hlhs]
      | some rhs =>
        simp only [hlhs, hrhs, Option.some.injEq, Prod.mk.injEq] at hcells
        rw [hcells.2, List.length_append, hl.length_componentAt hlhs, hr.length_componentAt hrhs]

structure IsConcat (cl cr c : Chunk) : Prop where
  aligned : c.Aligned
  rows : c.rows.Perm (cl.rows ++ cr.rows)
  entityPath : c.entityPath = cl.entityPath
  columnTypes : c.columnTypes = cl.columnTypes
  concatenable : cl.columnTypes = cr.columnTypes ∧ cl.entityPath = cr.entityPath

theorem IsConcat.symm {cl cr c : Chunk} (h : IsConcat cl cr c) : IsConcat cr cl c :=
  ⟨h.aligned, h.rows.trans List.perm_append_comm, h.entityPath.trans h.concatenable.2,
    h.columnTypes.trans h.concatenable.1, h.concatenable.1.symm, h.concatenable.2.symm⟩

theorem IsConcat.sameRows {cl cr c c' : Chunk} (h : IsConcat cl cr c) (h' : SameRows c c') :
    IsConcat cl cr c' :=
  ⟨h'.aligned, h'.rows.trans h.rows, h'.entityPath.trans h.entityPath,
    h'.timelines.trans h.columnTypes, h.concatenable⟩

theorem columnAt_map_fst (c : Chunk) (name : TimelineName) :
    (c.columnAt name).map Prod.fst = c.columnTypes.lookup name := by
  rw [columnAt, columnTypes, timeline?, Option.map_map]
  induction c.timelines with
  | nil => rfl
  | cons entry rest ih =>
    obtain ⟨name', tc⟩ := entry
    rw [List.map_cons, OrdMap.lookup_cons, OrdMap.lookup_cons, ← ih]
    by_cases h : name = name'
    · simp [h]
    · simp [h]

theorem concatenable_iff {cl cr : Chunk} : cl.concatenable cr = true ↔
    cl.entityPath = cr.entityPath ∧ cl.sameTimelines cr = true ∧ cl.sameDatatypes cr = true := by
  simp [concatenable, sameEntityPaths, and_assoc]

theorem joins_of_concatenable {cl cr c : Chunk} (hl : cl.Aligned) (htypes : SameTypes cl cr)
    (hc : cl.concatenable cr = true) (hrows : c.rowIds = cl.rowIds ++ cr.rowIds)
    (htimelines : c.timelines = (cl.timelines.zip cr.timelines).filterMap
      fun ((name, lhs), (_, rhs)) => (lhs.concatenated rhs).map (name, ·))
    (hcomponents : c.components = cl.concatComponentsLeft cr ++ cl.concatComponentsRight cr) :
    Joins cl cr c := by
  obtain ⟨-, hnames, hdata⟩ := concatenable_iff.mp hc
  have hcolumns : cl.columnTypes = cr.columnTypes :=
    columnTypes_eq (of_decide_eq_true hnames) htypes hl.timelines_nodup
  refine ⟨hrows, fun name => by rw [columnAt_map_fst, columnAt_map_fst, hcolumns], ?_,
    columnAt_concatenated hl htypes hnames htimelines, componentAt_concatenated hcomponents hdata⟩
  intro name left right hleft hright
  obtain ⟨lhs, hlhs, rfl⟩ := Option.map_eq_some_iff.mp hleft
  obtain ⟨rhs, hrhs, rfl⟩ := Option.map_eq_some_iff.mp hright
  have hname : lhs.component = name := by simpa using List.find?_some hlhs
  have htype := List.all_eq_true.mp hdata lhs (List.mem_of_find?_eq_some hlhs)
  rw [hname, hrhs] at htype
  simpa using htype

theorem concatenated_isConcat {cl cr c : Chunk} (hl : cl.Aligned) (hr : cr.Aligned)
    (htypes : SameTypes cl cr) (h : cl.concatenated newId n cr = .ok (c, n')) :
    IsConcat cl cr c := by
  unfold concatenated at h
  split at h
  · cases h
  rename_i hc
  have hc := not_not.mp hc
  obtain ⟨hpath, hnames, hdata⟩ := concatenable_iff.mp hc
  have hcolumns : cl.columnTypes = cr.columnTypes :=
    columnTypes_eq (of_decide_eq_true hnames) htypes hl.timelines_nodup
  have hempty : ∀ {c : Chunk}, c.rowIdRange = none → c.rows = [] := by
    intro c hnone
    have : c.rowIds = [] := by
      by_contra hne
      simpa [hnone] using rowIdRange_isSome hne
    simp [Chunk.rows, numRows, this]
  split at h
  · rename_i hnone
    cases h
    exact ⟨hr, by rw [hempty hnone]; rfl, hpath.symm, hcolumns.symm, hcolumns, hpath⟩
  · rename_i hnone
    cases h
    exact ⟨hl, by rw [hempty hnone, List.append_nil], rfl, rfl, hcolumns, hpath⟩
  · obtain ⟨hout, -⟩ := Prod.mk.inj (Except.ok.inj h)
    have hcomponents : c.components = cl.concatComponentsLeft cr ++ cl.concatComponentsRight cr := by
      rw [← hout]
    have htimelines : c.timelines = (cl.timelines.zip cr.timelines).filterMap
        fun ((name, lhs), (_, rhs)) => (lhs.concatenated rhs).map (name, ·) := by
      rw [← hout]
    have hjoins : Joins cl cr c :=
      joins_of_concatenable hl htypes hc (by rw [← hout]) htimelines hcomponents
    have hzip : ∀ pair ∈ cl.timelines.zip cr.timelines,
        pair.1.2.timeline = pair.2.2.timeline := by
      rintro ⟨⟨name, lhs⟩, ⟨name', rhs⟩⟩ hm
      obtain ⟨hml, hmr, hname⟩ := mem_zip_timelines hnames hm
      obtain rfl : name = name' := hname
      exact htypes name lhs rhs ((OrdMap.lookup_eq_some_iff_mem hl.timelines_nodup).mpr hml)
        ((OrdMap.lookup_eq_some_iff_mem hr.timelines_nodup).mpr hmr)
    have htypes' : c.columnTypes = cl.columnTypes := by
      rw [columnTypes, htimelines]
      exact columnTypes_zip hzip (length_timelines_eq hnames)
    exact ⟨hjoins.aligned hl hr htypes' (hcomponents ▸ concatComponents_nodup hl hr),
      .of_eq (hjoins.rows hl), by rw [← hout], htypes', hcolumns, hpath⟩

theorem concatenated_rows {cl cr c : Chunk} (hl : cl.Aligned) (htypes : SameTypes cl cr)
    (hln : cl.rowIds ≠ []) (hrn : cr.rowIds ≠ [])
    (h : cl.concatenated newId n cr = .ok (c, n')) : c.rows = cl.rows ++ cr.rows := by
  obtain ⟨rangeL, hrl⟩ := Option.isSome_iff_exists.mp (rowIdRange_isSome hln)
  obtain ⟨rangeR, hrr⟩ := Option.isSome_iff_exists.mp (rowIdRange_isSome hrn)
  rw [concatenated, hrl, hrr] at h
  split at h
  · cases h
  rename_i hc
  obtain ⟨rfl, -⟩ := Prod.mk.inj (Except.ok.inj h)
  exact (joins_of_concatenable hl htypes (not_not.mp hc) rfl rfl rfl).rows hl

theorem IsConcat.of_map_sorted {left right c : Chunk} (e : Except ChunkError (Chunk × Nat))
    (hconcat : ∀ c n, e = .ok (c, n) → IsConcat left right c)
    (he : e.map (fun (compacted, n) => compacted.sortIfUnsorted newId n) = .ok (c, n')) :
    IsConcat left right c := by
  cases e with
  | error _ => cases he
  | ok pair =>
    obtain ⟨compacted, m⟩ := pair
    have hc := hconcat compacted m rfl
    obtain rfl : (compacted.sortIfUnsorted newId m).1 = c :=
      congrArg Prod.fst (Except.ok.inj he)
    exact hc.sameRows (sortIfUnsorted_sameRows hc.aligned newId m)

theorem concatAndSort_isConcat {left right c : Chunk} (hl : left.Aligned) (hr : right.Aligned)
    (htypes : SameTypes left right) (h : concatAndSort newId n left right = .ok (c, n')) :
    IsConcat left right c := by
  unfold concatAndSort at h
  refine .of_map_sorted _ (fun c n hc => ?_) h
  split at hc
  · exact concatenated_isConcat hl hr htypes hc
  · exact (concatenated_isConcat hr hl htypes.symm hc).symm

end Chunk

end DimosViewer
