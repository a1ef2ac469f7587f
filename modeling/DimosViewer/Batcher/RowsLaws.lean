import DimosViewer.Batcher.Rows
import DimosViewer.Chunk.Laws

/-!
# What becomes of pending rows

A batch is cut into pieces, each a run of its rows, and each piece is one pending chunk.
-/

namespace DimosViewer

open Grouping

-- ---------------------------------------------------------------------------
-- Time columns
-- ---------------------------------------------------------------------------

namespace PendingTimeColumn

def ofTimes (timeline : Timeline) (times : List TimeInt) : PendingTimeColumn :=
  times.foldl push (new timeline)

@[simp] theorem ofTimes_append_singleton (timeline : Timeline) (times : List TimeInt)
    (time : TimeInt) : ofTimes timeline (times ++ [time]) = (ofTimes timeline times).push time := by
  simp [ofTimes]

@[simp] theorem timeline_ofTimes (timeline : Timeline) (times : List TimeInt) :
    (ofTimes timeline times).timeline = timeline := by
  induction times using List.reverseRecOn with
  | nil => rfl
  | append_singleton times time ih => rwa [ofTimes_append_singleton]

@[simp] theorem times_ofTimes (timeline : Timeline) (times : List TimeInt) :
    (ofTimes timeline times).times = times := by
  induction times using List.reverseRecOn with
  | nil => rfl
  | append_singleton times time ih => rw [ofTimes_append_singleton, push, ih]

theorem isSorted_ofTimes (timeline : Timeline) {times : List TimeInt}
    (h : ∀ t ∈ times, TimeInt.MIN ≤ t) :
    (ofTimes timeline times).isSorted = isSortedList times := by
  induction times using List.reverseRecOn with
  | nil => rfl
  | append_singleton times time ih =>
    rw [ofTimes_append_singleton, push, ih fun t ht => h t (List.mem_append_left _ ht),
      times_ofTimes, Bool.eq_iff_iff, Bool.and_eq_true, isSortedList_iff, isSortedList_iff,
      decide_eq_true_iff, List.pairwise_append]
    have hlast : times.Pairwise (· ≤ ·) →
        (times.getLast?.getD .MIN ≤ time ↔ ∀ t ∈ times, t ≤ time) := by
      intro hs
      cases hl : times.getLast? with
      | none =>
        have htime : TimeInt.MIN ≤ time := h time (by simp)
        simp [List.getLast?_eq_none_iff.mp hl, htime]
      | some last =>
        have hgreatest := greatest_mem (b := true) (fun _ => hs) hl
        exact ⟨fun ht t hm => (hgreatest.2 t hm).trans ht, fun ht => ht last hgreatest.1⟩
    constructor
    · rintro ⟨hs, ht⟩
      exact ⟨hs, List.pairwise_singleton _ _, fun t hm u hu =>
        List.mem_singleton.mp hu ▸ (hlast hs).mp ht t hm⟩
    · rintro ⟨hs, -, ht⟩
      exact ⟨hs, (hlast hs).mpr fun t hm => ht t hm time (List.mem_singleton.mpr rfl)⟩

end PendingTimeColumn

-- ---------------------------------------------------------------------------
-- Rows
-- ---------------------------------------------------------------------------

theorem TimePoint.nodup (t : TimePoint) : (t.cells.map Prod.fst).Nodup :=
  t.sorted.imp fun h => ne_of_lt h

namespace PendingRow

def timesAt (rows : List PendingRow) (name : TimelineName) : List TimeInt :=
  rows.filterMap fun row => (row.timepoint.get name).map (·.value)

theorem timesAt_temporal {rows : List PendingRow} (h : t ∈ timesAt rows name) :
    TimeInt.MIN ≤ t := by
  obtain ⟨row, -, hrow⟩ := List.mem_filterMap.mp h
  obtain ⟨cell, -, rfl⟩ := Option.map_eq_some_iff.mp hrow
  exact cell.temporal

theorem get_isSome_iff {row : PendingRow} :
    (row.timepoint.get name).isSome ↔ name ∈ row.timelineNames := by
  rw [← not_iff_not, Option.not_isSome_iff_eq_none]
  exact OrdMap.lookup_eq_none_iff_not_mem

theorem get_eq_some_iff {row : PendingRow} :
    row.get component = some array ↔ ⟨component, array⟩ ∈ row.components := by
  rw [get, Option.map_eq_some_iff]
  constructor
  · rintro ⟨batch, hfind, rfl⟩
    have hcomponent := List.find?_some hfind
    rw [beq_iff_eq] at hcomponent
    subst hcomponent
    exact List.mem_of_find?_eq_some hfind
  · intro hm
    have hsome : (row.components.find? (·.component == component)).isSome :=
      List.find?_isSome.mpr ⟨_, hm, beq_self_eq_true _⟩
    obtain ⟨batch, hfind⟩ := Option.isSome_iff_exists.mp hsome
    have hcomponent := List.find?_some hfind
    rw [beq_iff_eq] at hcomponent
    have heq : batch = ⟨component, array⟩ :=
      List.inj_on_of_nodup_map row.nodup (List.mem_of_find?_eq_some hfind) hm hcomponent
    exact ⟨batch, hfind, by rw [heq]⟩

-- ---------------------------------------------------------------------------
-- Pieces
-- ---------------------------------------------------------------------------

def Cut (maxRows : Nat) (piece : List PendingRow) (names : List TimelineName) : Prop :=
  piece ≠ [] ∧ maxRows ≤ piece.length ∧ ∃ name ∈ names, isSortedList (timesAt piece name) = false

instance : Decidable (Cut maxRows piece names) := by
  unfold Cut
  infer_instance

/-- The runs of rows that become one chunk each. The first of them begins with `piece`. -/
def piecesFrom (maxRows : Nat) (piece : List PendingRow) :
    List PendingRow → List (List PendingRow)
  | [] => [piece]
  | row :: rows =>
    if Cut maxRows piece row.timelineNames then piece :: piecesFrom maxRows [row] rows
    else piecesFrom maxRows (piece ++ [row]) rows

theorem flatten_piecesFrom (maxRows : Nat) (piece rows : List PendingRow) :
    (piecesFrom maxRows piece rows).flatten = piece ++ rows := by
  induction rows generalizing piece with
  | nil => simp [piecesFrom]
  | cons row rows ih =>
    rw [piecesFrom]
    split <;> simp [ih]

theorem piecesFrom_nil_cons (maxRows : Nat) (row : PendingRow) (rows : List PendingRow) :
    piecesFrom maxRows [] (row :: rows) = piecesFrom maxRows [row] rows := by
  rw [piecesFrom, if_neg fun h => h.1 rfl, List.nil_append]

def pieces (maxRows : Nat) (rows : List PendingRow) : List (List PendingRow) :=
  (batches rows).flatMap (piecesFrom maxRows [])

end PendingRow

-- ---------------------------------------------------------------------------
-- Pending chunks and their rows
-- ---------------------------------------------------------------------------

namespace PendingChunk

open PendingRow

structure Holds (all : List ComponentIdentifier) (first : PendingRow) (rows : List PendingRow)
    (p : PendingChunk) : Prop where
  rowIds : p.rowIds = rows.map (·.rowId)
  components : p.components = all.map fun c => (c, rows.map (·.get c))
  nodup : (p.timelines.map Prod.fst).Nodup
  timeline : ∀ name tc, p.timelines.lookup name = some tc → ∃ cell,
    first.timepoint.get name = some cell ∧
      tc = .ofTimes ⟨name, cell.typ⟩ (timesAt rows name)
  complete : rows ≠ [] → ∀ name ∈ first.timelineNames, name ∈ p.timelines.map Prod.fst

variable {all : List ComponentIdentifier} {first row : PendingRow} {rows : List PendingRow}
  {p : PendingChunk}

theorem new_holds (all : List ComponentIdentifier) (first : PendingRow) :
    (new all).Holds all first [] where
  rowIds := rfl
  components := rfl
  nodup := .nil
  timeline name tc h := by simp [new] at h
  complete h := absurd rfl h

theorem Holds.rows_eq_nil_of_lookup (h : p.Holds all first rows)
    (hnames : row.timelineNames = first.timelineNames)
    (hcell : row.timepoint.get name = some cell) (hlookup : p.timelines.lookup name = none) :
    rows = [] := by
  by_contra hn
  have hname : name ∈ row.timelineNames := get_isSome_iff.mp (hcell ▸ rfl)
  exact OrdMap.lookup_eq_none_iff_not_mem.mp hlookup (h.complete hn name (hnames ▸ hname))

theorem Holds.orInsert (h : p.Holds all first rows) (hfirst : rows = [] → first = row)
    (hnames : row.timelineNames = first.timelineNames)
    (hcell : row.timepoint.get name = some cell) :
    Holds all first rows
      { p with timelines := orInsert name (.new ⟨name, cell.typ⟩) p.timelines } where
  rowIds := h.rowIds
  components := h.components
  nodup := nodup_keys_upsertEntry _ _ _ h.nodup
  timeline name' tc htc := by
    rw [lookup_orInsert] at htc
    by_cases hname : name' = name
    · subst hname
      rw [if_pos rfl] at htc
      cases hlookup : p.timelines.lookup name' with
      | some tc' =>
        rw [hlookup] at htc
        cases htc
        exact h.timeline name' _ hlookup
      | none =>
        have hrows := h.rows_eq_nil_of_lookup hnames hcell hlookup
        rw [hlookup] at htc
        cases htc
        subst hrows
        exact ⟨cell, hfirst rfl ▸ hcell, rfl⟩
    · rw [if_neg hname] at htc
      exact h.timeline name' tc htc
  complete hn name' hname := mem_keys_upsertEntry.mpr (.inr (h.complete hn name' hname))

theorem Holds.isUnsorted_eq (h : p.Holds all first rows)
    (hname : name ∈ p.timelines.map Prod.fst) :
    p.isUnsorted name = !isSortedList (timesAt rows name) := by
  cases hlookup : p.timelines.lookup name with
  | none => exact absurd hname (OrdMap.lookup_eq_none_iff_not_mem.mp hlookup)
  | some tc =>
    obtain ⟨cell, -, rfl⟩ := h.timeline name tc hlookup
    have hsorted := PendingTimeColumn.isSorted_ofTimes ⟨name, cell.typ⟩
      fun t (ht : t ∈ timesAt rows name) => timesAt_temporal ht
    simp [isUnsorted, hlookup, hsorted]

theorem lookup_pushTimes {cells : List (TimelineName × TimeCell)}
    (hn : (cells.map Prod.fst).Nodup) (timelines : List (TimelineName × PendingTimeColumn))
    (name : TimelineName) :
    (cells.foldl pushTime timelines).lookup name =
      (cells.lookup name).elim (timelines.lookup name) fun cell =>
        some (((timelines.lookup name).getD (.new ⟨name, cell.typ⟩)).push cell.value) := by
  induction cells generalizing timelines with
  | nil => rfl
  | cons entry rest ih =>
    obtain ⟨name', cell⟩ := entry
    rw [List.map_cons, List.nodup_cons] at hn
    rw [List.foldl_cons, ih hn.2, pushTime, lookup_upsertEntry, OrdMap.lookup_cons]
    by_cases h : name = name'
    · subst h
      simp [OrdMap.lookup_eq_none_iff_not_mem.mpr hn.1]
    · simp [h]

theorem keys_pushTimes {cells : List (TimelineName × TimeCell)}
    {timelines : List (TimelineName × PendingTimeColumn)}
    (h : (timelines.map Prod.fst).Nodup) :
    ((cells.foldl pushTime timelines).map Prod.fst).Nodup ∧
      ∀ name, name ∈ (cells.foldl pushTime timelines).map Prod.fst ↔
        name ∈ timelines.map Prod.fst ∨ name ∈ cells.map Prod.fst := by
  induction cells generalizing timelines with
  | nil => simpa using h
  | cons entry rest ih =>
    obtain ⟨hnodup, hmem⟩ := ih (nodup_keys_upsertEntry entry.1
      (.new ⟨entry.1, entry.2.typ⟩) (·.push entry.2.value) h)
    refine ⟨hnodup, fun name => ?_⟩
    rw [List.foldl_cons, pushTime, hmem, mem_keys_upsertEntry, List.map_cons, List.mem_cons]
    tauto

theorem Holds.pushRow (h : p.Holds all first rows) (hfirst : rows = [] → first = row)
    (hnames : row.timelineNames = first.timelineNames) :
    (p.pushRow row).Holds all first (rows ++ [row]) where
  rowIds := by simp [PendingChunk.pushRow, h.rowIds]
  components := by simp [PendingChunk.pushRow, h.components, Function.comp_def]
  nodup := (keys_pushTimes h.nodup).1
  timeline name tc htc := by
    rw [PendingChunk.pushRow, lookup_pushTimes row.timepoint.nodup] at htc
    cases hcell : row.timepoint.cells.lookup name with
    | none =>
      rw [hcell] at htc
      obtain ⟨cell, hget, rfl⟩ := h.timeline name tc htc
      have hname : name ∈ row.timelineNames := hnames ▸ get_isSome_iff.mp (hget ▸ rfl)
      exact absurd hname (OrdMap.lookup_eq_none_iff_not_mem.mp hcell)
    | some cell =>
      rw [hcell] at htc
      cases htc
      have htimes : timesAt (rows ++ [row]) name = timesAt rows name ++ [cell.value] := by
        simp [timesAt, TimePoint.get, hcell]
      rw [htimes]
      cases hlookup : p.timelines.lookup name with
      | some tc =>
        obtain ⟨cell', hget, rfl⟩ := h.timeline name tc hlookup
        exact ⟨cell', hget, by simp⟩
      | none =>
        have hrows := h.rows_eq_nil_of_lookup hnames hcell hlookup
        subst hrows
        exact ⟨cell, hfirst rfl ▸ hcell, rfl⟩
  complete _ name hname :=
    ((keys_pushTimes h.nodup).2 name).mpr (.inr (show name ∈ row.timelineNames from hnames ▸ hname))

end PendingChunk

-- ---------------------------------------------------------------------------
-- The loop over the rows of a batch
-- ---------------------------------------------------------------------------

namespace PendingChunks

open PendingRow PendingChunk

variable {all : List ComponentIdentifier} {first row : PendingRow} {rows : List PendingRow}
  {b : PendingChunks} {maxRows : Nat}

/-- After the timelines of a row were looked at, either the chunk goes on or it was cut. -/
inductive Looked (all : List ComponentIdentifier) (first row : PendingRow)
    (rows : List PendingRow) (b : PendingChunks) (cut : Prop) (b' : PendingChunks) : Prop
  | goesOn (h : ¬ cut) (chunks : b'.chunks = b.chunks) (current : b'.current.Holds all first rows)
  | cut (h : cut) (held : p.Holds all first rows) (chunks : b'.chunks = b.chunks ++ [p])
      (current : b'.current.Holds all row [])

theorem not_cut_nil (maxRows : Nat) (names : List TimelineName) : ¬ Cut maxRows [] names :=
  fun h => h.1 rfl

theorem cut_cons (maxRows : Nat) (rows : List PendingRow) (name : TimelineName)
    (names : List TimelineName) :
    Cut maxRows rows (name :: names) ↔ Cut maxRows rows [name] ∨ Cut maxRows rows names := by
  simp only [Cut, List.exists_mem_cons_iff, List.not_mem_nil, false_and, exists_false, or_false]
  tauto

theorem splitIfUnsorted_looked (h : b.current.Holds all first rows)
    (hfirst : rows = [] → first = row) (hnames : row.timelineNames = first.timelineNames)
    (hcell : row.timepoint.get name = some cell) :
    Looked all first row rows b (Cut maxRows rows [name])
      (b.splitIfUnsorted all maxRows (name, cell)) := by
  have hheld := h.orInsert hfirst hnames hcell
  have hmem : name ∈ (orInsert name (.new ⟨name, cell.typ⟩) b.current.timelines).map Prod.fst :=
    mem_keys_upsertEntry.mpr (.inl rfl)
  have hrows : b.current.rowIds = rows.map (·.rowId) := h.rowIds
  rw [splitIfUnsorted, hheld.isUnsorted_eq hmem]
  by_cases hcut : Cut maxRows rows [name]
  · rw [if_pos (by simpa [Cut, hrows] using hcut)]
    exact .cut hcut hheld rfl (new_holds all row)
  · rw [if_neg (by simpa [Cut, hrows] using hcut)]
    exact .goesOn hcut rfl hheld

theorem looked_of_cells {cells : List (TimelineName × TimeCell)}
    (h : b.current.Holds all first rows) (hfirst : rows = [] → first = row)
    (hnames : row.timelineNames = first.timelineNames)
    (hcells : ∀ entry ∈ cells, row.timepoint.get entry.1 = some entry.2) :
    Looked all first row rows b (Cut maxRows rows (cells.map Prod.fst))
      (cells.foldl (·.splitIfUnsorted all maxRows ·) b) := by
  induction cells generalizing b first rows with
  | nil => exact .goesOn (by simp [Cut]) rfl h
  | cons entry rest ih =>
    rw [List.foldl_cons, List.map_cons, cut_cons]
    have hrest : ∀ e ∈ rest, row.timepoint.get e.1 = some e.2 :=
      fun e he => hcells e (List.mem_cons_of_mem _ he)
    cases splitIfUnsorted_looked h hfirst hnames (hcells entry List.mem_cons_self) with
    | goesOn hcut chunks current =>
      cases ih current hfirst hnames hrest with
      | goesOn hcut' chunks' current' =>
        exact .goesOn (fun h => h.elim hcut hcut') (chunks'.trans chunks) current'
      | cut hcut' held chunks' current' =>
        exact .cut (.inr hcut') held (chunks ▸ chunks') current'
    | cut hcut held chunks current =>
      -- What is left of the row finds the new chunk empty.
      cases ih current (fun _ => rfl) rfl hrest with
      | goesOn _ chunks' current' => exact .cut (.inl hcut) held (chunks'.trans chunks) current'
      | cut hcut' => exact absurd hcut' (not_cut_nil _ _)

/-- A row goes to the chunk that is being filled, or that chunk is cut and it starts another. -/
theorem addRow_looked (maxRows : Nat) (h : b.current.Holds all first rows) (hfirst : rows = [] → first = row)
    (hnames : row.timelineNames = first.timelineNames) :
    if Cut maxRows rows row.timelineNames then
      ∃ p, p.Holds all first rows ∧ (b.addRow all maxRows row).chunks = b.chunks ++ [p] ∧
        (b.addRow all maxRows row).current.Holds all row [row]
    else (b.addRow all maxRows row).chunks = b.chunks ∧
      (b.addRow all maxRows row).current.Holds all first (rows ++ [row]) := by
  have hcells : ∀ entry ∈ row.timepoint.cells, row.timepoint.get entry.1 = some entry.2 :=
    fun entry he => (OrdMap.lookup_eq_some_iff_mem row.timepoint.nodup).mpr he
  have hlooked : Looked all first row rows b (Cut maxRows rows row.timelineNames) _ :=
    looked_of_cells h hfirst hnames hcells
  cases hlooked with
  | goesOn hcut chunks current =>
    rw [if_neg hcut]
    exact ⟨chunks, current.pushRow hfirst hnames⟩
  | cut hcut held chunks current =>
    rw [if_pos hcut]
    exact ⟨_, held, chunks, current.pushRow (fun _ => rfl) rfl⟩

def MadeOf (all : List ComponentIdentifier) (p : PendingChunk) (piece : List PendingRow) : Prop :=
  ∃ first, piece.head? = some first ∧ p.Holds all first piece

theorem addRows_madeOf {piece : List PendingRow} {done : List (List PendingRow)}
    (hdone : List.Forall₂ (MadeOf all) b.chunks done) (hcurrent : MadeOf all b.current piece)
    (hnames : ∀ row ∈ piece ++ rows, row.timelineNames = names) :
    List.Forall₂ (MadeOf all)
      ((rows.foldl (·.addRow all maxRows ·) b).chunks ++
        [(rows.foldl (·.addRow all maxRows ·) b).current])
      (done ++ piecesFrom maxRows piece rows) := by
  induction rows generalizing b piece done with
  | nil => exact List.rel_append hdone (.cons hcurrent .nil)
  | cons row rows ih =>
    obtain ⟨first, hhead, hheld⟩ := hcurrent
    have hpiece : piece ≠ [] := fun h => by simp [h] at hhead
    have hfirst : first.timelineNames = names :=
      hnames first (List.mem_append_left _ (List.mem_of_mem_head? hhead))
    have hrow : row.timelineNames = first.timelineNames :=
      (hnames row (by simp)).trans hfirst.symm
    have hlooked := addRow_looked maxRows hheld (fun h => absurd h hpiece) hrow
    rw [List.foldl_cons, piecesFrom]
    by_cases hcut : Cut maxRows piece row.timelineNames
    · rw [if_pos hcut] at hlooked ⊢
      obtain ⟨p, hp, hchunks, hcurrent⟩ := hlooked
      rw [List.append_cons done piece]
      refine ih ?_ ⟨row, rfl, hcurrent⟩ fun r hr => hnames r (List.mem_append_right _ hr)
      rw [hchunks]
      exact List.rel_append hdone (.cons ⟨first, hhead, hp⟩ .nil)
    · rw [if_neg hcut] at hlooked ⊢
      refine ih (hlooked.1 ▸ hdone) ⟨first, ?_, hlooked.2⟩ fun r hr => hnames r (by simpa using hr)
      rw [List.head?_append, hhead]
      rfl

end PendingChunks

theorem PendingRow.batchIntoChunks_madeOf {rows : List PendingRow} (hn : rows ≠ [])
    (hnames : ∀ row ∈ rows, row.timelineNames = names) (maxRows : Nat) :
    List.Forall₂ (PendingChunks.MadeOf (allComponents rows)) (batchIntoChunks maxRows rows)
      (piecesFrom maxRows [] rows) := by
  obtain ⟨row, rows, rfl⟩ := List.exists_cons_of_ne_nil hn
  let all := allComponents (row :: rows)
  let start : PendingChunks := ⟨[], .new all⟩
  have hlooked : if Cut maxRows [] row.timelineNames then _ else
      (start.addRow all maxRows row).chunks = [] ∧
        (start.addRow all maxRows row).current.Holds all row [row] :=
    PendingChunks.addRow_looked maxRows (PendingChunk.new_holds all row) (fun _ => rfl) rfl
  rw [if_neg (PendingChunks.not_cut_nil _ _)] at hlooked
  have hdone : List.Forall₂ (PendingChunks.MadeOf all) (start.addRow all maxRows row).chunks [] := by
    rw [hlooked.1]
    exact .nil
  rw [piecesFrom_nil_cons]
  exact PendingChunks.addRows_madeOf hdone ⟨row, rfl, hlooked.2⟩ hnames

end DimosViewer
