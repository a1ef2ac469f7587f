import DimosViewer.Batcher.ChunkLaws

/-!
# What is documented of the chunks of a batch

Every chunk is sorted by its row ids, has the timelines of each of its rows, one datatype for
each component, and no more rows than the threshold if one of its timelines is unsorted. The
length is looked at before a row is pushed, and so is whether the rows are in order: a row
that comes out of order behind a long run of ordered rows is pushed nevertheless.
-/

namespace DimosViewer

open Grouping

namespace PendingRow

variable {maxRows : Nat} {piece first rest rows : List PendingRow}

-- ---------------------------------------------------------------------------
-- Order and types
-- ---------------------------------------------------------------------------

def InOrder (rows : List PendingRow) : Prop := ∀ name, isSortedList (timesAt rows name) = true

def SameTypes (rows : List PendingRow) : Prop :=
  ∀ row ∈ rows, ∀ row' ∈ rows, ∀ name,
    (row.timepoint.get name).map (·.typ) = (row'.timepoint.get name).map (·.typ)

theorem inOrder_nil : InOrder [] := fun _ => rfl

theorem timesAt_sublist {rows rows' : List PendingRow} (h : rows'.Sublist rows)
    (name : TimelineName) : (timesAt rows' name).Sublist (timesAt rows name) :=
  h.filterMap _

theorem InOrder.sublist {rows rows' : List PendingRow} (h : InOrder rows)
    (hsub : rows'.Sublist rows) : InOrder rows' := by
  intro name
  have := h name
  rw [isSortedList_iff] at this ⊢
  exact this.sublist (timesAt_sublist hsub name)

theorem SameTypes.sublist {rows rows' : List PendingRow} (h : SameTypes rows)
    (hsub : rows'.Sublist rows) : SameTypes rows' :=
  fun row hrow row' hrow' => h row (hsub.subset hrow) row' (hsub.subset hrow')

theorem InOrder.not_cut (h : InOrder piece) (names : List TimelineName) :
    ¬ Cut maxRows piece names := by
  rintro ⟨-, -, name, -, hunsorted⟩
  rw [h name] at hunsorted
  cases hunsorted

theorem cut_of_not_inOrder (hnames : ∀ row ∈ piece, row.timelineNames = names)
    (hlen : maxRows ≤ piece.length) (h : ¬ InOrder piece) : Cut maxRows piece names := by
  obtain ⟨name, hname⟩ := not_forall.mp h
  rw [Bool.not_eq_true] at hname
  have hne : timesAt piece name ≠ [] := by
    intro hnil
    rw [hnil] at hname
    cases hname
  obtain ⟨t, ht⟩ := List.exists_mem_of_ne_nil _ hne
  obtain ⟨row, hrow, hcell⟩ := List.mem_filterMap.mp ht
  obtain ⟨cell, hcell, -⟩ := Option.map_eq_some_iff.mp hcell
  refine ⟨List.ne_nil_of_mem hrow, hlen, name, ?_, hname⟩
  rw [← hnames row hrow]
  exact get_isSome_iff.mp (hcell ▸ rfl)

-- ---------------------------------------------------------------------------
-- Where a batch is cut
-- ---------------------------------------------------------------------------

theorem piecesFrom_inOrder (h : InOrder (piece ++ first)) :
    piecesFrom maxRows piece (first ++ rest) = piecesFrom maxRows (piece ++ first) rest := by
  induction first generalizing piece with
  | nil => rw [List.nil_append, List.append_nil]
  | cons row first ih =>
    have hpiece : InOrder piece := h.sublist (List.sublist_append_left _ _)
    rw [List.cons_append, piecesFrom, if_neg (hpiece.not_cut _), ih (by simpa using h)]
    simp

theorem piecesFrom_short (h : piece.length + rows.length ≤ maxRows) :
    piecesFrom maxRows piece rows = [piece ++ rows] := by
  induction rows generalizing piece with
  | nil => rw [piecesFrom, List.append_nil]
  | cons row rows ih =>
    rw [List.length_cons] at h
    have hcut : ¬ Cut maxRows piece row.timelineNames := fun hcut => by
      have := hcut.2.1
      omega
    rw [piecesFrom, if_neg hcut, ih (by simp only [List.length_append, List.length_singleton]; omega)]
    simp

theorem piecesFrom_cut (hnames : ∀ row ∈ piece ++ first ++ rest, row.timelineNames = names)
    (hlen : piece.length + first.length = maxRows) (horder : ¬ InOrder (piece ++ first))
    (hrest : rest ≠ []) :
    piecesFrom maxRows piece (first ++ rest) =
      (piece ++ first) :: piecesFrom maxRows [] rest := by
  induction first generalizing piece with
  | nil =>
    obtain ⟨row, rest, rfl⟩ := List.exists_cons_of_ne_nil hrest
    rw [List.append_nil] at horder hnames
    have hcut : Cut maxRows piece row.timelineNames := by
      rw [hnames row (by simp)]
      exact cut_of_not_inOrder (fun r hr => hnames r (List.mem_append_left _ hr)) hlen.ge horder
    rw [List.nil_append, piecesFrom, if_pos hcut, piecesFrom_nil_cons, List.append_nil]
  | cons row first ih =>
    rw [List.length_cons] at hlen
    have hcut : ¬ Cut maxRows piece row.timelineNames := fun hcut => by
      have := hcut.2.1
      omega
    have hshift : ∀ l : List PendingRow, piece ++ row :: l = (piece ++ [row]) ++ l := by simp
    rw [List.cons_append, piecesFrom, if_neg hcut, ih]
    · rw [← hshift]
    · rwa [← hshift]
    · rw [List.length_append, List.length_singleton]
      omega
    · rwa [← hshift]

theorem exists_longer (maxRows : Nat) (piece rows : List PendingRow) :
    ∃ q ∈ piecesFrom maxRows piece rows, piece <+: q := by
  induction rows generalizing piece with
  | nil => exact ⟨piece, List.mem_singleton_self _, List.prefix_rfl⟩
  | cons row rows ih =>
    rw [piecesFrom]
    split
    · exact ⟨piece, List.mem_cons_self, List.prefix_rfl⟩
    · obtain ⟨q, hq, hpre⟩ := ih (piece ++ [row])
      exact ⟨q, hq, (List.prefix_append _ _).trans hpre⟩

theorem exists_unsorted (horder : InOrder piece) (hlen : maxRows ≤ piece.length)
    (h : ¬ InOrder (piece ++ rows)) :
    ∃ q ∈ piecesFrom maxRows piece rows, maxRows < q.length ∧ ¬ InOrder q := by
  induction rows generalizing piece with
  | nil => exact absurd (by rwa [List.append_nil]) h
  | cons row rows ih =>
    rw [piecesFrom, if_neg (horder.not_cut _)]
    have hlen' : maxRows < (piece ++ [row]).length := by
      rw [List.length_append, List.length_singleton]
      omega
    by_cases hrow : InOrder (piece ++ [row])
    · exact ih hrow hlen'.le (by simpa using h)
    · obtain ⟨q, hq, hpre⟩ := exists_longer maxRows (piece ++ [row]) rows
      exact ⟨q, hq, hlen'.trans_le hpre.length_le, fun hq => hrow (hq.sublist hpre.sublist)⟩

-- ---------------------------------------------------------------------------
-- When all pieces are as documented
-- ---------------------------------------------------------------------------

def Fits (maxRows : Nat) (piece : List PendingRow) : Prop :=
  SameTypes piece ∧ (InOrder piece ∨ piece.length ≤ maxRows)

/-- From here on all rows are in order, or the next ones up to the threshold are not. Those
that will be in one chunk have the same types. -/
def FitsFrom (maxRows : Nat) (rows : List PendingRow) : Prop :=
  InOrder rows ∧ SameTypes rows ∨ ¬ InOrder (rows.take maxRows) ∧ SameTypes (rows.take maxRows)

/-- So it is at every multiple of the threshold. -/
def FitsThroughout (maxRows : Nat) (batch : List PendingRow) : Prop :=
  ∀ k, FitsFrom maxRows (batch.drop (k * maxRows))

theorem fitsThroughout_iff :
    FitsThroughout maxRows rows ↔
      FitsFrom maxRows rows ∧ FitsThroughout maxRows (rows.drop maxRows) := by
  have hdrop : ∀ k, (rows.drop maxRows).drop (k * maxRows) = rows.drop ((k + 1) * maxRows) := by
    intro k
    rw [List.drop_drop, Nat.succ_mul, Nat.add_comm]
  constructor
  · intro h
    refine ⟨by simpa using h 0, fun k => ?_⟩
    rw [hdrop]
    exact h (k + 1)
  · rintro ⟨hzero, hsucc⟩ k
    cases k with
    | zero => simpa using hzero
    | succ k =>
      rw [← hdrop]
      exact hsucc k

theorem fitsThroughout_of_inOrder (horder : InOrder rows) (htypes : SameTypes rows) :
    FitsThroughout maxRows rows :=
  fun _ => .inl ⟨horder.sublist (List.drop_sublist _ _), htypes.sublist (List.drop_sublist _ _)⟩

theorem piecesFrom_fit_iff (hpos : 1 ≤ maxRows)
    (hnames : ∀ row ∈ rows, row.timelineNames = names) :
    (∀ q ∈ piecesFrom maxRows [] rows, Fits maxRows q) ↔ FitsThroughout maxRows rows := by
  induction hlen : rows.length using Nat.strong_induction_on generalizing rows with
  | h len ih =>
    subst hlen
    by_cases horder : InOrder rows
    case pos =>
      -- One piece.
      have hone : piecesFrom maxRows [] rows = [rows] := by
        have : piecesFrom maxRows [] (rows ++ []) = piecesFrom maxRows ([] ++ rows) [] :=
          piecesFrom_inOrder horder
        rwa [List.append_nil, List.nil_append] at this
      rw [hone]
      constructor
      · intro h
        exact fitsThroughout_of_inOrder horder (h rows (List.mem_singleton_self _)).1
      · intro h q hq
        rw [List.mem_singleton.mp hq]
        refine ⟨?_, .inl horder⟩
        have hfits := (fitsThroughout_iff.mp h).1
        exact hfits.elim (·.2) fun hno => absurd (horder.sublist (List.take_sublist _ _)) hno.1
    case neg =>
      by_cases htake : InOrder (rows.take maxRows)
      case pos =>
        -- The row behind is taken as well.
        have hlong : maxRows < rows.length := by
          by_contra hshort
          rw [List.take_of_length_le (Nat.le_of_not_lt hshort)] at htake
          exact horder htake
        refine iff_of_false (fun h => ?_) fun h => ?_
        · have hsplit : piecesFrom maxRows [] rows =
              piecesFrom maxRows (rows.take maxRows) (rows.drop maxRows) := by
            have : piecesFrom maxRows [] (rows.take maxRows ++ rows.drop maxRows) =
                piecesFrom maxRows ([] ++ rows.take maxRows) (rows.drop maxRows) :=
              piecesFrom_inOrder htake
            rwa [List.take_append_drop, List.nil_append] at this
          have htakeLen : maxRows ≤ (rows.take maxRows).length := by
            rw [List.length_take]
            omega
          have hall : ¬ InOrder (rows.take maxRows ++ rows.drop maxRows) := by
            rwa [List.take_append_drop]
          obtain ⟨q, hq, hqlen, hqorder⟩ := exists_unsorted htake htakeLen hall
          rw [← hsplit] at hq
          exact (h q hq).2.elim hqorder (Nat.not_le.mpr hqlen)
        · exact (fitsThroughout_iff.mp h).1.elim (fun hall => horder hall.1) fun hno =>
            hno.1 htake
      case neg =>
        have hfits : FitsFrom maxRows rows ↔ SameTypes (rows.take maxRows) := by
          simp [FitsFrom, horder, htake]
        have htakeFits : Fits maxRows (rows.take maxRows) ↔ SameTypes (rows.take maxRows) := by
          simp [Fits, List.length_take]
        rw [fitsThroughout_iff, hfits]
        rcases Nat.lt_or_ge maxRows rows.length with hlong | hshort
        · -- The piece ends at the threshold.
          have hdropLen : (rows.drop maxRows).length < rows.length := by
            rw [List.length_drop]
            omega
          have hsplit : piecesFrom maxRows [] rows =
              rows.take maxRows :: piecesFrom maxRows [] (rows.drop maxRows) := by
            have htakeLen : ([] : List PendingRow).length + (rows.take maxRows).length = maxRows := by
              rw [List.length_take, List.length_nil]
              omega
            have hrest : rows.drop maxRows ≠ [] := by
              rw [← List.length_pos_iff, List.length_drop]
              omega
            have := piecesFrom_cut (by simpa using hnames) htakeLen htake hrest
            rwa [List.take_append_drop] at this
          rw [hsplit, List.forall_mem_cons, htakeFits, ih _ hdropLen
            (fun row hrow => hnames row (List.mem_of_mem_drop hrow)) rfl]
        · -- The batch ends before it.
          rw [piecesFrom_short (by simpa using hshort), List.nil_append,
            List.take_of_length_le hshort, List.drop_of_length_le hshort]
          rw [List.take_of_length_le hshort] at htakeFits
          have hnil : FitsThroughout maxRows [] :=
            fitsThroughout_of_inOrder inOrder_nil fun row hrow => absurd hrow List.not_mem_nil
          simp [htakeFits, hnil]

theorem sublist_of_mem_batches {rows : List PendingRow} (h : batch ∈ batches rows) :
    batch.Sublist (rows.insertionSort (·.rowId ≤ ·.rowId)) := by
  obtain ⟨set, hset, hbatch⟩ := List.mem_flatMap.mp h
  obtain ⟨⟨names, _⟩, hnames, rfl⟩ := List.mem_map.mp hset
  obtain ⟨⟨types, _⟩, htypes, rfl⟩ := List.mem_map.mp hbatch
  rw [group_eq_filter htypes, group_eq_filter hnames]
  exact (List.filter_sublist).trans List.filter_sublist

theorem rowIds_pairwise_of_mem_pieces (h : piece ∈ pieces maxRows rows) :
    (piece.map (·.rowId)).Pairwise (· ≤ ·) := by
  obtain ⟨batch, hbatch, hpiece⟩ := List.mem_flatMap.mp h
  have hsub : piece.Sublist batch := by
    have := List.sublist_flatten_of_mem hpiece
    rwa [flatten_piecesFrom] at this
  have hsorted : (rows.insertionSort (·.rowId ≤ ·.rowId)).Pairwise (·.rowId ≤ ·.rowId) :=
    List.pairwise_insertionSort _ _
  exact List.pairwise_map.mpr (hsorted.sublist (hsub.trans (sublist_of_mem_batches hbatch)))

end PendingRow

-- ---------------------------------------------------------------------------
-- Chunks
-- ---------------------------------------------------------------------------

open PendingRow

/-- What the documentation says of a chunk and the rows that went into it. -/
structure Chunk.Documented (maxRows : Nat) (piece : List PendingRow) (c : Chunk) : Prop where
  rowIds : c.rowIds = piece.map (·.rowId)
  sorted : c.isSorted = true ∧ c.rowIds.Pairwise (· ≤ ·)
  timelines : ∀ row ∈ piece, ∀ name,
    (c.timeline? name).map (·.timeline) = (row.timepoint.get name).map fun cell => ⟨name, cell.typ⟩
  datatypes : (c.components.map (·.component)).Nodup ∧ ∀ column ∈ c.components, ∀ row ∈ piece,
    ∀ array, row.get column.component = some array → array.dataType = column.dataType
  size : (∃ entry ∈ c.timelines, entry.2.isSorted = false) → c.rowIds.length ≤ maxRows

theorem arraysToListArrayOpt_dataType {arrays : List (Option ArrayRef)}
    (h : arraysToListArrayOpt arrays = some (dataType, listArray)) (ha : some a ∈ arrays) :
    a.dataType = dataType := by
  have hmem : a ∈ arrays.filterMap id := by simpa using ha
  unfold arraysToListArrayOpt at h
  split at h
  case h_1 => cases h
  case h_2 first rest hcons =>
    split at h
    case isFalse => cases h
    case isTrue hall =>
      cases h
      rw [hcons] at hmem
      obtain rfl | hrest := List.mem_cons.mp hmem
      · rfl
      · simpa using List.all_eq_true.mp hall a hrest

namespace PendingChunks

variable {all : List ComponentIdentifier} {piece : List PendingRow} {entityPath : EntityPath}
  {c : Chunk}

theorem Built.unsorted_iff (h : Built all piece entityPath c)
    (hnames : ∀ row ∈ piece, row.timelineNames = names) :
    (∃ entry ∈ c.timelines, entry.2.isSorted = false) ↔ ¬ InOrder piece := by
  obtain ⟨first, hhead, htimeline⟩ := h.timeline
  have hfirst : first ∈ piece := List.mem_of_mem_head? hhead
  have hsorted : ∀ typ name, (PendingTimeColumn.ofTimes ⟨name, typ⟩
      (timesAt piece name)).finish.isSorted = isSortedList (timesAt piece name) :=
    fun typ name => PendingTimeColumn.isSorted_ofTimes _ fun _ ht => timesAt_temporal ht
  constructor
  · rintro ⟨⟨name, tc⟩, hmem, hunsorted⟩ horder
    have hlookup := (OrdMap.lookup_eq_some_iff_mem h.nodup).mpr hmem
    rw [← Chunk.timeline?, htimeline] at hlookup
    obtain ⟨cell, -, rfl⟩ := Option.map_eq_some_iff.mp hlookup
    rw [hsorted, horder name] at hunsorted
    cases hunsorted
  · intro horder
    obtain ⟨-, -, name, hname, hunsorted⟩ :=
      cut_of_not_inOrder hnames (Nat.zero_le _) horder
    rw [← hnames first hfirst] at hname
    obtain ⟨cell, hcell⟩ := Option.isSome_iff_exists.mp (get_isSome_iff.mpr hname)
    have hlookup := htimeline name
    rw [hcell, Option.map_some, Chunk.timeline?] at hlookup
    refine ⟨_, (OrdMap.lookup_eq_some_iff_mem h.nodup).mp hlookup, ?_⟩
    rw [hsorted, hunsorted]

theorem Built.timelines_iff (h : Built all piece entityPath c) :
    (∀ row ∈ piece, ∀ name, (c.timeline? name).map (·.timeline) =
      (row.timepoint.get name).map fun cell => ⟨name, cell.typ⟩) ↔ SameTypes piece := by
  obtain ⟨first, hhead, htimeline⟩ := h.timeline
  have hfirst : first ∈ piece := List.mem_of_mem_head? hhead
  have hchunk : ∀ name, (c.timeline? name).map (·.timeline) =
      ((first.timepoint.get name).map (·.typ)).map fun typ => (⟨name, typ⟩ : Timeline) := by
    intro name
    rw [htimeline]
    cases first.timepoint.get name <;> simp [PendingTimeColumn.finish]
  have hrow : ∀ (row : PendingRow) name,
      ((row.timepoint.get name).map fun cell => (⟨name, cell.typ⟩ : Timeline)) =
        ((row.timepoint.get name).map (·.typ)).map fun typ => (⟨name, typ⟩ : Timeline) := by
    intro row name
    rw [Option.map_map]
    rfl
  have hinj : ∀ name, Function.Injective fun typ => (⟨name, typ⟩ : Timeline) :=
    fun name typ typ' heq => (Timeline.mk.inj heq).2
  simp only [hchunk, hrow]
  constructor
  · intro hsame row hmem row' hmem' name
    exact ((Option.map_injective (hinj name)) (hsame row hmem name)).symm.trans
      ((Option.map_injective (hinj name)) (hsame row' hmem' name))
  · intro hsame row hmem name
    rw [hsame first hfirst row hmem name]

/-- The chunk of a piece is as documented exactly if the piece fits. -/
theorem Built.documented_iff {maxRows : Nat} (h : Built all piece entityPath c)
    (hnames : ∀ row ∈ piece, row.timelineNames = names)
    (hsorted : (piece.map (·.rowId)).Pairwise (· ≤ ·)) :
    c.Documented maxRows piece ↔ Fits maxRows piece := by
  have hlen : c.rowIds.length = piece.length := by rw [h.rowIds, List.length_map]
  constructor
  · intro hdoc
    refine ⟨h.timelines_iff.mp hdoc.timelines, ?_⟩
    rw [or_iff_not_imp_left, ← h.unsorted_iff hnames, ← hlen]
    exact hdoc.size
  · rintro ⟨htypes, hsize⟩
    refine ⟨h.rowIds, ⟨h.isSorted, h.rowIds ▸ hsorted⟩, h.timelines_iff.mpr htypes,
      ⟨h.components_nodup, fun column hcolumn row hrow array harray => ?_⟩, fun hunsorted => ?_⟩
    · refine arraysToListArrayOpt_dataType ((h.mem_components column).mp hcolumn).2 ?_
      exact List.mem_map.mpr ⟨row, hrow, harray⟩
    · rw [hlen]
      exact hsize.resolve_left ((h.unsorted_iff hnames).mp hunsorted)

end PendingChunks

-- ---------------------------------------------------------------------------
-- All chunks
-- ---------------------------------------------------------------------------

namespace PendingRow

variable {maxRows : Nat} {rows : List PendingRow}

def DocumentedResult (maxRows : Nat) (result : Except ChunkError Chunk)
    (piece : List PendingRow) : Prop :=
  ∃ c, result = .ok c ∧ c.Documented maxRows piece

theorem madeOf_pieces (maxRows : Nat) (rows : List PendingRow) :
    List.Forall₂ (fun p piece => ∃ all : List ComponentIdentifier, all.Nodup ∧
        PendingChunks.MadeOf all p piece)
      ((batches rows).flatMap (batchIntoChunks maxRows)) (pieces maxRows rows) := by
  have hbatch : ∀ batch ∈ batches rows, List.Forall₂
      (fun p piece => ∃ all : List ComponentIdentifier, all.Nodup ∧
        PendingChunks.MadeOf all p piece)
      (batchIntoChunks maxRows batch) (piecesFrom maxRows [] batch) := by
    intro batch hmem
    obtain ⟨hn, ⟨names, hnames⟩, -⟩ := isBatch_of_mem_batches hmem
    exact (batchIntoChunks_madeOf hn hnames maxRows).imp fun p piece h =>
      ⟨allComponents batch, nodup_allComponents batch, h⟩
  rw [pieces]
  generalize batches rows = all at hbatch
  induction all with
  | nil => exact .nil
  | cons batch rest ih =>
    exact List.rel_append (hbatch batch List.mem_cons_self)
      (ih fun b hb => hbatch b (List.mem_cons_of_mem _ hb))

theorem exists_names_of_mem_pieces (h : piece ∈ pieces maxRows rows) :
    ∃ names, ∀ row ∈ piece, row.timelineNames = names := by
  obtain ⟨batch, hbatch, hpiece⟩ := List.mem_flatMap.mp h
  obtain ⟨-, ⟨names, hnames⟩, -⟩ := isBatch_of_mem_batches hbatch
  refine ⟨names, fun row hrow => hnames row ?_⟩
  have hmem := List.mem_flatten.mpr ⟨piece, hpiece, hrow⟩
  rwa [flatten_piecesFrom] at hmem

theorem documented_built_iff {newId : Nat → ChunkId} {n : Nat} {entityPath : EntityPath}
    {pending : List PendingChunk} {done : List (List PendingRow)}
    (hmade : List.Forall₂ (fun p piece => ∃ all : List ComponentIdentifier, all.Nodup ∧
      PendingChunks.MadeOf all p piece) pending done)
    (hnames : ∀ piece ∈ done, ∃ names, ∀ row ∈ piece, row.timelineNames = names)
    (hsorted : ∀ piece ∈ done, (piece.map (·.rowId)).Pairwise (· ≤ ·)) (k : Nat) :
    List.Forall₂ (DocumentedResult maxRows)
      ((pending.zipIdx k).map fun (p, i) => p.build (newId (n + i)) entityPath) done ↔
        ∀ piece ∈ done, Fits maxRows piece := by
  induction hmade generalizing k with
  | nil => simp
  | @cons p piece pending done hp _ ih =>
    obtain ⟨all, hall, hp⟩ := hp
    obtain ⟨⟨names, hpiece⟩, hnames⟩ := List.forall_mem_cons.mp hnames
    obtain ⟨hids, hsorted⟩ := List.forall_mem_cons.mp hsorted
    obtain ⟨c, hbuild, hbuilt⟩ := hp.build hall hpiece (newId (n + k)) entityPath
    have hone : DocumentedResult maxRows (p.build (newId (n + k)) entityPath) piece ↔
        Fits maxRows piece := by
      rw [DocumentedResult, hbuild, ← hbuilt.documented_iff hpiece hids]
      simp
    rw [List.zipIdx_cons, List.map_cons, List.forall₂_cons, hone, ih hnames hsorted,
      List.forall_mem_cons]

/-- The chunks are as documented exactly if every batch fits throughout. -/
theorem manyIntoChunks_documented_iff (newId : Nat → ChunkId) (n : Nat) (entityPath : EntityPath)
    (hpos : 1 ≤ maxRows) (rows : List PendingRow) :
    List.Forall₂ (DocumentedResult maxRows)
        (manyIntoChunks newId n entityPath maxRows rows).1 (pieces maxRows rows) ↔
      ∀ batch ∈ batches rows, FitsThroughout maxRows batch := by
  rw [manyIntoChunks, documented_built_iff (madeOf_pieces maxRows rows)
    (fun piece h => exists_names_of_mem_pieces h) (fun piece h => rowIds_pairwise_of_mem_pieces h),
    pieces, List.forall_mem_flatMap]
  refine forall₂_congr fun batch hbatch => ?_
  obtain ⟨-, ⟨names, hnames⟩, -⟩ := isBatch_of_mem_batches hbatch
  exact piecesFrom_fit_iff hpos hnames

def frameAt (rowId : RowId) (time : TimeInt) (htime : TimeInt.MIN ≤ time) : PendingRow where
  rowId
  timepoint := ⟨[("frame", ⟨.sequence, time, htime⟩)], List.pairwise_singleton _ _⟩
  components := [⟨"points", ⟨"Float32", []⟩⟩]
  nodup := PendingRow.nodup_points

def twoFrames (time time' : TimeInt) (h : TimeInt.MIN ≤ time) (h' : TimeInt.MIN ≤ time') :
    List PendingRow := [frameAt 1 time h, frameAt 2 time' h']

theorem manyIntoChunks_documented_two :
    List.Forall₂ (DocumentedResult 1)
        (manyIntoChunks id 0 ["world"] 1 (twoFrames .ZERO .MAX (by decide) (by decide))).1
        (pieces 1 (twoFrames .ZERO .MAX (by decide) (by decide))) ↔
      ∀ batch ∈ batches (twoFrames .ZERO .MAX (by decide) (by decide)), FitsThroughout 1 batch :=
  manyIntoChunks_documented_iff id 0 ["world"] (by decide) _

/-- With a threshold of one row, a second row that lies before the first one is still taken. -/
theorem second_row_taken :
    ∃ c, (manyIntoChunks id 0 ["world"] 1 (twoFrames .MAX .ZERO (by decide) (by decide))).1 =
        [.ok c] ∧ c.rowIds = [1, 2] ∧ (∃ entry ∈ c.timelines, entry.2.isSorted = false) ∧
      ¬ List.Forall₂ (DocumentedResult 1)
        (manyIntoChunks id 0 ["world"] 1 (twoFrames .MAX .ZERO (by decide) (by decide))).1
        (pieces 1 (twoFrames .MAX .ZERO (by decide) (by decide))) := by
  have hunsorted : ∃ entry ∈ [("frame", (PendingTimeColumn.ofTimes ⟨"frame", .sequence⟩
      [.MAX, .ZERO]).finish)], entry.2.isSorted = false :=
    ⟨_, List.mem_singleton_self _, by decide⟩
  refine ⟨_, rfl, rfl, hunsorted, fun h => ?_⟩
  obtain ⟨c, heq, hdoc⟩ := (List.forall₂_cons.mp h).1
  obtain rfl := Except.ok.inj heq
  exact absurd (hdoc.size hunsorted) (by decide)

end PendingRow

end DimosViewer
