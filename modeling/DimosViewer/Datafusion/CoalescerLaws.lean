import Mathlib.Algebra.GroupWithZero.Nat
import Mathlib.Data.List.Infix
import DimosViewer.Datafusion.BatchCoalescer

/-!
# Coalescing only regroups rows

The invariant of the loop relates what was pulled from the input to the batches that were
yielded and to those in the buffer. Every turn keeps it and gets closer to the end.
-/

namespace DimosViewer.BatchCoalescer

variable {ρ ε : Type} {R : RecordBatches ρ}

-- ---------------------------------------------------------------------------
-- What is asked of the stream
-- ---------------------------------------------------------------------------

def pulled (polls : List (Option (Except ε R.Batch))) : List R.Batch :=
  polls.filterMap fun
    | some (.ok batch) => some batch
    | _ => none

def yielded (answers : List (Poll (Option (Except ε R.Batch)))) : List R.Batch :=
  answers.filterMap fun
    | .ready (some (.ok batch)) => some batch
    | _ => none

def rowsOf (polls : List (Option (Except ε R.Batch))) : List ρ := (pulled polls).flatMap R.rows

def kept (polls : List (Option (Except ε R.Batch))) : List R.Batch :=
  ((pulled polls).map R.garbageCollectStringView).filter (R.numRows · ≠ 0)

namespace CoalescerOptions

variable (o : CoalescerOptions)

def limited (rows : List ρ) : List ρ :=
  match o.maxRows with
  | none => rows
  | some maxRows => rows.take maxRows

def LimitReached (polls : List (Option (Except ε R.Batch))) : Prop :=
  ∃ maxRows, o.maxRows = some maxRows ∧ pulled polls ≠ [] ∧ maxRows ≤ (rowsOf polls).length

def ReachesTarget (pieces : List R.Batch) : Prop :=
  o.targetBatchRows ≤ (pieces.map R.numRows).sum ∨
    o.targetBatchBytes ≤ (pieces.map R.totalSizeBytes).sum

/-- A build with assertions is asked for no rows, and some batch comes. -/
def TripsAssertion (debugAssertions : Bool) (polls : List (Option (Except ε R.Batch))) : Prop :=
  debugAssertions = true ∧ o.maxRows = some 0 ∧ pulled polls ≠ []

def Full (polls : List (Option (Except ε R.Batch))) (pieces : List R.Batch) : Prop :=
  pieces <:+: kept polls ∧ o.ReachesTarget pieces

end CoalescerOptions

def start (o : CoalescerOptions) (polls : List (Option (Except ε R.Batch))) :
    SizedCoalesceBatchesStream R ε :=
  ⟨⟨polls, false⟩, ⟨o, {}⟩, .pull⟩

structure Regroups (debugAssertions : Bool) (o : CoalescerOptions)
    (polls : List (Option (Except ε R.Batch)))
    (answers : List (Poll (Option (Except ε R.Batch)))) : Prop where
  ends : ∀ k, ∃ s, (start o polls).runPolls debugAssertions (answers.length + k) =
    .ok (answers ++ List.replicate k (.ready none), s)
  going : Poll.ready none ∉ answers
  rows : (yielded answers).flatMap R.rows = o.limited (rowsOf polls)
  full : ∃ out : List (List R.Batch), yielded answers = out.map R.concatBatches ∧
    ∀ pieces ∈ out.dropLast, o.Full polls pieces

/-- The stream regroups the rows, and the poll that reaches the limit or finds the end of the
input is the last one that can yield a batch. -/
structure Coalesces (debugAssertions : Bool) (o : CoalescerOptions)
    (polls : List (Option (Except ε R.Batch))) : Prop where
  regroups : ∃ answers, Regroups debugAssertions o polls answers
  closes : ∀ n answers s before, (start o polls).runPolls debugAssertions n = .ok (answers, s) →
    polls = before ++ s.input.polls → s.input.ended = true ∨ o.LimitReached before →
    ∀ k, s.runPolls debugAssertions k = .ok (List.replicate k (.ready none), s)

-- ---------------------------------------------------------------------------
-- What was pulled
-- ---------------------------------------------------------------------------

section Pulled

variable {polls polls' : List (Option (Except ε R.Batch))} {batch : R.Batch}

theorem pulled_append : pulled (polls ++ polls') = pulled polls ++ pulled polls' :=
  List.filterMap_append

theorem yielded_cons (answer : Poll (Option (Except ε R.Batch)))
    (answers : List (Poll (Option (Except ε R.Batch)))) :
    yielded (answer :: answers) = yielded [answer] ++ yielded answers :=
  @List.filterMap_append _ _ [answer] answers _

theorem rowsOf_append : rowsOf (polls ++ polls') = rowsOf polls ++ rowsOf polls' := by
  rw [rowsOf, pulled_append, List.flatMap_append, rowsOf, rowsOf]

theorem kept_append : kept (polls ++ polls') = kept polls ++ kept polls' := by
  rw [kept, pulled_append, List.map_append, List.filter_append, kept, kept]

theorem numRows_garbageCollect :
    R.numRows (R.garbageCollectStringView batch) = (R.rows batch).length := by
  rw [RecordBatches.numRows, R.rows_garbageCollect]

theorem kept_batch (h : R.numRows (R.garbageCollectStringView batch) ≠ 0) :
    kept [some (.ok batch : Except ε R.Batch)] = [R.garbageCollectStringView batch] := by
  simp [kept, pulled, h]

theorem kept_empty (h : R.numRows (R.garbageCollectStringView batch) = 0) :
    kept [some (.ok batch : Except ε R.Batch)] = [] := by
  simp [kept, pulled, h]

theorem rows_kept : (kept polls).flatMap R.rows = rowsOf polls := by
  rw [kept, rowsOf]
  generalize pulled polls = batches
  induction batches with
  | nil => rfl
  | cons batch rest ih =>
    rw [List.map_cons, List.filter_cons, List.flatMap_cons, ← ih]
    split
    · rw [List.flatMap_cons, R.rows_garbageCollect]
    · rename_i h
      have hnil : R.rows batch = [] := by
        simpa [numRows_garbageCollect] using h
      rw [hnil, List.nil_append]

theorem CoalescerOptions.LimitReached.limited_append {o : CoalescerOptions}
    (h : o.LimitReached polls) :
    o.limited (rowsOf (polls ++ polls')) = o.limited (rowsOf polls) := by
  obtain ⟨maxRows, hmax, -, hle⟩ := h
  simp only [limited, hmax, rowsOf_append]
  exact List.take_append_of_le_length hle

theorem CoalescerOptions.Full.append {o : CoalescerOptions} {pieces : List R.Batch}
    (h : o.Full polls pieces) : o.Full (polls ++ polls') pieces := by
  refine ⟨h.1.trans ?_, h.2⟩
  rw [kept_append]
  exact (List.prefix_append _ _).isInfix

end Pulled

-- ---------------------------------------------------------------------------
-- The invariant of the coalescer
-- ---------------------------------------------------------------------------

structure Pulling (o : CoalescerOptions) (before : List (Option (Except ε R.Batch)))
    (out : List (List R.Batch)) (c : SizedBatchCoalescer R) : Prop where
  options : c.options = o
  pieces : out.flatten ++ c.state.buffer = kept before
  totalRows : c.state.totalRows = (rowsOf before).length
  bufferedRows : c.state.bufferedRows = (c.state.buffer.map R.numRows).sum
  bufferedBytes : c.state.bufferedBytes = (c.state.buffer.map R.totalSizeBytes).sum
  full : ∀ pieces ∈ out, o.ReachesTarget pieces
  more : ¬ o.LimitReached before

structure Closing (o : CoalescerOptions) (before : List (Option (Except ε R.Batch)))
    (out : List (List R.Batch)) (c : SizedBatchCoalescer R) : Prop where
  rows : (out.flatten ++ c.state.buffer).flatMap R.rows = o.limited (rowsOf before)
  full : ∀ pieces ∈ out.dropLast, o.Full before pieces
  fullLast : c.state.buffer ≠ [] → ∀ pieces ∈ out, o.Full before pieces

namespace Pulling

variable {o : CoalescerOptions} {before : List (Option (Except ε R.Batch))}
  {out : List (List R.Batch)} {c : SizedBatchCoalescer R} {batch : R.Batch}
  {debugAssertions : Bool}

theorem rows (h : Pulling o before out c) :
    (out.flatten ++ c.state.buffer).flatMap R.rows = rowsOf before := by
  rw [h.pieces, rows_kept]

theorem full_of_mem (h : Pulling o before out c) {pieces : List R.Batch} (hp : pieces ∈ out) :
    o.Full before pieces := by
  refine ⟨?_, h.full pieces hp⟩
  rw [← h.pieces]
  exact (List.infix_of_mem_flatten hp).trans (List.prefix_append _ _).isInfix

/-- Before a batch reaches the limit, there are rows left to ask for. -/
theorem totalRows_lt (h : Pulling o before out c) {maxRows : Nat}
    (hmax : o.maxRows = some maxRows) (hpos : maxRows ≠ 0) : c.state.totalRows < maxRows := by
  rw [h.totalRows]
  refine Nat.lt_of_not_le fun hle => h.more ⟨maxRows, hmax, fun hnil => ?_, hle⟩
  rw [rowsOf, hnil] at hle
  exact hpos (Nat.le_zero.mp hle)

theorem totalRows_le (h : Pulling o before out c) {maxRows : Nat}
    (hmax : o.maxRows = some maxRows) : c.state.totalRows ≤ maxRows := by
  rw [h.totalRows]
  refine Nat.le_of_not_lt fun hlt => h.more ⟨maxRows, hmax, fun hnil => ?_, hlt.le⟩
  rw [rowsOf, hnil] at hlt
  exact Nat.not_lt_zero _ hlt

theorem closing (h : Pulling o before out c) (hlim : o.limited (rowsOf before) = rowsOf before) :
    Closing o before out c where
  rows := h.rows.trans hlim.symm
  full _ hp := h.full_of_mem (List.mem_of_mem_dropLast hp)
  fullLast _ _ hp := h.full_of_mem hp

/-- Below the limit all rows are within it. -/
theorem limited (h : Pulling o before out c) : o.limited (rowsOf before) = rowsOf before := by
  rw [CoalescerOptions.limited]
  cases hmax : o.maxRows with
  | none => rfl
  | some maxRows => exact List.take_of_length_le (h.totalRows ▸ h.totalRows_le hmax)

theorem finish (h : Pulling o before out c) (hfull : o.ReachesTarget c.state.buffer) :
    Pulling o before (out ++ [c.state.buffer]) c.finishBatch.2 where
  options := h.options
  pieces := by simpa [SizedBatchCoalescer.finishBatch] using h.pieces
  totalRows := h.totalRows
  bufferedRows := rfl
  bufferedBytes := rfl
  full := by
    intro pieces hp
    rcases List.mem_append.mp hp with hp | hp
    · exact h.full pieces hp
    · exact List.mem_singleton.mp hp ▸ hfull
  more := h.more

end Pulling

theorem Closing.finish {o : CoalescerOptions} {before : List (Option (Except ε R.Batch))}
    {out : List (List R.Batch)} {c : SizedBatchCoalescer R} (h : Closing o before out c)
    (hne : c.state.buffer ≠ []) :
    Closing o before (out ++ [c.state.buffer]) c.finishBatch.2 where
  rows := by simpa [SizedBatchCoalescer.finishBatch] using h.rows
  full := by
    rw [List.dropLast_concat]
    exact h.fullLast hne
  fullLast hbuf := absurd rfl hbuf

-- ---------------------------------------------------------------------------
-- One batch
-- ---------------------------------------------------------------------------

inductive Pushed (o : CoalescerOptions) (before : List (Option (Except ε R.Batch)))
    (out : List (List R.Batch)) : CoalescerStatus × SizedBatchCoalescer R → Prop
  | continue : Pulling o before out c → Pushed o before out (.continue, c)
  | batchFull : Pulling o before out c → o.ReachesTarget c.state.buffer →
      Pushed o before out (.batchFull, c)
  | endReached : Closing o before out c → o.LimitReached before →
      Pushed o before out (.endReached, c)

section Push

variable {o : CoalescerOptions} {before : List (Option (Except ε R.Batch))}
  {out : List (List R.Batch)} {c : SizedBatchCoalescer R} {batch : R.Batch}
  {debugAssertions : Bool}

theorem Pulling.target (h : Pulling o before out c)
    (hmore : ¬ o.LimitReached (before ++ [some (.ok batch)])) :
    Pushed o (before ++ [some (.ok batch)]) out
      (if (c.targetReached (R.garbageCollectStringView batch)).1 then .batchFull else .continue,
        (c.targetReached (R.garbageCollectStringView batch)).2) := by
  by_cases hempty : R.numRows (R.garbageCollectStringView batch) = 0
  · simp only [SizedBatchCoalescer.targetReached, if_pos hempty, Bool.false_eq_true, if_false]
    refine .continue ⟨h.options, ?_, ?_, h.bufferedRows, h.bufferedBytes, h.full, hmore⟩
    · rw [kept_append, kept_empty hempty, List.append_nil, h.pieces]
    · have hnil : rowsOf [some (.ok batch : Except ε R.Batch)] = [] := by
        rw [← rows_kept, kept_empty hempty, List.flatMap_nil]
      rw [rowsOf_append, hnil, List.append_nil, h.totalRows]
  · simp only [SizedBatchCoalescer.targetReached, if_neg hempty]
    have hpull : Pulling o (before ++ [some (.ok batch)]) out { c with
        state := {
          totalRows := c.state.totalRows + R.numRows (R.garbageCollectStringView batch)
          buffer := c.state.buffer ++ [R.garbageCollectStringView batch]
          bufferedBytes := c.state.bufferedBytes +
            R.totalSizeBytes (R.garbageCollectStringView batch)
          bufferedRows := c.state.bufferedRows +
            R.numRows (R.garbageCollectStringView batch) } } := by
      refine ⟨h.options, ?_, ?_, ?_, ?_, h.full, hmore⟩
      · rw [kept_append, kept_batch hempty, ← List.append_assoc, h.pieces]
      · rw [rowsOf_append, List.length_append, ← h.totalRows, numRows_garbageCollect]
        simp [rowsOf, pulled]
      · simp [h.bufferedRows]
      · simp [h.bufferedBytes]
    split
    · rename_i hreach
      refine .batchFull hpull ?_
      rw [Bool.or_eq_true, decide_eq_true_eq, decide_eq_true_eq] at hreach
      rw [CoalescerOptions.ReachesTarget, ← hpull.bufferedRows, ← hpull.bufferedBytes,
        ← h.options]
      exact hreach
    · exact .continue hpull

theorem rowsOf_batch :
    rowsOf (before ++ [some (.ok batch)]) = rowsOf before ++ R.rows batch := by
  simp [rowsOf, pulled]

/-- The batch that reaches the limit has the rows that are missing, so nothing panics. -/
theorem Pulling.maxRowsReached (h : Pulling o before out c)
    (hok : ¬ (debugAssertions = true ∧ o.maxRows = some 0)) (hmax : o.maxRows = some maxRows)
    (hreach : maxRows ≤ c.state.totalRows + R.numRows batch) :
    ∃ c', c.maxRowsReached debugAssertions batch = .ok (true, c') ∧
      c'.state.buffer = c.state.buffer ++ [R.slice batch 0 (maxRows - c.state.totalRows)] := by
  have hle := h.totalRows_le hmax
  have hassert : (debugAssertions && decide (maxRows - c.state.totalRows = 0)) = false := by
    rw [Bool.and_eq_false_iff, decide_eq_false_iff_not]
    refine or_iff_not_imp_left.mpr fun hd => ?_
    have hpos : maxRows ≠ 0 := fun h0 => hok ⟨Bool.not_eq_false _ ▸ hd, h0 ▸ hmax⟩
    have := h.totalRows_lt hmax hpos
    omega
  have hslice : ¬ R.numRows batch < maxRows - c.state.totalRows := by omega
  let piece := R.slice batch 0 (maxRows - c.state.totalRows)
  refine ⟨{ c with state := ⟨maxRows, c.state.buffer ++ [piece],
    c.state.bufferedBytes + R.totalSizeBytes piece,
    c.state.bufferedRows + R.numRows piece⟩ }, ?_, rfl⟩
  simp only [SizedBatchCoalescer.maxRowsReached, h.options, hmax, if_pos hreach,
    if_neg (Nat.not_lt.mpr hle), hassert, Bool.false_eq_true, if_false, if_neg hslice]
  rfl

theorem Pulling.not_maxRowsReached (h : Pulling o before out c)
    (hmore : ∀ maxRows, o.maxRows = some maxRows →
      ¬ maxRows ≤ c.state.totalRows + R.numRows batch) :
    c.maxRowsReached debugAssertions batch = .ok (false, c) := by
  rw [SizedBatchCoalescer.maxRowsReached, h.options]
  cases hmax : o.maxRows with
  | none => rfl
  | some maxRows => exact if_neg (hmore maxRows hmax)

theorem Pulling.close (h : Pulling o before out c) (hmax : o.maxRows = some maxRows)
    (hreach : maxRows ≤ c.state.totalRows + R.numRows (R.garbageCollectStringView batch))
    {c' : SizedBatchCoalescer R} (hbuffer : c'.state.buffer = c.state.buffer ++
      [R.slice (R.garbageCollectStringView batch) 0 (maxRows - c.state.totalRows)]) :
    Closing o (before ++ [some (.ok batch)]) out c' := by
  have hslice := @RecordBatches.rows_slice _ R 0 (maxRows - c.state.totalRows)
    (R.garbageCollectStringView batch) (by rw [RecordBatches.numRows] at hreach; omega)
  refine ⟨?_, fun _ hp => ?_, fun _ _ hp => ?_⟩
  · have hle : (rowsOf before).length ≤ maxRows := h.totalRows ▸ h.totalRows_le hmax
    rw [hbuffer, ← List.append_assoc, List.flatMap_append, h.rows, List.flatMap_singleton, hslice,
      R.rows_garbageCollect, List.drop_zero, CoalescerOptions.limited, hmax, rowsOf_batch]
    change _ = List.take maxRows _
    rw [List.take_append, ← h.totalRows, List.take_of_length_le hle]
  · exact (h.full_of_mem (List.mem_of_mem_dropLast hp)).append
  · exact (h.full_of_mem hp).append

theorem Pulling.push (h : Pulling o before out c)
    (hok : ¬ (debugAssertions = true ∧ o.maxRows = some 0)) (batch : R.Batch) :
    ∃ r, c.pushBatch debugAssertions batch = .ok r ∧
      Pushed o (before ++ [some (.ok batch)]) out r := by
  have hnum := @numRows_garbageCollect _ R batch
  by_cases hlim : o.LimitReached (before ++ [some (.ok batch)])
  · have ⟨maxRows, hmax, _, hlen⟩ := hlim
    have hreach : maxRows ≤
        c.state.totalRows + R.numRows (R.garbageCollectStringView batch) := by
      rwa [h.totalRows, hnum, ← List.length_append, ← rowsOf_batch]
    obtain ⟨c', hc, hbuffer⟩ := h.maxRowsReached hok hmax hreach
    refine ⟨(.endReached, c'), ?_, .endReached (h.close hmax hreach hbuffer) hlim⟩
    rw [SizedBatchCoalescer.pushBatch, hc]
    rfl
  · have hc := @Pulling.not_maxRowsReached _ _ _ _ _ _ _
      (R.garbageCollectStringView batch) debugAssertions h ?_
    · refine ⟨_, ?_, h.target hlim⟩
      rw [SizedBatchCoalescer.pushBatch, hc]
      rfl
    · intro maxRows hmax hreach
      refine hlim ⟨maxRows, hmax, by simp [pulled], ?_⟩
      rwa [rowsOf_batch, List.length_append, ← h.totalRows, ← hnum]

end Push

-- ---------------------------------------------------------------------------
-- The invariant of the stream
-- ---------------------------------------------------------------------------

inductive Inv (o : CoalescerOptions) (polls : List (Option (Except ε R.Batch))) :
    SizedCoalesceBatchesStream R ε → List (List R.Batch) → Prop
  | pull : polls = before ++ rest → Pulling o before out c →
      Inv o polls ⟨⟨rest, false⟩, c, .pull⟩ out
  | returnBuffer : polls = before ++ rest → Pulling o before out c →
      o.ReachesTarget c.state.buffer → Inv o polls ⟨⟨rest, false⟩, c, .returnBuffer⟩ out
  | exhausted : polls = before ++ rest → Closing o before out c →
      (ended = true ∧ rest = [] ∨ o.LimitReached before) →
      Inv o polls ⟨⟨rest, ended⟩, c, .exhausted⟩ out

namespace SizedCoalesceBatchesStream

/-- Every turn lowers it, until the end is answered. -/
def rank (s : SizedCoalesceBatchesStream R ε) : Nat :=
  match s.innerState with
  | .pull => 2 * s.input.polls.length + 2
  | .returnBuffer => 2 * s.input.polls.length + 3
  | .exhausted => if s.coalescer.isEmpty then 0 else 1

def Closed (s : SizedCoalesceBatchesStream R ε) : Prop :=
  s.innerState = .exhausted ∧ s.coalescer.isEmpty = true

def Settled (s : SizedCoalesceBatchesStream R ε) : Prop := s.innerState = .pull ∨ s.Closed

end SizedCoalesceBatchesStream

structure Answered (o : CoalescerOptions) (polls : List (Option (Except ε R.Batch)))
    (out : List (List R.Batch)) (rank : Nat) (answer : Poll (Option (Except ε R.Batch)))
    (s : SizedCoalesceBatchesStream R ε) : Prop where
  inv : ∃ more : List (List R.Batch),
    Inv o polls s (out ++ more) ∧ yielded [answer] = more.map R.concatBatches
  settled : s.Settled
  progress : (answer = .ready none ∧ s.Closed) ∨ (answer ≠ .ready none ∧ s.rank < rank)

section Loop

variable {o : CoalescerOptions} {polls : List (Option (Except ε R.Batch))}
  {out : List (List R.Batch)} {s : SizedCoalesceBatchesStream R ε} {debugAssertions : Bool}

theorem Answered.mono {rank rank' : Nat} {answer : Poll (Option (Except ε R.Batch))}
    (h : Answered o polls out rank answer s) (hle : rank ≤ rank') :
    Answered o polls out rank' answer s :=
  ⟨h.inv, h.settled, h.progress.imp_right fun hp => ⟨hp.1, hp.2.trans_le hle⟩⟩

theorem Pulling.pass {before rest : List (Option (Except ε R.Batch))}
    {item : Option (Except ε R.Batch)} {c : SizedBatchCoalescer R}
    (h : Pulling o before out c) (hitem : pulled [item] = [])
    (hpolls : polls = before ++ item :: rest) :
    Inv o polls ⟨⟨rest, false⟩, c, .pull⟩ (out ++ []) := by
  have hrows : rowsOf (before ++ [item]) = rowsOf before := by
    simp [rowsOf, pulled_append, hitem]
  rw [List.append_nil]
  have hsplit : polls = (before ++ [item]) ++ rest := by
    rw [hpolls, List.append_assoc]
    rfl
  refine .pull hsplit ?_
  refine ⟨h.options, ?_, by rw [hrows, h.totalRows], h.bufferedRows, h.bufferedBytes, h.full, ?_⟩
  · rw [h.pieces, kept_append]
    simp [kept, hitem]
  · simp only [CoalescerOptions.LimitReached, pulled_append, hitem, List.append_nil, hrows]
    exact h.more

/-- A turn keeps the invariant and lowers the rank. -/
theorem Inv.turn (h : Inv o polls s out)
    (hok : ¬ o.TripsAssertion debugAssertions polls) :
    (∃ s', s.turn debugAssertions = .ok (.again s') ∧ Inv o polls s' out ∧ s'.rank < s.rank) ∨
    (∃ answer s', s.turn debugAssertions = .ok (.done answer s') ∧
      Answered o polls out s.rank answer s') := by
  cases h with
  | @pull before rest _ c hpolls hc =>
    rcases rest with - | ⟨item, rest⟩
    · refine .inl ⟨_, rfl, .exhausted hpolls (hc.closing hc.limited) (.inl ⟨rfl, rfl⟩), ?_⟩
      simp only [SizedCoalesceBatchesStream.rank]
      split <;> omega
    · rcases item with - | e | batch
      · refine .inr ⟨_, _, rfl, ⟨[], hc.pass rfl hpolls, rfl⟩, .inl rfl, .inr ⟨by simp, ?_⟩⟩
        simp [SizedCoalesceBatchesStream.rank]
      · refine .inr ⟨_, _, rfl, ⟨[], hc.pass rfl hpolls, rfl⟩, .inl rfl, .inr ⟨by simp, ?_⟩⟩
        simp [SizedCoalesceBatchesStream.rank]
      · have hpolls' : polls = (before ++ [some (.ok batch)]) ++ rest := by
          rw [hpolls, List.append_assoc]
          rfl
        have hpulled : pulled polls ≠ [] := by
          rw [hpolls, pulled_append]
          exact List.append_ne_nil_of_right_ne_nil _ (List.cons_ne_nil _ _)
        obtain ⟨r, hr, hpushed⟩ := hc.push (fun h => hok ⟨h.1, h.2, hpulled⟩) batch
        cases hpushed with
        | «continue» hc' =>
          refine .inl ⟨⟨⟨rest, false⟩, _, .pull⟩, ?_, .pull hpolls' hc', ?_⟩
          · simp only [SizedCoalesceBatchesStream.turn, Input.pollNext, hr]
            rfl
          · simp [SizedCoalesceBatchesStream.rank]
        | batchFull hc' hfull =>
          refine .inl ⟨⟨⟨rest, false⟩, _, .returnBuffer⟩, ?_,
            .returnBuffer hpolls' hc' hfull, ?_⟩
          · simp only [SizedCoalesceBatchesStream.turn, Input.pollNext, hr]
            rfl
          · simp only [SizedCoalesceBatchesStream.rank, List.length_cons]
            omega
        | endReached hc' hlim =>
          refine .inl ⟨⟨⟨rest, false⟩, _, .exhausted⟩, ?_,
            .exhausted hpolls' hc' (.inr hlim), ?_⟩
          · simp only [SizedCoalesceBatchesStream.turn, Input.pollNext, hr]
            rfl
          · simp only [SizedCoalesceBatchesStream.rank]
            split <;> omega
  | @returnBuffer before rest _ c hpolls hc hfull =>
    refine .inr ⟨_, _, rfl, ⟨[c.state.buffer], .pull hpolls (hc.finish hfull), rfl⟩, .inl rfl,
      .inr ⟨by simp, ?_⟩⟩
    simp [SizedCoalesceBatchesStream.rank]
  | @exhausted before rest _ c ended hpolls hc hend =>
    by_cases hempty : c.isEmpty = true
    · refine .inr ⟨.ready none, ⟨⟨rest, ended⟩, c, .exhausted⟩, if_pos hempty,
        ⟨[], ?_, rfl⟩, .inr ⟨rfl, hempty⟩, .inl ⟨rfl, rfl, hempty⟩⟩
      rw [List.append_nil]
      exact .exhausted hpolls hc hend
    · have hne : c.state.buffer ≠ [] := fun hnil => hempty (List.isEmpty_iff.mpr hnil)
      refine .inr ⟨_, _, if_neg hempty, ⟨[c.state.buffer],
        .exhausted hpolls (hc.finish hne) hend, rfl⟩, .inr ⟨rfl, rfl⟩, .inr ⟨by simp, ?_⟩⟩
      simp [SizedCoalesceBatchesStream.rank, SizedBatchCoalescer.isEmpty, hne]

-- ---------------------------------------------------------------------------
-- Polls
-- ---------------------------------------------------------------------------

theorem pollNextInner_again {s' : SizedCoalesceBatchesStream R ε}
    (h : s.turn debugAssertions = .ok (.again s')) :
    s.pollNextInner debugAssertions = s'.pollNextInner debugAssertions := by
  rw [SizedCoalesceBatchesStream.pollNextInner]
  split <;> simp_all

theorem pollNextInner_done {answer : Poll (Option (Except ε R.Batch))}
    {s' : SizedCoalesceBatchesStream R ε} (h : s.turn debugAssertions = .ok (.done answer s')) :
    s.pollNextInner debugAssertions = .ok (answer, s') := by
  rw [SizedCoalesceBatchesStream.pollNextInner]
  split <;> simp_all

theorem pollNextInner_error {p : Panic} (h : s.turn debugAssertions = .error p) :
    s.pollNextInner debugAssertions = .error p := by
  rw [SizedCoalesceBatchesStream.pollNextInner]
  split <;> simp_all

theorem Inv.poll (h : Inv o polls s out)
    (hok : ¬ o.TripsAssertion debugAssertions polls) :
    ∃ answer s', s.pollNextInner debugAssertions = .ok (answer, s') ∧
      Answered o polls out s.rank answer s' := by
  induction hr : s.rank using Nat.strong_induction_on generalizing s with
  | _ r ih =>
    subst hr
    rcases h.turn hok with ⟨s', hs, hinv, hlt⟩ | ⟨answer, s', hs, hans⟩
    · obtain ⟨answer, s'', hs', hans⟩ := ih s'.rank hlt hinv rfl
      exact ⟨answer, s'', (pollNextInner_again hs).trans hs', hans.mono hlt.le⟩
    · exact ⟨answer, s', pollNextInner_done hs, hans⟩

theorem runPolls_succ {answer : Poll (Option (Except ε R.Batch))}
    {s' : SizedCoalesceBatchesStream R ε}
    (h : s.pollNextInner debugAssertions = .ok (answer, s')) (n : Nat) :
    s.runPolls debugAssertions (n + 1) =
      (s'.runPolls debugAssertions n).map fun r => (answer :: r.1, r.2) := by
  rw [SizedCoalesceBatchesStream.runPolls, h]
  simp only [bind, Except.bind]
  cases s'.runPolls debugAssertions n <;> rfl

theorem SizedCoalesceBatchesStream.Closed.runPolls (h : s.Closed) (k : Nat) :
    s.runPolls debugAssertions k = .ok (List.replicate k (.ready none), s) := by
  have hturn : s.turn debugAssertions = .ok (.done (.ready none) s) := by
    rw [SizedCoalesceBatchesStream.turn, h.1]
    exact if_pos h.2
  induction k with
  | zero => rfl
  | succ k ih =>
    rw [runPolls_succ (pollNextInner_done hturn), ih]
    rfl

theorem Inv.runPolls (h : Inv o polls s out) (hs : s.Settled)
    (hok : ¬ o.TripsAssertion debugAssertions polls) {n : Nat}
    {answers : List (Poll (Option (Except ε R.Batch)))} {s' : SizedCoalesceBatchesStream R ε}
    (hrun : s.runPolls debugAssertions n = .ok (answers, s')) :
    ∃ out', Inv o polls s' out' ∧ s'.Settled := by
  induction n generalizing s out answers with
  | zero =>
    cases hrun
    exact ⟨out, h, hs⟩
  | succ n ih =>
    obtain ⟨answer, s₁, hpoll, hans⟩ := h.poll hok
    obtain ⟨more, hinv, -⟩ := hans.inv
    rw [runPolls_succ hpoll] at hrun
    cases hrest : s₁.runPolls debugAssertions n with
    | error p =>
      rw [hrest] at hrun
      cases hrun
    | ok r =>
      rw [hrest] at hrun
      cases hrun
      exact ih hinv hans.settled hrest

structure Finished (debugAssertions : Bool) (o : CoalescerOptions)
    (polls : List (Option (Except ε R.Batch))) (s : SizedCoalesceBatchesStream R ε)
    (out : List (List R.Batch)) (answers : List (Poll (Option (Except ε R.Batch)))) : Prop where
  ends : ∀ k, ∃ s', s.runPolls debugAssertions (answers.length + k) =
    .ok (answers ++ List.replicate k (.ready none), s')
  going : Poll.ready none ∉ answers
  inv : ∃ s' more, s'.Closed ∧ Inv o polls s' (out ++ more) ∧
    yielded answers = more.map R.concatBatches

theorem Inv.finished (h : Inv o polls s out) (hs : s.Settled)
    (hok : ¬ o.TripsAssertion debugAssertions polls) :
    ∃ answers, Finished debugAssertions o polls s out answers := by
  induction hr : s.rank using Nat.strong_induction_on generalizing s out with
  | _ r ih =>
    subst hr
    obtain ⟨answer, s₁, hpoll, hans⟩ := h.poll hok
    obtain ⟨more, hinv, hmore⟩ := hans.inv
    rcases hans.progress with ⟨rfl, hclosed⟩ | ⟨hne, hlt⟩
    · refine ⟨[], fun k => ?_, List.not_mem_nil, s₁, more, hclosed, hinv, hmore⟩
      cases k with
      | zero => exact ⟨s, rfl⟩
      | succ k =>
        refine ⟨s₁, ?_⟩
        rw [List.length_nil, Nat.zero_add, runPolls_succ hpoll, hclosed.runPolls]
        rfl
    · obtain ⟨answers, hfin⟩ := ih s₁.rank hlt hinv hans.settled rfl
      obtain ⟨s', more', hclosed, hinv', hmore'⟩ := hfin.inv
      refine ⟨answer :: answers, fun k => ?_, ?_, s', more ++ more', hclosed, ?_, ?_⟩
      · obtain ⟨s'', hrun⟩ := hfin.ends k
        refine ⟨s'', ?_⟩
        rw [List.length_cons, Nat.succ_add, runPolls_succ hpoll, hrun]
        rfl
      · exact fun hmem => (List.mem_cons.mp hmem).elim (fun he => hne he.symm) hfin.going
      · rwa [← List.append_assoc]
      · rw [yielded_cons, hmore, hmore', List.map_append]

theorem Inv.start : Inv o polls (start o polls) ([] : List (List R.Batch)) := by
  have hsplit : polls = [] ++ polls := rfl
  refine .pull hsplit ⟨rfl, rfl, rfl, rfl, rfl, by simp, ?_⟩
  rintro ⟨_, -, hne, -⟩
  exact hne rfl

/-- At the end, the batches that were yielded hold the rows up to the limit. -/
theorem Inv.closed (h : Inv o polls s out) (hs : s.Closed) :
    out.flatten.flatMap R.rows = o.limited (rowsOf polls) ∧
      ∀ pieces ∈ out.dropLast, o.Full polls pieces := by
  cases h with
  | pull => cases hs.1
  | returnBuffer => cases hs.1
  | @exhausted before rest _ c ended hpolls hc hend =>
    have hnil : c.state.buffer = [] := List.isEmpty_iff.mp hs.2
    have hrows := hc.rows
    rw [hnil, List.append_nil] at hrows
    rcases hend with ⟨-, rfl⟩ | hlim
    · rw [List.append_nil] at hpolls
      exact hpolls ▸ ⟨hrows, hc.full⟩
    · rw [hpolls, hlim.limited_append]
      exact ⟨hrows, fun pieces hp => (hc.full pieces hp).append⟩

theorem Inv.closed_of (h : Inv o polls s out) (hs : s.Settled)
    {before : List (Option (Except ε R.Batch))} (hpolls : polls = before ++ s.input.polls)
    (hend : s.input.ended = true ∨ o.LimitReached before) : s.Closed := by
  refine hs.resolve_left fun hpull => ?_
  cases h with
  | pull hpolls' hc =>
    obtain rfl := List.append_cancel_right (hpolls'.symm.trans hpolls)
    exact hend.elim (fun h => Bool.false_ne_true h) hc.more
  | returnBuffer => cases hpull
  | exhausted => cases hpull

-- ---------------------------------------------------------------------------
-- The assertion
-- ---------------------------------------------------------------------------

theorem runPolls_panics {c : SizedBatchCoalescer R} (hmax : c.options.maxRows = some 0)
    (htotal : c.state.totalRows = 0) (hne : pulled polls ≠ []) :
    ∃ n, ∀ k, (⟨⟨polls, false⟩, c, .pull⟩ : SizedCoalesceBatchesStream R ε).runPolls true
      (n + k) = .error .debugAssert := by
  induction polls with
  | nil => exact absurd rfl hne
  | cons item rest ih =>
    have hpass : ∀ answer, (⟨⟨item :: rest, false⟩, c, .pull⟩ :
        SizedCoalesceBatchesStream R ε).pollNextInner true =
          .ok (answer, ⟨⟨rest, false⟩, c, .pull⟩) → pulled rest ≠ [] →
        ∃ n, ∀ k, (⟨⟨item :: rest, false⟩, c, .pull⟩ :
          SizedCoalesceBatchesStream R ε).runPolls true (n + k) = .error .debugAssert := by
      intro answer hpoll hrest
      obtain ⟨n, hn⟩ := ih hrest
      refine ⟨n + 1, fun k => ?_⟩
      rw [Nat.add_right_comm, runPolls_succ hpoll, hn]
      rfl
    rcases item with - | e | batch
    · exact hpass _ (pollNextInner_done rfl) hne
    · exact hpass _ (pollNextInner_done rfl) hne
    · refine ⟨1, fun k => ?_⟩
      have hturn : (⟨⟨some (.ok batch) :: rest, false⟩, c, .pull⟩ :
          SizedCoalesceBatchesStream R ε).turn true = .error .debugAssert := by
        simp only [SizedCoalesceBatchesStream.turn, Input.pollNext,
          SizedBatchCoalescer.pushBatch, SizedBatchCoalescer.maxRowsReached, hmax, htotal]
        rfl
      rw [Nat.add_comm, SizedCoalesceBatchesStream.runPolls, pollNextInner_error hturn]
      rfl

end Loop

/-- The stream does what it should, but for the debug build that is asked for no rows. -/
theorem coalesces_iff (R : RecordBatches ρ) (debugAssertions : Bool) (o : CoalescerOptions)
    (polls : List (Option (Except ε R.Batch))) :
    Coalesces debugAssertions o polls ↔
      ¬ o.TripsAssertion debugAssertions polls := by
  constructor
  · rintro ⟨⟨answers, h⟩, -⟩ ⟨rfl, hmax, hne⟩
    obtain ⟨n, hn⟩ := @runPolls_panics _ _ R polls ⟨o, {}⟩ hmax rfl hne
    obtain ⟨s, hs⟩ := h.ends n
    rw [Nat.add_comm] at hs
    cases (hn _).symm.trans hs
  · intro hok
    refine ⟨?_, fun n answers s before hrun hpolls hend k => ?_⟩
    · obtain ⟨answers, hfin⟩ := Inv.start.finished (.inl rfl) hok
      obtain ⟨s, out, hclosed, hinv, hyield⟩ := hfin.inv
      obtain ⟨hrows, hfull⟩ := hinv.closed hclosed
      rw [List.nil_append] at hrows hfull
      refine ⟨answers, hfin.ends, hfin.going, ?_, out, hyield, hfull⟩
      rw [hyield, ← hrows, List.flatMap_map, ← List.flatMap_id, List.flatMap_assoc]
      simp only [R.rows_concatBatches, id]
    · obtain ⟨out, hinv, hsettled⟩ := Inv.start.runPolls (.inl rfl) hok hrun
      exact (hinv.closed_of hsettled hpolls hend).runPolls k

def listBatches (ρ : Type) : RecordBatches ρ where
  Batch := List ρ
  rows := id
  totalSizeBytes batch := 8 * batch.length
  garbageCollectStringView := id
  slice batch offset length := (batch.drop offset).take length
  concatBatches := List.flatten
  rows_garbageCollect := rfl
  rows_slice _ := rfl
  rows_concatBatches := by simp

/-- A debug build that is asked for no rows of one batch. -/
theorem noRows_panics :
    (@start Nat Unit (listBatches Nat) ⟨1024, 21, some 0⟩ [some (.ok [7])]).pollNextInner true =
      .error .debugAssert ∧
    ¬ @Coalesces Nat Unit (listBatches Nat) true ⟨1024, 21, some 0⟩ [some (.ok [7])] := by
  obtain ⟨n, hn⟩ := @runPolls_panics Nat Unit (listBatches Nat) [some (.ok [7])]
    ⟨⟨1024, 21, some 0⟩, {}⟩ rfl rfl (List.cons_ne_nil _ _)
  refine ⟨pollNextInner_error rfl, fun h => ?_⟩
  obtain ⟨answers, hr⟩ := h.regroups
  obtain ⟨s, hs⟩ := hr.ends n
  rw [Nat.add_comm] at hs
  cases (hn _).symm.trans hs

end DimosViewer.BatchCoalescer
