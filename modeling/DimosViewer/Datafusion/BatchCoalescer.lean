/-!
# Coalescing record batches

Small batches are buffered until they make up a batch of enough rows or bytes, or until
the row limit is reached. Every poll of the stream runs a small state machine.
-/

namespace DimosViewer.BatchCoalescer

structure RecordBatches (ρ : Type) where
  Batch : Type
  rows : Batch → List ρ
  totalSizeBytes : Batch → Nat
  garbageCollectStringView : Batch → Batch
  slice : Batch → Nat → Nat → Batch
  concatBatches : List Batch → Batch
  rows_garbageCollect : rows (garbageCollectStringView b) = rows b
  rows_slice : offset + length ≤ (rows b).length →
    rows (slice b offset length) = ((rows b).drop offset).take length
  rows_concatBatches : rows (concatBatches batches) = batches.flatMap rows

variable {ρ ε : Type} {R : RecordBatches ρ}

namespace RecordBatches

def numRows (R : RecordBatches ρ) (batch : R.Batch) : Nat := (R.rows batch).length

end RecordBatches

-- ---------------------------------------------------------------------------
-- The coalescer
-- ---------------------------------------------------------------------------

inductive CoalescerStatus
  | «continue»
  | batchFull
  | endReached
deriving DecidableEq

inductive Panic
  | debugAssert
  | subtractOverflow
  | sliceOutOfBounds
deriving DecidableEq

structure CoalescerOptions where
  targetBatchBytes : Nat
  targetBatchRows : Nat
  maxRows : Option Nat

structure CoalescerState (R : RecordBatches ρ) where
  totalRows : Nat := 0
  buffer : List R.Batch := []
  bufferedBytes : Nat := 0
  bufferedRows : Nat := 0

structure SizedBatchCoalescer (R : RecordBatches ρ) where
  options : CoalescerOptions
  state : CoalescerState R := {}

namespace SizedBatchCoalescer

/-- Buffers the start of a batch that reaches the limit. -/
def maxRowsReached (debugAssertions : Bool) (self : SizedBatchCoalescer R) (batch : R.Batch) :
    Except Panic (Bool × SizedBatchCoalescer R) :=
  match self.options.maxRows with
  | none => .ok (false, self)
  | some maxRows =>
    if self.state.totalRows + R.numRows batch ≥ maxRows then
      if maxRows < self.state.totalRows then .error .subtractOverflow
      else
        let remainingRows := maxRows - self.state.totalRows
        if debugAssertions && remainingRows = 0 then .error .debugAssert
        else if R.numRows batch < remainingRows then .error .sliceOutOfBounds
        else
          let batch := R.slice batch 0 remainingRows
          .ok (true, { self with
            state := {
              totalRows := maxRows
              buffer := self.state.buffer ++ [batch]
              bufferedBytes := self.state.bufferedBytes + R.totalSizeBytes batch
              bufferedRows := self.state.bufferedRows + R.numRows batch } })
    else .ok (false, self)

def targetReached (self : SizedBatchCoalescer R) (batch : R.Batch) :
    Bool × SizedBatchCoalescer R :=
  if R.numRows batch = 0 then (false, self)
  else
    let state : CoalescerState R := {
      totalRows := self.state.totalRows + R.numRows batch
      buffer := self.state.buffer ++ [batch]
      bufferedBytes := self.state.bufferedBytes + R.totalSizeBytes batch
      bufferedRows := self.state.bufferedRows + R.numRows batch }
    (state.bufferedRows ≥ self.options.targetBatchRows ||
      state.bufferedBytes ≥ self.options.targetBatchBytes, { self with state })

def pushBatch (debugAssertions : Bool) (self : SizedBatchCoalescer R) (batch : R.Batch) :
    Except Panic (CoalescerStatus × SizedBatchCoalescer R) := do
  let batch := R.garbageCollectStringView batch
  let (reached, self) ← self.maxRowsReached debugAssertions batch
  if reached then
    return (.endReached, self)
  else
    let (reached, self) := self.targetReached batch
    return (if reached then .batchFull else .continue, self)

def isEmpty (self : SizedBatchCoalescer R) : Bool := self.state.buffer.isEmpty

/-- Only what is buffered is reset, not the total. -/
def finishBatch (self : SizedBatchCoalescer R) : R.Batch × SizedBatchCoalescer R :=
  (R.concatBatches self.state.buffer,
    { self with
      state := { self.state with buffer := [], bufferedRows := 0, bufferedBytes := 0 } })

end SizedBatchCoalescer

-- ---------------------------------------------------------------------------
-- The stream
-- ---------------------------------------------------------------------------

inductive Poll (α : Type)
  | pending
  | ready (value : α)

/-- What the input answers to the polls to come, `none` while it is not ready, and whether
it has told its end. -/
structure Input (R : RecordBatches ρ) (ε : Type) where
  polls : List (Option (Except ε R.Batch))
  ended : Bool := false

def Input.pollNext (input : Input R ε) : Poll (Option (Except ε R.Batch)) × Input R ε :=
  match input.polls with
  | [] => (.ready none, { input with ended := true })
  | none :: rest => (.pending, { input with polls := rest })
  | some item :: rest => (.ready (some item), { input with polls := rest })

inductive StreamState
  | pull
  | returnBuffer
  | exhausted
deriving DecidableEq

structure SizedCoalesceBatchesStream (R : RecordBatches ρ) (ε : Type) where
  input : Input R ε
  coalescer : SizedBatchCoalescer R
  innerState : StreamState := .pull

inductive Turn (R : RecordBatches ρ) (ε : Type)
  | again (stream : SizedCoalesceBatchesStream R ε)
  | done (poll : Poll (Option (Except ε R.Batch))) (stream : SizedCoalesceBatchesStream R ε)

namespace SizedCoalesceBatchesStream

def turn (debugAssertions : Bool) (self : SizedCoalesceBatchesStream R ε) :
    Except Panic (Turn R ε) :=
  match self.innerState with
  | .pull =>
    match self.input.pollNext with
    | (.pending, input) => .ok (.done .pending { self with input })
    | (.ready (some (.ok batch)), input) => do
      let (status, coalescer) ← self.coalescer.pushBatch debugAssertions batch
      match status with
      | .continue => return .again { self with input, coalescer }
      | .batchFull => return .again { input, coalescer, innerState := .returnBuffer }
      | .endReached => return .again { input, coalescer, innerState := .exhausted }
    | (.ready none, input) => .ok (.again { self with input, innerState := .exhausted })
    | (other, input) => .ok (.done other { self with input })
  | .returnBuffer =>
    let (batch, coalescer) := self.coalescer.finishBatch
    .ok (.done (.ready (some (.ok batch))) { self with coalescer, innerState := .pull })
  | .exhausted =>
    if self.coalescer.isEmpty then .ok (.done (.ready none) self)
    else
      let (batch, coalescer) := self.coalescer.finishBatch
      .ok (.done (.ready (some (.ok batch))) { self with coalescer })

def weight (self : SizedCoalesceBatchesStream R ε) : Nat :=
  match self.innerState with
  | .pull => self.input.polls.length + 1
  | .returnBuffer | .exhausted => 0

theorem turn_weight {debugAssertions : Bool} {self s : SizedCoalesceBatchesStream R ε}
    (h : self.turn debugAssertions = .ok (.again s)) : s.weight < self.weight := by
  obtain ⟨⟨polls, ended⟩, coalescer, innerState⟩ := self
  cases innerState with
  | pull =>
    cases polls with
    | nil =>
      cases h
      exact Nat.zero_lt_one
    | cons item rest =>
      rcases item with - | e | batch
      · cases h
      · cases h
      · simp only [turn, Input.pollNext, bind, Except.bind] at h
        cases hp : coalescer.pushBatch debugAssertions batch with
        | error p =>
          rw [hp] at h
          cases h
        | ok r =>
          obtain ⟨status, c⟩ := r
          rw [hp] at h
          cases status <;> cases h <;> simp [weight]
  | returnBuffer => cases h
  | exhausted =>
    simp only [turn] at h
    split at h <;> cases h

def pollNextInner (debugAssertions : Bool) (self : SizedCoalesceBatchesStream R ε) :
    Except Panic (Poll (Option (Except ε R.Batch)) × SizedCoalesceBatchesStream R ε) :=
  match _h : self.turn debugAssertions with
  | .error p => .error p
  | .ok (.again s) => s.pollNextInner debugAssertions
  | .ok (.done poll s) => .ok (poll, s)
termination_by self.weight
decreasing_by exact turn_weight _h

def runPolls (debugAssertions : Bool) (self : SizedCoalesceBatchesStream R ε) : Nat →
    Except Panic (List (Poll (Option (Except ε R.Batch))) × SizedCoalesceBatchesStream R ε)
  | 0 => .ok ([], self)
  | n + 1 => do
    let (poll, self) ← self.pollNextInner debugAssertions
    let (polls, self) ← self.runPolls debugAssertions n
    return (poll :: polls, self)

end SizedCoalesceBatchesStream

end DimosViewer.BatchCoalescer
