import DimosViewer.Batcher.ChunkLaws
import DimosViewer.Reach

/-!
# The batching thread

Rows gather under their entity until there are enough of them, a tick passes or someone asks.
Every way of flushing ends in the same place, so a run loses no row whose flush loses none.
-/

namespace DimosViewer

open Grouping Reach

/-- The thresholds. The tick itself is an event. -/
structure ChunkBatcherConfig where
  flushNumBytes : Nat
  flushNumRows : Nat
  chunkMaxRowsIfUnsorted : Nat

def ChunkBatcherConfig.DEFAULT : ChunkBatcherConfig := ⟨1024 * 1024, 2 ^ 64 - 1, 256⟩

structure Accumulator where
  entityPath : EntityPath
  pendingRows : List PendingRow := []
  pendingNumBytes : Nat := 0

inductive Command where
  | appendChunk (chunk : Chunk)
  | appendRow (entityPath : EntityPath) (row : PendingRow)
  | flush
  | updateConfig (config : ChunkBatcherConfig)
  | shutdown

/-- What the thread waits for. It is disconnected when all senders are gone. -/
inductive BatcherEvent where
  | command (cmd : Command)
  | disconnected
  | tick

namespace Accumulator

def doPushRow (sizeBytes : PendingRow → Nat) (acc : Accumulator) (row : PendingRow) : Accumulator :=
  { acc with
    pendingRows := acc.pendingRows ++ [row]
    pendingNumBytes := acc.pendingNumBytes + sizeBytes row }

def isFull (acc : Accumulator) (config : ChunkBatcherConfig) : Bool :=
  config.flushNumRows ≤ acc.pendingRows.length || config.flushNumBytes ≤ acc.pendingNumBytes

/-- The accumulator, what goes down the channel, and the next id. -/
def doFlushAll (newId : Nat → ChunkId) (n : Nat) (chunkMaxRowsIfUnsorted : Nat)
    (acc : Accumulator) : Accumulator × List Chunk × Nat :=
  if acc.pendingRows = [] then (acc, [], n)
  else
    let (chunks, n) :=
      PendingRow.manyIntoChunks newId n acc.entityPath chunkMaxRowsIfUnsorted acc.pendingRows
    ({ acc with pendingRows := [], pendingNumBytes := 0 }, chunks.filterMap Chunk.sendable, n)

end Accumulator

structure BatchingThread where
  config : ChunkBatcherConfig
  accs : List (EntityPath × Accumulator) := []
  skipNextTick : Bool := false
  /-- The chunks sent so far. -/
  txChunk : List Chunk := []
  /-- The number of flushes acknowledged so far. -/
  onDone : Nat := 0
  running : Bool := true
  nextId : Nat := 0

namespace BatchingThread

section Thread

variable (sizeBytes : PendingRow → Nat) (newId : Nat → ChunkId)

def flushAccs (s : BatchingThread) : BatchingThread :=
  s.accs.foldl (fun s (entityPath, acc) =>
    let (acc, chunks, n) := acc.doFlushAll newId s.nextId s.config.chunkMaxRowsIfUnsorted
    { s with accs := s.accs ++ [(entityPath, acc)], txChunk := s.txChunk ++ chunks, nextId := n })
    { s with accs := [] }

def pushed (s : BatchingThread) (entityPath : EntityPath) (row : PendingRow) : Accumulator :=
  ((s.accs.lookup entityPath).getD ⟨entityPath, [], 0⟩).doPushRow sizeBytes row

def appendRow (s : BatchingThread) (entityPath : EntityPath) (row : PendingRow) : BatchingThread :=
  let acc := s.pushed sizeBytes entityPath row
  if acc.isFull s.config then
    let (acc, chunks, n) := acc.doFlushAll newId s.nextId s.config.chunkMaxRowsIfUnsorted
    { s with
      accs := upsertEntry entityPath acc (fun _ => acc) s.accs
      txChunk := s.txChunk ++ chunks
      nextId := n
      skipNextTick := true }
  else { s with accs := upsertEntry entityPath acc (fun _ => acc) s.accs }

def step (s : BatchingThread) : BatcherEvent → BatchingThread
  | .command (.appendChunk chunk) =>
    { s with txChunk := s.txChunk ++ (Chunk.sendable (.ok chunk)).toList }
  | .command (.appendRow entityPath row) => s.appendRow sizeBytes newId entityPath row
  | .command .flush =>
    let s := { s with skipNextTick := true }.flushAccs newId
    { s with onDone := s.onDone + 1 }
  | .command (.updateConfig config) => { s with config }
  | .command .shutdown => { s.flushAccs newId with running := false }
  | .disconnected => { s.flushAccs newId with running := false }
  | .tick => if s.skipNextTick then { s with skipNextTick := false } else s.flushAccs newId

end Thread

end BatchingThread

end DimosViewer
