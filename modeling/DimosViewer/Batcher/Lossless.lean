import DimosViewer.Batcher.Thread

/-!
# Batching loses nothing

What was appended has been sent or is still pending. Rows that end up in one chunk have to agree
on the types of their timelines and the datatypes of their components: a chunk has one of each.
-/

namespace DimosViewer

open Grouping Reach

variable {sizeBytes : PendingRow → Nat} {newId : Nat → ChunkId}

variable (newId) in
theorem Accumulator.doFlushAll_perm {acc : Accumulator} {maxRows : Nat}
    (hagree : ∀ piece ∈ PendingRow.pieces maxRows acc.pendingRows, PendingRow.Agree piece)
    (n : Nat) :
    (acc.doFlushAll newId n maxRows).1.pendingRows = [] ∧
      (acc.doFlushAll newId n maxRows).1.entityPath = acc.entityPath ∧
      ((acc.doFlushAll newId n maxRows).2.1.flatMap (·.loggedRows)).Perm
        (PendingRow.loggedRows acc.entityPath acc.pendingRows) := by
  rw [Accumulator.doFlushAll]
  split
  case isTrue hnil =>
    refine ⟨hnil, rfl, ?_⟩
    rw [hnil]
    exact .nil
  case isFalse => exact ⟨rfl, rfl, PendingRow.manyIntoChunks_perm hagree newId n acc.entityPath⟩

theorem flatMap_replaceEntry_perm {κ β γ : Type} [DecidableEq κ] [BEq κ] [LawfulBEq κ] (k : κ)
    (v : β) (g : β → List γ) (d : β) (hd : g d = []) (l : List (κ × β)) :
    ((upsertEntry k v (fun _ => v) l).flatMap (g ·.2) ++ g ((l.lookup k).getD d)).Perm
      (l.flatMap (g ·.2) ++ g v) := by
  induction l with
  | nil => simp [upsertEntry, hd]
  | cons entry rest ih =>
    obtain ⟨k', v'⟩ := entry
    rw [upsertEntry, OrdMap.lookup_cons]
    by_cases h : k' = k
    · subst h
      simp only [if_true, List.flatMap_cons, Option.getD_some, List.append_assoc]
      refine List.perm_append_comm.trans ?_
      rw [← List.append_assoc (g v')]
      exact List.perm_append_comm.append_right _
    · simp only [if_neg h, if_neg (Ne.symm h), List.flatMap_cons, List.append_assoc]
      exact ih.append_left _

namespace BatcherEvent

def appended : BatcherEvent → List LoggedRow
  | .command (.appendChunk chunk) => if chunk.components = [] then [] else chunk.loggedRows
  | .command (.appendRow entityPath row) => PendingRow.loggedRows entityPath [row]
  | _ => []

def flushesAll : BatcherEvent → Bool
  | .command .flush => true
  | .command .shutdown => true
  | .disconnected => true
  | _ => false

end BatcherEvent

namespace BatchingThread

def flushed (sizeBytes : PendingRow → Nat) (s : BatchingThread) :
    BatcherEvent → List (List PendingRow)
  | .command (.appendRow entityPath row) =>
    let acc := s.pushed sizeBytes entityPath row
    if acc.isFull s.config then [acc.pendingRows] else []
  | .tick => if s.skipNextTick then [] else s.accs.map (·.2.pendingRows)
  | event => if event.flushesAll then s.accs.map (·.2.pendingRows) else []

/-- No two rows that this event puts into one chunk differ in the type of a timeline or in the
datatype of a component. -/
def Agrees (sizeBytes : PendingRow → Nat) (s : BatchingThread) (event : BatcherEvent) : Prop :=
  ∀ rows ∈ s.flushed sizeBytes event,
    ∀ piece ∈ PendingRow.pieces s.config.chunkMaxRowsIfUnsorted rows, PendingRow.Agree piece

instance : Decidable (Agrees sizeBytes s event) := by
  unfold Agrees
  infer_instance

def AgreeingStep (sizeBytes : PendingRow → Nat) (newId : Nat → ChunkId) (s : BatchingThread)
    (events : List BatcherEvent) (s' : BatchingThread) : Prop :=
  ∃ event, events = [event] ∧ s.running = true ∧ s.Agrees sizeBytes event ∧
    s' = s.step sizeBytes newId event

def sentRows (s : BatchingThread) : List LoggedRow := s.txChunk.flatMap (·.loggedRows)

def pendingRows (s : BatchingThread) : List LoggedRow :=
  s.accs.flatMap fun entry => PendingRow.loggedRows entry.2.entityPath entry.2.pendingRows

def WellKept (s : BatchingThread) : Prop := ∀ entry ∈ s.accs, entry.2.entityPath = entry.1

variable {s : BatchingThread}

variable (newId) in
theorem foldl_flush {accs : List (EntityPath × Accumulator)}
    (hagree : ∀ entry ∈ accs, ∀ piece ∈ PendingRow.pieces s.config.chunkMaxRowsIfUnsorted
      entry.2.pendingRows, PendingRow.Agree piece)
    (hkept : ∀ entry ∈ accs, entry.2.entityPath = entry.1) :
    let s' := accs.foldl (fun s (entityPath, acc) =>
      let (acc, chunks, n) := acc.doFlushAll newId s.nextId s.config.chunkMaxRowsIfUnsorted
      { s with accs := s.accs ++ [(entityPath, acc)], txChunk := s.txChunk ++ chunks, nextId := n })
      s
    s'.sentRows.Perm (s.sentRows ++
        accs.flatMap fun entry => PendingRow.loggedRows entry.2.entityPath entry.2.pendingRows) ∧
      ∀ entry ∈ s'.accs, entry ∈ s.accs ∨ entry.2.pendingRows = [] ∧ entry.2.entityPath = entry.1 := by
  induction accs generalizing s with
  | nil => exact ⟨by simp, fun entry he => .inl he⟩
  | cons entry rest ih =>
    obtain ⟨entityPath, acc⟩ := entry
    have hflush := acc.doFlushAll_perm newId (hagree _ List.mem_cons_self) s.nextId
    obtain ⟨hsent, haccs⟩ := ih (s := { s with
      accs := s.accs ++
        [(entityPath, (acc.doFlushAll newId s.nextId s.config.chunkMaxRowsIfUnsorted).1)]
      txChunk := s.txChunk ++ (acc.doFlushAll newId s.nextId s.config.chunkMaxRowsIfUnsorted).2.1
      nextId := (acc.doFlushAll newId s.nextId s.config.chunkMaxRowsIfUnsorted).2.2 })
      (fun e he => hagree e (List.mem_cons_of_mem _ he))
      (fun e he => hkept e (List.mem_cons_of_mem _ he))
    refine ⟨hsent.trans ?_, fun e he => ?_⟩
    · simp only [sentRows, List.flatMap_append, List.flatMap_cons, List.append_assoc]
      exact (hflush.2.2.append_right _).append_left _
    · rcases haccs e he with he | he
      · rcases List.mem_append.mp he with he | he
        · exact .inl he
        · rw [List.mem_singleton.mp he]
          exact .inr ⟨hflush.1, hflush.2.1.trans (hkept _ List.mem_cons_self)⟩
      · exact .inr he

variable (newId) in
theorem flushAccs_perm (hkept : s.WellKept)
    (hagree : ∀ rows ∈ s.accs.map (·.2.pendingRows),
      ∀ piece ∈ PendingRow.pieces s.config.chunkMaxRowsIfUnsorted rows, PendingRow.Agree piece) :
    (s.flushAccs newId).sentRows.Perm (s.sentRows ++ s.pendingRows) ∧
      (s.flushAccs newId).pendingRows = [] ∧ (s.flushAccs newId).WellKept := by
  obtain ⟨hsent, haccs⟩ := foldl_flush newId (s := { s with accs := [] })
    (fun entry he => hagree _ (List.mem_map_of_mem he)) hkept
  refine ⟨hsent, ?_, fun entry he => ((haccs entry he).resolve_left List.not_mem_nil).2⟩
  refine List.flatMap_eq_nil_iff.mpr fun entry he => ?_
  rw [((haccs entry he).resolve_left List.not_mem_nil).1]
  rfl

variable (sizeBytes) in
theorem pushed_entityPath (hkept : s.WellKept) (entityPath : EntityPath) (row : PendingRow) :
    (s.pushed sizeBytes entityPath row).entityPath = entityPath := by
  rw [pushed, Accumulator.doPushRow]
  cases hlookup : s.accs.lookup entityPath with
  | none => rfl
  | some acc => exact hkept _ (mem_of_lookup hlookup)

variable (sizeBytes) in
theorem pendingRows_upsertEntry (hkept : s.WellKept) (entityPath : EntityPath)
    (row : PendingRow) (acc : Accumulator) :
    ({ s with accs := upsertEntry entityPath acc (fun _ => acc) s.accs }.pendingRows ++
        PendingRow.loggedRows entityPath (s.pushed sizeBytes entityPath row).pendingRows).Perm
      (s.pendingRows ++ PendingRow.loggedRows entityPath [row] ++
        PendingRow.loggedRows acc.entityPath acc.pendingRows) := by
  have hold : ((s.accs.lookup entityPath).getD ⟨entityPath, [], 0⟩).entityPath = entityPath :=
    pushed_entityPath (fun _ => 0) hkept entityPath row
  have hperm := flatMap_replaceEntry_perm entityPath acc
    (fun acc => PendingRow.loggedRows acc.entityPath acc.pendingRows) ⟨entityPath, [], 0⟩ rfl s.accs
  simp only [hold] at hperm
  rw [pushed, Accumulator.doPushRow, PendingRow.loggedRows_append, ← List.append_assoc]
  refine (hperm.append_right _).trans ?_
  rw [List.append_assoc, List.append_assoc]
  exact List.perm_append_comm.append_left _

theorem wellKept_upsertEntry (hkept : s.WellKept) {acc : Accumulator}
    (h : acc.entityPath = entityPath) :
    { s with accs := upsertEntry entityPath acc (fun _ => acc) s.accs }.WellKept := by
  intro entry he
  rcases mem_upsertEntry he with he | rfl
  · exact hkept entry he
  · exact h

variable (newId) in
theorem appendRow_perm (hkept : s.WellKept)
    (hagree : s.Agrees sizeBytes (.command (.appendRow entityPath row))) :
    ((s.appendRow sizeBytes newId entityPath row).sentRows ++
        (s.appendRow sizeBytes newId entityPath row).pendingRows).Perm
        (s.sentRows ++ s.pendingRows ++ PendingRow.loggedRows entityPath [row]) ∧
      (s.appendRow sizeBytes newId entityPath row).WellKept := by
  have hpath : (s.pushed sizeBytes entityPath row).entityPath = entityPath :=
    pushed_entityPath sizeBytes hkept entityPath row
  simp only [appendRow]
  by_cases hfull : (s.pushed sizeBytes entityPath row).isFull s.config = true
  · rw [if_pos hfull]
    obtain ⟨hnil, hkeeps, hsent⟩ := (s.pushed sizeBytes entityPath row).doFlushAll_perm
      newId (fun piece hp => hagree _ (by simp [flushed, hfull]) piece hp) s.nextId
    refine ⟨?_, wellKept_upsertEntry hkept (hkeeps.trans hpath)⟩
    have hpending := pendingRows_upsertEntry sizeBytes hkept entityPath row
      ((s.pushed sizeBytes entityPath row).doFlushAll newId s.nextId
        s.config.chunkMaxRowsIfUnsorted).1
    rw [hnil] at hpending
    rw [hpath] at hsent
    simp only [sentRows, List.flatMap_append, List.append_assoc]
    refine (List.perm_append_comm.trans ?_).append_left _
    have hheld := (hsent.append_left _).trans hpending
    rw [PendingRow.loggedRows_nil, List.append_nil] at hheld
    exact hheld
  · rw [if_neg hfull]
    refine ⟨?_, wellKept_upsertEntry hkept hpath⟩
    have hpending := pendingRows_upsertEntry sizeBytes hkept entityPath row
      (s.pushed sizeBytes entityPath row)
    rw [hpath, List.perm_append_right_iff] at hpending
    rw [List.append_assoc]
    exact hpending.append_left s.sentRows

variable (newId) in
theorem flushAccs_held (hkept : s.WellKept)
    (hagree : ∀ rows ∈ s.accs.map (·.2.pendingRows),
      ∀ piece ∈ PendingRow.pieces s.config.chunkMaxRowsIfUnsorted rows, PendingRow.Agree piece) :
    ((s.flushAccs newId).sentRows ++ (s.flushAccs newId).pendingRows).Perm
        (s.sentRows ++ s.pendingRows ++ []) ∧
      (s.flushAccs newId).WellKept ∧ (s.flushAccs newId).pendingRows = [] := by
  obtain ⟨hsent, hnil, hkept'⟩ := flushAccs_perm newId hkept hagree
  refine ⟨?_, hkept', hnil⟩
  rwa [hnil, List.append_nil, List.append_nil]

variable (newId) in
/-- What is sent and what is pending, after one event. -/
theorem step_perm (hkept : s.WellKept) (hagree : s.Agrees sizeBytes event) :
    ((s.step sizeBytes newId event).sentRows ++ (s.step sizeBytes newId event).pendingRows).Perm
        (s.sentRows ++ s.pendingRows ++ event.appended) ∧
      (s.step sizeBytes newId event).WellKept ∧
      (event.flushesAll = true → (s.step sizeBytes newId event).pendingRows = []) := by
  cases event with
  | disconnected =>
    obtain ⟨hperm, hkept, hnil⟩ := flushAccs_held newId hkept hagree
    exact ⟨hperm, hkept, fun _ => hnil⟩
  | tick =>
    rw [step]
    split
    case isTrue => exact ⟨by simp [BatcherEvent.appended, sentRows, pendingRows], hkept, by rintro ⟨⟩⟩
    case isFalse hskip =>
      have hflushed : s.flushed sizeBytes .tick = s.accs.map (·.2.pendingRows) := if_neg hskip
      obtain ⟨hperm, hkept, -⟩ := flushAccs_held newId hkept
        fun rows hr => hagree rows (hflushed ▸ hr)
      exact ⟨hperm, hkept, by rintro ⟨⟩⟩
  | command cmd =>
    cases cmd with
    | appendChunk chunk =>
      refine ⟨?_, hkept, by rintro ⟨⟩⟩
      have hsent : (Chunk.sendable (.ok chunk)).toList.flatMap (·.loggedRows) =
          BatcherEvent.appended (.command (.appendChunk chunk)) := by
        rw [Chunk.sendable, BatcherEvent.appended]
        split <;> simp
      simp only [step, sentRows, List.flatMap_append, hsent, List.append_assoc]
      exact List.perm_append_comm.append_left _
    | appendRow entityPath row =>
      obtain ⟨hperm, hkept⟩ := appendRow_perm newId hkept hagree
      exact ⟨hperm, hkept, by rintro ⟨⟩⟩
    | flush =>
      obtain ⟨hperm, hkept, hnil⟩ := flushAccs_held newId
        (s := { s with skipNextTick := true }) hkept hagree
      exact ⟨hperm, hkept, fun _ => hnil⟩
    | updateConfig config =>
      exact ⟨by simp [step, BatcherEvent.appended, sentRows, pendingRows], hkept, by rintro ⟨⟩⟩
    | shutdown =>
      obtain ⟨hperm, hkept, hnil⟩ := flushAccs_held newId hkept hagree
      exact ⟨hperm, hkept, fun _ => hnil⟩

/-- Along a run, what is sent and what is pending is what was appended. -/
theorem held_perm_appended {config : ChunkBatcherConfig}
    (h : Trace (AgreeingStep sizeBytes newId) { config } events s) :
    (s.sentRows ++ s.pendingRows).Perm (events.flatMap (·.appended)) ∧ s.WellKept := by
  induction h with
  | refl => exact ⟨.nil, nofun⟩
  | tail _ hstep ih =>
    obtain ⟨event, rfl, -, hagree, rfl⟩ := hstep
    obtain ⟨hperm, hkept, -⟩ := step_perm newId ih.2 hagree
    refine ⟨hperm.trans ?_, hkept⟩
    rw [List.flatMap_append, List.flatMap_singleton]
    exact ih.1.append_right _

/-- Once a flush is acknowledged or the thread has shut down, every row that was appended has
been sent exactly once as it was, and nothing else has. -/
theorem sent_perm_appended {config : ChunkBatcherConfig} {events : List BatcherEvent}
    (h : Trace (AgreeingStep sizeBytes newId) { config } events s)
    (hlast : events.getLast?.any (·.flushesAll) = true) :
    s.sentRows.Perm (events.flatMap (·.appended)) := by
  cases h with
  | refl => cases hlast
  | tail hrun hstep =>
    obtain ⟨event, rfl, hrunning, hagree, rfl⟩ := hstep
    obtain ⟨hperm, -, hnil⟩ := step_perm newId (held_perm_appended hrun).2 hagree
    have hall := (held_perm_appended (hrun.tail ⟨event, rfl, hrunning, hagree, rfl⟩)).1
    rw [hnil (by simpa using hlast), List.append_nil] at hall
    exact hall

def frameRow (typ : TimeType) (rowId : RowId) : PendingRow where
  rowId
  timepoint := ⟨[("frame", ⟨typ, .ZERO, by decide⟩)], List.pairwise_singleton _ _⟩
  components := [⟨"points", ⟨"Float32", []⟩⟩]
  nodup := PendingRow.nodup_points

def frameRows (typ typ' : TimeType) : List BatcherEvent :=
  [.command (.appendRow ["world"] (frameRow typ 1)),
    .command (.appendRow ["world"] (frameRow typ' 2)), .command .flush]

theorem sent_perm_appended_two :
    let s : BatchingThread := (frameRows .sequence .sequence).foldl (step (fun _ => 0) id)
      { config := .DEFAULT }
    s.sentRows.Perm ((frameRows .sequence .sequence).flatMap (·.appended)) := by
  let step (s : BatchingThread) (event : BatcherEvent) := s.step (fun _ => 0) id event
  have hstep (s : BatchingThread) (event : BatcherEvent) (hr : s.running = true)
      (ha : s.Agrees (fun _ => 0) event) :
      AgreeingStep (fun _ => 0) id s [event] (step s event) := ⟨event, rfl, hr, ha, rfl⟩
  exact sent_perm_appended
    (((Trace.refl.tail (hstep _ _ rfl (by decide +kernel))).tail
      (hstep _ _ rfl (by decide +kernel))).tail (hstep _ _ rfl (by decide +kernel))) rfl

/-- Two timelines of one name and different types get the type of the first. -/
theorem retyped_by_first :
    let s : BatchingThread := (frameRows .sequence .timestampNs).foldl (step (fun _ => 0) id)
      { config := .DEFAULT }
    ¬ s.sentRows.Perm ((frameRows .sequence .timestampNs).flatMap (·.appended)) := by
  intro s h
  have htimes := h.map (·.time "frame")
  revert htimes
  decide +kernel

end BatchingThread

end DimosViewer
