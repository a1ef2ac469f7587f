import DimosViewer.Store.Run
import DimosViewer.Chunk.MergeLaws

/-!
# The indices as one family of slots

A slot is one `ChunkIdSetPerTime`: that of a component, or that of a whole time
column. What an insertion or a removal does to the nested maps is a change of the
slots of one chunk.
-/

namespace DimosViewer

open Std (TreeMap)

-- ---------------------------------------------------------------------------
-- One slot
-- ---------------------------------------------------------------------------

namespace ChunkIdSetPerTime

def startIds (p : ChunkIdSetPerTime) (time : TimeInt) : ChunkIdSet :=
  OrdMap.setAt p.perStartTime time

def endIds (p : ChunkIdSetPerTime) (time : TimeInt) : ChunkIdSet :=
  OrdMap.setAt p.perEndTime time

@[simp] theorem mem_startIds_insertRange {p : ChunkIdSetPerTime} :
    x ∈ (p.insertRange cid range).startIds time ↔
      (range.min = time ∧ x = cid) ∨ x ∈ p.startIds time :=
  OrdMap.mem_setAt_insertAt

@[simp] theorem mem_endIds_insertRange {p : ChunkIdSetPerTime} :
    x ∈ (p.insertRange cid range).endIds time ↔
      (range.max = time ∧ x = cid) ∨ x ∈ p.endIds time :=
  OrdMap.mem_setAt_insertAt

@[simp] theorem mem_startIds_removeRange {p : ChunkIdSetPerTime} :
    x ∈ (p.removeRange cid range).startIds time ↔
      ¬ (range.min = time ∧ x = cid) ∧ x ∈ p.startIds time :=
  OrdMap.mem_setAt_eraseAt

@[simp] theorem mem_endIds_removeRange {p : ChunkIdSetPerTime} :
    x ∈ (p.removeRange cid range).endIds time ↔
      ¬ (range.max = time ∧ x = cid) ∧ x ∈ p.endIds time :=
  OrdMap.mem_setAt_eraseAt

@[simp] theorem not_mem_startIds_default : x ∉ (default : ChunkIdSetPerTime).startIds time :=
  OrdMap.not_mem_setAt_empty

@[simp] theorem not_mem_endIds_default : x ∉ (default : ChunkIdSetPerTime).endIds time :=
  OrdMap.not_mem_setAt_empty

theorem hasKeys_of_mem_startIds {p : ChunkIdSetPerTime} (h : x ∈ p.startIds range.min) :
    p.hasKeys range := by
  rw [hasKeys, OrdMap.contains_of_mem_setAt h, Bool.true_or]

end ChunkIdSetPerTime

-- ---------------------------------------------------------------------------
-- All slots of a store
-- ---------------------------------------------------------------------------

inductive Slot where
  | component : EntityPath → TimelineName → ComponentIdentifier → Slot
  | entity : EntityPath → TimelineName → Slot
deriving DecidableEq

def Slot.entityPath : Slot → EntityPath
  | .component e _ _ => e
  | .entity e _ => e

def Slot.timeline : Slot → TimelineName
  | .component _ timeline _ => timeline
  | .entity _ timeline => timeline

def Chunk.rangeAt (c : Chunk) : Slot → Option AbsoluteTimeRange
  | .component e timeline component =>
    if c.entityPath = e then
      (c.timeline? timeline).bind fun tc => (c.components.get component).bind tc.timeRangeOf
    else none
  | .entity e timeline =>
    if c.entityPath = e then (c.timeline? timeline).map (·.timeRange) else none

theorem Chunk.isStatic_eq_false_of_rangeAt {c : Chunk} {slot : Slot} {range : AbsoluteTimeRange}
    (h : c.rangeAt slot = some range) : c.isStatic = false := by
  cases ht : c.timelines with
  | nil => cases slot <;> simp [rangeAt, timeline?, ht] at h
  | cons entry rest => rw [isStatic, ht, List.isEmpty_cons]

def ChunkStore.at (s : ChunkStore) : Slot → ChunkIdSetPerTime
  | .component e timeline component =>
    ((s.temporalChunkIdsPerEntityPerComponent.getD e default).getD timeline default).getD
      component default
  | .entity e timeline => (s.temporalChunkIdsPerEntity.getD e default).getD timeline default

-- ---------------------------------------------------------------------------
-- What the index updates do to the slots
-- ---------------------------------------------------------------------------

namespace ChunkStore

theorem at_removeFromIndices (h : Chunk.WellFormed c) (s : ChunkStore) (slot : Slot) :
    (s.removeFromIndices c).at slot =
      (c.rangeAt slot).elim (s.at slot) ((s.at slot).removeRange c.id) := by
  cases slot with
  | entity e timeline =>
    simp only [removeFromIndices, «at», removePerEntity, Chunk.rangeAt]
    rw [OrdMap.getD_modify _ _ _ _ (OrdMap.modifyAll_default _ _)]
    by_cases he : c.entityPath = e
    · rw [if_pos he, if_pos he, OrdMap.getD_modifyAll _ (fun _ => rfl) h.timelines_nodup, he,
        Chunk.timeline?]
      cases c.timelines.lookup timeline <;> rfl
    · rw [if_neg he, if_neg he, Option.elim_none]
  | component e timeline component =>
    simp only [removeFromIndices, «at», removePerComponent, Chunk.rangeAt]
    rw [OrdMap.getD_modify _ _ _ _ (OrdMap.modifyAll_default _ _)]
    by_cases he : c.entityPath = e
    · rw [if_pos he, if_pos he, OrdMap.getD_modifyAll _ (fun _ => OrdMap.modifyAll_default _ _)
        (c.nodup_timeRangePerComponent h), c.lookup_timeRangePerComponent, he]
      cases c.timeline? timeline with
      | none => rfl
      | some tc =>
        rw [Option.map_some, Option.bind_some, ← tc.lookup_timeRangePerComponent h.components_nodup]
        exact OrdMap.getD_modifyAll (fun range (p : ChunkIdSetPerTime) => p.removeRange c.id range)
          (fun _ => rfl) (tc.nodup_timeRangePerComponent h.components_nodup) _ _
    · rw [if_neg he, if_neg he, Option.elim_none]

theorem at_insertIntoIndices (env : Env) (h : Chunk.WellFormed c) (s : ChunkStore)
    (slot : Slot) :
    (s.insertIntoIndices env c).at slot =
      (c.rangeAt slot).elim (s.at slot) ((s.at slot).insertRange c.id) := by
  cases slot with
  | entity e timeline =>
    simp only [insertIntoIndices, «at», insertPerEntity, Chunk.rangeAt]
    rw [OrdMap.getD_upsert]
    by_cases he : c.entityPath = e
    · rw [if_pos he, if_pos he, OrdMap.getD_upsertAll _ h.timelines_nodup, he, Chunk.timeline?]
      cases c.timelines.lookup timeline <;> rfl
    · rw [if_neg he, if_neg he, Option.elim_none]
  | component e timeline component =>
    simp only [insertIntoIndices, «at», insertPerComponent, Chunk.rangeAt]
    rw [OrdMap.getD_upsert]
    by_cases he : c.entityPath = e
    · rw [if_pos he, if_pos he, OrdMap.getD_upsertAll _ (c.nodup_timeRangePerComponent h),
        c.lookup_timeRangePerComponent, he]
      cases c.timeline? timeline with
      | none => rfl
      | some tc =>
        rw [Option.map_some, Option.bind_some, ← tc.lookup_timeRangePerComponent h.components_nodup]
        exact OrdMap.getD_upsertAll (fun range (p : ChunkIdSetPerTime) => p.insertRange c.id range)
          (tc.nodup_timeRangePerComponent h.components_nodup) _ _
    · rw [if_neg he, if_neg he, Option.elim_none]

end ChunkStore

end DimosViewer
