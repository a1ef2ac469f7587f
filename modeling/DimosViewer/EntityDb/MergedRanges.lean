import DimosViewer.OrdMap
import DimosViewer.Chunk.Basic
import Mathlib.Data.Finset.Sort

/-!
# Time ranges that depend on chunks

The time ranges of chunks are merged into segments without gaps or overlaps. Each
segment counts the chunks that still have to be loaded for it.
-/

namespace DimosViewer

open Std (TreeMap)

-- ---------------------------------------------------------------------------
-- Merging
-- ---------------------------------------------------------------------------

structure TimeRange where
  range : AbsoluteTimeRange
  dependsOn : Finset ChunkId
deriving DecidableEq

namespace TimeRange

def ofChunk (chunk : ChunkId) (range : AbsoluteTimeRange) : TimeRange := ⟨range, {chunk}⟩

/-- The order in which the heap is emptied, the shorter one first among equal starts. -/
def precedes (a b : TimeRange) : Bool :=
  a.range.min < b.range.min ∨
    a.range.min = b.range.min ∧ a.range.absLength ≤ b.range.absLength

end TimeRange

/-- `BinaryHeap::pop`. What ties is popped in the order of the list. -/
def popIncoming : List TimeRange → Option (TimeRange × List TimeRange)
  | [] => none
  | range :: rest =>
    match popIncoming rest with
    | none => some (range, [])
    | some (best, others) =>
      if range.precedes best then some (range, rest) else some (best, range :: others)

/-- The latest new range first. -/
structure Ranges where
  new : List TimeRange := []
  incoming : List TimeRange

namespace Ranges

def delayed (last range : TimeRange) : List TimeRange :=
  if last.range.max < range.range.max then
    [⟨⟨last.range.max, range.range.max⟩, range.dependsOn⟩]
  else if range.range.max < last.range.max then
    [⟨⟨range.range.max, last.range.max⟩, last.dependsOn⟩]
  else []

def push (ranges : Ranges) (range : TimeRange) : Ranges :=
  match ranges.new with
  | [] => { ranges with new := [range] }
  | last :: before =>
    if last.dependsOn = range.dependsOn then
      { ranges with
        new := { last with range.max := max last.range.max range.range.max } :: before }
    else if last.range.max ≤ range.range.min then
      { ranges with new := range :: { last with range.max := range.range.min } :: before }
    else if last.range.min = range.range.min then
      { new := ⟨⟨last.range.min, min last.range.max range.range.max⟩,
          last.dependsOn ∪ range.dependsOn⟩ :: before
        incoming := delayed last range ++ ranges.incoming }
    else
      { new := ⟨⟨range.range.min, min range.range.max last.range.max⟩,
            last.dependsOn ∪ range.dependsOn⟩ ::
          { last with range.max := range.range.min } :: before
        incoming := delayed last range ++ ranges.incoming }

/-- At least how often the heap can be popped. -/
def weight (range : TimeRange) : Nat :=
  2 * (TimeInt.MAX.asI64 - range.range.min.asI64).toNat + 2

def mergeIn : Nat → Ranges → Ranges
  | 0, ranges => ranges
  | fuel + 1, ranges =>
    match popIncoming ranges.incoming with
    | none => ranges
    | some (range, incoming) => mergeIn fuel (push { ranges with incoming } range)

end Ranges

def mergeRanges (ranges : List TimeRange) : List TimeRange :=
  (Ranges.mergeIn (ranges.map Ranges.weight).sum { incoming := ranges }).new.reverse

-- ---------------------------------------------------------------------------
-- Segments
-- ---------------------------------------------------------------------------

/-- `EntityPathHash` is taken for the path itself. -/
structure ComponentPathKey where
  entityPath : EntityPath
  component : ComponentIdentifier
deriving DecidableEq

/-- A segment starts where the one before it ends. No count means that no component is of
interest. -/
structure ResolvedRange where
  endTime : TimeInt
  unloadedCount : Option Nat := none
deriving DecidableEq

/-- The segments of a chunk are given by their first and last index. -/
structure MergedRanges where
  startTime : TimeInt
  ranges : List ResolvedRange
  rangesFromChunk : TreeMap ChunkId (Nat × Nat)
  componentsOfInterest : Finset ComponentPathKey := ∅

abbrev ComponentPaths := TreeMap ChunkId (List ComponentPathKey)

namespace MergedRanges

def isChunkInteresting (m : MergedRanges) (paths : ComponentPaths) (chunk : ChunkId) : Bool :=
  (paths[chunk]?).any fun keys => keys.any fun key => key ∈ m.componentsOfInterest

def modifyCounts (segments : Nat × Nat) (f : Option Nat → Option Nat)
    (ranges : List ResolvedRange) : List ResolvedRange :=
  ranges.mapIdx fun idx range =>
    if segments.1 ≤ idx ∧ idx ≤ segments.2 then
      { range with unloadedCount := f range.unloadedCount }
    else range

def updateComponentsOfInterest (m : MergedRanges) (interest : Finset ComponentPathKey)
    (paths : ComponentPaths) (isUnloaded : ChunkId → Bool) : MergedRanges :=
  if m.componentsOfInterest = interest then m
  else
    let m : MergedRanges := { m with
      componentsOfInterest := interest
      ranges := m.ranges.map fun range => { range with unloadedCount := none } }
    { m with
      ranges := (m.rangesFromChunk.toList.filter fun entry =>
          m.isChunkInteresting paths entry.1).foldl
        (fun ranges (chunk, segments) => modifyCounts segments
          (fun count => some (count.getD 0 + if isUnloaded chunk then 1 else 0)) ranges)
        m.ranges }

/-- The first index of a chunk is kept, its last index grows. -/
def indexRange (rangesFromChunk : TreeMap ChunkId (Nat × Nat)) (idx : Nat) (range : TimeRange) :
    TreeMap ChunkId (Nat × Nat) :=
  range.dependsOn.sort.foldl (fun rangesFromChunk chunk =>
    rangesFromChunk.alter chunk fun
      | some (first, _) => some (first, idx)
      | none => some (idx, idx)) rangesFromChunk

def new (ranges : List TimeRange) (interest : Finset ComponentPathKey) (paths : ComponentPaths)
    (isUnloaded : ChunkId → Bool) : MergedRanges :=
  let m : MergedRanges := {
    startTime := (ranges.map (·.range.min)).foldl min .MAX
    ranges := ranges.map fun range => { endTime := range.range.max }
    rangesFromChunk := ranges.zipIdx.foldl (fun rangesFromChunk (range, idx) =>
      indexRange rangesFromChunk idx range) ∅ }
  m.updateComponentsOfInterest interest paths isUnloaded

def onChunkLoaded (m : MergedRanges) (chunk : ChunkId) (paths : ComponentPaths) : MergedRanges :=
  if m.isChunkInteresting paths chunk then
    match m.rangesFromChunk[chunk]? with
    | none => m
    | some segments =>
      { m with ranges := modifyCounts segments (Option.map (· - 1)) m.ranges }
  else m

def onChunkUnloaded (m : MergedRanges) (chunk : ChunkId) (paths : ComponentPaths) :
    MergedRanges :=
  if m.isChunkInteresting paths chunk then
    match m.rangesFromChunk[chunk]? with
    | none => m
    | some segments =>
      { m with ranges := modifyCounts segments (Option.map (· + 1)) m.ranges }
  else m

def loadedRangesStep (acc : List AbsoluteTimeRange × Option AbsoluteTimeRange × TimeInt)
    (range : ResolvedRange) : List AbsoluteTimeRange × Option AbsoluteTimeRange × TimeInt :=
  let (loaded, inProgress, lastEnd) := acc
  match range.unloadedCount, inProgress with
  | none, some progress => (loaded, some { progress with max := range.endTime }, range.endTime)
  | none, none => (loaded, none, lastEnd)
  | some 0, some progress => (loaded, some { progress with max := range.endTime }, range.endTime)
  | some 0, none => (loaded, some ⟨lastEnd, range.endTime⟩, range.endTime)
  | some _, some progress => (loaded ++ [progress], none, range.endTime)
  | some _, none => (loaded, none, range.endTime)

def loadedRanges (m : MergedRanges) : List AbsoluteTimeRange :=
  let (loaded, inProgress, _) := m.ranges.foldl loadedRangesStep ([], none, m.startTime)
  loaded ++ inProgress.toList

end MergedRanges

end DimosViewer
