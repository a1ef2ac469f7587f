import DimosViewer.Time
import DimosViewer.Video.StableIndexDeque

/-!
# Samples of a video

Samples are in decode order. Statistics over them say where the presentation time is the
highest so far, and the sample that is shown at a time is looked for from the last one
that is decoded by then. A build with debug assertions stops where one of them fails.
-/

namespace DimosViewer.Video

/-- `Time(pub i64)`, in units of a timescale. -/
abbrev Time := {units : Int // i64Min ≤ units ∧ units ≤ i64Max}

instance : DecidableLE Time := fun a b => Int.decLe a.1 b.1

instance : DecidableLT Time := fun a b => Int.decLt a.1 b.1

def Time.MIN : Time := ⟨i64Min, by decide⟩

theorem Time.MIN_le (t : Time) : Time.MIN ≤ t := t.2.1

abbrev SampleIndex := Nat

/-- `SampleIndex::MAX` -/
def sampleIndexMax : SampleIndex := 2 ^ 64 - 1

structure SampleMetadata where
  isSync : Bool
  decodeTimestamp : Time
  presentationTimestamp : Time
deriving DecidableEq

/-- An unloaded sample has a least decode time. -/
inductive SampleMetadataState where
  | present (sample : SampleMetadata)
  | unloaded (minDts : Time)
deriving DecidableEq

namespace SampleMetadataState

def sample : SampleMetadataState → Option SampleMetadata
  | .present s => some s
  | .unloaded _ => none

def decodeTimestamp : SampleMetadataState → Time
  | .present s => s.decodeTimestamp
  | .unloaded minDts => minDts

def isLoaded : SampleMetadataState → Bool
  | .present _ => true
  | .unloaded _ => false

def isUnloaded (s : SampleMetadataState) : Bool := !s.isLoaded

end SampleMetadataState

abbrev Samples := StableIndexDeque SampleMetadataState

-- ---------------------------------------------------------------------------
-- Statistics
-- ---------------------------------------------------------------------------

structure GopSizes where
  smallest : Nat
  largest : Nat
deriving DecidableEq

def GopSizes.NO_SAMPLES : GopSizes := ⟨0, 0⟩

structure SamplesStatistics where
  dtsAlwaysEqualPts : Bool
  hasSampleHighestPtsSoFar : Option (List Bool)
  gopSizes : GopSizes
deriving DecidableEq

namespace SamplesStatistics

/-- For each sample, whether its presentation time is above that of all loaded ones
before it. -/
def highestPtsSoFar : Time → List SampleMetadataState → List Bool
  | _, [] => []
  | biggestPtsSoFar, s :: rest =>
    match s.sample with
    | none => false :: highestPtsSoFar biggestPtsSoFar rest
    | some sample =>
      if biggestPtsSoFar < sample.presentationTimestamp then
        true :: highestPtsSoFar sample.presentationTimestamp rest
      else false :: highestPtsSoFar biggestPtsSoFar rest

/-- A group of pictures that ends is counted. -/
def gopStep (sizesCount : Option GopSizes × Nat) (s : SampleMetadataState) :
    Option GopSizes × Nat :=
  let (sizes, count) := sizesCount
  let endsGop := match s with
    | .present sample => sample.isSync
    | .unloaded _ => true
  let (sizes, count) :=
    if endsGop && 0 < count then
      (some (sizes.elim ⟨count, count⟩ fun s => ⟨min s.smallest count, max s.largest count⟩), 0)
    else (sizes, count)
  (sizes, if s.isLoaded then count + 1 else count)

def new (samples : Samples) : SamplesStatistics :=
  let dtsAlwaysEqualPts := (samples.vec.filterMap (·.sample)).all fun s =>
    s.decodeTimestamp = s.presentationTimestamp
  { dtsAlwaysEqualPts
    hasSampleHighestPtsSoFar :=
      if dtsAlwaysEqualPts then none else some (highestPtsSoFar .MIN samples.vec)
    gopSizes := (samples.vec.foldl gopStep (none, 0)).1.getD .NO_SAMPLES }

end SamplesStatistics

-- ---------------------------------------------------------------------------
-- Lookup
-- ---------------------------------------------------------------------------

def latestSampleIndexAtDecodeTimestamp (samples : Samples) (decodeTime : Time) :
    Option SampleIndex :=
  match samples.partitionPoint fun sample => sample.decodeTimestamp ≤ decodeTime with
  | 0 => none
  | n + 1 => some n

/-- The search backwards over the given indices. It panics, as `None`, outside of the
samples or of the bit vector. -/
def searchBackwards (samples : Samples) (hasSampleHighestPtsSoFar : List Bool)
    (presentationTimestamp : Time) :
    List SampleIndex → SampleIndex → Time → Option (Except (Option SampleIndex) SampleIndex)
  | [], _, _ => some (.error none)
  | sampleIdx :: rest, bestIndex, bestPts =>
    match samples.get sampleIdx with
    | none => none
    | some (.unloaded _) => some (.error (some sampleIdx))
    | some (.present sample) =>
      -- Clean hit.
      if sample.presentationTimestamp = presentationTimestamp then some (.ok sampleIdx)
      else
        let (bestIndex, bestPts) :=
          if sample.presentationTimestamp < presentationTimestamp ∧
              bestPts < sample.presentationTimestamp then
            (sampleIdx, sample.presentationTimestamp)
          else (bestIndex, bestPts)
        if bestPts ≠ .MIN then
          match hasSampleHighestPtsSoFar[sampleIdx]? with
          | none => none
          | some true => some (.ok bestIndex)
          | some false =>
            searchBackwards samples hasSampleHighestPtsSoFar presentationTimestamp rest bestIndex
              bestPts
        else
          searchBackwards samples hasSampleHighestPtsSoFar presentationTimestamp rest bestIndex
            bestPts

def latestSampleIndexAtPresentationTimestamp (debugAssertions : Bool) (samples : Samples)
    (sampleStatistics : SamplesStatistics) (presentationTimestamp : Time) :
    Option (Except (Option SampleIndex) SampleIndex) :=
  match latestSampleIndexAtDecodeTimestamp samples presentationTimestamp with
  | none => some (.error none)
  | some decodeSampleIdx =>
    if (samples.get decodeSampleIdx).any (·.isUnloaded) then
      some (.error (some decodeSampleIdx))
    else
      match sampleStatistics.hasSampleHighestPtsSoFar with
      | none =>
        if debugAssertions && !sampleStatistics.dtsAlwaysEqualPts then none
        else some (.ok decodeSampleIdx)
      | some bits =>
        if debugAssertions && bits.length ≠ samples.nextIndex then none
        else
          searchBackwards samples bits presentationTimestamp
            (List.range' samples.minIndex (decodeSampleIdx + 1 - samples.minIndex)).reverse
            sampleIndexMax .MIN

-- ---------------------------------------------------------------------------
-- What the lookup is for
-- ---------------------------------------------------------------------------

/-- Samples in decode order, no two of which are presented at one time, and none before
it is decoded. -/
structure Ordered (samples : Samples) : Prop where
  decode : samples.vec.Pairwise fun a b => a.decodeTimestamp ≤ b.decodeTimestamp
  unique : samples.vec.Pairwise fun a b =>
    ∀ s ∈ a.sample, ∀ s' ∈ b.sample, s.presentationTimestamp ≠ s'.presentationTimestamp
  decodedFirst : ∀ s, .present s ∈ samples.vec → s.decodeTimestamp ≤ s.presentationTimestamp

def ptsAt (samples : Samples) (i : Nat) : Option Time :=
  ((samples.get i).bind (·.sample)).map (·.presentationTimestamp)

/-- The sample that is shown at the time. -/
def IsShown (samples : Samples) (t : Time) (i : Nat) : Prop :=
  ∃ p ∈ ptsAt samples i, p ≤ t ∧ ∀ j, ∀ q ∈ ptsAt samples j, q ≤ t → q ≤ p

def LoadedUntil (samples : Samples) (t : Time) : Prop :=
  ∀ s ∈ samples.vec, s.decodeTimestamp ≤ t → s.isLoaded

instance : Decidable (LoadedUntil samples t) :=
  inferInstanceAs (Decidable (∀ s ∈ _, _ → _))

structure Correct (samples : Samples) (t : Time)
    (result : Option (Except (Option SampleIndex) SampleIndex)) : Prop where
  shown : LoadedUntil samples t →
    (∃ i, IsShown samples t i ∧ result = some (.ok i)) ∨
      (¬∃ i, IsShown samples t i) ∧ result = some (.error none)
  present : ∀ i, result = some (.ok i) → ∃ s, samples.get i = some (.present s)
  unloaded : ∀ i, result = some (.error (some i)) →
    ∃ minDts, samples.get i = some (.unloaded minDts) ∧ minDts ≤ t

end DimosViewer.Video
