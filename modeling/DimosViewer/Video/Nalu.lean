import DimosViewer.IntegerEncodings
import Mathlib.Data.List.Infix

/-!
# MP4 samples as an Annex B stream

An MP4 sample holds NAL units with their lengths in front of them; an Annex B stream holds start
codes instead. The stream is what has been written so far. A slice out of range panics, as
`none`.
-/

namespace DimosViewer.Video

open LittleEndian (Bytes)

-- ---------------------------------------------------------------------------
-- The samples' units
-- ---------------------------------------------------------------------------

inductive AnnexBStreamWriteError
  | badVideoData (text : String)
  deriving DecidableEq, Repr

def ANNEXB_NAL_START_CODE : Bytes := [0x00, 0x00, 0x00, 0x01]

def slice (data : Bytes) (start stop : Nat) : Option Bytes :=
  if start ≤ stop ∧ stop ≤ data.length then some ((data.drop start).take (stop - start)) else none

def fromBeBytes (bytes : Bytes) : Nat := LittleEndian.decode bytes.reverse

def toBeBytes (width n : Nat) : Bytes := (LittleEndian.encode width n).reverse

def nalUnitSize (data : Bytes) (bufferOffset : Nat) :
    (lengthPrefixSize : Nat) → Option (Except AnnexBStreamWriteError Nat)
  | 1 => (data[bufferOffset]?).map fun byte => .ok byte.toNat
  | 2 => (slice data bufferOffset (bufferOffset + 2)).map fun bytes => .ok (fromBeBytes bytes)
  | 4 => (slice data bufferOffset (bufferOffset + 4)).map fun bytes => .ok (fromBeBytes bytes)
  | lengthPrefixSize =>
    some (.error (.badVideoData s!"Bad length prefix size: {lengthPrefixSize}"))

theorem nalUnitSize_pos (h : nalUnitSize data bufferOffset lengthPrefixSize = some (.ok size)) :
    0 < lengthPrefixSize := by
  cases lengthPrefixSize with
  | zero => cases h
  | succ n => exact Nat.succ_pos n

abbrev Written := Bytes × Except AnnexBStreamWriteError Unit

def writeNalus (data : Bytes) (lengthPrefixSize : Nat) (naluStream : Bytes) (bufferOffset : Nat) :
    Option Written :=
  if bufferOffset < data.length then
    if data.length < bufferOffset + lengthPrefixSize then
      some (naluStream, .error (.badVideoData "Not enough bytes to fit the length prefix"))
    else
      match _ : nalUnitSize data bufferOffset lengthPrefixSize with
      | none => none
      | some (.error err) => some (naluStream, .error err)
      | some (.ok size) =>
        let dataStart := bufferOffset + lengthPrefixSize
        let dataEnd := bufferOffset + size + lengthPrefixSize
        if data.length < dataEnd then
          some (naluStream,
            .error (.badVideoData "Video sample data ends with incomplete NAL unit."))
        else
          match slice data dataStart dataEnd with
          | none => none
          | some bytes =>
            writeNalus data lengthPrefixSize (naluStream ++ ANNEXB_NAL_START_CODE ++ bytes) dataEnd
  else
    some (naluStream, .ok ())
termination_by data.length - bufferOffset
decreasing_by
  have := nalUnitSize_pos (by assumption)
  omega

def writeLengthPrefixedNalusToAnnexbStream (naluStream data : Bytes) (lengthPrefixSize : Nat) :
    Option Written :=
  writeNalus data lengthPrefixSize naluStream 0

-- ---------------------------------------------------------------------------
-- H.264 chunks
-- ---------------------------------------------------------------------------

structure AvcC where
  sequenceParameterSets : List Bytes
  pictureParameterSets : List Bytes
  lengthSizeMinusOne : UInt8

structure Chunk where
  isSync : Bool
  data : Bytes
  deriving DecidableEq

structure AnnexBStreamState where
  previousFrameWasIdr : Bool := false
  deriving DecidableEq

def writeParameterSets (naluStream : Bytes) (sets : List Bytes) : Bytes :=
  sets.foldl (fun stream bytes => stream ++ ANNEXB_NAL_START_CODE ++ bytes) naluStream

def AvcC.lengthPrefixSize (avcc : AvcC) : Nat := avcc.lengthSizeMinusOne.toNat + 1

def writeAvcChunkToAnnexb (avcc : AvcC) (naluStream : Bytes) (emitParameterSets : Bool)
    (chunk : Chunk) : Option Written :=
  let naluStream :=
    if emitParameterSets then
      writeParameterSets (writeParameterSets naluStream avcc.sequenceParameterSets)
        avcc.pictureParameterSets
    else naluStream
  writeLengthPrefixedNalusToAnnexbStream naluStream chunk.data avcc.lengthPrefixSize

def writeAvcChunkToNaluStream (avcc : AvcC) (naluStream : Bytes) (chunk : Chunk)
    (state : AnnexBStreamState) : Option (Written × AnnexBStreamState) :=
  let emitParameterSets := chunk.isSync && !state.previousFrameWasIdr
  (writeAvcChunkToAnnexb avcc naluStream emitParameterSets chunk).map fun written =>
    match written.2 with
    -- The `?` returns before the state is assigned.
    | .error err => ((written.1, .error err), state)
    | .ok () => ((written.1, .ok ()), { previousFrameWasIdr := emitParameterSets })

/-- Chunk after chunk with one state; a chunk with bad data does not end the stream. -/
def writeChunks (avcc : AvcC) (chunks : List Chunk) : Option (Bytes × AnnexBStreamState) :=
  chunks.foldlM (fun written chunk =>
    (writeAvcChunkToNaluStream avcc written.1 chunk written.2).map fun r => (r.1.1, r.2)) ([], {})

def streamOf (avcc : AvcC) (chunks : List Chunk) : Option Bytes :=
  (writeChunks avcc chunks).map (·.1)

-- ---------------------------------------------------------------------------
-- What they are for
-- ---------------------------------------------------------------------------

def lengthPrefixed (width : Nat) (units : List Bytes) : Bytes :=
  units.flatMap fun unit => toBeBytes width unit.length ++ unit

def annexB (units : List Bytes) : Bytes :=
  units.flatMap fun unit => ANNEXB_NAL_START_CODE ++ unit

/-- The bytes are these units, each of a length that the prefix can hold. -/
structure UnitsOf (width : Nat) (data : Bytes) (units : List Bytes) : Prop where
  fits : ∀ unit ∈ units, unit.length < 256 ^ width
  bytes : data = lengthPrefixed width units

/-- The call returns, succeeds on sequences of units alone, and turns them into Annex B. -/
def TurnsIntoAnnexB (naluStream data : Bytes) (lengthPrefixSize : Nat) : Prop :=
  ∃ out result,
    writeLengthPrefixedNalusToAnnexbStream naluStream data lengthPrefixSize = some (out, result) ∧
    (result = .ok () ↔ ∃ units, UnitsOf lengthPrefixSize data units) ∧
    ∀ units, UnitsOf lengthPrefixSize data units → out = naluStream ++ annexB units

def AvcC.parameterSets (avcc : AvcC) : Bytes :=
  annexB (avcc.sequenceParameterSets ++ avcc.pictureParameterSets)

/-- What a chunk alone makes of a stream. -/
def AvcC.chunkUnits (avcc : AvcC) (chunk : Chunk) : Bytes :=
  ((writeAvcChunkToAnnexb avcc [] false chunk).map (·.1)).getD []

def followsIdr (before : List Chunk) : Bool := before.getLast?.any (·.isSync)

/-- It holds of every chunk with those before it. -/
def AtEvery (P : List Chunk → Chunk → Prop) (chunks : List Chunk) : Prop :=
  ∀ before chunk, before ++ [chunk] <+: chunks → P before chunk

/-- The bytes that the chunk adds to the stream of those before it. -/
def Adds (avcc : AvcC) (before : List Chunk) (chunk : Chunk) (bytes : Bytes) : Prop :=
  ∃ stream, streamOf avcc before = some stream ∧
    streamOf avcc (before ++ [chunk]) = some (stream ++ bytes)

/-- The parameter sets come before the first IDR chunk of a row, and not again in it. -/
def ParameterSetsOnce (avcc : AvcC) (before : List Chunk) (chunk : Chunk) : Prop :=
  (chunk.isSync → followsIdr before = false →
    Adds avcc before chunk (avcc.parameterSets ++ avcc.chunkUnits chunk)) ∧
  (followsIdr before = true → Adds avcc before chunk (avcc.chunkUnits chunk))

def Chunk.WellFormed (avcc : AvcC) (chunk : Chunk) : Prop :=
  chunk.data = [] ∨
    (avcc.lengthPrefixSize = 1 ∨ avcc.lengthPrefixSize = 2 ∨ avcc.lengthPrefixSize = 4) ∧
      ∃ units, UnitsOf avcc.lengthPrefixSize chunk.data units

def LastStartsIdr (avcc : AvcC) (chunks : List Chunk) : Prop :=
  ∃ before chunk malformed, chunks = before ++ chunk :: malformed ∧
    chunk.WellFormed avcc ∧ (∀ c ∈ malformed, ¬c.WellFormed avcc) ∧
    chunk.isSync ∧ followsIdr before = false

/-- At an IDR chunk, the last well-formed chunk starts a row of IDR chunks just where the chunk
in front is an IDR chunk. -/
def IdrInPairs (avcc : AvcC) (before : List Chunk) (chunk : Chunk) : Prop :=
  chunk.isSync → (LastStartsIdr avcc before ↔ followsIdr before = true)

end DimosViewer.Video
