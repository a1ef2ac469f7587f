import DimosViewer.IntegerEncodings

/-!
# Run-length and variable-length coded depth images

The decoder takes groups of four bits from 32-bit words, the highest group first. The encoder
is the reference encoder of the decoder's tests.
-/

namespace DimosViewer.Rvl

open LittleEndian (Bytes)

inductive RvlDecodeError where
  | missingHeader
  | missingResolution
  | zeroResolution
  | resolutionOverflow
  | payloadLengthMismatch (width height : UInt32)
  | tooManyZeros
  | tooManyNonZeros
  | noProgress
  | valueOutOfRange (value : Int32)
  | unexpectedEof
  | valueOverflow
deriving DecidableEq

inductive Failure where
  | error (e : RvlDecodeError)
  | panic
deriving DecidableEq

abbrev Result := Except Failure

def err (e : RvlDecodeError) : Result α := .error (.error e)

def slice (data : Bytes) (start stop : Nat) : Result Bytes :=
  if start ≤ stop ∧ stop ≤ data.length then .ok ((data.take stop).drop start)
  else .error .panic

/-- `LittleEndian::read_u32`, of at least four bytes. -/
def readU32 (bytes : Bytes) : Result UInt32 :=
  if 4 ≤ bytes.length then .ok (UInt32.ofNat (LittleEndian.decode (bytes.take 4)))
  else .error .panic

def toLeBytes (value : UInt32) : Bytes := LittleEndian.encode 4 value.toNat

-- ---------------------------------------------------------------------------
-- Metadata
-- ---------------------------------------------------------------------------

def configHeaderSize : Nat := 12
def resolutionHeaderSize : Nat := 8

/-- The quantization parameters are kept as their bits. -/
structure RosRvlMetadata where
  width : UInt32
  height : UInt32
  depthQuantA : UInt32
  depthQuantB : UInt32
  payloadOffset : Nat
  numPixels : Nat
deriving DecidableEq

namespace RosRvlMetadata

def payload (m : RosRvlMetadata) (bytes : Bytes) : Result Bytes :=
  if m.payloadOffset ≤ bytes.length then .ok (bytes.drop m.payloadOffset)
  else err .unexpectedEof

def parse (data : Bytes) : Result RosRvlMetadata := do
  if data.length ≤ configHeaderSize then err .missingHeader else
  let config ← slice data 0 configHeaderSize
  let quantOffset := 4
  let depthQuantA ← readU32 (← slice config quantOffset (quantOffset + 4))
  let depthQuantB ← readU32 (← slice config (quantOffset + 4) (quantOffset + 8))
  if data.length < configHeaderSize + resolutionHeaderSize then err .missingResolution else
  let resolutionOffset := configHeaderSize
  let width ← readU32 (← slice data resolutionOffset (resolutionOffset + 4))
  let height ← readU32 (← slice data (resolutionOffset + 4) (resolutionOffset + 8))
  if width = 0 ∨ height = 0 then err .zeroResolution else
  let payloadOffset := configHeaderSize + resolutionHeaderSize
  -- `checked_mul` on `u64`
  let numPixels := width.toNat * height.toNat
  if 2 ^ 64 ≤ numPixels then err .resolutionOverflow else
  if data.length < payloadOffset then err (.payloadLengthMismatch width height) else
  return { width, height, depthQuantA, depthQuantB, payloadOffset, numPixels }

end RosRvlMetadata

-- ---------------------------------------------------------------------------
-- Decoder
-- ---------------------------------------------------------------------------

structure RvlDecoder where
  input : Bytes
  offset : Nat
  word : UInt32
  nibblesRemaining : Nat

namespace RvlDecoder

def new (input : Bytes) : RvlDecoder := ⟨input, 0, 0, 0⟩

def refill (d : RvlDecoder) : Result RvlDecoder := do
  if d.offset + 4 > d.input.length then err .unexpectedEof else
  let word ← readU32 (← slice d.input d.offset (d.offset + 4))
  return { d with word, offset := d.offset + 4, nibblesRemaining := 8 }

def takeNibble (d : RvlDecoder) : Result (UInt8 × RvlDecoder) :=
  if d.nibblesRemaining = 0 then .error .panic
  else
    let nibble := ((d.word &&& 0xF0000000) >>> 28).toUInt8
    .ok (nibble, { d with word := d.word <<< 4, nibblesRemaining := d.nibblesRemaining - 1 })

def nextNibble (d : RvlDecoder) : Result (UInt8 × RvlDecoder) := do
  if d.nibblesRemaining = 0 then takeNibble (← d.refill) else d.takeNibble

/-- The loop of `decode_vle`. A shift by 32 or more panics. -/
def decodeVleLoop (d : RvlDecoder) (value : UInt32) (shift : Nat) :
    Result (UInt32 × RvlDecoder) :=
  match d.nextNibble with
  | .error e => .error e
  | .ok (nibble, d) =>
    if 32 ≤ shift then .error .panic
    else
      let value := value ||| ((nibble &&& 0x7).toUInt32 <<< UInt32.ofNat shift)
      if nibble &&& 0x8 = 0 then .ok (value, d)
      else if 32 ≤ shift + 3 then err .valueOverflow
      else decodeVleLoop d value (shift + 3)
termination_by 32 - shift
decreasing_by omega

def decodeVle (d : RvlDecoder) : Result (UInt32 × RvlDecoder) := d.decodeVleLoop 0 0

def deltaOf (code : UInt32) : Int32 :=
  let positive := code.toInt32
  (positive >>> 1) ^^^ -(positive &&& 1)

/-- The loop over the pixels of a run that is not zero: the pixels, and the last value. -/
def decodeDeltas (d : RvlDecoder) (previous : Int32) :
    (nonzeros : Nat) → Result (List UInt16 × Int32 × RvlDecoder)
  | 0 => .ok ([], previous, d)
  | nonzeros + 1 => do
    let (code, d) ← d.decodeVle
    let value := previous + deltaOf code
    if ¬ (0 ≤ value ∧ value ≤ 65535) then err (.valueOutOfRange value) else
    let (pixels, previous, d) ← decodeDeltas d value nonzeros
    return (value.toUInt32.toUInt16 :: pixels, previous, d)

def decodeRuns (d : RvlDecoder) (remaining : Nat) (previous : Int32) : Result (List UInt16) :=
  if remaining = 0 then .ok []
  else
    match d.decodeVle with
    | .error e => .error e
    | .ok (zeros, d) =>
      if zeros.toNat > remaining then err .tooManyZeros
      else
        match d.decodeVle with
        | .error e => .error e
        | .ok (nonzeros, d) =>
          if nonzeros.toNat > remaining - zeros.toNat then err .tooManyNonZeros
          else if zeros.toNat = 0 ∧ nonzeros.toNat = 0 then err .noProgress
          else
            match d.decodeDeltas previous nonzeros.toNat with
            | .error e => .error e
            | .ok (pixels, previous, d) =>
              match d.decodeRuns (remaining - zeros.toNat - nonzeros.toNat) previous with
              | .error e => .error e
              | .ok rest => .ok (List.replicate zeros.toNat 0 ++ pixels ++ rest)
termination_by remaining
decreasing_by omega

def decodeInto (d : RvlDecoder) (len : Nat) : Result (List UInt16) := d.decodeRuns len 0

end RvlDecoder

def decodeRvlWithoutQuantization (data : Bytes) (metadata : RosRvlMetadata) :
    Result (List UInt16) := do
  let payload ← metadata.payload data
  (RvlDecoder.new payload).decodeInto metadata.numPixels

-- ---------------------------------------------------------------------------
-- Reference encoder
-- ---------------------------------------------------------------------------

structure Encoder where
  buffer : Bytes
  word : UInt32
  nibblesWritten : Nat

namespace Encoder

def new : Encoder := ⟨[], 0, 0⟩

def pushNibble (e : Encoder) (nibble : UInt8) : Encoder :=
  let word := (e.word <<< 4) ||| nibble.toUInt32
  if e.nibblesWritten + 1 = 8 then ⟨e.buffer ++ toLeBytes word, 0, 0⟩
  else ⟨e.buffer, word, e.nibblesWritten + 1⟩

theorem toNat_shiftRight_three (value : UInt32) : (value >>> 3).toNat = value.toNat / 8 := by
  rw [UInt32.toNat_shiftRight, Nat.shiftRight_eq_div_pow]
  rfl

def encodeVle (e : Encoder) (value : UInt32) : Encoder :=
  let nibble := (value &&& 0x7).toUInt8
  if value >>> 3 = 0 then e.pushNibble nibble
  else (e.pushNibble (nibble ||| 0x8)).encodeVle (value >>> 3)
termination_by value.toNat
decreasing_by
  rename_i h
  rw [← UInt32.toNat_inj, toNat_shiftRight_three, UInt32.toNat_zero] at h
  rw [toNat_shiftRight_three]
  omega

def finish (e : Encoder) : Bytes :=
  if e.nibblesWritten > 0 then
    e.buffer ++ toLeBytes (e.word <<< UInt32.ofNat (4 * (8 - e.nibblesWritten)))
  else e.buffer

def codeOf (delta : Int32) : UInt32 := ((delta <<< 1) ^^^ (delta >>> 31)).toUInt32

def encodeDeltas (e : Encoder) (previous : Int32) : List UInt16 → Encoder × Int32
  | [] => (e, previous)
  | value :: values =>
    let value := value.toUInt32.toInt32
    (e.encodeVle (codeOf (value - previous))).encodeDeltas value values

theorem rest_lt (h : values ≠ []) :
    ((values.dropWhile (· = (0 : UInt16))).dropWhile (· ≠ 0)).length < values.length := by
  cases values with
  | nil => contradiction
  | cons value values =>
    rw [List.length_cons, Nat.lt_succ_iff]
    by_cases hv : value = 0
    · simp only [List.dropWhile_cons, hv, decide_true, if_true]
      exact (List.dropWhile_suffix _).length_le.trans (List.dropWhile_suffix _).length_le
    · simp only [List.dropWhile_cons, hv, decide_false, Bool.false_eq_true, if_false, ne_eq,
        not_false_eq_true, decide_true, if_true]
      exact (List.dropWhile_suffix _).length_le

/-- The outer loop of `encode_rvl`, over the values from `index` on. -/
def encodeRuns (e : Encoder) (previous : Int32) (values : List UInt16) : Encoder :=
  if values = [] then e
  else
    let zeros := values.takeWhile (· = 0)
    let e := e.encodeVle (UInt32.ofNat zeros.length)
    let values := values.dropWhile (· = 0)
    let nonzeros := values.takeWhile (· ≠ 0)
    let e := e.encodeVle (UInt32.ofNat nonzeros.length)
    let (e, previous) := e.encodeDeltas previous nonzeros
    e.encodeRuns previous (values.dropWhile (· ≠ 0))
termination_by values.length
decreasing_by exact rest_lt ‹_›

end Encoder

def encodeRvl (values : List UInt16) : Bytes := (Encoder.new.encodeRuns 0 values).finish

/-- The image as a message, `None` where the encoder's assertion on the size fails. -/
def buildDepthMessage (dimensions : UInt32 × UInt32) (disparity : List UInt16)
    (depthParams : UInt32 × UInt32) : Option Bytes :=
  if dimensions.1.toNat * dimensions.2.toNat = disparity.length then
    some (toLeBytes 0 ++ toLeBytes depthParams.1 ++ toLeBytes depthParams.2 ++
      toLeBytes dimensions.1 ++ toLeBytes dimensions.2 ++ encodeRvl disparity)
  else none

end DimosViewer.Rvl
