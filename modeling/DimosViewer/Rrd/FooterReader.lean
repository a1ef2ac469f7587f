import DimosViewer.Rrd.ManifestCheck

/-!
# Footers read from arbitrary bytes

A stream footer says where the footers of the file are: how many there are, and for each its
span and its checksum. Three readers slice, add and allocate what these numbers say. Here
they are metered: an aborted program is an outcome, and every allocation whose size
the bytes decide is a request.
-/

namespace DimosViewer.Rrd

open LittleEndian

namespace Reading

def ofPanic : Except Panic α → Reading α
  | .ok value => pure value
  | .error panic => Metered.abort (.panic panic)

/-- The source indexes with a range, which must be one of the slice. -/
def slice (bytes : Bytes) (start stop : Nat) : Reading Bytes :=
  if start ≤ stop ∧ stop ≤ bytes.length then pure ((bytes.drop start).take (stop - start))
  else Metered.abort (.panic .sliceIndex)

end Reading

/-- The end of a span, added up in 64 bits. -/
def Span.stop (span : Span) : Reading Nat :=
  if span.start + span.len < 2 ^ 64 then pure (span.start + span.len)
  else Metered.abort .addOverflow

-- ---------------------------------------------------------------------------
-- Stream footers
-- ---------------------------------------------------------------------------

namespace StreamFooter

def ENTRY_SIZE : Nat := 24

/-- `fromRrdBytes`, with what it asks for. -/
def readRrdBytes (data : Bytes) : Reading StreamFooter :=
  if data.length < ENCODED_SIZE_BYTES then
    Metered.fail (.frameDecoding
      s!"invalid StreamFooter length (expected {ENCODED_SIZE_BYTES} but got {data.length})")
  else
    let fixedData := data.drop (data.length - ENCODED_SIZE_BYTES_IGNORING_ENTRIES)
    let fourcc := fixedData.take 4
    let identifier := (fixedData.drop 4).take 4
    if fourcc ≠ RRD_FOURCC then
      Metered.fail (.frameDecoding
        s!"invalid StreamFooter FourCC (expected {RRD_FOURCC} but got {fourcc})")
    else if identifier ≠ RRD_IDENTIFIER then
      Metered.fail (.frameDecoding
        s!"invalid StreamFooter identifier (expected {RRD_IDENTIFIER} but got {identifier})")
    else do
      let numRrdFooters := decode ((fixedData.drop 8).take 4)
      let dynamicData := data.drop (data.length - ENCODED_SIZE_BYTES)
      -- The entries are collected from a range, whose length is known beforehand.
      Metered.request (numRrdFooters * ENTRY_SIZE)
      let entries ← Reading.ofPanic (readEntries dynamicData numRrdFooters 0)
      return ⟨fourcc, identifier, entries⟩

end StreamFooter

-- ---------------------------------------------------------------------------
-- Manifests
-- ---------------------------------------------------------------------------

structure DataframePart where
  encoderVersion : Int
  payload : Option Bytes
  compression : Int
  uncompressedSize : Nat
deriving DecidableEq, Repr

namespace DataframePart

def encoded (part : DataframePart) : Except CodecError (Bytes × Compression) := do
  -- Unknown versions count as unspecified.
  if part.encoderVersion ≠ 1 then
    throw (.payload
      "missing required field: 'rerun.common.v1alpha1.RerunChunk.encoder_version'")
  let some bytes := part.payload
    | throw (.payload "missing required field: 'rerun.common.v1alpha1.DataframePart.payload'")
  match part.compression with
  | 0 => return (bytes, .off)
  | 1 => return (bytes, .off)
  | 2 => return (bytes, .lz4)
  | _ => throw (.payload s!"unknown enumeration value {part.compression}")

end DataframePart

namespace Wire

structure RrdManifest (WireStoreId WireSchema : Type) where
  storeId : Option WireStoreId
  sorbetSchema : Option WireSchema
  sorbetSchemaSha256 : Option Bytes
  data : Option DataframePart

structure RrdManifest.Fields (WireStoreId WireSchema : Type) where
  storeId : WireStoreId
  sorbetSchema : WireSchema
  sorbetSchemaSha256 : Bytes
  data : DataframePart

/-- The fields of a manifest, all of which are required. -/
def RrdManifest.fields {WireStoreId WireSchema : Type}
    (manifest : RrdManifest WireStoreId WireSchema) :
    Except CodecError (Fields WireStoreId WireSchema) := do
  let some storeId := manifest.storeId
    | throw (.payload "missing required field: 'rerun.log_msg.v1alpha1.RrdManifest.store_id'")
  let some sorbetSchema := manifest.sorbetSchema
    | throw (.payload "missing required field: 'rerun.log_msg.v1alpha1.RrdManifest.sorbet_schema'")
  let some sorbetSchemaSha256 := manifest.sorbetSchemaSha256
    | throw (.payload
        "missing required field: 'rerun.log_msg.v1alpha1.RrdManifest.sorbet_schema_sha256'")
  if sorbetSchemaSha256.length ≠ 32 then
    throw (.payload
      ("invalid value for field 'rerun.log_msg.v1alpha1.RrdManifest.sorbet_schema_sha256: " ++
        "could not convert slice to array'"))
  let some data := manifest.data
    | throw (.payload "missing required field: 'rerun.log_msg.v1alpha1.RrdManifest.data'")
  return ⟨storeId, sorbetSchema, sorbetSchemaSha256, data⟩

end Wire

/-- What other libraries read: Protobuf messages, Arrow data and LZ4 blocks; and the build. -/
structure FooterFormats where
  debugAssertions : Bool
  WireStoreId : Type
  WireSchema : Type
  StoreId : Type
  computeCrc : Bytes → UInt32
  decodeRrdFooter : Bytes → Except CodecError (List (Wire.RrdManifest WireStoreId WireSchema))
  storeId : WireStoreId → Except CodecError StoreId
  schema : WireSchema → Except CodecError Arrow.Schema
  /-- The buffer of the given size after a block has been decompressed into it. -/
  decompressInto : Bytes → Nat → Except CodecError Bytes
  readBatch : Bytes → Except CodecError (Option Arrow.RecordBatch)
  texts : Arrow.Texts

namespace FooterFormats

variable (formats : FooterFormats)

abbrev WireManifest : Type := Wire.RrdManifest formats.WireStoreId formats.WireSchema

abbrev Manifest : Type := Application.RawRrdManifest formats.StoreId

def recordBatchFromIpcBytes (bytes : Bytes) (compression : Compression) (uncompressedSize : Nat) :
    Reading (Option Arrow.RecordBatch) :=
  match compression with
  | .off => Metered.ofExcept (formats.readBatch bytes)
  | .lz4 => do
    Metered.request uncompressedSize
    let uncompressed ← Metered.ofExcept (formats.decompressInto bytes uncompressedSize)
    Metered.ofExcept (formats.readBatch uncompressed)

def recordBatch (part : DataframePart) : Reading Arrow.RecordBatch := do
  let (bytes, compression) ← Metered.ofExcept part.encoded
  match ← formats.recordBatchFromIpcBytes bytes compression part.uncompressedSize with
  | some batch => return batch
  | none => Metered.fail (.payload
      "invalid value for field 'rerun.common.v1alpha1.RerunChunk.payload: empty'")

def toApplication (manifest : formats.WireManifest) : Reading formats.Manifest := do
  let fields ← Metered.ofExcept manifest.fields
  let storeId ← Metered.ofExcept (formats.storeId fields.storeId)
  let sorbetSchema ← Metered.ofExcept (formats.schema fields.sorbetSchema)
  let data ← formats.recordBatch fields.data
  let rrdManifest : formats.Manifest := ⟨storeId, sorbetSchema, fields.sorbetSchemaSha256, data⟩
  rrdManifest.sanityCheckCheap formats.texts formats.debugAssertions
  return rrdManifest

/-- A footer's payload, whose checksum its entry has. -/
def readManifests (crcExcludingHeader : Nat) (rrdFooterBytes : Bytes) :
    Reading (List formats.Manifest) := do
  let crc := formats.computeCrc rrdFooterBytes
  if crc.toNat ≠ crcExcludingHeader then
    Metered.fail (.crcMismatch (.ofNat crcExcludingHeader) crc)
  else
    let rrdFooter ← Metered.ofExcept (formats.decodeRrdFooter rrdFooterBytes)
    Metered.traverse formats.toApplication rrdFooter

namespace RawRrdManifest

def readEntries (rrdBytes : Bytes) : List StreamFooterEntry → Reading (List formats.Manifest)
  | [] => pure []
  | entry :: entries => do
    let span := entry.rrdFooterByteSpanFromStartExcludingHeader
    let stop ← span.stop
    let rrdFooterBytes ← Reading.slice rrdBytes span.start stop
    let manifests ← formats.readManifests entry.crcExcludingHeader rrdFooterBytes
    let rest ← readEntries rrdBytes entries
    return manifests ++ rest

def fromRrdBytes (rrdBytes : Bytes) : Reading (List formats.Manifest) := do
  match ← Metered.attempt (StreamFooter.readRrdBytes rrdBytes) with
  | .ok streamFooter => readEntries formats rrdBytes streamFooter.entries
  -- That was in fact not a footer.
  | .error (.frameDecoding _) => return []
  | .error err => Metered.fail err

end RawRrdManifest

-- ---------------------------------------------------------------------------
-- The footer of a file
-- ---------------------------------------------------------------------------

/-- The manifests of a footer by their stores, of which the last one of each counts. -/
abbrev RrdFooter : Type := List (formats.StoreId × formats.Manifest)

def readEntry (file : Bytes) (entry : StreamFooterEntry) : Reading (Option formats.RrdFooter) := do
  let fileLen := file.length
  let span := entry.rrdFooterByteSpanFromStartExcludingHeader
  let stop ← span.stop
  -- Sanity check: payload must fit within the file.
  if fileLen < stop then
    Metered.fail (.frameDecoding
      s!"RrdFooter payload span ({span.start}..{stop}) exceeds file size ({fileLen})")
  else
    Metered.request span.len
    let payloadBuf := (file.drop span.start).take span.len
    let manifests ← formats.readManifests entry.crcExcludingHeader payloadBuf
    return some (manifests.map fun manifest => (manifest.storeId, manifest))

def readRrdFooter (file : Bytes) : Reading (Option formats.RrdFooter) := do
  let fileLen := file.length
  if fileLen < StreamHeader.ENCODED_SIZE_BYTES then
    Metered.fail (.frameDecoding "file too small to be an RRD")
  else
    let _ ← Metered.ofExcept
      (StreamHeader.fromRrdBytes (file.take StreamHeader.ENCODED_SIZE_BYTES))
    -- A file too small to have a footer.
    if fileLen < StreamFooter.ENCODED_SIZE_BYTES then return none
    else
      let footerBuf := file.drop (fileLen - StreamFooter.ENCODED_SIZE_BYTES)
      match ← Metered.attempt (StreamFooter.readRrdBytes footerBuf) with
      | .ok ⟨_, _, entry :: _⟩ => formats.readEntry file entry
      | .ok ⟨_, _, []⟩ => return none
      -- Valid RRD, but no footer (legacy).
      | .error _ => return none

end FooterFormats

end DimosViewer.Rrd
