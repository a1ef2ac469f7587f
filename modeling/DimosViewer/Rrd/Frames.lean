import DimosViewer.IntegerEncodings

/-!
# The frames of an RRD stream

Stream headers, message headers and stream footers, written and read byte by byte.
Where the source would panic the model says so. Numbers are those of a 64-bit host.
-/

namespace DimosViewer.Rrd

open LittleEndian

-- ---------------------------------------------------------------------------
-- Versions
-- ---------------------------------------------------------------------------

inductive Meta where
  | rc (value : UInt8)
  | alpha (value : UInt8)
  | devAlpha (alpha : UInt8)
deriving DecidableEq, Repr

namespace Meta

def toByte : Meta → UInt8
  | rc value => value ||| 0b01000000
  | alpha value => value ||| 0b10000000
  | devAlpha value => value ||| 0b11000000

def fromByte (v : UInt8) : Option Meta :=
  let value := v &&& 0b00111111
  match v &&& 0b11000000 with
  | 0b01000000 => some (rc value)
  | 0b10000000 => some (alpha value)
  | 0b11000000 => some (devAlpha value)
  | _ => none

end Meta

structure CrateVersion where
  major : UInt8
  minor : UInt8
  patch : UInt8
  meta? : Option Meta
deriving DecidableEq, Repr

namespace CrateVersion

def LOCAL : CrateVersion := ⟨0, 32, 0, some (.alpha 1)⟩

def new (major minor patch : UInt8) : CrateVersion := ⟨major, minor, patch, none⟩

def fromBytes (major minor patch v : UInt8) : CrateVersion :=
  ⟨major, minor, patch, Meta.fromByte v⟩

def toBytes (version : CrateVersion) : Bytes :=
  [version.major, version.minor, version.patch, (version.meta?.map Meta.toByte).getD 0]

end CrateVersion

-- ---------------------------------------------------------------------------
-- Errors
-- ---------------------------------------------------------------------------

inductive OptionsError where
  | unknownReservedBytes
  | unknownCompression (byte : UInt8)
  | removedMsgPackSerializer
  | unknownSerializer (byte : UInt8)
deriving DecidableEq, Repr

/-- What Protobuf, Arrow and the compression report is kept as a text. -/
inductive CodecError where
  | invalidOptions (err : OptionsError)
  | incompatibleRerunVersion (file : CrateVersion)
  | notAnRrd (actualFourcc : Bytes)
  | oldRrdVersion
  | frameDecoding (text : String)
  | crcMismatch (expected got : UInt32)
  | storeIdMissingApplicationId (storeKind recordingId : String)
  | chunkNotInManifest (chunkId : Nat)
  | overflow
  | io (text : String)
  | payload (text : String)
deriving DecidableEq, Repr

inductive Panic where
  | incompleteRead
  | readAfterPeek
  | sliceIndex
  | capacityOverflow
deriving DecidableEq, Repr

-- ---------------------------------------------------------------------------
-- Stream headers
-- ---------------------------------------------------------------------------

def RRD_FOURCC : Bytes := [0x52, 0x52, 0x46, 0x32]
def OLD_RRD_FOURCC : List Bytes := [[0x52, 0x52, 0x46, 0x30], [0x52, 0x52, 0x46, 0x31]]

inductive Compression where
  | off
  | lz4
deriving DecidableEq, Repr

inductive Serializer where
  | protobuf
deriving DecidableEq, Repr

structure EncodingOptions where
  compression : Compression
  serializer : Serializer
deriving DecidableEq, Repr

namespace EncodingOptions

def PROTOBUF_COMPRESSED : EncodingOptions := ⟨.lz4, .protobuf⟩
def PROTOBUF_UNCOMPRESSED : EncodingOptions := ⟨.off, .protobuf⟩

def toRrdBytes (options : EncodingOptions) : Bytes :=
  let compression := match options.compression with
    | .off => 0
    | .lz4 => 1
  let serializer := match options.serializer with
    | .protobuf => 2
  [compression, serializer, 0, 0]

def fromRrdBytes : Bytes → Except OptionsError EncodingOptions
  | [compression, serializer, 0, 0] => do
    let compression ← match compression with
      | 0 => pure Compression.off
      | 1 => pure Compression.lz4
      | _ => throw (.unknownCompression compression)
    let serializer ← match serializer with
      | 1 => throw .removedMsgPackSerializer
      | 2 => pure Serializer.protobuf
      | _ => throw (.unknownSerializer serializer)
    return ⟨compression, serializer⟩
  | _ => throw .unknownReservedBytes

end EncodingOptions

structure StreamHeader where
  fourcc : Bytes
  version : Bytes
  options : EncodingOptions
deriving DecidableEq, Repr

namespace StreamHeader

def ENCODED_SIZE_BYTES : Nat := 12

def toRrdBytes (header : StreamHeader) : Bytes :=
  header.fourcc ++ header.version ++ header.options.toRrdBytes

def fromRrdBytes (data : Bytes) : Except CodecError StreamHeader := do
  if data.length ≠ ENCODED_SIZE_BYTES then
    throw (.frameDecoding
      s!"invalid StreamHeader length (expected {ENCODED_SIZE_BYTES} but got {data.length})")
  let fourcc := data.take 4
  -- Check magic bytes FIRST.
  if fourcc ∈ OLD_RRD_FOURCC then
    throw .oldRrdVersion
  if fourcc ≠ RRD_FOURCC then
    throw (.notAnRrd fourcc)
  let version := (data.drop 4).take 4
  match EncodingOptions.fromRrdBytes (data.drop 8) with
  | .ok options => return ⟨fourcc, version, options⟩
  | .error err => throw (.invalidOptions err)

/-- All files before 0.2.1 say version zero, and what is older than 0.23 is refused. -/
def toVersionAndOptions (header : StreamHeader) :
    Except CodecError (CrateVersion × EncodingOptions) :=
  match header.version with
  | [major, minor, patch, v] =>
    let version := CrateVersion.fromBytes major minor patch v
    let encodedVersion := if header.version = [0, 0, 0, 0] then CrateVersion.new 0 2 0 else version
    if encodedVersion.major = 0 ∧ encodedVersion.minor < 23 then
      .error (.incompatibleRerunVersion encodedVersion)
    else .ok (version, header.options)
  | _ => .error (.frameDecoding "")

end StreamHeader

-- ---------------------------------------------------------------------------
-- Message headers
-- ---------------------------------------------------------------------------

inductive MessageKind where
  | «end»
  | setStoreInfo
  | arrowMsg
  | blueprintActivationCommand
deriving DecidableEq, Repr

namespace MessageKind

def toU64 : MessageKind → Nat
  | «end» => 0
  | setStoreInfo => 1
  | arrowMsg => 2
  | blueprintActivationCommand => 3

def fromU64 : Nat → Option MessageKind
  | 0 => some «end»
  | 1 => some setStoreInfo
  | 2 => some arrowMsg
  | 3 => some blueprintActivationCommand
  | _ => none

end MessageKind

structure MessageHeader where
  kind : MessageKind
  len : Nat
deriving DecidableEq, Repr

namespace MessageHeader

def ENCODED_SIZE_BYTES : Nat := 16

def toRrdBytes (header : MessageHeader) : Bytes :=
  encode 8 header.kind.toU64 ++ encode 8 header.len

def fromRrdBytes (data : Bytes) : Except CodecError MessageHeader :=
  if data.length ≠ ENCODED_SIZE_BYTES then
    .error (.frameDecoding
      s!"invalid MessageHeader length (expected {ENCODED_SIZE_BYTES} but got {data.length})")
  else
    let kind := decode (data.take 8)
    match MessageKind.fromU64 kind with
    | some kind => .ok ⟨kind, decode (data.drop 8)⟩
    | none => .error (.frameDecoding s!"unknown MessageHeader kind: {kind}")

end MessageHeader

-- ---------------------------------------------------------------------------
-- Stream footers
-- ---------------------------------------------------------------------------

structure Span where
  start : Nat
  len : Nat
deriving DecidableEq, Repr

structure StreamFooterEntry where
  rrdFooterByteSpanFromStartExcludingHeader : Span
  crcExcludingHeader : Nat
deriving DecidableEq, Repr

structure StreamFooter where
  fourcc : Bytes
  identifier : Bytes
  entries : List StreamFooterEntry
deriving DecidableEq, Repr

namespace StreamFooter

def ENCODED_SIZE_BYTES_IGNORING_ENTRIES : Nat := 12
def ENCODED_SIZE_BYTES_SINGLE_ENTRY : Nat := 20
def ENCODED_SIZE_BYTES : Nat := 32

def RRD_IDENTIFIER : Bytes := [0x46, 0x4F, 0x4F, 0x54]

/-- One entry, its checksum computed by `xxh32`. -/
def fromRrdFooterBytes (computeCrc : Bytes → UInt32) (offset : Nat) (rrdFooterBytes : Bytes) :
    StreamFooter :=
  ⟨RRD_FOURCC, RRD_IDENTIFIER,
    [⟨⟨offset, rrdFooterBytes.length⟩, (computeCrc rrdFooterBytes).toNat⟩]⟩

/-- Entries come first, so that the rest can be found from the end of the file. -/
def toRrdBytes (footer : StreamFooter) : Bytes :=
  footer.entries.flatMap (fun entry =>
    encode 8 entry.rrdFooterByteSpanFromStartExcludingHeader.start ++
      encode 8 entry.rrdFooterByteSpanFromStartExcludingHeader.len ++
      encode 4 entry.crcExcludingHeader) ++
    footer.fourcc ++ footer.identifier ++ encode 4 footer.entries.length

/-- The source slices without a check, there is room for one entry only. -/
def readEntries (dynamicData : Bytes) : Nat → Nat → Except Panic (List StreamFooterEntry)
  | 0, _ => .ok []
  | numRrdFooters + 1, pos =>
    if pos + ENCODED_SIZE_BYTES_SINGLE_ENTRY ≤ dynamicData.length then do
      let data := dynamicData.drop pos
      let entry := ⟨⟨decode (data.take 8), decode ((data.drop 8).take 8)⟩,
        decode ((data.drop 16).take 4)⟩
      let entries ← readEntries dynamicData numRrdFooters (pos + ENCODED_SIZE_BYTES_SINGLE_ENTRY)
      return entry :: entries
    else .error .sliceIndex

def fromRrdBytes (data : Bytes) : Except Panic (Except CodecError StreamFooter) :=
  if data.length < ENCODED_SIZE_BYTES then
    .ok (.error (.frameDecoding
      s!"invalid StreamFooter length (expected {ENCODED_SIZE_BYTES} but got {data.length})"))
  else
    let fixedData := data.drop (data.length - ENCODED_SIZE_BYTES_IGNORING_ENTRIES)
    let fourcc := fixedData.take 4
    let identifier := (fixedData.drop 4).take 4
    if fourcc ≠ RRD_FOURCC then
      .ok (.error (.frameDecoding
        s!"invalid StreamFooter FourCC (expected {RRD_FOURCC} but got {fourcc})"))
    else if identifier ≠ RRD_IDENTIFIER then
      .ok (.error (.frameDecoding
        s!"invalid StreamFooter identifier (expected {RRD_IDENTIFIER} but got {identifier})"))
    else do
      let numRrdFooters := decode ((fixedData.drop 8).take 4)
      let dynamicData := data.drop (data.length - ENCODED_SIZE_BYTES)
      return .ok ⟨fourcc, identifier, ← readEntries dynamicData numRrdFooters 0⟩

end StreamFooter

end DimosViewer.Rrd
