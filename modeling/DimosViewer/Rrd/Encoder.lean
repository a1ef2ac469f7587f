import DimosViewer.Rrd.Decoder
import DimosViewer.Rrd.FrameLaws
import DimosViewer.Rrd.Manifest

/-!
# The RRD encoder

Messages are written frame by frame to a vector of bytes. What turns them into Protobuf and
Arrow is a parameter. The source keeps manifests in a hash map, here they stand in the order
in which their stores came up.
-/

namespace DimosViewer.Rrd

open LittleEndian

-- ---------------------------------------------------------------------------
-- Messages
-- ---------------------------------------------------------------------------

inductive LogMsg (StoreId StoreInfo ArrowMsg Command : Type*) where
  | setStoreInfo (storeId : StoreId) (info : StoreInfo)
  | arrowMsg (storeId : StoreId) (msg : ArrowMsg)
  | blueprintActivationCommand (command : Command)
deriving DecidableEq, Repr

def LogMsg.kind {StoreId StoreInfo ArrowMsg Command : Type*} :
    LogMsg StoreId StoreInfo ArrowMsg Command → MessageKind
  | .setStoreInfo .. => .setStoreInfo
  | .arrowMsg .. => .arrowMsg
  | .blueprintActivationCommand _ => .blueprintActivationCommand

/-- Bytes that fit in one vector with their header. No address space in use has 62 bits. -/
structure Payload where
  bytes : Bytes
  fits : MessageHeader.ENCODED_SIZE_BYTES + bytes.length < 2 ^ 62

structure RawRrdManifest (StoreId : Type*) where
  storeId : StoreId
  data : RrdManifestBuilder

structure RrdFooter (StoreId : Type*) where
  manifests : List (StoreId × RawRrdManifest StoreId)

/-- How messages and footers are written. A message comes with its uncompressed size. -/
structure Transport (StoreId StoreInfo ArrowMsg Command : Type*) where
  encodeMessage : Compression → LogMsg StoreId StoreInfo ArrowMsg Command →
    Except CodecError (Payload × Nat)
  chunkBatch : ArrowMsg → Except CodecError ChunkBatch
  encodeFooter : RrdFooter StoreId → Except CodecError Payload
  computeCrc : Bytes → UInt32

variable {StoreId StoreInfo ArrowMsg Command : Type*} [DecidableEq StoreId]

-- ---------------------------------------------------------------------------
-- The footer being built
-- ---------------------------------------------------------------------------

structure ManifestState (StoreId : Type*) where
  recordingIds : List StoreId := []
  manifest : RrdManifestBuilder := {}

structure FooterState (StoreId : Type*) where
  recordingIdScope : Option StoreId := none
  manifests : List (StoreId × ManifestState StoreId) := []

namespace FooterState

def manifest (state : FooterState StoreId) (id : StoreId) : ManifestState StoreId :=
  (state.manifests.lookup id).getD {}

/-- `manifests.entry(id).or_default()` followed by an update in place. -/
def updateManifest (state : FooterState StoreId) (id : StoreId)
    (update : ManifestState StoreId → ManifestState StoreId) : FooterState StoreId :=
  if state.manifests.any (·.1 == id) then
    { state with manifests := state.manifests.map fun entry =>
        if entry.1 == id then (entry.1, update entry.2) else entry }
  else { state with manifests := state.manifests ++ [(id, update {})] }

/-- A `SetStoreInfo` overrides the recording id of every chunk after it. -/
def append (transport : Transport StoreId StoreInfo ArrowMsg Command) (state : FooterState StoreId)
    (msg : LogMsg StoreId StoreInfo ArrowMsg Command) (byteSpanExcludingHeader : Span)
    (byteSizeUncompressed : Nat) : Except CodecError (FooterState StoreId) :=
  match msg with
  | .setStoreInfo storeId _ => .ok { state with recordingIdScope := some storeId }
  | .arrowMsg storeId msg =>
    (transport.chunkBatch msg).map fun chunkBatch =>
      let recordingId := state.recordingIdScope.getD storeId
      state.updateManifest recordingId fun manifestState =>
        ⟨manifestState.recordingIds ++ [recordingId],
          manifestState.manifest.append chunkBatch byteSpanExcludingHeader byteSizeUncompressed⟩
  | .blueprintActivationCommand _ => .ok state

def finish (state : FooterState StoreId) : RrdFooter StoreId :=
  ⟨state.manifests.map fun (storeId, manifestState) =>
    (storeId, ⟨storeId, manifestState.manifest.padIndexColumns⟩)⟩

end FooterState

-- ---------------------------------------------------------------------------
-- The encoder
-- ---------------------------------------------------------------------------

inductive EncodeError where
  | alreadyFinished
  | alreadyUnwrapped
  | codec (err : CodecError)
deriving DecidableEq, Repr

/-- What is written goes to a vector, which takes everything. -/
structure Encoder (StoreId : Type*) where
  serializer : Serializer
  compression : Compression
  write : Option Bytes
  numWritten : Nat
  footerState : Option (FooterState StoreId)
  isFinished : Bool

namespace Encoder

def newEager (version : CrateVersion) (options : EncodingOptions) : Encoder StoreId :=
  let out := StreamHeader.toRrdBytes ⟨RRD_FOURCC, version.toBytes, options⟩
  { serializer := options.serializer
    compression := options.compression
    write := some out
    numWritten := out.length
    footerState := some {}
    isFinished := false }

def doNotEmitFooter (e : Encoder StoreId) : Encoder StoreId := { e with footerState := none }

/-- The total size of the frame, and the span of what follows its header. -/
def writeEncodable (e : Encoder StoreId) (kind : MessageKind) (payload : Payload) :
    Except EncodeError ((Nat × Span) × Encoder StoreId) :=
  if e.isFinished then .error .alreadyFinished
  else match e.write with
  | none => .error .alreadyUnwrapped
  | some written =>
    let byteOffsetExcludingHeader := e.numWritten + MessageHeader.ENCODED_SIZE_BYTES
    let scratch := MessageHeader.toRrdBytes ⟨kind, payload.bytes.length⟩ ++ payload.bytes
    let n := scratch.length
    let byteSizeExcludingHeader := n - MessageHeader.ENCODED_SIZE_BYTES
    .ok ((n, ⟨byteOffsetExcludingHeader, byteSizeExcludingHeader⟩),
      { e with write := some (written ++ scratch), numWritten := e.numWritten + n })

/-- A chunk that the footer does not accept has been written all the same. -/
def append (transport : Transport StoreId StoreInfo ArrowMsg Command) (e : Encoder StoreId)
    (message : LogMsg StoreId StoreInfo ArrowMsg Command) :
    Except EncodeError Nat × Encoder StoreId :=
  match transport.encodeMessage e.compression message with
  | .error err => (.error (.codec err), e)
  | .ok (payload, byteSizeUncompressed) =>
    match e.writeEncodable message.kind payload with
    | .error err => (.error err, e)
    | .ok ((n, byteSpanExcludingHeader), e) =>
      match e.footerState with
      | none => (.ok n, e)
      | some state =>
        match state.append transport message byteSpanExcludingHeader byteSizeUncompressed with
        | .error err => (.error (.codec err), e)
        | .ok state => (.ok n, { e with footerState := some state })

def finishImpl (transport : Transport StoreId StoreInfo ArrowMsg Command) (written : Bytes)
    (numWritten : Nat) (rrdFooter : Payload) : Bytes × Nat :=
  let outHeader := MessageHeader.toRrdBytes ⟨.end, rrdFooter.bytes.length⟩
  let numWritten := numWritten + outHeader.length
  let endMsgByteOffsetFromStartExcludingHeader := numWritten
  let numWritten := numWritten + rrdFooter.bytes.length
  let outStreamFooter := (StreamFooter.fromRrdFooterBytes transport.computeCrc
    endMsgByteOffsetFromStartExcludingHeader rrdFooter.bytes).toRrdBytes
  (written ++ outHeader ++ rrdFooter.bytes ++ outStreamFooter, numWritten + outStreamFooter.length)

/-- A footer that cannot be written leaves the stream without one. -/
def finish (transport : Transport StoreId StoreInfo ArrowMsg Command) (e : Encoder StoreId) :
    Except EncodeError Unit × Encoder StoreId :=
  if e.isFinished then (.ok (), e)
  else match e.write with
  | none => (.error .alreadyUnwrapped, e)
  | some written =>
    let finished := { e with isFinished := true, footerState := none }
    match e.footerState with
    | none => (.ok (), finished)
    | some footerState =>
      match transport.encodeFooter footerState.finish with
      | .error err => (.error (.codec err), finished)
      | .ok rrdFooter =>
        let (written, numWritten) := finishImpl transport written e.numWritten rrdFooter
        (.ok (), { finished with write := some written, numWritten })

def intoInner (e : Encoder StoreId) : Except EncodeError Bytes :=
  match e.write with
  | some written => .ok written
  | none => .error .alreadyUnwrapped

def extend (transport : Transport StoreId StoreInfo ArrowMsg Command) :
    Encoder StoreId → List (LogMsg StoreId StoreInfo ArrowMsg Command) →
      Except EncodeError Nat × Encoder StoreId
  | e, [] => (.ok 0, e)
  | e, message :: messages =>
    match e.append transport message with
    | (.error err, e) => (.error err, e)
    | (.ok n, e) =>
      match extend transport e messages with
      | (.error err, e) => (.error err, e)
      | (.ok sizeBytes, e) => (.ok (n + sizeBytes), e)

end Encoder

end DimosViewer.Rrd

/-!
## What an encoder writes

A stream header, one frame for each message, and at the end a footer or nothing.
-/

set_option linter.unusedSectionVars false

namespace DimosViewer.Rrd

open LittleEndian

variable {StoreId StoreInfo ArrowMsg Command : Type*} [DecidableEq StoreId]
  {transport : Transport StoreId StoreInfo ArrowMsg Command}

def frame (kind : MessageKind) (payload : Bytes) : Bytes :=
  MessageHeader.toRrdBytes ⟨kind, payload.length⟩ ++ payload

@[simp] theorem length_frame (kind : MessageKind) (payload : Bytes) :
    (frame kind payload).length = MessageHeader.ENCODED_SIZE_BYTES + payload.length := by
  simp [frame]

inductive Frames (transport : Transport StoreId StoreInfo ArrowMsg Command)
    (compression : Compression) : List (LogMsg StoreId StoreInfo ArrowMsg Command) → Bytes → Prop
  | nil : Frames transport compression [] []
  | cons (head : transport.encodeMessage compression message = .ok (payload, size))
      (tail : Frames transport compression messages bytes) :
      Frames transport compression (message :: messages) (frame message.kind payload.bytes ++ bytes)

namespace Encoder

def Writing (e : Encoder StoreId) (written : Bytes) : Prop :=
  e.isFinished = false ∧ e.write = some written ∧ e.numWritten = written.length

theorem writing_newEager (version : CrateVersion) (options : EncodingOptions) :
    (newEager version options : Encoder StoreId).Writing
      (StreamHeader.opening version options).toRrdBytes :=
  ⟨rfl, rfl, rfl⟩

theorem Writing.doNotEmitFooter {e : Encoder StoreId} (h : e.Writing written) :
    e.doNotEmitFooter.Writing written := h

theorem Writing.writeEncodable {e : Encoder StoreId} (h : e.Writing written)
    (kind : MessageKind) (payload : Payload) :
    e.writeEncodable kind payload = .ok (((frame kind payload.bytes).length,
        ⟨written.length + MessageHeader.ENCODED_SIZE_BYTES, payload.bytes.length⟩),
      { e with write := some (written ++ frame kind payload.bytes),
               numWritten := (written ++ frame kind payload.bytes).length }) := by
  simp [Encoder.writeEncodable, h.1, h.2.1, h.2.2, frame]

theorem Writing.append {e : Encoder StoreId} (h : e.Writing written)
    (happend : e.append transport message = (.ok n, e')) :
    ∃ payload size, transport.encodeMessage e.compression message = .ok (payload, size) ∧
      e'.Writing (written ++ frame message.kind payload.bytes) ∧
      e'.compression = e.compression ∧
      match e.footerState with
      | none => e'.footerState = none
      | some state => ∃ state', e'.footerState = some state' ∧
          state.append transport message
            ⟨written.length + MessageHeader.ENCODED_SIZE_BYTES, payload.bytes.length⟩ size =
              .ok state' := by
  simp only [Encoder.append] at happend
  split at happend
  case h_1 => cases happend
  case h_2 payload size hencode =>
    refine ⟨payload, size, hencode, ?_⟩
    rw [h.writeEncodable] at happend
    cases hstate : e.footerState with
    | none =>
      simp only [hstate] at happend
      cases happend
      exact ⟨⟨h.1, rfl, rfl⟩, rfl, rfl⟩
    | some state =>
      simp only [hstate] at happend
      split at happend
      case h_1 => cases happend
      case h_2 state' hfooter =>
        cases happend
        exact ⟨⟨h.1, rfl, rfl⟩, rfl, state', rfl, hfooter⟩

theorem Writing.extend {e : Encoder StoreId} (h : e.Writing written)
    (hextend : e.extend transport messages = (.ok n, e')) :
    ∃ bytes, Frames transport e.compression messages bytes ∧ e'.Writing (written ++ bytes) ∧
      e'.footerState.isSome = e.footerState.isSome := by
  induction messages generalizing e written n with
  | nil =>
    cases hextend
    exact ⟨[], .nil, by simpa using h, rfl⟩
  | cons message messages ih =>
    simp only [Encoder.extend] at hextend
    split at hextend
    case h_1 => cases hextend
    case h_2 n₁ e₁ happend =>
      obtain ⟨payload, size, hencode, hwriting, hcompression, hstate⟩ := h.append happend
      split at hextend
      case h_1 => cases hextend
      case h_2 n₂ e₂ hrest =>
        cases hextend
        obtain ⟨bytes, hframes, hwriting', hsome⟩ := ih hwriting hrest
        rw [hcompression] at hframes
        refine ⟨frame message.kind payload.bytes ++ bytes, .cons hencode hframes, ?_, ?_⟩
        · rwa [← List.append_assoc]
        · rw [hsome]
          cases he : e.footerState with
          | none =>
            simp only [he] at hstate
            rw [hstate]
          | some state =>
            simp only [he] at hstate
            obtain ⟨state', hstate', -⟩ := hstate
            rw [hstate']
            rfl

/-- The end marker with its footer, after what was written before. -/
def closing (transport : Transport StoreId StoreInfo ArrowMsg Command) (offset : Nat)
    (rrdFooter : Payload) : Bytes :=
  frame .end rrdFooter.bytes ++
    (StreamFooter.fromRrdFooterBytes transport.computeCrc
      (offset + MessageHeader.ENCODED_SIZE_BYTES) rrdFooter.bytes).toRrdBytes

theorem Writing.finish {e : Encoder StoreId} (h : e.Writing written)
    (hfinish : e.finish transport = (.ok (), e')) :
    match e.footerState with
    | none => e'.intoInner = .ok written
    | some state => ∃ rrdFooter, transport.encodeFooter state.finish = .ok rrdFooter ∧
        e'.intoInner = .ok (written ++ closing transport written.length rrdFooter) := by
  simp only [Encoder.finish, h.1, h.2.1, Bool.false_eq_true, if_false] at hfinish
  cases hstate : e.footerState with
  | none =>
    simp only [hstate] at hfinish
    cases hfinish
    exact rfl
  | some state =>
    simp only [hstate] at hfinish
    split at hfinish
    case h_1 => cases hfinish
    case h_2 rrdFooter hfooter =>
      cases hfinish
      refine ⟨rrdFooter, hfooter, ?_⟩
      simp [intoInner, finishImpl, closing, frame, h.2.2]

end Encoder

end DimosViewer.Rrd
