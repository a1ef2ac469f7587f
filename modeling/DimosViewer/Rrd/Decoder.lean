import DimosViewer.Rrd.Frames

/-!
# The RRD decoder

A state machine that is fed byte chunks and gives messages once it has the bytes for them.
What reads Protobuf and Arrow is a parameter, log output and the depth of the call stack are
left out.
-/

namespace DimosViewer.Rrd

open LittleEndian

-- ---------------------------------------------------------------------------
-- The byte chunk buffer
-- ---------------------------------------------------------------------------

/-- `Vec::resize` panics beyond this length. -/
def ISIZE_MAX : Nat := 2 ^ 63 - 1

/-- The queue has what is left of each chunk, `buffer` the first `buffer_fill` bytes of the
scratch space and `bufferLen` the length of all of it. -/
structure ByteChunkBuffer where
  queue : List Bytes
  buffer : Bytes
  bufferLen : Nat
  numRead : Nat
deriving DecidableEq, Repr

def readQueue : Nat → List Bytes → Bytes × List Bytes
  | _, [] => ([], [])
  | needed, chunk :: queue =>
    if needed = 0 then ([], chunk :: queue)
    else if chunk.length ≤ needed then
      let (bytes, rest) := readQueue (needed - chunk.length) queue
      (chunk ++ bytes, rest)
    else (chunk.take needed, chunk.drop needed :: queue)

namespace ByteChunkBuffer

def new : ByteChunkBuffer := ⟨[], [], 0, 0⟩

def push (b : ByteChunkBuffer) (byteChunk : Bytes) : ByteChunkBuffer :=
  if byteChunk = [] then b else { b with queue := b.queue ++ [byteChunk] }

def tryRead (b : ByteChunkBuffer) (n : Nat) : Except Panic (Option Bytes × ByteChunkBuffer) :=
  if b.bufferLen ≠ n ∧ b.buffer ≠ [] then .error .incompleteRead
  else if b.bufferLen ≠ n ∧ ISIZE_MAX < n then .error .capacityOverflow
  else
    let (bytes, queue) := readQueue (n - b.buffer.length) b.queue
    let buffer := b.buffer ++ bytes
    if buffer.length = n then .ok (some buffer, ⟨queue, [], 0, b.numRead + n⟩)
    else .ok (none, { b with queue, buffer, bufferLen := n })

def pending (b : ByteChunkBuffer) : Bytes := b.buffer ++ b.queue.flatten

/-- What has been buffered counts only for a read of the same length. -/
def tryPeek (b : ByteChunkBuffer) (targetLen : Nat) : Bytes :=
  let buffered := if targetLen = b.bufferLen then b.buffer else []
  (buffered ++ b.queue.flatten).take targetLen

end ByteChunkBuffer

-- ---------------------------------------------------------------------------
-- The state machine
-- ---------------------------------------------------------------------------

inductive DecoderState where
  | waitingForStreamHeader
  | waitingForMessageHeader
  | waitingForMessagePayload (header : MessageHeader)
  | waitingForStreamFooter
  | aborted
deriving DecidableEq, Repr

/-- How payloads are read. The application ids seen so far are used to migrate old data. -/
structure Codecs (Message Cache Manifest : Type*) where
  decodeMessage : Bytes → Span → MessageKind → Cache → Option CrateVersion →
    Except CodecError Message × Cache
  decodeFooter : Bytes → Except CodecError (List Manifest)

variable {Message Cache Manifest : Type*}

/-- The `End` marker is no message. -/
def Codecs.decode (codecs : Codecs Message Cache Manifest) (data : Bytes) (byteSpan : Span)
    (kind : MessageKind) (cache : Cache) (version : Option CrateVersion) :
    Except CodecError (Option Message) × Cache :=
  match kind with
  | .end => (.ok none, cache)
  | _ =>
    let (message, cache) := codecs.decodeMessage data byteSpan kind cache version
    (message.map some, cache)

structure Control (Cache Manifest : Type*) where
  version : Option CrateVersion
  options : EncodingOptions
  state : DecoderState
  appIdCache : Cache
  rrdManifests : List Manifest

structure Decoder (Cache Manifest : Type*) extends Control Cache Manifest where
  byteChunks : ByteChunkBuffer

/-- Either the call ends, or it ends with what another `try_read` gives. -/
inductive Flow (Message : Type*) where
  | done (result : Except CodecError (Option Message))
  | tryRead

-- What each state does with the bytes it asked for, the first of which is at `position`.

namespace Control

def streamHeader (c : Control Cache Manifest) (position : Nat) (headerData : Bytes) :
    Control Cache Manifest × Flow Message :=
  let isFirstHeader := position = 0
  match (StreamHeader.fromRrdBytes headerData).bind StreamHeader.toVersionAndOptions with
  | .ok (version, options) =>
    ({ c with version := some version, options, state := .waitingForMessageHeader }, .tryRead)
  | .error err =>
    if isFirstHeader then (c, .done (.error err))
    -- Trailing bytes after a whole stream only stop the machine.
    else ({ c with state := .aborted }, .done (.ok none))

def messagePayload (codecs : Codecs Message Cache Manifest) (c : Control Cache Manifest)
    (header : MessageHeader) (position : Nat) (bytes : Bytes) :
    Control Cache Manifest × Flow Message :=
  let byteSpan := ⟨position, bytes.length⟩
  match codecs.decode bytes byteSpan header.kind c.appIdCache c.version with
  | (.error err, appIdCache) =>
    -- The message is dropped, and the next header looked for.
    ({ c with appIdCache, state := .waitingForMessageHeader }, .done (.error err))
  | (.ok (some message), appIdCache) =>
    ({ c with appIdCache, state := .waitingForMessageHeader }, .done (.ok (some message)))
  | (.ok none, appIdCache) =>
    if bytes ≠ [] then
      match codecs.decodeFooter bytes with
      -- The state stays what it was, this payload's bytes are gone.
      | .error err => ({ c with appIdCache }, .done (.error err))
      | .ok manifests =>
        ({ c with appIdCache, rrdManifests := c.rrdManifests ++ manifests,
                  state := .waitingForStreamFooter }, .tryRead)
    else ({ c with appIdCache, state := .waitingForStreamFooter }, .tryRead)

/-- Offsets beyond the footer are only logged. -/
def streamFooter (c : Control Cache Manifest) (bytes : Bytes) :
    Except Panic (Control Cache Manifest × Flow Message) :=
  match StreamFooter.fromRrdBytes bytes with
  | .error panic => .error panic
  | .ok (.ok _) => .ok ({ c with state := .waitingForStreamHeader }, .tryRead)
  | .ok (.error _) => .ok ({ c with state := .aborted }, .done (.ok none))

end Control

namespace Decoder

def new (cache : Cache) : Decoder Cache Manifest :=
  ⟨⟨none, .PROTOBUF_UNCOMPRESSED, .waitingForStreamHeader, cache, []⟩, .new⟩

def pushByteChunk (d : Decoder Cache Manifest) (byteChunk : Bytes) : Decoder Cache Manifest :=
  { d with byteChunks := d.byteChunks.push byteChunk }

/-- A state that reads without peeking. -/
def tryReadThen (d : Decoder Cache Manifest) (n : Nat)
    (next : Bytes → Except Panic (Control Cache Manifest × Flow Message)) :
    Except Panic (Decoder Cache Manifest × Flow Message) :=
  match d.byteChunks.tryRead n with
  | .error panic => .error panic
  | .ok (none, byteChunks) => .ok ({ d with byteChunks }, .done (.ok none))
  | .ok (some bytes, byteChunks) =>
    (next bytes).map fun (control, flow) => (⟨control, byteChunks⟩, flow)

def readMessageHeader (d : Decoder Cache Manifest) :
    Except Panic (Decoder Cache Manifest × Flow Message) :=
  let peeked := d.byteChunks.tryPeek MessageHeader.ENCODED_SIZE_BYTES
  if peeked.length = MessageHeader.ENCODED_SIZE_BYTES then
    match MessageHeader.fromRrdBytes peeked with
    | .ok header =>
      match d.byteChunks.tryRead MessageHeader.ENCODED_SIZE_BYTES with
      | .error panic => .error panic
      | .ok (none, _) => .error .readAfterPeek
      | .ok (some _, byteChunks) =>
        .ok ({ d with byteChunks, state := .waitingForMessagePayload header }, .tryRead)
    -- Another stream may have begun without an end marker.
    | .error (.frameDecoding _) => .ok ({ d with state := .waitingForStreamHeader }, .tryRead)
    | .error err => .ok (d, .done (.error err))
  else .ok (d, .done (.ok none))

def tryReadImpl (codecs : Codecs Message Cache Manifest) (d : Decoder Cache Manifest) :
    Except Panic (Decoder Cache Manifest × Flow Message) :=
  let position := d.byteChunks.numRead
  match d.state with
  | .waitingForStreamHeader =>
    d.tryReadThen StreamHeader.ENCODED_SIZE_BYTES fun bytes =>
      .ok (d.toControl.streamHeader position bytes)
  | .waitingForMessageHeader => d.readMessageHeader
  | .waitingForMessagePayload header =>
    d.tryReadThen header.len fun bytes =>
      .ok (d.toControl.messagePayload codecs header position bytes)
  | .waitingForStreamFooter =>
    d.tryReadThen StreamFooter.ENCODED_SIZE_BYTES d.toControl.streamFooter
  | .aborted => .ok (d, .done (.ok none))

-- ---------------------------------------------------------------------------
-- Every call comes to an end
-- ---------------------------------------------------------------------------

end Decoder

theorem readQueue_bytes (needed : Nat) (queue : List Bytes) :
    (readQueue needed queue).1 = queue.flatten.take needed := by
  induction queue generalizing needed with
  | nil => simp [readQueue]
  | cons chunk queue ih =>
    simp only [readQueue]
    split
    · simp_all
    split
    case isTrue hle => simp [ih, List.take_append, List.take_of_length_le hle]
    case isFalse hlt => simp [List.take_append_of_le_length (Nat.le_of_not_le hlt)]

theorem readQueue_rest (needed : Nat) (queue : List Bytes) :
    (readQueue needed queue).2.flatten = queue.flatten.drop needed := by
  induction queue generalizing needed with
  | nil => simp [readQueue]
  | cons chunk queue ih =>
    simp only [readQueue]
    split
    · simp_all
    split
    case isTrue hle => simp [ih, List.drop_append, List.drop_of_length_le hle]
    case isFalse hlt => simp [List.drop_append_of_le_length (Nat.le_of_not_le hlt)]

theorem ByteChunkBuffer.length_of_tryRead {b b' : ByteChunkBuffer}
    (h : b.tryRead n = .ok (some data, b')) : b'.pending.length + n = b.pending.length := by
  simp only [tryRead, pending, readQueue_bytes] at h ⊢
  split at h
  · cases h
  split at h
  · cases h
  split at h
  case isTrue hlen =>
    cases h
    simp only [readQueue_rest, List.length_append, List.length_take, List.length_drop,
      List.nil_append] at hlen ⊢
    omega
  case isFalse => cases h

theorem ByteChunkBuffer.data_length_of_tryRead {b b' : ByteChunkBuffer}
    (h : b.tryRead n = .ok (some data, b')) : data.length = n := by
  simp only [tryRead] at h
  split at h
  · cases h
  split at h
  · cases h
  split at h
  case isTrue hlen =>
    cases h
    exact hlen
  case isFalse => cases h

theorem MessageHeader.fromRrdBytes_error (h : fromRrdBytes data = .error err) :
    ∃ text, err = .frameDecoding text := by
  simp only [fromRrdBytes] at h
  split at h
  · exact ⟨_, (Except.error.inj h).symm⟩
  split at h
  · cases h
  · exact ⟨_, (Except.error.inj h).symm⟩

/-- States a call can move on to without reading anything come later in this order. -/
def DecoderState.rank : DecoderState → Nat
  | .waitingForMessagePayload _ => 2
  | .waitingForMessageHeader => 1
  | _ => 0

/-- The call found too little, or nothing more to read ever. -/
def Flow.Waits : Flow Message → Prop
  | .done (.ok none) => True
  | _ => False

namespace Control

theorem rank_streamHeader {c : Control Cache Manifest}
    (h : c.streamHeader position bytes = (c', (flow : Flow Message))) :
    c'.state.rank ≤ c.state.rank + 1 := by
  simp only [streamHeader] at h
  split at h
  · cases h
    simp [DecoderState.rank]
  split at h
  · cases h
    simp
  · cases h
    simp [DecoderState.rank]

/-- A footer that does not parse leaves the state as it is, but only after reading something. -/
theorem rank_messagePayload {codecs : Codecs Message Cache Manifest} {c : Control Cache Manifest}
    (h : c.messagePayload codecs header position bytes = (c', flow)) :
    c'.state.rank ≤ 1 ∨ c'.state = c.state ∧ bytes ≠ [] := by
  simp only [messagePayload] at h
  split at h
  · cases h
    simp [DecoderState.rank]
  · cases h
    simp [DecoderState.rank]
  split at h
  case isTrue hne =>
    split at h
    · cases h
      exact .inr ⟨rfl, hne⟩
    · cases h
      simp [DecoderState.rank]
  case isFalse =>
    cases h
    simp [DecoderState.rank]

theorem rank_streamFooter {c : Control Cache Manifest}
    (h : c.streamFooter bytes = .ok (c', (flow : Flow Message))) : c'.state.rank = 0 := by
  simp only [streamFooter] at h
  split at h
  · cases h
  · cases h
    rfl
  · cases h
    rfl

end Control

namespace Decoder

def measure (d : Decoder Cache Manifest) : Nat :=
  3 * d.byteChunks.pending.length + d.state.rank

theorem eq_of_tryReadThen {d d' : Decoder Cache Manifest} {flow : Flow Message}
    (h : d.tryReadThen n next = .ok (d', flow)) (hw : ¬ flow.Waits) :
    ∃ bytes, bytes.length = n ∧ next bytes = .ok (d'.toControl, flow) ∧
      d'.byteChunks.pending.length + n = d.byteChunks.pending.length := by
  simp only [tryReadThen] at h
  split at h
  case h_1 => cases h
  case h_2 =>
    cases h
    exact absurd trivial hw
  case h_3 bytes byteChunks hread =>
    cases hnext : next bytes with
    | error => simp [hnext, Except.map] at h
    | ok result =>
      simp only [hnext, Except.map, Except.ok.injEq, Prod.mk.injEq] at h
      obtain ⟨rfl, rfl⟩ := h
      exact ⟨bytes, ByteChunkBuffer.data_length_of_tryRead hread, hnext,
        ByteChunkBuffer.length_of_tryRead hread⟩

theorem measure_of_readMessageHeader {d d' : Decoder Cache Manifest} {flow : Flow Message}
    (hs : d.state = .waitingForMessageHeader)
    (h : d.readMessageHeader = .ok (d', flow)) (hw : ¬ flow.Waits) : d'.measure < d.measure := by
  simp only [readMessageHeader] at h
  split at h
  case isTrue =>
    split at h
    case h_1 header hheader =>
      split at h
      case h_1 => cases h
      case h_2 => cases h
      case h_3 bytes byteChunks hread =>
        cases h
        have hlen := ByteChunkBuffer.length_of_tryRead hread
        simp only [measure, hs, DecoderState.rank, MessageHeader.ENCODED_SIZE_BYTES] at hlen ⊢
        omega
    case h_2 =>
      cases h
      simp [measure, hs, DecoderState.rank]
    case h_3 err hframe herr =>
      obtain ⟨text, rfl⟩ := MessageHeader.fromRrdBytes_error herr
      exact absurd rfl (hframe text)
  case isFalse =>
    cases h
    exact absurd trivial hw

theorem measure_of_tryReadImpl {codecs : Codecs Message Cache Manifest}
    {d d' : Decoder Cache Manifest} (h : d.tryReadImpl codecs = .ok (d', flow))
    (hw : ¬ flow.Waits) : d'.measure < d.measure := by
  unfold tryReadImpl at h
  split at h
  case h_1 hs =>
    obtain ⟨bytes, -, hnext, hlen⟩ := eq_of_tryReadThen h hw
    have hrank := Control.rank_streamHeader (Except.ok.inj hnext)
    simp only [measure, StreamHeader.ENCODED_SIZE_BYTES] at hlen ⊢
    omega
  case h_2 hs => exact measure_of_readMessageHeader hs h hw
  case h_3 header hs =>
    obtain ⟨bytes, hbytes, hnext, hlen⟩ := eq_of_tryReadThen h hw
    have hbefore : d.state.rank = 2 := by rw [hs, DecoderState.rank]
    simp only [measure]
    rcases Control.rank_messagePayload (Except.ok.inj hnext) with hrank | ⟨hsame, hne⟩
    · omega
    · have := List.length_pos_iff.mpr hne
      rw [hsame]
      omega
  case h_4 hs =>
    obtain ⟨bytes, -, hnext, hlen⟩ := eq_of_tryReadThen h hw
    have hrank := Control.rank_streamFooter hnext
    simp only [measure, StreamFooter.ENCODED_SIZE_BYTES] at hlen ⊢
    omega
  case h_5 =>
    cases h
    exact absurd trivial hw

/-- Messages without an application id that cannot be migrated are dropped. -/
def tryRead (codecs : Codecs Message Cache Manifest) (d : Decoder Cache Manifest) :
    Except Panic (Decoder Cache Manifest × Except CodecError (Option Message)) :=
  match h : d.tryReadImpl codecs with
  | .error panic => .error panic
  | .ok (d', .tryRead) =>
    have := measure_of_tryReadImpl h id
    d'.tryRead codecs
  | .ok (d', .done (.error (.storeIdMissingApplicationId ..))) =>
    have := measure_of_tryReadImpl h id
    d'.tryRead codecs
  | .ok (d', .done result) => .ok (d', result)
termination_by d.measure

end Decoder

end DimosViewer.Rrd
