import DimosViewer.Rrd.Arrival
import DimosViewer.Rrd.Encoder

/-!
# Concatenated streams read back

Streams with and without a footer can follow each other. Behind an end marker that no footer
follows the decoder takes the next stream for a footer, and everything after is lost.
-/

set_option linter.unusedSectionVars false

namespace DimosViewer.Rrd

open LittleEndian Incremental

variable {StoreId StoreInfo ArrowMsg Command Cache Manifest : Type*} [DecidableEq StoreId]
  {transport : Transport StoreId StoreInfo ArrowMsg Command}
  {codecs : Codecs (LogMsg StoreId StoreInfo ArrowMsg Command) Cache Manifest}

-- ---------------------------------------------------------------------------
-- Streams
-- ---------------------------------------------------------------------------

/-- How a stream ends. A legacy encoder wrote an empty end marker and no footer. -/
inductive Ending where
  | footer
  | withoutFooter
  | legacy
deriving DecidableEq, Repr

structure Stream (StoreId StoreInfo ArrowMsg Command : Type*) where
  version : CrateVersion
  options : EncodingOptions
  messages : List (LogMsg StoreId StoreInfo ArrowMsg Command)
  ending : Ending

namespace Stream

def encode (transport : Transport StoreId StoreInfo ArrowMsg Command)
    (s : Stream StoreId StoreInfo ArrowMsg Command) : Except EncodeError Bytes :=
  let e : Encoder StoreId := Encoder.newEager s.version s.options
  let e := if s.ending = .footer then e else e.doNotEmitFooter
  match e.extend transport s.messages with
  | (.error err, _) => .error err
  | (.ok _, e) =>
    match e.finish transport with
    | (.error err, _) => .error err
    | (.ok (), e) => e.intoInner.map fun bytes =>
        if s.ending = .legacy then bytes ++ MessageHeader.toRrdBytes ⟨.end, 0⟩ else bytes

def encodeAll (transport : Transport StoreId StoreInfo ArrowMsg Command) :
    List (Stream StoreId StoreInfo ArrowMsg Command) → Except EncodeError Bytes
  | [] => .ok []
  | s :: streams =>
    match s.encode transport, encodeAll transport streams with
    | .ok bytes, .ok rest => .ok (bytes ++ rest)
    | .error err, _ => .error err
    | _, .error err => .error err

inductive Closed (transport : Transport StoreId StoreInfo ArrowMsg Command) :
    Ending → Bytes → Prop
  | footer (encoded : transport.encodeFooter rrdFooter = .ok payload) (offset : Nat) :
      Closed transport .footer (Encoder.closing transport offset payload)
  | withoutFooter : Closed transport .withoutFooter []
  | legacy : Closed transport .legacy (frame .end [])

structure Parts (s : Stream StoreId StoreInfo ArrowMsg Command)
    (transport : Transport StoreId StoreInfo ArrowMsg Command) (messages tail : Bytes) : Prop where
  frames : Frames transport s.options.compression s.messages messages
  closed : Closed transport s.ending tail

theorem parts_of_encode {s : Stream StoreId StoreInfo ArrowMsg Command}
    (h : s.encode transport = .ok bytes) :
    ∃ messages tail, s.Parts transport messages tail ∧
      bytes = (StreamHeader.opening s.version s.options).toRrdBytes ++ (messages ++ tail) := by
  have hnew : (Encoder.newEager s.version s.options : Encoder StoreId).Writing _ :=
    Encoder.writing_newEager s.version s.options
  simp only [encode] at h
  split at h
  case h_1 => cases h
  case h_2 n e hextend =>
  split at h
  case h_1 => cases h
  case h_2 e' hfinish =>
  by_cases hfooter : s.ending = .footer
  · rw [if_pos hfooter] at hextend
    obtain ⟨messages, hframes, hwriting, hsome⟩ := hnew.extend hextend
    obtain ⟨state, hstate⟩ := Option.isSome_iff_exists.mp hsome
    have hfinished := hwriting.finish hfinish
    simp only [hstate] at hfinished
    obtain ⟨rrdFooter, hencoded, hinner⟩ := hfinished
    rw [hinner] at h
    cases h
    refine ⟨messages, Encoder.closing transport ((StreamHeader.opening s.version s.options).toRrdBytes
      ++ messages).length rrdFooter, ⟨hframes, ?_⟩, ?_⟩
    · rw [hfooter]
      exact .footer hencoded _
    · simp [hfooter]
  · rw [if_neg hfooter] at hextend
    obtain ⟨messages, hframes, hwriting, hsome⟩ := hnew.doNotEmitFooter.extend hextend
    have hnone : e.footerState = none := by
      rw [← Option.not_isSome_iff_eq_none, hsome]
      exact Bool.false_ne_true
    have hfinished := hwriting.finish hfinish
    simp only [hnone] at hfinished
    rw [hfinished] at h
    cases hending : s.ending with
    | footer => exact absurd hending hfooter
    | withoutFooter =>
      cases h
      exact ⟨messages, [], ⟨hframes, hending ▸ .withoutFooter⟩, by simp [hending]⟩
    | legacy =>
      cases h
      refine ⟨messages, frame .end [], ⟨hframes, hending ▸ .legacy⟩, ?_⟩
      simp [hending, frame]

end Stream

inductive EncodedStreams (transport : Transport StoreId StoreInfo ArrowMsg Command) :
    List (Stream StoreId StoreInfo ArrowMsg Command) → Bytes → Prop
  | nil : EncodedStreams transport [] []
  | cons {s : Stream StoreId StoreInfo ArrowMsg Command} {messages tail : Bytes}
      {streams : List (Stream StoreId StoreInfo ArrowMsg Command)} {bytes : Bytes}
      (parts : s.Parts transport messages tail) (rest : EncodedStreams transport streams bytes) :
      EncodedStreams transport (s :: streams)
        ((StreamHeader.opening s.version s.options).toRrdBytes ++ (messages ++ (tail ++ bytes)))

theorem encoded_of_encodeAll {streams : List (Stream StoreId StoreInfo ArrowMsg Command)}
    (h : Stream.encodeAll transport streams = .ok bytes) : EncodedStreams transport streams bytes := by
  induction streams generalizing bytes with
  | nil =>
    cases h
    exact .nil
  | cons s streams ih =>
    simp only [Stream.encodeAll] at h
    split at h
    case h_1 first rest hfirst hrest =>
      obtain ⟨messages, tail, hparts, rfl⟩ := Stream.parts_of_encode hfirst
      cases h
      simpa using EncodedStreams.cons hparts (ih hrest)
    case h_2 => cases h
    case h_3 => cases h

/-- The bytes where a footer would have its marks. -/
theorem marks_frame (kind : MessageKind) (payload more : Bytes)
    (header : Bytes) (hheader : header.length = StreamHeader.ENCODED_SIZE_BYTES) :
    StreamFooter.marks (header ++ (frame kind payload ++ more)) = encode 8 payload.length := by
  have hdrop : (header ++ (frame kind payload ++ more)).drop
      StreamFooter.ENCODED_SIZE_BYTES_SINGLE_ENTRY = (frame kind payload ++ more).drop 8 := by
    rw [List.drop_append, List.drop_of_length_le (by rw [hheader]; decide), hheader]
    rfl
  rw [StreamFooter.marks, hdrop, frame, List.append_assoc,
    List.drop_append_of_le_length (by simp [MessageHeader.ENCODED_SIZE_BYTES]),
    MessageHeader.drop_toRrdBytes, List.take_append_of_le_length (by simp),
    List.take_of_length_le (by simp)]

theorem marks_opening (version : CrateVersion) (options : EncodingOptions) (more : Bytes)
    (header : Bytes) (hheader : header.length = StreamHeader.ENCODED_SIZE_BYTES) :
    (StreamFooter.marks (header ++
      ((StreamHeader.opening version options).toRrdBytes ++ more))).take 4 =
        options.toRrdBytes := by
  have hdrop : (header ++ ((StreamHeader.opening version options).toRrdBytes ++ more)).drop
      StreamFooter.ENCODED_SIZE_BYTES_SINGLE_ENTRY = options.toRrdBytes ++ more := by
    rw [List.drop_append, List.drop_of_length_le (by rw [hheader]; decide), hheader]
    rfl
  rw [StreamFooter.marks, hdrop, List.take_take, List.take_append_of_le_length (by simp)]
  rfl

/-- A length that looks like the marks of a footer is longer than any payload. -/
theorem encode_ne_marks {n : Nat} (h : n < 2 ^ 62) :
    encode 8 n ≠ RRD_FOURCC ++ StreamFooter.RRD_IDENTIFIER := by
  intro heq
  have hdecode : decode (encode 8 n) = n := decode_encode (by omega)
  rw [heq] at hdecode
  have : decode (RRD_FOURCC ++ StreamFooter.RRD_IDENTIFIER) = 0x544F4F4632465252 := by decide
  omega

theorem options_ne_fourcc (options : EncodingOptions) : options.toRrdBytes ≠ RRD_FOURCC := by
  obtain ⟨compression, serializer⟩ := options
  cases compression <;> cases serializer <;> decide

theorem EncodedStreams.marks_ne {streams : List (Stream StoreId StoreInfo ArrowMsg Command)}
    (h : EncodedStreams transport streams bytes) (hlen : StreamFooter.ENCODED_SIZE_BYTES ≤ bytes.length) :
    StreamFooter.marks bytes ≠ RRD_FOURCC ++ StreamFooter.RRD_IDENTIFIER := by
  cases h with
  | nil => simp [StreamFooter.ENCODED_SIZE_BYTES] at hlen
  | @cons s messages tail streams rest hparts hrest =>
    have hheader := StreamHeader.length_opening s.version s.options
    obtain ⟨hframes, hclosed⟩ := hparts
    generalize s.messages = list at hframes
    cases hframes with
    | @cons message payload size list' bytes' hencode htail =>
      rw [List.append_assoc, marks_frame _ _ _ _ hheader]
      exact encode_ne_marks (by have := payload.fits; omega)
    | nil =>
      rw [List.nil_append] at hlen ⊢
      generalize s.ending = ending at hclosed
      cases hclosed with
      | @footer rrdFooter payload hencoded offset =>
        rw [Encoder.closing, List.append_assoc, marks_frame _ _ _ _ hheader]
        exact encode_ne_marks (by have := payload.fits; omega)
      | legacy =>
        rw [marks_frame _ _ _ _ hheader]
        exact encode_ne_marks (by simp)
      | withoutFooter =>
        rw [List.nil_append] at hlen ⊢
        cases hrest with
        | nil => simp [StreamFooter.ENCODED_SIZE_BYTES, hheader, StreamHeader.ENCODED_SIZE_BYTES] at hlen
        | @cons s' messages' tail' streams' rest' hparts' hrest' =>
          intro heq
          have htake := congrArg (List.take 4) heq
          rw [marks_opening _ _ _ _ hheader] at htake
          exact options_ne_fourcc s'.options htake

-- ---------------------------------------------------------------------------
-- One frame after the other
-- ---------------------------------------------------------------------------

structure Codecs.ReadBack (codecs : Codecs (LogMsg StoreId StoreInfo ArrowMsg Command) Cache Manifest)
    (transport : Transport StoreId StoreInfo ArrowMsg Command)
    (s : Stream StoreId StoreInfo ArrowMsg Command) : Prop where
  message : ∀ message ∈ s.messages, ∀ payload size,
    transport.encodeMessage s.options.compression message = .ok (payload, size) →
      ∀ byteSpan cache, ∃ cache', codecs.decodeMessage payload.bytes byteSpan message.kind cache
        (some s.version.reread) = (.ok message, cache')
  footer : ∀ rrdFooter payload, transport.encodeFooter rrdFooter = .ok payload →
    ∃ manifests, codecs.decodeFooter payload.bytes = .ok manifests

theorem front_append_self (bytes rest : Bytes) :
    front bytes.length (bytes ++ rest) = some bytes :=
  front_eq_some_iff.mpr ⟨by simp, by simp⟩

theorem advance_of_read {c c' : Control Cache Manifest}
    {flow : Flow (LogMsg StoreId StoreInfo ArrowMsg Command)}
    (h : (⟨c, position⟩ : Cursor Cache Manifest).read codecs pending =
      some (.ok (c', flow), consumed)) (produced) :
    (Cursor.machine codecs).advance? ⟨.ok ⟨c, position⟩, pending, produced⟩ =
      some ⟨.ok ⟨c', position + consumed⟩, pending.drop consumed,
        produced ++ flow.output.toList⟩ := by
  simp [Machine.advance?, Cursor.machine, h]

theorem advances_frame {c : Control Cache Manifest} (hs : c.state = .waitingForMessageHeader)
    (kind : MessageKind) (payload : Payload) (position) (rest : Bytes) (produced) :
    (Cursor.machine codecs).Advances ⟨.ok ⟨c, position⟩, frame kind payload.bytes ++ rest, produced⟩
      ⟨.ok ⟨{ c with state := .waitingForMessagePayload ⟨kind, payload.bytes.length⟩ },
        position + MessageHeader.ENCODED_SIZE_BYTES⟩, payload.bytes ++ rest, produced⟩ := by
  have hlen : payload.bytes.length < 2 ^ 64 := by
    have := payload.fits
    omega
  have hheader : MessageHeader.fromRrdBytes (MessageHeader.toRrdBytes ⟨kind, payload.bytes.length⟩) =
      .ok ⟨kind, payload.bytes.length⟩ := MessageHeader.fromRrdBytes_toRrdBytes hlen
  have hfront := front_append_self (MessageHeader.toRrdBytes ⟨kind, payload.bytes.length⟩)
    (payload.bytes ++ rest)
  rw [MessageHeader.length_toRrdBytes] at hfront
  have hread : (⟨c, position⟩ : Cursor Cache Manifest).read codecs
      (frame kind payload.bytes ++ rest) = some (.ok
        ({ c with state := .waitingForMessagePayload ⟨kind, payload.bytes.length⟩ }, .tryRead),
        MessageHeader.ENCODED_SIZE_BYTES) := by
    simp [Cursor.read, hs, frame, hfront, Cursor.messageHeader, hheader]
  refine .single ?_
  rw [advance_of_read hread]
  simp [frame, Flow.output]

theorem advances_payload {c : Control Cache Manifest} {payload : Payload}
    (hs : c.state = .waitingForMessagePayload ⟨kind, payload.bytes.length⟩)
    (position) (rest : Bytes) (produced)
    (hcontrol : c.messagePayload codecs ⟨kind, payload.bytes.length⟩ position payload.bytes =
      (c', flow)) :
    (Cursor.machine codecs).Advances ⟨.ok ⟨c, position⟩, payload.bytes ++ rest, produced⟩
      ⟨.ok ⟨c', position + payload.bytes.length⟩, rest, produced ++ flow.output.toList⟩ := by
  have hfront := front_append_self payload.bytes rest
  have hsmall : ¬ ISIZE_MAX < payload.bytes.length := by
    have := payload.fits
    unfold ISIZE_MAX
    omega
  have hread : (⟨c, position⟩ : Cursor Cache Manifest).read codecs (payload.bytes ++ rest) =
      some (.ok (c', flow), payload.bytes.length) := by
    simp [Cursor.read, hs, hsmall, hfront, hcontrol]
  refine .single ?_
  rw [advance_of_read hread]
  simp

theorem advances_frames {s : Stream StoreId StoreInfo ArrowMsg Command}
    (hcodecs : codecs.ReadBack transport s)
    (hframes : Frames transport s.options.compression messages bytes)
    (hmem : ∀ message ∈ messages, message ∈ s.messages)
    {c : Control Cache Manifest} (hs : c.state = .waitingForMessageHeader)
    (hv : c.version = some s.version.reread) (position) (rest : Bytes) (produced) :
    ∃ c' : Control Cache Manifest, c'.state = .waitingForMessageHeader ∧
      (Cursor.machine codecs).Advances ⟨.ok ⟨c, position⟩, bytes ++ rest, produced⟩
        ⟨.ok ⟨c', position + bytes.length⟩, rest, produced ++ messages.map .ok⟩ := by
  induction hframes generalizing c position produced with
  | nil => exact ⟨c, hs, by simpa using .refl⟩
  | @cons message payload size messages bytes hencode htail ih =>
    obtain ⟨cache, hdecode⟩ := hcodecs.message message (hmem _ List.mem_cons_self) payload size
      hencode ⟨position + MessageHeader.ENCODED_SIZE_BYTES, payload.bytes.length⟩ c.appIdCache
    have hcontrol : Control.messagePayload codecs
        { c with state := .waitingForMessagePayload ⟨message.kind, payload.bytes.length⟩ }
        ⟨message.kind, payload.bytes.length⟩ (position + MessageHeader.ENCODED_SIZE_BYTES)
        payload.bytes = ({ c with appIdCache := cache, state := .waitingForMessageHeader },
          .done (.ok (some message))) := by
      have hkind : codecs.decode payload.bytes
          ⟨position + MessageHeader.ENCODED_SIZE_BYTES, payload.bytes.length⟩ message.kind
          c.appIdCache c.version = (.ok (some message), cache) := by
        rw [hv]
        cases message <;> simp_all [Codecs.decode, LogMsg.kind, Except.map]
      simp [Control.messagePayload, hkind]
    obtain ⟨c', hs', hadvances⟩ := ih (fun m hm => hmem m (List.mem_cons_of_mem _ hm))
      (c := { c with appIdCache := cache, state := .waitingForMessageHeader }) rfl hv
      (position + MessageHeader.ENCODED_SIZE_BYTES + payload.bytes.length)
      (produced ++ [.ok message])
    refine ⟨c', hs', ?_⟩
    rw [List.append_assoc]
    refine (advances_frame hs message.kind payload position (bytes ++ rest) produced).trans ?_
    refine (advances_payload rfl _ (bytes ++ rest) produced hcontrol).trans ?_
    simpa [Flow.output, Nat.add_assoc] using hadvances

-- ---------------------------------------------------------------------------
-- One stream after the other
-- ---------------------------------------------------------------------------

def Ending.state : Ending → DecoderState
  | .footer => .waitingForStreamHeader
  | .withoutFooter => .waitingForMessageHeader
  | .legacy => .waitingForStreamFooter

def AtOpening (c : Control Cache Manifest) : Prop :=
  c.state = .waitingForStreamHeader ∨ c.state = .waitingForMessageHeader

theorem advances_streamFooter
    (codecs : Codecs (LogMsg StoreId StoreInfo ArrowMsg Command) Cache Manifest)
    {c : Control Cache Manifest} (hs : c.state = .waitingForStreamFooter) (computeCrc : Bytes → UInt32) (offset : Nat)
    (rrdFooterBytes : Bytes) (position) (rest : Bytes)
    (produced : List (Except CodecError (LogMsg StoreId StoreInfo ArrowMsg Command))) :
    (Cursor.machine codecs).Advances
      ⟨.ok ⟨c, position⟩, (StreamFooter.fromRrdFooterBytes computeCrc offset
        rrdFooterBytes).toRrdBytes ++ rest, produced⟩
      ⟨.ok ⟨{ c with state := .waitingForStreamHeader },
        position + StreamFooter.ENCODED_SIZE_BYTES⟩, rest, produced⟩ := by
  obtain ⟨footer, hfooter⟩ := StreamFooter.fromRrdBytes_ok computeCrc offset rrdFooterBytes
  have hlength := StreamFooter.length_fromRrdFooterBytes computeCrc offset rrdFooterBytes
  generalize (StreamFooter.fromRrdFooterBytes computeCrc offset rrdFooterBytes).toRrdBytes = bytes
    at hfooter hlength
  have hfront := front_append_self bytes rest
  rw [hlength] at hfront
  have hread : (⟨c, position⟩ : Cursor Cache Manifest).read codecs (bytes ++ rest) =
      some (.ok ({ c with state := .waitingForStreamHeader }, .tryRead),
        StreamFooter.ENCODED_SIZE_BYTES) := by
    simp [Cursor.read, hs, hfront, Control.streamFooter, hfooter]
  refine .single ?_
  rw [advance_of_read hread, List.drop_left' hlength]
  simp [Flow.output]

theorem advances_end {c : Control Cache Manifest} (hs : c.state = .waitingForMessageHeader)
    (payload : Payload)
    (hfooter : payload.bytes ≠ [] → ∃ manifests, codecs.decodeFooter payload.bytes = .ok manifests)
    (position) (rest : Bytes) (produced) :
    ∃ c' : Control Cache Manifest, c'.state = .waitingForStreamFooter ∧
      (Cursor.machine codecs).Advances
        ⟨.ok ⟨c, position⟩, frame .end payload.bytes ++ rest, produced⟩
        ⟨.ok ⟨c', position + (frame .end payload.bytes).length⟩, rest, produced⟩ := by
  have hcontrol : ∃ manifests, Control.messagePayload codecs
      { c with state := .waitingForMessagePayload ⟨.end, payload.bytes.length⟩ }
      ⟨.end, payload.bytes.length⟩ (position + MessageHeader.ENCODED_SIZE_BYTES) payload.bytes =
        ({ c with rrdManifests := manifests, state := .waitingForStreamFooter }, .tryRead) := by
    by_cases hempty : payload.bytes = []
    · exact ⟨c.rrdManifests, by simp [Control.messagePayload, Codecs.decode, hempty]⟩
    · obtain ⟨manifests, hmanifests⟩ := hfooter hempty
      exact ⟨c.rrdManifests ++ manifests,
        by simp [Control.messagePayload, Codecs.decode, hempty, hmanifests]⟩
  obtain ⟨manifests, hcontrol⟩ := hcontrol
  refine ⟨{ c with rrdManifests := manifests, state := .waitingForStreamFooter }, rfl, ?_⟩
  refine (advances_frame hs .end payload position rest produced).trans ?_
  simpa [Flow.output, Nat.add_assoc] using advances_payload rfl _ rest produced hcontrol

theorem advances_closed {s : Stream StoreId StoreInfo ArrowMsg Command}
    (hcodecs : codecs.ReadBack transport s) (hclosed : Stream.Closed transport ending bytes)
    {c : Control Cache Manifest} (hs : c.state = .waitingForMessageHeader)
    (position) (rest : Bytes) (produced) :
    ∃ c' : Control Cache Manifest, c'.state = ending.state ∧
      (Cursor.machine codecs).Advances ⟨.ok ⟨c, position⟩, bytes ++ rest, produced⟩
        ⟨.ok ⟨c', position + bytes.length⟩, rest, produced⟩ := by
  cases hclosed with
  | withoutFooter => exact ⟨c, hs, .refl⟩
  | legacy => exact advances_end hs ⟨[], by decide⟩ (absurd rfl) position rest produced
  | @footer rrdFooter payload hencoded offset =>
    rw [Encoder.closing, List.append_assoc]
    obtain ⟨c', hs', hadvances⟩ := advances_end hs payload
      (fun _ => hcodecs.footer rrdFooter payload hencoded) position _ produced
    have hfooter := advances_streamFooter codecs hs' transport.computeCrc
      (offset + MessageHeader.ENCODED_SIZE_BYTES) payload.bytes
      (position + (frame .end payload.bytes).length) rest produced
    refine ⟨{ c' with state := .waitingForStreamHeader }, rfl, ?_⟩
    rw [List.length_append, StreamFooter.length_fromRrdFooterBytes, ← Nat.add_assoc]
    exact hadvances.trans hfooter

/-- A message could follow: the header of a stream is recognised without being read. -/
theorem advances_recognised
    (codecs : Codecs (LogMsg StoreId StoreInfo ArrowMsg Command) Cache Manifest)
    {c : Control Cache Manifest} (hs : c.state = .waitingForMessageHeader)
    (hfourcc : pending.take 4 = RRD_FOURCC)
    (hlen : MessageHeader.ENCODED_SIZE_BYTES ≤ pending.length) (position)
    (produced : List (Except CodecError (LogMsg StoreId StoreInfo ArrowMsg Command))) :
    (Cursor.machine codecs).Advances ⟨.ok ⟨c, position⟩, pending, produced⟩
      ⟨.ok ⟨{ c with state := .waitingForStreamHeader }, position⟩, pending, produced⟩ := by
  have hfront : front MessageHeader.ENCODED_SIZE_BYTES pending =
      some (pending.take MessageHeader.ENCODED_SIZE_BYTES) := front_eq_some_iff.mpr ⟨hlen, rfl⟩
  have htake : (pending.take MessageHeader.ENCODED_SIZE_BYTES).take 4 = RRD_FOURCC := by
    rw [List.take_take]
    exact hfourcc
  obtain ⟨text, htext⟩ := MessageHeader.fromRrdBytes_of_fourcc htake
  have hread : (⟨c, position⟩ : Cursor Cache Manifest).read codecs pending =
      some (.ok ({ c with state := .waitingForStreamHeader }, .tryRead), 0) := by
    simp [Cursor.read, hs, hfront, Cursor.messageHeader, htext]
  refine .single ?_
  rw [advance_of_read hread]
  simp [Flow.output]

theorem advances_opening
    (codecs : Codecs (LogMsg StoreId StoreInfo ArrowMsg Command) Cache Manifest)
    {c : Control Cache Manifest} (hs : c.state = .waitingForStreamHeader)
    (version : CrateVersion) (hsupported : version.Supported) (options : EncodingOptions)
    (position) (rest : Bytes)
    (produced : List (Except CodecError (LogMsg StoreId StoreInfo ArrowMsg Command))) :
    (Cursor.machine codecs).Advances
      ⟨.ok ⟨c, position⟩, (StreamHeader.opening version options).toRrdBytes ++ rest, produced⟩
      ⟨.ok ⟨{ c with version := some version.reread, options, state := .waitingForMessageHeader },
        position + StreamHeader.ENCODED_SIZE_BYTES⟩, rest, produced⟩ := by
  have hfront := front_append_self (StreamHeader.opening version options).toRrdBytes rest
  rw [StreamHeader.length_opening] at hfront
  have hread : (⟨c, position⟩ : Cursor Cache Manifest).read codecs
      ((StreamHeader.opening version options).toRrdBytes ++ rest) = some (.ok
        ({ c with version := some version.reread, options, state := .waitingForMessageHeader },
          .tryRead), StreamHeader.ENCODED_SIZE_BYTES) := by
    simp [Cursor.read, hs, hfront, Control.streamHeader,
      StreamHeader.read_opening version options hsupported]
  refine .single ?_
  rw [advance_of_read hread, List.drop_left' (StreamHeader.length_opening version options)]
  simp [Flow.output]

theorem advances_stream {s : Stream StoreId StoreInfo ArrowMsg Command}
    (hcodecs : codecs.ReadBack transport s) (hparts : s.Parts transport messages tail)
    (hsupported : s.version.Supported) {c : Control Cache Manifest}
    (hs : c.state = .waitingForStreamHeader) (position) (rest : Bytes) (produced) :
    ∃ (c' : Control Cache Manifest) (position' : Nat), c'.state = s.ending.state ∧ 0 < position' ∧
      (Cursor.machine codecs).Advances
        ⟨.ok ⟨c, position⟩, (StreamHeader.opening s.version s.options).toRrdBytes ++
          (messages ++ (tail ++ rest)), produced⟩
        ⟨.ok ⟨c', position'⟩, rest, produced ++ s.messages.map .ok⟩ := by
  have hopening := advances_opening codecs hs s.version hsupported s.options position
    (messages ++ (tail ++ rest)) produced
  obtain ⟨c₁, hs₁, hframes⟩ := advances_frames hcodecs hparts.frames (fun _ => id)
    (c := { c with version := some s.version.reread, options := s.options,
                   state := .waitingForMessageHeader }) rfl rfl
    (position + StreamHeader.ENCODED_SIZE_BYTES) (tail ++ rest) produced
  obtain ⟨c₂, hs₂, hclosed⟩ := advances_closed hcodecs hparts.closed hs₁ _ rest _
  exact ⟨c₂, _, hs₂, by simp [StreamHeader.ENCODED_SIZE_BYTES],
    (hopening.trans hframes).trans hclosed⟩

-- ---------------------------------------------------------------------------
-- Where decoding stops
-- ---------------------------------------------------------------------------

def Stops (codecs : Codecs (LogMsg StoreId StoreInfo ArrowMsg Command) Cache Manifest)
    (c : Config UInt8 (Except Panic (Cursor Cache Manifest))
      (Except CodecError (LogMsg StoreId StoreInfo ArrowMsg Command))) : Prop :=
  ∃ cursor pending, (Cursor.machine codecs).settle c = ⟨.ok cursor, pending, c.produced⟩

theorem stops_of_read_none {c : Control Cache Manifest}
    (h : (⟨c, position⟩ : Cursor Cache Manifest).read codecs pending = none) (produced) :
    Stops codecs ⟨.ok ⟨c, position⟩, pending, produced⟩ := by
  refine ⟨⟨c, position⟩, pending, Machine.settle_of_waiting _ ?_⟩
  rw [Machine.advance?_eq_none_iff]
  simp [Cursor.machine, h]

theorem stops_of_aborted {c : Control Cache Manifest}
    (h : (⟨c, position⟩ : Cursor Cache Manifest).read codecs pending =
      some (.ok ({ c with state := .aborted }, .done (.ok none)), consumed)) (produced) :
    Stops codecs ⟨.ok ⟨c, position⟩, pending, produced⟩ := by
  have haborted : Stops codecs ⟨.ok ⟨{ c with state := .aborted }, position + consumed⟩,
      pending.drop consumed, produced⟩ := stops_of_read_none (by simp [Cursor.read]) produced
  obtain ⟨cursor, rest, hsettle⟩ := haborted
  refine ⟨cursor, rest, ?_⟩
  rw [Machine.settle_of_advance _ (advance_of_read h produced)]
  simpa [Flow.output] using hsettle

/-- Behind a legacy end marker the next stream is taken for a footer. -/
theorem stops_behind_legacy
    (codecs : Codecs (LogMsg StoreId StoreInfo ArrowMsg Command) Cache Manifest)
    {streams : List (Stream StoreId StoreInfo ArrowMsg Command)}
    (hencoded : EncodedStreams transport streams bytes) {c : Control Cache Manifest}
    (hs : c.state = .waitingForStreamFooter) (position) (produced) :
    Stops codecs ⟨.ok ⟨c, position⟩, bytes, produced⟩ := by
  by_cases hlen : StreamFooter.ENCODED_SIZE_BYTES ≤ bytes.length
  · have hmarks := hencoded.marks_ne hlen
    have hsame : StreamFooter.marks (bytes.take StreamFooter.ENCODED_SIZE_BYTES) =
        StreamFooter.marks bytes := by
      rw [StreamFooter.marks, List.drop_take, List.take_take]
      rfl
    obtain ⟨err, herr⟩ := StreamFooter.fromRrdBytes_of_marks
      (List.length_take_of_le hlen) (hsame ▸ hmarks)
    have hread : (⟨c, position⟩ : Cursor Cache Manifest).read codecs bytes =
        some (.ok ({ c with state := .aborted }, .done (.ok none)),
          StreamFooter.ENCODED_SIZE_BYTES) := by
      simp [Cursor.read, hs, front, hlen, Control.streamFooter, herr]
    exact stops_of_aborted hread produced
  · refine stops_of_read_none ?_ produced
    simp [Cursor.read, hs, front, hlen]

/-- A later stream of an unsupported version ends everything. -/
theorem stops_at_unsupported
    (codecs : Codecs (LogMsg StoreId StoreInfo ArrowMsg Command) Cache Manifest)
    {version : CrateVersion} (hunsupported : ¬ version.Supported)
    (options : EncodingOptions) {c : Control Cache Manifest} (hs : AtOpening c)
    (hposition : 0 < position) (rest : Bytes) (produced) :
    Stops codecs ⟨.ok ⟨c, position⟩,
      (StreamHeader.opening version options).toRrdBytes ++ rest, produced⟩ := by
  have hfront := front_append_self (StreamHeader.opening version options).toRrdBytes rest
  rw [StreamHeader.length_opening] at hfront
  have hheader (c : Control Cache Manifest) (hs : c.state = .waitingForStreamHeader) :
      Stops codecs ⟨.ok ⟨c, position⟩,
        (StreamHeader.opening version options).toRrdBytes ++ rest, produced⟩ := by
    have hread : (⟨c, position⟩ : Cursor Cache Manifest).read codecs
        ((StreamHeader.opening version options).toRrdBytes ++ rest) = some (.ok
          ({ c with state := .aborted }, .done (.ok none)), StreamHeader.ENCODED_SIZE_BYTES) := by
      simp [Cursor.read, hs, hfront, Control.streamHeader, hposition.ne',
        StreamHeader.read_opening_unsupported version options hunsupported]
    exact stops_of_aborted hread produced
  rcases hs with hs | hs
  · exact hheader c hs
  · by_cases hlen : MessageHeader.ENCODED_SIZE_BYTES ≤
        ((StreamHeader.opening version options).toRrdBytes ++ rest).length
    · have hrecognised := advances_recognised codecs hs rfl hlen position produced
      obtain ⟨cursor, pending, hsettle⟩ := hheader { c with state := .waitingForStreamHeader } rfl
      exact ⟨cursor, pending, (hrecognised.settle_eq _).trans hsettle⟩
    · have hread : (⟨c, position⟩ : Cursor Cache Manifest).read codecs
          ((StreamHeader.opening version options).toRrdBytes ++ rest) = none := by
        simp only [Cursor.read, hs, front, if_neg hlen, Option.map_none]
      exact stops_of_read_none hread produced

-- ---------------------------------------------------------------------------
-- The main result
-- ---------------------------------------------------------------------------

def reach : List (Stream StoreId StoreInfo ArrowMsg Command) →
    List (LogMsg StoreId StoreInfo ArrowMsg Command)
  | [] => []
  | s :: streams =>
    if s.version.Supported then
      s.messages ++ if s.ending = .legacy then [] else reach streams
    else []

theorem Frames.eq_nil_of_short (h : Frames transport compression messages bytes)
    (hlen : bytes.length < MessageHeader.ENCODED_SIZE_BYTES) : messages = [] ∧ bytes = [] := by
  cases h with
  | nil => exact ⟨rfl, rfl⟩
  | cons =>
    simp only [List.length_append, length_frame] at hlen
    omega

theorem EncodedStreams.eq_nil_of_short {streams : List (Stream StoreId StoreInfo ArrowMsg Command)}
    (h : EncodedStreams transport streams bytes)
    (hlen : bytes.length < StreamHeader.ENCODED_SIZE_BYTES) : streams = [] := by
  cases h with
  | nil => rfl
  | cons =>
    simp only [List.length_append, StreamHeader.length_opening] at hlen
    omega

/-- Where a message could follow, a stream header alone is left unread. Nothing is lost. -/
theorem reach_of_short {s : Stream StoreId StoreInfo ArrowMsg Command}
    {streams : List (Stream StoreId StoreInfo ArrowMsg Command)}
    (hparts : s.Parts transport messages tail) (hrest : EncodedStreams transport streams bytes)
    (hlen : ((StreamHeader.opening s.version s.options).toRrdBytes ++
      (messages ++ (tail ++ bytes))).length < MessageHeader.ENCODED_SIZE_BYTES) :
    reach (s :: streams) = [] := by
  simp only [List.length_append, StreamHeader.length_opening, StreamHeader.ENCODED_SIZE_BYTES,
    MessageHeader.ENCODED_SIZE_BYTES] at hlen
  have hmessages : messages.length < MessageHeader.ENCODED_SIZE_BYTES := by
    unfold MessageHeader.ENCODED_SIZE_BYTES
    omega
  have hnone := (hparts.frames.eq_nil_of_short hmessages).1
  have hstreams := hrest.eq_nil_of_short (by unfold StreamHeader.ENCODED_SIZE_BYTES; omega)
  rw [hstreams, reach, hnone]
  split
  · split <;> rfl
  · rfl

/-- From the first header on, or behind a stream that another may follow. -/
theorem settle_streams {streams : List (Stream StoreId StoreInfo ArrowMsg Command)}
    (hencoded : EncodedStreams transport streams bytes)
    (hcodecs : ∀ s ∈ streams, codecs.ReadBack transport s)
    {c : Control Cache Manifest} (hs : AtOpening c)
    (hfirst : c.state = .waitingForStreamHeader ∧ (∀ s ∈ streams.head?, s.version.Supported) ∨
      0 < position) (produced) :
    ∃ cursor pending, (Cursor.machine codecs).settle ⟨.ok ⟨c, position⟩, bytes, produced⟩ =
      ⟨.ok cursor, pending, produced ++ (reach streams).map .ok⟩ := by
  induction hencoded generalizing c position produced with
  | nil =>
    have hread : (⟨c, position⟩ : Cursor Cache Manifest).read codecs [] = none := by
      rcases hs with hs | hs <;>
        simp [Cursor.read, hs, front, StreamHeader.ENCODED_SIZE_BYTES,
          MessageHeader.ENCODED_SIZE_BYTES]
    simpa [Stops, reach] using stops_of_read_none hread produced
  | @cons s messages tail streams bytes hparts hrest ih =>
    by_cases hsupported : s.version.Supported
    case neg =>
      have hposition : 0 < position := by
        rcases hfirst with ⟨-, hfirst⟩ | hposition
        · exact absurd (hfirst s rfl) hsupported
        · exact hposition
      have hstops := stops_at_unsupported codecs hsupported s.options hs hposition
        (messages ++ (tail ++ bytes)) produced
      simpa [Stops, reach, hsupported] using hstops
    case pos =>
      have hheader (c : Control Cache Manifest) (hs : c.state = .waitingForStreamHeader) :
          ∃ cursor pending, (Cursor.machine codecs).settle ⟨.ok ⟨c, position⟩,
            (StreamHeader.opening s.version s.options).toRrdBytes ++ (messages ++ (tail ++ bytes)),
              produced⟩ = ⟨.ok cursor, pending, produced ++ (reach (s :: streams)).map .ok⟩ := by
        obtain ⟨c', position', hs', hposition', hadvances⟩ := advances_stream
          (hcodecs s List.mem_cons_self) hparts hsupported hs position bytes produced
        rw [hadvances.settle_eq, reach, if_pos hsupported]
        cases hending : s.ending with
        | legacy =>
          rw [hending] at hs'
          have hstops := stops_behind_legacy codecs hrest hs' position'
            (produced ++ s.messages.map .ok)
          simpa [Stops] using hstops
        | footer | withoutFooter =>
          rw [hending] at hs'
          have hrest' := ih (fun s' h => hcodecs s' (List.mem_cons_of_mem _ h))
            (by first | exact .inl hs' | exact .inr hs') (.inr hposition')
            (produced ++ s.messages.map .ok)
          simpa using hrest'
      rcases hs with hs | hs
      · exact hheader c hs
      · by_cases hlen : MessageHeader.ENCODED_SIZE_BYTES ≤
            ((StreamHeader.opening s.version s.options).toRrdBytes ++
              (messages ++ (tail ++ bytes))).length
        · rw [(advances_recognised codecs hs rfl hlen position produced).settle_eq]
          exact hheader { c with state := .waitingForStreamHeader } rfl
        · have hread : (⟨c, position⟩ : Cursor Cache Manifest).read codecs
              ((StreamHeader.opening s.version s.options).toRrdBytes ++
                (messages ++ (tail ++ bytes))) = none := by
            simp only [Cursor.read, hs, front, if_neg hlen, Option.map_none]
          rw [reach_of_short hparts hrest (by omega)]
          simpa [Stops] using stops_of_read_none hread produced

/-- Nothing that has messages comes behind a legacy end marker or has, or comes behind, an
unsupported version. The first version is supported in any case. -/
structure Readable (streams : List (Stream StoreId StoreInfo ArrowMsg Command)) : Prop where
  first : ∀ s ∈ streams.head?, s.version.Supported
  unsupported : ∀ s ∈ streams, ¬ s.version.Supported → s.messages = []
  behind : streams.Pairwise fun s t =>
    s.ending = .legacy ∨ ¬ s.version.Supported → t.messages = []

theorem reach_eq_iff (streams : List (Stream StoreId StoreInfo ArrowMsg Command)) :
    reach streams = streams.flatMap (·.messages) ↔
      (∀ s ∈ streams, ¬ s.version.Supported → s.messages = []) ∧
        streams.Pairwise fun s t => s.ending = .legacy ∨ ¬ s.version.Supported → t.messages = [] := by
  induction streams with
  | nil => simp [reach]
  | cons s streams ih =>
    have hsilent : (∀ t ∈ streams, t.messages = []) →
        (∀ t ∈ streams, ¬ t.version.Supported → t.messages = []) ∧
          streams.Pairwise fun s t =>
            s.ending = .legacy ∨ ¬ s.version.Supported → t.messages = [] :=
      fun h => ⟨fun t ht _ => h t ht,
        List.pairwise_iff_forall_sublist.mpr fun hst _ => h _ (hst.subset (by simp))⟩
    rw [reach, List.flatMap_cons, List.forall_mem_cons, List.pairwise_cons]
    by_cases hsupported : s.version.Supported
    · by_cases hlegacy : s.ending = .legacy
      · rw [if_pos hsupported, if_pos hlegacy, List.append_cancel_left_eq, eq_comm,
          List.flatMap_eq_nil_iff]
        refine ⟨fun h => ⟨⟨absurd hsupported, (hsilent h).1⟩, fun t ht _ => h t ht, (hsilent h).2⟩,
          fun h t ht => h.2.1 t ht (.inl hlegacy)⟩
      · rw [if_pos hsupported, if_neg hlegacy, List.append_cancel_left_eq, ih]
        simp [hsupported, hlegacy]
    · rw [if_neg hsupported, eq_comm, List.append_eq_nil_iff, List.flatMap_eq_nil_iff]
      refine ⟨fun h => ⟨⟨fun _ => h.1, (hsilent h.2).1⟩, fun t ht _ => h.2 t ht, (hsilent h.2).2⟩,
        fun h => ⟨h.1.1 hsupported, fun t ht => h.2.1 t ht (.inr hsupported)⟩⟩

/-- All bytes pushed and `try_read` called until there is nothing more gives these messages, no
error and no panic. -/
def Decodes (codecs : Codecs (LogMsg StoreId StoreInfo ArrowMsg Command) Cache Manifest)
    (cache : Cache) (bytes : Bytes) (messages : List (LogMsg StoreId StoreInfo ArrowMsg Command)) :
    Prop :=
  ∃ d, (Session.run codecs cache [.pushByteChunk bytes]).drain codecs = ⟨.ok d, messages.map .ok⟩

theorem decodes_iff_settle (cache : Cache) (bytes : Bytes)
    (messages : List (LogMsg StoreId StoreInfo ArrowMsg Command)) :
    Decodes codecs cache bytes messages ↔ ∃ cursor pending, (Cursor.machine codecs).settle
      (((Decoder.new cache).config []).push bytes) =
        ⟨.ok cursor, pending, messages.map .ok⟩ := by
  obtain ⟨c, harrival, hfollows⟩ := Session.run_follows codecs cache [.pushByteChunk bytes]
  have hdrain : ((Session.run codecs cache [.pushByteChunk bytes]).drain codecs).Settles codecs c :=
    hfollows.drain_settles
  have hsettles := hdrain.follows
  clear hdrain
  rw [← harrival.settle_push, List.flatMap_singleton, Call.pushed] at hsettles
  unfold Decodes
  generalize (Session.run codecs cache [.pushByteChunk bytes]).drain codecs = s at hsettles ⊢
  generalize (Cursor.machine codecs).settle _ = settled at hsettles ⊢
  cases hsettles with
  | @alive d produced hfitting =>
    refine ⟨?_, ?_⟩
    · rintro ⟨d', hd'⟩
      cases hd'
      exact ⟨_, _, rfl⟩
    · rintro ⟨cursor, pending, hconfig⟩
      cases congrArg Config.produced hconfig
      exact ⟨d, rfl⟩
  | crashed p pending produced =>
    refine ⟨?_, ?_⟩
    · rintro ⟨d', hd'⟩
      cases congrArg Session.decoder hd'
    · rintro ⟨cursor, pending, hconfig⟩
      cases congrArg Config.control hconfig

theorem refused_at_first
    (codecs : Codecs (LogMsg StoreId StoreInfo ArrowMsg Command) Cache Manifest) (cache : Cache)
    {version : CrateVersion} (hunsupported : ¬ version.Supported) (options : EncodingOptions)
    (rest : Bytes) :
    [.error (.incompatibleRerunVersion version.encoded)] <+:
      ((Cursor.machine codecs).settle (((Decoder.new cache).config []).push
        ((StreamHeader.opening version options).toRrdBytes ++ rest))).produced := by
  have hfront := front_append_self (StreamHeader.opening version options).toRrdBytes rest
  rw [StreamHeader.length_opening] at hfront
  have hread : (⟨(Decoder.new cache).toControl, 0⟩ : Cursor Cache Manifest).read codecs
      ((StreamHeader.opening version options).toRrdBytes ++ rest) = some (.ok
        ((Decoder.new cache).toControl,
          .done (.error (.incompatibleRerunVersion version.encoded))),
        StreamHeader.ENCODED_SIZE_BYTES) := by
    simp [Cursor.read, Decoder.new, hfront, Control.streamHeader,
      StreamHeader.read_opening_unsupported version options hunsupported]
  have hadvance := advance_of_read hread []
  have hstart : (((Decoder.new cache : Decoder Cache Manifest).config []).push
      ((StreamHeader.opening version options).toRrdBytes ++ rest) :
        Config UInt8 (Except Panic (Cursor Cache Manifest))
          (Except CodecError (LogMsg StoreId StoreInfo ArrowMsg Command))) =
      ⟨.ok ⟨(Decoder.new cache).toControl, 0⟩,
        (StreamHeader.opening version options).toRrdBytes ++ rest, []⟩ := rfl
  rw [hstart]
  simpa [Flow.output] using Machine.produced_prefix_of_advance _ hadvance

theorem decodes_iff_reach {streams : List (Stream StoreId StoreInfo ArrowMsg Command)}
    (hencoded : EncodedStreams transport streams bytes)
    (hcodecs : ∀ s ∈ streams, codecs.ReadBack transport s)
    (hfirst : ∀ s ∈ streams.head?, s.version.Supported) (cache : Cache)
    (messages : List (LogMsg StoreId StoreInfo ArrowMsg Command)) :
    Decodes codecs cache bytes messages ↔ reach streams = messages := by
  obtain ⟨cursor, pending, hsettle⟩ := settle_streams hencoded hcodecs
    (c := (Decoder.new cache).toControl) (.inl rfl) (.inl ⟨rfl, hfirst⟩) []
  have hstart : ((Decoder.new cache : Decoder Cache Manifest).config
      ([] : List (Except CodecError (LogMsg StoreId StoreInfo ArrowMsg Command)))).push bytes =
      ⟨.ok ⟨(Decoder.new cache).toControl, 0⟩, bytes, []⟩ := rfl
  rw [decodes_iff_settle, hstart, hsettle, List.nil_append]
  refine ⟨?_, fun h => ⟨cursor, pending, by rw [h]⟩⟩
  rintro ⟨cursor', pending', h⟩
  exact (List.map_inj_right fun _ _ => Except.ok.inj).mp (congrArg Config.produced h)

/-- Decoding the concatenation of encoded streams gives back all their messages exactly when
none of these is hidden behind a legacy end marker or an unsupported version. -/
theorem decodes_encodeAll_iff {streams : List (Stream StoreId StoreInfo ArrowMsg Command)}
    (hencode : Stream.encodeAll transport streams = .ok bytes)
    (hcodecs : ∀ s ∈ streams, codecs.ReadBack transport s) (cache : Cache) :
    Decodes codecs cache bytes (streams.flatMap (·.messages)) ↔ Readable streams := by
  have hencoded := encoded_of_encodeAll hencode
  by_cases hfirst : ∀ s ∈ streams.head?, s.version.Supported
  · rw [decodes_iff_reach hencoded hcodecs hfirst, reach_eq_iff]
    exact ⟨fun h => ⟨hfirst, h.1, h.2⟩, fun h => ⟨h.unsupported, h.behind⟩⟩
  · refine iff_of_false ?_ fun h => hfirst h.first
    rw [decodes_iff_settle]
    rintro ⟨cursor, pending, hsettle⟩
    cases hencoded with
    | nil => exact hfirst nofun
    | @cons s frames tail streams rest hparts hrest =>
      have hunsupported : ¬ s.version.Supported := fun h => hfirst (by simpa using h)
      have hpre := refused_at_first codecs cache hunsupported s.options
        (frames ++ (tail ++ rest))
      rw [hsettle] at hpre
      have hmem := hpre.subset List.mem_cons_self
      simp at hmem

/-- Store infos of one byte, and footers without manifests. -/
def byteTransport : Transport Unit UInt8 Empty Empty where
  encodeMessage
    | _, .setStoreInfo _ info => .ok (⟨[info], by simp [MessageHeader.ENCODED_SIZE_BYTES]⟩, 1)
  chunkBatch := nofun
  encodeFooter _ := .ok ⟨[], by decide⟩
  computeCrc _ := 0

def byteCodecs : Codecs (LogMsg Unit UInt8 Empty Empty) Unit Unit where
  decodeMessage
    | [info], _, _, _, _ => (.ok (.setStoreInfo () info), ())
    | _, _, _, _, _ => (.error (.payload ""), ())
  decodeFooter _ := .ok []

theorem byteCodecs_readBack (s : Stream Unit UInt8 Empty Empty) :
    byteCodecs.ReadBack byteTransport s := by
  refine ⟨?_, fun _ _ _ => ⟨[], rfl⟩⟩
  rintro (⟨storeId, info⟩ | ⟨-, msg⟩ | command) - payload size hencode byteSpan cache
  · cases hencode
    exact ⟨(), rfl⟩
  · exact msg.elim
  · exact command.elim

def byteStream (info : UInt8) (ending : Ending) : Stream Unit UInt8 Empty Empty :=
  ⟨.LOCAL, .PROTOBUF_UNCOMPRESSED, [.setStoreInfo () info], ending⟩

theorem decodes_encodeAll_iff_three :
    ∃ bytes, Stream.encodeAll byteTransport
        [byteStream 1 .footer, byteStream 2 .withoutFooter, byteStream 3 .legacy] = .ok bytes ∧
      Decodes byteCodecs () bytes [.setStoreInfo () 1, .setStoreInfo () 2, .setStoreInfo () 3] := by
  obtain ⟨bytes, hencode⟩ : ∃ bytes, Stream.encodeAll byteTransport
      [byteStream 1 .footer, byteStream 2 .withoutFooter, byteStream 3 .legacy] = .ok bytes :=
    ⟨_, rfl⟩
  refine ⟨bytes, hencode,
    (decodes_encodeAll_iff hencode (fun s _ => byteCodecs_readBack s) ()).mpr ⟨?_, ?_, ?_⟩⟩ <;>
  decide

/-- A stream behind a legacy end marker is lost. -/
theorem lost_behind_legacy :
    ∃ bytes, Stream.encodeAll byteTransport [byteStream 1 .legacy, byteStream 2 .footer] =
        .ok bytes ∧
      ¬ Decodes byteCodecs () bytes [.setStoreInfo () 1, .setStoreInfo () 2] := by
  obtain ⟨bytes, hencode⟩ : ∃ bytes, Stream.encodeAll byteTransport
      [byteStream 1 .legacy, byteStream 2 .footer] = .ok bytes := ⟨_, rfl⟩
  refine ⟨bytes, hencode, ?_⟩
  rw [decodes_iff_reach (encoded_of_encodeAll hencode) (fun s _ => byteCodecs_readBack s)
    (by decide)]
  decide

end DimosViewer.Rrd
