import DimosViewer.Incremental
import DimosViewer.Rrd.Decoder

/-!
# Decoding does not depend on how the bytes arrive

A machine that sees all pending bytes as one list says what the decoder is for. The decoder
follows it with its queue of chunks and its scratch buffer, and so every way of cutting the
input, and of calling in between, ends the same way.
-/

namespace DimosViewer.Rrd

open LittleEndian Incremental

variable {Message Cache Manifest : Type*} {codecs : Codecs Message Cache Manifest}

-- ---------------------------------------------------------------------------
-- The machine over contiguous bytes
-- ---------------------------------------------------------------------------

def front (n : Nat) (pending : Bytes) : Option Bytes :=
  if n ≤ pending.length then some (pending.take n) else none

theorem front_eq_some_iff : front n pending = some bytes ↔
    n ≤ pending.length ∧ pending.take n = bytes := by
  simp [front]

theorem front_append (h : front n pending = some bytes) (more : Bytes) :
    front n (pending ++ more) = some bytes := by
  obtain ⟨hle, rfl⟩ := front_eq_some_iff.mp h
  exact front_eq_some_iff.mpr ⟨by simp; omega, List.take_append_of_le_length hle⟩

def Flow.output : Flow Message → Option (Except CodecError Message)
  | .done (.ok message?) => message?.map .ok
  | .done (.error (.storeIdMissingApplicationId ..)) => none
  | .done (.error err) => some (.error err)
  | .tryRead => none

/-- A decoder with the position it has read up to in place of its bytes. -/
structure Cursor (Cache Manifest : Type*) extends Control Cache Manifest where
  position : Nat

def Decoder.cursor (d : Decoder Cache Manifest) : Cursor Cache Manifest :=
  ⟨d.toControl, d.byteChunks.numRead⟩

namespace Cursor

def messageHeader (c : Cursor Cache Manifest) (bytes : Bytes) : Control Cache Manifest × Nat :=
  match MessageHeader.fromRrdBytes bytes with
  | .ok header =>
    ({ c.toControl with state := .waitingForMessagePayload header },
      MessageHeader.ENCODED_SIZE_BYTES)
  | .error _ => ({ c.toControl with state := .waitingForStreamHeader }, 0)

/-- What comes next and the number of bytes it consumes, `none` while there are too few. -/
def read (codecs : Codecs Message Cache Manifest) (c : Cursor Cache Manifest) (pending : Bytes) :
    Option (Except Panic (Control Cache Manifest × Flow Message) × Nat) :=
  match c.state with
  | .waitingForStreamHeader =>
    (front StreamHeader.ENCODED_SIZE_BYTES pending).map fun bytes =>
      (.ok (c.streamHeader c.position bytes), StreamHeader.ENCODED_SIZE_BYTES)
  | .waitingForMessageHeader =>
    (front MessageHeader.ENCODED_SIZE_BYTES pending).map fun bytes =>
      (.ok ((c.messageHeader bytes).1, .tryRead), (c.messageHeader bytes).2)
  | .waitingForMessagePayload header =>
    if ISIZE_MAX < header.len then some (.error .capacityOverflow, 0)
    else (front header.len pending).map fun bytes =>
      (.ok (c.messagePayload codecs header c.position bytes), header.len)
  | .waitingForStreamFooter =>
    (front StreamFooter.ENCODED_SIZE_BYTES pending).map fun bytes =>
      (c.streamFooter bytes, StreamFooter.ENCODED_SIZE_BYTES)
  | .aborted => none

theorem read_append {c : Cursor Cache Manifest} (h : c.read codecs pending = some result)
    (more : Bytes) : c.read codecs (pending ++ more) = some result := by
  unfold read at h ⊢
  cases hs : c.state with
  | aborted => simp [hs] at h
  | waitingForMessagePayload header =>
    simp only [hs] at h ⊢
    split at h
    case isTrue hlarge => rw [if_pos hlarge, h]
    case isFalse hsmall =>
      obtain ⟨bytes, hfront, rfl⟩ := Option.map_eq_some_iff.mp h
      rw [if_neg hsmall, front_append hfront, Option.map_some]
  | waitingForStreamHeader | waitingForMessageHeader | waitingForStreamFooter =>
    simp only [hs] at h ⊢
    obtain ⟨bytes, hfront, rfl⟩ := Option.map_eq_some_iff.mp h
    rw [front_append hfront, Option.map_some]

/-- A crash is below all else. -/
def measure : Except Panic (Cursor Cache Manifest) → Nat → Nat
  | .error _, _ => 0
  | .ok c, available => 3 * available + c.state.rank + 1

theorem consumed_le_of_read {c : Cursor Cache Manifest}
    (h : c.read codecs pending = some (result, consumed)) : consumed ≤ pending.length := by
  unfold read at h
  cases hs : c.state with
  | aborted => simp [hs] at h
  | waitingForMessageHeader =>
    simp only [hs] at h
    obtain ⟨bytes, hfront, heq⟩ := Option.map_eq_some_iff.mp h
    have hle := (front_eq_some_iff.mp hfront).1
    have hconsumed : consumed ≤ MessageHeader.ENCODED_SIZE_BYTES := by
      rw [← (Prod.mk.inj heq).2, messageHeader]
      split <;> simp
    exact hconsumed.trans hle
  | waitingForMessagePayload header =>
    simp only [hs] at h
    split at h
    · cases h
      exact Nat.zero_le _
    · obtain ⟨bytes, hfront, heq⟩ := Option.map_eq_some_iff.mp h
      cases heq
      exact (front_eq_some_iff.mp hfront).1
  | waitingForStreamHeader | waitingForStreamFooter =>
    simp only [hs] at h
    obtain ⟨bytes, hfront, heq⟩ := Option.map_eq_some_iff.mp h
    cases heq
    exact (front_eq_some_iff.mp hfront).1

theorem rank_of_read {c : Cursor Cache Manifest}
    (h : c.read codecs pending = some (.ok (c', flow), consumed)) :
    c'.state.rank < c.state.rank + 3 * consumed := by
  unfold read at h
  cases hs : c.state with
  | aborted => simp [hs] at h
  | waitingForStreamHeader =>
    simp only [hs] at h
    obtain ⟨bytes, -, heq⟩ := Option.map_eq_some_iff.mp h
    obtain ⟨hresult, rfl⟩ := Prod.mk.inj heq
    have hrank := Control.rank_streamHeader (Except.ok.inj hresult)
    rw [hs] at hrank
    simp only [StreamHeader.ENCODED_SIZE_BYTES]
    omega
  | waitingForMessageHeader =>
    simp only [hs] at h
    obtain ⟨bytes, -, heq⟩ := Option.map_eq_some_iff.mp h
    simp only [messageHeader] at heq
    split at heq
    · cases heq
      simp [DecoderState.rank, MessageHeader.ENCODED_SIZE_BYTES]
    · cases heq
      simp [DecoderState.rank]
  | waitingForMessagePayload header =>
    simp only [hs] at h
    split at h
    · cases h
    obtain ⟨bytes, hfront, heq⟩ := Option.map_eq_some_iff.mp h
    obtain ⟨hresult, rfl⟩ := Prod.mk.inj heq
    obtain ⟨hle, rfl⟩ := front_eq_some_iff.mp hfront
    rcases Control.rank_messagePayload (Except.ok.inj hresult) with hrank | ⟨hsame, hne⟩
    · simp only [DecoderState.rank] at hrank ⊢
      omega
    · have := List.length_pos_iff.mpr hne
      rw [List.length_take_of_le hle] at this
      rw [hsame, hs]
      omega
  | waitingForStreamFooter =>
    simp only [hs] at h
    obtain ⟨bytes, -, heq⟩ := Option.map_eq_some_iff.mp h
    obtain ⟨hresult, rfl⟩ := Prod.mk.inj heq
    have hrank := Control.rank_streamFooter hresult
    simp only [StreamFooter.ENCODED_SIZE_BYTES]
    omega

/-- After a crash nothing happens any more. -/
def machine (codecs : Codecs Message Cache Manifest) :
    Machine UInt8 (Except Panic (Cursor Cache Manifest)) (Except CodecError Message) where
  step
    | .error _, _ => none
    | .ok c, pending => (c.read codecs pending).map fun
      | (.ok (c', flow), consumed) => (.ok ⟨c', c.position + consumed⟩, consumed, flow.output)
      | (.error panic, consumed) => (.error panic, consumed, none)
  measure := measure
  stable := by
    intro s pending result h more
    cases s with
    | error => cases h
    | ok c =>
      obtain ⟨r, hread, rfl⟩ := Option.map_eq_some_iff.mp h
      simp [read_append hread more]
  consumed_le := by
    intro s pending next consumed output h
    cases s with
    | error => cases h
    | ok c =>
      obtain ⟨⟨result, k⟩, hread, heq⟩ := Option.map_eq_some_iff.mp h
      have hle := consumed_le_of_read hread
      cases result <;> cases heq <;> exact hle
  decreasing := by
    intro s pending next consumed output h
    cases s with
    | error => cases h
    | ok c =>
      obtain ⟨⟨result, k⟩, hread, heq⟩ := Option.map_eq_some_iff.mp h
      have hle := consumed_le_of_read hread
      cases result with
      | error => cases heq; simp [measure]
      | ok r =>
        have hrank := rank_of_read hread
        cases heq
        simp only [measure]
        omega

end Cursor

-- ---------------------------------------------------------------------------
-- The buffer gives the front of its pending bytes
-- ---------------------------------------------------------------------------

namespace ByteChunkBuffer

/-- A read of `n` bytes may be under way, and no other. -/
structure Awaits (b : ByteChunkBuffer) (n : Nat) : Prop where
  len : b.bufferLen = 0 ∨ b.bufferLen = n
  fill : b.buffer.length ≤ b.bufferLen
  bounded : b.bufferLen ≤ ISIZE_MAX

/-- All there is has been moved to the scratch space. -/
def Parked (b : ByteChunkBuffer) (n : Nat) : Prop :=
  b.bufferLen = n ∧ b.buffer = b.pending.take n

theorem Awaits.buffer_eq_nil {b : ByteChunkBuffer} (h : b.Awaits 0) :
    b.buffer = [] ∧ b.bufferLen = 0 := by
  have hlen : b.bufferLen = 0 := by
    rcases h.len with h | h <;> exact h
  have hfill := h.fill
  rw [hlen, Nat.le_zero, List.length_eq_zero_iff] at hfill
  exact ⟨hfill, hlen⟩

theorem awaits_of_clear {b : ByteChunkBuffer} (hb : b.buffer = []) (hl : b.bufferLen = 0)
    (n : Nat) : b.Awaits n :=
  ⟨.inl hl, by simp [hb], by simp [hl]⟩

theorem Awaits.parked {b : ByteChunkBuffer} (h : b.Awaits 0) : b.Parked 0 :=
  ⟨h.buffer_eq_nil.2, by simp [h.buffer_eq_nil.1]⟩

/-- The assertion holds whenever the buffer awaits a read of this length. -/
theorem Awaits.not_incomplete {b : ByteChunkBuffer} (h : b.Awaits n) :
    ¬ (b.bufferLen ≠ n ∧ b.buffer ≠ []) := by
  rintro ⟨hne, hb⟩
  have hpos := List.length_pos_iff.mpr hb
  have hfill := h.fill
  rcases h.len with hl | hl
  · omega
  · exact hne hl

theorem Awaits.tryRead_huge {b : ByteChunkBuffer} (h : b.Awaits n) (hn : ISIZE_MAX < n) :
    b.tryRead n = .error .capacityOverflow := by
  have hne : b.bufferLen ≠ n := by
    have := h.bounded
    omega
  rw [tryRead, if_neg h.not_incomplete, if_pos ⟨hne, hn⟩]

theorem Awaits.length_buffer_le {b : ByteChunkBuffer} (h : b.Awaits n) :
    b.buffer.length ≤ n := by
  have hfill := h.fill
  rcases h.len with hl | hl <;> omega

theorem Awaits.buffer_append_readQueue {b : ByteChunkBuffer} (h : b.Awaits n) :
    b.buffer ++ (readQueue (n - b.buffer.length) b.queue).1 = b.pending.take n := by
  rw [readQueue_bytes, pending, List.take_append, List.take_of_length_le h.length_buffer_le]

theorem Awaits.tryRead_enough {b : ByteChunkBuffer} (h : b.Awaits n) (hn : n ≤ ISIZE_MAX)
    (hfront : front n b.pending = some bytes) :
    ∃ b', b.tryRead n = .ok (some bytes, b') ∧ b'.pending = b.pending.drop n ∧
      b'.numRead = b.numRead + n ∧ b'.buffer = [] ∧ b'.bufferLen = 0 := by
  obtain ⟨hle, rfl⟩ := front_eq_some_iff.mp hfront
  refine ⟨⟨(readQueue (n - b.buffer.length) b.queue).2, [], 0, b.numRead + n⟩, ?_, ?_,
    rfl, rfl, rfl⟩
  · simp only [tryRead]
    rw [if_neg h.not_incomplete, if_neg (by omega), h.buffer_append_readQueue,
      if_pos (List.length_take_of_le hle)]
  · simp [pending, readQueue_rest, List.drop_append, List.drop_of_length_le h.length_buffer_le]

theorem Awaits.tryRead_short {b : ByteChunkBuffer} (h : b.Awaits n) (hn : n ≤ ISIZE_MAX)
    (hfront : front n b.pending = none) :
    ∃ b', b.tryRead n = .ok (none, b') ∧ b'.pending = b.pending ∧
      b'.numRead = b.numRead ∧ b'.Awaits n ∧ b'.Parked n := by
  have hlt : b.pending.length < n := by
    simpa [front] using hfront
  have hpending : b.pending.take n ++ (readQueue (n - b.buffer.length) b.queue).2.flatten
      = b.pending := by
    have hrest : b.queue.flatten.length ≤ n - b.buffer.length := by
      simp only [pending, List.length_append] at hlt
      omega
    rw [readQueue_rest, List.drop_of_length_le hrest, List.append_nil,
      List.take_of_length_le hlt.le]
  refine ⟨⟨(readQueue (n - b.buffer.length) b.queue).2, b.pending.take n, n, b.numRead⟩, ?_,
    hpending, rfl, ⟨.inr rfl, by simp, hn⟩, rfl, ?_⟩
  · simp only [tryRead]
    rw [if_neg h.not_incomplete, if_neg (by omega), h.buffer_append_readQueue, if_neg]
    rw [List.take_of_length_le hlt.le]
    omega
  · simp only [pending] at hpending ⊢
    rw [hpending]

theorem Awaits.tryPeek_eq {b : ByteChunkBuffer} (h : b.Awaits 0) (n : Nat) :
    b.tryPeek n = b.pending.take n := by
  simp [tryPeek, pending, h.buffer_eq_nil.1]

@[simp] theorem pending_push (b : ByteChunkBuffer) (bytes : Bytes) :
    (b.push bytes).pending = b.pending ++ bytes := by
  simp only [push, pending]
  split <;> simp_all

theorem Awaits.push {b : ByteChunkBuffer} (h : b.Awaits n) (bytes : Bytes) :
    (b.push bytes).Awaits n := by
  simp only [ByteChunkBuffer.push]
  split
  · exact h
  · exact ⟨h.len, h.fill, h.bounded⟩

@[simp] theorem numRead_push (b : ByteChunkBuffer) (bytes : Bytes) :
    (b.push bytes).numRead = b.numRead := by
  simp only [push]
  split <;> rfl

end ByteChunkBuffer

-- ---------------------------------------------------------------------------
-- The decoder follows the machine
-- ---------------------------------------------------------------------------

def DecoderState.needed : DecoderState → Nat
  | .waitingForStreamHeader => StreamHeader.ENCODED_SIZE_BYTES
  | .waitingForMessagePayload header => header.len
  | .waitingForStreamFooter => StreamFooter.ENCODED_SIZE_BYTES
  | .waitingForMessageHeader | .aborted => 0

namespace Control

theorem waits_streamHeader {c : Control Cache Manifest}
    (h : c.streamHeader position bytes = (c', (flow : Flow Message))) (hw : flow.Waits) :
    c'.state = .aborted := by
  simp only [streamHeader] at h
  split at h
  · cases h
    exact hw.elim
  split at h
  · cases h
    exact hw.elim
  · cases h
    rfl

theorem not_waits_messagePayload {c : Control Cache Manifest}
    (h : c.messagePayload codecs header position bytes = (c', flow)) : ¬ flow.Waits := by
  simp only [messagePayload] at h
  split at h
  · cases h
    exact id
  · cases h
    exact id
  split at h
  · split at h <;> cases h <;> exact id
  · cases h
    exact id

theorem waits_streamFooter {c : Control Cache Manifest}
    (h : c.streamFooter bytes = .ok (c', (flow : Flow Message))) (hw : flow.Waits) :
    c'.state = .aborted := by
  simp only [streamFooter] at h
  split at h
  · cases h
  · cases h
    exact hw.elim
  · cases h
    rfl

end Control

namespace Decoder

def Fitting (d : Decoder Cache Manifest) : Prop := d.byteChunks.Awaits d.state.needed

def Parked (d : Decoder Cache Manifest) : Prop := d.byteChunks.Parked d.state.needed

theorem fitting_new (cache : Cache) : (new cache : Decoder Cache Manifest).Fitting :=
  ByteChunkBuffer.awaits_of_clear rfl rfl _

theorem Fitting.push {d : Decoder Cache Manifest} (h : d.Fitting) (bytes : Bytes) :
    (d.pushByteChunk bytes).Fitting := ByteChunkBuffer.Awaits.push h bytes

inductive Follows (d : Decoder Cache Manifest) :
    Option (Except Panic (Control Cache Manifest × Flow Message) × Nat) →
      Except Panic (Decoder Cache Manifest × Flow Message) → Prop
  | waits (d' : Decoder Cache Manifest) (cursor : d'.cursor = d.cursor)
      (pending : d'.byteChunks.pending = d.byteChunks.pending) (fitting : d'.Fitting)
      (parked : d'.Parked) : Follows d none (.ok (d', .done (.ok none)))
  | crashes (p : Panic) : Follows d (some (.error p, consumed)) (.error p)
  | moves (d' : Decoder Cache Manifest)
      (pending : d'.byteChunks.pending = d.byteChunks.pending.drop consumed)
      (position : d'.byteChunks.numRead = d.byteChunks.numRead + consumed)
      (fitting : d'.Fitting)
      (waits : flow.Waits → d'.state = .aborted) :
      Follows d (some (.ok (d'.toControl, flow), consumed)) (.ok (d', flow))

theorem follows_tryReadThen {d : Decoder Cache Manifest} (h : d.Fitting)
    (hn : d.state.needed ≤ ISIZE_MAX)
    {next : Bytes → Except Panic (Control Cache Manifest × Flow Message)}
    (hwaits : ∀ bytes control flow, next bytes = .ok (control, flow) → flow.Waits →
      control.state = .aborted) :
    d.Follows ((front d.state.needed d.byteChunks.pending).map fun bytes =>
      (next bytes, d.state.needed)) (d.tryReadThen d.state.needed next) := by
  cases hfront : front d.state.needed d.byteChunks.pending with
  | none =>
    obtain ⟨b', hread, hpending, hnum, hawaits, hparked⟩ := h.tryRead_short hn hfront
    simp only [tryReadThen, hread, Option.map_none]
    exact .waits ⟨d.toControl, b'⟩ (by simp [cursor, hnum]) hpending hawaits hparked
  | some bytes =>
    obtain ⟨b', hread, hpending, hnum, hbuffer, hlen⟩ := h.tryRead_enough hn hfront
    simp only [tryReadThen, hread, Option.map_some]
    cases hnext : next bytes with
    | error => exact .crashes _
    | ok result =>
      exact .moves ⟨result.1, b'⟩ hpending hnum
        (ByteChunkBuffer.awaits_of_clear hbuffer hlen _) (hwaits bytes _ _ hnext)

theorem follows_readMessageHeader (codecs : Codecs Message Cache Manifest)
    {d : Decoder Cache Manifest} (h : d.Fitting) (hs : d.state = .waitingForMessageHeader) :
    d.Follows (d.cursor.read codecs d.byteChunks.pending) d.readMessageHeader := by
  have hawaits : d.byteChunks.Awaits 0 := by
    simpa [Fitting, hs, DecoderState.needed] using h
  have hclear := hawaits.buffer_eq_nil
  have hread : d.cursor.read codecs d.byteChunks.pending =
      (front MessageHeader.ENCODED_SIZE_BYTES d.byteChunks.pending).map fun bytes =>
        (.ok ((d.cursor.messageHeader bytes).1, .tryRead), (d.cursor.messageHeader bytes).2) := by
    simp [Cursor.read, cursor, hs]
  rw [hread]
  simp only [readMessageHeader, hawaits.tryPeek_eq]
  cases hfront : front MessageHeader.ENCODED_SIZE_BYTES d.byteChunks.pending with
  | none =>
    have hlt : d.byteChunks.pending.length < MessageHeader.ENCODED_SIZE_BYTES := by
      simpa [front] using hfront
    rw [if_neg (by simp; omega)]
    refine .waits d rfl rfl h ?_
    simpa [Parked, hs, DecoderState.needed] using hawaits.parked
  | some bytes =>
    obtain ⟨hle, rfl⟩ := front_eq_some_iff.mp hfront
    rw [if_pos (List.length_take_of_le hle), Option.map_some, Cursor.messageHeader]
    split
    case h_1 header hheader =>
      obtain ⟨b', hread, hpending, hnum, hbuffer, hlen⟩ :=
        (ByteChunkBuffer.awaits_of_clear hclear.1 hclear.2 _).tryRead_enough (by decide) hfront
      simp only [hread, hheader]
      exact .moves ⟨{ d.toControl with state := .waitingForMessagePayload header }, b'⟩
        hpending hnum (ByteChunkBuffer.awaits_of_clear hbuffer hlen _) False.elim
    case h_2 err hheader =>
      obtain ⟨text, rfl⟩ := MessageHeader.fromRrdBytes_error hheader
      simp only [hheader]
      exact .moves { d with state := .waitingForStreamHeader } (by simp) rfl
        (ByteChunkBuffer.awaits_of_clear hclear.1 hclear.2 _) False.elim

theorem follows_readMessagePayload {d : Decoder Cache Manifest} (h : d.Fitting)
    (hs : d.state = .waitingForMessagePayload header) :
    d.Follows (d.cursor.read codecs d.byteChunks.pending) (d.tryReadImpl codecs) := by
  have hneeded : d.state.needed = header.len := by rw [hs, DecoderState.needed]
  simp only [Cursor.read, cursor, tryReadImpl, hs]
  by_cases hlarge : ISIZE_MAX < header.len
  · have hawaits : d.byteChunks.Awaits header.len := by
      rw [← hneeded]
      exact h
    rw [if_pos hlarge, tryReadThen, hawaits.tryRead_huge hlarge]
    exact .crashes _
  · rw [if_neg hlarge, ← hneeded]
    exact follows_tryReadThen h (by omega) fun bytes control flow heq hwaits =>
      absurd hwaits (Control.not_waits_messagePayload (Except.ok.inj heq))

theorem tryReadImpl_follows (codecs : Codecs Message Cache Manifest)
    {d : Decoder Cache Manifest} (h : d.Fitting) :
    d.Follows (d.cursor.read codecs d.byteChunks.pending) (d.tryReadImpl codecs) := by
  cases hs : d.state with
  | waitingForStreamHeader =>
    have hneeded : d.state.needed = StreamHeader.ENCODED_SIZE_BYTES := by
      rw [hs, DecoderState.needed]
    simp only [Cursor.read, cursor, tryReadImpl, hs]
    rw [← hneeded]
    exact follows_tryReadThen h (by rw [hneeded]; decide) fun bytes control flow heq =>
      Control.waits_streamHeader (Except.ok.inj heq)
  | waitingForMessageHeader =>
    have := follows_readMessageHeader codecs h hs
    simpa [tryReadImpl, hs] using this
  | waitingForMessagePayload header => exact follows_readMessagePayload h hs
  | waitingForStreamFooter =>
    have hneeded : d.state.needed = StreamFooter.ENCODED_SIZE_BYTES := by
      rw [hs, DecoderState.needed]
    simp only [Cursor.read, cursor, tryReadImpl, hs]
    rw [← hneeded]
    exact follows_tryReadThen h (by rw [hneeded]; decide) fun bytes control flow heq =>
      Control.waits_streamFooter heq
  | aborted =>
    have hawaits : d.byteChunks.Awaits 0 := by
      simpa [Fitting, hs, DecoderState.needed] using h
    simp only [Cursor.read, cursor, tryReadImpl, hs]
    refine .waits d rfl rfl h ?_
    simpa [Parked, hs, DecoderState.needed] using hawaits.parked

end Decoder

end DimosViewer.Rrd
