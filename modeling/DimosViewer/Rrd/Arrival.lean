import Mathlib.Data.List.Induction
import DimosViewer.Rrd.DecoderLaws

/-!
# Any cutting of the input, any calls in between

A session is a decoder with all it has put out. Draining it is to call `try_read` until there
is nothing more, which is where the machine over contiguous bytes settles.
-/

namespace DimosViewer.Rrd

open LittleEndian Incremental

variable {Message Cache Manifest : Type*} {codecs : Codecs Message Cache Manifest}

-- ---------------------------------------------------------------------------
-- Calls advance the machine
-- ---------------------------------------------------------------------------

namespace Decoder

def config (d : Decoder Cache Manifest) (produced : List (Except CodecError Message)) :
    Config UInt8 (Except Panic (Cursor Cache Manifest)) (Except CodecError Message) :=
  ⟨.ok d.cursor, d.byteChunks.pending, produced⟩

theorem advance_of_moves {d d' : Decoder Cache Manifest} {flow : Flow Message}
    (hread : d.cursor.read codecs d.byteChunks.pending = some (.ok (d'.toControl, flow), consumed))
    (hpending : d'.byteChunks.pending = d.byteChunks.pending.drop consumed)
    (hposition : d'.byteChunks.numRead = d.byteChunks.numRead + consumed) (produced) :
    (Cursor.machine codecs).advance? (d.config produced) =
      some (d'.config (produced ++ flow.output.toList)) := by
  simp only [cursor] at hread
  simp [Machine.advance?, Cursor.machine, config, cursor, hread, hpending, hposition]

theorem crash_of_tryReadImpl {d : Decoder Cache Manifest} (h : d.Fitting)
    (himpl : d.tryReadImpl codecs = .error p) (produced) :
    ∃ c, (Cursor.machine codecs).Advances (d.config produced) c ∧
      c.control = .error p ∧ c.produced = produced := by
  have hfollows := tryReadImpl_follows codecs h
  rw [himpl] at hfollows
  generalize hread : d.cursor.read codecs d.byteChunks.pending = outcome at hfollows
  cases hfollows with
  | @crashes consumed =>
    refine ⟨⟨.error p, d.byteChunks.pending.drop consumed, produced⟩, .single ?_, rfl, rfl⟩
    simp [Machine.advance?, Cursor.machine, config, hread]

def Exhausted (codecs : Codecs Message Cache Manifest) (d : Decoder Cache Manifest) : Prop :=
  d.Parked ∧ d.cursor.read codecs d.byteChunks.pending = none

theorem exhausted_of_aborted {d : Decoder Cache Manifest} (h : d.Fitting)
    (hs : d.state = .aborted) : d.Exhausted codecs := by
  have hneeded : d.state.needed = 0 := by rw [hs, DecoderState.needed]
  refine ⟨?_, by simp [Cursor.read, cursor, hs]⟩
  rw [Parked, hneeded]
  rw [Fitting, hneeded] at h
  exact h.parked

theorem advances_of_tryReadImpl {d : Decoder Cache Manifest} (h : d.Fitting)
    (himpl : d.tryReadImpl codecs = .ok (d', flow)) (produced) :
    d'.Fitting ∧ (flow.Waits → d'.Exhausted codecs) ∧
      (Cursor.machine codecs).Advances (d.config produced)
        (d'.config (produced ++ flow.output.toList)) := by
  have hfollows := tryReadImpl_follows codecs h
  rw [himpl] at hfollows
  generalize hread : d.cursor.read codecs d.byteChunks.pending = outcome at hfollows
  cases hfollows with
  | waits _ hcursor hpending hfitting hparked =>
    refine ⟨hfitting, fun _ => ⟨hparked, by rw [hcursor, hpending, hread]⟩, ?_⟩
    rw [config, config, hcursor, hpending, Flow.output, Option.map_none, Option.toList_none,
      List.append_nil]
    exact .refl
  | moves _ hpending hposition hfitting hwaits =>
    exact ⟨hfitting, fun hw => exhausted_of_aborted hfitting (hwaits hw),
      .single (advance_of_moves hread hpending hposition produced)⟩

def answer : Except CodecError (Option Message) → List (Except CodecError Message)
  | .ok message? => message?.toList.map .ok
  | .error err => [.error err]

theorem tryRead_of_error {d : Decoder Cache Manifest} (h : d.tryReadImpl codecs = .error p) :
    d.tryRead codecs = .error p := by
  rw [tryRead]
  split <;> simp_all

theorem tryRead_of_tryRead {d : Decoder Cache Manifest}
    (h : d.tryReadImpl codecs = .ok (d', .tryRead)) :
    d.tryRead codecs = d'.tryRead codecs := by
  rw [tryRead]
  split <;> simp_all

theorem tryRead_of_dropped {d : Decoder Cache Manifest}
    (h : d.tryReadImpl codecs = .ok (d', .done (.error (.storeIdMissingApplicationId kind name)))) :
    d.tryRead codecs = d'.tryRead codecs := by
  rw [tryRead]
  split <;> simp_all

theorem tryRead_of_done {d : Decoder Cache Manifest}
    (h : d.tryReadImpl codecs = .ok (d', .done result))
    (hr : ∀ kind id, result ≠ .error (.storeIdMissingApplicationId kind id)) :
    d.tryRead codecs = .ok (d', result) := by
  rw [tryRead]
  split
  case h_1 himpl => simp_all
  case h_2 himpl => simp_all
  case h_3 himpl =>
    rw [h] at himpl
    cases himpl
    exact absurd rfl (hr _ _)
  case h_4 himpl => simp_all

theorem output_eq_answer {result : Except CodecError (Option Message)}
    (hr : ∀ kind id, result ≠ .error (.storeIdMissingApplicationId kind id)) :
    (Flow.done result).output.toList = answer result := by
  rcases result with err | message?
  · cases err with
    | storeIdMissingApplicationId => exact absurd rfl (hr _ _)
    | _ => rfl
  · cases message? <;> rfl

/-- A call crashes where the machine crashes, or gets to where the machine has put out its
answer as well. -/
structure Answers (codecs : Codecs Message Cache Manifest) (d : Decoder Cache Manifest)
    (produced : List (Except CodecError Message)) : Prop where
  crash : ∀ p, d.tryRead codecs = .error p →
    ∃ c, (Cursor.machine codecs).Advances (d.config produced) c ∧
      c.control = .error p ∧ c.produced = produced
  ok : ∀ d' result, d.tryRead codecs = .ok (d', result) →
    d'.Fitting ∧ (result = .ok none → d'.Exhausted codecs) ∧
      (Cursor.machine codecs).Advances (d.config produced) (d'.config (produced ++ answer result))

/-- What happens silently on the way to an answer does not show. -/
theorem Answers.of_advances {d d' : Decoder Cache Manifest} (h : d'.Answers codecs produced)
    (hcall : d.tryRead codecs = d'.tryRead codecs)
    (hadvances : (Cursor.machine codecs).Advances (d.config produced) (d'.config produced)) :
    d.Answers codecs produced := by
  refine ⟨fun p hp => ?_, fun d'' result hd'' => ?_⟩
  · obtain ⟨c, hc, hcontrol⟩ := h.crash p (hcall ▸ hp)
    exact ⟨c, hadvances.trans hc, hcontrol⟩
  · obtain ⟨hfitting, hexhausted, hc⟩ := h.ok d'' result (hcall ▸ hd'')
    exact ⟨hfitting, hexhausted, hadvances.trans hc⟩

theorem tryRead_answers (codecs : Codecs Message Cache Manifest) {d : Decoder Cache Manifest}
    (h : d.Fitting) (produced) :
    d.Answers codecs produced := by
  induction d using tryRead.induct codecs with
  | case1 d p himpl =>
    refine ⟨fun p' hp => ?_, fun d' result hd' => ?_⟩
    · rw [tryRead_of_error himpl] at hp
      cases hp
      exact crash_of_tryReadImpl h himpl produced
    · rw [tryRead_of_error himpl] at hd'
      cases hd'
  | case2 d d' himpl _ ih =>
    obtain ⟨hfitting, -, hadvances⟩ := advances_of_tryReadImpl h himpl produced
    simp only [Flow.output, Option.toList_none, List.append_nil] at hadvances
    exact (ih hfitting).of_advances (tryRead_of_tryRead himpl) hadvances
  | case3 d d' kind id himpl _ ih =>
    obtain ⟨hfitting, -, hadvances⟩ := advances_of_tryReadImpl h himpl produced
    simp only [Flow.output, Option.toList_none, List.append_nil] at hadvances
    exact (ih hfitting).of_advances (tryRead_of_dropped himpl) hadvances
  | case4 d d' result hr himpl =>
    obtain ⟨hfitting, hwaits, hadvances⟩ := advances_of_tryReadImpl h himpl produced
    rw [output_eq_answer hr] at hadvances
    have hcall := tryRead_of_done himpl hr
    refine ⟨fun p hp => ?_, fun d'' result' hd'' => ?_⟩
    · rw [hcall] at hp
      cases hp
    · rw [hcall] at hd''
      cases hd''
      refine ⟨hfitting, fun hnone => hwaits ?_, hadvances⟩
      rw [hnone]
      trivial

theorem measure_of_tryRead {d d' : Decoder Cache Manifest}
    (h : d.tryRead codecs = .ok (d', result)) (hr : result ≠ .ok none) :
    d'.measure < d.measure := by
  induction d using tryRead.induct codecs with
  | case1 d p himpl =>
    rw [tryRead_of_error himpl] at h
    cases h
  | case2 d next himpl hlt ih => exact (ih (tryRead_of_tryRead himpl ▸ h)).trans hlt
  | case3 d next kind id himpl hlt ih => exact (ih (tryRead_of_dropped himpl ▸ h)).trans hlt
  | case4 d next result' hr' himpl =>
    rw [tryRead_of_done himpl hr'] at h
    cases h
    refine measure_of_tryReadImpl himpl ?_
    intro hw
    unfold Flow.Waits at hw
    split at hw <;> simp_all

end Decoder

-- ---------------------------------------------------------------------------
-- Sessions
-- ---------------------------------------------------------------------------

inductive Call where
  | pushByteChunk (byteChunk : Bytes)
  | tryRead
deriving DecidableEq, Repr

def Call.pushed : Call → Bytes
  | .pushByteChunk byteChunk => byteChunk
  | .tryRead => []

/-- A decoder, or the panic that ended it, with all messages and errors so far. -/
structure Session (Message Cache Manifest : Type*) where
  decoder : Except Panic (Decoder Cache Manifest)
  produced : List (Except CodecError Message)

namespace Session

def start (cache : Cache) : Session Message Cache Manifest := ⟨.ok (.new cache), []⟩

def call (codecs : Codecs Message Cache Manifest) (s : Session Message Cache Manifest) :
    Call → Session Message Cache Manifest
  | .pushByteChunk byteChunk => { s with decoder := s.decoder.map (·.pushByteChunk byteChunk) }
  | .tryRead =>
    match s.decoder with
    | .error _ => s
    | .ok d =>
      match d.tryRead codecs with
      | .error p => { s with decoder := .error p }
      | .ok (d', result) => ⟨.ok d', s.produced ++ Decoder.answer result⟩

def run (codecs : Codecs Message Cache Manifest) (cache : Cache) (calls : List Call) :
    Session Message Cache Manifest :=
  calls.foldl (call codecs) (start cache)

def drainFrom (codecs : Codecs Message Cache Manifest) (d : Decoder Cache Manifest)
    (produced : List (Except CodecError Message)) : Session Message Cache Manifest :=
  match h : d.tryRead codecs with
  | .error p => ⟨.error p, produced⟩
  | .ok (d', .ok none) => ⟨.ok d', produced⟩
  | .ok (d', .ok (some message)) =>
    have := Decoder.measure_of_tryRead h nofun
    drainFrom codecs d' (produced ++ [.ok message])
  | .ok (d', .error err) =>
    have := Decoder.measure_of_tryRead h nofun
    drainFrom codecs d' (produced ++ [.error err])
termination_by d.measure

def drain (codecs : Codecs Message Cache Manifest) (s : Session Message Cache Manifest) :
    Session Message Cache Manifest :=
  match s.decoder with
  | .error _ => s
  | .ok d => drainFrom codecs d s.produced

theorem run_concat (calls : List Call) (last : Call) :
    run codecs cache (calls ++ [last]) = (run codecs cache calls).call codecs last := by
  simp [run]

inductive Follows : Session Message Cache Manifest →
    Config UInt8 (Except Panic (Cursor Cache Manifest)) (Except CodecError Message) → Prop
  | alive (produced) (fitting : d.Fitting) : Follows ⟨.ok d, produced⟩ (d.config produced)
  | crashed (p : Panic) (pending) (produced) :
    Follows ⟨.error p, produced⟩ ⟨.error p, pending, produced⟩

theorem Follows.push {s : Session Message Cache Manifest} (h : s.Follows c) (byteChunk : Bytes) :
    (s.call codecs (.pushByteChunk byteChunk)).Follows (c.push byteChunk) := by
  cases h with
  | @alive d produced hfitting =>
    have hconfig : (d.config produced).push byteChunk =
        (d.pushByteChunk byteChunk).config produced := by
      simp [Decoder.config, Config.push, Decoder.pushByteChunk, Decoder.cursor]
    rw [hconfig]
    exact .alive _ (hfitting.push byteChunk)
  | crashed p pending produced => exact .crashed p _ _

theorem Follows.tryRead (codecs : Codecs Message Cache Manifest)
    {s : Session Message Cache Manifest} (h : s.Follows c) :
    ∃ c', (Cursor.machine codecs).Advances c c' ∧ (s.call codecs .tryRead).Follows c' := by
  cases h with
  | @alive d produced hfitting =>
    have hanswers := Decoder.tryRead_answers codecs hfitting produced
    simp only [call]
    split
    case h_1 p hcall =>
      obtain ⟨⟨control, pending, out⟩, hadvances, rfl, rfl⟩ := hanswers.crash p hcall
      exact ⟨_, hadvances, .crashed p pending _⟩
    case h_2 d' result hcall =>
      obtain ⟨hfitting', -, hadvances⟩ := hanswers.ok d' result hcall
      exact ⟨_, hadvances, .alive _ hfitting'⟩
  | crashed p pending produced => exact ⟨_, .refl, .crashed p pending _⟩

/-- Whatever the calls, the machine gets the same bytes and takes the same steps. -/
theorem run_follows (codecs : Codecs Message Cache Manifest) (cache : Cache) (calls : List Call) :
    ∃ c, (Cursor.machine codecs).Arrival ((Decoder.new cache).config [])
        (calls.flatMap Call.pushed) c ∧ (run codecs cache calls).Follows c := by
  induction calls using List.reverseRecOn with
  | nil => exact ⟨_, .start _, .alive _ (Decoder.fitting_new cache)⟩
  | append_singleton calls last ih =>
    obtain ⟨c, harrival, hfollows⟩ := ih
    rw [run_concat, List.flatMap_append, List.flatMap_singleton]
    cases last with
    | pushByteChunk byteChunk => exact ⟨_, harrival.push byteChunk, hfollows.push byteChunk⟩
    | tryRead =>
      obtain ⟨c', hadvances, hfollows'⟩ := hfollows.tryRead codecs
      rw [Call.pushed, List.append_nil]
      exact ⟨c', harrival.steps hadvances, hfollows'⟩

structure Settles (codecs : Codecs Message Cache Manifest) (s : Session Message Cache Manifest)
    (c : Config UInt8 (Except Panic (Cursor Cache Manifest)) (Except CodecError Message)) :
    Prop where
  follows : s.Follows ((Cursor.machine codecs).settle c)
  exhausted : ∀ d, s.decoder = .ok d → d.Exhausted codecs

theorem Settles.of_advances {s : Session Message Cache Manifest} (h : s.Settles codecs c')
    (hadvances : (Cursor.machine codecs).Advances c c') : s.Settles codecs c :=
  ⟨hadvances.settle_eq ▸ h.follows, h.exhausted⟩

theorem settles_crashed (p : Panic) (pending) (produced : List (Except CodecError Message)) :
    (⟨.error p, produced⟩ : Session Message Cache Manifest).Settles codecs
      ⟨.error p, pending, produced⟩ := by
  refine ⟨?_, nofun⟩
  rw [Machine.settle_of_waiting _ ((Machine.advance?_eq_none_iff _).mpr rfl)]
  exact .crashed p pending _

theorem settles_exhausted {d : Decoder Cache Manifest} (hd : d.Fitting) (he : d.Exhausted codecs)
    (produced) : (⟨.ok d, produced⟩ : Session Message Cache Manifest).Settles codecs
      (d.config produced) := by
  refine ⟨?_, ?_⟩
  · have hwaits : (Cursor.machine codecs).step (d.config produced).control
        (d.config produced).pending = none := by
      simp [Cursor.machine, Decoder.config, he.2]
    rw [Machine.settle_of_waiting _ ((Machine.advance?_eq_none_iff _).mpr hwaits)]
    exact .alive _ hd
  · rintro _ ⟨⟩
    exact he

theorem drainFrom_of_error {d : Decoder Cache Manifest} (h : d.tryRead codecs = .error p)
    (produced) : drainFrom codecs d produced = ⟨.error p, produced⟩ := by
  rw [drainFrom]
  split <;> simp_all

theorem drainFrom_of_none {d : Decoder Cache Manifest} (h : d.tryRead codecs = .ok (d', .ok none))
    (produced) : drainFrom codecs d produced = ⟨.ok d', produced⟩ := by
  rw [drainFrom]
  split <;> simp_all

theorem drainFrom_of_answer {d : Decoder Cache Manifest}
    (h : d.tryRead codecs = .ok (d', result)) (hr : result ≠ .ok none) (produced) :
    drainFrom codecs d produced = drainFrom codecs d' (produced ++ Decoder.answer result) := by
  rw [drainFrom]
  split
  case h_1 hcall => simp_all
  case h_2 hcall => simp_all
  case h_3 hcall =>
    rw [h] at hcall
    cases hcall
    rfl
  case h_4 hcall =>
    rw [h] at hcall
    cases hcall
    rfl

theorem drainFrom_settles {d : Decoder Cache Manifest} (h : d.Fitting)
    (produced : List (Except CodecError Message)) :
    (drainFrom codecs d produced).Settles codecs (d.config produced) := by
  induction d, produced using drainFrom.induct codecs with
  | case1 d produced p hcall =>
    obtain ⟨⟨_, pending, _⟩, hadvances, rfl, rfl⟩ :=
      (Decoder.tryRead_answers codecs h produced).crash p hcall
    rw [drainFrom_of_error hcall]
    exact (settles_crashed p pending _).of_advances hadvances
  | case2 d produced d' hcall =>
    obtain ⟨hfitting, hexhausted, hadvances⟩ :=
      (Decoder.tryRead_answers codecs h produced).ok d' _ hcall
    rw [Decoder.answer, Option.toList_none, List.map_nil, List.append_nil] at hadvances
    rw [drainFrom_of_none hcall]
    exact (settles_exhausted hfitting (hexhausted rfl) produced).of_advances hadvances
  | case3 d produced d' message hcall _ ih =>
    obtain ⟨hfitting, -, hadvances⟩ :=
      (Decoder.tryRead_answers codecs h produced).ok d' _ hcall
    rw [drainFrom_of_answer hcall nofun]
    exact (ih hfitting).of_advances hadvances
  | case4 d produced d' err hcall _ ih =>
    obtain ⟨hfitting, -, hadvances⟩ :=
      (Decoder.tryRead_answers codecs h produced).ok d' _ hcall
    rw [drainFrom_of_answer hcall nofun]
    exact (ih hfitting).of_advances hadvances

theorem Follows.drain_settles {s : Session Message Cache Manifest} (h : s.Follows c) :
    (s.drain codecs).Settles codecs c := by
  cases h with
  | alive produced hfitting => exact drainFrom_settles hfitting produced
  | crashed p pending produced => exact settles_crashed p pending produced

end Session

-- ---------------------------------------------------------------------------
-- Which panics there are
-- ---------------------------------------------------------------------------

theorem StreamFooter.readEntries_error (h : readEntries dynamicData n pos = .error p) :
    p = .sliceIndex := by
  induction n generalizing pos p with
  | zero => cases h
  | succ n ih =>
    simp only [readEntries] at h
    split at h
    case isTrue =>
      cases hrest : readEntries dynamicData n (pos + ENCODED_SIZE_BYTES_SINGLE_ENTRY) with
      | error p' =>
        simp only [hrest] at h
        cases h
        exact ih hrest
      | ok entries => simp [hrest] at h
    case isFalse =>
      cases h
      rfl

theorem StreamFooter.fromRrdBytes_error (h : fromRrdBytes data = .error p) : p = .sliceIndex := by
  simp only [fromRrdBytes] at h
  split at h
  · cases h
  split at h
  · cases h
  split at h
  · cases h
  generalize hentries : readEntries _ _ _ = entries at h
  cases entries with
  | error p' =>
    cases h
    exact readEntries_error hentries
  | ok entries => cases h

theorem Control.streamFooter_error {c : Control Cache Manifest}
    (h : (c.streamFooter bytes : Except Panic (_ × Flow Message)) = .error p) :
    p = .sliceIndex := by
  simp only [streamFooter] at h
  split at h
  case h_1 hbytes =>
    cases h
    exact StreamFooter.fromRrdBytes_error hbytes
  case h_2 => cases h
  case h_3 => cases h

/-- Neither the assertion of the buffer nor the reading of what was peeked fails. -/
theorem Cursor.read_error {c : Cursor Cache Manifest}
    (h : c.read codecs pending = some (.error p, consumed)) :
    p = .capacityOverflow ∨ p = .sliceIndex := by
  unfold read at h
  cases hs : c.state with
  | aborted => simp [hs] at h
  | waitingForMessagePayload header =>
    simp only [hs] at h
    split at h
    · cases h
      exact .inl rfl
    · obtain ⟨bytes, -, heq⟩ := Option.map_eq_some_iff.mp h
      cases heq
  | waitingForStreamHeader | waitingForMessageHeader =>
    simp only [hs] at h
    obtain ⟨bytes, -, heq⟩ := Option.map_eq_some_iff.mp h
    cases heq
  | waitingForStreamFooter =>
    simp only [hs] at h
    obtain ⟨bytes, -, heq⟩ := Option.map_eq_some_iff.mp h
    exact .inr (Control.streamFooter_error (Prod.mk.inj heq).1)

def Cursor.OnlyPanics : Except Panic (Cursor Cache Manifest) → Prop
  | .error p => p = .capacityOverflow ∨ p = .sliceIndex
  | .ok _ => True

theorem Cursor.onlyPanics_step (s : Except Panic (Cursor Cache Manifest)) (pending) (next)
    (consumed) (output) (hs : OnlyPanics s)
    (h : (machine codecs).step s pending = some (next, consumed, output)) : OnlyPanics next := by
  cases s with
  | error p => cases h
  | ok c =>
    obtain ⟨⟨result, k⟩, hread, heq⟩ := Option.map_eq_some_iff.mp h
    cases result with
    | error p =>
      cases heq
      exact read_error hread
    | ok r =>
      cases heq
      trivial

theorem Session.panic_of_run {cache : Cache} {calls : List Call}
    (h : (run codecs cache calls).decoder = .error p) :
    p = .capacityOverflow ∨ p = .sliceIndex := by
  obtain ⟨c, harrival, hfollows⟩ := run_follows codecs cache calls
  have honly := harrival.preserves _ Cursor.OnlyPanics Cursor.onlyPanics_step trivial
  generalize run codecs cache calls = s at h hfollows
  cases hfollows with
  | alive => cases h
  | crashed p' pending produced =>
    cases h
    exact honly

-- ---------------------------------------------------------------------------
-- The main result
-- ---------------------------------------------------------------------------

/-- The same but for how the bytes not read yet are cut. -/
structure Decoder.SameState (d d' : Decoder Cache Manifest) : Prop where
  control : d.toControl = d'.toControl
  numRead : d.byteChunks.numRead = d'.byteChunks.numRead
  buffer : d.byteChunks.buffer = d'.byteChunks.buffer
  bufferLen : d.byteChunks.bufferLen = d'.byteChunks.bufferLen
  queue : d.byteChunks.queue.flatten = d'.byteChunks.queue.flatten

/-- The same messages and errors in the same order, and the same state or panic at the end. -/
inductive Session.Same : Session Message Cache Manifest → Session Message Cache Manifest → Prop
  | alive (state : d.SameState d') (produced) : Same ⟨.ok d, produced⟩ ⟨.ok d', produced⟩
  | crashed (p : Panic) (produced) : Same ⟨.error p, produced⟩ ⟨.error p, produced⟩

theorem Decoder.sameState_of_exhausted {d d' : Decoder Cache Manifest}
    (hd : d.Parked) (hd' : d'.Parked) (hcursor : d.cursor = d'.cursor)
    (hpending : d.byteChunks.pending = d'.byteChunks.pending) : d.SameState d' := by
  have hcontrol : d.toControl = d'.toControl := congrArg Cursor.toControl hcursor
  have hbuffer : d.byteChunks.buffer = d'.byteChunks.buffer := by
    rw [hd.2, hd'.2, hpending, hcontrol]
  refine ⟨hcontrol, congrArg Cursor.position hcursor, hbuffer, ?_, ?_⟩
  · rw [hd.1, hd'.1, hcontrol]
  · rw [ByteChunkBuffer.pending, ByteChunkBuffer.pending, hbuffer] at hpending
    exact List.append_cancel_left hpending

theorem Session.Settles.same {s s' : Session Message Cache Manifest} (h : s.Settles codecs c)
    (h' : s'.Settles codecs c') (hc : (Cursor.machine codecs).settle c =
      (Cursor.machine codecs).settle c') : s.Same s' := by
  have hfollows := h.follows
  have hfollows' := h'.follows
  rw [hc] at hfollows
  generalize (Cursor.machine codecs).settle c' = settled at hfollows hfollows'
  cases hfollows with
  | @alive d produced hfitting =>
    generalize hsettled : d.config produced = settled at hfollows'
    cases hfollows' with
    | @alive d' produced' hfitting' =>
      obtain ⟨hcursor, hpending, rfl⟩ := Config.mk.inj hsettled
      exact .alive (Decoder.sameState_of_exhausted (h.exhausted d rfl).1 (h'.exhausted d' rfl).1
        (Except.ok.inj hcursor) hpending) produced
    | crashed p pending produced' => cases congrArg Config.control hsettled
  | crashed p pending produced =>
    generalize hsettled : Config.mk _ _ _ = settled at hfollows'
    cases hfollows' with
    | @alive d' produced' hfitting' => cases congrArg Config.control hsettled
    | crashed p' pending' produced' =>
      obtain ⟨hcontrol, -, rfl⟩ := Config.mk.inj hsettled
      cases hcontrol
      exact .crashed p produced

/-- Decoding does not depend on how the bytes are cut and when they are asked for, and the
assertion that an incomplete read is resumed with the same length holds in every run. -/
theorem Session.same_however_pushed (codecs : Codecs Message Cache Manifest) (cache : Cache)
    (calls : List Call) :
    ((run codecs cache calls).drain codecs).Same
      ((run codecs cache [.pushByteChunk (calls.flatMap Call.pushed)]).drain codecs) ∧
    (run codecs cache calls).decoder ≠ .error .incompleteRead := by
  refine ⟨?_, fun h => ?_⟩
  · obtain ⟨c, harrival, hfollows⟩ := run_follows codecs cache calls
    obtain ⟨c', harrival', hfollows'⟩ :=
      run_follows codecs cache [.pushByteChunk (calls.flatMap Call.pushed)]
    refine hfollows.drain_settles.same hfollows'.drain_settles ?_
    rw [← harrival.settle_push, ← harrival'.settle_push, List.flatMap_singleton, Call.pushed]
  · rcases panic_of_run h with h | h <;> cases h

end DimosViewer.Rrd
