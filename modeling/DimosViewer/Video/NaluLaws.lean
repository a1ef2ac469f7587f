import DimosViewer.Video.Nalu

/-!
# The Annex B stream is exact

The loop goes over the units in order, whatever has been written before. The parameter sets are
where they belong unless three IDR chunks come in a row.
-/

namespace DimosViewer.Video

open LittleEndian (Bytes)

-- ---------------------------------------------------------------------------
-- Length prefixes
-- ---------------------------------------------------------------------------

@[simp] theorem length_toBeBytes (width n : Nat) : (toBeBytes width n).length = width := by
  rw [toBeBytes, List.length_reverse, LittleEndian.length_encode]

theorem fromBeBytes_toBeBytes (h : n < 256 ^ width) : fromBeBytes (toBeBytes width n) = n := by
  rw [fromBeBytes, toBeBytes, List.reverse_reverse, LittleEndian.decode_encode h]

theorem toBeBytes_fromBeBytes (h : bytes.length = width) :
    toBeBytes width (fromBeBytes bytes) = bytes := by
  rw [fromBeBytes, toBeBytes, ← h, ← List.length_reverse, LittleEndian.encode_decode,
    List.reverse_reverse]

theorem fromBeBytes_lt (h : bytes.length = width) : fromBeBytes bytes < 256 ^ width := by
  rw [fromBeBytes, ← h, ← List.length_reverse]
  exact LittleEndian.decode_lt bytes.reverse

theorem slice_eq (hle : start ≤ stop) (hstop : stop ≤ data.length) :
    slice data start stop = some ((data.drop start).take (stop - start)) := by
  rw [slice, if_pos ⟨hle, hstop⟩]

theorem nalUnitSize_eq (hn : n = 1 ∨ n = 2 ∨ n = 4) (hle : offset + n ≤ data.length) :
    nalUnitSize data offset n = some (.ok (fromBeBytes ((data.drop offset).take n))) := by
  obtain rfl | rfl | rfl := hn
  · have hget : data[offset]? = some data[offset] := List.getElem?_eq_getElem hle
    have htake : (data.drop offset).take 1 = [data[offset]] := by
      rw [List.drop_eq_getElem_cons hle]
      rfl
    rw [nalUnitSize, hget, htake]
    rfl
  · rw [nalUnitSize, slice_eq (by omega) hle, Nat.add_sub_cancel_left]
    rfl
  · rw [nalUnitSize, slice_eq (by omega) hle, Nat.add_sub_cancel_left]
    rfl

theorem nalUnitSize_other (hn : ¬(n = 1 ∨ n = 2 ∨ n = 4)) :
    nalUnitSize data offset n =
      some (.error (.badVideoData s!"Bad length prefix size: {n}")) := by
  rw [nalUnitSize]
  · exact fun h => hn (.inl h)
  · exact fun h => hn (.inr (.inl h))
  · exact fun h => hn (.inr (.inr h))

-- ---------------------------------------------------------------------------
-- The loop
-- ---------------------------------------------------------------------------

theorem writeNalus_done (n : Nat) (stream : List UInt8) (offset : Nat) (h : data.length ≤ offset) :
    writeNalus data n stream offset = some (stream, .ok ()) := by
  rw [writeNalus, if_neg (by omega)]

theorem writeNalus_unit (hn : n = 1 ∨ n = 2 ∨ n = 4)
    (hsize : fromBeBytes ((data.drop offset).take n) = size)
    (hle : offset + size + n ≤ data.length) :
    writeNalus data n stream offset =
      writeNalus data n
        (stream ++ ANNEXB_NAL_START_CODE ++ (data.drop (offset + n)).take size)
        (offset + size + n) := by
  have hsub : offset + size + n - (offset + n) = size := by omega
  rw [writeNalus, if_pos (by omega), if_neg (by omega)]
  split
  · rename_i h
    rw [nalUnitSize_eq hn (by omega)] at h
    cases h
  · rename_i err h
    rw [nalUnitSize_eq hn (by omega)] at h
    cases h
  · rename_i s h
    rw [nalUnitSize_eq hn (by omega), hsize] at h
    cases h
    rw [if_neg (by omega), slice_eq (by omega) hle, hsub]

theorem writeNalus_short (hlt : offset < data.length) (hshort : data.length < offset + n) :
    ∃ err, ∀ stream, writeNalus data n stream offset = some (stream, .error err) := by
  refine ⟨.badVideoData "Not enough bytes to fit the length prefix", fun stream => ?_⟩
  rw [writeNalus, if_pos hlt, if_pos hshort]

theorem writeNalus_stops (hlt : offset < data.length)
    (hsize : nalUnitSize data offset n = some (.error err)) :
    ∃ err, ∀ stream, writeNalus data n stream offset = some (stream, .error err) := by
  by_cases hshort : data.length < offset + n
  · exact writeNalus_short hlt hshort
  · refine ⟨err, fun stream => ?_⟩
    rw [writeNalus, if_pos hlt, if_neg hshort]
    split
    · rename_i h
      rw [hsize] at h
      cases h
    · rename_i h
      rw [hsize] at h
      cases h
      rfl
    · rename_i h
      rw [hsize] at h
      cases h

theorem writeNalus_incomplete (hlt : offset < data.length) (hle : offset + n ≤ data.length)
    (hsize : nalUnitSize data offset n = some (.ok size))
    (hend : data.length < offset + size + n) :
    ∃ err, ∀ stream, writeNalus data n stream offset = some (stream, .error err) := by
  refine ⟨.badVideoData "Video sample data ends with incomplete NAL unit.", fun stream => ?_⟩
  rw [writeNalus, if_pos hlt, if_neg (by omega)]
  split
  · rename_i h
    rw [hsize] at h
    cases h
  · rename_i h
    rw [hsize] at h
    cases h
  · rename_i h
    rw [hsize] at h
    cases h
    rw [if_pos hend]

theorem writeNalus_cases (data : Bytes) (n offset : Nat) :
    data.length ≤ offset ∨
    (offset < data.length ∧
      ∃ err, ∀ stream, writeNalus data n stream offset = some (stream, .error err)) ∨
    ((n = 1 ∨ n = 2 ∨ n = 4) ∧ ∃ unit, unit.length < 256 ^ n ∧
      data.drop offset = toBeBytes n unit.length ++ unit ++ data.drop (offset + unit.length + n) ∧
      offset + unit.length + n ≤ data.length ∧
      ∀ stream, writeNalus data n stream offset =
        writeNalus data n (stream ++ ANNEXB_NAL_START_CODE ++ unit)
          (offset + unit.length + n)) := by
  by_cases hlt : offset < data.length
  · right
    by_cases hle : data.length < offset + n
    · exact .inl ⟨hlt, writeNalus_short hlt hle⟩
    · have hle : offset + n ≤ data.length := by omega
      by_cases hn : n = 1 ∨ n = 2 ∨ n = 4
      · have hsize := nalUnitSize_eq hn hle
        by_cases hend : data.length < offset + fromBeBytes ((data.drop offset).take n) + n
        · exact .inl ⟨hlt, writeNalus_incomplete hlt hle hsize hend⟩
        · right
          refine ⟨hn, (data.drop (offset + n)).take (fromBeBytes ((data.drop offset).take n)), ?_⟩
          have hpre : ((data.drop offset).take n).length = n := by
            rw [List.length_take, List.length_drop]
            omega
          have hunit : ((data.drop (offset + n)).take
              (fromBeBytes ((data.drop offset).take n))).length =
              fromBeBytes ((data.drop offset).take n) := by
            rw [List.length_take, List.length_drop]
            omega
          rw [hunit]
          refine ⟨fromBeBytes_lt hpre, ?_, by omega, fun stream => writeNalus_unit hn rfl
            (by omega)⟩
          have hrest : data.drop (offset + fromBeBytes ((data.drop offset).take n) + n) =
              (data.drop (offset + n)).drop (fromBeBytes ((data.drop offset).take n)) := by
            rw [List.drop_drop]
            congr 1
            omega
          rw [toBeBytes_fromBeBytes hpre, hrest, List.append_assoc, List.take_append_drop,
            ← List.drop_drop, List.take_append_drop]
      · exact .inl ⟨hlt, writeNalus_stops hlt (nalUnitSize_other hn)⟩
  · exact .inl (by omega)

theorem UnitsOf.nil : UnitsOf n [] [] := by
  refine ⟨?_, rfl⟩
  intro unit hu
  cases hu

theorem UnitsOf.cons (hu : unit.length < 256 ^ n) (h : UnitsOf n rest units) :
    UnitsOf n (toBeBytes n unit.length ++ unit ++ rest) (unit :: units) := by
  refine ⟨?_, ?_⟩
  · intro u hmem
    obtain rfl | hmem := List.mem_cons.mp hmem
    · exact hu
    · exact h.fits u hmem
  · rw [h.bytes]
    rfl

theorem writeNalus_returns (data : Bytes) (n offset : Nat) :
    ∃ out result, (∀ stream, writeNalus data n stream offset = some (stream ++ out, result)) ∧
      (result = .ok () → ∃ units, UnitsOf n (data.drop offset) units ∧
        (units ≠ [] → n = 1 ∨ n = 2 ∨ n = 4)) := by
  induction hk : data.length - offset using Nat.strong_induction_on generalizing offset with
  | _ k ih =>
    obtain hdone | ⟨-, err, herr⟩ | ⟨hn, unit, hfits, hdata, hend, hnext⟩ :=
      writeNalus_cases data n offset
    · refine ⟨[], .ok (), fun stream => ?_, fun _ => ⟨[], ?_, fun h => absurd rfl h⟩⟩
      · rw [writeNalus_done _ _ _ hdone, List.append_nil]
      · rw [List.drop_eq_nil_of_le hdone]
        exact UnitsOf.nil
    · refine ⟨[], .error err, fun stream => ?_, fun h => by cases h⟩
      rw [herr, List.append_nil]
    · have hpos : 0 < n := by omega
      obtain ⟨out, result, hout, hok⟩ := ih _ (by omega) (offset + unit.length + n) rfl
      refine ⟨ANNEXB_NAL_START_CODE ++ unit ++ out, result, fun stream => ?_, fun h => ?_⟩
      · rw [hnext, hout]
        simp only [List.append_assoc]
      · obtain ⟨units, hunits, -⟩ := hok h
        refine ⟨unit :: units, ?_, fun _ => hn⟩
        rw [hdata]
        exact UnitsOf.cons hfits hunits

theorem writeNalus_units (stream : List UInt8) (offset : Nat) (hn : n = 1 ∨ n = 2 ∨ n = 4)
    (h : UnitsOf n (data.drop offset) units) :
    writeNalus data n stream offset = some (stream ++ annexB units, .ok ()) := by
  induction units generalizing stream offset with
  | nil =>
    rw [writeNalus_done _ _ _ (List.drop_eq_nil_iff.mp h.bytes)]
    simp [annexB]
  | cons unit units ih =>
    have hfits := h.fits unit List.mem_cons_self
    have hdata :
        data.drop offset = toBeBytes n unit.length ++ (unit ++ lengthPrefixed n units) := by
      rw [h.bytes, lengthPrefixed, List.flatMap_cons, List.append_assoc]
      rfl
    have hsize : fromBeBytes ((data.drop offset).take n) = unit.length := by
      rw [hdata, List.take_left' (length_toBeBytes n _), fromBeBytes_toBeBytes hfits]
    have hrest : data.drop (offset + n) = unit ++ lengthPrefixed n units := by
      rw [← List.drop_drop, hdata, List.drop_left' (length_toBeBytes n _)]
    have hlen := congrArg List.length hdata
    rw [List.length_drop, List.length_append, List.length_append, length_toBeBytes] at hlen
    have hpos : 0 < n := by omega
    have htail : UnitsOf n (data.drop (offset + unit.length + n)) units := by
      refine ⟨fun u hu => h.fits u (List.mem_cons_of_mem _ hu), ?_⟩
      have hswap : offset + unit.length + n = offset + n + unit.length := by omega
      rw [hswap, ← List.drop_drop, hrest, List.drop_left]
    rw [writeNalus_unit hn hsize (by omega), ih _ _ htail, hrest, List.take_left, annexB, annexB,
      List.flatMap_cons]
    simp only [List.append_assoc]

theorem turnsIntoAnnexB (stream data : Bytes) (hn : n = 1 ∨ n = 2 ∨ n = 4) :
    TurnsIntoAnnexB stream data n := by
  obtain ⟨out, result, hout, hok⟩ := writeNalus_returns data n 0
  refine ⟨stream ++ out, result, hout stream, ⟨fun h => ?_, ?_⟩, ?_⟩
  · obtain ⟨units, hunits, -⟩ := hok h
    exact ⟨units, hunits⟩
  · rintro ⟨units, hunits⟩
    have hwritten := writeNalus_units stream 0 hn hunits
    rw [hout, Option.some.injEq, Prod.mk.injEq] at hwritten
    exact hwritten.2
  · intro units hunits
    have hwritten := writeNalus_units stream 0 hn hunits
    rw [hout, Option.some.injEq, Prod.mk.injEq] at hwritten
    exact hwritten.1

-- ---------------------------------------------------------------------------
-- One chunk
-- ---------------------------------------------------------------------------

theorem writeParameterSets_eq (stream : Bytes) (sets : List Bytes) :
    writeParameterSets stream sets = stream ++ annexB sets := by
  induction sets generalizing stream with
  | nil => exact (List.append_nil stream).symm
  | cons bytes sets ih =>
    rw [writeParameterSets, List.foldl_cons, ← writeParameterSets, ih, annexB, annexB,
      List.flatMap_cons]
    simp only [List.append_assoc]

def AvcC.emitted (avcc : AvcC) (emitParameterSets : Bool) : Bytes :=
  if emitParameterSets then avcc.parameterSets else []

/-- A chunk adds its own units, behind the parameter sets where they are asked for, and
succeeds where its data is well formed. -/
theorem writeAvcChunkToAnnexb_eq (avcc : AvcC) (chunk : Chunk) :
    ∃ result, (result = .ok () ↔ chunk.WellFormed avcc) ∧
      ∀ stream emit, writeAvcChunkToAnnexb avcc stream emit chunk =
        some (stream ++ (avcc.emitted emit ++ avcc.chunkUnits chunk), result) := by
  obtain ⟨out, result, hout, hok⟩ := writeNalus_returns chunk.data avcc.lengthPrefixSize 0
  have hunits : avcc.chunkUnits chunk = out := by
    rw [AvcC.chunkUnits, writeAvcChunkToAnnexb, writeLengthPrefixedNalusToAnnexbStream, hout]
    rfl
  refine ⟨result, ⟨fun h => ?_, ?_⟩, fun stream emit => ?_⟩
  · obtain ⟨units, hunits, hn⟩ := hok h
    by_cases hnil : units = []
    · left
      rw [hnil] at hunits
      exact hunits.bytes
    · exact .inr ⟨hn hnil, units, hunits⟩
  · rintro (hnil | ⟨hn, units, hunits⟩)
    · have hdone := writeNalus_done avcc.lengthPrefixSize [] 0
        (Nat.le_of_eq (congrArg List.length hnil))
      rw [hout, Option.some.injEq, Prod.mk.injEq] at hdone
      exact hdone.2
    · have hwritten := writeNalus_units [] 0 hn hunits
      rw [hout, Option.some.injEq, Prod.mk.injEq] at hwritten
      exact hwritten.2
  · rw [writeAvcChunkToAnnexb, writeLengthPrefixedNalusToAnnexbStream, hout, hunits]
    cases emit with
    | false => rfl
    | true =>
      rw [if_pos rfl, writeParameterSets_eq, writeParameterSets_eq, AvcC.emitted, if_pos rfl,
        AvcC.parameterSets, annexB, annexB, annexB, List.flatMap_append]
      simp only [List.append_assoc]

-- ---------------------------------------------------------------------------
-- Chunk after chunk
-- ---------------------------------------------------------------------------

def emits (state : AnnexBStreamState) (chunk : Chunk) : Bool :=
  chunk.isSync && !state.previousFrameWasIdr

theorem writeChunks_concat (chunk : Chunk) (h : writeChunks avcc before = some (stream, state)) :
    ∃ state', writeChunks avcc (before ++ [chunk]) =
        some (stream ++ (avcc.emitted (emits state chunk) ++ avcc.chunkUnits chunk), state') ∧
      (chunk.WellFormed avcc → state'.previousFrameWasIdr = emits state chunk) ∧
      (¬chunk.WellFormed avcc → state' = state) := by
  obtain ⟨result, hok, hwritten⟩ := writeAvcChunkToAnnexb_eq avcc chunk
  have hstep : writeChunks avcc (before ++ [chunk]) =
      (writeAvcChunkToNaluStream avcc stream chunk state).map fun r => (r.1.1, r.2) := by
    rw [writeChunks, List.foldlM_append, ← writeChunks, h]
    change Option.bind _ some = _
    exact Option.bind_fun_some _
  rw [hstep, writeAvcChunkToNaluStream, hwritten]
  cases result with
  | error err =>
    refine ⟨state, rfl, fun h => ?_, fun _ => rfl⟩
    cases hok.mpr h
  | ok =>
    exact ⟨{ previousFrameWasIdr := emits state chunk }, rfl, fun _ => rfl,
      fun h => absurd (hok.mp rfl) h⟩

theorem writeChunks_returns (avcc : AvcC) (chunks : List Chunk) :
    ∃ stream state, writeChunks avcc chunks = some (stream, state) := by
  induction chunks using List.reverseRecOn with
  | nil => exact ⟨[], {}, rfl⟩
  | append_singleton chunks chunk ih =>
    obtain ⟨stream, state, h⟩ := ih
    obtain ⟨state', h', -⟩ := writeChunks_concat chunk h
    exact ⟨_, state', h'⟩

theorem adds_iff (h : writeChunks avcc before = some (stream, state)) :
    Adds avcc before chunk bytes ↔
      avcc.emitted (emits state chunk) ++ avcc.chunkUnits chunk = bytes := by
  obtain ⟨state', h', -⟩ := writeChunks_concat chunk h
  rw [Adds, streamOf, streamOf, h, h']
  constructor
  · rintro ⟨s, hs, hbytes⟩
    cases hs
    exact List.append_cancel_left (Option.some.inj hbytes)
  · rintro rfl
    exact ⟨stream, rfl, rfl⟩

theorem parameterSetsOnce_of_nil (hnone : avcc.parameterSets = []) :
    ParameterSetsOnce avcc before chunk := by
  obtain ⟨stream, state, h⟩ := writeChunks_returns avcc before
  have hemitted : avcc.emitted (emits state chunk) = [] := by
    rw [AvcC.emitted, hnone, ite_self]
  rw [ParameterSetsOnce, adds_iff h, adds_iff h, hemitted, hnone]
  exact ⟨fun _ _ => rfl, fun _ => rfl⟩

theorem emitted_eq_nil_iff {avcc : AvcC} (hsome : avcc.parameterSets ≠ []) :
    avcc.emitted emit = [] ↔ emit = false := by
  cases emit with
  | false => exact ⟨fun _ => rfl, fun _ => rfl⟩
  | true => exact ⟨fun h => absurd h hsome, fun h => by cases h⟩

theorem emitted_eq_iff {avcc : AvcC} (hsome : avcc.parameterSets ≠ []) :
    avcc.emitted emit = avcc.parameterSets ↔ emit = true := by
  cases emit with
  | false => exact ⟨fun h => absurd h.symm hsome, fun h => by cases h⟩
  | true => exact ⟨fun _ => rfl, fun _ => rfl⟩

/-- With parameter sets, the flag has to tell whether the chunk in front is an IDR chunk. -/
theorem parameterSetsOnce_iff (hsome : avcc.parameterSets ≠ [])
    (h : writeChunks avcc before = some (stream, state)) :
    ParameterSetsOnce avcc before chunk ↔
      (chunk.isSync → state.previousFrameWasIdr = followsIdr before) := by
  rw [ParameterSetsOnce, adds_iff h, adds_iff h, List.append_left_inj, List.append_left_eq_self,
    emitted_eq_nil_iff hsome, emitted_eq_iff hsome, emits]
  cases chunk.isSync <;> cases state.previousFrameWasIdr <;> cases followsIdr before <;> simp

-- ---------------------------------------------------------------------------
-- Rows of IDR chunks
-- ---------------------------------------------------------------------------

theorem followsIdr_concat (before : List Chunk) (chunk : Chunk) :
    followsIdr (before ++ [chunk]) = chunk.isSync := by
  rw [followsIdr, List.getLast?_concat]
  rfl

theorem atEvery_concat :
    AtEvery P (chunks ++ [chunk]) ↔ AtEvery P chunks ∧ P chunks chunk := by
  constructor
  · intro h
    refine ⟨fun before c hc => h before c (hc.trans (List.prefix_append _ _)), ?_⟩
    exact h chunks chunk (List.prefix_refl _)
  · rintro ⟨h, hlast⟩ before c hc
    obtain heq | hpre := List.prefix_concat_iff.mp hc
    · obtain ⟨rfl, hsame⟩ := List.append_inj' heq rfl
      obtain rfl := List.singleton_inj.mp hsame
      exact hlast
    · exact h before c hpre

theorem atEvery_nil : AtEvery P [] := by
  intro before chunk h
  exact absurd (List.prefix_nil.mp h) (by simp)

theorem lastStartsIdr_nil : ¬LastStartsIdr avcc [] := by
  rintro ⟨before, chunk, malformed, h, -⟩
  exact absurd h.symm (by simp)

theorem lastStartsIdr_concat (h : chunk.WellFormed avcc) :
    LastStartsIdr avcc (chunks ++ [chunk]) ↔ chunk.isSync ∧ followsIdr chunks = false := by
  constructor
  · rintro ⟨before, c, malformed, heq, -, hmal, hsync, hfirst⟩
    cases malformed using List.reverseRecOn with
    | nil =>
      obtain ⟨rfl, hc⟩ := List.append_inj' heq rfl
      cases hc
      exact ⟨hsync, hfirst⟩
    | append_singleton malformed last =>
      rw [← List.cons_append, ← List.append_assoc] at heq
      obtain ⟨-, hlast⟩ := List.append_inj' heq rfl
      cases hlast
      exact absurd h (hmal chunk (by simp))
  · rintro ⟨hsync, hfirst⟩
    exact ⟨chunks, chunk, [], rfl, h, (by simp), hsync, hfirst⟩

theorem lastStartsIdr_concat_malformed (h : ¬chunk.WellFormed avcc) :
    LastStartsIdr avcc (chunks ++ [chunk]) ↔ LastStartsIdr avcc chunks := by
  constructor
  · rintro ⟨before, c, malformed, heq, hc, hmal, hsync, hfirst⟩
    cases malformed using List.reverseRecOn with
    | nil =>
      obtain ⟨-, hlast⟩ := List.append_inj' heq rfl
      cases hlast
      exact absurd hc h
    | append_singleton malformed last =>
      rw [← List.cons_append, ← List.append_assoc] at heq
      obtain ⟨rfl, -⟩ := List.append_inj' heq rfl
      exact ⟨before, c, malformed, rfl, hc, fun d hd => hmal d (by simp [hd]), hsync, hfirst⟩
  · rintro ⟨before, c, malformed, rfl, hc, hmal, hsync, hfirst⟩
    refine ⟨before, c, malformed ++ [chunk], by simp, hc, fun d hd => ?_, hsync, hfirst⟩
    obtain hd | hd := List.mem_append.mp hd
    · exact hmal d hd
    · rw [List.mem_singleton.mp hd]
      exact h

/-- As long as the parameter sets are where they belong, the flag is that of the last
well-formed chunk. -/
theorem flag_iff_lastStartsIdr (hsome : avcc.parameterSets ≠ [])
    (honce : AtEvery (ParameterSetsOnce avcc) chunks)
    (h : writeChunks avcc chunks = some (stream, state)) :
    state.previousFrameWasIdr = true ↔ LastStartsIdr avcc chunks := by
  induction chunks using List.reverseRecOn generalizing stream state with
  | nil =>
    cases h
    exact ⟨(fun h => by cases h), fun h => absurd h lastStartsIdr_nil⟩
  | append_singleton chunks chunk ih =>
    obtain ⟨honce, hlast⟩ := atEvery_concat.mp honce
    obtain ⟨before, flag, hbefore⟩ := writeChunks_returns avcc chunks
    obtain ⟨state', h', hgood, hbad⟩ := writeChunks_concat chunk hbefore
    rw [h', Option.some.injEq, Prod.mk.injEq] at h
    obtain ⟨-, rfl⟩ := h
    by_cases hwell : chunk.WellFormed avcc
    · rw [hgood hwell, lastStartsIdr_concat hwell, emits]
      have hflag := (parameterSetsOnce_iff hsome hbefore).mp hlast
      cases hsync : chunk.isSync with
      | false => simp
      | true =>
        rw [hflag hsync]
        simp
    · rw [hbad hwell, lastStartsIdr_concat_malformed hwell]
      exact ih honce hbefore

theorem atEvery_parameterSetsOnce_iff (hsome : avcc.parameterSets ≠ []) :
    AtEvery (ParameterSetsOnce avcc) chunks ↔ AtEvery (IdrInPairs avcc) chunks := by
  induction chunks using List.reverseRecOn with
  | nil => exact ⟨fun _ => atEvery_nil, fun _ => atEvery_nil⟩
  | append_singleton chunks chunk ih =>
    rw [atEvery_concat, atEvery_concat, ← ih]
    refine and_congr_right fun honce => ?_
    obtain ⟨stream, state, h⟩ := writeChunks_returns avcc chunks
    rw [parameterSetsOnce_iff hsome h, IdrInPairs, ← flag_iff_lastStartsIdr hsome honce h,
      ← Bool.eq_iff_iff]

theorem atEvery_idrInPairs_iff (h : ∀ chunk ∈ chunks, chunk.WellFormed avcc) :
    AtEvery (IdrInPairs avcc) chunks ↔ ∀ before a b c, before ++ [a, b, c] <+: chunks →
      ¬(a.isSync ∧ b.isSync ∧ c.isSync) := by
  constructor
  · rintro hpairs before a b c hpre ⟨ha, hb, hc⟩
    have hsplit : before ++ [a, b, c] = (before ++ [a] ++ [b]) ++ [c] := by simp
    rw [hsplit] at hpre
    have hwell : b.WellFormed avcc := h b (hpre.subset (by simp))
    have hpair := hpairs _ _ hpre hc
    rw [lastStartsIdr_concat hwell, followsIdr_concat, followsIdr_concat] at hpair
    have := (hpair.mpr hb).2
    rw [ha] at this
    cases this
  · intro htriple before c hpre hc
    cases before using List.reverseRecOn with
    | nil => exact ⟨fun h => absurd h lastStartsIdr_nil, (fun h => by cases h)⟩
    | append_singleton before b =>
      have hwell : b.WellFormed avcc := h b (hpre.subset (by simp))
      rw [lastStartsIdr_concat hwell, followsIdr_concat]
      refine ⟨fun h => h.1, fun hb => ⟨hb, ?_⟩⟩
      cases before using List.reverseRecOn with
      | nil => rfl
      | append_singleton before a =>
        rw [followsIdr_concat]
        refine Bool.eq_false_iff.mpr fun ha => htriple before a b c ?_ ⟨ha, hb, hc⟩
        rw [List.append_assoc, List.append_assoc] at hpre
        exact hpre

-- ---------------------------------------------------------------------------
-- Main results
-- ---------------------------------------------------------------------------

/-- The stream is exact, but for the parameter sets of the third of three IDR chunks in a row. -/
theorem annexB_exact (stream data : Bytes) (avcc : AvcC) (chunks : List Chunk)
    (hn : n = 1 ∨ n = 2 ∨ n = 4) :
    TurnsIntoAnnexB stream data n ∧
      (AtEvery (ParameterSetsOnce avcc) chunks ↔
        avcc.parameterSets = [] ∨ AtEvery (IdrInPairs avcc) chunks) := by
  refine ⟨turnsIntoAnnexB stream data hn, ?_⟩
  by_cases hsome : avcc.parameterSets = []
  · exact ⟨fun _ => .inl hsome, fun _ _ _ _ => parameterSetsOnce_of_nil hsome⟩
  · rw [atEvery_parameterSetsOnce_iff hsome, or_iff_right hsome]

def idrChunk : Chunk := ⟨true, [0, 0, 0, 1, 0x65]⟩

def twoSets : AvcC := ⟨[[0x67]], [[0x68]], 3⟩

theorem idrChunk_wellFormed : idrChunk.WellFormed twoSets :=
  .inr ⟨by decide, [[0x65]], by decide, by decide⟩

theorem annexB_exact_two_chunks :
    TurnsIntoAnnexB [] idrChunk.data 4 ∧
      (AtEvery (ParameterSetsOnce twoSets) [idrChunk, idrChunk] ↔
        twoSets.parameterSets = [] ∨ AtEvery (IdrInPairs twoSets) [idrChunk, idrChunk]) :=
  annexB_exact [] idrChunk.data twoSets [idrChunk, idrChunk] (by decide)

/-- The third IDR chunk of a row gets the parameter sets again. -/
theorem third_idr_repeats :
    ¬AtEvery (ParameterSetsOnce twoSets) [idrChunk, idrChunk, idrChunk] := by
  have hwell : ∀ chunk ∈ [idrChunk, idrChunk, idrChunk], chunk.WellFormed twoSets := by
    intro chunk hmem
    have heq : chunk = idrChunk := by simpa using hmem
    rw [heq]
    exact idrChunk_wellFormed
  rw [atEvery_parameterSetsOnce_iff (by decide), atEvery_idrInPairs_iff hwell]
  intro h
  exact h [] idrChunk idrChunk idrChunk (List.prefix_refl _) ⟨rfl, rfl, rfl⟩

end DimosViewer.Video
