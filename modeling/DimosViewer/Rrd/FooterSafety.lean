import DimosViewer.Rrd.FooterReader
import DimosViewer.Rrd.ManifestCheckLaws

/-!
# When reading a footer is safe

The three readers of footers never abort and never ask for more than the bytes they are given
if the footer, where there is one, has at most one entry, and the span of that entry lies
within these bytes. What is decompressed from there says its own size, which must not be
over theirs either, and a build with debug assertions must be able to shorten the names of the
archetypes there.
-/

namespace DimosViewer.Rrd

open LittleEndian Metered

namespace Reading

theorem within_ofPanic_iff (r : Except Panic α) :
    Within limit (ofPanic r) ↔ ∃ value, r = .ok value := by
  cases r with
  | ok value => simp [ofPanic]
  | error panic => simp [ofPanic]

theorem within_slice_iff (bytes : Bytes) (start stop : Nat) :
    Within limit (slice bytes start stop) ↔ start ≤ stop ∧ stop ≤ bytes.length := by
  rw [slice]
  split
  case isTrue h => simp [h]
  case isFalse h => simp [h]

theorem outcome_slice_eq_ok_iff (bytes : Bytes) (start stop : Nat) (part : Bytes) :
    (slice bytes start stop).outcome = .ok part ↔
      (start ≤ stop ∧ stop ≤ bytes.length) ∧ (bytes.drop start).take (stop - start) = part := by
  rw [slice]
  split
  case isTrue h => simp [h]
  case isFalse h => simp [h]

end Reading

namespace Span

theorem within_stop_iff (span : Span) :
    Within limit span.stop ↔ span.start + span.len < 2 ^ 64 := by
  rw [stop]
  split
  case isTrue h => exact iff_of_true (within_pure _) h
  case isFalse h => exact iff_of_false (not_within_abort _) h

theorem outcome_stop_eq_ok_iff (span : Span) (n : Nat) :
    span.stop.outcome = .ok n ↔ span.start + span.len < 2 ^ 64 ∧ span.start + span.len = n := by
  rw [stop]
  split
  case isTrue h =>
    rw [outcome_pure, Outcome.ok.injEq]
    exact (and_iff_right h).symm
  case isFalse h => exact iff_of_false (fun hstop => by cases hstop) fun hstop => h hstop.1

end Span

-- ---------------------------------------------------------------------------
-- Stream footers
-- ---------------------------------------------------------------------------

namespace StreamFooter

def fixedData (data : Bytes) : Bytes :=
  data.drop (data.length - ENCODED_SIZE_BYTES_IGNORING_ENTRIES)

def lastBytes (data : Bytes) : Bytes := data.drop (data.length - ENCODED_SIZE_BYTES)

structure HasFooter (data : Bytes) : Prop where
  length : ENCODED_SIZE_BYTES ≤ data.length
  fourcc : (fixedData data).take 4 = RRD_FOURCC
  identifier : ((fixedData data).drop 4).take 4 = RRD_IDENTIFIER

def numRrdFooters (data : Bytes) : Nat := decode (((fixedData data).drop 8).take 4)

def singleEntry (data : Bytes) : StreamFooterEntry :=
  ⟨⟨decode ((lastBytes data).take 8), decode (((lastBytes data).drop 8).take 8)⟩,
    decode (((lastBytes data).drop 16).take 4)⟩

theorem length_lastBytes (h : ENCODED_SIZE_BYTES ≤ data.length) :
    (lastBytes data).length = ENCODED_SIZE_BYTES := by
  rw [lastBytes, List.length_drop]
  omega

theorem fixedData_lastBytes (h : ENCODED_SIZE_BYTES ≤ data.length) :
    fixedData (lastBytes data) = fixedData data := by
  have hsize : ENCODED_SIZE_BYTES_IGNORING_ENTRIES ≤ ENCODED_SIZE_BYTES := by decide
  rw [fixedData, length_lastBytes h, lastBytes, List.drop_drop, fixedData]
  congr 1
  omega

theorem lastBytes_lastBytes (h : ENCODED_SIZE_BYTES ≤ data.length) :
    lastBytes (lastBytes data) = lastBytes data := by
  rw [lastBytes, length_lastBytes h, Nat.sub_self, List.drop_zero]

theorem hasFooter_lastBytes_iff (h : ENCODED_SIZE_BYTES ≤ data.length) :
    HasFooter (lastBytes data) ↔ HasFooter data := by
  constructor
  case mp =>
    rintro ⟨-, hfourcc, hidentifier⟩
    rw [fixedData_lastBytes h] at hfourcc hidentifier
    exact ⟨h, hfourcc, hidentifier⟩
  case mpr =>
    rintro ⟨-, hfourcc, hidentifier⟩
    rw [← fixedData_lastBytes h] at hfourcc hidentifier
    exact ⟨(length_lastBytes h).ge, hfourcc, hidentifier⟩

theorem numRrdFooters_lastBytes (h : ENCODED_SIZE_BYTES ≤ data.length) :
    numRrdFooters (lastBytes data) = numRrdFooters data := by
  rw [numRrdFooters, fixedData_lastBytes h, numRrdFooters]

theorem singleEntry_lastBytes (h : ENCODED_SIZE_BYTES ≤ data.length) :
    singleEntry (lastBytes data) = singleEntry data := by
  rw [singleEntry, lastBytes_lastBytes h, singleEntry]

/-- There is room for one entry, which the numbers of the source bear out. -/
theorem readEntries_lastBytes (h : ENCODED_SIZE_BYTES ≤ data.length) (n : Nat) :
    readEntries (lastBytes data) n 0 =
      if n ≤ 1 then .ok (List.replicate n (singleEntry data)) else .error .sliceIndex := by
  have hlen : (lastBytes data).length = 32 := length_lastBytes h
  match n with
  | 0 => rfl
  | 1 =>
    have hfits : 0 + ENCODED_SIZE_BYTES_SINGLE_ENTRY ≤ (lastBytes data).length := by
      rw [hlen]
      decide
    rw [readEntries, if_pos hfits]
    rfl
  | n + 2 =>
    have hfits : 0 + ENCODED_SIZE_BYTES_SINGLE_ENTRY ≤ (lastBytes data).length := by
      rw [hlen]
      decide
    have hover : ¬ 0 + ENCODED_SIZE_BYTES_SINGLE_ENTRY + ENCODED_SIZE_BYTES_SINGLE_ENTRY ≤
        (lastBytes data).length := by
      rw [hlen]
      decide
    rw [readEntries, if_pos hfits, readEntries, if_neg hover, if_neg (by omega)]
    rfl

theorem readRrdBytes_of_not (h : ¬ HasFooter data) :
    ∃ text, readRrdBytes data = Metered.fail (.frameDecoding text) := by
  rw [readRrdBytes]
  split
  · exact ⟨_, rfl⟩
  case isFalse hlen =>
  simp only
  split
  · exact ⟨_, rfl⟩
  case isFalse hfourcc =>
  split
  · exact ⟨_, rfl⟩
  case isFalse hidentifier =>
  rw [Decidable.not_not] at hfourcc hidentifier
  exact absurd ⟨Nat.le_of_not_lt hlen, hfourcc, hidentifier⟩ h

theorem readRrdBytes_of_hasFooter (h : HasFooter data) :
    readRrdBytes data = do
      Metered.request (numRrdFooters data * ENTRY_SIZE)
      let entries ← Reading.ofPanic (readEntries (lastBytes data) (numRrdFooters data) 0)
      return ⟨RRD_FOURCC, RRD_IDENTIFIER, entries⟩ := by
  have hfourcc := h.fourcc
  have hidentifier := h.identifier
  rw [fixedData] at hfourcc hidentifier
  rw [readRrdBytes, if_neg (Nat.not_lt.mpr h.length)]
  simp only [hfourcc, hidentifier, ne_eq, not_true_eq_false, if_false]
  rfl

theorem outcome_readRrdBytes (h : HasFooter data) (hnum : numRrdFooters data ≤ 1) :
    (readRrdBytes data).outcome = .ok ⟨RRD_FOURCC, RRD_IDENTIFIER,
      List.replicate (numRrdFooters data) (singleEntry data)⟩ := by
  rw [readRrdBytes_of_hasFooter h, readEntries_lastBytes h.length, if_pos hnum]
  rfl

theorem within_readRrdBytes_iff (hlimit : data.length ≤ limit) :
    Within limit (readRrdBytes data) ↔ (HasFooter data → numRrdFooters data ≤ 1) := by
  by_cases h : HasFooter data
  case neg =>
    obtain ⟨text, heq⟩ := readRrdBytes_of_not h
    simp [heq, h]
  case pos =>
    have hsize : ENCODED_SIZE_BYTES = 32 := rfl
    have hentry : ENTRY_SIZE = 24 := rfl
    have hlength := h.length
    rw [readRrdBytes_of_hasFooter h, readEntries_lastBytes hlength]
    simp only [within_bind_iff, within_request_iff, Reading.within_ofPanic_iff, within_pure,
      implies_true, and_true, outcome_request, forall_const, h]
    constructor
    case mp =>
      rintro ⟨-, entries, heq⟩
      by_contra hnum
      rw [if_neg hnum] at heq
      cases heq
    case mpr =>
      intro hnum
      refine ⟨?_, _, if_pos hnum⟩
      rw [hentry]
      omega

end StreamFooter

-- ---------------------------------------------------------------------------
-- Manifests
-- ---------------------------------------------------------------------------

namespace FooterFormats

variable (formats : FooterFormats)

/-- The data of a manifest that is converted up to there decompress within `limit` bytes, and
the names are checked. -/
def Fits (limit : Nat) (manifest : formats.WireManifest) : Prop :=
  ∀ fields, manifest.fields = .ok fields →
    ∀ storeId, formats.storeId fields.storeId = .ok storeId →
      ∀ schema, formats.schema fields.sorbetSchema = .ok schema →
        (∀ bytes, fields.data.encoded = .ok (bytes, .lz4) →
          fields.data.uncompressedSize ≤ limit) ∧
        ∀ data, (formats.recordBatch fields.data).outcome = .ok data →
          Application.RawRrdManifest.NamesFit ⟨storeId, schema, fields.sorbetSchemaSha256, data⟩
            formats.texts formats.debugAssertions

def Converts (manifest : formats.WireManifest) : Prop :=
  ∃ raw, (formats.toApplication manifest).outcome = .ok raw

/-- A payload that is decoded fits as far as its manifests are converted, one after the other. -/
def PayloadFits (limit crcExcludingHeader : Nat) (rrdFooterBytes : Bytes) : Prop :=
  (formats.computeCrc rrdFooterBytes).toNat = crcExcludingHeader →
    ∀ rrdFooter, formats.decodeRrdFooter rrdFooterBytes = .ok rrdFooter →
      ∀ before manifest after, rrdFooter = before ++ manifest :: after →
        (∀ m ∈ before, formats.Converts m) → formats.Fits limit manifest

variable {formats}

theorem within_recordBatchFromIpcBytes_iff (bytes : Bytes) (compression : Compression)
    (size : Nat) :
    Within limit (formats.recordBatchFromIpcBytes bytes compression size) ↔
      (compression = .lz4 → size ≤ limit) := by
  cases compression with
  | off => simp [recordBatchFromIpcBytes]
  | lz4 => simp [recordBatchFromIpcBytes, within_bind_iff]

theorem within_recordBatch_iff (part : DataframePart) :
    Within limit (formats.recordBatch part) ↔
      ∀ bytes, part.encoded = .ok (bytes, .lz4) → part.uncompressedSize ≤ limit := by
  rw [recordBatch, within_ofExcept_bind_iff]
  constructor
  case mp =>
    intro h bytes heq
    have hread := ((within_bind_iff _ _).mp (h (bytes, .lz4) heq)).1
    exact (within_recordBatchFromIpcBytes_iff ..).mp hread rfl
  case mpr =>
    rintro h ⟨bytes, compression⟩ heq
    refine (within_bind_iff _ _).mpr ⟨?_, ?_⟩
    · exact (within_recordBatchFromIpcBytes_iff ..).mpr fun hlz4 => h bytes (hlz4 ▸ heq)
    -- What is read is returned, or its absence is an error.
    · rintro (_ | batch) -
      · exact within_fail _
      · exact within_pure batch

theorem within_toApplication_iff (manifest : formats.WireManifest) :
    Within limit (formats.toApplication manifest) ↔ formats.Fits limit manifest := by
  simp only [toApplication, within_ofExcept_bind_iff]
  simp only [within_bind_iff, within_recordBatch_iff, within_pure, implies_true, and_true,
    Application.RawRrdManifest.within_sanityCheckCheap_iff]
  rfl

theorem within_readManifests_iff (crc : Nat) (bytes : Bytes) :
    Within limit (formats.readManifests crc bytes) ↔ formats.PayloadFits limit crc bytes := by
  rw [readManifests, PayloadFits]
  split
  case isTrue h => simp [h]
  case isFalse h =>
    rw [Decidable.not_not] at h
    simp only [h, forall_true_left, within_ofExcept_bind_iff, within_traverse_iff,
      within_toApplication_iff]
    rfl

-- ---------------------------------------------------------------------------
-- The three readers
-- ---------------------------------------------------------------------------

variable (formats)

/-- The span of an entry lies within the bytes, and so does what is decompressed from it. -/
structure EntryFits (bytes : Bytes) (entry : StreamFooterEntry) : Prop where
  noOverflow : entry.rrdFooterByteSpanFromStartExcludingHeader.start +
    entry.rrdFooterByteSpanFromStartExcludingHeader.len < 2 ^ 64
  inBounds : entry.rrdFooterByteSpanFromStartExcludingHeader.start +
    entry.rrdFooterByteSpanFromStartExcludingHeader.len ≤ bytes.length
  payload : formats.PayloadFits bytes.length entry.crcExcludingHeader
    ((bytes.drop entry.rrdFooterByteSpanFromStartExcludingHeader.start).take
      entry.rrdFooterByteSpanFromStartExcludingHeader.len)

/-- There is no footer, or one without entries, or with a single one that fits. -/
def FooterFits (bytes : Bytes) : Prop :=
  StreamFooter.HasFooter bytes → StreamFooter.numRrdFooters bytes = 0 ∨
    StreamFooter.numRrdFooters bytes = 1 ∧
      formats.EntryFits bytes (StreamFooter.singleEntry bytes)

variable {formats}

theorem FooterFits.numRrdFooters_le (h : formats.FooterFits bytes)
    (hfooter : StreamFooter.HasFooter bytes) : StreamFooter.numRrdFooters bytes ≤ 1 := by
  obtain hzero | ⟨hone, -⟩ := h hfooter
  · omega
  · omega

theorem within_readEntries_single_iff (bytes : Bytes) (entry : StreamFooterEntry) :
    Within bytes.length (RawRrdManifest.readEntries formats bytes [entry]) ↔
      formats.EntryFits bytes entry := by
  simp only [RawRrdManifest.readEntries, within_bind_iff, Span.within_stop_iff,
    Span.outcome_stop_eq_ok_iff, Reading.within_slice_iff, Reading.outcome_slice_eq_ok_iff,
    within_readManifests_iff, within_pure, implies_true, and_true, outcome_pure, and_imp]
  constructor
  case mp =>
    rintro ⟨hoverflow, h⟩
    obtain ⟨⟨hle, hbounds⟩, hpayload⟩ := h _ hoverflow rfl
    refine ⟨hoverflow, hbounds, ?_⟩
    rw [← Nat.add_sub_cancel_left (n := entry.rrdFooterByteSpanFromStartExcludingHeader.start)
      (m := entry.rrdFooterByteSpanFromStartExcludingHeader.len)]
    exact hpayload _ hle hbounds rfl
  case mpr =>
    rintro ⟨hoverflow, hbounds, hpayload⟩
    refine ⟨hoverflow, ?_⟩
    rintro stop - rfl
    refine ⟨⟨Nat.le_add_right _ _, hbounds⟩, ?_⟩
    rintro part - - rfl
    rwa [Nat.add_sub_cancel_left]

theorem within_readEntries_iff (bytes : Bytes) (hnum : StreamFooter.numRrdFooters bytes ≤ 1) :
    Within bytes.length (RawRrdManifest.readEntries formats bytes
      (List.replicate (StreamFooter.numRrdFooters bytes) (StreamFooter.singleEntry bytes))) ↔
      (StreamFooter.numRrdFooters bytes = 0 ∨ StreamFooter.numRrdFooters bytes = 1 ∧
        formats.EntryFits bytes (StreamFooter.singleEntry bytes)) := by
  obtain hzero | hone := Nat.le_one_iff_eq_zero_or_eq_one.mp hnum
  · simp [hzero, RawRrdManifest.readEntries]
  · simp [hone, within_readEntries_single_iff]

theorem within_fromRrdBytes_iff (bytes : Bytes) :
    Within bytes.length (RawRrdManifest.fromRrdBytes formats bytes) ↔
      formats.FooterFits bytes := by
  rw [RawRrdManifest.fromRrdBytes, within_bind_iff, within_attempt_iff,
    StreamFooter.within_readRrdBytes_iff le_rfl]
  by_cases hfooter : StreamFooter.HasFooter bytes
  case neg =>
    obtain ⟨text, heq⟩ := StreamFooter.readRrdBytes_of_not hfooter
    simp [hfooter, FooterFits, heq]
  case pos =>
    constructor
    case mp =>
      rintro ⟨hnum, h⟩ -
      exact (within_readEntries_iff bytes (hnum hfooter)).mp
        (h _ (outcome_attempt_of_ok (StreamFooter.outcome_readRrdBytes hfooter (hnum hfooter))))
    case mpr =>
      intro h
      have hnum := h.numRrdFooters_le hfooter
      refine ⟨fun _ => hnum, fun r hr => ?_⟩
      rw [outcome_attempt_of_ok (StreamFooter.outcome_readRrdBytes hfooter hnum),
        Outcome.ok.injEq] at hr
      subst hr
      exact (within_readEntries_iff bytes hnum).mpr (h hfooter)

theorem within_readEntry (h : formats.EntryFits bytes entry) :
    Within bytes.length (formats.readEntry bytes entry) := by
  rw [readEntry, within_bind_iff, Span.within_stop_iff]
  refine ⟨h.noOverflow, fun stop hstop => ?_⟩
  obtain ⟨-, rfl⟩ := (Span.outcome_stop_eq_ok_iff _ _).mp hstop
  have hbounds := h.inBounds
  simp only [if_neg (Nat.not_lt.mpr hbounds), within_bind_iff, within_request_iff,
    within_readManifests_iff, within_pure, implies_true, and_true]
  exact ⟨by omega, fun _ _ => h.payload⟩

theorem within_readRrdFooter (h : formats.FooterFits file) :
    Within file.length (formats.readRrdFooter file) := by
  rw [readRrdFooter]
  split
  · exact within_fail _
  rw [within_ofExcept_bind_iff]
  intro header _
  split
  · exact within_pure _
  case isFalse hlen =>
  have hlen : StreamFooter.ENCODED_SIZE_BYTES ≤ file.length := Nat.le_of_not_lt hlen
  change Within _ (attempt (StreamFooter.readRrdBytes (StreamFooter.lastBytes file)) >>= _)
  by_cases hfooter : StreamFooter.HasFooter file
  case neg =>
    rw [← StreamFooter.hasFooter_lastBytes_iff hlen] at hfooter
    obtain ⟨text, heq⟩ := StreamFooter.readRrdBytes_of_not hfooter
    rw [heq, attempt_fail]
    exact within_pure _
  case pos =>
    have hnum := h.numRrdFooters_le hfooter
    have hfits := h hfooter
    rw [← StreamFooter.hasFooter_lastBytes_iff hlen] at hfooter
    rw [← StreamFooter.numRrdFooters_lastBytes hlen] at hnum hfits
    rw [within_bind_iff, within_attempt_iff, StreamFooter.within_readRrdBytes_iff
      ((StreamFooter.length_lastBytes hlen).trans_le hlen)]
    refine ⟨fun _ => hnum, fun r hr => ?_⟩
    rw [outcome_attempt_of_ok (StreamFooter.outcome_readRrdBytes hfooter hnum),
      Outcome.ok.injEq] at hr
    subst hr
    obtain hzero | ⟨hone, hentry⟩ := hfits
    case inl =>
      rw [hzero]
      exact within_pure _
    case inr =>
      rw [hone, StreamFooter.singleEntry_lastBytes hlen]
      exact within_readEntry hentry

/-- A file whose trailer speaks of two entries: the second one is looked for in the marks. -/
def twoEntries : Bytes :=
  StreamHeader.toRrdBytes ⟨RRD_FOURCC, CrateVersion.LOCAL.toBytes, .PROTOBUF_COMPRESSED⟩ ++
    List.replicate 8 0 ++ RRD_FOURCC ++ StreamFooter.RRD_IDENTIFIER ++ encode 4 2

end FooterFormats

end DimosViewer.Rrd
