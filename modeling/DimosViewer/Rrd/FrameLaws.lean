import DimosViewer.Rrd.Frames

/-!
# Frames read back

Every frame that is written is read as what it was, and no frame is taken for another kind.
-/

namespace DimosViewer.Rrd

open LittleEndian

-- ---------------------------------------------------------------------------
-- Stream headers
-- ---------------------------------------------------------------------------

namespace CrateVersion

/-- What is read where this version was written. -/
def reread (version : CrateVersion) : CrateVersion :=
  fromBytes version.major version.minor version.patch ((version.meta?.map Meta.toByte).getD 0)

def Supported (version : CrateVersion) : Prop := ¬ (version.major = 0 ∧ version.minor < 23)

instance (version : CrateVersion) : Decidable version.Supported := instDecidableNot

/-- The version that is judged: all files before 0.2.1 say version zero. -/
def encoded (version : CrateVersion) : CrateVersion :=
  if version.toBytes = [0, 0, 0, 0] then new 0 2 0 else version.reread

theorem encoded_old_iff (version : CrateVersion) :
    version.encoded.major = 0 ∧ version.encoded.minor < 23 ↔ ¬ version.Supported := by
  rw [Supported, Decidable.not_not, encoded]
  split
  case isTrue hzero =>
    simp only [toBytes, List.cons.injEq] at hzero
    rw [hzero.1, hzero.2.1]
    decide
  case isFalse => rfl

end CrateVersion

namespace EncodingOptions

theorem fromRrdBytes_toRrdBytes (options : EncodingOptions) :
    fromRrdBytes options.toRrdBytes = .ok options := by
  obtain ⟨compression, serializer⟩ := options
  cases compression <;> cases serializer <;> rfl

@[simp] theorem length_toRrdBytes (options : EncodingOptions) : options.toRrdBytes.length = 4 := rfl

end EncodingOptions

namespace StreamHeader

def opening (version : CrateVersion) (options : EncodingOptions) : StreamHeader :=
  ⟨RRD_FOURCC, version.toBytes, options⟩

@[simp] theorem length_opening (version : CrateVersion) (options : EncodingOptions) :
    (opening version options).toRrdBytes.length = ENCODED_SIZE_BYTES := rfl

theorem fromRrdBytes_opening (version : CrateVersion) (options : EncodingOptions) :
    fromRrdBytes (opening version options).toRrdBytes = .ok (opening version options) := by
  have hoptions := EncodingOptions.fromRrdBytes_toRrdBytes options
  have hdrop : (opening version options).toRrdBytes.drop 8 = options.toRrdBytes := rfl
  have htake : (opening version options).toRrdBytes.take 4 = RRD_FOURCC := rfl
  have hversion : ((opening version options).toRrdBytes.drop 4).take 4 = version.toBytes := rfl
  have hold : RRD_FOURCC ∉ OLD_RRD_FOURCC := by decide
  simp only [fromRrdBytes, length_opening, htake, hversion, hdrop, hoptions, hold]
  rfl

theorem toVersionAndOptions_opening (version : CrateVersion) (options : EncodingOptions) :
    (opening version options).toVersionAndOptions =
      if version.encoded.major = 0 ∧ version.encoded.minor < 23 then
        .error (.incompatibleRerunVersion version.encoded)
      else .ok (version.reread, options) := rfl

theorem read_opening (version : CrateVersion) (options : EncodingOptions)
    (h : version.Supported) :
    (fromRrdBytes (opening version options).toRrdBytes).bind toVersionAndOptions =
      .ok (version.reread, options) := by
  rw [fromRrdBytes_opening, Except.bind, toVersionAndOptions_opening, if_neg]
  exact fun hold => version.encoded_old_iff.mp hold h

theorem read_opening_unsupported (version : CrateVersion) (options : EncodingOptions)
    (h : ¬ version.Supported) :
    (fromRrdBytes (opening version options).toRrdBytes).bind toVersionAndOptions =
      .error (.incompatibleRerunVersion version.encoded) := by
  rw [fromRrdBytes_opening, Except.bind, toVersionAndOptions_opening, if_pos]
  exact version.encoded_old_iff.mpr h

end StreamHeader

-- ---------------------------------------------------------------------------
-- Message headers
-- ---------------------------------------------------------------------------

namespace MessageHeader

@[simp] theorem length_toRrdBytes (header : MessageHeader) :
    header.toRrdBytes.length = ENCODED_SIZE_BYTES := by
  simp [toRrdBytes, ENCODED_SIZE_BYTES]

theorem take_toRrdBytes (header : MessageHeader) :
    header.toRrdBytes.take 8 = encode 8 header.kind.toU64 := by
  rw [toRrdBytes, List.take_append_of_le_length (by simp), List.take_of_length_le (by simp)]

theorem drop_toRrdBytes (header : MessageHeader) :
    header.toRrdBytes.drop 8 = encode 8 header.len := by
  rw [toRrdBytes, List.drop_append_of_le_length (by simp), List.drop_of_length_le (by simp),
    List.nil_append]

theorem fromRrdBytes_toRrdBytes {header : MessageHeader} (h : header.len < 2 ^ 64) :
    fromRrdBytes header.toRrdBytes = .ok header := by
  obtain ⟨kind, len⟩ := header
  have hlen : decode (encode 8 len) = len := decode_encode (by simpa using h)
  have hkind : MessageKind.fromU64 (decode (encode 8 kind.toU64)) = some kind := by
    cases kind <;> decide
  simp [fromRrdBytes, take_toRrdBytes, drop_toRrdBytes, hkind, hlen]

/-- No stream header is taken for a message header. -/
theorem fromRrdBytes_of_fourcc {data : Bytes} (h : data.take 4 = RRD_FOURCC) :
    ∃ text, fromRrdBytes data = .error (.frameDecoding text) := by
  have hkind : MessageKind.fromU64 (decode (data.take 8)) = none := by
    obtain ⟨rest, hrest⟩ : ∃ rest, data.take 8 = 0x52 :: rest := by
      rw [show (8 : Nat) = 4 + 4 from rfl, List.take_add, h]
      exact ⟨_, rfl⟩
    rw [hrest, decode]
    have : 4 ≤ UInt8.toNat 0x52 + 256 * decode rest := by
      have : UInt8.toNat 0x52 = 82 := rfl
      omega
    unfold MessageKind.fromU64
    split <;> first | rfl | omega
  simp only [fromRrdBytes]
  split
  · exact ⟨_, rfl⟩
  · rw [hkind]
    exact ⟨_, rfl⟩

end MessageHeader

-- ---------------------------------------------------------------------------
-- Stream footers
-- ---------------------------------------------------------------------------

namespace StreamFooter

@[simp] theorem length_fromRrdFooterBytes (computeCrc : Bytes → UInt32) (offset : Nat)
    (rrdFooterBytes : Bytes) :
    (fromRrdFooterBytes computeCrc offset rrdFooterBytes).toRrdBytes.length =
      ENCODED_SIZE_BYTES := by
  simp [fromRrdFooterBytes, toRrdBytes, RRD_FOURCC, RRD_IDENTIFIER, ENCODED_SIZE_BYTES]

/-- The end of the entry, where the footer of a single entry has its marks. -/
def marks (data : Bytes) : Bytes := (data.drop ENCODED_SIZE_BYTES_SINGLE_ENTRY).take 8

theorem fromRrdBytes_of_marks {data : Bytes} (hlen : data.length = ENCODED_SIZE_BYTES)
    (h : marks data ≠ RRD_FOURCC ++ RRD_IDENTIFIER) :
    ∃ err, fromRrdBytes data = .ok (.error err) := by
  have hdrop : data.length - ENCODED_SIZE_BYTES_IGNORING_ENTRIES =
      ENCODED_SIZE_BYTES_SINGLE_ENTRY := by
    rw [hlen]
    rfl
  simp only [fromRrdBytes, hdrop]
  rw [if_neg (by omega)]
  split
  · exact ⟨_, rfl⟩
  case isFalse hfourcc =>
  split
  · exact ⟨_, rfl⟩
  case isFalse hidentifier =>
  rw [Decidable.not_not] at hfourcc hidentifier
  refine absurd ?_ h
  rw [marks, show (8 : Nat) = 4 + 4 from rfl, List.take_add, hfourcc, hidentifier]

theorem toRrdBytes_fromRrdFooterBytes (computeCrc : Bytes → UInt32) (offset : Nat)
    (rrdFooterBytes : Bytes) :
    (fromRrdFooterBytes computeCrc offset rrdFooterBytes).toRrdBytes =
      encode 8 offset ++ (encode 8 rrdFooterBytes.length ++
        (encode 4 (computeCrc rrdFooterBytes).toNat ++
          (RRD_FOURCC ++ (RRD_IDENTIFIER ++ encode 4 1)))) := by
  simp [toRrdBytes, fromRrdFooterBytes]

theorem drop_fromRrdFooterBytes (computeCrc : Bytes → UInt32) (offset : Nat)
    (rrdFooterBytes : Bytes) :
    (fromRrdFooterBytes computeCrc offset rrdFooterBytes).toRrdBytes.drop
      ENCODED_SIZE_BYTES_SINGLE_ENTRY = RRD_FOURCC ++ (RRD_IDENTIFIER ++ encode 4 1) := by
  rw [toRrdBytes_fromRrdFooterBytes]
  simp [List.drop_append, List.drop_of_length_le, ENCODED_SIZE_BYTES_SINGLE_ENTRY]

/-- Wherever it points to, what is written is a footer. -/
theorem fromRrdBytes_ok (computeCrc : Bytes → UInt32) (offset : Nat) (rrdFooterBytes : Bytes) :
    ∃ footer, fromRrdBytes (fromRrdFooterBytes computeCrc offset rrdFooterBytes).toRrdBytes =
      .ok (.ok footer) := by
  have hdrop := drop_fromRrdFooterBytes computeCrc offset rrdFooterBytes
  have hfixed : ENCODED_SIZE_BYTES - ENCODED_SIZE_BYTES_IGNORING_ENTRIES =
      ENCODED_SIZE_BYTES_SINGLE_ENTRY := rfl
  have hnum : decode (((RRD_FOURCC ++ (RRD_IDENTIFIER ++ encode 4 1)).drop 8).take 4) = 1 := by
    decide
  simp only [fromRrdBytes, length_fromRrdFooterBytes, hfixed, hdrop, hnum, Nat.sub_self,
    List.drop_zero, readEntries]
  exact ⟨_, rfl⟩

end StreamFooter

end DimosViewer.Rrd
