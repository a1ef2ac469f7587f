import DimosViewer.Rvl.Soundness
import DimosViewer.Rvl.Written
import Mathlib.Data.List.TakeWhile

/-!
# Decoding what was encoded

Encoder and decoder are compared at the groups between them.
-/

namespace DimosViewer.Rvl

open LittleEndian (Bytes)

-- ---------------------------------------------------------------------------
-- The groups of an image
-- ---------------------------------------------------------------------------

def deltaGroups (previous : Int) : List UInt16 → List Nat
  | [] => []
  | value :: values =>
    Vle.write 8 (Vle.zigzag (value.toNat - previous)) ++ deltaGroups value.toNat values

def lastValue (previous : Int) : List UInt16 → Int
  | [] => previous
  | value :: values => lastValue value.toNat values

def imageGroups (previous : Int) (values : List UInt16) : List Nat :=
  if values = [] then []
  else
    let zeros := values.takeWhile (· = 0)
    let values := values.dropWhile (· = 0)
    let nonzeros := values.takeWhile (· ≠ 0)
    Vle.write 8 zeros.length ++ Vle.write 8 nonzeros.length ++ deltaGroups previous nonzeros ++
      imageGroups (lastValue previous nonzeros) (values.dropWhile (· ≠ 0))
termination_by values.length
decreasing_by exact Encoder.rest_lt ‹_›

theorem lastValue_range (values : List UInt16) (hlow : 0 ≤ previous) (hhigh : previous < 2 ^ 16) :
    0 ≤ lastValue previous values ∧ lastValue previous values < 2 ^ 16 := by
  induction values generalizing previous with
  | nil => exact ⟨hlow, hhigh⟩
  | cons value values ih =>
    have hlt := value.toNat_lt
    exact ih (Int.natCast_nonneg _) (by omega)

theorem imageGroups_runs (h : values ≠ []) :
    ∃ zeros nonzeros rest, values = List.replicate zeros 0 ++ nonzeros ++ rest ∧
      0 < zeros + nonzeros.length ∧
      imageGroups previous values =
        Vle.write 8 zeros ++ Vle.write 8 nonzeros.length ++ deltaGroups previous nonzeros ++
          imageGroups (lastValue previous nonzeros) rest := by
  have hlt := Encoder.rest_lt h
  have hzeros : values.takeWhile (· = 0) =
      List.replicate (values.takeWhile (· = 0)).length 0 := by
    refine List.eq_replicate_iff.mpr ⟨rfl, ?_⟩
    intro value hvalue
    have hzero := List.mem_takeWhile_imp hvalue
    exact of_decide_eq_true hzero
  have hsplit : List.replicate (values.takeWhile (· = 0)).length 0 ++
      (values.dropWhile (· = 0)).takeWhile (· ≠ 0) ++
      (values.dropWhile (· = 0)).dropWhile (· ≠ 0) = values := by
    rw [← hzeros, List.append_assoc, List.takeWhile_append_dropWhile,
      List.takeWhile_append_dropWhile]
  refine ⟨_, _, _, hsplit.symm, ?_, by rw [imageGroups, if_neg h]⟩
  have hlen := congrArg List.length hsplit
  rw [List.length_append, List.length_append, List.length_replicate] at hlen
  omega

theorem toInt_pixel (value : UInt16) : value.toUInt32.toInt32.toInt = value.toNat := by
  have hlt := value.toNat_lt
  have hnat : value.toUInt32.toBitVec.toNat = value.toNat := UInt16.toNat_toUInt32 value
  rw [← Int32.toInt_toBitVec, UInt32.toBitVec_toInt32, BitVec.toInt_eq_toNat_of_lt (by omega), hnat]

-- ---------------------------------------------------------------------------
-- Encoding
-- ---------------------------------------------------------------------------

namespace Encoder

variable {e : Encoder}

theorem encodeDeltas_written (h : e.Written groups) (previous : Int32) (values : List UInt16)
    (hlow : 0 ≤ previous.toInt) (hhigh : previous.toInt < 2 ^ 16) :
    (e.encodeDeltas previous values).1.Written (groups ++ deltaGroups previous.toInt values) ∧
      (e.encodeDeltas previous values).2.toInt = lastValue previous.toInt values := by
  induction values generalizing e groups previous with
  | nil =>
    rw [deltaGroups, List.append_nil]
    exact ⟨h, rfl⟩
  | cons value values ih =>
    have hlt := value.toNat_lt
    have hpixel := toInt_pixel value
    have hsub : (value.toUInt32.toInt32 - previous).toInt = value.toNat - previous.toInt := by
      rw [Int32.toInt_sub, hpixel]
      exact Int.bmod_eq_of_le (by omega) (by omega)
    have hcode : (codeOf (value.toUInt32.toInt32 - previous)).toNat =
        Vle.zigzag (value.toNat - previous.toInt) := by
      rw [toNat_codeOf (by omega) (by omega), hsub]
    have hw := encodeVle_written h (codeOf (value.toUInt32.toInt32 - previous))
    rw [hcode] at hw
    have hrest := ih hw value.toUInt32.toInt32 (by omega) (by omega)
    rw [hpixel, List.append_assoc] at hrest
    exact hrest

theorem encodeRuns_written (h : e.Written groups) (previous : Int32) (values : List UInt16)
    (hlen : values.length < 2 ^ 32) (hlow : 0 ≤ previous.toInt) (hhigh : previous.toInt < 2 ^ 16) :
    (e.encodeRuns previous values).Written (groups ++ imageGroups previous.toInt values) := by
  induction hn : values.length using Nat.strongRecOn generalizing e groups previous values with
  | ind n ih =>
    rw [encodeRuns, imageGroups]
    split
    · rw [List.append_nil]
      exact h
    · rename_i hne
      have hlt := rest_lt hne
      simp only []
      generalize hz : values.takeWhile (· = 0) = zeros
      generalize hv : values.dropWhile (· = 0) = values'
      generalize hnz : values'.takeWhile (· ≠ 0) = nonzeros
      have hzlen : zeros.length ≤ values.length := hz ▸ (List.takeWhile_prefix _).length_le
      have hvlen : values'.length ≤ values.length := hv ▸ (List.dropWhile_suffix _).length_le
      have hnlen : nonzeros.length ≤ values'.length := hnz ▸ (List.takeWhile_prefix _).length_le
      have hw := encodeVle_written h (UInt32.ofNat zeros.length)
      have hw := encodeVle_written hw (UInt32.ofNat nonzeros.length)
      have hsize : UInt32.size = 2 ^ 32 := rfl
      rw [UInt32.toNat_ofNat_of_lt' (by omega), UInt32.toNat_ofNat_of_lt' (by omega)] at hw
      obtain ⟨hd, hlast⟩ := encodeDeltas_written hw previous nonzeros hlow hhigh
      have hrange := lastValue_range nonzeros hlow hhigh
      rw [← hlast] at hrange
      rw [hv] at hlt
      have hrest := ih _ (by omega) hd _ (values'.dropWhile (· ≠ 0)) (by omega) hrange.1
        hrange.2 rfl
      rw [hlast] at hrest
      simp only [List.append_assoc] at hrest ⊢
      exact hrest

end Encoder

theorem encodeRvl_written (h : values.length < 2 ^ 32) :
    ∃ padding, payloadNibbles (encodeRvl values) = imageGroups 0 values ++ padding := by
  have hw := Encoder.encodeRuns_written Encoder.new_written 0 values h (by decide) (by decide)
  exact Encoder.finish_written hw

-- ---------------------------------------------------------------------------
-- Decoding
-- ---------------------------------------------------------------------------

namespace RvlDecoder

variable {d : RvlDecoder} {previous : Int32}

theorem decodeVleLoop_write (h : d.nibbles = Vle.write 8 n ++ rest) (value : UInt32)
    (hv : value.toNat < 2 ^ (3 * k)) (hk : k + (Vle.write 8 n).length ≤ 11) :
    ∃ x d', d.decodeVleLoop value (3 * k) = .ok (x, d') := by
  induction n using Nat.strongRecOn generalizing d value k with
  | ind n ih =>
    by_cases hn : n < 8
    · rw [Vle.write_last hn] at h hk
      rw [List.length_singleton] at hk
      obtain ⟨x, d', -, -, -, heq⟩ := decodeVleLoop_cons (by omega) hv h
      exact ⟨x, d', heq.trans (if_pos hn)⟩
    · rw [Vle.write_more (by decide) (by omega)] at h hk
      rw [List.length_cons] at hk
      have hpos : 0 < (Vle.write 8 (n / 8)).length := by
        rw [Vle.write]
        split <;> exact Nat.succ_pos _
      obtain ⟨x, d', hn', -, hx, heq⟩ := decodeVleLoop_cons (by omega) hv h
      obtain ⟨hmod, hlt⟩ := loop_value_lt (8 + n % 8) (by omega) hv
      obtain ⟨y, d'', hy⟩ := ih (n / 8) (by omega) hn' x (k := k + 1)
        (by rw [hx, hmod]; exact hlt) (by omega)
      refine ⟨y, d'', ?_⟩
      rw [heq, if_neg (by omega), if_neg (by omega)]
      exact hy

theorem decodeVle_write (h : d.nibbles = Vle.write 8 n ++ rest) (hn : n < 2 ^ 32) :
    ∃ x d', d.decodeVle = .ok (x, d') ∧ x.toNat = n ∧ d'.nibbles = rest := by
  have hlen : (Vle.write 8 n).length ≤ 11 :=
    Vle.length_write_le (by decide) (hn.trans_le (by decide))
  obtain ⟨x, d', hok⟩ := decodeVleLoop_write h 0 (k := 0) (by decide) (by omega)
  obtain ⟨m, hread, hx⟩ := decodeVle_ok hok
  rw [h, Vle.read_write (by decide)] at hread
  cases hread
  exact ⟨x, d', hok, by omega, rfl⟩

theorem decodeDeltas_groups (values : List UInt16)
    (h : d.nibbles = deltaGroups previous.toInt values ++ rest)
    (hlow : 0 ≤ previous.toInt) (hhigh : previous.toInt < 2 ^ 16) :
    ∃ last d', d.decodeDeltas previous values.length = .ok (values, last, d') ∧
      d'.nibbles = rest ∧ last.toInt = lastValue previous.toInt values := by
  induction values generalizing d previous with
  | nil => exact ⟨previous, d, rfl, h, rfl⟩
  | cons value values ih =>
    have hlt := value.toNat_lt
    rw [deltaGroups, List.append_assoc] at h
    have hzigzag : Vle.zigzag (value.toNat - previous.toInt) < 2 * 2 ^ 16 :=
      Vle.zigzag_lt (x := value.toNat - previous.toInt) (k := 2 ^ 16) (by omega) (by omega)
    obtain ⟨code, d₁, hc, hcode, hn⟩ := decodeVle_write h (hzigzag.trans (by decide))
    have hsum : (previous + deltaOf code).toInt = value.toNat := by
      rw [toInt_add_deltaOf code (by omega) hlow hhigh, hcode, Vle.unzigzag_zigzag]
      omega
    have hrange : 0 ≤ previous + deltaOf code ∧ previous + deltaOf code ≤ 65535 := by
      have hmax : (65535 : Int32).toInt = 65535 := by decide
      have hzero : (0 : Int32).toInt = 0 := rfl
      constructor <;> rw [Int32.le_iff_toInt_le] <;> omega
    rw [← hsum] at hn
    obtain ⟨last, d', hd, hrest, hlast⟩ := ih hn (by omega) (by omega)
    refine ⟨last, d', ?_, hrest, ?_⟩
    · have hpixel : (previous + deltaOf code).toUInt32.toUInt16 = value := by
        rw [toUInt16_toInt (by omega) (by omega), hsum]
        exact UInt16.ofNat_toNat
      rw [List.length_cons, decodeDeltas, hc]
      simp only [bind, Except.bind, pure, Except.pure, not_true_eq_false, hrange, and_self, hd,
        hpixel, if_false]
    · rw [hlast, hsum]
      rfl

theorem decodeRuns_groups (previous : Int32) {values : List UInt16}
    (h : d.nibbles = imageGroups previous.toInt values ++ rest) (hlen : values.length < 2 ^ 32)
    (hlow : 0 ≤ previous.toInt) (hhigh : previous.toInt < 2 ^ 16) :
    d.decodeRuns values.length previous = .ok values := by
  induction hn : values.length using Nat.strongRecOn generalizing d previous values rest with
  | ind n ih =>
    rw [decodeRuns]
    split
    · rename_i hzero
      rw [hzero] at hn
      rw [List.length_eq_zero_iff.mp hn]
    · rename_i hpos
      have hne : values ≠ [] := by
        rintro rfl
        exact hpos hn.symm
      obtain ⟨zeros, nonzeros, tail, rfl, hrun, hgroups⟩ := imageGroups_runs hne
      simp only [List.length_append, List.length_replicate] at hn hlen
      rw [hgroups] at h
      simp only [List.append_assoc] at h
      obtain ⟨z, d₁, hz, hzeq, h⟩ := decodeVle_write h (by omega)
      obtain ⟨m, d₂, hm, hmeq, h⟩ := decodeVle_write h (by omega)
      obtain ⟨last, d₃, hd, h, hlast⟩ := decodeDeltas_groups nonzeros h hlow hhigh
      have hrange := lastValue_range nonzeros hlow hhigh
      rw [← hlast] at h hrange
      have htail := ih _ (by omega) _ h (by omega) hrange.1 hrange.2 rfl
      have hrest : n - zeros - nonzeros.length = tail.length := by omega
      have hzle : ¬ zeros > n := by omega
      have hmle : ¬ nonzeros.length > n - zeros := by omega
      have hprogress : ¬ (zeros = 0 ∧ nonzeros.length = 0) := by omega
      simp only [hz, hzeq, hm, hmeq, hzle, hmle, hprogress, hd, hrest, htail, if_false]

end RvlDecoder

-- ---------------------------------------------------------------------------
-- Messages
-- ---------------------------------------------------------------------------

theorem slice_append {data word : Bytes} (front bytes : Bytes) (h : data = front ++ (word ++ bytes))
    (hs : front.length = start) (hw : start + word.length = stop) :
    slice data start stop = .ok word := by
  subst h
  subst hs
  subst hw
  rw [slice_eq (by omega) (by simp only [List.length_append]; omega), List.drop_left,
    Nat.add_sub_cancel_left, List.take_left]

theorem readU32_toLeBytes (word : UInt32) : readU32 (toLeBytes word) = .ok word := by
  have hlt : word.toNat < 256 ^ 4 := word.toNat_lt
  rw [readU32_eq (Encoder.length_toLeBytes word), toLeBytes, LittleEndian.decode_encode hlt,
    UInt32.ofNat_toNat]

theorem parse_message {width height : UInt32} (hw : width ≠ 0) (hh : height ≠ 0)
    (a b : UInt32) (compressed : Bytes) :
    RosRvlMetadata.parse (toLeBytes 0 ++ toLeBytes a ++ toLeBytes b ++ toLeBytes width ++
        toLeBytes height ++ compressed) =
      .ok ⟨width, height, a, b, 20, width.toNat * height.toNat⟩ := by
  generalize hdata : toLeBytes 0 ++ toLeBytes a ++ toLeBytes b ++ toLeBytes width ++
    toLeBytes height ++ compressed = data
  have hlen := Encoder.length_toLeBytes
  have hdatalen : data.length = 20 + compressed.length := by
    rw [← hdata]
    simp only [List.length_append, hlen]
  have hconfig : slice data 0 configHeaderSize = .ok (toLeBytes 0 ++ toLeBytes a ++ toLeBytes b) :=
    slice_append [] (toLeBytes width ++ toLeBytes height ++ compressed)
      (by simp only [← hdata, List.append_assoc, List.nil_append]) rfl
      (by simp only [List.length_append, hlen]; rfl)
  have ha : slice (toLeBytes 0 ++ toLeBytes a ++ toLeBytes b) 4 8 = .ok (toLeBytes a) :=
    slice_append (toLeBytes 0) (toLeBytes b) (List.append_assoc ..) (hlen _) (by rw [hlen])
  have hb : slice (toLeBytes 0 ++ toLeBytes a ++ toLeBytes b) 8 12 = .ok (toLeBytes b) :=
    slice_append (toLeBytes 0 ++ toLeBytes a) []
      (by rw [List.append_nil]) (by simp only [List.length_append, hlen]) (by rw [hlen])
  have hwidth : slice data configHeaderSize (configHeaderSize + 4) = .ok (toLeBytes width) :=
    slice_append (toLeBytes 0 ++ toLeBytes a ++ toLeBytes b) (toLeBytes height ++ compressed)
      (by simp only [← hdata, List.append_assoc])
      (by simp only [List.length_append, hlen]; rfl) (by rw [hlen])
  have hheight : slice data (configHeaderSize + 4) (configHeaderSize + 8) =
      .ok (toLeBytes height) :=
    slice_append (toLeBytes 0 ++ toLeBytes a ++ toLeBytes b ++ toLeBytes width) compressed
      (by simp only [← hdata, List.append_assoc])
      (by simp only [List.length_append, hlen]; rfl) (by rw [hlen])
  have hpixels : width.toNat * height.toNat < 2 ^ 32 * 2 ^ 32 :=
    Nat.mul_lt_mul'' width.toNat_lt height.toNat_lt
  have hlong : ¬ data.length ≤ configHeaderSize := by
    rw [hdatalen, configHeaderSize]
    omega
  have hresolution : ¬ data.length < configHeaderSize + resolutionHeaderSize := by
    rw [hdatalen, configHeaderSize, resolutionHeaderSize]
    omega
  simp only [RosRvlMetadata.parse, if_neg hlong, if_neg hresolution, hconfig, ha, hb, hwidth,
    hheight, readU32_toLeBytes, bind, Except.bind, hw, hh, or_self, if_false]
  rw [if_neg (by omega)]
  rfl

/-- Every image that is encoded comes back from its message. -/
theorem decode_encode_depth (width height depthQuantA depthQuantB : UInt32) (values : List UInt16)
    (hsize : width.toNat * height.toNat = values.length) (hne : values ≠ [])
    (hlen : values.length < 2 ^ 32) :
    ∃ data metadata,
      buildDepthMessage (width, height) values (depthQuantA, depthQuantB) = some data ∧
      RosRvlMetadata.parse data = .ok metadata ∧
      decodeRvlWithoutQuantization data metadata = .ok values := by
  have hpos : values.length ≠ 0 := fun h => hne (List.length_eq_zero_iff.mp h)
  have hw : width ≠ 0 := by
    rintro rfl
    exact hpos (hsize.symm.trans (Nat.zero_mul _))
  have hh : height ≠ 0 := by
    rintro rfl
    exact hpos (hsize.symm.trans (Nat.mul_zero _))
  refine ⟨_, _, if_pos hsize, parse_message hw hh depthQuantA depthQuantB _, ?_⟩
  obtain ⟨padding, hgroups⟩ := encodeRvl_written hlen
  have hruns := RvlDecoder.decodeRuns_groups (d := RvlDecoder.new (encodeRvl values))
    0 hgroups hlen (by decide) (by decide)
  have hheader : (toLeBytes 0 ++ toLeBytes depthQuantA ++ toLeBytes depthQuantB ++
      toLeBytes width ++ toLeBytes height).length = 20 := by
    simp only [List.length_append, Encoder.length_toLeBytes]
  rw [decodeRvlWithoutQuantization, RosRvlMetadata.payload, if_pos, List.drop_left' hheader]
  · simp only [bind, Except.bind, RvlDecoder.decodeInto, hsize]
    exact hruns
  · rw [List.length_append, hheader]
    exact Nat.le_add_right _ _

theorem decode_encode_row :
    ∃ data metadata,
      buildDepthMessage (5, 1) [0, 1200, 1201, 0, 800] (0, 0) = some data ∧
      RosRvlMetadata.parse data = .ok metadata ∧
      decodeRvlWithoutQuantization data metadata = .ok [0, 1200, 1201, 0, 800] :=
  decode_encode_depth 5 1 0 0 [0, 1200, 1201, 0, 800] (by decide) (by decide) (by decide)

end DimosViewer.Rvl
