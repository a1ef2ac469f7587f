import DimosViewer.Rvl.Bits
import DimosViewer.Rvl.Format

/-!
# What the decoder reads

A decoder stands for the groups that it has not taken yet. Each of its operations takes from
the front of that list.
-/

namespace DimosViewer.Rvl

open LittleEndian (Bytes)

theorem readU32_eq {word : Bytes} (h : word.length = 4) :
    readU32 word = .ok (UInt32.ofNat (LittleEndian.decode word)) := by
  rw [readU32, if_pos (by omega), List.take_of_length_le (by omega)]

theorem toNat_decoded_word {word : Bytes} (h : word.length = 4) :
    (UInt32.ofNat (LittleEndian.decode word)).toNat = LittleEndian.decode word := by
  have hlt := LittleEndian.decode_lt word
  rw [h] at hlt
  rw [UInt32.toNat_ofNat']
  omega

theorem slice_eq (h : start ≤ stop) (h' : stop ≤ data.length) :
    slice data start stop = .ok ((data.drop start).take (stop - start)) := by
  rw [slice, if_pos ⟨h, h'⟩, List.drop_take]

namespace RvlDecoder

def nibbles (d : RvlDecoder) : List Nat :=
  nibblesOf d.nibblesRemaining d.word.toNat ++ payloadNibbles (d.input.drop d.offset)

variable {d d' : RvlDecoder} {value : UInt32}

theorem refill_nil (h : d.nibblesRemaining = 0) (hn : d.nibbles = []) :
    d.refill = err .unexpectedEof := by
  have hshort : d.offset + 4 > d.input.length := by
    by_contra hlen
    have hrest : (d.input.drop d.offset).length ≥ 4 := by
      rw [List.length_drop]
      omega
    have hsplit := List.take_append_drop 4 (d.input.drop d.offset)
    rw [nibbles, h, ← hsplit, payloadNibbles_word (by rw [List.length_take]; omega)] at hn
    cases hn
  rw [refill, if_pos hshort]

theorem refill_cons (h : d.nibblesRemaining = 0) (hn : d.nibbles = g :: gs) :
    ∃ d', d.refill = .ok d' ∧ d'.nibblesRemaining ≠ 0 ∧ d'.nibbles = d.nibbles := by
  have hlen : d.offset + 4 ≤ d.input.length := by
    by_contra hlen
    rw [nibbles, h, payloadNibbles_nil (by rw [List.length_drop]; omega)] at hn
    cases hn
  have hword : ((d.input.drop d.offset).take 4).length = 4 := by
    rw [List.length_take, List.length_drop]
    omega
  have hsplit := List.take_append_drop 4 (d.input.drop d.offset)
  have hpayload : payloadNibbles (d.input.drop d.offset) =
      nibblesOf 8 (LittleEndian.decode ((d.input.drop d.offset).take 4)) ++
        payloadNibbles (d.input.drop (d.offset + 4)) := by
    rw [← List.drop_drop, ← payloadNibbles_word hword, hsplit]
  have hslice : slice d.input d.offset (d.offset + 4) = .ok ((d.input.drop d.offset).take 4) := by
    rw [slice_eq (by omega) hlen, Nat.add_sub_cancel_left]
  refine ⟨{ d with
    word := UInt32.ofNat (LittleEndian.decode ((d.input.drop d.offset).take 4))
    offset := d.offset + 4
    nibblesRemaining := 8 }, ?_, by simp, ?_⟩
  · rw [refill, if_neg (by omega), hslice]
    simp only [bind, Except.bind, readU32_eq hword, pure, Except.pure]
  · simp only [nibbles, h, toNat_decoded_word hword]
    exact hpayload.symm

theorem takeNibble_eq (h : d.nibblesRemaining ≠ 0) :
    ∃ nibble d', d.takeNibble = .ok (nibble, d') ∧ nibble.toNat < 16 ∧
      d.nibbles = nibble.toNat :: d'.nibbles := by
  obtain ⟨count, hcount⟩ := Nat.exists_eq_succ_of_ne_zero h
  have hlt := d.word.toNat_lt
  refine ⟨_, _, if_neg h, ?_, ?_⟩
  · rw [toNat_topNibble]
    omega
  · simp only [nibbles, hcount, Nat.succ_eq_add_one, nibblesOf, Nat.add_sub_cancel,
      toNat_topNibble, toNat_shiftLeft_four, List.cons_append]

theorem nextNibble_nil (h : d.nibbles = []) : d.nextNibble = err .unexpectedEof := by
  by_cases hr : d.nibblesRemaining = 0
  · rw [nextNibble, if_pos hr, refill_nil hr h]
    rfl
  · obtain ⟨nibble, d', -, -, hn⟩ := takeNibble_eq hr
    rw [h] at hn
    cases hn

theorem nextNibble_cons (h : d.nibbles = g :: gs) :
    ∃ nibble d', d.nextNibble = .ok (nibble, d') ∧ nibble.toNat = g ∧ g < 16 ∧
      d'.nibbles = gs := by
  have htake : ∀ d' : RvlDecoder, d'.nibblesRemaining ≠ 0 → d'.nibbles = g :: gs →
      ∃ nibble d'', d'.takeNibble = .ok (nibble, d'') ∧ nibble.toNat = g ∧ g < 16 ∧
        d''.nibbles = gs := by
    intro d' hr hn
    obtain ⟨nibble, d'', htake, hlt, hcons⟩ := takeNibble_eq hr
    rw [hn, List.cons_eq_cons] at hcons
    obtain ⟨rfl, rfl⟩ := hcons
    exact ⟨nibble, d'', htake, rfl, hlt, rfl⟩
  by_cases hr : d.nibblesRemaining = 0
  · obtain ⟨d', hrefill, hr', hn⟩ := refill_cons hr h
    rw [nextNibble, if_pos hr, hrefill]
    exact htake d' hr' (hn.trans h)
  · rw [nextNibble, if_neg hr]
    exact htake d hr h

-- ---------------------------------------------------------------------------
-- Integers
-- ---------------------------------------------------------------------------

theorem decodeVleLoop_nil (h : d.nibbles = []) :
    d.decodeVleLoop value shift = err .unexpectedEof := by
  rw [decodeVleLoop, nextNibble_nil h]
  rfl

theorem decodeVleLoop_cons (hs : shift < 32) (hv : value.toNat < 2 ^ shift)
    (h : d.nibbles = g :: gs) :
    ∃ (value' : UInt32) (d' : RvlDecoder), d'.nibbles = gs ∧ g < 16 ∧
      value'.toNat = (value.toNat + g % 8 * 2 ^ shift) % 2 ^ 32 ∧
      d.decodeVleLoop value shift =
        if g < 8 then .ok (value', d')
        else if 32 ≤ shift + 3 then err .valueOverflow
        else d'.decodeVleLoop value' (shift + 3) := by
  obtain ⟨nibble, d', hnext, rfl, hlt, hn⟩ := nextNibble_cons h
  refine ⟨value ||| ((nibble &&& 0x7).toUInt32 <<< UInt32.ofNat shift), d', hn, hlt, ?_, ?_⟩
  · rw [toNat_or_shiftLeft hs hv, toNat_digit]
  · rw [decodeVleLoop, hnext]
    simp only [if_neg (Nat.not_le.mpr hs), last_iff hlt]

/-- The loop keeps all bits that it has, as long as another group may follow. -/
theorem loop_value_lt (g : Nat) (hs : shift + 3 < 32) {v : Nat} (hv : v < 2 ^ shift) :
    (v + g % 8 * 2 ^ shift) % 2 ^ 32 = v + g % 8 * 2 ^ shift ∧
      v + g % 8 * 2 ^ shift < 2 ^ (shift + 3) := by
  have hdigit : g % 8 * 2 ^ shift ≤ 7 * 2 ^ shift :=
    Nat.mul_le_mul_right _ (by omega)
  have hpow : 2 ^ (shift + 3) = 8 * 2 ^ shift := by ring
  have hbound : 2 ^ (shift + 3) ≤ 2 ^ 32 := Nat.pow_le_pow_right (by decide) (by omega)
  refine ⟨Nat.mod_eq_of_lt ?_, ?_⟩ <;> omega

/-- An integer that the loop returns is what the groups stand for, up to bits beyond the word. -/
theorem decodeVleLoop_ok (hs : shift < 32) (hv : value.toNat < 2 ^ shift)
    (h : d.decodeVleLoop value shift = .ok (x, d')) :
    ∃ n, Vle.read 8 d.nibbles = some (n, d'.nibbles) ∧
      x.toNat = (value.toNat + n * 2 ^ shift) % 2 ^ 32 := by
  generalize hgs : d.nibbles = gs
  induction gs generalizing d value shift with
  | nil =>
    rw [decodeVleLoop_nil hgs] at h
    cases h
  | cons g gs ih =>
    obtain ⟨value', d₁, hn, hlt, hvalue, heq⟩ := decodeVleLoop_cons hs hv hgs
    rw [heq] at h
    split at h
    · rename_i hlast
      cases h
      refine ⟨g, by rw [Vle.read_last hlast, hn], ?_⟩
      rw [hvalue, Nat.mod_eq_of_lt hlast]
    · rename_i hmore
      split at h
      · cases h
      · rename_i hshift
        obtain ⟨hmod, hlt'⟩ := loop_value_lt g (by omega) hv
        rw [hmod] at hvalue
        obtain ⟨n, hread, hx⟩ := ih (by omega) (by rw [hvalue]; exact hlt') h hn
        refine ⟨g - 8 + 8 * n, by rw [Vle.read_more (by omega), hread]; rfl, ?_⟩
        have hdigit : g % 8 = g - 8 := by omega
        have hsum : value.toNat + (g - 8) * 2 ^ shift + n * 2 ^ (shift + 3) =
            value.toNat + (g - 8 + 8 * n) * 2 ^ shift := by ring
        rw [hx, hvalue, hdigit, hsum]

theorem decodeVle_ok (h : d.decodeVle = .ok (x, d')) :
    ∃ n, Vle.read 8 d.nibbles = some (n, d'.nibbles) ∧ x.toNat = n % 2 ^ 32 := by
  obtain ⟨n, hread, hx⟩ := decodeVleLoop_ok (by decide) (by decide) h
  refine ⟨n, hread, ?_⟩
  rw [hx, UInt32.toNat_zero, Nat.zero_add, pow_zero, Nat.mul_one]

theorem decodeVleLoop_ne_panic (hs : shift < 32) (hv : value.toNat < 2 ^ shift) :
    d.decodeVleLoop value shift ≠ .error .panic := by
  generalize hgs : d.nibbles = gs
  induction gs generalizing d value shift with
  | nil =>
    rw [decodeVleLoop_nil hgs]
    nofun
  | cons g gs ih =>
    obtain ⟨value', d₁, hn, -, hvalue, heq⟩ := decodeVleLoop_cons hs hv hgs
    rw [heq]
    split
    · nofun
    · split
      · nofun
      · obtain ⟨hmod, hlt⟩ := loop_value_lt g (by omega) hv
        rw [hmod] at hvalue
        exact ih (by omega) (by rw [hvalue]; exact hlt) hn

theorem decodeVle_ne_panic : d.decodeVle ≠ .error .panic :=
  decodeVleLoop_ne_panic (by decide) (by decide)

end RvlDecoder
end DimosViewer.Rvl
