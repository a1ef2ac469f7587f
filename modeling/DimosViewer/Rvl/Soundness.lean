import DimosViewer.Rvl.DecoderLaws

/-!
# What the decoder accepts

An image that the decoder returns is the one that the payload denotes, provided that the
integers of the payload fit. The decoder does not check that.
-/

namespace DimosViewer.Rvl

open LittleEndian (Bytes)

namespace RvlDecoder

variable {d d' : RvlDecoder} {previous last : Int32}

theorem toInt_range (h : 0 ≤ value ∧ value ≤ (65535 : Int32)) :
    0 ≤ value.toInt ∧ value.toInt < 2 ^ 16 := by
  obtain ⟨hlow, hhigh⟩ := h
  rw [Int32.le_iff_toInt_le] at hlow hhigh
  have hzero : (0 : Int32).toInt = 0 := rfl
  have hmax : (65535 : Int32).toInt = 65535 := by decide
  omega

theorem toUInt16_toInt {value : Int32} (hlow : 0 ≤ value.toInt) (hhigh : value.toInt < 2 ^ 16) :
    value.toUInt32.toUInt16 = value.toInt.toNat.toUInt16 := by
  have hnat := toNat_toUInt32 hlow
  rw [← UInt16.toNat_inj, UInt32.toNat_toUInt16, Nat.toUInt16_eq, UInt16.toNat_ofNat']
  omega

theorem decodeDeltas_succ (h : d.decodeDeltas previous (count + 1) = .ok (pixels, last, d')) :
    ∃ code d₁ pixels', d.decodeVle = .ok (code, d₁) ∧
      (0 ≤ previous + deltaOf code ∧ previous + deltaOf code ≤ 65535) ∧
      d₁.decodeDeltas (previous + deltaOf code) count = .ok (pixels', last, d') ∧
      pixels = (previous + deltaOf code).toUInt32.toUInt16 :: pixels' := by
  rw [decodeDeltas] at h
  cases hc : d.decodeVle with
  | error e =>
    rw [hc] at h
    cases h
  | ok r =>
    obtain ⟨code, d₁⟩ := r
    simp only [hc, bind, Except.bind] at h
    split at h
    · cases h
    · rename_i hrange
      cases hd : d₁.decodeDeltas (previous + deltaOf code) count with
      | error e =>
        rw [hd] at h
        cases h
      | ok r =>
        obtain ⟨pixels', last', d₂⟩ := r
        rw [hd] at h
        cases h
        exact ⟨code, d₁, pixels', rfl, Decidable.not_not.mp hrange, hd, rfl⟩

/-- The sum of a value and a difference of 31 bits does not wrap around. -/
theorem toInt_add_deltaOf (code : UInt32) (h : code.toNat < 2 ^ 31) (hlow : 0 ≤ previous.toInt)
    (hhigh : previous.toInt < 2 ^ 16) :
    (previous + deltaOf code).toInt = previous.toInt + Vle.unzigzag code.toNat := by
  have hdelta := Vle.unzigzag_eq code.toNat
  rw [Int32.toInt_add, toInt_deltaOf h]
  split at hdelta <;> exact Int.bmod_eq_of_le (by omega) (by omega)

theorem decodeDeltas_ok (h : d.decodeDeltas previous count = .ok (pixels, last, d'))
    (hlow : 0 ≤ previous.toInt) (hhigh : previous.toInt < 2 ^ 16) :
    ∃ codes, readCodes count d.nibbles = some (codes, d'.nibbles) ∧
      ((∀ code ∈ codes, code < 2 ^ 31) →
        denoteDeltas previous.toInt count d.nibbles = some (pixels, last.toInt, d'.nibbles) ∧
        0 ≤ last.toInt ∧ last.toInt < 2 ^ 16) := by
  induction count generalizing d previous pixels with
  | zero =>
    cases h
    exact ⟨[], rfl, fun _ => ⟨rfl, hlow, hhigh⟩⟩
  | succ count ih =>
    obtain ⟨code, d₁, pixels', hc, hrange, hd, rfl⟩ := decodeDeltas_succ h
    obtain ⟨n, hread, hx⟩ := decodeVle_ok hc
    obtain ⟨hvalue, hvalue'⟩ := toInt_range hrange
    obtain ⟨codes, hcodes, hdenote⟩ := ih hd hvalue hvalue'
    refine ⟨n :: codes, by simp only [readCodes, hread, hcodes], ?_⟩
    intro hall
    obtain ⟨hd', hlast⟩ := hdenote fun c hc => hall c (List.mem_cons_of_mem _ hc)
    have hn := hall n List.mem_cons_self
    have hcode : code.toNat = n := by omega
    have hsum := toInt_add_deltaOf code (by omega) hlow hhigh
    rw [hcode] at hsum
    have hdelta := Vle.unzigzag_eq n
    refine ⟨?_, hlast⟩
    rw [denoteDeltas, hread]
    simp only [← hsum, hd']
    rw [if_pos ⟨by split at hdelta <;> omega, hvalue, hvalue'⟩, toUInt16_toInt hvalue hvalue']

theorem decodeRuns_ok (hr : remaining ≠ 0) (h : d.decodeRuns remaining previous = .ok out) :
    ∃ zeros nonzeros d₁ d₂ pixels last d₃ rest, d.decodeVle = .ok (zeros, d₁) ∧
      d₁.decodeVle = .ok (nonzeros, d₂) ∧
      0 < zeros.toNat + nonzeros.toNat ∧ zeros.toNat + nonzeros.toNat ≤ remaining ∧
      d₂.decodeDeltas previous nonzeros.toNat = .ok (pixels, last, d₃) ∧
      d₃.decodeRuns (remaining - zeros.toNat - nonzeros.toNat) last = .ok rest ∧
      out = List.replicate zeros.toNat 0 ++ pixels ++ rest := by
  rw [decodeRuns, if_neg hr] at h
  split at h
  · cases h
  · rename_i zeros d₁ hz
    split at h
    · cases h
    · rename_i hzle
      split at h
      · cases h
      · rename_i nonzeros d₂ hn
        split at h
        · cases h
        · rename_i hnle
          split at h
          · cases h
          · rename_i hpos
            split at h
            · cases h
            · rename_i pixels last d₃ hd
              split at h
              · cases h
              · rename_i rest hrest
                cases h
                exact ⟨zeros, nonzeros, d₁, d₂, pixels, last, d₃, rest, hz, hn, by omega,
                  by omega, hd, hrest, rfl⟩

theorem denote_of_decodeRuns (h : d.decodeRuns remaining previous = .ok out)
    (hfit : integersFit remaining d.nibbles = true) (hlow : 0 ≤ previous.toInt)
    (hhigh : previous.toInt < 2 ^ 16) :
    denote remaining previous.toInt d.nibbles = some out := by
  induction remaining using Nat.strongRecOn generalizing d previous out with
  | ind remaining ih =>
    rw [denote]
    split
    · rename_i hr
      rw [decodeRuns, if_pos hr] at h
      cases h
      rfl
    · rename_i hr
      obtain ⟨zeros, nonzeros, d₁, d₂, pixels, last, d₃, rest, hz, hn, hpos, hle, hd, hrest, rfl⟩ :=
        decodeRuns_ok hr h
      obtain ⟨z, hzread, hzeq⟩ := decodeVle_ok hz
      obtain ⟨n, hnread, hneq⟩ := decodeVle_ok hn
      obtain ⟨codes, hcodes, hdenote⟩ := decodeDeltas_ok hd hlow hhigh
      rw [integersFit, if_neg hr] at hfit
      simp only [hzread, hnread, Bool.and_eq_true, decide_eq_true_eq] at hfit
      obtain ⟨⟨hzlt, hnlt⟩, hfit⟩ := hfit
      -- run lengths of 32 bits are read as they are
      rw [Nat.mod_eq_of_lt hzlt] at hzeq
      rw [Nat.mod_eq_of_lt hnlt] at hneq
      subst hzeq
      subst hneq
      simp only [if_pos (And.intro hpos hle), hcodes, Bool.and_eq_true, List.all_eq_true,
        decide_eq_true_eq] at hfit
      obtain ⟨hall, hfit⟩ := hfit
      obtain ⟨hd', hlast, hlast'⟩ := hdenote hall
      have htail := ih _ (by omega) hrest hfit hlast hlast'
      simp only [hzread, hnread, hd', htail]
      rw [if_pos ⟨hzlt, hnlt, hpos, hle⟩]
      rfl

-- ---------------------------------------------------------------------------
-- No panic
-- ---------------------------------------------------------------------------

theorem decodeDeltas_ne_panic : d.decodeDeltas previous count ≠ .error .panic := by
  induction count generalizing d previous with
  | zero => nofun
  | succ count ih =>
    rw [decodeDeltas]
    cases hc : d.decodeVle with
    | error e =>
      intro h
      cases h
      exact decodeVle_ne_panic hc
    | ok r =>
      obtain ⟨code, d₁⟩ := r
      simp only [bind, Except.bind]
      split
      · nofun
      · cases hd : d₁.decodeDeltas (previous + deltaOf code) count with
        | error e =>
          intro h
          cases h
          exact ih hd
        | ok r => nofun

theorem decodeRuns_ne_panic : d.decodeRuns remaining previous ≠ .error .panic := by
  induction remaining using Nat.strongRecOn generalizing d previous with
  | ind remaining ih =>
    rw [decodeRuns]
    intro h
    split at h
    · cases h
    · split at h
      · rename_i hz
        cases h
        exact decodeVle_ne_panic hz
      · split at h
        · cases h
        · split at h
          · rename_i hn
            cases h
            exact decodeVle_ne_panic hn
          · split at h
            · cases h
            · split at h
              · cases h
              · split at h
                · rename_i hd
                  cases h
                  exact decodeDeltas_ne_panic hd
                · split at h
                  · rename_i hrest
                    cases h
                    exact ih _ (by omega) hrest
                  · cases h

end RvlDecoder

/-- Decoding never panics, and what it returns is what the payload denotes exactly when the
integers of the payload fit. -/
theorem decodeInto_denotes_iff (input : Bytes) (len : Nat) :
    (RvlDecoder.new input).decodeInto len ≠ .error .panic ∧
      ∀ out, (RvlDecoder.new input).decodeInto len = .ok out →
        (denote len 0 (payloadNibbles input) = some out ↔
          integersFit len (payloadNibbles input) = true) := by
  refine ⟨RvlDecoder.decodeRuns_ne_panic, ?_⟩
  intro out h
  constructor
  · intro hdenote
    exact integersFit_of_denote hdenote (by decide) (by decide)
  · intro hfit
    exact RvlDecoder.denote_of_decodeRuns h hfit (by decide) (by decide)

def twoPixels : Bytes := [0x20, 0xD4, 0x8C, 0x02]

theorem decodeInto_denotes_iff_twoPixels :
    (RvlDecoder.new twoPixels).decodeInto 2 = .ok [1200, 1201] ∧
      denote 2 0 (payloadNibbles twoPixels) = some [1200, 1201] :=
  have h : (RvlDecoder.new twoPixels).decodeInto 2 = .ok [1200, 1201] := by decide +kernel
  ⟨h, ((decodeInto_denotes_iff twoPixels 2).2 _ h).mpr (by decide +kernel)⟩

/-- A run of `2 ^ 32` zeros, a value, and no zeros at all once the top bit is lost. -/
def longRun : Bytes := [0x88, 0x88, 0x88, 0x88, 0xD4, 0x8C, 0x41, 0x88]

/-- A difference of `2 ^ 31 - 1` after a pixel of 1, which is read as `-1`. -/
def largeDifference : Bytes := [0xFF, 0xFF, 0x2E, 0x02, 0x00, 0xF3, 0xFF, 0xFF]

theorem too_large_accepted :
    (RvlDecoder.new longRun).decodeInto 1 = .ok [1200] ∧
      denote 1 0 (payloadNibbles longRun) = none ∧
      (RvlDecoder.new largeDifference).decodeInto 2 = .ok [1, 0] ∧
      denote 2 0 (payloadNibbles largeDifference) = none := by
  decide +kernel

end DimosViewer.Rvl
