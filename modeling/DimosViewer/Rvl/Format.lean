import DimosViewer.IntegerEncodings

/-!
# What a depth payload denotes

The payload is a list of groups of four bits; three of them are a digit and the top one says
that the integer goes on. Integers are natural numbers of any size here.
-/

namespace DimosViewer.Rvl

open LittleEndian (Bytes)

def nibblesOf : (count : Nat) → (word : Nat) → List Nat
  | 0, _ => []
  | count + 1, word => word / 2 ^ 28 :: nibblesOf count (word * 16 % 2 ^ 32)

def payloadNibbles : Bytes → List Nat
  | b₀ :: b₁ :: b₂ :: b₃ :: bytes =>
    nibblesOf 8 (LittleEndian.decode [b₀, b₁, b₂, b₃]) ++ payloadNibbles bytes
  | _ => []

theorem payloadNibbles_nil {bytes : Bytes} (h : bytes.length < 4) : payloadNibbles bytes = [] := by
  rw [payloadNibbles.eq_def]
  split
  · simp only [List.length_cons] at h
    omega
  · rfl

theorem payloadNibbles_word {word : Bytes} (h : word.length = 4) (bytes : Bytes) :
    payloadNibbles (word ++ bytes) =
      nibblesOf 8 (LittleEndian.decode word) ++ payloadNibbles bytes := by
  match word, h with
  | [b₀, b₁, b₂, b₃], _ => rfl

/-- The pixels of a run of `count` differences, each relative to the value before it. -/
def denoteDeltas (previous : Int) : (count : Nat) → List Nat → Option (List UInt16 × Int × List Nat)
  | 0, groups => some ([], previous, groups)
  | count + 1, groups =>
    match Vle.read 8 groups with
    | none => none
    | some (code, groups) =>
      let delta := Vle.unzigzag code
      let value := previous + delta
      if (-2 ^ 31 ≤ delta ∧ delta < 2 ^ 31) ∧ 0 ≤ value ∧ value < 2 ^ 16 then
        match denoteDeltas value count groups with
        | none => none
        | some (pixels, last, groups) => some (value.toNat.toUInt16 :: pixels, last, groups)
      else none

/-- The image of `remaining` pixels: runs of zeros and runs of differences in turn. -/
def denote (remaining : Nat) (previous : Int) (groups : List Nat) : Option (List UInt16) :=
  if remaining = 0 then some []
  else
    match Vle.read 8 groups with
    | none => none
    | some (zeros, groups) =>
      match Vle.read 8 groups with
      | none => none
      | some (nonzeros, groups) =>
        if zeros < 2 ^ 32 ∧ nonzeros < 2 ^ 32 ∧ 0 < zeros + nonzeros ∧
            zeros + nonzeros ≤ remaining then
          match denoteDeltas previous nonzeros groups with
          | none => none
          | some (pixels, previous, groups) =>
            (denote (remaining - zeros - nonzeros) previous groups).map
              (List.replicate zeros 0 ++ pixels ++ ·)
        else none
termination_by remaining
decreasing_by omega

-- ---------------------------------------------------------------------------
-- Sizes of the integers
-- ---------------------------------------------------------------------------

def readCodes : (count : Nat) → List Nat → Option (List Nat × List Nat)
  | 0, groups => some ([], groups)
  | count + 1, groups =>
    match Vle.read 8 groups with
    | none => none
    | some (code, groups) =>
      match readCodes count groups with
      | none => none
      | some (codes, groups) => some (code :: codes, groups)

/-- No length of a run takes more than 32 bits, and no code of a difference more than 31. -/
def integersFit (remaining : Nat) (groups : List Nat) : Bool :=
  if remaining = 0 then true
  else
    match Vle.read 8 groups with
    | none => true
    | some (zeros, groups) =>
      match Vle.read 8 groups with
      | none => true
      | some (nonzeros, groups) =>
        decide (zeros < 2 ^ 32 ∧ nonzeros < 2 ^ 32) &&
          if 0 < zeros + nonzeros ∧ zeros + nonzeros ≤ remaining then
            match readCodes nonzeros groups with
            | none => true
            | some (codes, groups) =>
              codes.all (· < 2 ^ 31) && integersFit (remaining - zeros - nonzeros) groups
          else true
termination_by remaining
decreasing_by omega

theorem denoteDeltas_succ
    (h : denoteDeltas previous (count + 1) groups = some (pixels, last, rest)) :
    ∃ code groups' pixels', Vle.read 8 groups = some (code, groups') ∧
      0 ≤ previous + Vle.unzigzag code ∧ previous + Vle.unzigzag code < 2 ^ 16 ∧
      denoteDeltas (previous + Vle.unzigzag code) count groups' = some (pixels', last, rest) := by
  rw [denoteDeltas] at h
  cases hr : Vle.read 8 groups with
  | none =>
    rw [hr] at h
    cases h
  | some r =>
    obtain ⟨code, groups'⟩ := r
    simp only [hr] at h
    split at h
    · rename_i hfit
      cases hd : denoteDeltas (previous + Vle.unzigzag code) count groups' with
      | none =>
        rw [hd] at h
        cases h
      | some d =>
        obtain ⟨pixels', last', rest'⟩ := d
        rw [hd] at h
        cases h
        exact ⟨code, groups', pixels', rfl, hfit.2.1, hfit.2.2, hd⟩
    · cases h

/-- Two values of 16 bits are no further apart than 17 bits can tell. -/
theorem readCodes_of_denoteDeltas
    (h : denoteDeltas previous count groups = some (pixels, last, rest))
    (hlow : 0 ≤ previous) (hhigh : previous < 2 ^ 16) :
    0 ≤ last ∧ last < 2 ^ 16 ∧
      ∃ codes, readCodes count groups = some (codes, rest) ∧ ∀ code ∈ codes, code < 2 ^ 31 := by
  induction count generalizing previous groups pixels with
  | zero =>
    cases h
    refine ⟨hlow, hhigh, [], rfl, ?_⟩
    intro code hcode
    cases hcode
  | succ count ih =>
    obtain ⟨code, groups', pixels', hr, hvalue, hvalue', hd⟩ := denoteDeltas_succ h
    obtain ⟨hlast, hlast', codes, hcodes, hall⟩ := ih hd hvalue hvalue'
    refine ⟨hlast, hlast', code :: codes, by simp only [readCodes, hr, hcodes], ?_⟩
    intro c hc
    obtain rfl | hc := List.mem_cons.mp hc
    · rw [Vle.unzigzag_eq] at hvalue hvalue'
      split at hvalue <;> omega
    · exact hall c hc

theorem integersFit_of_denote (h : denote remaining previous groups = some out)
    (hlow : 0 ≤ previous) (hhigh : previous < 2 ^ 16) : integersFit remaining groups = true := by
  induction remaining using Nat.strongRecOn generalizing previous groups out with
  | ind remaining ih =>
    rw [denote] at h
    rw [integersFit]
    split at h
    · rename_i hzero
      rw [if_pos hzero]
    · rename_i hzero
      rw [if_neg hzero]
      cases hz : Vle.read 8 groups with
      | none => rfl
      | some z =>
        obtain ⟨zeros, groups⟩ := z
        simp only [hz] at h ⊢
        cases hn : Vle.read 8 groups with
        | none => rfl
        | some n =>
          obtain ⟨nonzeros, groups⟩ := n
          simp only [hn] at h ⊢
          split at h
          · rename_i hfit
            obtain ⟨hzeros, hnonzeros, hrun⟩ := hfit
            split at h
            · cases h
            · rename_i pixels last rest hd
              obtain ⟨hlast, hlast', codes, hcodes, hall⟩ :=
                readCodes_of_denoteDeltas hd hlow hhigh
              obtain ⟨out', hout, -⟩ := Option.map_eq_some_iff.mp h
              have hrest := ih _ (by omega) hout hlast hlast'
              have hcodes' : codes.all (· < 2 ^ 31) = true := by
                simpa only [List.all_eq_true, decide_eq_true_eq] using hall
              rw [decide_eq_true ⟨hzeros, hnonzeros⟩, if_pos hrun, hcodes]
              simp only [hcodes', hrest, Bool.and_self]
          · cases h

end DimosViewer.Rvl
