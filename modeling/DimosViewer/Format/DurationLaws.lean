import DimosViewer.Format.DurationText

/-!
# Rounding of durations

Rounding to the closest number goes from place to place, and each place rounds what the place
behind it has already rounded.
-/

namespace DimosViewer.Format

open DecimalText (Digits)

namespace DurationFormatOptions

theorem Built.decimals (h : Built o) :
    o.minDecimals ∈ supported ∧ o.maxDecimals ∈ supported ∧ o.minDecimals ≤ o.maxDecimals := by
  induction h with
  | default => decide
  | withSpaces _ _ ih => exact ih
  | withOnlySeconds _ _ ih => exact ih
  | withAlwaysSign _ _ ih => exact ih
  | roundTowardsZero _ ih => exact ih
  | roundToClosest _ ih => exact ih
  | withMinDecimals hd _ ih =>
    obtain ⟨-, hmax, -⟩ := ih
    refine ⟨hd, ?_, Nat.le_max_right ..⟩
    rw [DurationFormatOptions.withMinDecimals, Nat.max_def]
    split
    · exact hd
    · exact hmax
  | withMaxDecimals hd _ ih =>
    obtain ⟨hmin, -, -⟩ := ih
    refine ⟨?_, hd, Nat.min_le_right ..⟩
    rw [DurationFormatOptions.withMaxDecimals, Nat.min_def]
    split
    · exact hmin
    · exact hd

variable {o : DurationFormatOptions}

-- ---------------------------------------------------------------------------
-- Blocks of decimals
-- ---------------------------------------------------------------------------

/-- With the digits in front of them, the `count` decimals of a stage read as `y`. -/
structure Stage.Reads (st : Stage) (count y : Nat) : Prop where
  digits : Digits st.fraction count (y % 10 ^ count)
  rest : st.rest = y / 10 ^ count
  some_iff : st.backRev ≠ [] ↔ count ≠ 0

def Shown (o : DurationFormatOptions) (place width : Nat) (st : Stage) : Prop :=
  place ≤ st.minDecimals ∨ (place ≤ o.maxDecimals ∧ st.rest % 10 ^ width ≠ 0)

/-- A block that is shown changes nothing of what is read. -/
theorem block_shown (place width : Nat) (separator : List Text) (hw : 0 < width)
    (hs : separator = [[THIN_SPACE]] ∨ separator = []) {st : Stage} (h : st.Reads count y)
    (hc : Shown o place width st) :
    (o.block place width separator st).Reads (width + count) y ∧
      (o.block place width separator st).minDecimals = place := by
  have hpadded := DecimalText.digits_padded hw (Nat.mod_lt st.rest (Nat.pow_pos (by decide)))
  have hsep : strip separator.reverse.flatten = [] := by
    obtain rfl | rfl := hs <;> rfl
  have hblock : o.block place width separator st =
      ⟨place, st.backRev ++ [DecimalText.padded width (st.rest % 10 ^ width)] ++ separator,
        st.rest / 10 ^ width⟩ := if_pos hc
  have hfraction : (o.block place width separator st).fraction =
      DecimalText.padded width (st.rest % 10 ^ width) ++ st.fraction := by
    rw [hblock]
    simp only [Stage.fraction, List.reverse_append, List.flatten_append, strip_append, hsep,
      List.nil_append, List.reverse_singleton, List.flatten_singleton]
    rw [strip_digits hpadded.digit]
  have hvalue : st.rest % 10 ^ width * 10 ^ count + y % 10 ^ count = y % 10 ^ (width + count) := by
    rw [h.rest, Nat.add_comm width, pow_add, Nat.mod_mul]
    ring
  have hsome : (o.block place width separator st).backRev ≠ [] := by
    rw [hblock]
    simp
  refine ⟨⟨?_, ?_, iff_of_true hsome (by omega)⟩, ?_⟩
  · rw [hfraction, ← hvalue]
    exact hpadded.append h.digits
  · rw [hblock, h.rest, Nat.div_div_eq_div_mul, ← pow_add, Nat.add_comm count]
  · rw [hblock]

theorem us_shown {st : Stage} (h : st.Reads count y) (hc : Shown o 9 3 st) :
    (o.us st).Reads (3 + count) y ∧ (o.us st).minDecimals = 9 :=
  block_shown 9 3 [[THIN_SPACE]] (by decide) (.inl rfl) h hc

theorem ms_shown {st : Stage} (h : st.Reads count y) (hc : Shown o 6 3 st) :
    (o.ms st).Reads (3 + count) y ∧ (o.ms st).minDecimals = 6 :=
  block_shown 6 3 [[THIN_SPACE]] (by decide) (.inl rfl) h hc

theorem ds_shown {st : Stage} (h : st.Reads count y) (hc : Shown o 3 2 st) :
    (o.ds st).Reads (2 + count) y ∧ (o.ds st).minDecimals = 3 :=
  block_shown 3 2 [] (by decide) (.inr rfl) h hc

theorem s_shown {st : Stage} (h : st.Reads count y) (hc : Shown o 1 1 st) :
    (o.s st).Reads (1 + count) y ∧ (o.s st).minDecimals = 1 :=
  block_shown 1 1 [] (by decide) (.inr rfl) h hc

/-- Before the first block that is shown, a block rounds what is read. -/
theorem block_rounded (place width : Nat) (separator : List Text) {st : Stage} (h : st.Reads 0 y)
    (hc : ¬ Shown o place width st) :
    (o.block place width separator st).Reads 0 (o.round y (10 ^ width)) ∧
      (o.block place width separator st).minDecimals = st.minDecimals := by
  have hrest := h.rest
  rw [pow_zero, Nat.div_one] at hrest
  have hblock : o.block place width separator st =
      { st with rest := o.round st.rest (10 ^ width) } := if_neg hc
  rw [hblock, ← hrest]
  refine ⟨⟨?_, ?_, h.some_iff⟩, rfl⟩
  · have hdigits := h.digits
    rw [pow_zero, Nat.mod_one] at hdigits ⊢
    exact hdigits
  · rw [pow_zero, Nat.div_one]

theorem us_rounded {st : Stage} (h : st.Reads 0 y) (hc : ¬ Shown o 9 3 st) :
    (o.us st).Reads 0 (o.round y 1000) ∧ (o.us st).minDecimals = st.minDecimals :=
  block_rounded 9 3 [[THIN_SPACE]] h hc

theorem ms_rounded {st : Stage} (h : st.Reads 0 y) (hc : ¬ Shown o 6 3 st) :
    (o.ms st).Reads 0 (o.round y 1000) ∧ (o.ms st).minDecimals = st.minDecimals :=
  block_rounded 6 3 [[THIN_SPACE]] h hc

theorem ds_rounded {st : Stage} (h : st.Reads 0 y) (hc : ¬ Shown o 3 2 st) :
    (o.ds st).Reads 0 (o.round y 100) ∧ (o.ds st).minDecimals = st.minDecimals :=
  block_rounded 3 2 [] h hc

theorem s_rounded {st : Stage} (h : st.Reads 0 y) (hc : ¬ Shown o 1 1 st) :
    (o.s st).Reads 0 (o.round y 10) ∧ (o.s st).minDecimals = st.minDecimals :=
  block_rounded 1 1 [] h hc

theorem shown_iff {st : Stage} (h : st.Reads 0 y) (hm : st.minDecimals = o.minDecimals) :
    Shown o place width st ↔
      place ≤ o.minDecimals ∨ (place ≤ o.maxDecimals ∧ y % 10 ^ width ≠ 0) := by
  rw [Shown, hm, h.rest, pow_zero, Nat.div_one]

-- ---------------------------------------------------------------------------
-- Rounding
-- ---------------------------------------------------------------------------

/-- The values that a number of nanoseconds is rounded up to although the value below is closer:
a place behind the last one that is shown has been rounded up before. -/
def RoundedTwice (o : DurationFormatOptions) (n : Nat) : Prop :=
  o.rounding = .closest ∧
    ((o.maxDecimals = 3 ∧ (499500 ≤ n % 10 ^ 6 ∧ n % 10 ^ 6 < 500000) ∧
        (o.minDecimals = 3 ∨ (n / 10 ^ 6 + 1) % 100 ≠ 0)) ∨
      (o.maxDecimals = 1 ∧ (49499500 ≤ n % 10 ^ 8 ∧ n % 10 ^ 8 < 50000000) ∧
        (o.minDecimals = 1 ∨ (n / 10 ^ 8 + 1) % 10 ≠ 0)) ∨
      (o.maxDecimals = 0 ∧ 449499500 ≤ n % 10 ^ 9 ∧ n % 10 ^ 9 < 500000000))

instance : Decidable (RoundedTwice o n) := inferInstanceAs (Decidable (_ ∧ _))

def Rounds (o : DurationFormatOptions) (n unit v : Nat) : Prop :=
  match o.rounding with
  | .closest => 2 * v ≤ 2 * n + unit ∧ 2 * n ≤ 2 * v + unit
  | .towardsZero => v = n / unit * unit

/-- To round twice is to round once with a larger summand. -/
theorem round_again (hu : 0 < u) : ((n + a) / u + b) / v = (n + (a + b * u)) / (u * v) := by
  rw [← Nat.add_mul_div_right _ _ hu, Nat.div_div_eq_div_mul, Nat.add_assoc]

theorem closest_us (hr : o.rounding = .closest) : o.round n 1000 = (n + 500) / 1000 := by
  rw [round, hr]

theorem closest_ms (hr : o.rounding = .closest) :
    o.round (o.round n 1000) 1000 = (n + 500500) / 1000000 := by
  rw [closest_us hr, round, hr]
  exact round_again (by decide)

theorem closest_ds (hr : o.rounding = .closest) :
    o.round (o.round (o.round n 1000) 1000) 100 = (n + 50500500) / 100000000 := by
  rw [closest_ms hr, round, hr]
  exact round_again (by decide)

theorem closest_s (hr : o.rounding = .closest) :
    o.round (o.round (o.round (o.round n 1000) 1000) 100) 10 = (n + 550500500) / 1000000000 := by
  rw [closest_ds hr, round, hr]
  exact round_again (by decide)

theorem rounds_closest (hr : o.rounding = .closest) :
    Rounds o n unit v ↔ 2 * v ≤ 2 * n + unit ∧ 2 * n ≤ 2 * v + unit := by
  rw [Rounds, hr]

theorem rounds_towardsZero (hr : o.rounding = .towardsZero) :
    Rounds o n unit v ↔ v = n / unit * unit := by
  rw [Rounds, hr]

theorem supported_gaps (h : d ∈ supported) :
    d ≤ 9 ∧ (¬ 9 ≤ d → d ≤ 6) ∧ (¬ 6 ≤ d → d ≤ 3) ∧ (¬ 3 ≤ d → d ≤ 1) ∧ (¬ 1 ≤ d → d ≤ 0) := by
  simp only [supported, List.mem_cons, List.not_mem_nil, or_false] at h
  omega

theorem not_roundedTwice (h : 6 ≤ o.maxDecimals) : ¬ RoundedTwice o n := by
  rintro ⟨-, ⟨hm, -⟩ | ⟨hm, -⟩ | ⟨hm, -⟩⟩
  · rw [hm] at h
    contradiction
  · rw [hm] at h
    contradiction
  · rw [hm] at h
    contradiction

theorem not_roundedTwice_towardsZero (hr : o.rounding = .towardsZero) : ¬ RoundedTwice o n := by
  rintro ⟨hc, -⟩
  cases hr.symm.trans hc

theorem truncates (hr : o.rounding = .towardsZero) (hv : v = n / unit) :
    Rounds o n unit (v * unit) ↔ ¬ RoundedTwice o n := by
  rw [iff_true_right (not_roundedTwice_towardsZero hr), rounds_towardsZero hr, hv]

theorem roundedTwice_three (hr : o.rounding = .closest) (h : o.maxDecimals = 3) :
    RoundedTwice o n ↔ (499500 ≤ n % 1000000 ∧ n % 1000000 < 500000) ∧
      (o.minDecimals = 3 ∨ (n / 1000000 + 1) % 100 ≠ 0) := by
  simp [RoundedTwice, hr, h]

theorem roundedTwice_one (hr : o.rounding = .closest) (h : o.maxDecimals = 1) :
    RoundedTwice o n ↔ (49499500 ≤ n % 100000000 ∧ n % 100000000 < 50000000) ∧
      (o.minDecimals = 1 ∨ (n / 100000000 + 1) % 10 ≠ 0) := by
  simp [RoundedTwice, hr, h]

theorem roundedTwice_zero (hr : o.rounding = .closest) (h : o.maxDecimals = 0) :
    RoundedTwice o n ↔ 449499500 ≤ n % 1000000000 ∧ n % 1000000000 < 500000000 := by
  simp [RoundedTwice, hr, h]

theorem rounds_ms (hr : o.rounding = .closest) (hmax : ¬ 6 ≤ o.maxDecimals → o.maxDecimals = 3)
    (c₆ : ¬ (6 ≤ o.maxDecimals ∧ o.round n 1000 % 10 ^ 3 ≠ 0))
    (c₃ : 3 ≤ o.minDecimals ∨ (3 ≤ o.maxDecimals ∧ o.round (o.round n 1000) 1000 % 10 ^ 2 ≠ 0))
    (hle : o.minDecimals ≤ 3) :
    Rounds o n (10 ^ 6) (o.round (o.round n 1000) 1000 * 10 ^ 6) ↔ ¬ RoundedTwice o n := by
  rw [closest_ms hr] at c₃ ⊢
  rw [closest_us hr] at c₆
  rw [rounds_closest hr]
  by_cases h₆ : 6 ≤ o.maxDecimals
  · rw [iff_true_right (not_roundedTwice h₆)]
    have hzero := not_and_not_right.mp c₆ h₆
    clear c₃ c₆
    omega
  · rw [roundedTwice_three hr (hmax h₆)]
    have hshown : o.minDecimals = 3 ∨ (n + 500500) / 1000000 % 100 ≠ 0 :=
      c₃.imp (le_antisymm hle) (·.2)
    clear c₃ c₆ hmax
    omega

theorem rounds_ds (hr : o.rounding = .closest) (hmax : o.maxDecimals ∈ supported)
    (c₃ : ¬ (3 ≤ o.maxDecimals ∧ o.round (o.round n 1000) 1000 % 10 ^ 2 ≠ 0))
    (c₁ : 1 ≤ o.minDecimals ∨
      (1 ≤ o.maxDecimals ∧ o.round (o.round (o.round n 1000) 1000) 100 % 10 ^ 1 ≠ 0))
    (hle : o.minDecimals ≤ 1) (hlast : 1 ≤ o.maxDecimals) :
    Rounds o n (10 ^ 8) (o.round (o.round (o.round n 1000) 1000) 100 * 10 ^ 8) ↔
      ¬ RoundedTwice o n := by
  rw [closest_ds hr] at c₁ ⊢
  rw [closest_ms hr] at c₃
  rw [rounds_closest hr]
  obtain ⟨-, -, u₃, u₁, -⟩ := supported_gaps hmax
  by_cases h₃ : 3 ≤ o.maxDecimals
  · have hthree := not_and_not_right.mp c₃ h₃
    have hnot : ¬ RoundedTwice o n := by
      by_cases h₆ : 6 ≤ o.maxDecimals
      · exact not_roundedTwice h₆
      · rw [roundedTwice_three hr (le_antisymm (u₃ h₆) h₃)]
        clear c₁ c₃
        omega
    rw [iff_true_right hnot]
    clear c₁ c₃ hnot
    omega
  · rw [roundedTwice_one hr (le_antisymm (u₁ h₃) hlast)]
    have hshown : o.minDecimals = 1 ∨ (n + 50500500) / 100000000 % 10 ≠ 0 :=
      c₁.imp (le_antisymm hle) (·.2)
    clear c₁ c₃ u₃ u₁ hmax
    omega

theorem rounds_s (hr : o.rounding = .closest) (hmax : o.maxDecimals ∈ supported)
    (c₃ : ¬ (3 ≤ o.maxDecimals ∧ o.round (o.round n 1000) 1000 % 10 ^ 2 ≠ 0))
    (c₁ : ¬ (1 ≤ o.maxDecimals ∧ o.round (o.round (o.round n 1000) 1000) 100 % 10 ^ 1 ≠ 0))
    (hle : o.minDecimals ≤ 0) :
    Rounds o n (10 ^ 9) (o.round (o.round (o.round (o.round n 1000) 1000) 100) 10 * 10 ^ 9) ↔
      ¬ RoundedTwice o n := by
  rw [closest_s hr]
  rw [closest_ds hr] at c₁
  rw [closest_ms hr] at c₃
  rw [rounds_closest hr]
  obtain ⟨-, -, u₃, u₁, u₀⟩ := supported_gaps hmax
  by_cases h₁ : 1 ≤ o.maxDecimals
  · have hone := not_and_not_right.mp c₁ h₁
    have hnot : ¬ RoundedTwice o n := by
      by_cases h₆ : 6 ≤ o.maxDecimals
      · exact not_roundedTwice h₆
      by_cases h₃ : 3 ≤ o.maxDecimals
      · rw [roundedTwice_three hr (le_antisymm (u₃ h₆) h₃)]
        have hthree := not_and_not_right.mp c₃ h₃
        clear c₁ c₃ u₃ u₁ u₀ hmax
        omega
      · rw [roundedTwice_one hr (le_antisymm (u₁ h₃) h₁)]
        clear c₁ c₃ u₃ u₁ u₀ hmax
        omega
    rw [iff_true_right hnot]
    clear c₁ c₃ hnot u₃ u₁ u₀ hmax
    omega
  · rw [roundedTwice_zero hr (Nat.le_zero.mp (u₀ h₁))]
    clear c₁ c₃ u₃ u₁ u₀ hmax
    omega

theorem subSeconds_reads (hmin : o.minDecimals ∈ supported) (hmax : o.maxDecimals ∈ supported)
    (hle : o.minDecimals ≤ o.maxDecimals) (ns : Nat) :
    ∃ count y, (o.subSeconds ns).Reads count y ∧ o.minDecimals ≤ count ∧
      count ≤ o.maxDecimals ∧ count ≤ 9 ∧
      (Rounds o ns (10 ^ (9 - count)) (y * 10 ^ (9 - count)) ↔ ¬ RoundedTwice o ns) := by
  have hstart : Stage.Reads ⟨o.minDecimals, [], ns⟩ 0 ns := by
    refine ⟨?_, (Nat.div_one ns).symm, by simp⟩
    rw [pow_zero, Nat.mod_one]
    exact Digits.nil
  obtain ⟨l₉, l₆, l₃, l₁, l₀⟩ := supported_gaps hmin
  obtain ⟨-, -, u₃, -, -⟩ := supported_gaps hmax
  by_cases c₉ : Shown o 9 3 ⟨o.minDecimals, [], ns⟩
  · obtain ⟨h₉, m₉⟩ := us_shown hstart c₉
    obtain ⟨h₆, m₆⟩ := ms_shown (o := o) h₉ (.inl (m₉ ▸ by decide))
    obtain ⟨h₃, m₃⟩ := ds_shown (o := o) h₆ (.inl (m₆ ▸ by decide))
    obtain ⟨h₁, -⟩ := s_shown (o := o) h₃ (.inl (m₃ ▸ by decide))
    rw [shown_iff hstart rfl] at c₉
    have hlast := c₉.elim (·.trans hle) (·.1)
    refine ⟨9, ns, h₁, l₉, hlast, le_rfl, ?_⟩
    rw [iff_true_right (not_roundedTwice (le_trans (by decide) hlast))]
    cases hr : o.rounding with
    | closest =>
      rw [rounds_closest hr]
      exact ⟨by simp, by simp⟩
    | towardsZero => simp [rounds_towardsZero hr]
  · obtain ⟨h₉, m₉⟩ := us_rounded hstart c₉
    rw [shown_iff hstart rfl, not_or] at c₉
    by_cases c₆ : Shown o 6 3 (o.us ⟨o.minDecimals, [], ns⟩)
    · obtain ⟨h₆, m₆⟩ := ms_shown h₉ c₆
      obtain ⟨h₃, m₃⟩ := ds_shown (o := o) h₆ (.inl (m₆ ▸ by decide))
      obtain ⟨h₁, -⟩ := s_shown (o := o) h₃ (.inl (m₃ ▸ by decide))
      rw [shown_iff h₉ m₉] at c₆
      have hlast := c₆.elim (·.trans hle) (·.1)
      refine ⟨6, _, h₁, l₆ c₉.1, hlast, by decide, ?_⟩
      rw [iff_true_right (not_roundedTwice hlast)]
      cases hr : o.rounding with
      | closest =>
        rw [closest_us hr, rounds_closest hr]
        clear c₉ c₆ l₉ l₆ l₃ l₁ l₀ u₃
        omega
      | towardsZero => simp only [rounds_towardsZero hr, round, hr, Nat.reduceSub, Nat.reducePow]
    · obtain ⟨h₆, m₆⟩ := ms_rounded h₉ c₆
      rw [shown_iff h₉ m₉, not_or] at c₆
      by_cases c₃ : Shown o 3 2 (o.ms (o.us ⟨o.minDecimals, [], ns⟩))
      · obtain ⟨h₃, m₃⟩ := ds_shown h₆ c₃
        obtain ⟨h₁, -⟩ := s_shown (o := o) h₃ (.inl (m₃ ▸ by decide))
        rw [shown_iff h₆ (m₆.trans m₉)] at c₃
        have hlast := c₃.elim (·.trans hle) (·.1)
        refine ⟨3, _, h₁, l₃ c₆.1, hlast, by decide, ?_⟩
        cases hr : o.rounding with
        | closest => exact rounds_ms hr (fun h => le_antisymm (u₃ h) hlast) c₆.2 c₃ (l₃ c₆.1)
        | towardsZero =>
          apply truncates hr
          simp only [round, hr, Nat.div_div_eq_div_mul, Nat.reduceMul, Nat.reduceSub, Nat.reducePow]
      · obtain ⟨h₃, m₃⟩ := ds_rounded h₆ c₃
        rw [shown_iff h₆ (m₆.trans m₉), not_or] at c₃
        by_cases c₁ : Shown o 1 1 (o.ds (o.ms (o.us ⟨o.minDecimals, [], ns⟩)))
        · obtain ⟨h₁, -⟩ := s_shown h₃ c₁
          rw [shown_iff h₃ (m₃.trans (m₆.trans m₉))] at c₁
          have hlast := c₁.elim (·.trans hle) (·.1)
          refine ⟨1, _, h₁, l₁ c₃.1, hlast, by decide, ?_⟩
          cases hr : o.rounding with
          | closest => exact rounds_ds hr hmax c₃.2 c₁ (l₁ c₃.1) hlast
          | towardsZero =>
            apply truncates hr
            simp only [round, hr, Nat.div_div_eq_div_mul, Nat.reduceMul, Nat.reduceSub,
              Nat.reducePow]
        · obtain ⟨h₁, -⟩ := s_rounded h₃ c₁
          rw [shown_iff h₃ (m₃.trans (m₆.trans m₉)), not_or] at c₁
          refine ⟨0, _, h₁, l₀ c₁.1, Nat.zero_le _, by decide, ?_⟩
          cases hr : o.rounding with
          | closest => exact rounds_s hr hmax c₃.2 c₁.2 (l₀ c₁.1)
          | towardsZero =>
            apply truncates hr
            simp only [round, hr, Nat.div_div_eq_div_mul, Nat.reduceMul, Nat.reduceSub,
              Nat.reducePow]

-- ---------------------------------------------------------------------------
-- The formatted text
-- ---------------------------------------------------------------------------

/-- The reading of a formatted duration is the input, rounded at the last decimal. -/
structure Correct (o : DurationFormatOptions) (ns : Int64) (r : Reading) : Prop where
  sign : r.negative = decide (ns < 0)
  atLeast : o.minDecimals ≤ r.fraction.length
  atMost : r.fraction.length ≤ o.maxDecimals
  minutes : r.minutes < 60
  seconds : o.onlySeconds = false → r.seconds < 60
  rounds : Rounds o ns.toInt.natAbs (10 ^ (9 - r.fraction.length)) r.nanos

theorem formatNanos_correct_iff (h : Built o) (ns : Int64) :
    (∃ r, read (o.formatNanos ns) = some r ∧ Correct o ns r) ↔
      ¬ RoundedTwice o ns.toInt.natAbs := by
  obtain ⟨hmin, hmax, hle⟩ := h.decimals
  obtain ⟨count, y, hreads, hlow, hhigh, hnine, hrounds⟩ :=
    subSeconds_reads hmin hmax hle ns.toInt.natAbs
  generalize hst : o.subSeconds ns.toInt.natAbs = st at hreads
  have hlen := hreads.digits.length
  have hsome : st.backRev ≠ [] ↔ st.fraction ≠ [] := by
    rw [hreads.some_iff, ← hlen, ne_eq, List.length_eq_zero_iff]
  have hread := read_formatNanos o ns (by rw [hst]; exact hsome)
    (by rw [hst]; exact hreads.digits.digit)
  rw [hst] at hread
  have hnanos : (o.readingOf (decide (ns < 0)) st).nanos = y * 10 ^ (9 - count) := by
    have hpow : 10 ^ count * 10 ^ (9 - count) = 10 ^ 9 := by
      rw [← pow_add, Nat.add_sub_cancel' hnine]
    rw [nanos_readingOf, hreads.digits.value, hlen, hreads.rest, ← hpow, ← Nat.mul_assoc,
      ← Nat.add_mul, Nat.mul_comm (y / 10 ^ count), Nat.div_add_mod]
  have hfraction : (o.readingOf (decide (ns < 0)) st).fraction = st.fraction := by
    rw [readingOf]
    split <;> rfl
  constructor
  · rintro ⟨r, hr, hc⟩
    rw [hread] at hr
    cases hr
    have hrounded := hc.rounds
    rw [hfraction, hlen, hnanos] at hrounded
    exact hrounds.mp hrounded
  · intro hc
    refine ⟨_, hread, ?_, ?_, ?_, ?_, ?_, ?_⟩
    · rw [readingOf]
      split <;> rfl
    · rw [hfraction, hlen]
      exact hlow
    · rw [hfraction, hlen]
      exact hhigh
    · rw [readingOf]
      split
      · exact Nat.succ_pos 59
      · simp only []
        omega
    · intro hos
      rw [readingOf, if_neg (by rw [hos]; decide)]
      simp only []
      omega
    · rw [hfraction, hlen, hnanos]
      exact hrounds.mpr hc

def sixDecimals : DurationFormatOptions := default.withMaxDecimals 6

theorem formatNanos_correct_iff_six :
    (∃ r, read (sixDecimals.formatNanos (-9223372036854775808)) = some r ∧
      Correct sixDecimals (-9223372036854775808) r) ↔
      ¬ RoundedTwice sixDecimals 9223372036854775808 :=
  formatNanos_correct_iff (.withMaxDecimals (by decide) .default) (-9223372036854775808)

/-- 450 milliseconds are half a second, once they are rounded to tenths. -/
theorem formatNanos_rounds_up :
    Built (default.withMaxDecimals 0) ∧
      (default.withMaxDecimals 0).formatNanos 450000000 = ['1', 's'] ∧
      ¬ ∃ r, read ((default.withMaxDecimals 0).formatNanos 450000000) = some r ∧
        Correct (default.withMaxDecimals 0) 450000000 r := by
  refine ⟨.withMaxDecimals (by decide) .default, by decide +kernel, ?_⟩
  have hread : read ((default.withMaxDecimals 0).formatNanos 450000000) =
      some ⟨false, 0, 0, 0, 1, []⟩ := by decide +kernel
  rintro ⟨r, hr, hc⟩
  rw [hread] at hr
  cases hr
  obtain ⟨hclose, -⟩ := hc.rounds
  revert hclose
  decide +kernel

end DurationFormatOptions
end DimosViewer.Format
