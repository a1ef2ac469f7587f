import DimosViewer.Format.DurationReading

/-!
# What a formatted duration says

The parts of the text, from the whole seconds and the decimals that are shown.
-/

namespace DimosViewer.Format

open DecimalText (Digits)

namespace DurationFormatOptions

variable {o : DurationFormatOptions}

-- ---------------------------------------------------------------------------
-- Units
-- ---------------------------------------------------------------------------

structure Pushed (unit : Nat) (c : Char) (f g : Front) : Prop where
  text : strip g.front.flatten = strip f.front.flatten ++ unitText c (f.secsRemaining / unit)
  rest : g.secsRemaining = f.secsRemaining % unit
  wrote : g.didWrite = true ↔ f.didWrite = true ∨ f.secsRemaining / unit > 0

theorem pushUnit_pushed {text : Nat → Text} (h : ∀ n, strip (text n) = toText n ++ [c])
    (unit : Nat) (spaces : Bool) (f : Front) : Pushed unit c f (pushUnit unit spaces text f) := by
  have hmod := Nat.mod_add_div f.secsRemaining unit
  have hblank : ∀ text, strip (' ' :: text) = strip text := fun _ => rfl
  rw [pushUnit]
  split
  · rename_i hpos
    refine ⟨?_, ?_, by simp only [hpos, or_true]⟩
    · rw [unitText, if_pos hpos]
      split <;> simp [h, hblank]
    · rw [Nat.mul_comm, Nat.mod_def]
  · rename_i hzero
    have hdiv := Nat.eq_zero_of_not_pos hzero
    refine ⟨?_, ?_, by simp only [hzero, or_false]⟩
    · rw [unitText, if_neg hzero, List.append_nil]
    · rw [hdiv, Nat.mul_zero, Nat.add_zero] at hmod
      exact hmod.symm

theorem strip_single (hc : isBlank c = false) : strip [c] = [c] := by
  rw [strip, List.filter_cons_of_pos (by rw [hc]; rfl), List.filter_nil]

theorem pushDays_pushed (f : Front) : Pushed 86400 'd' f (pushDays f) := by
  refine pushUnit_pushed ?_ secPerDay false f
  intro n
  rw [strip_append, strip_formatUint, strip_single rfl]

theorem pushHours_pushed (f : Front) : Pushed 3600 'h' f (pushHours f) := by
  refine pushUnit_pushed ?_ secPerHour true f
  intro n
  rw [strip_append, strip_toText, strip_single rfl]

theorem pushMinutes_pushed (o : DurationFormatOptions) (f : Front) :
    Pushed 60 'm' f (o.pushMinutes f) := by
  refine pushUnit_pushed ?_ secPerMinute o.spaces f
  intro n
  rw [strip_append, strip_toText, strip_single rfl]

theorem pushed_units (o : DurationFormatOptions) (front : List Text) (seconds : Nat) :
    ∃ f, o.pushMinutes (pushHours (pushDays ⟨front, seconds, false⟩)) = f ∧
      strip f.front.flatten = strip front.flatten ++ (unitText 'd' (seconds / 86400) ++
        (unitText 'h' (seconds % 86400 / 3600) ++ unitText 'm' (seconds % 86400 % 3600 / 60))) ∧
      f.secsRemaining = seconds % 86400 % 3600 % 60 ∧
      (f.didWrite = true ↔ seconds / 86400 > 0 ∨ seconds % 86400 / 3600 > 0 ∨
        seconds % 86400 % 3600 / 60 > 0) := by
  have hd := pushDays_pushed ⟨front, seconds, false⟩
  have hh := pushHours_pushed (pushDays ⟨front, seconds, false⟩)
  have hm := pushMinutes_pushed o (pushHours (pushDays ⟨front, seconds, false⟩))
  refine ⟨_, rfl, ?_, ?_, ?_⟩
  · rw [hm.text, hh.text, hd.text, hh.rest, hd.rest, List.append_assoc, List.append_assoc]
  · rw [hm.rest, hh.rest, hd.rest]
  · rw [hm.wrote, hh.wrote, hd.wrote, hh.rest, hd.rest, or_assoc, or_assoc]
    simp only [Bool.false_eq_true, false_or]

-- ---------------------------------------------------------------------------
-- The whole text
-- ---------------------------------------------------------------------------

def Stage.fraction (st : Stage) : Text := strip st.backRev.reverse.flatten

def readingOf (o : DurationFormatOptions) (negative : Bool) (st : Stage) : Reading :=
  if o.onlySeconds then ⟨negative, 0, 0, 0, st.rest, st.fraction⟩
  else
    { negative
      days := st.rest / 86400
      hours := st.rest % 86400 / 3600
      minutes := st.rest % 86400 % 3600 / 60
      seconds := st.rest % 86400 % 3600 % 60
      fraction := st.fraction }

theorem nanos_readingOf (o : DurationFormatOptions) (negative : Bool) (st : Stage) :
    (o.readingOf negative st).nanos =
      st.rest * 10 ^ 9 +
        DecimalText.value st.fraction * 10 ^ (9 - st.fraction.length) := by
  rw [readingOf]
  split
  · simp only [Reading.nanos, Nat.zero_mul, Nat.zero_add]
  · have hseconds : ((st.rest / 86400 * 24 + st.rest % 86400 / 3600) * 60 +
        st.rest % 86400 % 3600 / 60) * 60 + st.rest % 86400 % 3600 % 60 = st.rest := by
      omega
    rw [Reading.nanos, hseconds]

theorem strip_seconds (seconds : Nat) (backRev : List Text) (hb : backRev ≠ [] ↔
      strip backRev.reverse.flatten ≠ []) :
    strip ((['s'] :: ((if backRev ≠ [] then backRev ++ [['.']] else backRev) ++
        [formatUint seconds])).reverse.flatten) =
      secondsText seconds (strip backRev.reverse.flatten) := by
  have hs : strip ['s'] = ['s'] := rfl
  have hp : ∀ text, strip ('.' :: text) = '.' :: strip text := fun _ => rfl
  rw [secondsText]
  by_cases h : backRev = []
  · subst h
    simp [hs]
  · have hf := hb.mp h
    rw [if_pos h, if_neg hf]
    simp [hs, hp]

theorem read_formatNanos (o : DurationFormatOptions) (ns : Int64)
    (hb : (o.subSeconds ns.toInt.natAbs).backRev ≠ [] ↔
      (o.subSeconds ns.toInt.natAbs).fraction ≠ [])
    (hf : ∀ c ∈ (o.subSeconds ns.toInt.natAbs).fraction, c.isDigit = true) :
    read (o.formatNanos ns) =
      some (o.readingOf (decide (ns < 0)) (o.subSeconds ns.toInt.natAbs)) := by
  generalize hst : o.subSeconds ns.toInt.natAbs = st at hb hf
  have hsign : strip (if ns < 0 then [[MINUS]] else if o.alwaysSign then [['+']] else []).flatten =
      signText (decide (ns < 0)) o.alwaysSign := by
    rw [signText]
    by_cases hneg : ns < 0
    · simp only [hneg, if_true, decide_true]
      rfl
    · simp only [hneg, if_false, decide_false, Bool.false_eq_true]
      split <;> rfl
  have hseconds := fun seconds => strip_seconds seconds st.backRev hb
  by_cases hos : o.onlySeconds = true
  · refine read_parts _ o.alwaysSign true ?_ (by nofun) ?_
    · rw [readingOf, if_pos hos]
      exact hf
    · have hshown := hseconds st.rest
      simp only [formatNanos, hst, if_pos hos, readingOf, List.flatten_append, strip_append, hsign,
        hshown]
      rfl
  · generalize hfront :
      (if ns < 0 then [[MINUS]] else if o.alwaysSign then [['+']] else []) = front at hsign
    obtain ⟨f, hpushed, htext, hrest, hwrote⟩ := pushed_units o front st.rest
    have hparts : ∀ shown, partsText shown (o.readingOf (decide (ns < 0)) st) =
        unitText 'd' (st.rest / 86400) ++ (unitText 'h' (st.rest % 86400 / 3600) ++
          (unitText 'm' (st.rest % 86400 % 3600 / 60) ++
            secondsPart shown (st.rest % 86400 % 3600 % 60) st.fraction)) := by
      intro shown
      rw [readingOf, if_neg hos]
      rfl
    generalize hbr : (if st.backRev ≠ [] then st.backRev ++ [['.']] else st.backRev) = backRev
    rw [hbr] at hseconds
    have hback : backRev = [] ↔ st.fraction = [] := by
      have hnil := not_congr hb
      rw [not_not, not_not] at hnil
      rw [← hnil, ← hbr]
      split
      · rename_i h
        simp [h]
      · exact Iff.rfl
    by_cases hshow : f.secsRemaining > 0 ∨ backRev ≠ [] ∨ f.didWrite = false
    · have hformat : o.formatNanos ns =
          ((f.front ++ (if o.spaces ∧ f.didWrite then [[' ']] else [])) ++
            (['s'] :: (backRev ++ [formatUint f.secsRemaining])).reverse).flatten := by
        simp only [formatNanos, hst, hfront, hpushed, hbr, if_neg hos]
        rw [if_pos hshow]
      have hblank : strip (if o.spaces ∧ f.didWrite then [[' ']] else []).flatten = [] := by
        split <;> rfl
      refine read_parts _ o.alwaysSign true ?_ (by nofun) ?_
      · rw [readingOf, if_neg hos]
        exact hf
      · rw [hformat, List.flatten_append, List.flatten_append, strip_append, strip_append, hblank,
          hseconds, htext, hsign, hrest, hparts, readingOf, if_neg hos]
        simp only [List.append_nil, List.append_assoc]
        rfl
    · have hformat : o.formatNanos ns = (f.front ++ backRev.reverse).flatten := by
        simp only [formatNanos, hst, hfront, hpushed, hbr, if_neg hos]
        rw [if_neg hshow]
      rw [not_or, not_or, Decidable.not_not, hrest, Bool.not_eq_false, hwrote] at hshow
      obtain ⟨hzero, hnil, hunits⟩ := hshow
      refine read_parts _ o.alwaysSign false ?_ ?_ ?_
      · rw [readingOf, if_neg hos]
        exact hf
      · intro _
        rw [readingOf, if_neg hos]
        exact ⟨Nat.eq_zero_of_not_pos hzero, hback.mp hnil, hunits⟩
      · rw [hformat, hnil, List.reverse_nil, List.append_nil, htext, hsign, hparts, readingOf,
          if_neg hos]
        simp only [secondsPart, Bool.false_eq_true, if_false, List.append_nil]

end DurationFormatOptions
end DimosViewer.Format
