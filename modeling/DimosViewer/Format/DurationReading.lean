import DimosViewer.Format.Duration

/-!
# Reading durations

What a formatted duration says: a sign, days, hours, minutes, seconds and decimals. Blanks
have no meaning.
-/

namespace DimosViewer.Format

open DecimalText (part OtherUnit leadingDigits NoDigitFirst)

structure Reading where
  negative : Bool
  days : Nat
  hours : Nat
  minutes : Nat
  seconds : Nat
  fraction : Text
deriving DecidableEq

def Reading.nanos (r : Reading) : Nat :=
  (((r.days * 24 + r.hours) * 60 + r.minutes) * 60 + r.seconds) * 10 ^ 9 +
    DecimalText.value r.fraction * 10 ^ (9 - r.fraction.length)

def isBlank (c : Char) : Bool := c = ' ' ∨ c = THIN_SPACE

def strip (text : Text) : Text := text.filter fun c => !isBlank c

def readSign : Text → Bool × Text
  | [] => (false, [])
  | c :: text =>
    if c = MINUS then (true, text) else if c = '+' then (false, text) else (false, c :: text)

def readSeconds (text : Text) : Option (Nat × Text) :=
  if text = [] then some (0, [])
  else
    match leadingDigits text with
    | (d :: digits, c :: rest) =>
      if c = 's' ∧ rest = [] then some (DecimalText.value (d :: digits), [])
      else if c = '.' ∧ (leadingDigits rest).1 ≠ [] ∧ (leadingDigits rest).2 = ['s'] then
        some (DecimalText.value (d :: digits), (leadingDigits rest).1)
      else none
    | _ => none

def read (text : Text) : Option Reading :=
  let (negative, text) := readSign (strip text)
  if text = [] then none
  else
    let (days, text) := part 'd' text
    let (hours, text) := part 'h' text
    let (minutes, text) := part 'm' text
    (readSeconds text).map fun (seconds, fraction) =>
      { negative, days, hours, minutes, seconds, fraction }

-- ---------------------------------------------------------------------------
-- Blanks
-- ---------------------------------------------------------------------------

@[simp] theorem strip_append (a b : Text) : strip (a ++ b) = strip a ++ strip b :=
  List.filter_append ..

@[simp] theorem strip_nil : strip [] = [] := rfl

theorem strip_digits (h : ∀ c ∈ text, Char.isDigit c = true) : strip text = text := by
  refine List.filter_eq_self.mpr ?_
  intro c hc
  have hdigit := h c hc
  rw [Bool.not_eq_true', isBlank, decide_eq_false_iff_not]
  rintro (rfl | rfl) <;> contradiction

@[simp] theorem strip_toText (n : Nat) : strip (toText n) = toText n :=
  strip_digits fun _ => DecimalText.isDigit_toDigits

theorem strip_separator (result : Text) :
    strip (if result = [] then [] else result ++ [THIN_SPACE]) = strip result := by
  split
  · rename_i h
    rw [h]
  · rw [strip_append]
    exact List.append_nil _

theorem strip_pushGroups (result chars : Text) :
    strip (pushGroups result chars) = strip result ++ strip chars := by
  induction result, chars using pushGroups.induct with
  | case1 result => rw [pushGroups, strip_nil, List.append_nil]
  | case2 result a b c chars ih =>
    have hsplit : a :: b :: c :: chars = [a, b, c] ++ chars := rfl
    rw [pushGroups, ih, strip_append, strip_separator, hsplit, strip_append, List.append_assoc]
  | case3 result chars h h' =>
    rw [pushGroups.eq_3 result chars h h', strip_append, strip_separator]

@[simp] theorem strip_formatUint (n : Nat) : strip (formatUint n) = toText n := by
  have hrev : ∀ text : Text, strip text.reverse = (strip text).reverse :=
    fun text => List.filter_reverse ..
  rw [formatUint, addThousandsSeparators, hrev, strip_pushGroups, strip_nil, List.nil_append, hrev,
    List.reverse_reverse, strip_toText]

-- ---------------------------------------------------------------------------
-- Parts
-- ---------------------------------------------------------------------------

def unitText (unit : Char) (n : Nat) : Text := if n > 0 then toText n ++ [unit] else []

def secondsText (seconds : Nat) (fraction : Text) : Text :=
  toText seconds ++ (if fraction = [] then [] else '.' :: fraction) ++ ['s']

theorem part_unitText (hu : Char.isDigit unit = false) (h : OtherUnit unit rest) (n : Nat) :
    part unit (unitText unit n ++ rest) = (n, rest) := by
  rw [unitText]
  split
  · rw [List.append_assoc]
    exact DecimalText.part_unit n hu rest
  · rename_i hn
    rw [List.nil_append, DecimalText.part_other h]
    have hzero : n = 0 := by omega
    rw [hzero]

theorem otherUnit_unitText (hu : Char.isDigit unit = false) (hne : unit ≠ other)
    (h : OtherUnit other rest) (n : Nat) : OtherUnit other (unitText unit n ++ rest) := by
  rw [unitText]
  split
  · right
    exact ⟨n, unit, rest, by rw [List.append_assoc]; rfl, hu, hne⟩
  · exact h

theorem otherUnit_secondsText (seconds : Nat) (fraction : Text) (hs : 's' ≠ other)
    (hp : '.' ≠ other) : OtherUnit other (secondsText seconds fraction) := by
  right
  rw [secondsText]
  split
  · exact ⟨seconds, 's', [], by rw [List.append_nil]; rfl, rfl, hs⟩
  · exact ⟨seconds, '.', fraction ++ ['s'], by rw [List.append_assoc]; rfl, rfl, hp⟩

theorem readSeconds_secondsText (seconds : Nat)
    (hf : ∀ c ∈ fraction, Char.isDigit c = true) :
    readSeconds (secondsText seconds fraction) = some (seconds, fraction) := by
  have hunit : NoDigitFirst ['s'] := by
    rintro c ⟨⟩
    rfl
  have hpoint : NoDigitFirst ('.' :: (fraction ++ ['s'])) := by
    rintro c ⟨⟩
    rfl
  have hdigits := DecimalText.value_toDigits seconds
  have hne : secondsText seconds fraction ≠ [] := by simp [secondsText]
  rw [readSeconds, if_neg hne, secondsText, toText]
  cases hd : Nat.toDigits 10 seconds with
  | nil => exact absurd hd Nat.toDigits_ne_nil
  | cons d digits =>
    rw [← hd]
    by_cases hempty : fraction = []
    · subst hempty
      rw [if_pos rfl, List.append_nil, DecimalText.leadingDigits_toDigits seconds hunit, hd]
      simp only []
      rw [if_pos ⟨trivial, trivial⟩, ← hd, hdigits]
    · have htail := DecimalText.leadingDigits_append hf hunit
      rw [if_neg hempty, List.append_assoc, List.cons_append,
        DecimalText.leadingDigits_toDigits seconds hpoint, hd]
      simp only [htail]
      rw [if_neg (by rintro ⟨h, -⟩; contradiction), if_pos ⟨trivial, hempty, trivial⟩, ← hd, hdigits]

/-- The seconds part of a text may be missing. -/
def secondsPart (shown : Bool) (seconds : Nat) (fraction : Text) : Text :=
  if shown then secondsText seconds fraction else []

def signText (negative plus : Bool) : Text :=
  if negative then [MINUS] else if plus then ['+'] else []

def partsText (shown : Bool) (r : Reading) : Text :=
  unitText 'd' r.days ++ (unitText 'h' r.hours ++ (unitText 'm' r.minutes ++
    secondsPart shown r.seconds r.fraction))

def DigitFirst (text : Text) : Prop := ∃ c rest, text = c :: rest ∧ c.isDigit = true

theorem digitFirst_toText (n : Nat) (rest : Text) : DigitFirst (toText n ++ rest) := by
  cases hd : toText n with
  | nil => exact absurd hd Nat.toDigits_ne_nil
  | cons d digits =>
    refine ⟨d, digits ++ rest, rfl, DecimalText.isDigit_toDigits (n := n) ?_⟩
    rw [toText] at hd
    rw [hd]
    exact List.mem_cons_self

theorem digitFirst_unitText (h : n > 0 ∨ DigitFirst rest) :
    DigitFirst (unitText unit n ++ rest) := by
  rw [unitText]
  split
  · rw [List.append_assoc]
    exact digitFirst_toText n _
  · rename_i hn
    exact h.resolve_left hn

theorem digitFirst_secondsText (seconds : Nat) (fraction : Text) :
    DigitFirst (secondsText seconds fraction) := by
  rw [secondsText, List.append_assoc]
  exact digitFirst_toText seconds _

theorem readSign_signText (negative plus : Bool) (h : DigitFirst body) :
    readSign (signText negative plus ++ body) = (negative, body) := by
  obtain ⟨c, rest, rfl, hc⟩ := h
  have hminus : c ≠ MINUS := by
    rintro rfl
    contradiction
  have hplus : c ≠ '+' := by
    rintro rfl
    contradiction
  cases negative with
  | true => rfl
  | false =>
    cases plus with
    | true => rfl
    | false =>
      have hsign : readSign (c :: rest) = (false, c :: rest) := by
        rw [readSign, if_neg hminus, if_neg hplus]
      exact hsign

theorem read_parts (r : Reading) (plus shown : Bool)
    (hf : ∀ c ∈ r.fraction, Char.isDigit c = true)
    (hs : shown = false → r.seconds = 0 ∧ r.fraction = [] ∧
      (r.days > 0 ∨ r.hours > 0 ∨ r.minutes > 0))
    (h : strip text = signText r.negative plus ++ partsText shown r) :
    read text = some r := by
  have hfirst : DigitFirst (partsText shown r) := by
    cases shown with
    | true =>
      have hseconds := digitFirst_secondsText r.seconds r.fraction
      exact digitFirst_unitText <| .inr <| digitFirst_unitText <| .inr <|
        digitFirst_unitText <| .inr hseconds
    | false =>
      obtain ⟨-, -, hd | hh | hm⟩ := hs rfl
      · exact digitFirst_unitText (.inl hd)
      · exact digitFirst_unitText <| .inr <| digitFirst_unitText (.inl hh)
      · exact digitFirst_unitText <| .inr <| digitFirst_unitText <| .inr <|
          digitFirst_unitText (.inl hm)
  have hne : partsText shown r ≠ [] := by
    obtain ⟨c, rest, heq, -⟩ := hfirst
    rw [heq]
    exact List.cons_ne_nil c rest
  have hother : ∀ u : Char, 's' ≠ u → '.' ≠ u →
      OtherUnit u (secondsPart shown r.seconds r.fraction) := by
    intro u hu hp
    cases shown with
    | true => exact otherUnit_secondsText r.seconds r.fraction hu hp
    | false => exact .inl rfl
  have hminutes : ∀ u : Char, 'm' ≠ u → 's' ≠ u → '.' ≠ u →
      OtherUnit u (unitText 'm' r.minutes ++ secondsPart shown r.seconds r.fraction) :=
    fun u hm hu hp => otherUnit_unitText rfl hm (hother u hu hp) r.minutes
  have hhours : OtherUnit 'd' (unitText 'h' r.hours ++ (unitText 'm' r.minutes ++
      secondsPart shown r.seconds r.fraction)) :=
    otherUnit_unitText rfl (by decide) (hminutes 'd' (by decide) (by decide) (by decide)) r.hours
  have hseconds : readSeconds (secondsPart shown r.seconds r.fraction) =
      some (r.seconds, r.fraction) := by
    cases shown with
    | true => exact readSeconds_secondsText r.seconds hf
    | false =>
      obtain ⟨hz, he, -⟩ := hs rfl
      rw [hz, he]
      rfl
  rw [read, h, readSign_signText r.negative plus hfirst]
  simp only [if_neg hne]
  simp only [partsText, part_unitText rfl hhours,
    part_unitText rfl (hminutes 'h' (by decide) (by decide) (by decide)),
    part_unitText rfl (hother 'm' (by decide) (by decide)), hseconds]
  rfl

end DimosViewer.Format
