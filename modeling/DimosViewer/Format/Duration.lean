import DimosViewer.DecimalText

/-!
# Formatting of durations

A duration is written back to front: the digits behind the point first, each block of them
either shown or rounded away.
-/

namespace DimosViewer.Format

abbrev Text := List Char

def MINUS : Char := '−'

def THIN_SPACE : Char := '\u2009'

def toText (n : Nat) : Text := Nat.toDigits 10 n

/-- The loop of `add_thousands_separators`, over the reversed characters. -/
def pushGroups (result : Text) : Text → Text
  | [] => result
  | a :: b :: c :: chars =>
    pushGroups ((if result = [] then [] else result ++ [THIN_SPACE]) ++ [a, b, c]) chars
  | chars => (if result = [] then [] else result ++ [THIN_SPACE]) ++ chars

def addThousandsSeparators (number : Text) : Text := (pushGroups [] number.reverse).reverse

def formatUint (number : Nat) : Text := addThousandsSeparators (toText number)

-- ---------------------------------------------------------------------------
-- Options
-- ---------------------------------------------------------------------------

inductive Rounding where
  | closest
  | towardsZero
deriving DecidableEq

structure DurationFormatOptions where
  spaces : Bool
  onlySeconds : Bool
  alwaysSign : Bool
  minDecimals : Nat
  maxDecimals : Nat
  rounding : Rounding

namespace DurationFormatOptions

def default : DurationFormatOptions where
  spaces := true
  onlySeconds := true
  alwaysSign := false
  minDecimals := 1
  maxDecimals := 9
  rounding := .closest

def withSpaces (o : DurationFormatOptions) (spaces : Bool) : DurationFormatOptions :=
  { o with spaces }

def withOnlySeconds (o : DurationFormatOptions) (onlySeconds : Bool) : DurationFormatOptions :=
  { o with onlySeconds }

def withAlwaysSign (o : DurationFormatOptions) (alwaysSign : Bool) : DurationFormatOptions :=
  { o with alwaysSign }

def withMinDecimals (o : DurationFormatOptions) (minDecimals : Nat) : DurationFormatOptions :=
  { o with minDecimals, maxDecimals := max o.maxDecimals minDecimals }

def withMaxDecimals (o : DurationFormatOptions) (maxDecimals : Nat) : DurationFormatOptions :=
  { o with maxDecimals, minDecimals := min o.minDecimals maxDecimals }

def roundTowardsZero (o : DurationFormatOptions) : DurationFormatOptions :=
  { o with rounding := .towardsZero }

def roundToClosest (o : DurationFormatOptions) : DurationFormatOptions :=
  { o with rounding := .closest }

def supported : List Nat := [0, 1, 3, 6, 9]

/-- The options that calls with supported numbers of decimals lead to. -/
inductive Built : DurationFormatOptions → Prop
  | default : Built default
  | withSpaces (spaces : Bool) : Built o → Built (o.withSpaces spaces)
  | withOnlySeconds (onlySeconds : Bool) : Built o → Built (o.withOnlySeconds onlySeconds)
  | withAlwaysSign (alwaysSign : Bool) : Built o → Built (o.withAlwaysSign alwaysSign)
  | withMinDecimals : d ∈ supported → Built o → Built (o.withMinDecimals d)
  | withMaxDecimals : d ∈ supported → Built o → Built (o.withMaxDecimals d)
  | roundTowardsZero : Built o → Built o.roundTowardsZero
  | roundToClosest : Built o → Built o.roundToClosest

-- ---------------------------------------------------------------------------
-- Digits behind the point
-- ---------------------------------------------------------------------------

/-- What is left to write: the least number of decimals, the parts so far from the back, and
the number in front of them. -/
structure Stage where
  minDecimals : Nat
  backRev : List Text
  rest : Nat

/-- The sums stay far below `2 ^ 64`. -/
def round (o : DurationFormatOptions) (x unit : Nat) : Nat :=
  match o.rounding with
  | .closest => (x + unit / 2) / unit
  | .towardsZero => x / unit

/-- One block of `width` decimals, the last of which is the decimal number `place`. -/
def block (o : DurationFormatOptions) (place width : Nat) (separator : List Text) (st : Stage) :
    Stage :=
  let unit := 10 ^ width
  if place ≤ st.minDecimals ∨ (place ≤ o.maxDecimals ∧ st.rest % unit ≠ 0) then
    { minDecimals := place
      backRev := st.backRev ++ [DecimalText.padded width (st.rest % unit)] ++ separator
      rest := st.rest / unit }
  else { st with rest := o.round st.rest unit }

def us (o : DurationFormatOptions) (ns : Stage) : Stage := o.block 9 3 [[THIN_SPACE]] ns
def ms (o : DurationFormatOptions) (us : Stage) : Stage := o.block 6 3 [[THIN_SPACE]] us
def ds (o : DurationFormatOptions) (ms : Stage) : Stage := o.block 3 2 [] ms
def s (o : DurationFormatOptions) (ds : Stage) : Stage := o.block 1 1 [] ds

def subSeconds (o : DurationFormatOptions) (ns : Nat) : Stage :=
  o.s (o.ds (o.ms (o.us ⟨o.minDecimals, [], ns⟩)))

-- ---------------------------------------------------------------------------
-- Units
-- ---------------------------------------------------------------------------

def secPerMinute : Nat := 60
def secPerHour : Nat := 60 * secPerMinute
def secPerDay : Nat := 24 * secPerHour

structure Front where
  front : List Text
  secsRemaining : Nat
  didWrite : Bool

def pushUnit (unit : Nat) (spaces : Bool) (text : Nat → Text) (f : Front) : Front :=
  let count := f.secsRemaining / unit
  if count > 0 then
    { front := f.front ++ (if spaces ∧ f.didWrite then [[' ']] else []) ++ [text count]
      secsRemaining := f.secsRemaining - count * unit
      didWrite := true }
  else f

def pushDays (f : Front) : Front :=
  pushUnit secPerDay false (fun days => formatUint days ++ ['d']) f

/-- The blank before the hours does not depend on `spaces`. -/
def pushHours (f : Front) : Front :=
  pushUnit secPerHour true (fun hours => toText hours ++ ['h']) f

def pushMinutes (o : DurationFormatOptions) (f : Front) : Front :=
  pushUnit secPerMinute o.spaces (fun minutes => toText minutes ++ ['m']) f

def formatNanos (o : DurationFormatOptions) (ns : Int64) : Text :=
  let front := if ns < 0 then [[MINUS]] else if o.alwaysSign then [['+']] else []
  let stage := o.subSeconds ns.toInt.natAbs
  let backRev := if stage.backRev ≠ [] then stage.backRev ++ [['.']] else stage.backRev
  if o.onlySeconds then
    let backRev := ['s'] :: (backRev ++ [formatUint stage.rest])
    (front ++ backRev.reverse).flatten
  else
    let f := o.pushMinutes (pushHours (pushDays ⟨front, stage.rest, false⟩))
    if f.secsRemaining > 0 ∨ backRev ≠ [] ∨ f.didWrite = false then
      let front := f.front ++ (if o.spaces ∧ f.didWrite then [[' ']] else [])
      let backRev := ['s'] :: (backRev ++ [formatUint f.secsRemaining])
      (front ++ backRev.reverse).flatten
    else (f.front ++ backRev.reverse).flatten

end DurationFormatOptions
end DimosViewer.Format
