import DimosViewer.EscapedSplit
import DimosViewer.Path.DataPath

/-!
# Fragments of links

A selected path, a time and a selected time range, how they are printed behind the hash
of a link and how they are read back.
-/

namespace DimosViewer

/-- `str::split_once`, at one character. -/
def splitOnce (separator : Char) : List Char → Option (List Char × List Char)
  | [] => none
  | c :: rest =>
    if c = separator then some ([], rest)
    else (splitOnce separator rest).map fun (left, right) => (c :: left, right)

/-- `str::split_once` at two dots. -/
def splitOnceDots : List Char → Option (List Char × List Char)
  | '.' :: '.' :: rest => some ([], rest)
  | c :: rest => (splitOnceDots rest).map fun (left, right) => (c :: left, right)
  | [] => none

/-- The text of times, with errors as texts. -/
structure TimeFormat where
  formatUrl : TimeCell → List Char
  fromStr : List Char → Except String TimeCell

def TimeCell.new (typ : TimeType) (value : TimeInt) : TimeCell where
  typ := typ
  value := value.saturatedTemporal
  temporal := le_max_right _ _

-- ---------------------------------------------------------------------------
-- Time selections
-- ---------------------------------------------------------------------------

structure TimeSelection where
  timeline : Timeline
  range : AbsoluteTimeRange
deriving DecidableEq

inductive InvalidTimeRange where
  | missingAt
  | missingDots
  | badTimeIndex (text : List Char) (err : String)
  | differingTypes (min max : TimeType)
deriving DecidableEq

namespace TimeSelection

def minCell (selection : TimeSelection) : TimeCell :=
  .new selection.timeline.typ selection.range.min

def maxCell (selection : TimeSelection) : TimeCell :=
  .new selection.timeline.typ selection.range.max

def formatUrl (format : TimeFormat) (selection : TimeSelection) : List Char :=
  selection.timeline.name.toList ++ '@' :: (format.formatUrl selection.minCell ++
    '.' :: '.' :: format.formatUrl selection.maxCell)

def fromStr (format : TimeFormat) (value : List Char) : Except InvalidTimeRange TimeSelection :=
  match splitOnce '@' value with
  | none => .error .missingAt
  | some (timeline, range) =>
    match splitOnceDots range with
    | none => .error .missingDots
    | some (min, max) =>
      match format.fromStr min, format.fromStr max with
      | .error err, _ => .error (.badTimeIndex min err)
      | .ok _, .error err => .error (.badTimeIndex max err)
      | .ok min, .ok max =>
        if min.typ ≠ max.typ then .error (.differingTypes min.typ max.typ)
        else .ok ⟨⟨String.ofList timeline, min.typ⟩, .new min.value max.value⟩

end TimeSelection

-- ---------------------------------------------------------------------------
-- Fragments
-- ---------------------------------------------------------------------------

structure Fragment where
  selection : Option DataPath := none
  when : Option (TimelineName × TimeCell) := none
  timeSelection : Option TimeSelection := none

inductive FragmentError where
  | badDataPath (part : List Char) (err : PathParseError)
  | badTimeValue (time : List Char) (err : String)
  | badTimeSelection (part : List Char) (err : InvalidTimeRange)
  | unknownKey (key : List Char)

namespace Fragment

variable (table : CharTable) (format : TimeFormat)

def keyValue (key : String) (value : List Char) : List Char := key.toList ++ '=' :: value

def selectionText (selection : DataPath) : List Char :=
  keyValue "selection" (selection.display table)

def whenText (w : TimelineName × TimeCell) : List Char :=
  keyValue "when" (w.1.toList ++ '@' :: format.formatUrl w.2)

def timeSelectionText (timeSelection : TimeSelection) : List Char :=
  keyValue "time_selection" (timeSelection.formatUrl format)

/-- An ampersand is only put between two texts. -/
def display (fragment : Fragment) : List Char :=
  let write (didWrite : Bool) (text : List Char) := if didWrite then '&' :: text else text
  let didWrite := fragment.selection.isSome
  let didWriteWhen := didWrite || fragment.when.isSome
  fragment.selection.elim [] (selectionText table) ++
    fragment.when.elim [] (fun w => write didWrite (whenText format w)) ++
    fragment.timeSelection.elim [] fun t => write didWriteWhen (timeSelectionText format t)

/-- A part without an equals sign is skipped, and so is a `when` without an `@`. -/
def applyPart (fragment : Fragment) (part : List Char) : Except FragmentError Fragment :=
  match EscapedSplit.splitFirst '=' '\\' false part with
  | none => .ok fragment
  | some (key, value) =>
    if key = "selection".toList then
      match DataPath.fromStr table (String.ofList value) with
      | .ok path => .ok { fragment with selection := some path }
      | .error err => .error (.badDataPath part err)
    else if key = "when".toList then
      match splitOnce '@' value with
      | none => .ok fragment
      | some (timeline, time) =>
        match format.fromStr time with
        | .ok timeCell => .ok { fragment with when := some (String.ofList timeline, timeCell) }
        | .error err => .error (.badTimeValue time err)
    else if key = "time_selection".toList then
      match TimeSelection.fromStr format value with
      | .ok selection => .ok { fragment with timeSelection := some selection }
      | .error err => .error (.badTimeSelection part err)
    else .error (.unknownKey key)

def fromStr (fragment : List Char) : Except FragmentError Fragment :=
  (EscapedSplit.split '&' '\\' fragment).foldlM (applyPart table format) {}

end Fragment

end DimosViewer
