import Mathlib.Data.Nat.Digits.Lemmas
import Std.Data.TreeMap
import DimosViewer.Chunk.Basic

/-!
# The text of an entity path

The printer escapes one character at a time, the tokenizer tracks escapes while
it looks for separators, and the parts are unescaped afterwards. The tokenizer of
the source walks over bytes; as it only ever looks for ASCII it splits at the same
places as one that walks over characters. Warnings are not modelled.
-/

namespace DimosViewer

open Std (TreeMap)

/-- `char::is_alphanumeric`. The Unicode tables are left open outside of ASCII. -/
structure CharTable where
  isAlphanumeric : Char → Bool
  ascii : ∀ c : Char, c.toNat < 128 → isAlphanumeric c = c.isAlphanum

def CharTable.asciiOnly : CharTable := ⟨Char.isAlphanum, fun _ _ => rfl⟩

def isAsciiPunctuation (c : Char) : Bool :=
  ('!' ≤ c && c ≤ '/') || (':' ≤ c && c ≤ '@') || ('[' ≤ c && c ≤ '\x60') || ('\x7b' ≤ c && c ≤ '~')

/-- `str::len`, in bytes. -/
def byteLen (chars : List Char) : Nat := (chars.map Char.utf8Size).sum

-- ---------------------------------------------------------------------------
-- Numbers
-- ---------------------------------------------------------------------------

def upperHexDigit (d : Nat) : Char := Char.ofNat (if d < 10 then 48 + d else 55 + d)

/-- `{:04X}`. -/
def formatHex (n : Nat) : List Char := (Nat.digitsAppend 16 4 n).reverse.map upperHexDigit

def toDigit (radix : Nat) (c : Char) : Option Nat :=
  let digit :=
    if '0' ≤ c ∧ c ≤ '9' then some (c.toNat - 48)
    else if 'A' ≤ c ∧ c ≤ 'Z' then some (c.toNat - 55)
    else if 'a' ≤ c ∧ c ≤ 'z' then some (c.toNat - 87)
    else none
  digit.filter (· < radix)

def fromStrRadix (radix bits : Nat) (chars : List Char) : Option Nat :=
  let digits :=
    match chars with
    | '+' :: c :: rest => c :: rest
    | chars => chars
  if digits.isEmpty then none
  else
    let value := digits.foldlM (fun acc c => (toDigit radix c).map (acc * radix + ·)) 0
    value.filter (· < 2 ^ bits)

def charFromU32 (n : Nat) : Option Char := if n.isValidChar then some (Char.ofNat n) else none

inductive PathParseError where
  | emptyString
  | missingPath
  | doubleSlash
  | missingSlash
  | trailingSlash
  | emptyPart
  | badInstance (text : String)
  | unexpectedInstance (nr : Nat)
  | unexpectedComponent (component : ComponentIdentifier)
  | missingComponentIdentifier
  | trailingColon
  | unknownEscapeSequence (c : Char)
  | trailingBackslash
  | missingEscape (c : Char)
  | invalidUnicodeEscape (text : String)
deriving DecidableEq, Repr

-- ---------------------------------------------------------------------------
-- Parts
-- ---------------------------------------------------------------------------

section Parts

variable (table : CharTable)

def printAsIs (c : Char) : Bool := table.isAlphanumeric c || c == '_' || c == '-' || c == '.'

def escapeChar (c : Char) : List Char :=
  if printAsIs table c then [c]
  else if c = '\n' then ['\\', 'n']
  else if c = '\r' then ['\\', 'r']
  else if c = '\t' then ['\\', 't']
  else if isAsciiPunctuation c || c = ' ' then ['\\', c]
  else '\\' :: 'u' :: '{' :: formatHex c.toNat ++ ['}']

def escapedString (part : String) : List Char := part.toList.flatMap (escapeChar table)

/-- The characters up to the first `}`, or up to the sixth byte. -/
def takeUnicodeEscape (allChars : List Char) : List Char → List Char × List Char
  | [] => (allChars, [])
  | c :: input =>
    if c = '}' ∨ byteLen (allChars ++ [c]) = 6 then (allChars ++ [c], input)
    else takeUnicodeEscape (allChars ++ [c]) input

def parseUnicodeEscape (input : List Char) : Except (List Char) Char × List Char :=
  let (allChars, input) := takeUnicodeEscape [] input
  let parsed := do
    guard (allChars.head? = some '{')
    let chars := allChars.tail
    guard (chars.getLast? = some '}')
    let chars := chars.dropLast
    guard (byteLen chars = 4)
    charFromU32 (← fromStrRadix 16 32 chars)
  (parsed.elim (.error allChars) .ok, input)

/-- What an escaped character stands for. Only `\u` reads on. -/
def unescapeChar (c : Char) : Option Char :=
  if c = 'n' then some '\n'
  else if c = 'r' then some '\r'
  else if c = 't' then some '\t'
  else if isAsciiPunctuation c || c = ' ' then some c
  else none

theorem takeUnicodeEscape_length (allChars input : List Char) :
    (takeUnicodeEscape allChars input).2.length ≤ input.length := by
  induction input generalizing allChars with
  | nil => exact le_rfl
  | cons c input ih =>
    rw [takeUnicodeEscape]
    split
    · exact Nat.le_succ _
    · exact (ih _).trans (Nat.le_succ _)

theorem parseUnicodeEscape_length (input : List Char) :
    (parseUnicodeEscape input).2.length ≤ input.length :=
  takeUnicodeEscape_length [] input

def parseForgivingChars : List Char → List Char
  | [] => []
  | '\\' :: [] => ['\\']
  | '\\' :: c :: chars =>
    if c = 'u' then
      let parsed := parseUnicodeEscape chars
      match parsed.1 with
      | .ok c => c :: parseForgivingChars parsed.2
      | .error text => '\\' :: 'u' :: text ++ parseForgivingChars parsed.2
    else (unescapeChar c).getD c :: parseForgivingChars chars
  | c :: chars => c :: parseForgivingChars chars
termination_by chars => chars.length
decreasing_by
  all_goals
    have := parseUnicodeEscape_length chars
    simp only [List.length_cons]
    omega

def parseStrictChars : List Char → Except PathParseError (List Char)
  | [] => .ok []
  | '\\' :: [] => .error .trailingBackslash
  | '\\' :: c :: chars =>
    if c = 'u' then
      let parsed := parseUnicodeEscape chars
      match parsed.1 with
      | .ok c => (c :: ·) <$> parseStrictChars parsed.2
      | .error text => .error (.invalidUnicodeEscape (String.ofList text))
    else
      match unescapeChar c with
      | some c => (c :: ·) <$> parseStrictChars chars
      | none => .error (.unknownEscapeSequence c)
  | c :: chars =>
    if printAsIs table c then (c :: ·) <$> parseStrictChars chars else .error (.missingEscape c)
termination_by chars => chars.length
decreasing_by
  all_goals
    have := parseUnicodeEscape_length chars
    simp only [List.length_cons]
    omega

end Parts

-- ---------------------------------------------------------------------------
-- Tokens
-- ---------------------------------------------------------------------------

/-- One token is read up to a special character that is not in an escape. -/
def scanToken (specialChars : List Char) (isInEscape : Bool) : List Char → List Char × List Char
  | [] => ([], [])
  | c :: chars =>
    if !isInEscape && specialChars.contains c then ([], c :: chars)
    else
      let (token, rest) := scanToken specialChars (c == '\\') chars
      (c :: token, rest)

theorem scanToken_length (specialChars : List Char) (isInEscape : Bool) (chars : List Char) :
    (scanToken specialChars isInEscape chars).1.length +
      (scanToken specialChars isInEscape chars).2.length = chars.length := by
  induction chars generalizing isInEscape with
  | nil => rfl
  | cons c chars ih =>
    rw [scanToken]
    split
    · exact Nat.zero_add _
    · have := ih (c == '\\')
      simp only [List.length_cons]
      omega

/-- A special character in front is a token of its own. -/
def tokenizeBy (specialChars : List Char) : List Char → List (List Char)
  | [] => []
  | c :: chars =>
    let scanned := scanToken specialChars false (c :: chars)
    if _h : scanned.1.isEmpty then [c] :: tokenizeBy specialChars chars
    else scanned.1 :: tokenizeBy specialChars scanned.2
termination_by chars => chars.length
decreasing_by
  · exact Nat.lt_succ_self _
  · refine Nat.lt_of_lt_of_eq ?_ (scanToken_length specialChars false (c :: chars))
    exact Nat.lt_add_of_pos_left (List.length_pos_iff.mpr (by simpa using _h))

def tokenizeEntityPath (path : String) : List (List Char) := tokenizeBy ['/'] path.toList

def tokenizeDataPath (path : String) : List (List Char) :=
  tokenizeBy ['/', '[', ']', ':', '#'] path.toList

-- ---------------------------------------------------------------------------
-- Paths
-- ---------------------------------------------------------------------------

structure DataPath where
  entityPath : EntityPath
  nr : Option Nat
  component : Option ComponentIdentifier
deriving DecidableEq

section Paths

variable (table : CharTable)

/-- The loop over the parts, behind the optional leading slash. -/
def entityPathPartsLoop : List (List Char) → Except PathParseError (List String)
  | [] => .ok []
  | token :: tokens => do
    if token = ['/'] then
      throw .doubleSlash
    let part := String.ofList (← parseStrictChars table token)
    match tokens with
    | [] => return [part]
    | next :: tokens =>
      if next ≠ ['/'] then
        throw .missingSlash
      if tokens.isEmpty then
        throw .trailingSlash
      return part :: (← entityPathPartsLoop tokens)

def entityPathPartsFromTokensStrict (tokens : List (List Char)) :
    Except PathParseError (List String) :=
  if tokens.isEmpty then .error .missingPath
  else if tokens = [['/']] then .ok []
  else entityPathPartsLoop table (if tokens.head? = some ['/'] then tokens.tail else tokens)

def DataPath.fromStr (path : String) : Except PathParseError DataPath := do
  if path = "" then
    throw .emptyString
  let tokens := tokenizeDataPath path
  -- The `:Points3D:Color` suffix.
  let (tokens, component) ← match tokens.findIdx? (· = [':']) with
    | none => pure (tokens, none)
    | some firstColon =>
      let componentTokens := tokens.drop (firstColon + 1)
      if componentTokens.isEmpty ∨ componentTokens.getLast? = some [':'] then
        throw .trailingColon
      pure (tokens.take firstColon, some (String.ofList componentTokens.flatten))
  -- The `[#1234]` suffix.
  let (tokens, nr) ← match tokens.findIdx? (· = ['[']) with
    | none => pure (tokens, none)
    | some bracket =>
      let instanceTokens := tokens.drop bracket
      if instanceTokens.length ≠ 4 ∨ instanceTokens.getLast? ≠ some [']'] then
        throw (.badInstance (String.ofList instanceTokens.flatten))
      let digits := instanceTokens.getD 2 []
      match fromStrRadix 10 64 digits with
      | some nr => pure (tokens.take bracket, some nr)
      | none => throw (.badInstance (String.ofList digits))
  return ⟨← entityPathPartsFromTokensStrict table tokens, nr, component⟩

namespace EntityPath

def display (path : EntityPath) : String :=
  String.ofList (if path.isEmpty then ['/'] else path.flatMap ('/' :: escapedString table ·))

def parseStrict (input : String) : Except PathParseError EntityPath := do
  let ⟨entityPath, nr, component⟩ ← DataPath.fromStr table input
  if let some nr := nr then
    throw (.unexpectedInstance nr)
  if let some component := component then
    throw (.unexpectedComponent component)
  return entityPath

/-- The slow path of `EntityPath::parse_forgiving`. -/
def parseForgivingUncached (input : String) : EntityPath :=
  ((tokenizeEntityPath input).filter (· ≠ ['/'])).map fun token =>
    String.ofList (parseForgivingChars token)

end EntityPath

end Paths

abbrev Hash64 := UInt64

abbrev ForgivingParseCache := TreeMap Hash64 EntityPath

/-- Inputs are told apart by their hash only. -/
def EntityPath.parseForgiving (hash : String → Hash64) (cache : ForgivingParseCache)
    (input : String) : EntityPath × ForgivingParseCache :=
  match cache[hash input]? with
  | some cached => (cached, cache)
  | none =>
    let path := parseForgivingUncached input
    (path, cache.insert (hash input) path)

end DimosViewer
