import DimosViewer.Path.Filter

/-!
# The tokens of a selector

The lexer reads one character ahead. Lines and columns are counted for the errors.
-/

namespace DimosViewer.Selector

abbrev Text := List Char

/-- What `char` knows of a character. The Unicode tables are left open outside of ASCII. -/
structure CharTable where
  isAlphabetic : Char → Bool
  isNumeric : Char → Bool
  isGraphemeExtended : Char → Bool
  isPrintable : Char → Bool
  alphabetic_ascii : ∀ c : Char, c.toNat < 128 → isAlphabetic c = c.isAlpha
  numeric_ascii : ∀ c : Char, c.toNat < 128 → isNumeric c = c.isDigit

def CharTable.asciiOnly : CharTable where
  isAlphabetic := Char.isAlpha
  isNumeric := Char.isDigit
  isGraphemeExtended _ := false
  isPrintable c := decide (32 ≤ c.toNat) && decide (c.toNat < 127)
  alphabetic_ascii _ _ := rfl
  numeric_ascii _ _ := rfl

inductive IntErrorKind where
  | empty
  | invalidDigit
  | posOverflow
  | negOverflow
deriving DecidableEq, Repr

/-- The digits of a number up to a bound. The first character that is no digit, or goes
above the bound, decides. -/
def parseDigits (bound : Nat) (overflow : IntErrorKind) : Nat → Text → Except IntErrorKind Nat
  | value, [] => .ok value
  | value, c :: rest =>
    match toDigit 10 c with
    | none => .error .invalidDigit
    | some digit =>
      if value * 10 + digit ≤ bound then parseDigits bound overflow (value * 10 + digit) rest
      else .error overflow

def parseUnsigned (bits : Nat) (s : Text) : Except IntErrorKind Nat :=
  match s with
  | [] => .error .empty
  | ['+'] | ['-'] => .error .invalidDigit
  | '+' :: digits | digits => parseDigits (2 ^ bits - 1) .posOverflow 0 digits

inductive TokenType
  | field (name : Text)
  | ident (name : Text)
  | integer (n : UInt64)
  | stringLiteral (value : Text)
  | lBracket
  | rBracket
  | lParen
  | rParen
  | dot
  | pipe
  | semicolon
  | questionMark
  | exclamationMark
  deriving DecidableEq

structure Token where
  typ : TokenType
  line : Nat
  deriving DecidableEq

inductive LexError
  | unexpectedChar (ch : Char) (line column : Nat)
  | parseInt (err : IntErrorKind) (lexeme : Text)
  | unterminatedString (line column : Nat)
  | invalidEscape (ch : Char) (line column : Nat)
  deriving DecidableEq

structure Lexer where
  chars : Text
  line : Nat := 1
  column : Nat := 1
  lexemeBuffer : Text := []
  deriving DecidableEq

namespace Lexer

variable (table : CharTable)

def isNameChar (c : Char) : Bool :=
  table.isAlphabetic c || table.isNumeric c || c == '-' || c == '_'

def makeToken (s : Lexer) (typ : TokenType) : Token := ⟨typ, s.line⟩

def advanceWhile (p : Char → Bool) (s : Lexer) : Lexer :=
  { s with
    chars := s.chars.dropWhile p
    column := s.column + (s.chars.takeWhile p).length
    lexemeBuffer := s.lexemeBuffer ++ s.chars.takeWhile p }

def makeField (s : Lexer) : Token × Lexer :=
  let s := s.advanceWhile (isNameChar table)
  (⟨.field s.lexemeBuffer, s.line⟩, { s with lexemeBuffer := [] })

def makeNumber (s : Lexer) : Except LexError (Token × Lexer) :=
  let s := s.advanceWhile Char.isDigit
  match parseUnsigned 64 s.lexemeBuffer with
  | .error err => .error (.parseInt err s.lexemeBuffer)
  | .ok number => .ok (⟨.integer (.ofNat number), s.line⟩, { s with lexemeBuffer := [] })

/-- The loop of `make_string`: the value, the characters after the string, and their column. -/
def scanString (line startColumn : Nat) :
    (chars : Text) → (column : Nat) → (value : Text) → Except LexError (Text × Text × Nat)
  | [], _, _ => .error (.unterminatedString line startColumn)
  | '"' :: rest, column, value => .ok (value, rest, column + 1)
  | ['\\'], _, _ => .error (.unterminatedString line startColumn)
  | '\\' :: '\\' :: rest, column, value =>
    scanString line startColumn rest (column + 2) (value ++ ['\\'])
  | '\\' :: '"' :: rest, column, value =>
    scanString line startColumn rest (column + 2) (value ++ ['"'])
  | '\\' :: 'n' :: rest, column, value =>
    scanString line startColumn rest (column + 2) (value ++ ['\n'])
  | '\\' :: 't' :: rest, column, value =>
    scanString line startColumn rest (column + 2) (value ++ ['\t'])
  | '\\' :: ch :: _, column, _ => .error (.invalidEscape ch line (column + 1))
  | ch :: rest, column, value => scanString line startColumn rest (column + 1) (value ++ [ch])

def makeString (s : Lexer) : Except LexError (Token × Lexer) :=
  (scanString s.line s.column s.chars s.column []).map fun scanned =>
    (⟨.stringLiteral scanned.1, s.line⟩,
      { s with chars := scanned.2.1, column := scanned.2.2 })

def makeBareIdentifier (s : Lexer) : Token × Lexer :=
  let s := s.advanceWhile (isNameChar table)
  (⟨.ident s.lexemeBuffer, s.line⟩, { s with lexemeBuffer := [] })

def peekAlphabetic (s : Lexer) : Bool := s.chars.head?.any table.isAlphabetic

def singleChar : Char → Option TokenType
  | '|' => some .pipe
  | '?' => some .questionMark
  | '!' => some .exclamationMark
  | '[' => some .lBracket
  | ']' => some .rBracket
  | '(' => some .lParen
  | ')' => some .rParen
  | ';' => some .semicolon
  | _ => none

/-- The rest of `scan_token`, after the character. `None` is whitespace. -/
def scanAfter (c : Char) (s : Lexer) : Except LexError (Option Token × Lexer) :=
  if c = ' ' ∨ c = '\r' ∨ c = '\t' then .ok (none, s)
  else if c = '\n' then .ok (none, { s with line := s.line + 1, column := 1 })
  else
    match singleChar c with
    | some typ => .ok (some (s.makeToken typ), s)
    | none =>
      if c = '"' then s.makeString.map fun r => (some r.1, r.2)
      else if c = '.' then
        if s.peekAlphabetic table then
          let r := makeField table { s with lexemeBuffer := [] }
          .ok (some r.1, r.2)
        else .ok (some (s.makeToken .dot), s)
      else if c.isDigit then s.makeNumber.map fun r => (some r.1, r.2)
      else if table.isAlphabetic c || c == '_' then
        let r := makeBareIdentifier table s
        .ok (some r.1, r.2)
      else .error (.unexpectedChar c s.line (s.column - 1))

def scanToken (s : Lexer) : Except LexError (Option Token × Lexer) :=
  match s.chars with
  | [] => .error (.unexpectedChar '\x00' s.line s.column)
  | c :: rest =>
    scanAfter table c { s with
      chars := rest, column := s.column + 1, lexemeBuffer := s.lexemeBuffer ++ [c] }

-- ---------------------------------------------------------------------------
-- All tokens
-- ---------------------------------------------------------------------------

theorem scanString_shortens {line startColumn column : Nat} {chars value : Text}
    {scanned : Text × Text × Nat}
    (h : scanString line startColumn chars column value = .ok scanned) :
    scanned.2.1.length < chars.length := by
  fun_induction scanString line startColumn chars column value with
  | case1 | case3 | case8 => cases h
  | case2 =>
    cases h
    exact Nat.lt_succ_self _
  | case4 column value rest ih | case5 column value rest ih | case6 column value rest ih
  | case7 column value rest ih =>
    have := ih h
    simp only [List.length_cons]
    omega
  | case9 =>
    rename_i ih
    exact Nat.lt_succ_of_lt (ih h)

theorem makeString_shortens {s s' : Lexer} {token : Token} (h : s.makeString = .ok (token, s')) :
    s'.chars.length < s.chars.length := by
  rw [makeString] at h
  cases hscan : scanString s.line s.column s.chars s.column [] with
  | error err =>
    rw [hscan] at h
    cases h
  | ok scanned =>
    rw [hscan] at h
    cases h
    exact scanString_shortens hscan

theorem advanceWhile_length (p : Char → Bool) (s : Lexer) :
    (s.advanceWhile p).chars.length ≤ s.chars.length :=
  (List.dropWhile_suffix p).length_le

theorem makeNumber_length {s s' : Lexer} {token : Token} (h : s.makeNumber = .ok (token, s')) :
    s'.chars.length ≤ s.chars.length := by
  rw [makeNumber] at h
  split at h
  · cases h
  · cases h
    exact advanceWhile_length _ s

theorem map_eq_ok {f : α → β} {r : Except ε α} (h : r.map f = .ok b) :
    ∃ a, r = .ok a ∧ f a = b := by
  cases r with
  | error err => cases h
  | ok a => exact ⟨a, rfl, Except.ok.inj h⟩

theorem scanAfter_length {s s' : Lexer} {token : Option Token}
    (h : scanAfter table c s = .ok (token, s')) : s'.chars.length ≤ s.chars.length := by
  rw [scanAfter] at h
  split at h
  · cases h
    exact Nat.le_refl _
  split at h
  · cases h
    exact Nat.le_refl _
  split at h
  · cases h
    exact Nat.le_refl _
  split at h
  · obtain ⟨made, hmade, heq⟩ := map_eq_ok h
    cases heq
    exact Nat.le_of_lt (makeString_shortens hmade)
  split at h
  · split at h
    · cases h
      exact advanceWhile_length _ _
    · cases h
      exact Nat.le_refl _
  split at h
  · obtain ⟨made, hmade, heq⟩ := map_eq_ok h
    cases heq
    exact makeNumber_length hmade
  split at h
  · cases h
    exact advanceWhile_length _ _
  · cases h

theorem scanToken_shortens {s s' : Lexer} {token : Option Token}
    (h : scanToken table s = .ok (token, s')) : s'.chars.length < s.chars.length := by
  rw [scanToken] at h
  split at h
  · cases h
  · rename_i c rest hchars
    rw [hchars]
    exact Nat.lt_succ_of_le (scanAfter_length table h)

def scanTokens (s : Lexer) : Except LexError (List Token) :=
  if s.chars = [] then .ok []
  else
    match _ : scanToken table { s with lexemeBuffer := [] } with
    | .error err => .error err
    | .ok (token, s') => (scanTokens s').map (token.toList ++ ·)
termination_by s.chars.length
decreasing_by
  have hshorter := scanToken_shortens table (by assumption)
  exact hshorter

def lex (source : Text) : Except LexError (List Token) := scanTokens table { chars := source }

end Lexer

end DimosViewer.Selector
