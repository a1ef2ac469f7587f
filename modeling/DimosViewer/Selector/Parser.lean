import DimosViewer.Selector.Lexer

/-!
# The selector parser

Recursive descent with one token of lookahead. The parser reads no line, so it is given the types
of the tokens. Recursion and loops run on fuel; `none` is a parser that has run out of it.
-/

namespace DimosViewer.Selector

open TokenType

inductive Literal
  | string (value : Text)
  deriving DecidableEq

inductive Expr
  | identity
  | field (name : Text)
  | index (n : UInt64)
  | each
  | pipe (left right : Expr) (implicit : Bool)
  | try_ (inner : Expr)
  | nonNull (inner : Expr)
  | function (name : Text) (arguments : Option (List Literal))
  | map (body : Expr)
  deriving DecidableEq

-- ---------------------------------------------------------------------------
-- Display
-- ---------------------------------------------------------------------------

/-- How `Debug` writes a character of a string. -/
inductive DebugChar
  | printable (c : Char)
  | backslash (c : Char)
  | unicode (c : Char)
  deriving DecidableEq

def escapeDebug (table : CharTable) (c : Char) : DebugChar :=
  if c = '\x00' then .backslash '0'
  else if c = '\t' then .backslash 't'
  else if c = '\r' then .backslash 'r'
  else if c = '\n' then .backslash 'n'
  else if c = '\\' then .backslash '\\'
  else if c = '"' then .backslash '"'
  else if table.isGraphemeExtended c then .unicode c
  else if table.isPrintable c then .printable c
  else .unicode c

def DebugChar.text : DebugChar → Text
  | .printable c => [c]
  | .backslash c => ['\\', c]
  | .unicode c => '\\' :: 'u' :: '\x7b' :: Nat.toDigits 16 c.toNat ++ ['\x7d']

def debugString (table : CharTable) (value : Text) : Text :=
  '"' :: (value.flatMap fun c => (escapeDebug table c).text) ++ ['"']

def Literal.display (table : CharTable) : Literal → Text
  | .string value => debugString table value

def displayArguments (table : CharTable) : List Literal → Text
  | [] => []
  | first :: more =>
    first.display table ++ more.flatMap fun argument => ';' :: ' ' :: argument.display table

def Expr.display (table : CharTable) : Expr → Text
  | .identity => ['.']
  | .field name => '.' :: name
  | .index n => '[' :: Nat.toDigits 10 n.toNat ++ [']']
  | .each => ['[', ']']
  | .pipe left right true => left.display table ++ right.display table
  | .pipe left right false => left.display table ++ ' ' :: '|' :: ' ' :: right.display table
  | .try_ inner => inner.display table ++ ['?']
  | .nonNull inner => inner.display table ++ ['!']
  | .function name none => name
  | .function name (some arguments) => name ++ '(' :: displayArguments table arguments ++ [')']
  | .map body => 'm' :: 'a' :: 'p' :: '(' :: body.display table ++ [')']

-- ---------------------------------------------------------------------------
-- The parser
-- ---------------------------------------------------------------------------

inductive ParseError
  | expectedSymbol (expected found : TokenType)
  | unexpectedSymbol (symbol : TokenType)
  | unexpectedEof
  deriving DecidableEq

abbrev Parsed (α : Type) := Option (Except ParseError (α × List TokenType))

namespace Parsed

def ok (a : α) (tokens : List TokenType) : Parsed α := some (.ok (a, tokens))

def error (err : ParseError) : Parsed α := some (.error err)

def andThen (parsed : Parsed α) (next : α → List TokenType → Parsed β) : Parsed β :=
  match parsed with
  | none => none
  | some (.error err) => some (.error err)
  | some (.ok result) => next result.1 result.2

end Parsed

namespace Parser

/-- `map`, which is no function. -/
def MAP : Text := ['m', 'a', 'p']

def consume (expected : TokenType) : List TokenType → Parsed Unit
  | [] => .error .unexpectedEof
  | token :: rest =>
    if token = expected then .ok () rest else .error (.expectedSymbol expected token)

def isSegmentStart : List TokenType → Bool
  | field _ :: _ => true
  | lBracket :: _ => true
  | _ => false

def primary : List TokenType → Parsed Expr
  | field name :: rest => .ok (.field name) rest
  | lBracket :: rBracket :: rest => .ok .each rest
  | lBracket :: integer n :: rest =>
    (consume rBracket rest).andThen fun _ rest => .ok (.index n) rest
  | lBracket :: unexpected :: _ => .error (.unexpectedSymbol unexpected)
  | [lBracket] => .error .unexpectedEof
  | unexpected :: _ => .error (.unexpectedSymbol unexpected)
  | [] => .error .unexpectedEof

def operators (expr : Expr) : List TokenType → Expr × List TokenType
  | questionMark :: rest => operators (.try_ expr) rest
  | exclamationMark :: rest => operators (.nonNull expr) rest
  | tokens => (expr, tokens)

def literal : List TokenType → Parsed Literal
  | stringLiteral value :: rest => .ok (.string value) rest
  | unexpected :: _ => .error (.unexpectedSymbol unexpected)
  | [] => .error .unexpectedEof

def moreArguments : (fuel : Nat) → (arguments : List Literal) → List TokenType →
    Parsed (List Literal)
  | 0, _, _ => none
  | fuel + 1, arguments, semicolon :: rest =>
    (literal rest).andThen fun argument rest =>
      moreArguments fuel (arguments ++ [argument]) rest
  | _ + 1, arguments, tokens => .ok arguments tokens

def functionArgs (fuel : Nat) (name : Text) : List TokenType → Parsed Expr
  | lParen :: rParen :: rest => .ok (.function name (some [])) rest
  | lParen :: rest =>
    (literal rest).andThen fun argument rest =>
      (moreArguments fuel [argument] rest).andThen fun arguments rest =>
        (consume rParen rest).andThen fun _ rest => .ok (.function name (some arguments)) rest
  | tokens => .ok (.function name none) tokens

def segment (tokens : List TokenType) : Parsed Expr :=
  (primary tokens).andThen fun expr rest => some (.ok (operators expr rest))

def moreSegments : (fuel : Nat) → (left : Expr) → List TokenType → Parsed Expr
  | 0, _, _ => none
  | fuel + 1, left, tokens =>
    if isSegmentStart tokens then
      (segment tokens).andThen fun right rest => moreSegments fuel (.pipe left right true) rest
    else .ok left tokens

/-- The part of `term` after a leading dot. -/
def segments (fuel : Nat) (tokens : List TokenType) : Parsed Expr :=
  (segment tokens).andThen fun left rest => moreSegments fuel left rest

mutual

def expr : (fuel : Nat) → List TokenType → Parsed Expr
  | 0, _ => none
  | fuel + 1, tokens => (term fuel tokens).andThen fun left rest => morePipes fuel left rest

def morePipes : (fuel : Nat) → (left : Expr) → List TokenType → Parsed Expr
  | 0, _, _ => none
  | fuel + 1, left, pipe :: rest =>
    (term fuel rest).andThen fun right rest => morePipes fuel (.pipe left right false) rest
  | _ + 1, left, tokens => .ok left tokens

def term : (fuel : Nat) → List TokenType → Parsed Expr
  | 0, _ => none
  | fuel + 1, ident name :: rest =>
    if name = MAP then mapExpr fuel rest else functionArgs fuel name rest
  | fuel + 1, dot :: rest =>
    -- If only `.`, it is the identity.
    if isSegmentStart rest then segments fuel rest else .ok .identity rest
  | _ + 1, [] => .error .unexpectedEof
  | fuel + 1, tokens => segments fuel tokens

def mapExpr : (fuel : Nat) → List TokenType → Parsed Expr
  | 0, _ => none
  | fuel + 1, tokens =>
    (consume lParen tokens).andThen fun _ rest =>
      (expr fuel rest).andThen fun body rest =>
        (consume rParen rest).andThen fun _ rest => .ok (.map body) rest

end

def fuelFor (tokens : List TokenType) : Nat := 3 * tokens.length + 3

def parseTypes (tokens : List TokenType) : Option (Except ParseError Expr) :=
  match expr (fuelFor tokens) tokens with
  | none => none
  | some (.error err) => some (.error err)
  | some (.ok (e, [])) => some (.ok e)
  | some (.ok (_, token :: _)) => some (.error (.unexpectedSymbol token))

def parse (tokens : List Token) : Option (Except ParseError Expr) :=
  parseTypes (tokens.map Token.typ)

end Parser

end DimosViewer.Selector
