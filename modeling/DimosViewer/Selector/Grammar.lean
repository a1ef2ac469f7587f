import DimosViewer.Selector.Parser

/-!
# The grammar of selectors

The grammar that the parser documents, and the one that it accepts. A derivation gives the tree of
its segments, operators and arguments in order: adjacent segments are joined by implicit pipes.
-/

namespace DimosViewer.Selector

open TokenType

def Literal.token : Literal → TokenType
  | .string value => stringLiteral value

def argumentTokens : List Literal → List TokenType
  | [] => []
  | first :: more => first.token :: more.flatMap fun argument => [semicolon, argument.token]

-- ---------------------------------------------------------------------------
-- The documented grammar
-- ---------------------------------------------------------------------------

inductive Symbol
  | expr
  | term
  /-- A segment with its operators. -/
  | operated
  | segment

/-- The tokens are derived from the symbol, with this tree. -/
inductive Derives : Symbol → List TokenType → Expr → Prop
  | term (term : Derives .term ts e) : Derives .expr ts e
  | pipe (left : Derives .expr ts l) (right : Derives .term us r) :
      Derives .expr (ts ++ pipe :: us) (.pipe l r false)
  | first (operated : Derives .operated ts e) : Derives .term ts e
  | next (left : Derives .term ts l) (right : Derives .operated us r) :
      Derives .term (ts ++ us) (.pipe l r true)
  | segment (segment : Derives .segment ts e) : Derives .operated ts e
  | optional (inner : Derives .operated ts e) :
      Derives .operated (ts ++ [questionMark]) (.try_ e)
  | nonNull (inner : Derives .operated ts e) :
      Derives .operated (ts ++ [exclamationMark]) (.nonNull e)
  | field : Derives .segment [field name] (.field name)
  | index : Derives .segment [lBracket, integer n, rBracket] (.index n)
  | each : Derives .segment [lBracket, rBracket] .each
  | identity : Derives .segment [dot] .identity
  | map (body : Derives .expr ts e) :
      Derives .segment (ident Parser.MAP :: lParen :: ts ++ [rParen]) (.map e)
  | name : Derives .segment [ident name] (.function name none)
  | call : Derives .segment (ident name :: lParen :: argumentTokens arguments ++ [rParen])
      (.function name (some arguments))

/-- The parser succeeds on what the grammar derives, with the tree of a derivation. -/
def FollowsGrammar (tokens : List Token) : Prop :=
  ((∃ e, Parser.parse tokens = some (.ok e)) ↔ ∃ e, Derives .expr (tokens.map Token.typ) e) ∧
    ∀ e, Parser.parse tokens = some (.ok e) → Derives .expr (tokens.map Token.typ) e

-- ---------------------------------------------------------------------------
-- What is accepted
-- ---------------------------------------------------------------------------

inductive Level
  | expr
  | term
  /-- Segments joined by implicit pipes. -/
  | chain
  /-- A field or brackets with operators. -/
  | operated

/-- What the parser accepts: an identity, a map or a function stands alone in its term. A term may
have a leading dot that leaves no trace, unless that is ruled out. -/
inductive Accepted (dots : Prop) : Level → List TokenType → Expr → Prop
  | term (term : Accepted dots .term ts e) : Accepted dots .expr ts e
  | pipe (left : Accepted dots .expr ts l) (right : Accepted dots .term us r) :
      Accepted dots .expr (ts ++ pipe :: us) (.pipe l r false)
  | identity : Accepted dots .term [dot] .identity
  | map (body : Accepted dots .expr ts e) :
      Accepted dots .term (ident Parser.MAP :: lParen :: ts ++ [rParen]) (.map e)
  | name (h : name ≠ Parser.MAP) : Accepted dots .term [ident name] (.function name none)
  | call (h : name ≠ Parser.MAP) :
      Accepted dots .term (ident name :: lParen :: argumentTokens arguments ++ [rParen])
        (.function name (some arguments))
  | chain (chain : Accepted dots .chain ts e) : Accepted dots .term ts e
  | dotted (h : dots) (chain : Accepted dots .chain ts e) : Accepted dots .term (dot :: ts) e
  | first (operated : Accepted dots .operated ts e) : Accepted dots .chain ts e
  | next (left : Accepted dots .chain ts l) (right : Accepted dots .operated us r) :
      Accepted dots .chain (ts ++ us) (.pipe l r true)
  | field : Accepted dots .operated [field name] (.field name)
  | index : Accepted dots .operated [lBracket, integer n, rBracket] (.index n)
  | each : Accepted dots .operated [lBracket, rBracket] .each
  | optional (inner : Accepted dots .operated ts e) :
      Accepted dots .operated (ts ++ [questionMark]) (.try_ e)
  | nonNull (inner : Accepted dots .operated ts e) :
      Accepted dots .operated (ts ++ [exclamationMark]) (.nonNull e)

def Expr.tokens : Expr → List TokenType
  | .identity => [dot]
  | .field name => [TokenType.field name]
  | .index n => [lBracket, integer n, rBracket]
  | .each => [lBracket, rBracket]
  | .pipe left right true => left.tokens ++ right.tokens
  | .pipe left right false => left.tokens ++ TokenType.pipe :: right.tokens
  | .try_ inner => inner.tokens ++ [questionMark]
  | .nonNull inner => inner.tokens ++ [exclamationMark]
  | .function name none => [ident name]
  | .function name (some arguments) => ident name :: lParen :: argumentTokens arguments ++ [rParen]
  | .map body => ident Parser.MAP :: lParen :: body.tokens ++ [rParen]

-- ---------------------------------------------------------------------------
-- Laws
-- ---------------------------------------------------------------------------

theorem Derives.tokens (h : Derives symbol ts e) : ts = e.tokens := by
  induction h with
  | term _ ih | first _ ih | segment _ ih => exact ih
  | pipe _ _ ihl ihr | next _ _ ihl ihr => rw [ihl, ihr, Expr.tokens]
  | optional _ ih | nonNull _ ih | map _ ih => rw [ih, Expr.tokens]
  | field | index | each | identity | name | call => rfl

variable {dots : Prop} {level : Level} {ts : List TokenType} {e : Expr}

theorem Accepted.undotted (h : Accepted dots level ts e) : Accepted False level e.tokens e := by
  induction h with
  | term _ ih => exact .term ih
  | pipe _ _ ihl ihr => exact .pipe ihl ihr
  | identity => exact .identity
  | map _ ih => exact .map ih
  | name h => exact .name h
  | call h => exact .call h
  | chain _ ih | dotted _ _ ih => exact .chain ih
  | first _ ih => exact .first ih
  | next _ _ ihl ihr => exact .next ihl ihr
  | field => exact .field
  | index => exact .index
  | each => exact .each
  | optional _ ih => exact .optional ih
  | nonNull _ ih => exact .nonNull ih

theorem Accepted.sublist (h : Accepted dots level ts e) : e.tokens.Sublist ts := by
  induction h with
  | term _ ih | chain _ ih | first _ ih => exact ih
  | dotted _ _ ih => exact ih.cons dot
  | pipe _ _ ihl ihr => exact ihl.append (ihr.cons_cons _)
  | next _ _ ihl ihr => exact ihl.append ihr
  | map _ ih => exact ((ih.append_right _).cons_cons _).cons_cons _
  | optional _ ih | nonNull _ ih => exact ih.append_right _
  | identity | name | call | field | index | each => exact List.Sublist.refl _

/-- Where a symbol of the grammar stands for what is accepted on a level. -/
def Level.symbol : Level → Symbol
  | .expr => .expr
  | .term | .chain => .term
  | .operated => .operated

theorem Derives.dotted (h : Derives .term ts e) : ∃ e', Derives .term (dot :: ts) e' := by
  generalize hsymbol : Symbol.term = symbol at h
  induction h with
  | first operated _ => exact ⟨_, .next (.first (.segment .identity)) operated⟩
  | next left right ih _ =>
    obtain ⟨e', h⟩ := ih hsymbol
    exact ⟨_, .next h right⟩
  | _ => cases hsymbol

/-- All that is accepted is derived, with the same tree if there are no leading dots. -/
theorem Accepted.derives (h : Accepted dots level ts e) :
    ∃ e', Derives level.symbol ts e' ∧ (¬dots → e' = e) := by
  induction h with
  | term _ ih =>
    obtain ⟨e', h, heq⟩ := ih
    exact ⟨e', .term h, heq⟩
  | pipe _ _ ihl ihr =>
    obtain ⟨l, hl, hleq⟩ := ihl
    obtain ⟨r, hr, hreq⟩ := ihr
    refine ⟨_, .pipe hl hr, fun hdots => ?_⟩
    rw [hleq hdots, hreq hdots]
  | identity => exact ⟨_, .first (.segment .identity), fun _ => rfl⟩
  | map _ ih =>
    obtain ⟨e', h, heq⟩ := ih
    refine ⟨_, .first (.segment (.map h)), fun hdots => ?_⟩
    rw [heq hdots]
  | name => exact ⟨_, .first (.segment .name), fun _ => rfl⟩
  | call => exact ⟨_, .first (.segment .call), fun _ => rfl⟩
  | chain _ ih => exact ih
  | dotted hdots _ ih =>
    obtain ⟨e', h, -⟩ := ih
    obtain ⟨e'', h'⟩ := h.dotted
    exact ⟨e'', h', fun hno => absurd hdots hno⟩
  | first _ ih =>
    obtain ⟨e', h, heq⟩ := ih
    exact ⟨e', .first h, heq⟩
  | next _ _ ihl ihr =>
    obtain ⟨l, hl, hleq⟩ := ihl
    obtain ⟨r, hr, hreq⟩ := ihr
    refine ⟨_, .next hl hr, fun hdots => ?_⟩
    rw [hleq hdots, hreq hdots]
  | field => exact ⟨_, .segment .field, fun _ => rfl⟩
  | index => exact ⟨_, .segment .index, fun _ => rfl⟩
  | each => exact ⟨_, .segment .each, fun _ => rfl⟩
  | optional _ ih =>
    obtain ⟨e', h, heq⟩ := ih
    refine ⟨_, .optional h, fun hdots => ?_⟩
    rw [heq hdots]
  | nonNull _ ih =>
    obtain ⟨e', h, heq⟩ := ih
    refine ⟨_, .nonNull h, fun hdots => ?_⟩
    rw [heq hdots]

end DimosViewer.Selector
