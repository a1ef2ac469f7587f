import DimosViewer.Selector.LexerLaws

/-!
# Selectors read back from their text

The lexer knows fewer escapes than `Debug` writes. What is written without these others is read
back as the same expression, and what is written with them is refused.
-/

namespace DimosViewer.Selector

open TokenType Lexer

inductive SelectorError
  | lex (err : LexError)
  | parse (err : ParseError)
  deriving DecidableEq

def fromStr (table : CharTable) (query : Text) : Option (Except SelectorError Expr) :=
  match lex table query with
  | .error err => some (.error (.lex err))
  | .ok tokens =>
    match Parser.parse tokens with
    | none => none
    | some (.error err) => some (.error (.parse err))
    | some (.ok e) => some (.ok e)

def RoundTrips (table : CharTable) (query : Text) : Prop :=
  ∀ e, fromStr table query = some (.ok e) → fromStr table (e.display table) = some (.ok e)

variable {table : CharTable}

theorem fromStr_eq_ok_iff :
    fromStr table query = some (.ok e) ↔
      ∃ tokens, lex table query = .ok tokens ∧ Parser.parse tokens = some (.ok e) := by
  rw [fromStr]
  constructor
  · intro h
    split at h
    · cases h
    · rename_i tokens hlex
      refine ⟨tokens, hlex, ?_⟩
      split at h
      · cases h
      · cases h
      · rename_i hparse
        rw [hparse]
        exact congrArg some (congrArg Except.ok (Except.ok.inj (Option.some.inj h)))
  · rintro ⟨tokens, hlex, hparse⟩
    rw [hlex]
    dsimp only
    rw [hparse]

-- ---------------------------------------------------------------------------
-- What a text shows
-- ---------------------------------------------------------------------------

def PlainTokens (table : CharTable) (ts : List TokenType) : Prop :=
  ∀ typ ∈ ts, ∀ c ∈ stringChars typ, Plain table c

theorem plainTokens_append :
    PlainTokens table (ts ++ us) ↔ PlainTokens table ts ∧ PlainTokens table us :=
  List.forall_mem_append

structure Shows (table : CharTable) (follow : Text → Prop) (text : Text) (ts : List TokenType) :
    Prop where
  prints : PlainTokens table ts → Prints table follow text ts
  breaks : ¬PlainTokens table ts → Breaks table text

theorem Shows.of_prints (h : Prints table follow text ts) (hplain : PlainTokens table ts) :
    Shows table follow text ts :=
  ⟨fun _ => h, fun hnot => absurd hplain hnot⟩

theorem Shows.append (h : Shows table follow text ts) (h' : Shows table follow' text' us)
    (hfollow : ∀ rest, follow (text' ++ rest)) :
    Shows table follow' (text ++ text') (ts ++ us) := by
  refine ⟨fun hplain => ?_, fun hnot => ?_⟩
  · obtain ⟨hts, hus⟩ := plainTokens_append.mp hplain
    exact (h.prints hts).append (h'.prints hus) fun rest _ => hfollow rest
  · by_cases hts : PlainTokens table ts
    · refine (h.prints hts).breaks (h'.breaks fun hus => ?_) hfollow
      exact hnot (plainTokens_append.mpr ⟨hts, hus⟩)
    · exact (h.breaks hts).append text'

theorem Shows.mono (h : Shows table follow text ts) (himp : ∀ rest, follow' rest → follow rest) :
    Shows table follow' text ts :=
  ⟨fun hplain => (h.prints hplain).mono himp, h.breaks⟩

theorem Shows.of_prints_one (h : Prints table follow text [typ]) (hchars : stringChars typ = []) :
    Shows table follow text [typ] := by
  refine .of_prints h ?_
  rintro _ (_ | ⟨_, ⟨⟩⟩) c hc
  rw [hchars] at hc
  cases hc

theorem shows_single (h : singleChar c = some typ) : Shows table Anything [c] [typ] :=
  .of_prints_one (prints_single h) (singleChar_reads table h).2.2

theorem shows_space : Shows table Anything [' '] [] :=
  .of_prints prints_space (List.forall_mem_nil _)

theorem shows_literal (argument : Literal) :
    Shows table Anything (argument.display table) [argument.token] := by
  cases argument with
  | string value =>
    refine ⟨fun hplain => prints_string (hplain _ List.mem_cons_self), fun hnot => ?_⟩
    refine breaks_string (Classical.byContradiction fun hall => hnot ?_)
    rintro _ (_ | ⟨_, ⟨⟩⟩) c hc
    exact Classical.byContradiction fun hc' => hall ⟨c, hc, hc'⟩

theorem shows_arguments (arguments : List Literal) :
    Shows table Anything (displayArguments table arguments) (argumentTokens arguments) := by
  cases arguments with
  | nil => exact .of_prints (fun s _ hchars _ => ⟨s, hchars, .refl s⟩) (List.forall_mem_nil _)
  | cons first more =>
    refine (shows_literal first).append ?_ fun _ => trivial
    induction more with
    | nil => exact .of_prints (fun s _ hchars _ => ⟨s, hchars, .refl s⟩) (List.forall_mem_nil _)
    | cons argument more ih =>
      have hsemicolon : Shows table Anything [';'] [semicolon] := shows_single rfl
      have hone := (hsemicolon.append shows_space fun _ => trivial).append (shows_literal argument)
        fun _ => trivial
      exact hone.append ih fun _ => trivial

-- ---------------------------------------------------------------------------
-- Expressions
-- ---------------------------------------------------------------------------

theorem Accepted.endsName (h : Accepted False .operated ts e) (rest : Text) :
    EndsName table (e.display table ++ rest) := by
  generalize hlevel : Level.operated = level at h
  induction h generalizing rest with
  | field => exact endsName_cons (by decide) (by decide) _
  | index => exact endsName_cons (by decide) (by decide) _
  | each => exact endsName_cons (by decide) (by decide) _
  | optional _ ih | nonNull _ ih =>
    rw [Expr.display, List.append_assoc]
    exact ih _ hlevel
  | _ => cases hlevel

theorem shows_name (h : Lexical table (ident name)) :
    Shows table (EndsName table) name [ident name] := by
  cases name with
  | nil => exact absurd h id
  | cons c name => exact .of_prints_one (prints_ident h.1 h.2) rfl

theorem lexical_map : Lexical table (ident Parser.MAP) := by
  have hletter {c : Char} (hascii : c.toNat < 128) (hletter : c.isAlpha = true) :
      table.isAlphabetic c = true := (table.alphabetic_ascii c hascii).trans hletter
  refine ⟨?_, ?_⟩
  · rw [startsName, hletter (by decide) (by decide)]
    rfl
  · intro d hd
    obtain rfl | rfl : d = 'a' ∨ d = 'p' := by simpa using hd
    · exact (isNameChar_ascii (by decide)).trans (by decide)
    · exact (isNameChar_ascii (by decide)).trans (by decide)

theorem shows_parens (h : Shows table (EndsName table) text ts) :
    Shows table Anything ('(' :: text ++ [')']) (lParen :: ts ++ [rParen]) := by
  have hopen : Shows table Anything ['('] [lParen] := shows_single rfl
  exact (hopen.append h fun _ => trivial).append (shows_single rfl)
    fun _ => endsName_cons (by decide) (by decide) _

theorem Accepted.shows (h : Accepted False level ts e) (hts : ∀ typ ∈ ts, Lexical table typ) :
    Shows table (EndsName table) (e.display table) ts := by
  induction h with
  | term _ ih | chain _ ih | first _ ih => exact ih hts
  | dotted hdots => exact absurd hdots id
  | pipe _ _ ihl ihr =>
    obtain ⟨hl, hr⟩ := List.forall_mem_append.mp hts
    have hbar : Shows table Anything [' ', '|', ' '] [TokenType.pipe] :=
      (shows_space.append (shows_single rfl) fun _ => trivial).append shows_space fun _ => trivial
    have hright := hbar.append (ihr fun typ htyp => hr typ (List.mem_cons_of_mem _ htyp))
      fun _ => trivial
    exact (ihl hl).append hright fun _ => endsName_cons (by decide) (by decide) _
  | identity => exact .of_prints_one prints_dot rfl
  | map _ ih =>
    have hbody := ih fun typ htyp => hts typ (by simp [htyp])
    exact ((shows_name lexical_map).append (shows_parens hbody)
      fun _ => endsName_cons (by decide) (by decide) _).mono fun _ _ => trivial
  | name => exact shows_name (hts _ List.mem_cons_self)
  | @call name arguments _ =>
    have hname := shows_name (hts _ List.mem_cons_self)
    have harguments : Shows table (EndsName table) _ (argumentTokens arguments) :=
      (shows_arguments arguments).mono fun _ _ => trivial
    rw [Expr.display, List.append_assoc]
    exact (hname.append (shows_parens harguments)
      fun _ => endsName_cons (by decide) (by decide) _).mono fun _ _ => trivial
  | next _ hright ihl ihr =>
    obtain ⟨hl, hr⟩ := List.forall_mem_append.mp hts
    exact (ihl hl).append (ihr hr) hright.endsName
  | @field name =>
    have hname : Lexical table (TokenType.field name) := hts _ List.mem_cons_self
    cases name with
    | nil => exact absurd hname id
    | cons c name => exact .of_prints_one (prints_field hname.1 hname.2) rfl
  | @index n =>
    have hopen : Shows table Anything ['['] [lBracket] := shows_single rfl
    have hnumber : Shows table (EndsName table) (Nat.toDigits 10 n.toNat) [integer n] :=
      .of_prints_one (prints_integer n) rfl
    exact ((hopen.append hnumber fun _ => trivial).append (shows_single rfl)
      fun _ => endsName_cons (by decide) (by decide) _).mono fun _ _ => trivial
  | each =>
    have hopen : Shows table Anything ['['] [lBracket] := shows_single rfl
    exact (hopen.append (shows_single rfl) fun _ => trivial).mono fun _ _ => trivial
  | optional _ ih | nonNull _ ih =>
    exact ((ih (List.forall_mem_append.mp hts).1).append (shows_single rfl)
      fun _ => endsName_cons (by decide) (by decide) _).mono fun _ _ => trivial

theorem Accepted.mem_tokens (h : Accepted dots level ts e) :
    ∀ typ ∈ ts, typ = dot ∨ typ ∈ e.tokens := by
  induction h with
  | term _ ih | chain _ ih | first _ ih => exact ih
  | dotted _ _ ih => exact List.forall_mem_cons.mpr ⟨.inl rfl, ih⟩
  | pipe _ _ ihl ihr =>
    rw [Expr.tokens]
    simp only [List.mem_append, List.mem_cons]
    grind
  | next _ _ ihl ihr =>
    rw [Expr.tokens]
    simp only [List.mem_append]
    grind
  | map _ ih =>
    rw [Expr.tokens]
    simp only [List.mem_append, List.mem_cons]
    grind
  | optional _ ih | nonNull _ ih =>
    rw [Expr.tokens]
    simp only [List.mem_append]
    grind
  | identity | name | call | field | index | each => exact fun typ htyp => .inr htyp

theorem Accepted.plainTokens_iff (h : Accepted dots level ts e) :
    PlainTokens table e.tokens ↔ PlainTokens table ts := by
  refine ⟨fun hplain typ htyp => ?_, fun hplain typ htyp => hplain typ (h.sublist.subset htyp)⟩
  obtain rfl | hmem := h.mem_tokens typ htyp
  · exact List.forall_mem_nil _
  · exact hplain typ hmem

-- ---------------------------------------------------------------------------
-- Main result
-- ---------------------------------------------------------------------------

theorem lex_of_prints (h : Prints table (EndsName table) text ts) :
    ∃ tokens, lex table text = .ok tokens ∧ tokens.map Token.typ = ts := by
  obtain ⟨s', hchars, hscans⟩ := h { chars := text } [] (List.append_nil _).symm endsName_nil
  obtain ⟨first, hlex, htypes⟩ := hscans.scanTokens (scanTokens_nil hchars)
  rw [List.append_nil] at hlex
  exact ⟨first, hlex, htypes⟩

theorem lex_of_breaks (h : Breaks table text) : ∃ err, lex table text = .error err :=
  (h { chars := text } [] (List.append_nil _).symm).scanTokens

/-- A selector is read back exactly if `Debug` writes no character of its strings with an escape
that the lexer does not know: `\r`, `\0` and the Unicode escapes. -/
theorem roundTrips_iff (h : fromStr table query = some (.ok e)) :
    RoundTrips table query ↔ ∀ c ∈ inQuotes false query, Plain table c := by
  obtain ⟨tokens, hlex, hparse⟩ := fromStr_eq_ok_iff.mp h
  obtain ⟨hlexical, hquotes⟩ := scanTokens_reads hlex
  have haccepted := Parser.parseTypes_eq_ok_iff.mp hparse
  have hundotted := haccepted.undotted
  have htokens : ∀ typ ∈ e.tokens, Lexical table typ := by
    intro typ htyp
    obtain ⟨token, htoken, rfl⟩ := List.mem_map.mp (haccepted.sublist.subset htyp)
    exact hlexical token htoken
  have hshows := hundotted.shows htokens
  have hplain : PlainTokens table e.tokens ↔ ∀ c ∈ inQuotes false query, Plain table c := by
    rw [haccepted.plainTokens_iff, hquotes]
    exact List.forall_mem_map
  rw [← hplain]
  constructor
  · refine fun hround => Classical.byContradiction fun hnot => ?_
    obtain ⟨err, herr⟩ := lex_of_breaks (hshows.breaks hnot)
    obtain ⟨again, hagain, -⟩ := fromStr_eq_ok_iff.mp (hround e h)
    rw [herr] at hagain
    cases hagain
  · intro htokens e' h'
    rw [h] at h'
    cases h'
    obtain ⟨again, hagain, htypes⟩ := lex_of_prints (hshows.prints htokens)
    refine fromStr_eq_ok_iff.mpr ⟨again, hagain, ?_⟩
    rw [Parser.parse, htypes]
    exact Parser.parseTypes_of_accepted hundotted

def plainQuery : Text := ".foo[0] | f(\"a\\n\")".toList

def plainExpr : Expr :=
  .pipe (.pipe (.field ['f', 'o', 'o']) (.index 0) true)
    (.function ['f'] (some [.string ['a', '\n']])) false

theorem roundTrips_iff_plainQuery :
    fromStr .asciiOnly plainQuery = some (.ok plainExpr) ∧ RoundTrips .asciiOnly plainQuery := by
  have hread : fromStr .asciiOnly plainQuery = some (.ok plainExpr) := by decide +kernel
  have hchars : inQuotes false plainQuery = ['a'] := by decide +kernel
  refine ⟨hread, (roundTrips_iff hread).mpr ?_⟩
  rw [hchars, List.forall_mem_singleton]
  decide

def returnQuery : Text := ['f', '(', '"', '\r', '"', ')']

theorem returnQuery_refused : ¬∀ table query, RoundTrips table query := by
  intro h
  have hread : fromStr .asciiOnly returnQuery =
      some (.ok (.function ['f'] (some [.string ['\r']]))) := by decide +kernel
  have hround := h .asciiOnly returnQuery _ hread
  revert hround
  decide +kernel

end DimosViewer.Selector
