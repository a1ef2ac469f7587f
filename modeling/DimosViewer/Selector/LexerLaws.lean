import DimosViewer.Selector.ParserLaws

/-!
# What the lexer makes of a text

A text prints tokens if the lexer reads just them from it, whatever stands behind it. It breaks
if the lexer fails in it.
-/

namespace DimosViewer.Selector

open TokenType

-- ---------------------------------------------------------------------------
-- Integers
-- ---------------------------------------------------------------------------

theorem toDigit_of_isDigit (h : c.isDigit = true) : toDigit 10 c = some (c.toNat - '0'.toNat) := by
  rw [Char.isDigit, Bool.and_eq_true, decide_eq_true_eq, decide_eq_true_eq] at h
  have hhigh : c.toNat ≤ 57 := UInt32.le_iff_toNat_le.mp h.2
  have hlt : c.toNat - 48 < 10 := by omega
  change Option.filter _ (if '0' ≤ c ∧ c ≤ '9' then _ else _) = _
  rw [if_pos ⟨h.1, h.2⟩]
  exact if_pos (decide_eq_true hlt)

theorem le_ofDigitChars (s : Text) (value : Nat) : value ≤ Nat.ofDigitChars 10 s value := by
  rw [Nat.ofDigitChars_eq_ofDigitChars_zero]
  have hpos : 1 * value ≤ 10 ^ s.length * value :=
    Nat.mul_le_mul_right value (Nat.pow_pos (by decide))
  omega

theorem parseDigits_ofDigitChars (hdigits : ∀ c ∈ s, c.isDigit = true)
    (hbound : Nat.ofDigitChars 10 s value ≤ bound) :
    parseDigits bound overflow value s = .ok (Nat.ofDigitChars 10 s value) := by
  induction s generalizing value with
  | nil => rw [parseDigits, Nat.ofDigitChars_nil]
  | cons c rest ih =>
    rw [Nat.ofDigitChars_cons, Nat.mul_comm] at hbound ⊢
    have hle := Nat.le_trans (le_ofDigitChars rest _) hbound
    rw [parseDigits, toDigit_of_isDigit (hdigits c List.mem_cons_self)]
    dsimp only
    rw [if_pos hle, ih (fun d hd => hdigits d (List.mem_cons_of_mem c hd)) hbound]

theorem parseUnsigned_toDigits (h : n < 2 ^ bits) :
    parseUnsigned bits (Nat.toDigits 10 n) = .ok n := by
  have hdigits : ∀ c ∈ Nat.toDigits 10 n, c.isDigit = true := fun c hc =>
    Nat.isDigit_of_mem_toDigits (by decide) (by decide) hc
  have hparse : parseDigits (2 ^ bits - 1) .posOverflow 0 (Nat.toDigits 10 n) = .ok n := by
    rw [parseDigits_ofDigitChars hdigits]
    · rw [Nat.ofDigitChars_ten_toDigits]
    · rw [Nat.ofDigitChars_ten_toDigits]
      exact Nat.le_sub_one_of_lt h
  rw [← hparse, parseUnsigned]
  · exact Nat.toDigits_ne_nil
  · intro hplus
    rw [hplus] at hdigits
    exact absurd (hdigits '+' List.mem_cons_self) (by decide)
  · intro hminus
    rw [hminus] at hdigits
    exact absurd (hdigits '-' List.mem_cons_self) (by decide)
  · intro rest hplus
    rw [hplus] at hdigits
    exact absurd (hdigits '+' List.mem_cons_self) (by decide)

namespace Lexer

variable (table : CharTable)

-- ---------------------------------------------------------------------------
-- The lexer as a relation
-- ---------------------------------------------------------------------------

def cleared (s : Lexer) : Lexer := { s with lexemeBuffer := [] }

inductive Scans : Lexer → List TokenType → Lexer → Prop
  | refl (s : Lexer) : Scans s [] s
  | step (h : scanToken table s.cleared = .ok (token, s')) (rest : Scans s' ts s'') :
      Scans s (token.toList.map Token.typ ++ ts) s''

def Fails (s : Lexer) : Prop :=
  ∃ ts s' err, Scans table s ts s' ∧ s'.chars ≠ [] ∧ scanToken table s'.cleared = .error err

variable {table} {s s' s'' : Lexer} {ts us : List TokenType}

theorem Scans.trans (h : Scans table s ts s') (h' : Scans table s' us s'') :
    Scans table s (ts ++ us) s'' := by
  induction h with
  | refl => exact h'
  | step h _ ih =>
    rw [List.append_assoc]
    exact .step h (ih h')

theorem Scans.single (h : scanToken table s.cleared = .ok (token, s')) :
    Scans table s (token.toList.map Token.typ) s' := by
  have hstep := Scans.step h (.refl s')
  rw [List.append_nil] at hstep
  exact hstep

theorem Scans.fails (h : Scans table s ts s') (h' : Fails table s') : Fails table s := by
  obtain ⟨us, s'', err, hscans, hchars, herr⟩ := h'
  exact ⟨ts ++ us, s'', err, h.trans hscans, hchars, herr⟩

theorem chars_ne_nil (h : scanToken table s.cleared = .ok (token, s')) : s.chars ≠ [] := by
  intro hnil
  have hshorter := scanToken_shortens table h
  rw [cleared, hnil] at hshorter
  exact absurd hshorter (Nat.not_lt_zero _)

theorem scanTokens_step (h : scanToken table s.cleared = .ok (token, s')) :
    scanTokens table s = (scanTokens table s').map (token.toList ++ ·) := by
  rw [scanTokens, if_neg (chars_ne_nil h)]
  split
  · rename_i err herr
    rw [cleared] at h
    rw [h] at herr
    cases herr
  · rename_i token' next hnext
    rw [cleared] at h
    rw [h] at hnext
    cases hnext
    rfl

theorem scanTokens_error (hchars : s.chars ≠ []) (h : scanToken table s.cleared = .error err) :
    scanTokens table s = .error err := by
  rw [scanTokens, if_neg hchars]
  split
  · rename_i err' herr
    rw [cleared] at h
    rw [h] at herr
    cases herr
    rfl
  · rename_i hnext
    rw [cleared] at h
    rw [h] at hnext
    cases hnext

theorem scanTokens_nil (h : s.chars = []) : scanTokens table s = .ok [] := by
  rw [scanTokens, if_pos h]

theorem Scans.scanTokens (h : Scans table s ts s')
    (hrest : Lexer.scanTokens table s' = .ok tokens) :
    ∃ first, Lexer.scanTokens table s = .ok (first ++ tokens) ∧ first.map Token.typ = ts := by
  induction h with
  | refl => exact ⟨[], hrest, rfl⟩
  | @step token _ _ _ _ h _ ih =>
    obtain ⟨first, hfirst, htypes⟩ := ih hrest
    refine ⟨token.toList ++ first, ?_, ?_⟩
    · rw [scanTokens_step h, hfirst, List.append_assoc]
      rfl
    · rw [List.map_append, htypes]

theorem Fails.scanTokens (h : Fails table s) : ∃ err, Lexer.scanTokens table s = .error err := by
  obtain ⟨ts, s', err, hscans, hchars, herr⟩ := h
  refine ⟨err, ?_⟩
  induction hscans with
  | refl => exact scanTokens_error hchars herr
  | step h _ ih =>
    rw [scanTokens_step h, ih hchars herr]
    rfl

-- ---------------------------------------------------------------------------
-- Texts
-- ---------------------------------------------------------------------------

def EndsName (table : CharTable) (rest : Text) : Prop :=
  ∀ c ∈ rest.head?, isNameChar table c = false

def Anything (_ : Text) : Prop := True

def Prints (table : CharTable) (follow : Text → Prop) (text : Text) (ts : List TokenType) : Prop :=
  ∀ s rest, s.chars = text ++ rest → follow rest → ∃ s', s'.chars = rest ∧ Scans table s ts s'

def Breaks (table : CharTable) (text : Text) : Prop :=
  ∀ s rest, s.chars = text ++ rest → Fails table s

theorem Prints.mono (h : Prints table follow text ts) (himp : ∀ rest, follow' rest → follow rest) :
    Prints table follow' text ts :=
  fun s rest hchars hrest => h s rest hchars (himp rest hrest)

theorem Prints.append (h : Prints table follow text ts) (h' : Prints table follow' text' us)
    (hfollow : ∀ rest, follow' rest → follow (text' ++ rest)) :
    Prints table follow' (text ++ text') (ts ++ us) := by
  intro s rest hchars hrest
  rw [List.append_assoc] at hchars
  obtain ⟨s', hchars', hscans⟩ := h s _ hchars (hfollow rest hrest)
  obtain ⟨s'', hchars'', hscans'⟩ := h' s' rest hchars' hrest
  exact ⟨s'', hchars'', hscans.trans hscans'⟩

theorem Breaks.append (h : Breaks table text) (text' : Text) : Breaks table (text ++ text') := by
  intro s rest hchars
  rw [List.append_assoc] at hchars
  exact h s _ hchars

theorem Prints.breaks (h : Prints table follow text ts) (h' : Breaks table text')
    (hfollow : ∀ rest, follow (text' ++ rest)) : Breaks table (text ++ text') := by
  intro s rest hchars
  rw [List.append_assoc] at hchars
  obtain ⟨s', hchars', hscans⟩ := h s _ hchars (hfollow rest)
  exact hscans.fails (h' s' rest hchars')

-- ---------------------------------------------------------------------------
-- Characters
-- ---------------------------------------------------------------------------

def startsName (table : CharTable) (c : Char) : Bool := table.isAlphabetic c || c == '_'

theorem not_startsName (hascii : c.toNat < 128) (halpha : c.isAlpha = false) (hne : c ≠ '_') :
    startsName table c = false := by
  rw [startsName, table.alphabetic_ascii c hascii, halpha]
  simpa using hne

theorem isNameChar_ascii (hascii : c.toNat < 128) :
    isNameChar table c = (c.isAlpha || c.isDigit || c == '-' || c == '_') := by
  rw [isNameChar, table.alphabetic_ascii c hascii, table.numeric_ascii c hascii]

theorem toNat_of_isDigit (h : Char.isDigit c = true) : c.toNat < 128 ∧ c.isAlpha = false := by
  rw [Char.isDigit, Bool.and_eq_true, decide_eq_true_eq, decide_eq_true_eq] at h
  have hlow : 48 ≤ c.toNat := UInt32.le_iff_toNat_le.mp h.1
  have hhigh : c.toNat ≤ 57 := UInt32.le_iff_toNat_le.mp h.2
  refine ⟨by omega, ?_⟩
  have hupper : c.isUpper = false := by
    refine decide_eq_false fun hupper => ?_
    have : 65 ≤ c.toNat := UInt32.le_iff_toNat_le.mp hupper.1
    omega
  have hlower : c.isLower = false := by
    refine Bool.eq_false_iff.mpr fun hlower => ?_
    have hboth : (decide (c.val ≥ 'a'.val) && decide (c.val ≤ 'z'.val)) = true := hlower
    rw [Bool.and_eq_true, decide_eq_true_eq] at hboth
    have : 97 ≤ c.toNat := UInt32.le_iff_toNat_le.mp hboth.1
    omega
  change (c.isUpper || c.isLower) = false
  rw [hupper, hlower]
  rfl

theorem endsName_cons (hascii : c.toNat < 128)
    (h : (c.isAlpha || c.isDigit || c == '-' || c == '_') = false) (rest : Text) :
    EndsName table (c :: rest) := by
  rintro d ⟨⟩
  rw [isNameChar_ascii hascii, h]

theorem endsName_nil : EndsName table [] := by
  rintro d ⟨⟩

theorem startsName_cases (h : startsName table c = true) :
    ¬(c = ' ' ∨ c = '\r' ∨ c = '\t') ∧ c ≠ '\n' ∧ singleChar c = none ∧ c ≠ '"' ∧ c ≠ '.' ∧
      c.isDigit = false := by
  have hascii {d : Char} (hd : d.toNat < 128) (halpha : d.isAlpha = false) (hne : d ≠ '_') :
      c ≠ d := by
    rintro rfl
    rw [not_startsName hd halpha hne] at h
    cases h
  refine ⟨?_, hascii (by decide) (by decide) (by decide), ?_,
    hascii (by decide) (by decide) (by decide), hascii (by decide) (by decide) (by decide), ?_⟩
  · rintro (rfl | rfl | rfl)
    · exact hascii (by decide) (by decide) (by decide) rfl
    · exact hascii (by decide) (by decide) (by decide) rfl
    · exact hascii (by decide) (by decide) (by decide) rfl
  · rw [singleChar.eq_def]
    split
    case h_9 => rfl
    all_goals exact absurd rfl (hascii (by decide) (by decide) (by decide))
  · refine Bool.eq_false_iff.mpr fun hdigit => ?_
    obtain ⟨hlt, halpha⟩ := toNat_of_isDigit hdigit
    refine hascii hlt halpha ?_ rfl
    rintro rfl
    exact absurd hdigit (by decide)

-- ---------------------------------------------------------------------------
-- Single tokens
-- ---------------------------------------------------------------------------

def advanced (s : Lexer) (c : Char) (rest : Text) : Lexer :=
  { s with chars := rest, column := s.column + 1, lexemeBuffer := [c] }

theorem scanToken_cleared (h : s.chars = c :: rest) :
    scanToken table s.cleared = scanAfter table c (s.advanced c rest) := by
  rw [scanToken, cleared]
  dsimp only
  rw [h]
  rfl

theorem prints_of_scanAfter {follow : Text → Prop} {typ : List TokenType}
    (h : ∀ s rest, follow rest → ∃ token s', s'.chars = rest ∧
      scanAfter table c (advanced s c (text ++ rest)) = .ok (token, s') ∧
      token.toList.map Token.typ = typ) : Prints table follow (c :: text) typ := by
  intro s rest hchars hrest
  obtain ⟨token, s', hs', hscan, htyp⟩ := h s rest hrest
  refine ⟨s', hs', ?_⟩
  rw [← htyp]
  exact .single ((scanToken_cleared hchars).trans hscan)

theorem prints_space : Prints table Anything [' '] [] :=
  prints_of_scanAfter fun s rest _ => ⟨none, s.advanced ' ' rest, rfl, rfl, rfl⟩

theorem prints_single (h : singleChar c = some typ) : Prints table Anything [c] [typ] := by
  refine prints_of_scanAfter fun s rest _ => ?_
  refine ⟨some ((s.advanced c rest).makeToken typ), s.advanced c rest, rfl, ?_, rfl⟩
  rw [scanAfter, if_neg, if_neg, h]
  · rfl
  · rintro rfl
    cases h
  · rintro (rfl | rfl | rfl) <;> cases h

theorem prints_dot : Prints table (EndsName table) ['.'] [dot] := by
  refine prints_of_scanAfter fun s rest hrest => ?_
  have hpeek : (s.advanced '.' rest).peekAlphabetic table = false := by
    rw [peekAlphabetic, advanced]
    cases rest with
    | nil => rfl
    | cons d rest =>
      have hname := hrest d rfl
      rw [isNameChar, Bool.or_eq_false_iff, Bool.or_eq_false_iff, Bool.or_eq_false_iff] at hname
      exact hname.1.1.1
  refine ⟨some ((s.advanced '.' rest).makeToken dot), s.advanced '.' rest, rfl, ?_, rfl⟩
  rw [scanAfter, if_neg (by decide), if_neg (by decide)]
  change (if '.' = '"' then _ else _) = _
  rw [if_neg (by decide), if_pos rfl, List.nil_append, hpeek]
  rfl

theorem advanceWhile_append (hname : ∀ d ∈ name, p d = true) (hrest : ∀ d ∈ rest.head?, p d = false)
    (hchars : s.chars = name ++ rest) :
    (s.advanceWhile p).chars = rest ∧ (s.advanceWhile p).lexemeBuffer = s.lexemeBuffer ++ name := by
  have htake : rest.takeWhile p = [] := by
    cases rest with
    | nil => rfl
    | cons d rest => rw [List.takeWhile_cons, hrest d rfl, if_neg (by decide)]
  have hdrop : rest.dropWhile p = rest := by
    cases rest with
    | nil => rfl
    | cons d rest => rw [List.dropWhile_cons, hrest d rfl, if_neg (by decide)]
  constructor
  · rw [advanceWhile, hchars, List.dropWhile_append_of_pos hname, hdrop]
  · rw [advanceWhile, hchars, List.takeWhile_append_of_pos hname, htake, List.append_nil]

theorem prints_field (hfirst : table.isAlphabetic c = true)
    (hname : ∀ d ∈ name, isNameChar table d = true) :
    Prints table (EndsName table) ('.' :: c :: name) [field (c :: name)] := by
  refine prints_of_scanAfter fun s rest hrest => ?_
  have hall : ∀ d ∈ c :: name, isNameChar table d = true := by
    intro d hd
    obtain rfl | hd := List.mem_cons.mp hd
    · rw [isNameChar, hfirst]
      rfl
    · exact hname d hd
  obtain ⟨hchars, hbuffer⟩ := advanceWhile_append hall hrest
    (s := { s.advanced '.' (c :: name ++ rest) with lexemeBuffer := [] }) rfl
  let made := makeField table { s.advanced '.' (c :: name ++ rest) with lexemeBuffer := [] }
  refine ⟨some made.1, made.2, hchars, ?_, ?_⟩
  · rw [scanAfter, if_neg (by decide), if_neg (by decide)]
    change (if '.' = '"' then _ else _) = _
    rw [if_neg (by decide), if_pos rfl, peekAlphabetic]
    change (if Option.any _ (some c) then _ else _) = _
    rw [Option.any_some, if_pos hfirst]
  · change [field (advanceWhile _ _).lexemeBuffer] = _
    rw [hbuffer]
    rfl

theorem prints_ident (hfirst : startsName table c = true)
    (hname : ∀ d ∈ name, isNameChar table d = true) :
    Prints table (EndsName table) (c :: name) [ident (c :: name)] := by
  refine prints_of_scanAfter fun s rest hrest => ?_
  obtain ⟨hspace, hnewline, hsingle, hquote, hdot, hdigit⟩ := startsName_cases hfirst
  obtain ⟨hchars, hbuffer⟩ := advanceWhile_append hname hrest
    (s := s.advanced c (name ++ rest)) rfl
  let made := makeBareIdentifier table (s.advanced c (name ++ rest))
  refine ⟨some made.1, made.2, hchars, ?_, ?_⟩
  · rw [scanAfter, if_neg hspace, if_neg hnewline, hsingle]
    dsimp only
    rw [startsName] at hfirst
    rw [if_neg hquote, if_neg hdot, hdigit, if_neg (by decide), if_pos hfirst]
  · change [ident (advanceWhile _ _).lexemeBuffer] = _
    rw [hbuffer]
    rfl

-- ---------------------------------------------------------------------------
-- Numbers
-- ---------------------------------------------------------------------------

theorem not_isDigit_of_endsName (h : EndsName table rest) : ∀ d ∈ rest.head?, d.isDigit = false := by
  intro d hd
  refine Bool.eq_false_iff.mpr fun hdigit => ?_
  have hname := h d hd
  rw [isNameChar_ascii (toNat_of_isDigit hdigit).1, hdigit] at hname
  simp at hname

theorem isDigit_cases (h : Char.isDigit c = true) :
    ¬(c = ' ' ∨ c = '\r' ∨ c = '\t') ∧ c ≠ '\n' ∧ singleChar c = none ∧ c ≠ '"' ∧ c ≠ '.' := by
  have hne {d : Char} (hd : d.isDigit = false) : c ≠ d := by
    rintro rfl
    rw [hd] at h
    cases h
  refine ⟨?_, hne (by decide), ?_, hne (by decide), hne (by decide)⟩
  · rintro (rfl | rfl | rfl)
    · exact hne (by decide) rfl
    · exact hne (by decide) rfl
    · exact hne (by decide) rfl
  · rw [singleChar.eq_def]
    split
    case h_9 => rfl
    all_goals exact absurd rfl (hne (by decide))

theorem makeNumber_eq_ok {s : Lexer}
    (h : parseUnsigned 64 (s.advanceWhile Char.isDigit).lexemeBuffer = .ok n) :
    s.makeNumber = .ok (⟨integer (.ofNat n), s.line⟩,
      { s.advanceWhile Char.isDigit with lexemeBuffer := [] }) := by
  simp only [makeNumber, h]
  rfl

theorem prints_integer (n : UInt64) :
    Prints table (EndsName table) (Nat.toDigits 10 n.toNat) [integer n] := by
  have hdigits : ∀ c ∈ Nat.toDigits 10 n.toNat, c.isDigit = true := fun c hc =>
    Nat.isDigit_of_mem_toDigits (by decide) (by decide) hc
  have hparse := parseUnsigned_toDigits n.toNat_lt
  revert hdigits hparse
  cases htext : Nat.toDigits 10 n.toNat with
  | nil => exact absurd htext Nat.toDigits_ne_nil
  | cons c digits =>
    intro hdigits hparse
    refine prints_of_scanAfter fun s rest hrest => ?_
    have hfirst := hdigits c List.mem_cons_self
    obtain ⟨hspace, hnewline, hsingle, hquote, hdot⟩ := isDigit_cases hfirst
    obtain ⟨hchars, hbuffer⟩ := advanceWhile_append
      (fun d hd => hdigits d (List.mem_cons_of_mem c hd)) (not_isDigit_of_endsName hrest)
      (s := s.advanced c (digits ++ rest)) rfl
    let after := (s.advanced c (digits ++ rest)).advanceWhile Char.isDigit
    have hlexeme : parseUnsigned 64 after.lexemeBuffer = .ok n.toNat := by
      rw [hbuffer]
      exact hparse
    refine ⟨some ⟨integer n, after.line⟩, { after with lexemeBuffer := [] }, hchars, ?_, rfl⟩
    rw [scanAfter, if_neg hspace, if_neg hnewline, hsingle]
    dsimp only
    rw [if_neg hquote, if_neg hdot, if_pos hfirst, makeNumber_eq_ok hlexeme,
      UInt64.ofNat_toNat]
    rfl

-- ---------------------------------------------------------------------------
-- Strings
-- ---------------------------------------------------------------------------

/-- A character that the lexer reads back from how it is written. -/
def Plain (table : CharTable) (c : Char) : Prop :=
  match escapeDebug table c with
  | .printable _ => True
  | .backslash escaped => escaped ∈ ['\\', '"', 'n', 't']
  | .unicode _ => False

instance (table : CharTable) : DecidablePred (Plain table) := fun c => by
  unfold Plain
  split <;> infer_instance

def Writes (c : Char) : DebugChar → Prop
  | .printable d => d = c ∧ c ≠ '"' ∧ c ≠ '\\'
  | .backslash d => (d, c) ∈
      [('0', '\x00'), ('t', '\t'), ('r', '\r'), ('n', '\n'), ('\\', '\\'), ('"', '"')]
  | .unicode d => d = c

theorem escapeDebug_writes (table : CharTable) (c : Char) : Writes c (escapeDebug table c) := by
  have hif {p : Prop} [Decidable p] {a b : DebugChar} (hpos : p → Writes c a)
      (hneg : ¬p → Writes c b) : Writes c (if p then a else b) := by
    split
    · exact hpos ‹_›
    · exact hneg ‹_›
  rw [escapeDebug]
  refine hif (by rintro rfl; simp [Writes]) fun _ => ?_
  refine hif (by rintro rfl; simp [Writes]) fun _ => ?_
  refine hif (by rintro rfl; simp [Writes]) fun _ => ?_
  refine hif (by rintro rfl; simp [Writes]) fun _ => ?_
  refine hif (by rintro rfl; simp [Writes]) fun hbackslash => ?_
  refine hif (by rintro rfl; simp [Writes]) fun hquote => ?_
  refine hif (fun _ => rfl) fun _ => ?_
  exact hif (fun _ => ⟨rfl, hquote, hbackslash⟩) fun _ => rfl

theorem scanString_plain (h : Plain table c) (line startColumn column : Nat) (rest value : Text) :
    ∃ column', scanString line startColumn ((escapeDebug table c).text ++ rest) column value =
      scanString line startColumn rest column' (value ++ [c]) := by
  have hwrites := escapeDebug_writes table c
  rw [Plain] at h
  cases hc : escapeDebug table c with
  | printable d =>
    rw [hc] at hwrites
    obtain ⟨rfl, hquote, hbackslash⟩ := hwrites
    refine ⟨column + 1, ?_⟩
    rw [DebugChar.text, List.singleton_append, scanString]
    · exact hquote
    · exact fun h => absurd h hbackslash
    · exact fun _ h => absurd h hbackslash
    · exact fun _ h => absurd h hbackslash
    · exact fun _ h => absurd h hbackslash
    · exact fun _ h => absurd h hbackslash
    · exact fun _ _ h => absurd h hbackslash
  | backslash d =>
    rw [hc] at hwrites h
    refine ⟨column + 2, ?_⟩
    simp only [Writes, List.mem_cons, Prod.mk.injEq, List.not_mem_nil, or_false] at hwrites
    obtain ⟨rfl, rfl⟩ | ⟨rfl, rfl⟩ | ⟨rfl, rfl⟩ | ⟨rfl, rfl⟩ | ⟨rfl, rfl⟩ | ⟨rfl, rfl⟩ := hwrites
    · exact absurd h (by decide)
    · rfl
    · exact absurd h (by decide)
    · rfl
    · rfl
    · rfl
  | unicode d =>
    rw [hc] at h
    exact absurd h id

theorem scanString_not_plain (h : ¬Plain table c) (line startColumn column : Nat)
    (rest value : Text) :
    ∃ err, scanString line startColumn ((escapeDebug table c).text ++ rest) column value =
      .error err := by
  have hwrites := escapeDebug_writes table c
  rw [Plain] at h
  cases hc : escapeDebug table c with
  | printable d =>
    rw [hc] at h
    exact absurd trivial h
  | backslash d =>
    rw [hc] at hwrites h
    simp only [Writes, List.mem_cons, Prod.mk.injEq, List.not_mem_nil, or_false] at hwrites
    obtain ⟨rfl, rfl⟩ | ⟨rfl, rfl⟩ | ⟨rfl, rfl⟩ | ⟨rfl, rfl⟩ | ⟨rfl, rfl⟩ | ⟨rfl, rfl⟩ := hwrites
    · exact ⟨_, rfl⟩
    · exact absurd (by decide) h
    · exact ⟨_, rfl⟩
    · exact absurd (by decide) h
    · exact absurd (by decide) h
    · exact absurd (by decide) h
  | unicode d => exact ⟨_, rfl⟩

/-- The text of a string up to its closing quote. -/
def escaped (table : CharTable) (value : Text) : Text :=
  value.flatMap fun c => (escapeDebug table c).text

theorem scanString_escaped (h : ∀ c ∈ value, Plain table c) (line startColumn column : Nat)
    (rest read : Text) :
    ∃ column', scanString line startColumn (escaped table value ++ '"' :: rest) column read =
      .ok (read ++ value, rest, column') := by
  induction value generalizing column read with
  | nil =>
    refine ⟨column + 1, ?_⟩
    rw [escaped, List.flatMap_nil, List.nil_append, scanString, List.append_nil]
  | cons c value ih =>
    rw [escaped, List.flatMap_cons, List.append_assoc]
    obtain ⟨column', hc⟩ := scanString_plain (h c List.mem_cons_self) line startColumn column
      (escaped table value ++ '"' :: rest) read
    obtain ⟨column'', hvalue⟩ := ih (fun d hd => h d (List.mem_cons_of_mem c hd)) column'
      (read ++ [c])
    refine ⟨column'', ?_⟩
    rw [List.append_assoc, List.singleton_append] at hvalue
    exact hc.trans hvalue

theorem scanString_escaped_error (h : ∃ c ∈ value, ¬Plain table c)
    (line startColumn column : Nat) (rest read : Text) :
    ∃ err, scanString line startColumn (escaped table value ++ rest) column read =
      .error err := by
  induction value generalizing column read with
  | nil =>
    obtain ⟨c, hc, -⟩ := h
    cases hc
  | cons c value ih =>
    rw [escaped, List.flatMap_cons, List.append_assoc]
    by_cases hplain : Plain table c
    · obtain ⟨column', hc⟩ := scanString_plain hplain line startColumn column
        (escaped table value ++ rest) read
      rw [← escaped, hc]
      refine ih ?_ column' _
      obtain ⟨d, hd, hnot⟩ := h
      obtain rfl | hd := List.mem_cons.mp hd
      · exact absurd hplain hnot
      · exact ⟨d, hd, hnot⟩
    · exact scanString_not_plain hplain line startColumn column _ read

theorem scanAfter_quote (s : Lexer) :
    scanAfter table '"' s = s.makeString.map fun r => (some r.1, r.2) := by
  rw [scanAfter, if_neg (by decide), if_neg (by decide)]
  rfl

theorem prints_string (h : ∀ c ∈ value, Plain table c) :
    Prints table Anything (debugString table value) [stringLiteral value] := by
  rw [debugString, ← escaped]
  refine prints_of_scanAfter fun s rest _ => ?_
  obtain ⟨column, hscan⟩ := scanString_escaped h s.line (s.column + 1) (s.column + 1) rest []
  refine ⟨some ⟨stringLiteral value, s.line⟩, { s.advanced '"' rest with column := column }, rfl,
    ?_, rfl⟩
  rw [scanAfter_quote, makeString, advanced]
  dsimp only
  change Except.map _ (Except.map _ (scanString _ _ ((escaped table value ++ ['"']) ++ rest) _ _)) = _
  rw [List.append_assoc, List.singleton_append, hscan]
  rfl

theorem breaks_string (h : ∃ c ∈ value, ¬Plain table c) :
    Breaks table (debugString table value) := by
  intro s rest hchars
  have hcons : '"' :: escaped table value ++ ['"'] ++ rest =
      '"' :: (escaped table value ++ (['"'] ++ rest)) := by
    rw [List.append_assoc, List.cons_append]
  rw [debugString, ← escaped, hcons] at hchars
  obtain ⟨err, hscan⟩ := scanString_escaped_error h s.line (s.column + 1) (s.column + 1)
    (['"'] ++ rest) []
  refine ⟨[], s, err, .refl s, ?_, ?_⟩
  · rw [hchars]
    exact List.cons_ne_nil _ _
  · rw [scanToken_cleared hchars, scanAfter_quote, makeString, advanced]
    dsimp only
    rw [hscan]
    rfl

-- ---------------------------------------------------------------------------
-- What a scan can do
-- ---------------------------------------------------------------------------

def Lexical (table : CharTable) : TokenType → Prop
  | field (c :: name) => table.isAlphabetic c = true ∧ ∀ d ∈ name, isNameChar table d = true
  | ident (c :: name) => startsName table c = true ∧ ∀ d ∈ name, isNameChar table d = true
  | field [] | ident [] => False
  | _ => True

def stringChars : TokenType → Text
  | stringLiteral value => value
  | _ => []

inductive Reads (table : CharTable) : Char → Text → Option TokenType → Text → Prop
  | unquoted {c : Char} {text piece rest : Text} {token : Option TokenType}
      (htext : text = piece ++ rest) (hquote : '"' ∉ c :: piece)
      (htyp : ∀ typ ∈ token, Lexical table typ ∧ stringChars typ = []) :
      Reads table c text token rest
  | string {line column : Nat} {text read : Text} {scanned : Text × Nat}
      (h : scanString line column text column [] = .ok (read, scanned)) :
      Reads table '"' text (some (stringLiteral read)) scanned.1

theorem not_mem_takeWhile (text : Text) (h : p '"' = false) : '"' ∉ text.takeWhile p := by
  intro hmem
  have hall := List.all_eq_true.mp (List.all_takeWhile (p := p) (l := text)) _ hmem
  rw [h] at hall
  cases hall

theorem quote_not_isNameChar : isNameChar table '"' = false :=
  isNameChar_ascii (by decide)

theorem singleChar_reads (table : CharTable) (h : singleChar c = some typ) :
    c ≠ '"' ∧ Lexical table typ ∧ stringChars typ = [] := by
  rw [singleChar.eq_def] at h
  split at h <;> cases h <;> exact ⟨by decide, trivial, rfl⟩

theorem scanAfter_reads (hbuffer : s.lexemeBuffer = [c])
    (h : scanAfter table c s = .ok (token, s')) :
    Reads table c s.chars (token.map Token.typ) s'.chars := by
  have hnone (hquote : c ≠ '"') : Reads table c s.chars none s.chars :=
    by
    refine .unquoted (List.nil_append _).symm (by simpa using hquote.symm) ?_
    rintro _ ⟨⟩
  rw [scanAfter] at h
  split at h
  case isTrue hspace =>
    cases h
    refine hnone ?_
    obtain rfl | rfl | rfl := hspace <;> decide
  split at h
  case isTrue hnewline =>
    cases h
    refine hnone ?_
    rw [hnewline]
    decide
  split at h
  case h_1 typ hsingle =>
    cases h
    obtain ⟨hquote, htyp⟩ := singleChar_reads table hsingle
    refine .unquoted (List.nil_append _).symm (by simpa using hquote.symm) ?_
    rintro _ ⟨⟩
    exact htyp
  split at h
  case isTrue hquote =>
    subst hquote
    obtain ⟨made, hmake, heq⟩ := map_eq_ok h
    cases heq
    obtain ⟨scanned, hscan, rfl⟩ := map_eq_ok hmake
    exact .string hscan
  rename_i hquote
  have hpiece {p : Char → Bool} (h : p '"' = false) : '"' ∉ c :: s.chars.takeWhile p := by
    rw [List.mem_cons, not_or]
    exact ⟨Ne.symm hquote, not_mem_takeWhile _ h⟩
  have hadvanced (p : Char → Bool) : s.chars = s.chars.takeWhile p ++ (s.advanceWhile p).chars :=
    List.takeWhile_append_dropWhile.symm
  have hnames (name : Text) : ∀ d ∈ name.takeWhile (isNameChar table), isNameChar table d = true :=
    List.all_eq_true.mp List.all_takeWhile
  split at h
  case isTrue hdot =>
    split at h
    case isTrue hpeek =>
      cases h
      refine .unquoted (hadvanced _) (hpiece quote_not_isNameChar) ?_
      rintro _ ⟨⟩
      refine ⟨?_, rfl⟩
      rw [peekAlphabetic] at hpeek
      change Lexical table (field ([] ++ s.chars.takeWhile (isNameChar table)))
      cases hchars : s.chars with
      | nil =>
        rw [hchars] at hpeek
        cases hpeek
      | cons d rest =>
        rw [hchars] at hpeek
        change table.isAlphabetic d = true at hpeek
        have hname : isNameChar table d = true := by
          rw [isNameChar, hpeek]
          rfl
        rw [List.takeWhile_cons, if_pos hname]
        exact ⟨hpeek, hnames rest⟩
    case isFalse =>
      cases h
      refine .unquoted (List.nil_append _).symm (by simpa using Ne.symm hquote) ?_
      rintro _ ⟨⟩
      exact ⟨trivial, rfl⟩
  split at h
  · obtain ⟨made, hmake, heq⟩ := map_eq_ok h
    cases heq
    rw [makeNumber] at hmake
    split at hmake
    · cases hmake
    · cases hmake
      refine .unquoted (hadvanced _) (hpiece (by decide)) ?_
      rintro _ ⟨⟩
      exact ⟨trivial, rfl⟩
  split at h
  case isTrue hfirst =>
    cases h
    refine .unquoted (hadvanced _) (hpiece quote_not_isNameChar) ?_
    rintro _ ⟨⟩
    refine ⟨?_, rfl⟩
    change Lexical table (ident (s.lexemeBuffer ++ s.chars.takeWhile (isNameChar table)))
    rw [hbuffer]
    exact ⟨hfirst, hnames s.chars⟩
  · cases h

-- ---------------------------------------------------------------------------
-- Characters in quotes
-- ---------------------------------------------------------------------------

def inQuotes : (inside : Bool) → Text → Text
  | _, [] => []
  | false, c :: rest => inQuotes (c == '"') rest
  | true, '"' :: rest => inQuotes false rest
  | true, ['\\'] => []
  | true, '\\' :: _ :: rest => inQuotes true rest
  | true, c :: rest => c :: inQuotes true rest

theorem inQuotes_append (h : '"' ∉ piece) (rest : Text) :
    inQuotes false (piece ++ rest) = inQuotes false rest := by
  induction piece with
  | nil => rfl
  | cons c piece ih =>
    rw [List.mem_cons, not_or] at h
    have hne : (c == '"') = false := beq_false_of_ne (Ne.symm h.1)
    rw [List.cons_append, inQuotes, hne, ih h.2]

theorem plain_escapes (table : CharTable) :
    Plain table '\\' ∧ Plain table '"' ∧ Plain table '\n' ∧ Plain table '\t' := by
  refine ⟨?_, ?_, ?_, ?_⟩ <;> simp [Plain, escapeDebug]

theorem scanString_plain_iff (table : CharTable) {line startColumn column : Nat}
    {text read : Text} {scanned : Text × Text × Nat}
    (h : scanString line startColumn text column read = .ok scanned) :
    ((∀ c ∈ read, Plain table c) ∧ ∀ c ∈ inQuotes true text, Plain table c) ↔
      (∀ c ∈ scanned.1, Plain table c) ∧ ∀ c ∈ inQuotes false scanned.2.1, Plain table c := by
  obtain ⟨hbackslash, hquote, hnewline, htab⟩ := plain_escapes table
  fun_induction scanString line startColumn text column read with
  | case1 | case3 | case8 => cases h
  | case2 =>
    cases h
    rw [inQuotes]
  | case4 column read rest ih | case5 column read rest ih | case6 column read rest ih
  | case7 column read rest ih =>
    rw [inQuotes, ← ih h, List.forall_mem_append, List.forall_mem_singleton]
    simp [*]
  | case9 column read c rest hquote hend _ _ _ _ hescape ih =>
    rw [inQuotes, ← ih h, List.forall_mem_append, List.forall_mem_singleton, List.forall_mem_cons,
      and_assoc]
    · exact hquote
    · exact hend
    · exact hescape

theorem Reads.plain_iff (h : Reads table c text token rest) :
    (∀ d ∈ inQuotes false (c :: text), Plain table d) ↔
      (∀ typ ∈ token, ∀ d ∈ stringChars typ, Plain table d) ∧
        ∀ d ∈ inQuotes false rest, Plain table d := by
  cases h with
  | unquoted htext hquote htyp =>
    rw [htext, ← List.cons_append, inQuotes_append hquote, iff_and_self]
    intro _ typ htoken d hd
    rw [(htyp typ htoken).2] at hd
    cases hd
  | string hscan =>
    have hplain := scanString_plain_iff table hscan
    rw [inQuotes]
    simpa [stringChars] using hplain

theorem Reads.lexical (h : Reads table c text token rest) : ∀ typ ∈ token, Lexical table typ := by
  cases h with
  | unquoted _ _ htyp => exact fun typ htoken => (htyp typ htoken).1
  | string =>
    rintro _ ⟨⟩
    trivial

/-- All that has been read is lexical, and what is plain in it was plain in the text. -/
theorem scanTokens_reads (h : scanTokens table s = .ok tokens) :
    (∀ token ∈ tokens, Lexical table token.typ) ∧
      ((∀ c ∈ inQuotes false s.chars, Plain table c) ↔
        ∀ token ∈ tokens, ∀ c ∈ stringChars token.typ, Plain table c) := by
  fun_induction scanTokens table s generalizing tokens with
  | case1 s hnil =>
    cases h
    rw [hnil]
    exact ⟨List.forall_mem_nil _, iff_of_true (List.forall_mem_nil _) (List.forall_mem_nil _)⟩
  | case2 s hchars err herr => cases h
  | case3 s hchars token s' hscan ih =>
    obtain ⟨later, hlater, rfl⟩ := map_eq_ok h
    obtain ⟨hlexical, hplain⟩ := ih hlater
    obtain ⟨c, text, htext⟩ := List.exists_cons_of_ne_nil hchars
    have hreads : Reads table c text (token.map Token.typ) s'.chars :=
      scanAfter_reads rfl ((scanToken_cleared htext).symm.trans hscan)
    rw [htext, List.forall_mem_append, List.forall_mem_append, hreads.plain_iff, ← hplain]
    have hfirst := hreads.lexical
    cases token with
    | none => exact ⟨⟨List.forall_mem_nil _, hlexical⟩, by simp⟩
    | some token =>
      refine ⟨⟨?_, hlexical⟩, by simp⟩
      rintro _ (_ | ⟨_, ⟨⟩⟩)
      exact hfirst _ rfl

end Lexer

end DimosViewer.Selector
