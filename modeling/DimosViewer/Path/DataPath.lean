import DimosViewer.Format.Duration
import DimosViewer.Path.RoundTrip

/-!
# The text of a data path

What the tokens of a text look like that is read as a data path, and that no text is
read as the same path when an ampersand and more is appended to it.
-/

namespace DimosViewer

def instanceAll : Nat := 2 ^ 64 - 1

namespace DataPath

def display (table : CharTable) (path : DataPath) : List Char :=
  (path.entityPath.display table).toList ++
    ((path.nr.filter (· ≠ instanceAll)).elim [] fun nr =>
      '[' :: '#' :: Format.formatUint nr ++ [']']) ++
    path.component.elim [] fun component => ':' :: component.toList

/-- The thin space between the digits is not read back. -/
example : fromStr .asciiOnly (String.ofList (display .asciiOnly ⟨["a"], some 1000, none⟩)) =
    .error (.badInstance "1\u2009000") := by
  decide +kernel

end DataPath

theorem mem_pushGroups (h : c ∈ Format.pushGroups result chars) :
    c ∈ result ∨ c ∈ chars ∨ c = Format.THIN_SPACE := by
  have hfront : ∀ {result : Format.Text},
      c ∈ (if result = [] then [] else result ++ [Format.THIN_SPACE]) →
        c ∈ result ∨ c = Format.THIN_SPACE := by
    intro result hc
    split at hc
    · cases hc
    · simpa using hc
  induction result, chars using Format.pushGroups.induct with
  | case1 result =>
    rw [Format.pushGroups] at h
    exact .inl h
  | case2 result x y z chars ih =>
    rw [Format.pushGroups] at h
    rcases ih h with h | h | h
    · rcases List.mem_append.mp h with h | h
      · exact (hfront h).imp_right .inr
      · exact .inr (.inl (List.mem_append_left chars h))
    · exact .inr (.inl (by simp [h]))
    · exact .inr (.inr h)
  | case3 result chars hne hne' =>
    rw [Format.pushGroups.eq_3 result chars hne hne'] at h
    rcases List.mem_append.mp h with h | h
    · exact (hfront h).imp_right .inr
    · exact .inr (.inl h)

theorem mem_formatUint (h : c ∈ Format.formatUint n) : c.isDigit ∨ c = Format.THIN_SPACE := by
  rw [Format.formatUint, Format.addThousandsSeparators, List.mem_reverse] at h
  rcases mem_pushGroups h with h | h | h
  · cases h
  · exact .inl (DecimalText.isDigit_toDigits (List.mem_reverse.mp h))
  · exact .inr h

-- ---------------------------------------------------------------------------
-- Tokens
-- ---------------------------------------------------------------------------

section Tokens

variable {special : List Char}

theorem scanToken_append (b : Bool) (l : List Char) :
    (scanToken special b l).1 ++ (scanToken special b l).2 = l := by
  induction l generalizing b with
  | nil => rfl
  | cons c l ih =>
    rw [scanToken]
    split
    · rfl
    · exact congrArg (c :: ·) (ih (c == '\\'))

theorem tokenizeBy_special {c : Char} (h : c ∈ special) (chars : List Char) :
    tokenizeBy special (c :: chars) = [c] :: tokenizeBy special chars := by
  have hscan : scanToken special false (c :: chars) = ([], c :: chars) := by
    simp [scanToken, h]
  rw [tokenizeBy, hscan]
  rfl

theorem scanToken_ne_nil {c : Char} (h : c ∉ special) (chars : List Char) :
    (scanToken special false (c :: chars)).1 ≠ [] := by
  rw [scanToken_cons (.inr h)]
  simp

theorem scanToken_rest (b : Bool) (l : List Char) :
    (scanToken special b l).2 = [] ∨
      ∃ c chars, (scanToken special b l).2 = c :: chars ∧ c ∈ special := by
  induction l generalizing b with
  | nil => exact .inl rfl
  | cons c l ih =>
    rw [scanToken]
    split
    · rename_i h
      refine .inr ⟨c, l, rfl, ?_⟩
      simpa using (Bool.and_eq_true_iff.mp h).2
    · exact ih (c == '\\')

variable (special) in
theorem tokens_induction {p : List Char → Prop} (hnil : p [])
    (hspecial : ∀ c chars, c ∈ special → p chars → p (c :: chars))
    (htoken : ∀ c chars, c ∉ special → p (scanToken special false (c :: chars)).2 → p (c :: chars))
    (l : List Char) : p l := by
  induction hn : l.length using Nat.strong_induction_on generalizing l with
  | h n ih =>
    cases l with
    | nil => exact hnil
    | cons c chars =>
      subst hn
      by_cases hc : c ∈ special
      · exact hspecial c chars hc (ih _ (Nat.lt_succ_self _) chars rfl)
      · refine htoken c chars hc (ih _ ?_ _ rfl)
        have hlen := scanToken_length special false (c :: chars)
        have hpos := List.length_pos_iff.mpr (scanToken_ne_nil hc chars)
        omega

variable (special) in
theorem flatten_tokenizeBy (l : List Char) : (tokenizeBy special l).flatten = l := by
  induction l using tokens_induction special with
  | hnil => simp [tokenizeBy]
  | hspecial c chars hc ih => rw [tokenizeBy_special hc, List.flatten_cons, ih]; rfl
  | htoken c chars hc ih =>
    rw [tokenizeBy_scan (scanToken_ne_nil hc chars), List.flatten_cons, ih, scanToken_append]

theorem scanToken_more {m : List Char} {d : Char} (hd : d ∉ special) (b : Bool) (l : List Char) :
    (scanToken special b l).2 ≠ [] ∧
      scanToken special b (l ++ d :: m) =
        ((scanToken special b l).1, (scanToken special b l).2 ++ d :: m) ∨
    (scanToken special b l).1 = l ∧
      ∃ z rest, scanToken special b (l ++ d :: m) = (l ++ d :: z, rest) := by
  induction l generalizing b with
  | nil =>
    exact .inr ⟨rfl, (scanToken special (d == '\\') m).1, _, scanToken_cons (.inr hd) m⟩
  | cons c l ih =>
    by_cases hc : b = true ∨ c ∉ special
    · rw [List.cons_append, scanToken_cons hc, scanToken_cons hc]
      rcases ih (c == '\\') with ⟨hne, h⟩ | ⟨hl, z, rest, h⟩
      · exact .inl ⟨hne, by rw [h]⟩
      · exact .inr ⟨congrArg (c :: ·) hl, z, rest, by rw [h]; rfl⟩
    · rw [not_or, not_not, Bool.not_eq_true] at hc
      have hstop : ∀ chars, scanToken special b (c :: chars) = ([], c :: chars) := by
        intro chars
        simp [scanToken, hc.1, hc.2]
      rw [List.cons_append, hstop, hstop]
      exact .inl ⟨by simp, rfl⟩

theorem tokenizeBy_more {m : List Char} {d : Char} (hd : d ∉ special) (l : List Char) :
    ∃ front last z rest, tokenizeBy special (l ++ d :: m) = front ++ (last ++ d :: z) :: rest ∧
      (last = [] ∧ tokenizeBy special l = front ∨
        tokenizeBy special l = front ++ [last] ∧ ∀ c ∈ last.head?, c ∉ special) := by
  induction l using tokens_induction special with
  | hnil =>
    have hmore := tokenizeBy_scan (scanToken_ne_nil hd m)
    rw [scanToken_cons (.inr hd)] at hmore
    exact ⟨[], [], _, _, hmore, .inl ⟨rfl, by simp [tokenizeBy]⟩⟩
  | hspecial c chars hc ih =>
    obtain ⟨front, last, z, rest, hmore, h⟩ := ih
    refine ⟨[c] :: front, last, z, rest, ?_, ?_⟩
    · rw [List.cons_append, tokenizeBy_special hc, hmore]
      rfl
    · rw [tokenizeBy_special hc]
      refine h.imp (fun h => ⟨h.1, congrArg _ h.2⟩) fun h => ⟨congrArg _ h.1, h.2⟩
  | htoken c chars hc ih =>
    have hscan := scanToken_ne_nil hc
    rcases scanToken_more hd false (c :: chars) (m := m) with
      ⟨hne, h⟩ | ⟨hl, z, rest, h⟩
    · obtain ⟨front, last, z, rest, hmore, h'⟩ := ih
      refine ⟨(scanToken special false (c :: chars)).1 :: front, last, z, rest, ?_, ?_⟩
      · rw [List.cons_append, tokenizeBy_scan (hscan _), ← List.cons_append, h, hmore]
        rfl
      · rw [tokenizeBy_scan (hscan chars)]
        refine h'.imp (fun h => ⟨h.1, congrArg _ h.2⟩) fun h => ⟨congrArg _ h.1, h.2⟩
    · have hrest : (scanToken special false (c :: chars)).2 = [] := by
        have : (scanToken special false (c :: chars)).1 ++ (scanToken special false (c :: chars)).2 =
            c :: chars := scanToken_append false (c :: chars)
        rw [hl] at this
        simpa using this
      refine ⟨[], c :: chars, z, tokenizeBy special rest, ?_, .inr ⟨?_, ?_⟩⟩
      · rw [List.cons_append, tokenizeBy_scan (hscan _), ← List.cons_append, h]
        rfl
      · rw [tokenizeBy_scan (hscan chars), hl, hrest]
        simp [tokenizeBy]
      · rintro _ ⟨⟩
        exact hc

end Tokens

-- ---------------------------------------------------------------------------
-- Strict parsing
-- ---------------------------------------------------------------------------

section Strict

variable {table : CharTable}

theorem takeUnicodeEscape_more (allChars chars : List Char) :
    (∀ s, takeUnicodeEscape allChars (chars ++ s) =
      ((takeUnicodeEscape allChars chars).1, (takeUnicodeEscape allChars chars).2 ++ s)) ∨
    (takeUnicodeEscape allChars chars).1 = allChars ++ chars ∧ '\x7d' ∉ chars := by
  induction chars generalizing allChars with
  | nil => exact .inr ⟨by simp [takeUnicodeEscape], by simp⟩
  | cons c chars ih =>
    by_cases hc : c = '\x7d' ∨ byteLen (allChars ++ [c]) = 6
    · refine .inl fun s => ?_
      rw [List.cons_append, takeUnicodeEscape, takeUnicodeEscape, if_pos hc, if_pos hc]
    · simp only [List.cons_append, takeUnicodeEscape, if_neg hc]
      refine (ih (allChars ++ [c])).imp_right fun h => ?_
      rw [not_or] at hc
      exact ⟨by simp [h.1], by simp [h.2, Ne.symm hc.1]⟩

theorem takeUnicodeEscape_append (allChars chars : List Char) :
    (takeUnicodeEscape allChars chars).1 ++ (takeUnicodeEscape allChars chars).2 =
      allChars ++ chars := by
  induction chars generalizing allChars with
  | nil => rfl
  | cons c chars ih =>
    rw [takeUnicodeEscape]
    split
    · simp
    · rw [ih]
      simp

theorem brace_of_parseUnicodeEscape {chars : List Char} {c : Char}
    (h : (parseUnicodeEscape chars).1 = .ok c) :
    (takeUnicodeEscape [] chars).1.tail.getLast? = some '\x7d' := by
  by_contra hne
  simp only [parseUnicodeEscape, guard, if_neg hne] at h
  by_cases hhead : (takeUnicodeEscape [] chars).1.head? = some '\x7b'
  · rw [if_pos hhead] at h
    cases h
  · rw [if_neg hhead] at h
    cases h

theorem parseUnicodeEscape_more {chars : List Char} {c : Char}
    (h : (parseUnicodeEscape chars).1 = .ok c) (s : List Char) :
    parseUnicodeEscape (chars ++ s) = (.ok c, (parseUnicodeEscape chars).2 ++ s) := by
  rcases takeUnicodeEscape_more [] chars with hmore | ⟨hall, hno⟩
  · rw [parseUnicodeEscape, hmore]
    exact Prod.ext h rfl
  · have hlast := List.mem_of_getLast? (brace_of_parseUnicodeEscape h)
    rw [hall] at hlast
    exact absurd (List.mem_of_mem_tail hlast) hno

theorem exists_error_map {α β ε : Type} (f : α → β) {x : Except ε α} (h : ∃ e, x = .error e) :
    ∃ e, f <$> x = .error e := by
  obtain ⟨e, rfl⟩ := h
  exact ⟨e, rfl⟩

theorem exists_ok_of_map {α β ε : Type} {f : α → β} {x : Except ε α} {b : β}
    (h : f <$> x = .ok b) : ∃ a, x = .ok a := by
  cases x with
  | error e => cases h
  | ok a => exact ⟨a, rfl⟩

/-- Behind what is parsed, a character that needs an escape is an error. -/
theorem parseStrictChars_more {d : Char} (hd : printAsIs table d = false) (hback : d ≠ '\\')
    (s : List Char) {chars a : List Char} (h : parseStrictChars table chars = .ok a) :
    ∃ e, parseStrictChars table (chars ++ d :: s) = .error e := by
  induction chars using parseStrictChars.induct table generalizing a with
  | case1 =>
    refine ⟨.missingEscape d, ?_⟩
    rw [List.nil_append, parseStrictChars_asIs hback, if_neg (by simp [hd])]
  | case2 =>
    rw [parseStrictChars] at h
    cases h
  | case3 chars parsed c hc =>
    rename_i ih
    replace hc : (parseUnicodeEscape chars).1 = .ok c := hc
    have hmore := parseUnicodeEscape_more hc (d :: s)
    rw [parseStrictChars, if_pos rfl] at h
    simp only [hc] at h
    obtain ⟨b, hb⟩ := exists_ok_of_map h
    rw [List.cons_append, List.cons_append, parseStrictChars, if_pos rfl]
    simp only [hmore]
    exact exists_error_map _ (ih hb)
  | case4 chars parsed text =>
    rename_i hc
    replace hc : (parseUnicodeEscape chars).1 = .error text := hc
    rw [parseStrictChars, if_pos rfl] at h
    simp only [hc] at h
    cases h
  | case5 c chars hu c' hc ih =>
    rw [parseStrictChars_escape hu hc] at h
    obtain ⟨b, hb⟩ := exists_ok_of_map h
    rw [List.cons_append, List.cons_append, parseStrictChars_escape hu hc]
    exact exists_error_map _ (ih hb)
  | case6 c chars hu hc =>
    rw [parseStrictChars, if_neg hu, hc] at h
    cases h
  | case7 c chars h1 h2 hc ih =>
    have hback : c ≠ '\\' := by
      rintro rfl
      cases chars with
      | nil => exact h1 rfl rfl
      | cons x xs => exact h2 x xs rfl rfl
    rw [parseStrictChars_asIs hback, if_pos hc] at h
    obtain ⟨b, hb⟩ := exists_ok_of_map h
    rw [List.cons_append, parseStrictChars_asIs hback, if_pos hc]
    exact exists_error_map _ (ih hb)
  | case8 c chars h1 h2 hc =>
    have hback : c ≠ '\\' := by
      rintro rfl
      cases chars with
      | nil => exact h1 rfl rfl
      | cons x xs => exact h2 x xs rfl rfl
    rw [parseStrictChars_asIs hback, if_neg hc] at h
    cases h

theorem exists_parsed {token : List Char} {tokens : List (List Char)} {parts : List String}
    (h : entityPathPartsLoop table (token :: tokens) = .ok parts) :
    ∃ a, parseStrictChars table token = .ok a := by
  cases hp : parseStrictChars table token with
  | error e => exact absurd h (entityPathPartsLoop_error ⟨e, hp⟩ tokens parts)
  | ok a => exact ⟨a, rfl⟩

theorem loop_of_cons {token next : List Char} {tokens : List (List Char)} {parts : List String}
    (h : entityPathPartsLoop table (token :: next :: tokens) = .ok parts) :
    next = ['/'] ∧ ∃ rest, entityPathPartsLoop table tokens = .ok rest := by
  obtain ⟨a, ha⟩ := exists_parsed h
  rw [entityPathPartsLoop] at h
  by_cases htoken : token = ['/']
  · rw [if_pos htoken] at h
    cases h
  by_cases hnext : next = ['/']
  · refine ⟨hnext, ?_⟩
    cases hloop : entityPathPartsLoop table tokens with
    | ok rest => exact ⟨rest, rfl⟩
    | error e =>
      cases tokens <;> simp [htoken, hnext, ha, hloop, bind, Except.bind, throw, throwThe,
        MonadExceptOf.throw] at h
  · simp [htoken, hnext, ha, bind, Except.bind, throw, throwThe, MonadExceptOf.throw] at h

theorem parsed_of_entityPathPartsLoop : ∀ {tokens : List (List Char)} {parts : List String},
    entityPathPartsLoop table tokens = .ok parts →
    ∀ token ∈ tokens, token = ['/'] ∨ ∃ a, parseStrictChars table token = .ok a
  | [], _, _ => by simp
  | [token], _, h => by
    rintro _ hm
    rw [List.mem_singleton.mp hm]
    exact .inr (exists_parsed h)
  | token :: next :: tokens, _, h => by
    obtain ⟨hnext, rest, hrest⟩ := loop_of_cons h
    rintro t hm
    rcases List.mem_cons.mp hm with rfl | hm
    · exact .inr (exists_parsed h)
    rcases List.mem_cons.mp hm with rfl | hm
    · exact .inl hnext
    · exact parsed_of_entityPathPartsLoop hrest t hm

theorem parsed_of_entityPathParts {tokens : List (List Char)} {parts : List String}
    (h : entityPathPartsFromTokensStrict table tokens = .ok parts) :
    ∀ token ∈ tokens, token = ['/'] ∨ ∃ a, parseStrictChars table token = .ok a := by
  rw [entityPathPartsFromTokensStrict] at h
  by_cases hnil : tokens.isEmpty = true
  · rw [if_pos hnil] at h
    cases h
  rw [if_neg hnil] at h
  by_cases hroot : tokens = [['/']]
  · rw [hroot]
    simp
  rw [if_neg hroot] at h
  by_cases hslash : tokens.head? = some ['/']
  · rw [if_pos hslash] at h
    intro token htoken
    obtain ⟨rest, rfl⟩ := List.head?_eq_some_iff.mp hslash
    rcases List.mem_cons.mp htoken with rfl | htoken
    · exact .inl rfl
    · exact parsed_of_entityPathPartsLoop h token htoken
  · rw [if_neg hslash] at h
    exact parsed_of_entityPathPartsLoop h

end Strict

-- ---------------------------------------------------------------------------
-- The suffixes of a data path
-- ---------------------------------------------------------------------------

section Suffixes

variable {table : CharTable} {d : DataPath}

structure DataPath.Suffixes (table : CharTable) (d : DataPath)
    (entity inst comp : List (List Char)) : Prop where
  parts : entityPathPartsFromTokensStrict table entity = .ok d.entityPath
  noColon : [':'] ∉ entity ++ inst
  noBracket : ['['] ∉ entity
  inst : inst = [] ∧ d.nr = none ∨
    ∃ x digits, inst = [['['], x, digits, [']']] ∧ d.nr ≠ none
  comp : comp = [] ∧ d.component = none ∨
    ∃ tokens, comp = [':'] :: tokens ∧ d.component = some (String.ofList tokens.flatten)

theorem eq_of_findIdx? {tokens : List (List Char)} {token : List Char} {i : Nat}
    (h : tokens.findIdx? (· = token) = some i) :
    tokens = tokens.take i ++ token :: tokens.drop (i + 1) ∧ token ∉ tokens.take i := by
  obtain ⟨hi, he, hlt⟩ := List.findIdx?_eq_some_iff_getElem.mp h
  have he : tokens[i] = token := by simpa using he
  constructor
  · rw [← he, List.cons_getElem_drop_succ, List.take_append_drop]
  · intro hm
    obtain ⟨j, hj, hje⟩ := List.mem_take_iff_getElem.mp hm
    exact absurd hje (by simpa using hlt j (by omega))

theorem not_mem_of_findIdx? {tokens : List (List Char)} {token : List Char}
    (h : tokens.findIdx? (· = token) = none) : token ∉ tokens := fun hm => by
  simpa using List.findIdx?_eq_none_iff.mp h token hm

def DataPath.fromTokens (table : CharTable) (tokens : List (List Char))
    (component : Option ComponentIdentifier) : Except PathParseError DataPath := do
  let (tokens, nr) ← match tokens.findIdx? (· = ['[']) with
    | none => pure (tokens, none)
    | some bracket =>
      let instanceTokens := tokens.drop bracket
      if instanceTokens.length ≠ 4 ∨ instanceTokens.getLast? ≠ some [']'] then
        throw (.badInstance (String.ofList instanceTokens.flatten))
      let digits := instanceTokens.getD 2 []
      match fromStrRadix 10 64 digits with
      | some nr => pure (tokens.take bracket, some nr)
      | none => throw (.badInstance (String.ofList digits))
  return ⟨← entityPathPartsFromTokensStrict table tokens, nr, component⟩

theorem fromTokens_of_fromStr {path : String} (h : DataPath.fromStr table path = .ok d) :
    ((tokenizeDataPath path).findIdx? (· = [':']) = none ∧
      DataPath.fromTokens table (tokenizeDataPath path) none = .ok d) ∨
    ∃ i, (tokenizeDataPath path).findIdx? (· = [':']) = some i ∧
      DataPath.fromTokens table ((tokenizeDataPath path).take i)
        (some (String.ofList ((tokenizeDataPath path).drop (i + 1)).flatten)) = .ok d := by
  have hne : path ≠ "" := by
    rintro rfl
    cases h
  simp only [DataPath.fromStr, if_neg hne, bind, Except.bind, pure, Except.pure, throw, throwThe,
    MonadExceptOf.throw] at h
  simp only [DataPath.fromTokens, bind, Except.bind, pure, Except.pure, throw, throwThe,
    MonadExceptOf.throw]
  cases hcolon : (tokenizeDataPath path).findIdx? (· = [':']) with
  | none =>
    simp only [hcolon] at h
    exact .inl ⟨rfl, h⟩
  | some i =>
    simp only [hcolon] at h
    by_cases htrailing : ((tokenizeDataPath path).drop (i + 1)).isEmpty ∨
        ((tokenizeDataPath path).drop (i + 1)).getLast? = some [':']
    · rw [if_pos htrailing] at h
      cases h
    · rw [if_neg htrailing] at h
      exact .inr ⟨i, rfl, h⟩

theorem eq_instance {tokens : List (List Char)} {rest : List (List Char)}
    (h : tokens = ['['] :: rest) (hlen : tokens.length = 4) (hlast : tokens.getLast? = some [']']) :
    ∃ x digits, tokens = [['['], x, digits, [']']] := by
  obtain ⟨w, x, y, z, rfl⟩ := List.length_eq_four.mp hlen
  cases h
  have hz : z = [']'] := by simpa using hlast
  exact ⟨x, y, by rw [hz]⟩

theorem suffixes_of_fromTokens {tokens : List (List Char)}
    {component : Option ComponentIdentifier}
    (h : DataPath.fromTokens table tokens component = .ok d) :
    d.component = component ∧ ∃ entity inst, tokens = entity ++ inst ∧
      entityPathPartsFromTokensStrict table entity = .ok d.entityPath ∧ ['['] ∉ entity ∧
      (inst = [] ∧ d.nr = none ∨ ∃ x digits, inst = [['['], x, digits, [']']] ∧ d.nr ≠ none) := by
  simp only [DataPath.fromTokens, bind, Except.bind, pure, Except.pure, throw, throwThe,
    MonadExceptOf.throw] at h
  cases hbracket : tokens.findIdx? (· = ['[']) with
  | none =>
    simp only [hbracket] at h
    cases hparts : entityPathPartsFromTokensStrict table tokens with
    | error e =>
      rw [hparts] at h
      cases h
    | ok parts =>
      rw [hparts] at h
      cases h
      exact ⟨rfl, tokens, [], by simp, hparts, not_mem_of_findIdx? hbracket, .inl ⟨rfl, rfl⟩⟩
  | some i =>
    simp only [hbracket] at h
    by_cases hbad : (tokens.drop i).length ≠ 4 ∨ (tokens.drop i).getLast? ≠ some [']']
    · rw [if_pos hbad] at h
      cases h
    rw [if_neg hbad] at h
    rw [not_or, not_not, not_not] at hbad
    cases hnr : fromStrRadix 10 64 ((tokens.drop i).getD 2 []) with
    | none =>
      rw [hnr] at h
      cases h
    | some nr =>
      rw [hnr] at h
      cases hparts : entityPathPartsFromTokensStrict table (tokens.take i) with
      | error e =>
        simp only [hparts] at h
        cases h
      | ok parts =>
        simp only [hparts] at h
        cases h
        obtain ⟨he, hno⟩ := eq_of_findIdx? hbracket
        have hdrop : tokens.drop i = ['['] :: tokens.drop (i + 1) :=
          List.append_cancel_left ((List.take_append_drop i tokens).trans he)
        obtain ⟨x, digits, hinst⟩ := eq_instance hdrop hbad.1 hbad.2
        refine ⟨rfl, tokens.take i, tokens.drop i, (List.take_append_drop i tokens).symm, hparts,
          hno, .inr ⟨x, digits, hinst, by simp⟩⟩

theorem suffixes_of_fromStr {path : String} (h : DataPath.fromStr table path = .ok d) :
    ∃ entity inst comp, tokenizeDataPath path = entity ++ inst ++ comp ∧
      d.Suffixes table entity inst comp := by
  rcases fromTokens_of_fromStr h with ⟨hcolon, h⟩ | ⟨i, hcolon, h⟩
  · obtain ⟨hcomp, entity, inst, he, hparts, hbracket, hinst⟩ := suffixes_of_fromTokens h
    have hno := not_mem_of_findIdx? hcolon
    rw [he] at hno
    exact ⟨entity, inst, [], by rw [he, List.append_nil],
      ⟨hparts, hno, hbracket, hinst, .inl ⟨rfl, hcomp⟩⟩⟩
  · obtain ⟨hcomp, entity, inst, he, hparts, hbracket, hinst⟩ := suffixes_of_fromTokens h
    obtain ⟨heq, hno⟩ := eq_of_findIdx? hcolon
    rw [he] at heq hno
    exact ⟨entity, inst, _, heq, ⟨hparts, hno, hbracket, hinst, .inr ⟨_, rfl, hcomp⟩⟩⟩

theorem eq_of_first {α : Type} {a : α} {x y s t : List α} (hx : a ∉ x) (hy : a ∉ y)
    (h : x ++ a :: s = y ++ a :: t) : x = y ∧ s = t := by
  induction x generalizing y with
  | nil =>
    cases y with
    | nil => exact ⟨rfl, List.tail_eq_of_cons_eq h⟩
    | cons b y => exact absurd (List.head_eq_of_cons_eq h ▸ List.mem_cons_self) hy
  | cons b x ih =>
    cases y with
    | nil => exact absurd (List.head_eq_of_cons_eq h ▸ List.mem_cons_self) hx
    | cons b' y =>
      obtain ⟨rfl, htail⟩ := List.cons.inj h
      rw [List.mem_cons, not_or] at hx hy
      obtain ⟨rfl, hst⟩ := ih hx.2 hy.2 htail
      exact ⟨rfl, hst⟩

theorem colon_of_component {path : List Char} {component : ComponentIdentifier}
    (h : DataPath.fromStr table (String.ofList path) = .ok d) (hc : d.component = some component) :
    ∃ front, path = front ++ ':' :: component.toList := by
  obtain ⟨entity, inst, comp, he, hs⟩ := suffixes_of_fromStr h
  rcases hs.comp with ⟨-, hnone⟩ | ⟨tokens, rfl, hsome⟩
  · rw [hnone] at hc
    cases hc
  · rw [hsome] at hc
    obtain rfl := Option.some.inj hc
    have hflat := flatten_tokenizeBy ['/', '[', ']', ':', '#'] path
    rw [tokenizeDataPath, String.toList_ofList] at he
    rw [he, List.flatten_append, List.flatten_cons] at hflat
    refine ⟨(entity ++ inst).flatten, ?_⟩
    rw [String.toList_ofList]
    exact hflat.symm

section Ampersand

variable {front rest tokens tokens' : List (List Char)} {last z m : List Char}

theorem ne_singleton_of_ampersand {c : Char} (hc : c ≠ '&') : last ++ '&' :: z ≠ [c] := by
  intro hu
  have hm : '&' ∈ last ++ '&' :: z := by simp
  rw [hu, List.mem_singleton] at hm
  exact hc hm.symm

theorem error_of_ampersand (h : last = [] ∨ last = ['/'] ∨
      ∃ a, parseStrictChars table last = .ok a) (hslash : last ≠ ['/']) :
    ∃ e, parseStrictChars table (last ++ '&' :: z) = .error e := by
  have hamp : printAsIs table '&' = false := printAsIs_ascii (by decide)
  rcases h with rfl | h | ⟨a, ha⟩
  · exact parseStrictChars_more hamp (by decide) z (by rw [parseStrictChars])
  · exact absurd h hslash
  · exact parseStrictChars_more hamp (by decide) z ha

theorem more_behind_special (z : List Char) (rest : List (List Char)) {x : List (List Char)}
    {c : Char}
    (h : last = [] ∧ x ++ [c] :: tokens = front ∨
      x ++ [c] :: tokens = front ++ [last] ∧ ∀ d ∈ last.head?, d ≠ c) :
    ∃ more, front ++ (last ++ '&' :: z) :: rest = x ++ [c] :: more := by
  rcases h with ⟨rfl, rfl⟩ | ⟨he, hlast⟩
  · exact ⟨tokens ++ ('&' :: z) :: rest, by simp⟩
  · rcases List.eq_nil_or_concat tokens with rfl | ⟨init, t, rfl⟩
    · have := (List.append_inj' he rfl).2
      obtain rfl : [c] = last := by simpa using this
      exact absurd rfl (hlast c rfl)
    · rw [List.concat_eq_append, ← List.cons_append, ← List.append_assoc] at he
      obtain ⟨rfl, -⟩ := List.append_inj' he rfl
      exact ⟨init ++ (last ++ '&' :: z) :: rest, by simp⟩

end Ampersand

/-- The text of a path does not read as that path any more once an ampersand follows. -/
theorem fromStr_more_ne {path : List Char}
    (h : DataPath.fromStr table (String.ofList path) = .ok d) (m : List Char) :
    DataPath.fromStr table (String.ofList (path ++ '&' :: m)) ≠ .ok d := by
  intro h'
  obtain ⟨entity, inst, comp, he, hs⟩ := suffixes_of_fromStr h
  obtain ⟨entity', inst', comp', he', hs'⟩ := suffixes_of_fromStr h'
  have hflat := flatten_tokenizeBy ['/', '[', ']', ':', '#'] path
  have hflat' := flatten_tokenizeBy ['/', '[', ']', ':', '#'] (path ++ '&' :: m)
  rw [tokenizeDataPath, String.toList_ofList] at he he'
  obtain ⟨front, last, z, rest, hmore, hlast⟩ :=
    tokenizeBy_more (by decide : '&' ∉ ['/', '[', ']', ':', '#']) path (m := m)
  rw [he] at hlast hflat
  rw [he'] at hmore hflat'
  have hhead : ∀ c ∈ ['/', '[', ']', ':', '#'], (∀ d ∈ last.head?, d ∉ ['/', '[', ']', ':', '#']) →
      ∀ d ∈ last.head?, d ≠ c := fun c hc h d hd he => h d hd (he ▸ hc)
  rcases hs.comp with ⟨rfl, hcomp⟩ | ⟨tokens, rfl, hcomp⟩
  · rcases hs'.comp with ⟨rfl, -⟩ | ⟨_, -, hcomp'⟩
    swap
    · rw [hcomp] at hcomp'
      cases hcomp'
    rw [List.append_nil] at hmore hlast
    rcases hs.inst with ⟨rfl, hnr⟩ | ⟨x, digits, rfl, hnr⟩
    · rcases hs'.inst with ⟨rfl, -⟩ | ⟨_, _, -, hnr'⟩
      swap
      · exact absurd hnr hnr'
      rw [List.append_nil] at hmore hlast
      -- The longer token is one of the path, but it is not parsed.
      obtain ⟨a, ha⟩ := (parsed_of_entityPathParts hs'.parts (last ++ '&' :: z)
        (hmore ▸ by simp)).resolve_left (ne_singleton_of_ampersand (by decide))
      have hread : last = [] ∨ last = ['/'] ∨ ∃ a, parseStrictChars table last = .ok a := by
        rcases hlast with ⟨hnil, -⟩ | ⟨he, -⟩
        · exact .inl hnil
        · exact .inr (parsed_of_entityPathParts hs.parts last (he ▸ by simp))
      have hslash : last ≠ ['/'] := by
        rcases hlast with ⟨rfl, -⟩ | ⟨-, hh⟩
        · simp
        · rintro rfl
          exact hh '/' rfl (by decide)
      obtain ⟨e, he⟩ := error_of_ampersand (z := z) hread hslash
      rw [ha] at he
      cases he
    · rcases hs'.inst with ⟨-, hnr'⟩ | ⟨x', digits', rfl, -⟩
      · exact absurd hnr' hnr
      -- More tokens behind the bracket.
      rcases hlast with ⟨rfl, rfl⟩ | ⟨he, hh⟩
      · rw [List.append_assoc] at hmore
        have := (eq_of_first hs'.noBracket hs.noBracket hmore).2
        simp at this
      · rw [show ([['['], x, digits, [']']] : List (List Char)) =
          [['['], x, digits] ++ [[']']] from rfl, ← List.append_assoc] at he
        obtain rfl : [']'] = last := by simpa using (List.append_inj' he rfl).2
        exact hh ']' rfl (by decide)
  · -- The component is longer.
    rcases hs'.comp with ⟨-, hnone⟩ | ⟨tokens', rfl, hcomp'⟩
    · rw [hnone] at hcomp
      cases hcomp
    obtain ⟨more, hm⟩ := more_behind_special z rest
      (hlast.imp_right fun h => ⟨h.1, hhead ':' (by decide) h.2⟩)
    rw [hm] at hmore
    obtain ⟨hfront, rfl⟩ := eq_of_first hs'.noColon hs.noColon hmore
    rw [hcomp, Option.some.injEq, String.ofList_inj] at hcomp'
    rw [List.flatten_append, List.flatten_cons] at hflat hflat'
    rw [← hflat, hfront, ← hcomp'] at hflat'
    simpa using congrArg List.length hflat'

end Suffixes

end DimosViewer
