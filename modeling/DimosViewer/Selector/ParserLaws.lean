import DimosViewer.Selector.Grammar

/-!
# The parser accepts its language

What the parser has read is accepted, and what is accepted is read, whatever fuel there is beyond
three units for each token.
-/

namespace DimosViewer.Selector

open TokenType

theorem Parsed.andThen_eq_ok {parsed : Parsed α} {next : α → List TokenType → Parsed β}
    (h : parsed.andThen next = .ok b rest) :
    ∃ a ts, parsed = .ok a ts ∧ next a ts = .ok b rest := by
  cases parsed with
  | none => cases h
  | some result =>
    cases result with
    | error err => cases h
    | ok result => exact ⟨result.1, result.2, rfl, h⟩

theorem Parsed.ok_andThen (a : α) (ts : List TokenType) (next : α → List TokenType → Parsed β) :
    (Parsed.ok a ts).andThen next = next a ts := rfl

namespace Parser

-- ---------------------------------------------------------------------------
-- Soundness
-- ---------------------------------------------------------------------------

def Reads (level : Level) (tokens : List TokenType) (e : Expr) (rest : List TokenType) : Prop :=
  ∃ used, tokens = used ++ rest ∧ Accepted True level used e

theorem consume_sound (h : consume expected ts = .ok () rest) : ts = expected :: rest := by
  cases ts with
  | nil => cases h
  | cons token ts =>
    rw [consume] at h
    split at h
    · rename_i heq
      cases h
      rw [heq]
    · cases h

theorem primary_sound (h : primary ts = .ok e rest) : Reads .operated ts e rest := by
  rw [primary.eq_def] at h
  split at h
  case h_1 =>
    cases h
    exact ⟨_, rfl, .field⟩
  case h_2 =>
    cases h
    exact ⟨_, rfl, .each⟩
  case h_3 n tail =>
    obtain ⟨⟨⟩, ts, hclose, hok⟩ := Parsed.andThen_eq_ok h
    cases hok
    rw [consume_sound hclose]
    exact ⟨[lBracket, integer n, rBracket], rfl, .index⟩
  all_goals cases h

theorem operators_sound (ts : List TokenType) (h : Accepted True .operated used e) :
    ∃ more, ts = more ++ (operators e ts).2 ∧
      Accepted True .operated (used ++ more) (operators e ts).1 := by
  induction ts generalizing used e with
  | nil => exact ⟨[], rfl, (List.append_nil used).symm ▸ h⟩
  | cons token ts ih =>
    have hpush {e' : Expr} (hnext : Accepted True .operated (used ++ [token]) e') :
        ∃ more, token :: ts = more ++ (operators e' ts).2 ∧
          Accepted True .operated (used ++ more) (operators e' ts).1 := by
      obtain ⟨more, hts, hmore⟩ := ih hnext
      refine ⟨token :: more, congrArg (token :: ·) hts, ?_⟩
      rw [List.append_cons]
      exact hmore
    cases token with
    | questionMark => exact hpush h.optional
    | exclamationMark => exact hpush h.nonNull
    | _ => exact ⟨[], rfl, (List.append_nil used).symm ▸ h⟩

theorem segment_sound (h : segment ts = .ok e rest) : Reads .operated ts e rest := by
  obtain ⟨first, middle, hprimary, hok⟩ := Parsed.andThen_eq_ok h
  obtain ⟨used, rfl, haccepted⟩ := primary_sound hprimary
  obtain ⟨more, hmiddle, hmore⟩ := operators_sound middle haccepted
  have hresult : operators first middle = (e, rest) := Except.ok.inj (Option.some.inj hok)
  rw [hresult] at hmiddle hmore
  refine ⟨used ++ more, ?_, hmore⟩
  rw [List.append_assoc, ← hmiddle]

theorem moreSegments_sound (hleft : Accepted True .chain used left)
    (h : moreSegments fuel left ts = .ok e rest) :
    ∃ more, ts = more ++ rest ∧ Accepted True .chain (used ++ more) e := by
  induction fuel generalizing used left ts with
  | zero => cases h
  | succ fuel ih =>
    rw [moreSegments] at h
    split at h
    · obtain ⟨right, middle, hsegment, hmore⟩ := Parsed.andThen_eq_ok h
      obtain ⟨next, rfl, hnext⟩ := segment_sound hsegment
      obtain ⟨more, rfl, hresult⟩ := ih (hleft.next hnext) hmore
      rw [List.append_assoc] at hresult
      exact ⟨next ++ more, (List.append_assoc _ _ _).symm, hresult⟩
    · cases h
      exact ⟨[], rfl, (List.append_nil used).symm ▸ hleft⟩

theorem segments_sound (h : segments fuel ts = .ok e rest) : Reads .chain ts e rest := by
  obtain ⟨first, middle, hsegment, hmore⟩ := Parsed.andThen_eq_ok h
  obtain ⟨used, rfl, haccepted⟩ := segment_sound hsegment
  obtain ⟨more, rfl, hresult⟩ := moreSegments_sound haccepted.first hmore
  exact ⟨used ++ more, (List.append_assoc _ _ _).symm, hresult⟩

theorem literal_sound (h : literal ts = .ok argument rest) : ts = argument.token :: rest := by
  rw [literal.eq_def] at h
  split at h
  · cases h
    rfl
  · cases h
  · cases h

theorem moreArguments_sound (h : moreArguments fuel arguments ts = .ok result rest) :
    ∃ more, result = arguments ++ more ∧
      ts = (more.flatMap fun argument => [semicolon, argument.token]) ++ rest := by
  induction fuel generalizing arguments ts with
  | zero => cases h
  | succ fuel ih =>
    rw [moreArguments.eq_def] at h
    split at h
    · cases h
    · rename_i heq
      cases heq
      obtain ⟨argument, middle, hliteral, hmore⟩ := Parsed.andThen_eq_ok h
      obtain ⟨more, rfl, rfl⟩ := ih hmore
      refine ⟨argument :: more, List.append_assoc _ _ _, ?_⟩
      rw [literal_sound hliteral]
      rfl
    · cases h
      exact ⟨[], (List.append_nil _).symm, rfl⟩

theorem functionArgs_sound (hname : name ≠ MAP) (h : functionArgs fuel name ts = .ok e rest) :
    Reads .term (ident name :: ts) e rest := by
  rw [functionArgs.eq_def] at h
  split at h
  · cases h
    have hcall : Accepted True .term (ident name :: lParen :: argumentTokens [] ++ [rParen])
        (.function name (some [])) := .call hname
    exact ⟨_, rfl, hcall⟩
  · obtain ⟨argument, middle, hliteral, hmore⟩ := Parsed.andThen_eq_ok h
    obtain ⟨arguments, after, harguments, hclose⟩ := Parsed.andThen_eq_ok hmore
    obtain ⟨⟨⟩, last, hconsume, hok⟩ := Parsed.andThen_eq_ok hclose
    cases hok
    obtain ⟨more, rfl, rfl⟩ := moreArguments_sound harguments
    rw [literal_sound hliteral, consume_sound hconsume]
    have hcall : Accepted True .term
        (ident name :: lParen :: argumentTokens (argument :: more) ++ [rParen])
        (.function name (some (argument :: more))) := .call hname
    refine ⟨_, ?_, hcall⟩
    simp [argumentTokens]
  · cases h
    exact ⟨[ident name], rfl, .name hname⟩

theorem sound (fuel : Nat) :
    (∀ ts e rest, expr fuel ts = .ok e rest → Reads .expr ts e rest) ∧
    (∀ used left ts e rest, Accepted True .expr used left →
      morePipes fuel left ts = .ok e rest →
      ∃ more, ts = more ++ rest ∧ Accepted True .expr (used ++ more) e) ∧
    (∀ ts e rest, term fuel ts = .ok e rest → Reads .term ts e rest) ∧
    (∀ ts e rest, mapExpr fuel ts = .ok e rest → Reads .term (ident MAP :: ts) e rest) := by
  induction fuel with
  | zero =>
    refine ⟨?_, ?_, ?_, ?_⟩
    · intro ts e rest h
      cases h
    · intro used left ts e rest _ h
      cases h
    · intro ts e rest h
      cases h
    · intro ts e rest h
      cases h
  | succ fuel ih =>
    obtain ⟨hexpr, hpipes, hterm, hmap⟩ := ih
    refine ⟨?_, ?_, ?_, ?_⟩
    · intro ts e rest h
      obtain ⟨left, middle, hleft, hmore⟩ := Parsed.andThen_eq_ok h
      obtain ⟨used, rfl, haccepted⟩ := hterm _ _ _ hleft
      obtain ⟨more, rfl, hresult⟩ := hpipes _ _ _ _ _ haccepted.term hmore
      exact ⟨used ++ more, (List.append_assoc _ _ _).symm, hresult⟩
    · intro used left ts e rest haccepted h
      rw [morePipes.eq_def] at h
      split at h
      · cases h
      · rename_i heq
        cases heq
        obtain ⟨right, middle, hright, hmore⟩ := Parsed.andThen_eq_ok h
        obtain ⟨next, rfl, hnext⟩ := hterm _ _ _ hright
        obtain ⟨more, rfl, hresult⟩ := hpipes _ _ _ _ _ (haccepted.pipe hnext) hmore
        refine ⟨TokenType.pipe :: next ++ more, by simp, ?_⟩
        rw [List.append_assoc] at hresult
        exact hresult
      · cases h
        exact ⟨[], rfl, (List.append_nil used).symm ▸ haccepted⟩
    · intro ts e rest h
      rw [term.eq_def] at h
      split at h
      · cases h
      · rename_i heq
        cases heq
        split at h
        · rename_i hname
          rw [hname]
          exact hmap _ _ _ h
        · rename_i hname
          exact functionArgs_sound hname h
      · rename_i heq
        cases heq
        split at h
        · obtain ⟨used, rfl, hchain⟩ := segments_sound h
          exact ⟨dot :: used, rfl, .dotted trivial hchain⟩
        · cases h
          exact ⟨[dot], rfl, .identity⟩
      · cases h
      · rename_i k hk _ _ _
        cases hk
        obtain ⟨used, rfl, hchain⟩ := segments_sound h
        exact ⟨used, rfl, .chain hchain⟩
    · intro ts e rest h
      rw [mapExpr] at h
      obtain ⟨⟨⟩, middle, hopen, h⟩ := Parsed.andThen_eq_ok h
      obtain ⟨body, after, hbody, h⟩ := Parsed.andThen_eq_ok h
      obtain ⟨⟨⟩, last, hclose, h⟩ := Parsed.andThen_eq_ok h
      cases h
      obtain ⟨used, rfl, haccepted⟩ := hexpr _ _ _ hbody
      rw [consume_sound hopen, consume_sound hclose]
      exact ⟨ident MAP :: lParen :: used ++ [rParen], by simp, haccepted.map⟩

-- ---------------------------------------------------------------------------
-- Completeness
-- ---------------------------------------------------------------------------

def NoOperator (rest : List TokenType) : Prop :=
  rest.head? ≠ some questionMark ∧ rest.head? ≠ some exclamationMark

def EndsTerm (rest : List TokenType) : Prop :=
  rest = [] ∨ rest.head? = some TokenType.pipe ∨ rest.head? = some rParen

theorem noOperator_of_isSegmentStart (h : isSegmentStart rest = true) : NoOperator rest := by
  cases rest with
  | nil => cases h
  | cons token rest =>
    cases token with
    | field => exact ⟨by simp, by simp⟩
    | lBracket => exact ⟨by simp, by simp⟩
    | _ => cases h

theorem EndsTerm.noOperator (h : EndsTerm rest) : NoOperator rest := by
  obtain rfl | h | h := h
  · exact ⟨by simp, by simp⟩
  · exact ⟨by simp [h], by simp [h]⟩
  · exact ⟨by simp [h], by simp [h]⟩

theorem EndsTerm.not_isSegmentStart (h : EndsTerm rest) : isSegmentStart rest = false := by
  cases rest with
  | nil => rfl
  | cons token rest =>
    obtain h | h | h := h
    · cases h
    · cases h
      rfl
    · cases h
      rfl

theorem operators_of_noOperator (h : NoOperator rest) : operators e rest = (e, rest) := by
  rw [operators.eq_def]
  split
  · exact absurd rfl h.1
  · exact absurd rfl h.2
  · rfl

theorem segment_operators (h : Accepted dots .operated used e) (rest : List TokenType) :
    segment (used ++ rest) = some (.ok (operators e rest)) := by
  generalize hlevel : Level.operated = level at h
  induction h generalizing rest with
  | field | each => rfl
  | index =>
    rw [segment, List.cons_append, List.cons_append, List.cons_append, primary, consume,
      if_pos rfl]
    rfl
  | optional _ ih | nonNull _ ih =>
    rw [List.append_assoc, ih _ hlevel]
    rfl
  | _ => cases hlevel

theorem segment_complete (h : Accepted dots .operated used e) (hrest : NoOperator rest) :
    segment (used ++ rest) = .ok e rest := by
  rw [segment_operators h, operators_of_noOperator hrest]
  rfl

theorem isSegmentStart_of_operated (h : Accepted dots .operated used e) (rest : List TokenType) :
    isSegmentStart (used ++ rest) = true := by
  generalize hlevel : Level.operated = level at h
  induction h generalizing rest with
  | field | index | each => rfl
  | optional _ ih | nonNull _ ih =>
    rw [List.append_assoc]
    exact ih _ hlevel
  | _ => cases hlevel

theorem isSegmentStart_of_chain (h : Accepted dots .chain used e) (rest : List TokenType) :
    isSegmentStart (used ++ rest) = true := by
  generalize hlevel : Level.chain = level at h
  induction h generalizing rest with
  | first h => exact isSegmentStart_of_operated h rest
  | next _ _ ih =>
    rw [List.append_assoc]
    exact ih _ hlevel
  | _ => cases hlevel

theorem segments_chain (h : Accepted dots .chain used e) (hrest : NoOperator rest)
    (hresult : ∀ fuel, rest.length + 1 ≤ fuel → moreSegments fuel e rest = result) :
    ∀ fuel, (used ++ rest).length + 1 ≤ fuel → segments fuel (used ++ rest) = result := by
  generalize hlevel : Level.chain = level at h
  induction h generalizing rest result with
  | first h =>
    intro fuel hfuel
    rw [segments, segment_complete h hrest, Parsed.ok_andThen]
    refine hresult fuel ?_
    rw [List.length_append] at hfuel
    omega
  | @next us l vs r _ hr ih =>
    have hstart := isSegmentStart_of_operated hr rest
    rw [List.append_assoc]
    refine ih (noOperator_of_isSegmentStart hstart) ?_ hlevel
    intro fuel hfuel
    cases fuel with
    | zero => omega
    | succ fuel =>
      rw [moreSegments, if_pos hstart, segment_complete hr hrest, Parsed.ok_andThen]
      refine hresult fuel ?_
      have hpos : 0 < vs.length := by
        cases vs with
        | nil =>
          have hnil := isSegmentStart_of_operated hr []
          cases hnil
        | cons => exact Nat.succ_pos _
      rw [List.length_append] at hfuel
      omega
  | _ => cases hlevel

theorem segments_complete (h : Accepted dots .chain used e) (hrest : EndsTerm rest)
    (hfuel : (used ++ rest).length + 1 ≤ fuel) : segments fuel (used ++ rest) = .ok e rest := by
  refine segments_chain h hrest.noOperator ?_ fuel hfuel
  intro fuel hfuel
  cases fuel with
  | zero => omega
  | succ fuel =>
    rw [moreSegments, hrest.not_isSegmentStart]
    rfl

theorem moreArguments_complete (arguments more : List Literal) (hrest : rest.head? ≠ some semicolon)
    (hfuel : more.length + 1 ≤ fuel) :
    moreArguments fuel arguments
        ((more.flatMap fun argument => [semicolon, argument.token]) ++ rest) =
      .ok (arguments ++ more) rest := by
  induction more generalizing fuel arguments with
  | nil =>
    cases fuel with
    | zero => omega
    | succ fuel =>
      rw [List.append_nil, List.flatMap_nil, List.nil_append, moreArguments.eq_def]
      split
      · omega
      · exact absurd rfl hrest
      · rfl
  | cons argument more ih =>
    cases fuel with
    | zero => omega
    | succ fuel =>
      rw [List.length_cons] at hfuel
      have hmore := ih (arguments ++ [argument]) (Nat.le_of_succ_le_succ hfuel)
      rw [List.append_assoc] at hmore
      cases argument
      exact hmore

theorem functionArgs_complete (arguments : List Literal) (rest : List TokenType)
    (hfuel : arguments.length + 1 ≤ fuel) :
    functionArgs fuel name (lParen :: argumentTokens arguments ++ rParen :: rest) =
      .ok (.function name (some arguments)) rest := by
  cases arguments with
  | nil => rfl
  | cons first more =>
    rw [List.length_cons] at hfuel
    have hrest : (rParen :: rest).head? ≠ some semicolon := by simp
    have hmore := moreArguments_complete [first] more hrest (Nat.le_of_succ_le hfuel)
    have hstep : functionArgs fuel name
        (lParen :: argumentTokens (first :: more) ++ rParen :: rest) =
          (moreArguments fuel [first]
            ((more.flatMap fun argument => [semicolon, argument.token]) ++ rParen :: rest)).andThen
            fun arguments rest => (consume rParen rest).andThen fun _ rest =>
              .ok (.function name (some arguments)) rest := by
      cases first
      rfl
    rw [hstep, hmore]
    rfl

theorem length_le_separated (more : List Literal) :
    more.length ≤ (more.flatMap fun argument => [semicolon, argument.token]).length := by
  induction more with
  | nil => exact Nat.le_refl _
  | cons argument more ih =>
    rw [List.flatMap_cons, List.length_append, List.length_cons]
    simp only [List.length_cons, List.length_nil]
    omega

theorem length_argumentTokens (arguments : List Literal) :
    arguments.length ≤ (argumentTokens arguments).length := by
  cases arguments with
  | nil => exact Nat.le_refl _
  | cons first more => exact Nat.succ_le_succ (length_le_separated more)

def Completes : Level → List TokenType → Expr → Prop
  | .expr, used, e => ∀ rest result, EndsTerm rest →
      (∀ fuel, 3 * rest.length + 1 ≤ fuel → morePipes fuel e rest = result) →
      ∀ fuel, 3 * (used ++ rest).length + 3 ≤ fuel → expr fuel (used ++ rest) = result
  | .term, used, e => ∀ rest, EndsTerm rest →
      ∀ fuel, 3 * (used ++ rest).length + 2 ≤ fuel → term fuel (used ++ rest) = .ok e rest
  | _, _, _ => True

theorem term_of_isSegmentStart (h : isSegmentStart tokens = true) :
    term (fuel + 1) tokens = segments fuel tokens := by
  cases tokens with
  | nil => cases h
  | cons token tokens =>
    cases token with
    | field => rfl
    | lBracket => rfl
    | _ => cases h

/-- What is accepted is read, whatever ends it. -/
theorem complete (h : Accepted dots level used e) : Completes level used e := by
  induction h with
  | term _ ih =>
    intro rest result hrest hresult fuel hfuel
    cases fuel with
    | zero => omega
    | succ fuel =>
      rw [expr, ih rest hrest fuel (by omega), Parsed.ok_andThen]
      refine hresult fuel ?_
      rw [List.length_append] at hfuel
      omega
  | @pipe ts l us r _ _ ihl ihr =>
    intro rest result hrest hresult fuel hfuel
    rw [List.append_assoc] at hfuel ⊢
    refine ihl _ result (.inr (.inl rfl)) ?_ fuel hfuel
    intro fuel hfuel
    rw [List.length_append, List.length_cons] at hfuel
    cases fuel with
    | zero => omega
    | succ fuel =>
      rw [List.cons_append, morePipes, ihr rest hrest fuel (by rw [List.length_append]; omega),
        Parsed.ok_andThen]
      exact hresult fuel (by omega)
  | identity =>
    intro rest hrest fuel hfuel
    cases fuel with
    | zero => omega
    | succ fuel =>
      rw [List.singleton_append, term, hrest.not_isSegmentStart]
      rfl
  | @map ts e _ ih =>
    intro rest hrest fuel hfuel
    rw [List.length_append, List.length_append, List.length_cons, List.length_cons,
      List.length_singleton] at hfuel
    obtain ⟨fuel, rfl⟩ : ∃ k, fuel = k + 2 := ⟨fuel - 2, by omega⟩
    have hbody := ih (rParen :: rest) (.ok e (rParen :: rest)) (.inr (.inr rfl)) (by
      intro fuel hfuel
      cases fuel with
      | zero => omega
      | succ fuel => rfl) fuel (by rw [List.length_append, List.length_cons]; omega)
    rw [List.append_assoc, List.cons_append, List.cons_append, term, if_pos rfl, mapExpr,
      consume, if_pos rfl, Parsed.ok_andThen, List.singleton_append, hbody, Parsed.ok_andThen,
      consume, if_pos rfl]
    rfl
  | @name name hname =>
    intro rest hrest fuel hfuel
    cases fuel with
    | zero => omega
    | succ fuel =>
      rw [List.singleton_append, term, if_neg hname, functionArgs.eq_def]
      split
      · obtain h | h | h := hrest <;> cases h
      · obtain h | h | h := hrest <;> cases h
      · rfl
  | @call name arguments hname =>
    intro rest hrest fuel hfuel
    rw [List.length_append, List.length_append, List.length_cons, List.length_cons,
      List.length_singleton] at hfuel
    have hlength := length_argumentTokens arguments
    cases fuel with
    | zero => omega
    | succ fuel =>
      rw [List.append_assoc, List.cons_append, List.cons_append, term, if_neg hname,
        List.singleton_append]
      exact functionArgs_complete arguments rest (by omega)
  | chain h _ =>
    intro rest hrest fuel hfuel
    cases fuel with
    | zero => omega
    | succ fuel =>
      rw [term_of_isSegmentStart (isSegmentStart_of_chain h rest)]
      exact segments_complete h hrest (by omega)
  | dotted _ h _ =>
    intro rest hrest fuel hfuel
    rw [List.cons_append, List.length_cons] at hfuel
    cases fuel with
    | zero => omega
    | succ fuel =>
      rw [List.cons_append, term, if_pos (isSegmentStart_of_chain h rest)]
      exact segments_complete h hrest (by omega)
  | first | next | field | index | each | optional | nonNull => trivial

theorem parseTypes_of_accepted (h : Accepted dots .expr tokens e) :
    parseTypes tokens = some (.ok e) := by
  have hexpr := complete h [] (.ok e []) (.inl rfl) (by
    intro fuel hfuel
    cases fuel with
    | zero => omega
    | succ fuel => rfl) (fuelFor tokens) (by rw [List.append_nil]; exact Nat.le_refl _)
  rw [List.append_nil] at hexpr
  rw [parseTypes, hexpr]
  rfl

theorem parseTypes_eq_ok_iff :
    parseTypes tokens = some (.ok e) ↔ Accepted True .expr tokens e := by
  refine ⟨fun h => ?_, parseTypes_of_accepted⟩
  rw [parseTypes] at h
  split at h
  · cases h
  · cases h
  · rename_i e' hexpr
    cases h
    obtain ⟨used, rfl, haccepted⟩ := (sound _).1 _ _ _ hexpr
    rw [List.append_nil]
    exact haccepted
  · cases h

-- ---------------------------------------------------------------------------
-- Termination
-- ---------------------------------------------------------------------------

def Returns (parsed : Parsed α) (bound : Nat) : Prop :=
  parsed ≠ none ∧ ∀ a rest, parsed = .ok a rest → rest.length ≤ bound

theorem returns_ok (h : rest.length ≤ bound) : Returns (Parsed.ok a rest) bound := by
  refine ⟨by simp [Parsed.ok], ?_⟩
  rintro a rest ⟨⟩
  exact h

theorem returns_error (err : ParseError) (bound : Nat) :
    Returns (Parsed.error err : Parsed α) bound := by
  refine ⟨by simp [Parsed.error], ?_⟩
  rintro a rest ⟨⟩

theorem Returns.mono (h : Returns parsed bound) (hle : bound ≤ bound') :
    Returns parsed bound' :=
  ⟨h.1, fun a rest hok => (h.2 a rest hok).trans hle⟩

theorem Returns.andThen {parsed : Parsed α} {next : α → List TokenType → Parsed β}
    (h : Returns parsed bound)
    (hnext : ∀ a rest, rest.length ≤ bound → Returns (next a rest) bound') :
    Returns (parsed.andThen next) bound' := by
  cases parsed with
  | none => exact absurd rfl h.1
  | some result =>
    cases result with
    | error err => exact returns_error err bound'
    | ok result => exact hnext _ _ (h.2 _ _ rfl)

theorem consume_returns (expected : TokenType) (ts : List TokenType) :
    Returns (consume expected ts) (ts.length - 1) := by
  cases ts with
  | nil => exact returns_error _ _
  | cons token ts =>
    rw [consume]
    split
    · exact returns_ok (Nat.le_refl _)
    · exact returns_error _ _

theorem primary_returns (ts : List TokenType) : Returns (primary ts) (ts.length - 1) := by
  rw [primary.eq_def]
  split
  · exact returns_ok (Nat.le_refl _)
  · exact returns_ok (Nat.le_succ _)
  · refine (consume_returns _ _).andThen fun _ rest hrest => returns_ok ?_
    simp only [List.length_cons]
    omega
  all_goals exact returns_error _ _

theorem operators_length (e : Expr) (ts : List TokenType) :
    (operators e ts).2.length ≤ ts.length := by
  fun_induction operators e ts with
  | case1 e ts ih | case2 e ts ih => exact ih.trans (Nat.le_succ _)
  | case3 => exact Nat.le_refl _

theorem segment_returns (ts : List TokenType) : Returns (segment ts) (ts.length - 1) :=
  (primary_returns ts).andThen fun e rest hrest =>
    returns_ok ((operators_length e rest).trans hrest)

theorem moreSegments_returns (left : Expr) (h : ts.length + 1 ≤ fuel) :
    Returns (moreSegments fuel left ts) ts.length := by
  induction fuel generalizing left ts with
  | zero => omega
  | succ fuel ih =>
    rw [moreSegments]
    split
    · rename_i hstart
      have hpos : 0 < ts.length := by
        cases ts with
        | nil => cases hstart
        | cons => exact Nat.succ_pos _
      exact (segment_returns ts).andThen fun right rest hrest =>
        (ih _ (by omega)).mono (by omega)
    · exact returns_ok (Nat.le_refl _)

theorem segments_returns (h : ts.length + 1 ≤ fuel) :
    Returns (segments fuel ts) (ts.length - 1) :=
  (segment_returns ts).andThen fun left rest hrest =>
    (moreSegments_returns left (by omega)).mono hrest

theorem literal_returns (ts : List TokenType) : Returns (literal ts) (ts.length - 1) := by
  rw [literal.eq_def]
  split
  · exact returns_ok (Nat.le_refl _)
  · exact returns_error _ _
  · exact returns_error _ _

theorem moreArguments_returns (h : ts.length + 1 ≤ fuel) :
    Returns (moreArguments fuel arguments ts) ts.length := by
  induction fuel generalizing arguments ts with
  | zero => omega
  | succ fuel ih =>
    rw [moreArguments.eq_def]
    split
    · omega
    · rename_i heq
      cases heq
      rw [List.length_cons] at h ⊢
      exact (literal_returns _).andThen fun argument rest hrest =>
        (ih (by omega)).mono (by omega)
    · exact returns_ok (Nat.le_refl _)

theorem functionArgs_returns (name : Text) (h : ts.length + 1 ≤ fuel) :
    Returns (functionArgs fuel name ts) ts.length := by
  rw [functionArgs.eq_def]
  split
  · refine returns_ok ?_
    simp only [List.length_cons]
    omega
  · rw [List.length_cons] at h ⊢
    refine (literal_returns _).andThen fun argument rest hrest => ?_
    refine (moreArguments_returns (by omega)).andThen fun arguments after hafter => ?_
    refine (consume_returns _ _).andThen fun _ last hlast => returns_ok ?_
    omega
  · exact returns_ok (Nat.le_refl _)

/-- Three units of fuel for each token are enough. -/
theorem recursion_returns (fuel : Nat) :
    (∀ ts, 3 * ts.length + 3 ≤ fuel → Returns (expr fuel ts) (ts.length - 1)) ∧
    (∀ left ts, 3 * ts.length + 1 ≤ fuel → Returns (morePipes fuel left ts) ts.length) ∧
    (∀ ts, 3 * ts.length + 2 ≤ fuel → Returns (term fuel ts) (ts.length - 1)) ∧
    (∀ ts, 3 * ts.length + 1 ≤ fuel → Returns (mapExpr fuel ts) ts.length) := by
  induction fuel with
  | zero =>
    refine ⟨?_, ?_, ?_, ?_⟩
    · intro ts h
      omega
    · intro left ts h
      omega
    · intro ts h
      omega
    · intro ts h
      omega
  | succ fuel ih =>
    obtain ⟨hexpr, hpipes, hterm, hmap⟩ := ih
    refine ⟨?_, ?_, ?_, ?_⟩
    · intro ts h
      rw [expr]
      exact (hterm ts (by omega)).andThen fun left rest hrest =>
        (hpipes left rest (by omega)).mono hrest
    · intro left ts h
      rw [morePipes.eq_def]
      split
      · omega
      · rename_i heq
        cases heq
        rw [List.length_cons] at h ⊢
        exact (hterm _ (by omega)).andThen fun right rest hrest =>
          (hpipes _ rest (by omega)).mono (by omega)
      · exact returns_ok (Nat.le_refl _)
    · intro ts h
      rw [term.eq_def]
      split
      · omega
      · rename_i heq
        cases heq
        rw [List.length_cons] at h ⊢
        split
        · exact hmap _ (by omega)
        · exact functionArgs_returns _ (by omega)
      · rename_i heq
        cases heq
        rw [List.length_cons] at h ⊢
        split
        · exact (segments_returns (by omega)).mono (Nat.sub_le _ _)
        · exact returns_ok (Nat.le_refl _)
      · exact returns_error _ _
      · rename_i k hk _ _ _
        cases hk
        exact segments_returns (by omega)
    · intro ts h
      rw [mapExpr]
      cases ts with
      | nil => exact returns_error _ _
      | cons token ts =>
        rw [List.length_cons] at h
        refine (consume_returns lParen (token :: ts)).andThen fun _ rest hrest => ?_
        rw [List.length_cons] at hrest ⊢
        refine (hexpr rest (by omega)).andThen fun body after hafter => ?_
        refine (consume_returns rParen after).andThen fun _ last hlast => returns_ok ?_
        omega

theorem parse_returns (tokens : List Token) : parse tokens ≠ none := by
  have hexpr := ((recursion_returns _).1 (tokens.map Token.typ) (Nat.le_refl _)).1
  rw [parse, parseTypes]
  split
  · rename_i hnone
    exact absurd hnone hexpr
  all_goals simp

-- ---------------------------------------------------------------------------
-- Main results
-- ---------------------------------------------------------------------------

/-- The parser returns. It follows its grammar where identities, maps and functions stand alone in
their terms, and no term has a leading dot. -/
theorem followsGrammar_iff (tokens : List Token) :
    parse tokens ≠ none ∧
      (FollowsGrammar tokens ↔
        (∃ e, Accepted False .expr (tokens.map Token.typ) e) ∨
          ¬∃ e, Derives .expr (tokens.map Token.typ) e) := by
  refine ⟨parse_returns tokens, ?_⟩
  constructor
  · rintro ⟨hiff, htree⟩
    by_cases hderived : ∃ e, Derives .expr (tokens.map Token.typ) e
    · left
      obtain ⟨e, hparse⟩ := hiff.mpr hderived
      have haccepted := parseTypes_eq_ok_iff.mp hparse
      have htokens := (htree e hparse).tokens
      refine ⟨e, ?_⟩
      rw [htokens]
      exact haccepted.undotted
    · exact .inr hderived
  · rintro (⟨e, haccepted⟩ | hnone)
    · obtain ⟨e', hderives, heq⟩ := haccepted.derives
      have hparse := parseTypes_of_accepted haccepted
      rw [← heq id] at hparse
      refine ⟨⟨fun _ => ⟨e', hderives⟩, fun _ => ⟨e', hparse⟩⟩, ?_⟩
      intro e hother
      rw [parse, hparse] at hother
      cases hother
      exact hderives
    · refine ⟨⟨?_, fun h => absurd h hnone⟩, ?_⟩
      · rintro ⟨e, hparse⟩
        obtain ⟨e', hderives, -⟩ := (parseTypes_eq_ok_iff.mp hparse).derives
        exact ⟨e', hderives⟩
      · intro e hparse
        obtain ⟨e', hderives, -⟩ := (parseTypes_eq_ok_iff.mp hparse).derives
        exact absurd ⟨e', hderives⟩ hnone

def operatedFunction : List Token := [⟨ident ['f'], 1⟩, ⟨questionMark, 1⟩]

/-- A function takes no operators. -/
theorem operatedFunction_refused : ¬FollowsGrammar operatedFunction := by
  intro h
  obtain ⟨e, hparse⟩ := h.1.mpr ⟨_, .term (.first (.optional (.segment .name)))⟩
  have hrefused : parse operatedFunction =
      some (.error (.unexpectedSymbol questionMark)) := by decide
  rw [hrefused] at hparse
  cases hparse

end Parser

end DimosViewer.Selector
