import Mathlib.Data.Bool.AllAny
import Mathlib.Data.List.Forall2
import DimosViewer.Path.Tokens

/-!
# What is read as a data path

A text is read as a data path exactly if it can be cut into the pieces of one, in a
grammar that is not the documented one: any separator but a colon may stand in front
of the number, a component may end in an escaped colon, and a part that ends in a
backslash must be the end of the text.
-/

namespace DimosViewer

-- ---------------------------------------------------------------------------
-- Parts are words
-- ---------------------------------------------------------------------------

section Words

variable {table : CharTable} {special : List Char}

theorem mem_of_fromStrRadix {radix bits n : Nat} {chars : List Char}
    (h : fromStrRadix radix bits chars = some n) :
    chars ≠ [] ∧ ∀ c ∈ chars, c = '+' ∨ toDigit radix c ≠ none := by
  have hdigits : ∀ (l : List Char) (acc : Nat) (m : Nat),
      l.foldlM (fun acc c => (toDigit radix c).map (acc * radix + ·)) acc = some m →
      ∀ c ∈ l, toDigit radix c ≠ none := by
    intro l
    induction l with
    | nil => simp
    | cons c l ih =>
      intro acc m hfold
      rw [List.foldlM_cons] at hfold
      cases hc : toDigit radix c with
      | none => simp [hc] at hfold
      | some digit =>
        rw [hc] at hfold
        exact List.forall_mem_cons.mpr ⟨by simp [hc], ih _ _ hfold⟩
  unfold fromStrRadix at h
  extract_lets digits at h
  have hsign : chars = digits ∨ chars = '+' :: digits := by
    subst digits
    split
    · exact .inr rfl
    · exact .inl rfl
  split at h
  · cases h
  rename_i hne
  rw [Option.filter_eq_some_iff] at h
  have hall := hdigits digits 0 n h.1
  rcases hsign with he | he
  · rw [he]
    exact ⟨by simpa using hne, fun c hc => .inr (hall c hc)⟩
  · rw [he]
    exact ⟨by simp, List.forall_mem_cons.mpr ⟨.inl rfl, fun c hc => .inr (hall c hc)⟩⟩

theorem toDigit_special : ∀ c ∈ ['/', '[', ']', ':', '#', '\\'], toDigit 16 c = none :=
  List.all_iff_forall_prop.mp (by decide)

theorem toDigit_sixteen {radix : Nat} (hr : radix ≤ 16) {c : Char} (h : toDigit radix c ≠ none) :
    toDigit 16 c ≠ none := by
  rw [toDigit, Option.ne_none_iff_exists'] at h ⊢
  obtain ⟨d, hd⟩ := h
  rw [Option.filter_eq_some_iff] at hd
  refine ⟨d, Option.filter_eq_some_iff.mpr ⟨hd.1, ?_⟩⟩
  have := of_decide_eq_true hd.2
  exact decide_eq_true (by omega)

theorem plain_of_fromStrRadix (hs : Separators special) {radix bits n : Nat} (hr : radix ≤ 16)
    {chars : List Char} (h : fromStrRadix radix bits chars = some n) :
    ∀ c ∈ chars, c ∉ special ∧ c ≠ '\\' := by
  intro c hc
  have hnot : c ∉ ['/', '[', ']', ':', '#', '\\'] := by
    intro hm
    rcases (mem_of_fromStrRadix h).2 c hc with rfl | hdigit
    · revert hm
      decide
    · exact toDigit_sixteen hr hdigit (toDigit_special c hm)
  refine ⟨fun hm => hnot (List.mem_append_left ['\\'] (hs c hm)), ?_⟩
  rintro rfl
  exact hnot (by decide)

theorem word_of_plain {t : List Char} (hne : t ≠ []) (h : ∀ c ∈ t, c ∉ special ∧ c ≠ '\\') :
    Word special t := by
  have hscan := scanToken_plain h []
  rw [List.append_nil] at hscan
  exact ⟨hne, by rw [hscan]; simp [scanToken]⟩

theorem parseUnicodeEscape_ok (hs : Separators special) {chars : List Char} {c : Char}
    (h : (parseUnicodeEscape chars).1 = .ok c) :
    ∃ escape, chars = escape ++ (parseUnicodeEscape chars).2 ∧
      ∀ x ∈ escape, x ∉ special ∧ x ≠ '\\' := by
  refine ⟨(takeUnicodeEscape [] chars).1, (takeUnicodeEscape_append [] chars).symm, ?_⟩
  simp only [parseUnicodeEscape, guard] at h
  by_cases hhead : (takeUnicodeEscape [] chars).1.head? = some '\x7b'
  case neg => rw [if_neg hhead] at h; cases h
  by_cases hlast : (takeUnicodeEscape [] chars).1.tail.getLast? = some '\x7d'
  case neg => rw [if_pos hhead, if_neg hlast] at h; cases h
  cases hradix : fromStrRadix 16 32 (takeUnicodeEscape [] chars).1.tail.dropLast with
  | none => simp [hhead, hlast, hradix, failure] at h
  | some n => ?_
  have hplain := plain_of_fromStrRadix hs le_rfl hradix
  have hbrace : ∀ x ∈ ['\x7b', '\x7d'], x ∉ special ∧ x ≠ '\\' := by
    have hno : ∀ x ∈ ['\x7b', '\x7d'], x ∉ ['/', '[', ']', ':', '#'] ∧ x ≠ '\\' :=
      List.all_iff_forall_prop.mp (by decide)
    exact fun x hx => ⟨not_mem_separators hs (hno x hx).1, (hno x hx).2⟩
  obtain ⟨front, hfront⟩ := List.getLast?_eq_some_iff.mp hlast
  rw [hfront, List.dropLast_concat] at hplain
  obtain ⟨tail, htail⟩ := List.head?_eq_some_iff.mp hhead
  rw [htail, List.tail_cons] at hfront
  rw [htail, hfront]
  intro x hx
  rw [List.mem_cons, List.mem_append, List.mem_singleton] at hx
  rcases hx with rfl | hx | rfl
  · exact hbrace _ (by simp)
  · exact hplain x hx
  · exact hbrace _ (by simp)

theorem printAsIs_special (hs : Separators special) {c : Char} (h : printAsIs table c = true) :
    c ∉ special := by
  intro hc
  have hno : ∀ d ∈ ['/', '[', ']', ':', '#'], printAsIs table d = false := by
    simp only [List.mem_cons, List.not_mem_nil, or_false, forall_eq_or_imp, forall_eq]
    refine ⟨?_, ?_, ?_, ?_, ?_⟩
    all_goals
      rw [printAsIs_ascii (by decide)]
      rfl
  rw [hno c (hs c hc)] at h
  cases h

theorem scanToken_of_parseStrict (hs : Separators special) {raw a : List Char}
    (h : parseStrictChars table raw = .ok a) (b : Bool) : scanToken special b raw = (raw, []) := by
  have hback : '\\' ∉ special := not_mem_separators hs (by decide)
  induction raw using parseStrictChars.induct table generalizing a b with
  | case1 => rfl
  | case2 =>
    rw [parseStrictChars] at h
    cases h
  | case3 chars parsed c hc =>
    rename_i ih
    replace hc : (parseUnicodeEscape chars).1 = .ok c := hc
    rw [parseStrictChars, if_pos rfl] at h
    simp only [hc] at h
    obtain ⟨a', ha⟩ := exists_ok_of_map h
    obtain ⟨escape, he, hplain⟩ := parseUnicodeEscape_ok hs hc
    have hscan := scanToken_plain hplain (parseUnicodeEscape chars).2
    rw [ih ha false, ← he] at hscan
    rw [scanToken_cons (.inr hback), beq_self_eq_true, scanToken_cons (.inl rfl),
      beq_false_of_ne (by decide : 'u' ≠ '\\'), hscan]
  | case4 chars parsed text =>
    rename_i hc
    replace hc : (parseUnicodeEscape chars).1 = .error text := hc
    rw [parseStrictChars, if_pos rfl] at h
    simp only [hc] at h
    cases h
  | case5 c chars hu c' hc ih =>
    rw [parseStrictChars_escape hu hc] at h
    obtain ⟨a', ha⟩ := exists_ok_of_map h
    rw [scanToken_cons (.inr hback), beq_self_eq_true, scanToken_cons (.inl rfl), ih ha]
  | case6 c chars hu hc =>
    rw [parseStrictChars, if_neg hu, hc] at h
    cases h
  | case7 c chars h1 h2 hc ih =>
    have hne : c ≠ '\\' := ne_of_printAsIs hc (by decide) (by decide)
    rw [parseStrictChars_asIs hne, if_pos hc] at h
    obtain ⟨a', ha⟩ := exists_ok_of_map h
    rw [scanToken_cons (.inr (printAsIs_special hs hc)), ih ha]
  | case8 c chars h1 h2 hc =>
    have hne : c ≠ '\\' := by
      rintro rfl
      cases chars with
      | nil => exact h1 rfl rfl
      | cons x xs => exact h2 x xs rfl rfl
    rw [parseStrictChars_asIs hne, if_neg hc] at h
    cases h

theorem word_of_parseStrict (hs : Separators special) {raw a : List Char} (hne : raw ≠ [])
    (h : parseStrictChars table raw = .ok a) : Word special raw :=
  ⟨hne, scanToken_of_parseStrict hs h false⟩

end Words

-- ---------------------------------------------------------------------------
-- The tokens that are accepted
-- ---------------------------------------------------------------------------

section Layout

variable {table : CharTable} {d : DataPath}

def ReadAs (table : CharTable) (raws : List (List Char)) (parts : List String) : Prop :=
  List.Forall₂ (fun raw part => parseStrictChars table raw = .ok part.toList) raws parts

theorem ReadAs.parsed {raws : List (List Char)} {parts : List String}
    (h : ReadAs table raws parts) : ∀ raw ∈ raws, ∃ a, parseStrictChars table raw = .ok a := by
  induction h with
  | nil => simp
  | cons h _ ih => exact List.forall_mem_cons.mpr ⟨⟨_, h⟩, ih⟩

theorem ne_separator_of_parsed {raw a : List Char} (h : parseStrictChars table raw = .ok a)
    {c : Char} (hc : c ∈ ['/', '[', ']', ':', '#']) : raw ≠ [c] := by
  rintro rfl
  have hs : Separators ['/', '[', ']', ':', '#'] := fun _ h => h
  have hover := scanToken_of_parseStrict hs h false
  simp [scanToken, hc] at hover

theorem loop_singleton {raw a : List Char} (h : parseStrictChars table raw = .ok a) :
    entityPathPartsLoop table [raw] = .ok [String.ofList a] := by
  rw [entityPathPartsLoop, if_neg (ne_separator_of_parsed h (by decide)), h]
  rfl

theorem loop_of_readAs : ∀ {raws : List (List Char)} {parts : List String},
    raws ≠ [] → ReadAs table raws parts →
    entityPathPartsLoop table (raws.intersperse ['/']) = .ok parts
  | [raw], _, _, .cons h .nil => by
    rw [List.intersperse_singleton, loop_singleton h, String.ofList_toList]
  | raw :: next :: raws, part :: parts, _, .cons h hs => by
    have hnext := loop_of_readAs (List.cons_ne_nil next raws) hs
    have htokens : (next :: raws).intersperse ['/'] ≠ [] := by cases raws <;> simp
    rw [List.intersperse_cons_cons,
      entityPathPartsLoop_next (ne_separator_of_parsed h (by decide)) h htokens, hnext,
      String.ofList_toList]
    rfl

theorem readAs_of_loop : ∀ {tokens : List (List Char)} {parts : List String},
    tokens ≠ [] → entityPathPartsLoop table tokens = .ok parts →
    ∃ raws, raws ≠ [] ∧ tokens = raws.intersperse ['/'] ∧ ReadAs table raws parts
  | [token], parts, _, h => by
    obtain ⟨a, ha⟩ := exists_parsed h
    rw [loop_singleton ha, Except.ok.injEq] at h
    subst h
    exact ⟨[token], by simp, rfl, .cons (by rw [ha, String.toList_ofList]) .nil⟩
  | token :: next :: tokens, parts, _, h => by
    obtain ⟨a, ha⟩ := exists_parsed h
    obtain ⟨rfl, -⟩ := loop_of_cons h
    have hne : tokens ≠ [] := by
      rintro rfl
      simp [entityPathPartsLoop, ne_separator_of_parsed ha, ha, bind, Except.bind, throw, throwThe,
        MonadExceptOf.throw] at h
    rw [entityPathPartsLoop_next (ne_separator_of_parsed ha (by decide)) ha hne] at h
    cases hloop : entityPathPartsLoop table tokens with
    | error e =>
      rw [hloop] at h
      cases h
    | ok rest => ?_
    rw [hloop] at h
    cases h
    obtain ⟨raws, hraws, rfl, hread⟩ := readAs_of_loop hne hloop
    obtain ⟨raw, raws, rfl⟩ := List.exists_cons_of_ne_nil hraws
    refine ⟨token :: raw :: raws, by simp, by rw [List.intersperse_cons_cons], ?_⟩
    exact .cons (by rw [ha, String.toList_ofList]) hread

theorem entityPathParts_eq_ok_iff {tokens : List (List Char)} {parts : List String} :
    entityPathPartsFromTokensStrict table tokens = .ok parts ↔
      ∃ (slash : Bool) (raws : List (List Char)), (raws = [] → slash) ∧
        tokens = (if slash then [['/']] else []) ++ raws.intersperse ['/'] ∧
        ReadAs table raws parts := by
  constructor
  · intro h
    rw [entityPathPartsFromTokensStrict] at h
    by_cases hnil : tokens.isEmpty = true
    · rw [if_pos hnil] at h
      cases h
    rw [if_neg hnil] at h
    by_cases hroot : tokens = [['/']]
    · rw [if_pos hroot, Except.ok.injEq] at h
      subst h
      exact ⟨true, [], by simp, hroot, .nil⟩
    rw [if_neg hroot] at h
    by_cases hslash : tokens.head? = some ['/']
    · obtain ⟨rest, rfl⟩ := List.head?_eq_some_iff.mp hslash
      rw [if_pos hslash, List.tail_cons] at h
      obtain ⟨raws, hraws, rfl, hread⟩ := readAs_of_loop (by rintro rfl; exact hroot rfl) h
      exact ⟨true, raws, by simp, rfl, hread⟩
    · rw [if_neg hslash] at h
      obtain ⟨raws, hraws, rfl, hread⟩ := readAs_of_loop (by simpa using hnil) h
      exact ⟨false, raws, fun h => absurd h hraws, rfl, hread⟩
  · rintro ⟨slash, raws, hroot, rfl, hread⟩
    cases raws with
    | nil =>
      rw [hroot rfl]
      cases hread
      rfl
    | cons raw raws => ?_
    have hraw : ∀ c ∈ ['/', '[', ']', ':', '#'], raw ≠ [c] := fun c hc =>
      (hread.parsed raw List.mem_cons_self).elim fun a ha => ne_separator_of_parsed ha hc
    obtain ⟨rest, hrest⟩ : ∃ rest, (raw :: raws).intersperse ['/'] = raw :: rest := by
      cases raws <;> simp
    have hloop := loop_of_readAs (List.cons_ne_nil raw raws) hread
    rw [hrest] at hloop ⊢
    cases slash with
    | true => simpa [entityPathPartsFromTokensStrict] using hloop
    | false =>
      have hslash := hraw '/' (by decide)
      simpa [entityPathPartsFromTokensStrict, hslash] using hloop

/-- The tokens of the entity path, of the instance and of the component, with their values. -/
structure DataPath.Layout (table : CharTable) (d : DataPath)
    (entity inst comp : List (List Char)) : Prop where
  parts : entityPathPartsFromTokensStrict table entity = .ok d.entityPath
  noColon : [':'] ∉ entity ++ inst
  noBracket : ['['] ∉ entity
  inst : inst = [] ∧ d.nr = none ∨ ∃ x digits nr, inst = [['['], x, digits, [']']] ∧
    fromStrRadix 10 64 digits = some nr ∧ d.nr = some nr
  comp : comp = [] ∧ d.component = none ∨ ∃ tokens, comp = [':'] :: tokens ∧
    tokens ≠ [] ∧ tokens.getLast? ≠ some [':'] ∧
    d.component = some (String.ofList tokens.flatten)

theorem findIdx?_of_not_mem {tokens : List (List Char)} {token : List Char} (h : token ∉ tokens) :
    tokens.findIdx? (· = token) = none := by
  rw [List.findIdx?_eq_none_iff]
  exact fun t ht => decide_eq_false fun he => h (he ▸ ht)

theorem findIdx?_of_first {tokens rest : List (List Char)} {token : List Char}
    (h : token ∉ tokens) : (tokens ++ token :: rest).findIdx? (· = token) = some tokens.length := by
  rw [List.findIdx?_append, findIdx?_of_not_mem h, List.findIdx?_cons]
  simp

theorem DataPath.Layout.fromTokens {entity inst comp : List (List Char)}
    (h : d.Layout table entity inst comp) :
    DataPath.fromTokens table (entity ++ inst) d.component = .ok d := by
  obtain ⟨entityPath, nr', component⟩ := d
  have hparts : entityPathPartsFromTokensStrict table entity = .ok entityPath := h.parts
  rcases h.inst with ⟨rfl, hnr⟩ | ⟨x, digits, nr, rfl, hdigits, hnr⟩
  · obtain rfl : nr' = none := hnr
    simp only [DataPath.fromTokens, List.append_nil, findIdx?_of_not_mem h.noBracket, hparts,
      bind, Except.bind, pure, Except.pure]
  · obtain rfl : nr' = some nr := hnr
    have hgood : ¬ ([['['], x, digits, [']']].length ≠ 4 ∨
        [['['], x, digits, [']']].getLast? ≠ some [']']) := by simp
    simp only [DataPath.fromTokens, findIdx?_of_first h.noBracket, hparts, List.drop_left,
      List.take_left, bind, Except.bind, pure, Except.pure]
    rw [if_neg hgood]
    simp only [List.getD_cons_succ, List.getD_cons_zero, hdigits]

theorem layout_of_fromTokens {tokens comp : List (List Char)}
    {component : Option ComponentIdentifier} (hcolon : [':'] ∉ tokens)
    (hcomp : comp = [] ∧ component = none ∨ ∃ tokens, comp = [':'] :: tokens ∧
      tokens ≠ [] ∧ tokens.getLast? ≠ some [':'] ∧
      component = some (String.ofList tokens.flatten))
    (h : DataPath.fromTokens table tokens component = .ok d) :
    ∃ entity inst, tokens = entity ++ inst ∧ d.Layout table entity inst comp := by
  simp only [DataPath.fromTokens, bind, Except.bind, pure, Except.pure, throw, throwThe,
    MonadExceptOf.throw] at h
  cases hbracket : tokens.findIdx? (· = ['[']) with
  | none =>
    simp only [hbracket] at h
    cases hparts : entityPathPartsFromTokensStrict table tokens with
    | error e =>
      rw [hparts] at h
      cases h
    | ok parts =>
      rw [hparts] at h
      cases h
      rw [← List.append_nil tokens] at hcolon
      exact ⟨tokens, [], by simp,
        ⟨hparts, hcolon, not_mem_of_findIdx? hbracket, .inl ⟨rfl, rfl⟩, hcomp⟩⟩
  | some i =>
    simp only [hbracket] at h
    by_cases hbad : (tokens.drop i).length ≠ 4 ∨ (tokens.drop i).getLast? ≠ some [']']
    · rw [if_pos hbad] at h
      cases h
    rw [if_neg hbad] at h
    rw [not_or, not_not, not_not] at hbad
    obtain ⟨he, hno⟩ := eq_of_findIdx? hbracket
    have hdrop : tokens.drop i = ['['] :: tokens.drop (i + 1) :=
      List.append_cancel_left ((List.take_append_drop i tokens).trans he)
    obtain ⟨x, digits, hinst⟩ := eq_instance hdrop hbad.1 hbad.2
    have happ : tokens = tokens.take i ++ [['['], x, digits, [']']] := by
      rw [← hinst, List.take_append_drop]
    rw [hinst] at h
    cases hnr : fromStrRadix 10 64 digits with
    | none =>
      simp [hnr] at h
    | some nr =>
      cases hparts : entityPathPartsFromTokensStrict table (tokens.take i) with
      | error e => simp [hnr, hparts] at h
      | ok parts =>
        simp only [List.getD_cons_succ, List.getD_cons_zero, hnr, hparts, Except.ok.injEq] at h
        subst h
        exact ⟨_, _, happ,
          ⟨hparts, happ ▸ hcolon, hno, .inr ⟨x, digits, nr, rfl, hnr, rfl⟩, hcomp⟩⟩

theorem fromStr_eq_ok_iff_layout {path : String} :
    DataPath.fromStr table path = .ok d ↔
      ∃ entity inst comp, tokenizeDataPath path = entity ++ inst ++ comp ∧
        d.Layout table entity inst comp := by
  constructor
  · intro h
    have hne : path ≠ "" := by
      rintro rfl
      cases h
    simp only [DataPath.fromStr, if_neg hne, bind, Except.bind, pure, Except.pure, throw, throwThe,
      MonadExceptOf.throw] at h
    cases hcolon : (tokenizeDataPath path).findIdx? (· = [':']) with
    | none =>
      simp only [hcolon] at h
      obtain ⟨entity, inst, he, hlayout⟩ := layout_of_fromTokens
        (not_mem_of_findIdx? hcolon) (.inl ⟨rfl, rfl⟩) h
      exact ⟨entity, inst, [], by rw [he, List.append_nil], hlayout⟩
    | some i =>
      simp only [hcolon] at h
      by_cases htrailing : ((tokenizeDataPath path).drop (i + 1)).isEmpty ∨
          ((tokenizeDataPath path).drop (i + 1)).getLast? = some [':']
      · rw [if_pos htrailing] at h
        cases h
      rw [if_neg htrailing] at h
      rw [not_or, List.isEmpty_iff] at htrailing
      obtain ⟨he, hno⟩ := eq_of_findIdx? hcolon
      obtain ⟨entity, inst, htake, hlayout⟩ := layout_of_fromTokens hno
        (.inr ⟨_, rfl, htrailing.1, htrailing.2, rfl⟩) h
      exact ⟨entity, inst, _, by rw [← htake]; exact he, hlayout⟩
  · rintro ⟨entity, inst, comp, he, h⟩
    have hfrom := h.fromTokens
    have hne : path ≠ "" := by
      rintro rfl
      have hnil : tokenizeDataPath "" = [] := by simp [tokenizeDataPath, tokenizeBy]
      rw [hnil, eq_comm, List.append_eq_nil_iff, List.append_eq_nil_iff] at he
      have := h.parts
      rw [he.1.1] at this
      cases this
    simp only [DataPath.fromTokens, bind, Except.bind, pure, Except.pure, throw, throwThe,
      MonadExceptOf.throw] at hfrom
    simp only [DataPath.fromStr, if_neg hne, bind, Except.bind, pure, Except.pure, throw, throwThe,
      MonadExceptOf.throw, he]
    rcases h.comp with ⟨rfl, hcomp⟩ | ⟨tokens, rfl, hnil, hlast, hcomp⟩
    · rw [hcomp] at hfrom
      simp only [List.append_nil, findIdx?_of_not_mem h.noColon]
      exact hfrom
    · rw [hcomp] at hfrom
      have hdrop : (entity ++ inst ++ [':'] :: tokens).drop ((entity ++ inst).length + 1) =
          tokens := by
        rw [List.drop_append]
        simp
      simp only [findIdx?_of_first h.noColon, hdrop, List.take_left]
      rw [if_neg (by simp [hnil, hlast])]
      exact hfrom

end Layout

-- ---------------------------------------------------------------------------
-- The pieces of a text
-- ---------------------------------------------------------------------------

namespace DataPath

@[ext] structure Pieces where
  slash : Bool
  parts : List (List Char)
  bracket : Option (Char × List Char)
  component : Option (List Char)

namespace Pieces

def suffix (p : Pieces) : List Char :=
  (p.bracket.elim [] fun b => '[' :: b.1 :: b.2 ++ [']']) ++ p.component.elim [] (':' :: ·)

def text (p : Pieces) : List Char :=
  (if p.slash then ['/'] else []) ++ ['/'].intercalate p.parts ++ p.suffix

structure Spells (table : CharTable) (p : Pieces) (d : DataPath) : Prop where
  root : p.parts = [] → p.slash
  ne_nil : [] ∉ p.parts
  parts : ReadAs table p.parts d.entityPath
  nr : p.bracket.map (fun b => fromStrRadix 10 64 b.2) = d.nr.map some
  component : p.component.map String.ofList = d.component

/-- As documented: decimal digits behind `[#`, and no colon at the end of a component. -/
structure Documented (p : Pieces) : Prop where
  bracket : ∀ b ∈ p.bracket, b.1 = '#' ∧ ∀ c ∈ b.2, c.isDigit
  component : ∀ c ∈ p.component, c ≠ [] ∧ c.getLast? ≠ some ':'

def followed (p : Pieces) : List (List Char) :=
  if p.suffix = [] then p.parts.dropLast else p.parts

structure Accepted (p : Pieces) : Prop where
  bracket : ∀ b ∈ p.bracket, b.1 ∈ ['/', '[', ']', '#']
  component : ∀ c ∈ p.component, c ≠ [] ∧ ¬ EndsIn ':' c
  followed : ∀ raw ∈ p.followed, raw.getLast? ≠ some '\\'

end Pieces

def Grammar (table : CharTable) (text : List Char) (d : DataPath) : Prop :=
  ∃ p : Pieces, p.text = text ∧ p.Spells table d ∧ p.Documented

-- ---------------------------------------------------------------------------
-- The tokens of the pieces
-- ---------------------------------------------------------------------------

section Pieces

variable {table : CharTable} {d : DataPath} {p : Pieces}

def separators : List Char := ['/', '[', ']', ':', '#']

namespace Pieces

def entityTokens (p : Pieces) : List (List Char) :=
  (if p.slash then [['/']] else []) ++ p.parts.intersperse ['/']

def instTokens (p : Pieces) : List (List Char) :=
  p.bracket.elim [] fun b => [['['], [b.1], b.2, [']']]

def compTokens (p : Pieces) : List (List Char) :=
  p.component.elim [] fun c => [':'] :: tokenizeBy separators c

theorem flatten_tokens (p : Pieces) :
    (p.entityTokens ++ p.instTokens ++ p.compTokens).flatten = p.text := by
  have hentity : p.entityTokens.flatten =
      (if p.slash then ['/'] else []) ++ ['/'].intercalate p.parts := by
    rw [entityTokens, List.flatten_append]
    cases p.slash <;> rfl
  have hinst : p.instTokens.flatten =
      p.bracket.elim [] fun b => '[' :: b.1 :: b.2 ++ [']'] := by
    rw [instTokens]
    cases p.bracket <;> simp
  have hcomp : p.compTokens.flatten = p.component.elim [] (':' :: ·) := by
    rw [compTokens]
    cases p.component <;> simp [flatten_tokenizeBy]
  rw [List.flatten_append, List.flatten_append, hentity, hinst, hcomp, text, suffix,
    ← List.append_assoc]

theorem tokens_compTokens (p : Pieces) : Tokens separators p.compTokens := by
  rw [compTokens]
  cases p.component with
  | none => exact .nil
  | some c => exact .separator (by decide) (tokens_tokenizeBy c)

theorem compTokens_head (p : Pieces) : ∀ u ∈ p.compTokens.head?, u = [':'] := by
  rw [compTokens]
  cases p.component <;> simp

theorem Spells.number (h : p.Spells table d) {b : Char × List Char} (hb : p.bracket = some b) :
    ∃ nr, fromStrRadix 10 64 b.2 = some nr ∧ d.nr = some nr := by
  have hnr := h.nr
  rw [hb, Option.map_some, eq_comm, Option.map_eq_some_iff] at hnr
  obtain ⟨nr, hd, hdigits⟩ := hnr
  exact ⟨nr, hdigits.symm, hd⟩

theorem Spells.digits (h : p.Spells table d) {b : Char × List Char} (hb : p.bracket = some b) :
    b.2 ≠ [] ∧ ∀ c ∈ b.2, c ∉ separators ∧ c ≠ '\\' := by
  obtain ⟨nr, hdigits, -⟩ := h.number hb
  exact ⟨(mem_of_fromStrRadix hdigits).1, plain_of_fromStrRadix (fun _ h => h) (by decide) hdigits⟩

theorem tokens_suffix (h : p.Spells table d) (ha : p.Accepted) :
    Tokens separators (p.instTokens ++ p.compTokens) := by
  rw [instTokens]
  cases hb : p.bracket with
  | none => exact p.tokens_compTokens
  | some b => ?_
  have hmark : b.1 ∈ separators := by
    have := ha.bracket b hb
    revert this
    generalize b.1 = m
    simp only [separators, List.mem_cons, List.not_mem_nil, or_false]
    tauto
  obtain ⟨hne, hplain⟩ := h.digits hb
  have hlast : b.2.getLast? ≠ some '\\' := fun he => (hplain _ (List.mem_of_getLast? he)).2 rfl
  refine .separator (by decide) (.separator hmark (.word (word_of_plain hne hplain) ?_ ?_))
  · rintro _ ⟨⟩
    exact ⟨hlast, ']', by decide, rfl⟩
  · exact .separator (by decide) p.tokens_compTokens

theorem tokens_parts {raws rest : List (List Char)}
    (hword : ∀ raw ∈ raws, Word separators raw)
    (hlast : ∀ raw ∈ (if rest = [] then raws.dropLast else raws), raw.getLast? ≠ some '\\')
    (hrest : ∀ u ∈ rest.head?, ∃ c ∈ separators, u = [c]) (h : Tokens separators rest) :
    Tokens separators (raws.intersperse ['/'] ++ rest) := by
  induction raws with
  | nil => exact h
  | cons raw raws ih => ?_
  obtain ⟨hraw, hraws⟩ := List.forall_mem_cons.mp hword
  cases raws with
  | nil =>
    refine .word hraw (fun u hu => ⟨?_, hrest u hu⟩) h
    refine hlast raw ?_
    rw [if_neg]
    · exact List.mem_cons_self
    · rintro rfl
      cases hu
  | cons next raws =>
    have hlast' : ∀ raw' ∈ (if rest = [] then (next :: raws).dropLast else next :: raws),
        raw'.getLast? ≠ some '\\' := by
      refine fun raw' hm => hlast raw' ?_
      by_cases hnil : rest = []
      · rw [if_pos hnil] at hm ⊢
        exact List.mem_cons_of_mem raw hm
      · rw [if_neg hnil] at hm ⊢
        exact List.mem_cons_of_mem raw hm
    rw [List.intersperse_cons_cons]
    refine .word hraw ?_ (.separator (by decide) (ih hraws hlast'))
    rintro _ ⟨⟩
    refine ⟨hlast raw ?_, '/', by decide, rfl⟩
    split
    · exact List.mem_cons_self
    · exact List.mem_cons_self

theorem suffix_eq_nil (p : Pieces) : p.suffix = [] ↔ p.instTokens ++ p.compTokens = [] := by
  rw [suffix, instTokens, compTokens]
  cases p.bracket <;> cases p.component <;> simp

theorem Spells.word (h : p.Spells table d) : ∀ raw ∈ p.parts, Word separators raw := by
  intro raw hraw
  obtain ⟨a, ha⟩ := h.parts.parsed raw hraw
  exact word_of_parseStrict (fun _ h => h) (fun he => h.ne_nil (he ▸ hraw)) ha

theorem Spells.ne_separator (h : p.Spells table d) {c : Char} (hc : c ∈ separators) :
    [c] ∉ p.parts := fun hm => (h.word _ hm).ne_separator hc rfl

theorem suffix_head (p : Pieces) :
    ∀ u ∈ (p.instTokens ++ p.compTokens).head?, ∃ c ∈ separators, u = [c] := by
  rw [instTokens]
  cases p.bracket with
  | none => exact fun u hu => ⟨':', by decide, p.compTokens_head u hu⟩
  | some b =>
    rintro _ ⟨⟩
    exact ⟨'[', by decide, rfl⟩

theorem tokens_text (h : p.Spells table d) (ha : p.Accepted) :
    Tokens separators (p.entityTokens ++ p.instTokens ++ p.compTokens) := by
  have hlast : ∀ raw ∈ (if p.instTokens ++ p.compTokens = [] then p.parts.dropLast else p.parts),
      raw.getLast? ≠ some '\\' := by
    simpa only [followed, p.suffix_eq_nil] using ha.followed
  have hparts := tokens_parts h.word hlast p.suffix_head (tokens_suffix h ha)
  rw [entityTokens, List.append_assoc, List.append_assoc]
  cases p.slash with
  | true => exact .separator (by decide) hparts
  | false => exact hparts

theorem mem_intersperse {raws : List (List Char)} {t : List Char}
    (h : t ∈ raws.intersperse ['/']) : t = ['/'] ∨ t ∈ raws := by
  induction raws with
  | nil => cases h
  | cons raw raws ih =>
    cases raws with
    | nil => exact .inr h
    | cons next raws =>
      rw [List.intersperse_cons_cons, List.mem_cons, List.mem_cons] at h
      rcases h with rfl | rfl | h
      · exact .inr List.mem_cons_self
      · exact .inl rfl
      · exact (ih h).imp_right (List.mem_cons_of_mem raw)

theorem Spells.not_mem_entityTokens (h : p.Spells table d) {c : Char} (hc : c ∈ separators)
    (hne : c ≠ '/') : [c] ∉ p.entityTokens := by
  rw [entityTokens, List.mem_append, not_or]
  constructor
  · cases p.slash <;> simp [hne]
  · intro hm
    rcases mem_intersperse hm with he | hm
    · exact hne (List.singleton_inj.mp he)
    · exact h.ne_separator hc hm

theorem Spells.colon_not_mem_instTokens (h : p.Spells table d) (ha : p.Accepted) :
    [':'] ∉ p.instTokens := by
  rw [instTokens]
  cases hb : p.bracket with
  | none => simp
  | some b =>
    obtain ⟨hne, hplain⟩ := h.digits hb
    have hmark : b.1 ≠ ':' := by
      intro he
      have := ha.bracket b hb
      rw [he] at this
      revert this
      decide
    have hword := (word_of_plain hne hplain).ne_separator (by decide : ':' ∈ separators)
    simp [hword.symm, hmark.symm]

theorem layout (h : p.Spells table d) (ha : p.Accepted) :
    d.Layout table p.entityTokens p.instTokens p.compTokens := by
  refine ⟨?_, ?_, h.not_mem_entityTokens (by decide) (by decide), ?_, ?_⟩
  · exact entityPathParts_eq_ok_iff.mpr ⟨p.slash, p.parts, h.root, rfl, h.parts⟩
  · rw [List.mem_append, not_or]
    exact ⟨h.not_mem_entityTokens (by decide) (by decide), h.colon_not_mem_instTokens ha⟩
  · rw [instTokens]
    cases hb : p.bracket with
    | none =>
      have hnr := h.nr
      rw [hb, Option.map_none, eq_comm, Option.map_eq_none_iff] at hnr
      exact .inl ⟨rfl, hnr⟩
    | some b =>
      obtain ⟨nr, hdigits, hnr⟩ := h.number hb
      exact .inr ⟨[b.1], b.2, nr, rfl, hdigits, hnr⟩
  · have hcomp := h.component
    rw [compTokens]
    cases hc : p.component with
    | none =>
      rw [hc] at hcomp
      exact .inl ⟨rfl, hcomp.symm⟩
    | some c =>
      rw [hc] at hcomp
      obtain ⟨hne, hlast⟩ := ha.component c hc
      have hflat := flatten_tokenizeBy separators c
      refine .inr ⟨tokenizeBy separators c, rfl, ?_, ?_, ?_⟩
      · intro hnil
        rw [hnil] at hflat
        exact hne hflat.symm
      · rwa [ne_eq, (tokens_tokenizeBy c).getLast?_eq_iff (by decide) (by decide), hflat]
      · rw [hflat]
        exact hcomp.symm

theorem fromStr_text (h : p.Spells table d) (ha : p.Accepted) :
    fromStr table (String.ofList p.text) = .ok d := by
  refine fromStr_eq_ok_iff_layout.mpr ⟨_, _, _, ?_, layout h ha⟩
  rw [tokenizeDataPath, String.toList_ofList]
  exact tokenizeBy_eq_iff.mpr ⟨p.flatten_tokens, tokens_text h ha⟩

theorem next_of_followed {raws rest : List (List Char)} {raw : List Char}
    (h : raw ∈ (if rest = [] then raws.dropLast else raws)) :
    ∃ front next back, raws.intersperse ['/'] ++ rest = front ++ raw :: next :: back := by
  induction raws with
  | nil => simp at h
  | cons first raws ih =>
    cases raws with
    | nil =>
      obtain ⟨next, back, rfl⟩ : ∃ next back, rest = next :: back := by
        refine List.exists_cons_of_ne_nil fun hnil => ?_
        rw [if_pos hnil] at h
        cases h
      rw [if_neg (by simp), List.mem_singleton] at h
      exact ⟨[], next, back, by rw [h]; rfl⟩
    | cons second raws =>
      rw [List.intersperse_cons_cons]
      have hm : raw = first ∨ raw ∈ (if rest = [] then (second :: raws).dropLast else
          second :: raws) := by
        by_cases hnil : rest = []
        · rw [if_pos hnil] at h ⊢
          exact List.mem_cons.mp h
        · rw [if_neg hnil] at h ⊢
          exact List.mem_cons.mp h
      rcases hm with rfl | hm
      · exact ⟨[], ['/'], _, rfl⟩
      · obtain ⟨front, next, back, he⟩ := ih hm
        refine ⟨first :: ['/'] :: front, next, back, ?_⟩
        rw [List.cons_append, List.cons_append, he]
        rfl

theorem mem_intersperse_of_mem {raws : List (List Char)} {raw : List Char} (h : raw ∈ raws) :
    raw ∈ raws.intersperse ['/'] := by
  induction raws with
  | nil => cases h
  | cons first raws ih =>
    cases raws with
    | nil => exact h
    | cons second raws =>
      rw [List.intersperse_cons_cons]
      rcases List.mem_cons.mp h with rfl | h
      · exact List.mem_cons_self
      · exact List.mem_cons_of_mem _ (List.mem_cons_of_mem _ (ih h))

theorem exists_bracket {entity inst comp : List (List Char)}
    (h : d.Layout table entity inst comp) (ht : Tokens separators (inst ++ comp)) :
    ∃ bracket : Option (Char × List Char),
      inst = (bracket.elim [] fun b => [['['], [b.1], b.2, [']']]) ∧
      bracket.map (fun b => fromStrRadix 10 64 b.2) = d.nr.map some ∧
      ∀ b ∈ bracket, b.1 ∈ ['/', '[', ']', '#'] := by
  rcases h.inst with ⟨rfl, hnr⟩ | ⟨x, digits, nr, rfl, hdigits, hnr⟩
  · exact ⟨none, rfl, by rw [hnr]; rfl, by simp⟩
  · have hplain := @plain_of_fromStrRadix separators (fun _ h => h) _ _ _ (by decide) _ hdigits
    -- Two words do not follow each other.
    obtain ⟨c, hc, rfl⟩ : ∃ c ∈ separators, x = [c] := by
      rcases ht.tail.head with hx | ⟨-, hnext⟩
      · exact hx
      · obtain ⟨-, c, hc, rfl⟩ := hnext digits rfl
        exact absurd hc (hplain c (by simp)).1
    have hcolon : c ≠ ':' := by
      rintro rfl
      exact h.noColon (by simp)
    refine ⟨some (c, digits), rfl, by rw [hnr]; exact congrArg some hdigits, ?_⟩
    rintro _ ⟨⟩
    simp only [separators, List.mem_cons, List.not_mem_nil, or_false] at hc ⊢
    tauto

theorem exists_component {entity inst comp : List (List Char)}
    (h : d.Layout table entity inst comp) (ht : Tokens separators comp) :
    ∃ component : Option (List Char),
      comp = (component.elim [] fun c => [':'] :: tokenizeBy separators c) ∧
      component.map String.ofList = d.component ∧
      ∀ c ∈ component, c ≠ [] ∧ ¬ EndsIn ':' c := by
  rcases h.comp with ⟨rfl, hd⟩ | ⟨tokens, rfl, hnil, hlast, hd⟩
  · exact ⟨none, rfl, hd.symm, by simp⟩
  · refine ⟨some tokens.flatten, ?_, hd.symm, ?_⟩
    · rw [Option.elim_some, ht.tail.tokenizeBy_flatten]
    · rintro _ ⟨⟩
      refine ⟨fun he => ?_, ?_⟩
      · obtain ⟨t, tokens, rfl⟩ := List.exists_cons_of_ne_nil hnil
        exact ht.tail.ne_nil t List.mem_cons_self (List.append_eq_nil_iff.mp he).1
      · rwa [← ht.tail.getLast?_eq_iff (by decide) (by decide)]

theorem exists_of_fromStr {text : List Char} (h : fromStr table (String.ofList text) = .ok d) :
    ∃ p : Pieces, p.text = text ∧ p.Spells table d ∧ p.Accepted := by
  obtain ⟨entity, inst, comp, he, hl⟩ := fromStr_eq_ok_iff_layout.mp h
  rw [tokenizeDataPath, String.toList_ofList] at he
  obtain ⟨hflat, htokens⟩ := tokenizeBy_eq_iff.mp he
  rw [List.append_assoc] at htokens
  obtain ⟨slash, raws, hroot, rfl, hread⟩ := entityPathParts_eq_ok_iff.mp hl.parts
  obtain ⟨bracket, hinst, hnr, hmark⟩ := exists_bracket hl htokens.of_append
  obtain ⟨component, hcomp, hd, hcheck⟩ := exists_component hl htokens.of_append.of_append
  refine ⟨⟨slash, raws, bracket, component⟩, ?_, ⟨hroot, fun hm => ?_, hread, hnr, hd⟩,
    ⟨hmark, hcheck, fun raw hraw => ?_⟩⟩
  · rw [← hflat, hinst, hcomp, ← flatten_tokens]
    rfl
  · refine htokens.ne_nil [] ?_ rfl
    exact List.mem_append_left _ (List.mem_append_right _ (mem_intersperse_of_mem hm))
  · have hmem : raw ∈ raws := by
      rw [followed] at hraw
      split at hraw
      · exact List.mem_of_mem_dropLast hraw
      · exact hraw
    simp only [followed, suffix_eq_nil, instTokens, compTokens, ← hinst, ← hcomp] at hraw
    obtain ⟨front, next, back, hnext⟩ := next_of_followed hraw
    rw [List.append_assoc, hnext] at htokens
    rcases htokens.of_append.of_append.head with ⟨c, hc, rfl⟩ | ⟨-, hlast⟩
    · obtain ⟨a, ha⟩ := hread.parsed _ hmem
      exact absurd rfl (ne_separator_of_parsed ha hc)
    · exact (hlast next rfl).1

-- ---------------------------------------------------------------------------
-- A text is cut in one way
-- ---------------------------------------------------------------------------

def Stops (l : List Char) : Prop := ∀ c ∈ l.head?, c ∈ separators

theorem eq_of_parsed {raw raw' a a' x x' : List Char} (h : parseStrictChars table raw = .ok a)
    (h' : parseStrictChars table raw' = .ok a') (hx : Stops x) (hx' : Stops x')
    (he : raw ++ x = raw' ++ x') : raw = raw' ∧ x = x' := by
  have key : ∀ {raw a : List Char} {more y : List Char}, parseStrictChars table raw = .ok a →
      (∃ b, parseStrictChars table (raw ++ more) = .ok b) → Stops (more ++ y) → more = [] := by
    intro raw a more y h hmore hstop
    cases more with
    | nil => rfl
    | cons c more => ?_
    have hc : c ∈ separators := hstop c rfl
    have hprint : printAsIs table c = false := by
      cases hp : printAsIs table c with
      | false => rfl
      | true => exact absurd hc (printAsIs_special (fun _ h => h) hp)
    have hback : c ≠ '\\' := by
      rintro rfl
      revert hc
      decide
    obtain ⟨b, hb⟩ := hmore
    obtain ⟨e, he⟩ := parseStrictChars_more hprint hback more h
    rw [hb] at he
    cases he
  rcases List.append_eq_append_iff.mp he with ⟨more, rfl, rfl⟩ | ⟨more, rfl, rfl⟩
  · rw [key h ⟨a', h'⟩ hx]
    simp
  · rw [key h' ⟨a, h⟩ hx']
    simp

theorem intercalate_cons (raw : List Char) (raws : List (List Char)) :
    ['/'].intercalate (raw :: raws) =
      raw ++ if raws = [] then [] else '/' :: ['/'].intercalate raws := by
  cases raws with
  | nil => simp [List.intercalate]
  | cons next raws => simp [List.intercalate]

def Suffixed (l : List Char) : Prop := ∀ c ∈ l.head?, c ∈ separators ∧ c ≠ '/'

theorem parts_unique {raws raws' : List (List Char)}
    (h : ∀ raw ∈ raws, ∃ a, parseStrictChars table raw = .ok a)
    (h' : ∀ raw ∈ raws', ∃ a, parseStrictChars table raw = .ok a)
    (hne : raws ≠ []) (hne' : raws' ≠ []) {x x' : List Char} (hx : Suffixed x) (hx' : Suffixed x')
    (he : ['/'].intercalate raws ++ x = ['/'].intercalate raws' ++ x') : raws = raws' ∧ x = x' := by
  induction raws generalizing raws' with
  | nil => exact absurd rfl hne
  | cons raw raws ih => ?_
  cases raws' with
  | nil => exact absurd rfl hne'
  | cons raw' raws' => ?_
  obtain ⟨⟨a, ha⟩, hraws⟩ := List.forall_mem_cons.mp h
  obtain ⟨⟨a', ha'⟩, hraws'⟩ := List.forall_mem_cons.mp h'
  have hstop : ∀ {raws : List (List Char)} {x : List Char}, Suffixed x →
      Stops ((if raws = [] then [] else '/' :: ['/'].intercalate raws) ++ x) := by
    intro raws x hx
    cases raws with
    | nil => exact fun c hc => (hx c hc).1
    | cons next raws =>
      rintro _ ⟨⟩
      decide
  rw [intercalate_cons, intercalate_cons, List.append_assoc, List.append_assoc] at he
  obtain ⟨rfl, htail⟩ := eq_of_parsed ha ha' (hstop hx) (hstop hx') he
  cases raws with
  | nil =>
    cases raws' with
    | nil => exact ⟨rfl, htail⟩
    | cons next raws' =>
      obtain rfl : x = '/' :: (['/'].intercalate (next :: raws') ++ x') := by simpa using htail
      exact absurd rfl (hx '/' rfl).2
  | cons next raws =>
    cases raws' with
    | nil =>
      obtain rfl : x' = '/' :: (['/'].intercalate (next :: raws) ++ x) := by simpa using htail.symm
      exact absurd rfl ( hx' '/' rfl).2
    | cons next' raws' =>
      obtain ⟨hparts, rfl⟩ := ih hraws hraws' (by simp) (by simp) (by simpa using htail)
      exact ⟨by rw [hparts], rfl⟩

theorem suffixed (p : Pieces) : Suffixed p.suffix := by
  rw [suffix]
  cases p.bracket with
  | some b =>
    rintro _ ⟨⟩
    decide
  | none =>
    cases p.component with
    | some c =>
      rintro _ ⟨⟩
      decide
    | none => simp [Suffixed]

theorem Spells.suffix_unique {p' : Pieces} {d' : DataPath} (h : p.Spells table d)
    (h' : p'.Spells table d') (he : p.suffix = p'.suffix) :
    p.bracket = p'.bracket ∧ p.component = p'.component := by
  have hcomp : ∀ {c c' : Option (List Char)}, c.elim [] (':' :: ·) = c'.elim [] (':' :: ·) →
      c = c' := by
    intro c c' he
    cases c <;> cases c' <;> simp_all
  rw [suffix, suffix] at he
  cases hb : p.bracket with
  | none =>
    rw [hb] at he
    cases hb' : p'.bracket with
    | none =>
      rw [hb'] at he
      exact ⟨rfl, hcomp he⟩
    | some b' =>
      rw [hb'] at he
      cases hc : p.component <;> simp [hc] at he
  | some b =>
    rw [hb] at he
    cases hb' : p'.bracket with
    | none =>
      rw [hb'] at he
      cases hc : p'.component <;> simp [hc] at he
    | some b' =>
      rw [hb'] at he
      simp only [Option.elim_some, List.cons_append, List.append_assoc, List.nil_append,
        List.cons.injEq, true_and] at he
      have hclose : ∀ {l : List Char}, (∀ c ∈ l, c ∉ separators ∧ c ≠ '\\') → ']' ∉ l :=
        fun hl hm => (hl ']' hm).1 (by decide)
      obtain ⟨hdigits, htail⟩ :=
        eq_of_first (hclose (h.digits hb).2) (hclose (h'.digits hb').2) he.2
      exact ⟨congrArg some (Prod.ext he.1 hdigits), hcomp htail⟩

theorem Spells.head (h : p.Spells table d) (hne : p.parts ≠ []) (x : List Char) :
    ∃ c rest, c ∉ separators ∧ ['/'].intercalate p.parts ++ x = c :: rest := by
  obtain ⟨raw, raws, he⟩ := List.exists_cons_of_ne_nil hne
  have hword := h.word raw (he ▸ List.mem_cons_self)
  obtain ⟨c, raw, rfl⟩ := List.exists_cons_of_ne_nil hword.ne_nil
  exact ⟨c, _, hword.head, by rw [he, intercalate_cons]; rfl⟩

theorem Spells.slash_unique {p' : Pieces} {d' : DataPath}
    (h' : p'.Spells table d') (he : p.text = p'.text) (hslash : p.slash = true) :
    p'.slash = true := by
  by_contra hno
  have hne : p'.parts ≠ [] := fun hnil => hno (h'.root hnil)
  obtain ⟨c, rest, hc, hhead⟩ := h'.head hne p'.suffix
  rw [text, text, hslash, if_pos rfl, if_neg hno, List.nil_append, hhead, List.append_assoc,
    List.singleton_append] at he
  rw [← List.head_eq_of_cons_eq he] at hc
  exact hc (by decide)

theorem Spells.root_unique {p' : Pieces} {d' : DataPath} (h' : p'.Spells table d')
    (he : ['/'].intercalate p.parts ++ p.suffix = ['/'].intercalate p'.parts ++ p'.suffix)
    (hnil : p.parts = []) : p'.parts = [] := by
  by_contra hne
  obtain ⟨c, rest, hc, hhead⟩ := h'.head hne p'.suffix
  rw [hnil, hhead] at he
  exact hc (p.suffixed c (by rw [show p.suffix = c :: rest from he]; rfl)).1

theorem Spells.unique {p' : Pieces} {d' : DataPath} (h : p.Spells table d)
    (h' : p'.Spells table d') (he : p.text = p'.text) : p = p' := by
  have hslash : p.slash = p'.slash :=
    Bool.eq_iff_iff.mpr ⟨h'.slash_unique he, h.slash_unique he.symm⟩
  have hrest : ['/'].intercalate p.parts ++ p.suffix =
      ['/'].intercalate p'.parts ++ p'.suffix := by
    rw [text, text, hslash, List.append_assoc, List.append_assoc] at he
    exact List.append_cancel_left he
  have hparts : p.parts = p'.parts ∧ p.suffix = p'.suffix := by
    by_cases hnil : p.parts = []
    · have hnil' := h'.root_unique hrest hnil
      rw [hnil, hnil'] at hrest ⊢
      exact ⟨rfl, hrest⟩
    · have hnil' : p'.parts ≠ [] := fun he => hnil (h.root_unique hrest.symm he)
      exact parts_unique h.parts.parsed h'.parts.parsed hnil hnil' p.suffixed p'.suffixed hrest
  obtain ⟨hbracket, hcomponent⟩ := h.suffix_unique h' hparts.2
  exact Pieces.ext hslash hparts.1 hbracket hcomponent

theorem fromStr_eq_ok_iff {path : String} :
    fromStr table path = .ok d ↔ ∃ p : Pieces, p.text = path.toList ∧ p.Spells table d ∧
      p.Accepted := by
  constructor
  · intro h
    exact exists_of_fromStr (by rwa [String.ofList_toList])
  · rintro ⟨p, he, h, ha⟩
    have := fromStr_text h ha
    rwa [he, String.ofList_toList] at this

end Pieces

end Pieces

/-- The texts that are read are those of the grammar exactly if the pieces are accepted
exactly if they are as documented. -/
theorem fromStr_iff_grammar (table : CharTable) (path : String) :
    (∀ d, fromStr table path = .ok d ↔ Grammar table path.toList d) ↔
      ∀ (p : Pieces) (d : DataPath), p.text = path.toList → p.Spells table d →
        (p.Accepted ↔ p.Documented) := by
  constructor
  · intro h p d he hp
    constructor
    · intro ha
      obtain ⟨p', he', hp', hdoc⟩ := (h d).mp (Pieces.fromStr_eq_ok_iff.mpr ⟨p, he, hp, ha⟩)
      rwa [hp.unique hp' (he.trans he'.symm)]
    · intro hdoc
      obtain ⟨p', he', hp', ha⟩ := Pieces.fromStr_eq_ok_iff.mp ((h d).mpr ⟨p, he, hp, hdoc⟩)
      rwa [hp.unique hp' (he.trans he'.symm)]
  · intro h d
    rw [Pieces.fromStr_eq_ok_iff, Grammar]
    exact exists_congr fun p => and_congr_right fun he => and_congr_right fun hp => h p d he hp

def slashPieces : Pieces := ⟨false, [['a']], some ('/', ['4']), none⟩

theorem slashPieces_spells : slashPieces.Spells .asciiOnly ⟨["a"], some 4, none⟩ where
  root := by rintro ⟨⟩
  ne_nil := by decide
  parts := by
    refine .cons ?_ .nil
    rw [parseStrictChars_asIs (by decide), parseStrictChars]
    rfl
  nr := by decide
  component := rfl

/-- `a[/4]` is read as if it were `a[#4]`. -/
theorem slash_in_brackets :
    fromStr .asciiOnly "a[/4]" = .ok ⟨["a"], some 4, none⟩ ∧
      ¬ Grammar .asciiOnly "a[/4]".toList ⟨["a"], some 4, none⟩ := by
  constructor
  · refine Pieces.fromStr_eq_ok_iff.mpr ⟨slashPieces, by decide, slashPieces_spells, ?_, ?_, ?_⟩
    all_goals decide
  · rintro ⟨p, he, hp, hdoc⟩
    obtain rfl : slashPieces = p := slashPieces_spells.unique hp (he.symm ▸ by decide)
    exact absurd (hdoc.bracket _ rfl).1 (by decide)

end DataPath

end DimosViewer
