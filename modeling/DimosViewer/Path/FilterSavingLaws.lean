import Mathlib.Data.Bool.AllAny
import DimosViewer.Path.FilterSaving

/-!
# Filters survive being saved and loaded

The expressions of a filter are read back as they were. In the text of a resolved
filter the newline behind a backslash does not end a rule: it becomes part of it, as
does the sign of the next one, which is then read without.
-/

namespace DimosViewer

open Std (TreeMap)

namespace EntityPathFilter

-- ---------------------------------------------------------------------------
-- Expressions
-- ---------------------------------------------------------------------------

theorem ruleOf_congr {l m : List Char} (h : trim l = trim m) : ruleOf l = ruleOf m := by
  simp only [ruleOf, h]

def written (sign : Option RuleEffect) (l : List Char) : List Char :=
  match sign with
  | none => l
  | some effect => effect.sign :: ' ' :: l

theorem ruleOf_written (sign : Option RuleEffect) {l : List Char} (h : Trimmed l) :
    ruleOf (written sign l) = some (String.ofList l, sign.getD .include) := by
  obtain ⟨c, m, rfl⟩ := List.exists_cons_of_ne_nil (show l ≠ [] by rintro rfl; cases h.head)
  obtain rfl : c = '/' := Option.some.inj h.head
  cases sign with
  | none =>
    simp [written, ruleOf, h.trim_eq, EntityPathRule.new]
  | some effect =>
    have htrim : trim (written (some effect) ('/' :: m)) = written (some effect) ('/' :: m) := by
      refine trim_eq_self (fun c hc => ?_) fun c hc => h.last c ?_
      · obtain rfl := Option.some.inj hc
        cases effect <;> decide
      · rwa [written, List.getLast?_cons_cons, List.getLast?_cons_cons] at hc
    have hnew : EntityPathRule.new (' ' :: '/' :: m) = String.ofList ('/' :: m) := by
      rw [EntityPathRule.new, trim_blank, h.trim_eq]
    rw [ruleOf, htrim]
    cases effect <;> exact congrArg (fun rule => some (rule, _)) hnew

theorem parseForgiving_congr {a b : String} {substEnv : EntityPathSubs}
    (h : EntityPathRule.new a.toList = EntityPathRule.new b.toList) :
    ResolvedEntityPathRule.parseForgiving a substEnv =
      ResolvedEntityPathRule.parseForgiving b substEnv := by
  simp only [ResolvedEntityPathRule.parseForgiving, h]

theorem resolveForgiving_congr {table : CharTable} {natural : NaturalOrder}
    {substEnv : EntityPathSubs} {a b : EntityPathFilter}
    (h : resolvedRules substEnv a.rules.toList = resolvedRules substEnv b.rules.toList) :
    a.resolveForgiving table natural substEnv = b.resolveForgiving table natural substEnv := by
  have hunfold : ∀ filter : EntityPathFilter, filter.resolveForgiving table natural substEnv =
      ⟨(insertEntries (resolvedRules substEnv filter.rules.toList)).insertIfNew
        (.includingSubtree table .properties) .exclude⟩ := fun _ => rfl
  rw [hunfold, hunfold, h]

section Expressions

variable {table : CharTable} {rules : List PathRule}

theorem escaped_rules (hspace : table.BlanksApart) :
    ∀ e ∈ (ofPathRules table rules).rules.toList,
      Escaped e.1.toList ∧ e.1.toList.head? = some '/' := by
  intro e he
  rw [ofPathRules_eq] at he
  obtain ⟨i, hi⟩ := mem_toList_insertEntries.mp he
  obtain ⟨r, -, rfl⟩ := List.mem_map.mp hi.mem
  exact escaped_spelling hspace r.target

theorem filterMap_iterExpressions (hspace : table.BlanksApart) :
    (ofPathRules table rules).iterExpressions.filterMap ruleOf =
      (ofPathRules table rules).rules.toList.map fun e => (EntityPathRule.new e.1.toList, e.2) := by
  rw [iterExpressions, List.filterMap_map, ← List.filterMap_eq_map]
  refine List.filterMap_congr fun ⟨rule, effect⟩ he => ?_
  obtain ⟨h, hhead⟩ := escaped_rules hspace _ he
  obtain ⟨htrimmed, heq⟩ := trim_escaped h hhead
  refine Eq.trans (ruleOf_congr ?_) (ruleOf_written (some effect) htrimmed)
  rcases heq with heq | ⟨heq, -⟩
  · rw [heq]
    rfl
  · refine Eq.trans ?_ (trim_concat_blank _)
    exact congrArg (fun l => trim (effect.sign :: ' ' :: l)) heq

theorem toList_fromQueryExpressions (hspace : table.BlanksApart) :
    (fromQueryExpressions (ofPathRules table rules).iterExpressions).rules.toList =
      (ofPathRules table rules).rules.toList.map fun e => (EntityPathRule.new e.1.toList, e.2) := by
  rw [fromQueryExpressions, filterMap_iterExpressions hspace]
  refine toList_insertEntries (List.pairwise_map.mpr ?_)
  refine TreeMap.ordered_keys_toList.imp_of_mem fun {a b} ha hb hlt => ?_
  obtain ⟨ha, hahead⟩ := escaped_rules hspace a ha
  obtain ⟨hb, hbhead⟩ := escaped_rules hspace b hb
  rw [compare_eq_lt_iff] at hlt ⊢
  simp only [EntityPathRule.new, String.toList_ofList]
  exact trim_lt_trim ha hb hahead hbhead hlt

theorem resolveForgiving_iterExpressions (hspace : table.BlanksApart) (natural : NaturalOrder)
    (substEnv : EntityPathSubs) :
    (fromQueryExpressions (ofPathRules table rules).iterExpressions).resolveForgiving table natural
      substEnv = (ofPathRules table rules).resolveForgiving table natural substEnv := by
  refine resolveForgiving_congr ?_
  rw [toList_fromQueryExpressions hspace, resolvedRules, List.map_map]
  refine List.map_congr_left fun entry he => ?_
  obtain ⟨rule, effect⟩ := entry
  obtain ⟨h, hhead⟩ := escaped_rules hspace _ he
  refine congrArg (·, effect) (parseForgiving_congr ?_)
  simp only [EntityPathRule.new, String.toList_ofList, (trim_escaped h hhead).1.trim_eq]

end Expressions

-- ---------------------------------------------------------------------------
-- Lines
-- ---------------------------------------------------------------------------

theorem isWhitespace_of_ascii {c : Char} (h : isAsciiWhitespace c = true) :
    isWhitespace c = true := by
  simp only [isAsciiWhitespace, Bool.or_eq_true, beq_iff_eq] at h
  rcases h with (((rfl | rfl) | rfl) | rfl) | rfl <;> decide

theorem scanRule_over {b : Bool} {l : List Char} (h : BlanksEscaped b l) (rest : List Char) :
    scanRule b false false (l ++ rest) =
      (l ++ (scanRule (escapeAfter b l) false false rest).1,
        (scanRule (escapeAfter b l) false false rest).2) := by
  induction l generalizing b with
  | nil => rfl
  | cons c l ih =>
    have hc : (!b && isAsciiWhitespace c) = false := by
      rcases h.1 with rfl | hblank
      · rfl
      · rw [Bool.and_eq_false_iff]
        exact .inr (Bool.eq_false_iff.mpr fun hc => by simp [isWhitespace_of_ascii hc] at hblank)
    have hnewline : (!b && c == '\n') = false := by
      rw [Bool.and_eq_false_iff] at hc ⊢
      refine hc.imp_right fun hc => Bool.eq_false_iff.mpr fun heq => ?_
      rw [beq_iff_eq.mp heq] at hc
      cases hc
    rw [List.cons_append, scanRule]
    simp only [hc, hnewline, Bool.and_false, Bool.or_false, Bool.false_eq_true, if_false,
      Bool.not_false, ite_self, ih h.2, ← escapeAfter_cons b c l]
    rfl

structure RuleText (l : List Char) : Prop extends Trimmed l where
  blanks : BlanksEscaped false l

theorem RuleText.exists_cons (h : RuleText l) : ∃ m, l = '/' :: m := by
  obtain ⟨c, m, rfl⟩ := List.exists_cons_of_ne_nil (show l ≠ [] by rintro rfl; cases h.head)
  exact ⟨m, congrArg (· :: m) (Option.some.inj h.head)⟩

theorem scanRule_written (sign : Option RuleEffect) {l : List Char} (h : RuleText l)
    (rest : List Char) :
    scanRule false false true (written sign l ++ rest) =
      (written sign l ++ (scanRule (escapeAfter false l) false false rest).1,
        (scanRule (escapeAfter false l) false false rest).2) := by
  obtain ⟨m, rfl⟩ := h.exists_cons
  have hslash : ∀ signed : Bool, scanRule false signed true ('/' :: (m ++ rest)) =
      ('/' :: (scanRule false false false (m ++ rest)).1,
        (scanRule false false false (m ++ rest)).2) := by
    intro signed
    cases signed <;> rfl
  have hover := scanRule_over h.blanks.2 rest
  rw [escapeAfter_cons false] at hover
  cases sign with
  | none =>
    rw [written, List.cons_append, hslash]
    exact congrArg (fun s => ('/' :: s.1, s.2)) hover
  | some effect =>
    have hsign : ∀ l, scanRule false false true (effect.sign :: ' ' :: l) =
        (effect.sign :: ' ' :: (scanRule false true true l).1, (scanRule false true true l).2) := by
      intro l
      cases effect <;> rfl
    rw [written, List.cons_append, List.cons_append, List.cons_append, hsign, hslash]
    exact congrArg (fun s => (effect.sign :: ' ' :: '/' :: s.1, s.2)) hover

theorem splitWhitespaceSmart_eq {l token rest : List Char} {b : Bool}
    (hscan : scanRule false false true l = (token, rest, b)) (hne : token ≠ []) :
    splitWhitespaceSmart l = token :: splitWhitespaceSmart (skipWhitespace b rest) := by
  cases l with
  | nil =>
    rw [scanRule, Prod.mk.injEq] at hscan
    exact absurd hscan.1.symm hne
  | cons c l =>
    rw [splitWhitespaceSmart, hscan]
    simp [hne]

/-- The lines of some rules, of which the first may have lost its sign. -/
def linesFrom (sign : Option RuleEffect) (rule : EntityPathRule)
    (rules : List (EntityPathRule × RuleEffect)) : List Char :=
  written sign rule.toList ++ rules.flatMap fun e => '\n' :: written (some e.2) e.1.toList

/-- A backslash in front of it hides the newline. -/
def HidesNewline (rule : EntityPathRule) : Prop := rule.toList.getLast? = some '\\'

instance : DecidablePred HidesNewline := fun _ => inferInstanceAs (Decidable (_ = _))

def readBack (sign : Option RuleEffect) (rule : EntityPathRule) :
    List (EntityPathRule × RuleEffect) → List (EntityPathRule × RuleEffect)
  | [] => [(rule, sign.getD .include)]
  | (next, effect) :: rules =>
    if HidesNewline rule then
      (String.ofList (rule.toList ++ ['\n', effect.sign]), sign.getD .include) ::
        readBack none next rules
    else (rule, sign.getD .include) :: readBack (some effect) next rules

theorem written_append (sign : Option RuleEffect) (l m : List Char) :
    written sign l ++ m = written sign (l ++ m) := by
  cases sign <;> rfl

theorem written_ne_nil (sign : Option RuleEffect) {l : List Char} (h : RuleText l) :
    written sign l ≠ [] := by
  obtain ⟨m, rfl⟩ := h.exists_cons
  cases sign <;> exact List.cons_ne_nil _ _

theorem trimmed_swallow {l : List Char} (h : RuleText l) (effect : RuleEffect) :
    Trimmed (l ++ ['\n', effect.sign]) := by
  obtain ⟨m, rfl⟩ := h.exists_cons
  refine ⟨rfl, fun c hc => ?_⟩
  rw [List.getLast?_append] at hc
  obtain rfl := Option.some.inj hc
  cases effect <;> decide

theorem filterMap_splitWhitespaceSmart (sign : Option RuleEffect) {rule : EntityPathRule}
    {rules : List (EntityPathRule × RuleEffect)}
    (h : ∀ r ∈ rule :: rules.map Prod.fst, RuleText r.toList) :
    (splitWhitespaceSmart (linesFrom sign rule rules)).filterMap ruleOf =
      readBack sign rule rules := by
  induction rules generalizing sign rule with
  | nil =>
    have hrule := h rule List.mem_cons_self
    have hscan := scanRule_written sign hrule []
    rw [scanRule, List.append_nil] at hscan
    rw [linesFrom, List.flatMap_nil, List.append_nil,
      splitWhitespaceSmart_eq hscan (written_ne_nil sign hrule), skipWhitespace,
      splitWhitespaceSmart, List.filterMap_cons_some (ruleOf_written sign hrule.toTrimmed),
      String.ofList_toList]
    rfl
  | cons e rules ih =>
    obtain ⟨next, effect⟩ := e
    obtain ⟨hrule, h⟩ := List.forall_mem_cons.mp h
    obtain ⟨m, hm⟩ := (h next List.mem_cons_self).exists_cons
    have hscan := scanRule_written sign hrule ('\n' :: linesFrom (some effect) next rules)
    have htext : linesFrom sign rule ((next, effect) :: rules) =
        written sign rule.toList ++ '\n' :: linesFrom (some effect) next rules := rfl
    rw [htext, readBack]
    by_cases hlast : HidesNewline rule
    · have hsign : scanRule true false false ('\n' :: linesFrom (some effect) next rules) =
          (['\n', effect.sign], ' ' :: linesFrom none next rules, false) := by
        cases effect <;> rfl
      have hskip : skipWhitespace false (' ' :: linesFrom none next rules) =
          linesFrom none next rules := by
        rw [linesFrom, written, hm]
        rfl
      rw [escapeAfter_eq_true.mpr hlast, hsign] at hscan
      dsimp only at hscan
      rw [if_pos hlast, splitWhitespaceSmart_eq hscan (List.append_ne_nil_of_left_ne_nil
          (written_ne_nil sign hrule) _), hskip, written_append,
        List.filterMap_cons_some (ruleOf_written sign (trimmed_swallow hrule effect)), ih none h]
    · have hstop : scanRule false false false ('\n' :: linesFrom (some effect) next rules) =
          ([], '\n' :: linesFrom (some effect) next rules, false) := rfl
      have hskip : skipWhitespace false ('\n' :: linesFrom (some effect) next rules) =
          linesFrom (some effect) next rules := by
        cases effect <;> rfl
      rw [Bool.eq_false_iff.mpr (mt escapeAfter_eq_true.mp hlast), hstop, List.append_nil] at hscan
      rw [if_neg hlast, splitWhitespaceSmart_eq hscan (written_ne_nil sign hrule), hskip,
        List.filterMap_cons_some (ruleOf_written sign hrule.toTrimmed), String.ofList_toList,
        ih (some effect) h]

-- ---------------------------------------------------------------------------
-- Substitution
-- ---------------------------------------------------------------------------

theorem replaceFrom_of_notMem {c : Char} {l : List Char} (h : c ∉ l) (pattern value : List Char) :
    replaceFrom (c :: pattern) value 0 l = l := by
  induction l with
  | nil => rfl
  | cons d l ih =>
    rw [List.mem_cons, not_or] at h
    rw [replaceFrom, if_neg (by simp [List.isPrefixOf, h.1]), ih h.2]

theorem substituteVariables_of_notMem {rule : EntityPathRule} (h : '$' ∉ rule.toList)
    (substEnv : EntityPathSubs) :
    ResolvedEntityPathRule.substituteVariables rule substEnv = rule.toList := by
  rw [ResolvedEntityPathRule.substituteVariables]
  induction substEnv with
  | nil => rfl
  | cons e substEnv ih =>
    rw [List.foldl_cons]
    simp only [replace, List.cons_append, replaceFrom_of_notMem h]
    exact ih

theorem spelling_properties (table : CharTable) :
    EntityPathRule.includingEntitySubtree table .properties = "/__properties/**" := by
  have hprint : ∀ c ∈ "__properties".toList, printAsIs table c = true := by
    intro c hc
    have hlt : ∀ c ∈ "__properties".toList, c.toNat < 128 ∧
        (c.isAlphanum || c == '_' || c == '-' || c == '.') = true :=
      List.all_iff_forall_prop.mp (by decide)
    rw [printAsIs_ascii (hlt c hc).1, (hlt c hc).2]
  have hpart : escapedString table "__properties" = "__properties".toList := by
    rw [escapedString]
    conv_rhs => rw [← List.flatMap_singleton' "__properties".toList]
    refine List.flatMap_congr fun c hc => ?_
    simp [escapeChar, hprint c hc]
  rw [EntityPathRule.includingEntitySubtree, EntityPathRule.includingSubtree, EntityPath.display,
    EntityPath.properties, ← String.toList_inj, String.toList_append]
  simp [hpart]

theorem parseForgiving_properties (table : CharTable) (substEnv : EntityPathSubs) :
    ResolvedEntityPathRule.parseForgiving "/__properties/**" substEnv =
      .includingSubtree table .properties := by
  have hnew : EntityPathRule.new "/__properties/**".toList = "/__properties/**" := by
    decide +kernel
  have hsuffix : stripSuffix ['/', '*', '*'] "/__properties/**".toList =
      some "/__properties".toList := by decide
  have hpath : EntityPath.parseForgivingUncached (String.ofList "/__properties".toList) =
      EntityPath.properties := by decide +kernel
  simp only [ResolvedEntityPathRule.parseForgiving, hnew,
    @substituteVariables_of_notMem "/__properties/**" (by decide), hsuffix, hpath,
    ResolvedEntityPathRule.includingSubtree, spelling_properties]
  rfl

-- ---------------------------------------------------------------------------
-- The last character of a path
-- ---------------------------------------------------------------------------

theorem getLast?_cons_of_getLast? {l : List α} {a c : α} (h : l.getLast? = some c) :
    (a :: l).getLast? = some c := by
  rw [List.getLast?_cons, h]
  rfl

theorem getLast?_of_cons {l : List α} {a c : α} (h : (a :: l).getLast? = some c) (hl : l ≠ []) :
    l.getLast? = some c := by
  rw [← h, List.getLast?_cons_of_ne_nil hl]

theorem text_of_parseUnicodeEscape {chars text : List Char}
    (h : (parseUnicodeEscape chars).1 = .error text) : text = (takeUnicodeEscape [] chars).1 := by
  have helim : ∀ parsed : Option Char,
      (parsed.elim (.error (takeUnicodeEscape [] chars).1) .ok : Except (List Char) Char) =
        .error text → text = (takeUnicodeEscape [] chars).1 := by
    intro parsed h
    cases parsed with
    | none => exact (Except.error.inj h).symm
    | some c => cases h
  exact helim _ h

theorem getLast?_parseForgivingChars {c : Char} (hbrace : c ≠ '\x7d')
    (hself : (unescapeChar c).getD c = c) {chars : List Char} (h : chars.getLast? = some c) :
    (parseForgivingChars chars).getLast? = some c := by
  induction chars using parseForgivingChars.induct with
  | case1 => cases h
  | case2 => simpa [parseForgivingChars] using h
  | case3 chars parsed d hd ih =>
    replace hd : (parseUnicodeEscape chars).1 = .ok d := hd
    have happend := takeUnicodeEscape_append [] chars
    rw [List.nil_append] at happend
    have hbracelast := brace_of_parseUnicodeEscape hd
    have hne : chars ≠ [] := by
      rintro rfl
      cases hbracelast
    replace h := getLast?_of_cons (getLast?_of_cons h (List.cons_ne_nil _ _)) hne
    have hrest : (parseUnicodeEscape chars).2 ≠ [] := by
      intro hnil
      replace hnil : (takeUnicodeEscape [] chars).2 = [] := hnil
      rw [hnil, List.append_nil] at happend
      rw [happend, List.getLast?_tail] at hbracelast
      split at hbracelast
      · cases hbracelast
      · exact hbrace (Option.some.inj (h.symm.trans hbracelast))
    rw [parseForgivingChars, if_pos rfl]
    simp only [hd]
    refine getLast?_cons_of_getLast? (ih ?_)
    rw [← h, ← happend]
    exact (List.getLast?_append_of_ne_nil _ hrest).symm
  | case4 chars parsed text =>
    rename_i htext ih
    replace htext : (parseUnicodeEscape chars).1 = .error text := htext
    have happend := takeUnicodeEscape_append [] chars
    rw [List.nil_append, ← text_of_parseUnicodeEscape htext] at happend
    rw [parseForgivingChars, if_pos rfl]
    simp only [htext]
    rw [← happend] at h
    by_cases hrest : (takeUnicodeEscape [] chars).2 = []
    · have hparse : parseForgivingChars (parseUnicodeEscape chars).2 = [] := by
        rw [show (parseUnicodeEscape chars).2 = [] from hrest, parseForgivingChars]
      rw [hparse]
      rwa [hrest] at h
    · have hlast : (parseForgivingChars parsed.2).getLast? = some c := by
        refine ih ?_
        rw [← h]
        exact (List.getLast?_append_of_ne_nil ('\\' :: 'u' :: text) hrest).symm
      have hne : parseForgivingChars parsed.2 ≠ [] := by
        rintro hnil
        rw [hnil] at hlast
        cases hlast
      rw [List.getLast?_append_of_ne_nil _ hne]
      exact hlast
  | case5 d chars hu ih =>
    rw [parseForgivingChars, if_neg hu]
    replace h := getLast?_of_cons h (List.cons_ne_nil _ _)
    cases chars with
    | nil =>
      obtain rfl : d = c := Option.some.inj h
      rw [parseForgivingChars, hself]
      rfl
    | cons e chars => exact getLast?_cons_of_getLast? (ih (getLast?_of_cons h (List.cons_ne_nil _ _)))
  | case6 d chars h1 h2 ih =>
    have hback : d ≠ '\\' := by
      rintro rfl
      cases chars with
      | nil => exact h1 rfl rfl
      | cons x xs => exact h2 x xs rfl rfl
    rw [parseForgivingChars_asIs hback]
    cases chars with
    | nil => simpa [parseForgivingChars] using h
    | cons e chars => exact getLast?_cons_of_getLast? (ih (getLast?_of_cons h (List.cons_ne_nil _ _)))

def LastCharacter (path : EntityPath) (c : Char) : Prop :=
  ∃ part, path.getLast? = some part ∧ part.toList.getLast? = some c

theorem LastCharacter.unique {path : EntityPath} {c d : Char} (hc : LastCharacter path c)
    (hd : LastCharacter path d) : c = d := by
  obtain ⟨part, hpart, hlast⟩ := hc
  obtain ⟨part', hpart', hlast'⟩ := hd
  rw [hpart, Option.some.injEq] at hpart'
  rw [← hpart', hlast, Option.some.injEq] at hlast'
  exact hlast'

theorem lastCharacter_parseForgivingUncached {c : Char} (hslash : c ≠ '/') (hbrace : c ≠ '\x7d')
    (hself : (unescapeChar c).getD c = c) (l : List Char) :
    LastCharacter (EntityPath.parseForgivingUncached (String.ofList (l ++ [c]))) c := by
  have hflat := flatten_tokenizeBy ['/'] (l ++ [c])
  have hne := (@tokens_tokenizeBy ['/'] (l ++ [c])).ne_nil
  rcases List.eq_nil_or_concat (tokenizeBy ['/'] (l ++ [c])) with hnil | ⟨front, token, htokens⟩
  · rw [hnil] at hflat
    simp at hflat
  rw [List.concat_eq_append] at htokens
  rw [htokens] at hflat hne
  have htoken : token.getLast? = some c := by
    have hlast := congrArg List.getLast? hflat
    rwa [List.flatten_append, List.flatten_singleton,
      List.getLast?_append_of_ne_nil _ (hne token (by simp)), List.getLast?_concat] at hlast
  refine ⟨String.ofList (parseForgivingChars token), ?_, ?_⟩
  · have hkeep : token ≠ ['/'] := by
      rintro rfl
      exact hslash (Option.some.inj htoken).symm
    rw [EntityPath.parseForgivingUncached, tokenizeEntityPath, String.toList_ofList, htokens,
      List.filter_append, List.map_append, List.filter_singleton, decide_eq_true hkeep]
    simp
  · rw [String.toList_ofList]
    exact getLast?_parseForgivingChars hbrace hself htoken

-- ---------------------------------------------------------------------------
-- Substitution at the end
-- ---------------------------------------------------------------------------

theorem replaceFrom_concat {pattern : List Char} (value : List Char) {c : Char}
    (hpattern : pattern ≠ []) (hc : c ∉ pattern) {skip : Nat} {l : List Char}
    (h : skip ≤ l.length) :
    replaceFrom pattern value skip (l ++ [c]) = replaceFrom pattern value skip l ++ [c] := by
  have hover : ∀ l, pattern.isPrefixOf (l ++ [c]) = pattern.isPrefixOf l := by
    intro l
    rw [Bool.eq_iff_iff, List.isPrefixOf_iff_prefix, List.isPrefixOf_iff_prefix]
    refine ⟨fun h => (List.prefix_concat_iff.mp h).resolve_left ?_, fun h => ?_⟩
    · rintro rfl
      simp at hc
    · exact h.trans (List.prefix_append l [c])
  induction l generalizing skip with
  | nil =>
    obtain rfl := Nat.le_zero.mp h
    have hno : pattern.isPrefixOf [c] = false := by
      rw [← List.nil_append [c], hover]
      cases pattern with
      | nil => exact absurd rfl hpattern
      | cons => rfl
    simp [replaceFrom, hno]
  | cons d l ih =>
    cases skip with
    | succ skip => exact ih (Nat.le_of_succ_le_succ h)
    | zero =>
      rw [List.cons_append, replaceFrom, replaceFrom, ← List.cons_append, hover]
      split
      · rename_i hpre
        have hlen := (List.isPrefixOf_iff_prefix.mp hpre).length_le
        rw [List.length_cons] at hlen
        rw [ih (Nat.sub_le_of_le_add hlen), List.append_assoc]
      · rw [ih (Nat.zero_le _)]
        rfl

def OutsideVariables (substEnv : EntityPathSubs) (c : Char) : Prop :=
  c ∉ ['$', '\x7b', '\x7d'] ∧ ∀ e ∈ substEnv, c ∉ e.1.toList

theorem substituteVariables_concat {substEnv : EntityPathSubs} {c : Char}
    (h : OutsideVariables substEnv c) (l : List Char) :
    ResolvedEntityPathRule.substituteVariables (String.ofList (l ++ [c])) substEnv =
      ResolvedEntityPathRule.substituteVariables (String.ofList l) substEnv ++ [c] := by
  simp only [ResolvedEntityPathRule.substituteVariables, String.toList_ofList]
  induction substEnv generalizing l with
  | nil => rfl
  | cons e substEnv ih =>
    obtain ⟨he, hrest⟩ := List.forall_mem_cons.mp h.2
    have hc := h.1
    simp only [List.mem_cons, List.not_mem_nil, or_false, not_or] at hc
    obtain ⟨hdollar, hopen, hclose⟩ := hc
    simp only [List.foldl_cons, replace]
    rw [replaceFrom_concat _ (List.cons_ne_nil _ _) (by simp [hdollar, he]) (Nat.zero_le _),
      replaceFrom_concat _ (by simp) (by simp [*]) (Nat.zero_le _)]
    exact ih ⟨h.1, hrest⟩ _

theorem parseForgiving_concat {substEnv : EntityPathSubs} {c : Char} {l : List Char}
    (h : OutsideVariables substEnv c) (hc : c ∈ ['\\', '+', '-']) (htrim : Trimmed (l ++ [c])) :
    (ResolvedEntityPathRule.parseForgiving (String.ofList (l ++ [c])) substEnv).target.2 = false ∧
      LastCharacter (ResolvedEntityPathRule.parseForgiving (String.ofList (l ++ [c]))
        substEnv).resolvedPath c := by
  have hplain : ∀ c ∈ ['\\', '+', '-'], c ≠ '*' ∧ c ≠ '/' ∧ c ≠ '\x7d' ∧
      (unescapeChar c).getD c = c := List.all_iff_forall_prop.mp (by decide)
  obtain ⟨hstar, hslash, hbrace, hself⟩ := hplain c hc
  have hsuffix : ∀ m, ['/', '*', '*'].isSuffixOf (m ++ [c]) = false := by
    intro m
    refine Bool.eq_false_iff.mpr fun hs => hstar ?_
    have hlast := congrArg List.getLast? (List.isSuffixOf_iff_suffix.mp hs).choose_spec
    rw [List.getLast?_append, List.getLast?_concat] at hlast
    exact (Option.some.inj hlast).symm
  have hnew : EntityPathRule.new (String.ofList (l ++ [c])).toList = String.ofList (l ++ [c]) := by
    rw [EntityPathRule.new, String.toList_ofList, htrim.trim_eq]
  have hne : ∀ m, m ++ [c] ≠ ['/', '*', '*'] := by
    intro m hm
    have := hsuffix m
    rw [hm] at this
    cases this
  simp only [ResolvedEntityPathRule.parseForgiving, hnew, substituteVariables_concat h, hne,
    if_false, stripSuffix, hsuffix, Bool.false_eq_true]
  refine ⟨?_, lastCharacter_parseForgivingUncached hslash hbrace hself _⟩
  rw [ResolvedEntityPathRule.target, EntityPathRule.includeSubtree, String.toList_ofList, hsuffix]

-- ---------------------------------------------------------------------------
-- Resolved rules
-- ---------------------------------------------------------------------------

section Resolved

variable {table : CharTable} {natural : NaturalOrder} {substEnv : EntityPathSubs}
  {rules : List PathRule}

theorem RuleText.of_escaped {l : List Char} (h : Escaped l) (hhead : l.head? = some '/') :
    RuleText (trim l) := by
  obtain ⟨htrimmed, heq⟩ := trim_escaped h hhead
  have hblanks := h.blanksEscaped false
  refine ⟨htrimmed, ?_⟩
  rcases heq with heq | ⟨heq, -⟩
  · rwa [heq]
  · rw [heq] at hblanks
    exact (blanksEscaped_append.mp hblanks).1

theorem ruleText_of_mem (hspace : table.BlanksApart)
    {e : ResolvedEntityPathRule × RuleEffect}
    (he : e ∈ ((ofPathRules table rules).resolveForgiving table natural substEnv).rules.toList) :
    RuleText e.1.rule.toList ∧
      ResolvedEntityPathRule.parseForgiving e.1.rule substEnv = e.1 := by
  rw [ofPathRules_eq] at he
  rcases mem_resolveForgiving table natural |>.mp he with ⟨i, r, hr, rfl⟩ | ⟨-, rfl⟩
  · obtain ⟨p, -, rfl⟩ := List.mem_map.mp hr.mem
    obtain ⟨h, hhead⟩ := escaped_spelling hspace p.target
    have hrule : (ResolvedEntityPathRule.parseForgiving (p.target.spelling table) substEnv).rule =
        EntityPathRule.new (p.target.spelling table).toList := by
      simp only [ResolvedEntityPathRule.parseForgiving]
      split
      · rfl
      · split <;> rfl
    rw [hrule]
    refine ⟨?_, parseForgiving_congr ?_⟩
    · rw [EntityPathRule.new, String.toList_ofList]
      exact RuleText.of_escaped h hhead
    · simp only [EntityPathRule.new, String.toList_ofList, (trim_escaped h hhead).1.trim_eq]
  · obtain ⟨h, hhead⟩ := escaped_spelling hspace (EntityPath.properties, true)
    have hrule : RuleTarget.spelling table (EntityPath.properties, true) = "/__properties/**" :=
      spelling_properties table
    have htext := RuleText.of_escaped h hhead
    rw [hrule] at htext
    simp only [ResolvedEntityPathRule.includingSubtree, spelling_properties,
      parseForgiving_properties table]
    exact ⟨htext, trivial⟩

def savedRules (filter : ResolvedEntityPathFilter natural) : List (EntityPathRule × RuleEffect) :=
  filter.rules.toList.map fun e => (e.1.rule, e.2)

def readBackAll : List (EntityPathRule × RuleEffect) → List (EntityPathRule × RuleEffect)
  | [] => []
  | (rule, effect) :: rules => readBack (some effect) rule rules

theorem intercalate_lines (l : List Char) (ls : List (List Char)) :
    ['\n'].intercalate (l :: ls) = l ++ ls.flatMap ('\n' :: ·) := by
  induction ls generalizing l with
  | nil => simp
  | cons m ls ih => rw [List.intercalate_cons_cons, ih, List.flatMap_cons]; simp

theorem iterUnresolvedExpressions_eq (filter : ResolvedEntityPathFilter natural) :
    filter.iterUnresolvedExpressions table =
      (savedRules filter).map fun e => written (some e.2) e.1.toList := by
  rw [savedRules, List.map_map, ← List.filterMap_eq_map]
  refine List.filterMap_congr fun e _ => ?_
  simp [written]

theorem textualRules_formatted (hspace : table.BlanksApart) :
    textualRules (((ofPathRules table rules).resolveForgiving table natural substEnv).formatted
      table) =
      readBackAll (savedRules ((ofPathRules table rules).resolveForgiving table natural substEnv)) := by
  have htext : ∀ e ∈ savedRules ((ofPathRules table rules).resolveForgiving table natural substEnv),
      RuleText e.1.toList := by
    intro e he
    obtain ⟨r, hr, rfl⟩ := List.mem_map.mp he
    exact (ruleText_of_mem hspace hr).1
  rw [textualRules, ResolvedEntityPathFilter.formatted, iterUnresolvedExpressions_eq,
    String.toList_ofList]
  cases hrules : savedRules ((ofPathRules table rules).resolveForgiving table natural substEnv) with
  | nil => rw [List.map_nil, List.intercalate_nil, splitWhitespaceSmart]; rfl
  | cons e saved =>
    rw [hrules] at htext
    have hlines : ['\n'].intercalate ((e :: saved).map fun e => written (some e.2) e.1.toList) =
        linesFrom (some e.2) e.1 saved := by
      rw [List.map_cons, intercalate_lines, List.flatMap_map]
      rfl
    rw [hlines, filterMap_splitWhitespaceSmart (some e.2) fun r hr => ?_]
    · rfl
    · obtain ⟨e, he, rfl⟩ := List.mem_map.mp (List.map_cons ▸ hr)
      exact htext e he

theorem readBack_of_visible {sign : Option RuleEffect} {rule : EntityPathRule}
    {saved : List (EntityPathRule × RuleEffect)}
    (h : ∀ r ∈ (rule :: saved.map Prod.fst).dropLast, ¬ HidesNewline r) :
    readBack sign rule saved = (rule, sign.getD .include) :: saved := by
  induction saved generalizing sign rule with
  | nil => rfl
  | cons e saved ih =>
    obtain ⟨next, effect⟩ := e
    rw [List.map_cons, List.dropLast_cons_cons, List.forall_mem_cons] at h
    rw [readBack, if_neg h.1, ih h.2]
    rfl

theorem readBackAll_of_visible {saved : List (EntityPathRule × RuleEffect)}
    (h : ∀ r ∈ (saved.map Prod.fst).dropLast, ¬ HidesNewline r) : readBackAll saved = saved := by
  cases saved with
  | nil => rfl
  | cons e saved => exact readBack_of_visible h

theorem exists_properties (hspace : table.BlanksApart) :
    ∃ e ∈ savedRules ((ofPathRules table rules).resolveForgiving table natural substEnv),
      targetOf substEnv e.1 = propertiesTarget := by
  suffices h : ∃ e ∈ ((ofPathRules table rules).resolveForgiving table natural
      substEnv).rules.toList, e.1.target = propertiesTarget by
    obtain ⟨e, he, ht⟩ := h
    refine ⟨_, List.mem_map_of_mem he, ?_⟩
    rw [targetOf, (ruleText_of_mem hspace he).2, ht]
  rw [ofPathRules_eq]
  simp only [mem_resolveForgiving table natural]
  by_cases hun : Unmentioned substEnv (pathEntries table rules) propertiesTarget
  · exact ⟨_, .inr ⟨hun, rfl⟩, target_properties table⟩
  · simp only [Unmentioned, not_forall, not_not] at hun
    obtain ⟨e, he, ht⟩ := hun
    obtain ⟨i, r, hr⟩ := exists_lastSpelled ⟨e, he, ht⟩
    exact ⟨_, .inl ⟨i, r, hr.self, rfl⟩, hr.target⟩

theorem effects_savedRules (hspace : table.BlanksApart) {t : RuleTarget} {effect : RuleEffect} :
    ((ofPathRules table rules).resolveForgiving table natural substEnv).effects t = some effect ↔
      ∃ e ∈ savedRules ((ofPathRules table rules).resolveForgiving table natural substEnv),
        targetOf substEnv e.1 = t ∧ e.2 = effect := by
  rw [ResolvedEntityPathFilter.effects_eq_some_iff]
  constructor
  · rintro ⟨rule, rfl, he⟩
    refine ⟨_, List.mem_map_of_mem he, ?_, rfl⟩
    rw [targetOf, (ruleText_of_mem hspace he).2]
  · rintro ⟨_, hr, rfl, rfl⟩
    obtain ⟨e, he, rfl⟩ := List.mem_map.mp hr
    refine ⟨e.1, ?_, he⟩
    rw [targetOf, (ruleText_of_mem hspace he).2]

theorem isMatch_formatted_of_visible (hspace : table.BlanksApart)
    (h : ∀ r ∈ ((savedRules ((ofPathRules table rules).resolveForgiving table natural
      substEnv)).map Prod.fst).dropLast, ¬ HidesNewline r) (path : EntityPath) :
    ((parseForgiving (((ofPathRules table rules).resolveForgiving table natural substEnv).formatted
      table)).resolveForgiving table natural substEnv).isMatch path =
      ((ofPathRules table rules).resolveForgiving table natural substEnv).isMatch path := by
  rw [Bool.eq_iff_iff, ResolvedEntityPathFilter.isMatch_iff, ResolvedEntityPathFilter.isMatch_iff]
  refine iff_of_eq (congrArg (Includes · path) (funext fun t => Option.ext fun effect => ?_))
  rw [effects_resolveForgiving, textualRules_formatted hspace, readBackAll_of_visible h,
    effects_savedRules hspace]
  constructor
  · rintro (⟨i, e, he, rfl⟩ | ⟨hun, rfl, -⟩)
    · exact ⟨e, he.mem, he.target, rfl⟩
    · obtain ⟨e, he, ht⟩ := exists_properties hspace
      exact absurd ht (hun e he)
  · rintro ⟨e, he, ht, rfl⟩
    obtain ⟨i, last, hlast⟩ := exists_lastSpelled ⟨e, he, ht⟩
    refine .inl ⟨i, last, hlast, ?_⟩
    have hone := (effects_savedRules hspace).mpr ⟨e, he, ht, rfl⟩
    have hother := (effects_savedRules hspace).mpr ⟨last, hlast.mem, hlast.target, rfl⟩
    exact Option.some.inj (hother.symm.trans hone)

end Resolved

-- ---------------------------------------------------------------------------
-- Hidden newlines
-- ---------------------------------------------------------------------------

/-- Of the rules for these paths, only the last one that is kept may have a text that ends
in a backslash. -/
def LinesApart (table : CharTable) (natural : NaturalOrder) (substEnv : EntityPathSubs)
    (targets : List RuleTarget) : Prop :=
  let resolve := fun t : RuleTarget =>
    ResolvedEntityPathRule.parseForgiving (t.spelling table) substEnv
  ∀ t ∈ targets, HidesNewline (.new (t.spelling table).toList) →
    (∀ u ∈ targets, (resolve u).target = (resolve t).target →
      compare (u.spelling table) (t.spelling table) ≠ .gt) →
    ∀ rule ∈ .includingSubtree table .properties :: targets.map resolve,
      ResolvedEntityPathRule.cmp natural (resolve t) rule ≠ .lt

section Resolved

variable {table : CharTable} {natural : NaturalOrder} {substEnv : EntityPathSubs}
  {rules : List PathRule}

theorem rule_parseForgiving (rule : EntityPathRule) :
    (ResolvedEntityPathRule.parseForgiving rule substEnv).rule = .new rule.toList := by
  simp only [ResolvedEntityPathRule.parseForgiving]
  split
  · rfl
  · split <;> rfl

theorem mem_resolved {rule : ResolvedEntityPathRule} :
    (∃ effect, (rule, effect) ∈
      ((ofPathRules table rules).resolveForgiving table natural substEnv).rules.toList) ↔
      (∃ t ∈ rules.map PathRule.target,
        ResolvedEntityPathRule.parseForgiving (t.spelling table) substEnv = rule ∧
        ∀ u ∈ rules.map PathRule.target, targetOf substEnv (u.spelling table) = rule.target →
          compare (u.spelling table) (t.spelling table) ≠ .gt) ∨
      (Unmentioned substEnv (pathEntries table rules) propertiesTarget ∧
        rule = .includingSubtree table .properties) := by
  rw [ofPathRules_eq]
  simp only [mem_resolveForgiving table natural, exists_or]
  refine or_congr ?_ (by simp)
  constructor
  · rintro ⟨effect, i, e, he, heq⟩
    obtain ⟨rfl, rfl⟩ := Prod.mk.inj heq
    obtain ⟨r, hr, rfl⟩ := List.mem_map.mp he.mem
    refine ⟨r.target, List.mem_map_of_mem hr, rfl, fun u hu hut => ?_⟩
    obtain ⟨q, hq, rfl⟩ := List.mem_map.mp hu
    exact he.greatest (q.target.spelling table, q.effect) (List.mem_map.mpr ⟨q, hq, rfl⟩) hut
  · rintro ⟨t, ht, rfl, hgreatest⟩
    obtain ⟨r, hr, rfl⟩ := List.mem_map.mp ht
    have hmem : (r.target.spelling table, r.effect) ∈ pathEntries table rules :=
      List.mem_map.mpr ⟨r, hr, rfl⟩
    obtain ⟨i, ⟨rule, effect⟩, hi⟩ := exists_isLast (p := fun e => e.1 = r.target.spelling table)
      ⟨_, hmem, rfl⟩
    obtain rfl : rule = r.target.spelling table := hi.holds
    have hlast : LastSpelled substEnv (pathEntries table rules)
        (targetOf substEnv (r.target.spelling table)) i (r.target.spelling table, effect) := by
      refine ⟨rfl, hi, fun other hother hot => ?_⟩
      obtain ⟨q, hq, rfl⟩ := List.mem_map.mp hother
      exact hgreatest q.target (List.mem_map_of_mem hq) hot
    exact ⟨effect, i, _, hlast, rfl⟩

theorem exists_resolved (rule : ResolvedEntityPathRule)
    (h : rule ∈ .includingSubtree table .properties :: (rules.map PathRule.target).map
      fun t => ResolvedEntityPathRule.parseForgiving (t.spelling table) substEnv) :
    ∃ e ∈ ((ofPathRules table rules).resolveForgiving table natural substEnv).rules.toList,
      e.1.target = rule.target := by
  by_cases hun : Unmentioned substEnv (pathEntries table rules) rule.target
  · rcases List.mem_cons.mp h with rfl | h
    · rw [target_properties] at hun ⊢
      obtain ⟨effect, he⟩ := mem_resolved.mpr (.inr ⟨hun, rfl⟩)
      exact ⟨_, he, target_properties table⟩
    · obtain ⟨t, ht, rfl⟩ := List.mem_map.mp h
      obtain ⟨r, hr, rfl⟩ := List.mem_map.mp ht
      have hmem : (r.target.spelling table, r.effect) ∈ pathEntries table rules :=
        List.mem_map.mpr ⟨r, hr, rfl⟩
      exact absurd rfl (hun (r.target.spelling table, r.effect) hmem)
  · simp only [Unmentioned, not_forall, not_not] at hun
    obtain ⟨e, he, ht⟩ := hun
    obtain ⟨i, last, hlast⟩ := exists_lastSpelled ⟨e, he, ht⟩
    rw [ofPathRules_eq]
    exact ⟨_, (mem_resolveForgiving table natural).mpr (.inl ⟨i, last, hlast.self, rfl⟩),
      hlast.target⟩

theorem sorted_resolved (filter : ResolvedEntityPathFilter natural) :
    (filter.rules.toList.map Prod.fst).Pairwise
      fun a b => ResolvedEntityPathRule.cmp natural a b = .lt :=
  List.pairwise_map.mpr TreeMap.ordered_keys_toList

theorem mem_dropLast_resolved {filter : ResolvedEntityPathFilter natural}
    {rule : ResolvedEntityPathRule} :
    rule ∈ (filter.rules.toList.map Prod.fst).dropLast ↔
      rule ∈ filter.rules.toList.map Prod.fst ∧
        ∃ other ∈ filter.rules.toList.map Prod.fst,
          ResolvedEntityPathRule.cmp natural rule other = .lt := by
  refine mem_dropLast_iff (fun a b hab hba => ?_) (sorted_resolved filter)
  rw [Std.OrientedCmp.gt_of_lt hab] at hba
  cases hba

theorem visible_iff :
    (∀ r ∈ ((savedRules ((ofPathRules table rules).resolveForgiving table natural
      substEnv)).map Prod.fst).dropLast, ¬ HidesNewline r) ↔
      LinesApart table natural substEnv (rules.map PathRule.target) := by
  have hkeys : (savedRules ((ofPathRules table rules).resolveForgiving table natural
      substEnv)).map Prod.fst = (((ofPathRules table rules).resolveForgiving table natural
      substEnv).rules.toList.map Prod.fst).map ResolvedEntityPathRule.rule := by
    rw [savedRules, List.map_map, List.map_map]
    rfl
  rw [hkeys, ← List.map_dropLast, List.forall_mem_map]
  simp only [mem_dropLast_resolved, List.mem_map, Prod.exists, exists_eq_right, exists_and_right]
  constructor
  · intro h t ht hhides hgreatest rule hrule hlt
    obtain ⟨e, he, hetarget⟩ := exists_resolved rule hrule
    have hcongr := Std.TransCmp.congr_right
      (a := ResolvedEntityPathRule.parseForgiving (t.spelling table) substEnv)
      ((ResolvedEntityPathRule.cmp_eq_iff natural).mpr hetarget)
    refine h _ ⟨mem_resolved.mpr (.inl ⟨t, ht, rfl, hgreatest⟩), e.1, ⟨e.2, he⟩, ?_⟩ ?_
    · rw [hcongr, hlt]
    · rw [rule_parseForgiving]
      exact hhides
  · rintro h rule ⟨hmem, other, ⟨effect, hother⟩, hlt⟩ hhides
    rcases mem_resolved.mp hmem with ⟨t, ht, rfl, hgreatest⟩ | ⟨-, rfl⟩
    · rw [rule_parseForgiving] at hhides
      refine h t ht hhides hgreatest other ?_ hlt
      rcases mem_resolved.mp ⟨effect, hother⟩ with ⟨u, hu, rfl, -⟩ | ⟨-, rfl⟩
      · exact List.mem_cons_of_mem _ (List.mem_map_of_mem hu)
      · exact List.mem_cons_self
    · rw [ResolvedEntityPathRule.includingSubtree, spelling_properties] at hhides
      revert hhides
      decide

end Resolved

-- ---------------------------------------------------------------------------
-- What is lost
-- ---------------------------------------------------------------------------

/-- A rule that was read together with the newline behind it. -/
def IsSwallowed (rule : EntityPathRule) : Prop :=
  ∃ l : List Char, ∃ effect : RuleEffect, l.head? = some '/' ∧
    rule = String.ofList (l ++ ['\n', effect.sign])

theorem mem_readBack {sign : Option RuleEffect} {rule : EntityPathRule}
    {saved : List (EntityPathRule × RuleEffect)}
    (hhead : ∀ r ∈ rule :: saved.map Prod.fst, r.toList.head? = some '/')
    {e : EntityPathRule × RuleEffect} (h : e ∈ readBack sign rule saved) :
    IsSwallowed e.1 ∨ e.1 ∈ rule :: saved.map Prod.fst := by
  induction saved generalizing sign rule with
  | nil =>
    rw [readBack, List.mem_singleton] at h
    exact .inr (h ▸ List.mem_cons_self)
  | cons next saved ih =>
    obtain ⟨next, effect⟩ := next
    obtain ⟨hrule, hrest⟩ := List.forall_mem_cons.mp hhead
    rw [readBack] at h
    split at h
    · rcases List.mem_cons.mp h with rfl | h
      · exact .inl ⟨_, effect, hrule, rfl⟩
      · exact (ih hrest h).imp_right (List.mem_cons_of_mem rule)
    · rcases List.mem_cons.mp h with rfl | h
      · exact .inr List.mem_cons_self
      · exact (ih hrest h).imp_right (List.mem_cons_of_mem rule)

theorem readBack_append {sign : Option RuleEffect} {rule : EntityPathRule}
    {front rest : List (EntityPathRule × RuleEffect)} {e next : EntityPathRule × RuleEffect}
    (hfront : ∀ r ∈ rule :: front.map Prod.fst, ¬ HidesNewline r) (he : HidesNewline e.1) :
    readBack sign rule (front ++ e :: next :: rest) = ((rule, sign.getD .include) :: front) ++
      (String.ofList (e.1.toList ++ ['\n', next.2.sign]), e.2) :: readBack none next.1 rest := by
  induction front generalizing sign rule with
  | nil =>
    rw [List.nil_append, readBack, if_neg (hfront rule List.mem_cons_self), readBack, if_pos he]
    rfl
  | cons r front ih =>
    obtain ⟨hrule, hrest⟩ := List.forall_mem_cons.mp hfront
    rw [List.cons_append, readBack, if_neg hrule, ih hrest]
    rfl

theorem mem_readBackAll {front rest : List (EntityPathRule × RuleEffect)}
    {e next r : EntityPathRule × RuleEffect}
    (hhead : ∀ r ∈ front ++ e :: next :: rest, r.1.toList.head? = some '/')
    (hfront : ∀ r ∈ front, ¬ HidesNewline r.1) (he : HidesNewline e.1)
    (h : r ∈ readBackAll (front ++ e :: next :: rest)) :
    r ∈ front ∨ IsSwallowed r.1 ∨ r.1 ∈ (next :: rest).map Prod.fst := by
  have hrest : ∀ r ∈ next.1 :: rest.map Prod.fst, r.toList.head? = some '/' := by
    intro r hr
    obtain ⟨e, he, rfl⟩ := List.mem_map.mp (List.map_cons ▸ hr : r ∈ (next :: rest).map Prod.fst)
    exact hhead e (List.mem_append_right front (List.mem_cons_of_mem _ he))
  have hswallowed : IsSwallowed (String.ofList (e.1.toList ++ ['\n', next.2.sign])) :=
    ⟨_, _, hhead e (by simp), rfl⟩
  cases front with
  | nil =>
    rw [List.nil_append, readBackAll, readBack, if_pos he] at h
    rcases List.mem_cons.mp h with rfl | h
    · exact .inr (.inl hswallowed)
    · exact .inr (mem_readBack hrest h)
  | cons x front =>
    have hx : ∀ r ∈ x.1 :: front.map Prod.fst, ¬ HidesNewline r := by
      intro r hr
      obtain ⟨y, hy, rfl⟩ := List.mem_map.mp (List.map_cons ▸ hr : r ∈ (x :: front).map Prod.fst)
      exact hfront y hy
    rw [List.cons_append, readBackAll, readBack_append hx he] at h
    rcases List.mem_append.mp h with h | h
    · exact .inl h
    · rcases List.mem_cons.mp h with rfl | h
      · exact .inr (.inl hswallowed)
      · exact .inr (mem_readBack hrest h)

theorem exists_first_hidden {saved : List (EntityPathRule × RuleEffect)}
    (h : ¬ ∀ r ∈ (saved.map Prod.fst).dropLast, ¬ HidesNewline r) :
    ∃ front e next rest, saved = front ++ e :: next :: rest ∧
      (∀ r ∈ front, ¬ HidesNewline r.1) ∧ HidesNewline e.1 := by
  induction saved with
  | nil => simp at h
  | cons e saved ih =>
    cases saved with
    | nil => simp at h
    | cons next rest =>
      by_cases he : HidesNewline e.1
      · exact ⟨[], e, next, rest, rfl, by simp, he⟩
      · rw [List.map_cons, List.map_cons, List.dropLast_cons_cons, List.forall_mem_cons,
          not_and] at h
        obtain ⟨front, e', next', rest', heq, hfront, he'⟩ := ih (h he)
        exact ⟨e :: front, e', next', rest', by rw [heq, List.cons_append],
          List.forall_mem_cons.mpr ⟨he, hfront⟩, he'⟩

section Lost

variable {table : CharTable} {natural : NaturalOrder} {substEnv : EntityPathSubs}
  {rules : List PathRule}

theorem target_of_isSwallowed (henv : ∀ c ∈ ['\\', '+', '-'], OutsideVariables substEnv c)
    {rule : EntityPathRule} (h : IsSwallowed rule) :
    (targetOf substEnv rule).2 = false ∧
      ∃ c ∈ ['+', '-'], LastCharacter (targetOf substEnv rule).1 c := by
  obtain ⟨l, effect, hhead, rfl⟩ := h
  have hsign : effect.sign ∈ ['+', '-'] := by cases effect <;> decide
  have htrim : Trimmed ((l ++ ['\n']) ++ [effect.sign]) := by
    refine ⟨by simp [hhead], fun c hc => ?_⟩
    rw [List.getLast?_concat] at hc
    obtain rfl := Option.some.inj hc
    cases effect <;> decide
  have hmem := List.mem_cons_of_mem '\\' hsign
  obtain ⟨hexact, hlast⟩ := parseForgiving_concat (henv _ hmem) hmem htrim
  rw [List.append_assoc] at hexact hlast
  exact ⟨hexact, _, hsign, hlast⟩

theorem target_of_hidesNewline (henv : ∀ c ∈ ['\\', '+', '-'], OutsideVariables substEnv c)
    {rule : EntityPathRule} (hrule : RuleText rule.toList) (h : HidesNewline rule) :
    (targetOf substEnv rule).2 = false ∧ LastCharacter (targetOf substEnv rule).1 '\\' := by
  obtain ⟨l, hl⟩ := List.getLast?_eq_some_iff.mp h
  have htrim := hrule.toTrimmed
  rw [hl] at htrim
  have hparse := parseForgiving_concat (henv '\\' (by simp)) (by simp) htrim
  rwa [← hl, String.ofList_toList] at hparse

theorem pairwise_savedRules (hspace : table.BlanksApart) :
    (savedRules ((ofPathRules table rules).resolveForgiving table natural substEnv)).Pairwise
      fun a b => ResolvedEntityPathRule.cmp natural
        (ResolvedEntityPathRule.parseForgiving a.1 substEnv)
        (ResolvedEntityPathRule.parseForgiving b.1 substEnv) = .lt := by
  refine List.pairwise_map.mpr (TreeMap.ordered_keys_toList.imp_of_mem fun {a b} ha hb hlt => ?_)
  rwa [(ruleText_of_mem hspace ha).2, (ruleText_of_mem hspace hb).2]

/-- If just the rules that hide a newline are inclusions, the first one of them is lost. -/
theorem exists_lost (hspace : table.BlanksApart)
    (henv : ∀ c ∈ ['\\', '+', '-'], OutsideVariables substEnv c)
    (heffects : ∀ e ∈ savedRules ((ofPathRules table rules).resolveForgiving table natural
      substEnv), e.2 = .include ↔ HidesNewline e.1)
    (h : ¬ ∀ r ∈ ((savedRules ((ofPathRules table rules).resolveForgiving table natural
      substEnv)).map Prod.fst).dropLast, ¬ HidesNewline r) :
    ∃ path, ((ofPathRules table rules).resolveForgiving table natural substEnv).isMatch path =
        true ∧
      ((parseForgiving (((ofPathRules table rules).resolveForgiving table natural
        substEnv).formatted table)).resolveForgiving table natural substEnv).isMatch path ≠
        true := by
  obtain ⟨front, e, next, rest, hsaved, hfront, he⟩ := exists_first_hidden h
  have htext : ∀ r ∈ front ++ e :: next :: rest, RuleText r.1.toList := by
    intro r hr
    rw [← hsaved] at hr
    obtain ⟨k, hk, rfl⟩ := List.mem_map.mp hr
    exact (ruleText_of_mem hspace hk).1
  have hsorted := @pairwise_savedRules table natural substEnv rules hspace
  rw [hsaved] at hsorted heffects
  have hmem : e ∈ front ++ e :: next :: rest := by simp
  obtain ⟨hexact, hback⟩ := target_of_hidesNewline henv (htext e hmem) he
  have hmatch : (targetOf substEnv e.1).isMatch (targetOf substEnv e.1).1 := by
    rw [RuleTarget.isMatch, hexact]
    rfl
  have hspecific : ∀ u : RuleTarget, u.isMatch (targetOf substEnv e.1).1 →
      u.specificity ≤ (targetOf substEnv e.1).specificity := by
    intro u hu
    rw [RuleTarget.specificity, RuleTarget.specificity, Prod.Lex.toLex_le_toLex, hexact]
    exact (Nat.lt_or_eq_of_le hu.isPrefix.length_le).imp_right fun h => ⟨h, Bool.le_true _⟩
  refine ⟨(targetOf substEnv e.1).1, ?_, ?_⟩
  · rw [ResolvedEntityPathFilter.isMatch_iff]
    refine ⟨targetOf substEnv e.1, ?_, hmatch, fun u _ => hspecific u⟩
    rw [effects_savedRules hspace, hsaved]
    exact ⟨e, hmem, rfl, (heffects e hmem).mpr he⟩
  · rw [Ne, ResolvedEntityPathFilter.isMatch_iff]
    rintro ⟨u, hu, hum, -⟩
    rw [effects_resolveForgiving, textualRules_formatted hspace, hsaved] at hu
    obtain ⟨i, r, hr, hinclude⟩ := hu.resolve_right (by
      rintro ⟨-, -, h⟩
      cases h)
    have hut : targetOf substEnv r.1 = u := hr.target
    rcases mem_readBackAll (fun r hr => (htext r hr).head) hfront he hr.mem with hin | hin | hin
    · -- In front of it there are only exclusions.
      exact hfront r hin ((heffects r (List.mem_append_left _ hin)).mp hinclude)
    · -- No other path ends like this one.
      obtain ⟨hexact', c, hc, hlast⟩ := target_of_isSwallowed henv hin
      rw [hut] at hexact' hlast
      have hpath : (targetOf substEnv e.1).1 = u.1 := by
        rw [RuleTarget.isMatch, hexact'] at hum
        exact hum
      rw [hpath] at hback
      obtain rfl := hback.unique hlast
      revert hc
      decide
    · -- What comes behind it is not less specific.
      obtain ⟨k, hk, hkr⟩ := List.mem_map.mp hin
      have hlt := (List.pairwise_append.mp hsorted).2.1
      have hlt := (List.pairwise_cons.mp hlt).1 k hk
      rw [hkr] at hlt
      have hle := (ResolvedEntityPathRule.cmp_ne_gt_iff natural
        (show RuleTarget.isMatch (targetOf substEnv r.1) _ by rw [hut]; exact hum)
        hmatch).mpr (by
          show RuleTarget.specificity (targetOf substEnv r.1) ≤ _
          rw [hut]
          exact hspecific u hum)
      exact hle (Std.OrientedCmp.gt_of_lt hlt)

end Lost

-- ---------------------------------------------------------------------------
-- Saving and loading
-- ---------------------------------------------------------------------------

/-- Loaded from its expressions, or from the text of what it resolves to, the filter
matches what it did before. -/
def SurvivesSaving (table : CharTable) (natural : NaturalOrder) (substEnv : EntityPathSubs)
    (rules : List PathRule) : Prop :=
  let filter := ofPathRules table rules
  let resolved := filter.resolveForgiving table natural substEnv
  ∀ path,
    ((fromQueryExpressions filter.iterExpressions).resolveForgiving table natural
      substEnv).isMatch path = resolved.isMatch path ∧
    ((parseForgiving (resolved.formatted table)).resolveForgiving table natural
      substEnv).isMatch path = resolved.isMatch path

theorem outsideVariables {table : CharTable} {substEnv : EntityPathSubs}
    (h : substEnv = .empty ∨ ∃ origin, substEnv = .newWithOrigin table origin) :
    ∀ c ∈ ['\\', '+', '-'], OutsideVariables substEnv c := by
  have hname : ∀ c ∈ ['\\', '+', '-'], c ∉ ['$', '\x7b', '\x7d'] ∧ c ∉ "origin".toList :=
    List.all_iff_forall_prop.mp (by decide)
  intro c hc
  refine ⟨(hname c hc).1, ?_⟩
  rcases h with rfl | ⟨origin, rfl⟩
  · exact fun _ h => absurd h List.not_mem_nil
  · exact List.forall_mem_singleton.mpr (hname c hc).2

/-- Rules for these paths survive, whatever their effects, exactly if their lines stay
apart. -/
theorem survivesSaving_iff {table : CharTable} (hspace : table.BlanksApart)
    (natural : NaturalOrder) {substEnv : EntityPathSubs}
    (henv : substEnv = .empty ∨ ∃ origin, substEnv = .newWithOrigin table origin)
    (targets : List RuleTarget) :
    (∀ rules : List PathRule, rules.map PathRule.target = targets →
      SurvivesSaving table natural substEnv rules) ↔
      LinesApart table natural substEnv targets := by
  constructor
  · intro h
    let rules : List PathRule := targets.map fun t =>
      ⟨if HidesNewline (.new (t.spelling table).toList) then .include else .exclude, t⟩
    have htargets : rules.map PathRule.target = targets := by
      simp [rules, Function.comp_def]
    have heffects : ∀ e ∈ savedRules ((ofPathRules table rules).resolveForgiving table natural
        substEnv), e.2 = .include ↔ HidesNewline e.1 := by
      intro e he
      obtain ⟨k, hk, rfl⟩ := List.mem_map.mp he
      rw [ofPathRules_eq] at hk
      rcases (mem_resolveForgiving table natural).mp hk with ⟨i, r, hr, rfl⟩ | ⟨-, rfl⟩
      · obtain ⟨p, hp, rfl⟩ := List.mem_map.mp hr.mem
        obtain ⟨t, -, rfl⟩ := List.mem_map.mp hp
        simp only [rule_parseForgiving]
        split <;> simp [*]
      · simp only [ResolvedEntityPathRule.includingSubtree, spelling_properties]
        decide
    rw [← htargets, ← visible_iff]
    by_contra hhidden
    obtain ⟨path, hmatch, hlost⟩ := exists_lost hspace (outsideVariables henv) heffects hhidden
    exact hlost ((h rules htargets path).2.trans hmatch)
  · rintro h rules rfl path
    refine ⟨?_, isMatch_formatted_of_visible hspace (visible_iff.mpr h) path⟩
    rw [resolveForgiving_iterExpressions hspace]

theorem blanksApart_asciiOnly : CharTable.asciiOnly.BlanksApart := by
  intro c hc
  refine Bool.eq_false_iff.mpr fun h => ?_
  rw [(solid_of_isAlphanum h).1] at hc
  cases hc

theorem survivesSaving_two :
    SurvivesSaving .asciiOnly .alphabetical .empty
      [⟨.include, (["a\\"], true)⟩, ⟨.exclude, (["b"], false)⟩] := by
  refine (survivesSaving_iff blanksApart_asciiOnly .alphabetical (.inl rfl)
    [(["a\\"], true), (["b"], false)]).mpr ?_ _ rfl
  unfold LinesApart
  decide +kernel

/-- The second line becomes part of the first path. -/
theorem hidden_newline_not_survived :
    ¬ SurvivesSaving .asciiOnly .alphabetical .empty
      [⟨.include, (["a\\"], false)⟩, ⟨.include, (["b"], false)⟩] := by
  intro h
  have := (h ["a\\"]).2
  revert this
  decide +kernel

end EntityPathFilter
end DimosViewer
