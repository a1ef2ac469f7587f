import Mathlib.Data.Bool.AllAny
import Mathlib.Data.List.DropRight
import DimosViewer.Path.FilterLaws
import DimosViewer.Path.Tokens

/-!
# The text of a filter

A filter is saved as its expressions, a resolved one as a text with a line for each
rule. In what is written for an entity path every blank stands behind a backslash, so
that trimming takes at most one blank away, and the order of the rules stays.
-/

namespace DimosViewer

open Std (TreeMap)

-- ---------------------------------------------------------------------------
-- Building and writing
-- ---------------------------------------------------------------------------

def RuleEffect.sign : RuleEffect → Char
  | .include => '+'
  | .exclude => '-'

def EntityPathRule.exactEntity (table : CharTable) (path : EntityPath) : EntityPathRule :=
  path.display table

namespace EntityPathFilter

/-- If there is already an effect for the rule, it is overwritten. -/
def insertRule (filter : EntityPathFilter) (effect : RuleEffect) (rule : EntityPathRule) :
    EntityPathFilter :=
  ⟨filter.rules.insert rule effect⟩

def addExactEntity (table : CharTable) (filter : EntityPathFilter) (path : EntityPath) :
    EntityPathFilter :=
  ⟨filter.rules.insert (.exactEntity table path) .include⟩

def addEntitySubtree (table : CharTable) (filter : EntityPathFilter) (entityPath : EntityPath) :
    EntityPathFilter :=
  ⟨filter.rules.insert (.includingEntitySubtree table entityPath) .include⟩

/-- In alphabetical order, which is not the order of evaluation. -/
def iterExpressions (filter : EntityPathFilter) : List (List Char) :=
  filter.rules.toList.map fun (rule, effect) => effect.sign :: ' ' :: rule.toList

end EntityPathFilter

namespace ResolvedEntityPathFilter

variable {natural : NaturalOrder}

def iterUnresolvedExpressionsImpl (table : CharTable) (withProperties : Bool)
    (filter : ResolvedEntityPathFilter natural) : List (List Char) :=
  filter.rules.toList.filterMap fun (rule, effect) =>
    if !withProperties && rule.rule = .includingEntitySubtree table .properties &&
      effect = .exclude then none
    else some (effect.sign :: ' ' :: rule.rule.toList)

def iterUnresolvedExpressions (table : CharTable) (filter : ResolvedEntityPathFilter natural) :
    List (List Char) :=
  filter.iterUnresolvedExpressionsImpl table true

def formatted (table : CharTable) (filter : ResolvedEntityPathFilter natural) : String :=
  String.ofList (['\n'].intercalate (filter.iterUnresolvedExpressions table))

end ResolvedEntityPathFilter

def RuleTarget.spelling (table : CharTable) (t : RuleTarget) : EntityPathRule :=
  if t.2 then .includingEntitySubtree table t.1 else .exactEntity table t.1

structure PathRule where
  effect : RuleEffect
  target : RuleTarget

namespace EntityPathFilter

def ofPathRules (table : CharTable) (rules : List PathRule) : EntityPathFilter :=
  rules.foldl (fun filter r => filter.insertRule r.effect (r.target.spelling table)) ⟨∅⟩

def pathEntries (table : CharTable) (rules : List PathRule) : List (EntityPathRule × RuleEffect) :=
  rules.map fun r => (r.target.spelling table, r.effect)

variable {table : CharTable} {rules : List PathRule}

theorem ofPathRules_concat (r : PathRule) :
    ofPathRules table (rules ++ [r]) =
      (ofPathRules table rules).insertRule r.effect (r.target.spelling table) := by
  rw [ofPathRules, List.foldl_append]
  rfl

theorem ofPathRules_eq : ofPathRules table rules = ⟨insertEntries (pathEntries table rules)⟩ := by
  induction rules using List.reverseRecOn with
  | nil => rfl
  | append_singleton rules r ih =>
    rw [ofPathRules_concat, ih]
    simp [insertRule, pathEntries, insertEntries]

end EntityPathFilter

-- ---------------------------------------------------------------------------
-- Escaped text
-- ---------------------------------------------------------------------------

/-- No blank and no control character. -/
def Solid (c : Char) : Prop := isWhitespace c = false ∧ ' ' ≤ c

instance : DecidablePred Solid := fun _ => inferInstanceAs (Decidable (_ ∧ _))

/-- Every blank and every backslash stands behind a backslash of its own. -/
inductive Escaped : List Char → Prop
  | nil : Escaped []
  | plain : Solid c → c ≠ '\\' → Escaped l → Escaped (c :: l)
  | escape : Solid c ∨ c = ' ' → Escaped l → Escaped ('\\' :: c :: l)

namespace Escaped

theorem append (h : Escaped l) (hr : Escaped r) : Escaped (l ++ r) := by
  induction h with
  | nil => exact hr
  | plain hc hne _ ih => exact .plain hc hne ih
  | escape hc _ ih => exact .escape hc ih

theorem flatMap {f : α → List Char} {l : List α} (h : ∀ a ∈ l, Escaped (f a)) :
    Escaped (l.flatMap f) := by
  induction l with
  | nil => exact .nil
  | cons a l ih =>
    rw [List.flatMap_cons]
    exact (h a List.mem_cons_self).append (ih fun b hb => h b (List.mem_cons_of_mem a hb))

theorem of_solid (h : ∀ c ∈ l, Solid c ∧ c ≠ '\\') : Escaped l := by
  induction l with
  | nil => exact .nil
  | cons c l ih =>
    obtain ⟨hc, h⟩ := List.forall_mem_cons.mp h
    exact .plain hc.1 hc.2 (ih h)

theorem solid_or_blank (h : Escaped l) : ∀ c ∈ l, Solid c ∨ c = ' ' := by
  induction h with
  | nil => exact fun _ h => absurd h List.not_mem_nil
  | plain hc _ _ ih => exact List.forall_mem_cons.mpr ⟨.inl hc, ih⟩
  | escape hc _ ih =>
    exact List.forall_mem_cons.mpr ⟨.inl (by decide), List.forall_mem_cons.mpr ⟨hc, ih⟩⟩

theorem not_concat_blank (h : Escaped l) : ¬ Escaped (l ++ [' ']) := by
  induction h with
  | nil =>
    intro h
    cases h with
    | plain hc => exact absurd hc (by decide)
  | plain _ hne _ ih =>
    intro h
    rw [List.cons_append] at h
    generalize _ ++ [' '] = l at h ih
    cases h with
    | plain _ _ h => exact ih h
    | escape => exact hne rfl
  | escape _ _ ih =>
    intro h
    rw [List.cons_append, List.cons_append] at h
    cases h with
    | plain _ hne => exact hne rfl
    | escape _ h => exact ih h

end Escaped

def BlanksEscaped : Bool → List Char → Prop
  | _, [] => True
  | b, c :: l => (b = true ∨ isWhitespace c = false) ∧ BlanksEscaped (c == '\\') l

theorem blanksEscaped_append {b : Bool} {l r : List Char} :
    BlanksEscaped b (l ++ r) ↔ BlanksEscaped b l ∧ BlanksEscaped (escapeAfter b l) r := by
  induction l generalizing b with
  | nil => simp [BlanksEscaped, escapeAfter]
  | cons c l ih =>
    rw [List.cons_append, BlanksEscaped, BlanksEscaped, ih, escapeAfter_cons b, and_assoc]

theorem Escaped.blanksEscaped (h : Escaped l) (b : Bool) : BlanksEscaped b l := by
  induction h generalizing b with
  | nil => trivial
  | plain hc _ _ ih => exact ⟨.inr hc.1, ih _⟩
  | escape _ _ ih => exact ⟨.inr (by decide), .inl rfl, ih _⟩

theorem escapeAfter_eq_true {l : List Char} :
    escapeAfter false l = true ↔ l.getLast? = some '\\' := by
  cases h : l.getLast? <;> simp [escapeAfter, h]

-- ---------------------------------------------------------------------------
-- Trimming
-- ---------------------------------------------------------------------------

theorem trim_cons {c : Char} (h : isWhitespace c = false) (l : List Char) :
    trim (c :: l) = (c :: l).rdropWhile isWhitespace := by
  rw [trim, List.dropWhile_cons_of_neg (by simp [h])]
  rfl

theorem trim_blank (l : List Char) : trim (' ' :: l) = trim l := by
  rw [trim, List.dropWhile_cons_of_pos (by decide)]
  rfl

theorem trim_concat_blank (l : List Char) : trim (l ++ [' ']) = trim l := by
  have hblank : isWhitespace ' ' = true := by decide
  simp only [trim, List.dropWhile_append]
  split
  · rename_i h
    rw [List.isEmpty_iff.mp h]
    simp [hblank]
  · simp [hblank]

theorem trim_eq_self (hhead : ∀ c ∈ l.head?, isWhitespace c = false)
    (hlast : ∀ c ∈ l.getLast?, isWhitespace c = false) : trim l = l := by
  cases l with
  | nil => rfl
  | cons c l =>
    rw [trim_cons (hhead c rfl), List.rdropWhile_eq_self_iff]
    intro hne h
    rw [hlast _ (List.getLast?_eq_some_getLast hne)] at h
    cases h

structure Trimmed (l : List Char) : Prop where
  head : l.head? = some '/'
  last : ∀ c ∈ l.getLast?, isWhitespace c = false

theorem Trimmed.trim_eq (h : Trimmed l) : trim l = l := by
  refine trim_eq_self (fun c hc => ?_) h.last
  obtain rfl := Option.some.inj (h.head.symm.trans hc)
  decide

theorem trim_escaped (h : Escaped l) (hl : l.head? = some '/') :
    Trimmed (trim l) ∧
      (trim l = l ∨ l = trim l ++ [' '] ∧ (trim l).getLast? = some '\\') := by
  by_cases hlast : ∀ c ∈ l.getLast?, isWhitespace c = false
  · rw [Trimmed.trim_eq ⟨hl, hlast⟩]
    exact ⟨⟨hl, hlast⟩, .inl rfl⟩
  · simp only [not_forall, Bool.not_eq_false] at hlast
    obtain ⟨c, hc, hblank⟩ := hlast
    obtain ⟨l, rfl⟩ := List.getLast?_eq_some_iff.mp hc
    have hb := (blanksEscaped_append.mp (h.blanksEscaped false)).2.1
    rw [hblank, escapeAfter_eq_true, or_iff_left Bool.noConfusion] at hb
    obtain rfl : c = ' ' := (h.solid_or_blank c (by simp)).resolve_left fun hc => by
      rw [hc.1] at hblank
      cases hblank
    have htrimmed : Trimmed l := by
      refine ⟨?_, fun c hc => ?_⟩
      · rw [← hl]
        cases l with
        | nil => cases hb
        | cons => rfl
      · obtain rfl := Option.some.inj (hb.symm.trans hc)
        decide
    rw [trim_concat_blank, htrimmed.trim_eq]
    exact ⟨htrimmed, .inr ⟨rfl, hb⟩⟩

theorem lt_or_eq_of_lt_blank {l m : List Char} (h : l < m ++ [' ']) (hl : ∀ c ∈ l, ' ' ≤ c) :
    l < m ∨ l = m := by
  induction m generalizing l with
  | nil =>
    cases l with
    | nil => exact .inr rfl
    | cons c l =>
      rcases List.cons_lt_cons_iff.mp h with h | ⟨-, h⟩
      · exact absurd (hl c List.mem_cons_self) (Char.not_le.mpr h)
      · cases h
  | cons d m ih =>
    cases l with
    | nil => exact .inl (List.nil_lt_cons d m)
    | cons c l =>
      rw [List.cons_append] at h
      rw [List.cons_lt_cons_iff, List.cons.injEq]
      obtain ⟨-, hl⟩ := List.forall_mem_cons.mp hl
      rcases List.cons_lt_cons_iff.mp h with h | ⟨heq, h⟩
      · exact .inl (.inl h)
      · exact (ih h hl).imp (fun h => .inr ⟨heq, h⟩) fun h => ⟨heq, h⟩

theorem lt_concat (c : Char) (l : List Char) : l < l ++ [c] := by
  induction l with
  | nil => exact List.nil_lt_cons c []
  | cons d l ih => exact List.cons_lt_cons_iff.mpr (.inr ⟨rfl, ih⟩)

theorem trim_lt_trim {l m : List Char} (hl : Escaped l) (hm : Escaped m)
    (hlhead : l.head? = some '/') (hmhead : m.head? = some '/') (h : l < m) : trim l < trim m := by
  obtain ⟨-, hltrim⟩ := trim_escaped hl hlhead
  obtain ⟨-, hmtrim⟩ := trim_escaped hm hmhead
  have hlt : trim l < m := by
    rcases hltrim with heq | ⟨heq, -⟩
    · rwa [heq]
    · refine List.lt_trans ?_ h
      conv_rhs => rw [heq]
      exact lt_concat ' ' (trim l)
  rcases hmtrim with heq | ⟨heq, -⟩
  · rwa [heq]
  · rw [heq] at hlt
    refine (lt_or_eq_of_lt_blank hlt fun c hc => ?_).resolve_right fun htrim => ?_
    · have hmem : c ∈ l := by
        rcases hltrim with heq | ⟨heq, -⟩
        · rwa [heq] at hc
        · rw [heq]
          exact List.mem_append_left _ hc
      rcases hl.solid_or_blank c hmem with hc | rfl
      · exact hc.2
      · decide
    · rcases hltrim with heq' | ⟨heq', -⟩
      · rw [← htrim, heq'] at heq
        exact hl.not_concat_blank (heq ▸ hm)
      · rw [heq', htrim, ← heq] at h
        exact List.lt_irrefl _ h

theorem compare_eq_lt_iff {a b : String} : compare a b = .lt ↔ a.toList < b.toList :=
  compareOfLessAndEq_eq_lt

-- ---------------------------------------------------------------------------
-- The text of paths
-- ---------------------------------------------------------------------------

theorem blank_le {c : Char} (h : 32 ≤ c.toNat) : ' ' ≤ c := by
  rw [Char.le_def, UInt32.le_iff_toNat_le]
  exact h

theorem solid_of_ascii {c : Char} (h : 32 < c.toNat) (hlt : c.toNat < 128) : Solid c := by
  refine ⟨?_, blank_le h.le⟩
  simp only [isWhitespace, Bool.or_eq_false_iff, Bool.and_eq_false_iff, decide_eq_false_iff_not,
    beq_eq_false_iff_ne]
  omega

theorem solid_of_isAlphanum {c : Char} (h : c.isAlphanum = true) : Solid c := by
  have hrange : 32 < c.toNat ∧ c.toNat < 128 := by
    change (decide (c.val ≥ 'A'.val ∧ c.val ≤ 'Z'.val) || c.val ≥ 'a'.val && c.val ≤ 'z'.val ||
      c.val ≥ '0'.val && c.val ≤ '9'.val) = true at h
    simp only [Bool.or_eq_true, Bool.and_eq_true, decide_eq_true_eq, UInt32.le_iff_toNat_le,
      ge_iff_le] at h
    rcases h with (⟨h, h'⟩ | ⟨h, h'⟩) | ⟨h, h'⟩
    · exact ⟨Nat.lt_of_lt_of_le (by decide) h, Nat.lt_of_le_of_lt h' (by decide)⟩
    · exact ⟨Nat.lt_of_lt_of_le (by decide) h, Nat.lt_of_le_of_lt h' (by decide)⟩
    · exact ⟨Nat.lt_of_lt_of_le (by decide) h, Nat.lt_of_le_of_lt h' (by decide)⟩
  exact solid_of_ascii hrange.1 hrange.2

theorem solid_of_isAsciiPunctuation {c : Char} (h : isAsciiPunctuation c = true) : Solid c := by
  refine solid_of_ascii ?_ (isAsciiPunctuation_lt h)
  simp only [isAsciiPunctuation, Bool.or_eq_true, Bool.and_eq_true, decide_eq_true_eq,
    Char.le_def, UInt32.le_iff_toNat_le] at h
  rcases h with ((⟨h, -⟩ | ⟨h, -⟩) | ⟨h, -⟩) | ⟨h, -⟩
  all_goals exact Nat.lt_of_lt_of_le (by decide) h

/-- `char::is_alphanumeric` and `char::is_whitespace` have no character in common. -/
def CharTable.BlanksApart (table : CharTable) : Prop :=
  ∀ c, isWhitespace c = true → table.isAlphanumeric c = false

section Written

variable {table : CharTable}

theorem solid_of_printAsIs (hspace : table.BlanksApart) {c : Char} (h : printAsIs table c = true) :
    Solid c := by
  by_cases hlt : c.toNat < 128
  · rw [printAsIs_ascii hlt] at h
    simp only [Bool.or_eq_true, beq_iff_eq] at h
    rcases h with ((h | rfl) | rfl) | rfl
    · exact solid_of_isAlphanum h
    · decide
    · decide
    · decide
  · refine ⟨Bool.eq_false_iff.mpr fun hblank => ?_, blank_le (by omega)⟩
    have hne : ∀ d : Char, d.toNat < 128 → c ≠ d := fun d hd heq => hlt (heq ▸ hd)
    simp [printAsIs, hspace c hblank, hne '_' (by decide), hne '-' (by decide),
      hne '.' (by decide)] at h

theorem escaped_escapeChar (hspace : table.BlanksApart) (c : Char) :
    Escaped (escapeChar table c) := by
  rcases @escapeChar_cases table c with ⟨h, heq⟩ | ⟨-, -, d, -, hd, -, heq⟩ | ⟨-, -, heq⟩
  · rw [heq]
    exact .plain (solid_of_printAsIs hspace h) (ne_of_printAsIs h (by decide) rfl) .nil
  · rw [heq]
    refine .escape ?_ .nil
    simp only [unescapeChar] at hd
    split_ifs at hd with hn hr ht hq
    · subst hn
      exact .inl (by decide)
    · subst hr
      exact .inl (by decide)
    · subst ht
      exact .inl (by decide)
    · rcases Bool.or_eq_true_iff.mp hq with hq | hq
      · exact .inl (solid_of_isAsciiPunctuation hq)
      · exact .inr (of_decide_eq_true hq)
  · rw [heq]
    refine .escape (.inl (by decide)) (.plain (by decide) (by decide) ?_)
    refine (Escaped.of_solid fun c hc => ?_).append
      (.of_solid (List.all_iff_forall_prop.mp (by decide)))
    exact ⟨solid_of_isAlphanum (mem_formatHex hc).1, ne_of_mem_formatHex hc rfl⟩

theorem escaped_display (hspace : table.BlanksApart) (path : EntityPath) :
    Escaped (path.display table).toList ∧ (path.display table).toList.head? = some '/' := by
  cases path with
  | nil =>
    have hroot : (EntityPath.display table []).toList = ['/'] := by simp [EntityPath.display]
    rw [hroot]
    exact ⟨.of_solid (List.all_iff_forall_prop.mp (by decide)), rfl⟩
  | cons part path =>
    rw [EntityPath.display_eq (List.cons_ne_nil part path)]
    refine ⟨.flatMap fun part _ => ?_, rfl⟩
    exact .plain (by decide) (by decide)
      (.flatMap fun c _ => escaped_escapeChar hspace c)

theorem escaped_spelling (hspace : table.BlanksApart) (t : RuleTarget) :
    Escaped (t.spelling table).toList ∧ (t.spelling table).toList.head? = some '/' := by
  obtain ⟨h, hhead⟩ := escaped_display hspace t.1
  rw [RuleTarget.spelling]
  split
  · rw [EntityPathRule.includingEntitySubtree, EntityPathRule.includingSubtree,
      String.toList_append]
    refine ⟨h.append (.of_solid (List.all_iff_forall_prop.mp (by decide))), ?_⟩
    · rw [List.head?_append, hhead]
      rfl
  · exact ⟨h, hhead⟩

end Written
end DimosViewer
