import DimosViewer.LastEntry
import DimosViewer.Path.Text

/-!
# Entity path filters

A text is split into rules, which are kept in alphabetical order, then resolved and
kept in the order of their resolved paths. The last one that matches decides.
Paths are compared by their parts, where the source compares hashes, and read
without the memo table of the parser.
-/

namespace DimosViewer

open Std (TreeMap TransCmp LawfulEqCmp)

-- ---------------------------------------------------------------------------
-- Order of paths
-- ---------------------------------------------------------------------------

/-- What `natural_ordering::compare` gets from the `natord` crate: a total order of
strings, so that `file5` comes before `file10`. -/
structure NaturalOrder where
  compare : String → String → Ordering
  trans : TransCmp compare
  lawful : LawfulEqCmp compare

def NaturalOrder.alphabetical : NaturalOrder := ⟨Ord.compare, inferInstance, inferInstance⟩

def RESERVED_NAMESPACE_PREFIX : String := "__"

section Order

variable (natural : NaturalOrder)

/-- Reserved parts come behind everything else. -/
def EntityPathPart.cmp (a b : String) : Ordering :=
  match RESERVED_NAMESPACE_PREFIX.toList.isPrefixOf a.toList,
    RESERVED_NAMESPACE_PREFIX.toList.isPrefixOf b.toList with
  | false, true => .lt
  | true, false => .gt
  | _, _ => natural.compare a b

def EntityPath.cmp : EntityPath → EntityPath → Ordering :=
  List.compareLex (EntityPathPart.cmp natural)

end Order

namespace EntityPath

def root : EntityPath := []

def properties : EntityPath := ["__properties"]

/-- Is this equal to, or a descendant of, the given path. -/
def startsWith (path start : EntityPath) : Bool := start.isPrefixOf path

end EntityPath

-- ---------------------------------------------------------------------------
-- Characters
-- ---------------------------------------------------------------------------

/-- `char::is_whitespace`: the characters with the Unicode property `White_Space`. -/
def isWhitespace (c : Char) : Bool :=
  let n := c.toNat
  (9 ≤ n && n ≤ 13) || n == 0x20 || n == 0x85 || n == 0xA0 || n == 0x1680 ||
    (0x2000 ≤ n && n ≤ 0x200A) || n == 0x2028 || n == 0x2029 || n == 0x202F || n == 0x205F ||
    n == 0x3000

/-- `u8::is_ascii_whitespace`, which leaves out the vertical tab. -/
def isAsciiWhitespace (c : Char) : Bool :=
  c == ' ' || c == '\t' || c == '\n' || c == '\x0c' || c == '\r'

def trim (chars : List Char) : List Char :=
  ((chars.dropWhile isWhitespace).reverse.dropWhile isWhitespace).reverse

/-- `str::replace`, from the left and without overlaps. A match skips the rest of it. -/
def replaceFrom (pattern value : List Char) : Nat → List Char → List Char
  | _, [] => []
  | skip + 1, _ :: chars => replaceFrom pattern value skip chars
  | 0, c :: chars =>
    if pattern.isPrefixOf (c :: chars) then
      value ++ replaceFrom pattern value (pattern.length - 1) chars
    else c :: replaceFrom pattern value 0 chars

def replace (chars pattern value : List Char) : List Char := replaceFrom pattern value 0 chars

def stripSuffix (suffix chars : List Char) : Option (List Char) :=
  if suffix.isSuffixOf chars then some (chars.take (chars.length - suffix.length)) else none

-- ---------------------------------------------------------------------------
-- Splitting the text
-- ---------------------------------------------------------------------------

/-- One token, what is left, and whether it ended in an escape. Behind `+` and `-` at
the front of a token only a newline ends it. -/
def scanRule (isInEscape isIncludeExclude newToken : Bool) :
    List Char → List Char × List Char × Bool
  | [] => ([], [], isInEscape)
  | c :: chars =>
    let isUnescapedWhitespace := !isInEscape && isAsciiWhitespace c
    let isUnescapedNewline := !isInEscape && c == '\n'
    if isUnescapedNewline || (!isIncludeExclude && isUnescapedWhitespace) then
      ([], c :: chars, isInEscape)
    else
      let (isIncludeExclude, newToken) :=
        if c == '+' || c == '-' then (newToken, newToken)
        else if !isUnescapedWhitespace then (false, false)
        else (isIncludeExclude, newToken)
      let (token, rest, isInEscape) := scanRule (c == '\\') isIncludeExclude newToken chars
      (c :: token, rest, isInEscape)

def skipWhitespace (isInEscape : Bool) : List Char → List Char
  | [] => []
  | c :: chars =>
    if isInEscape || !isAsciiWhitespace c then c :: chars else skipWhitespace (c == '\\') chars

theorem skipWhitespace_length (isInEscape : Bool) (chars : List Char) :
    (skipWhitespace isInEscape chars).length ≤ chars.length := by
  induction chars generalizing isInEscape with
  | nil => exact le_rfl
  | cons c chars ih =>
    rw [skipWhitespace]
    split
    · exact le_rfl
    · exact (ih _).trans (Nat.le_succ _)

theorem scanRule_length (isInEscape isIncludeExclude newToken : Bool) (chars : List Char) :
    (scanRule isInEscape isIncludeExclude newToken chars).1.length +
      (scanRule isInEscape isIncludeExclude newToken chars).2.1.length = chars.length := by
  induction chars generalizing isInEscape isIncludeExclude newToken with
  | nil => rfl
  | cons c chars ih =>
    rw [scanRule]
    simp only
    split
    · exact Nat.zero_add _
    · rw [List.length_cons, List.length_cons, ← ih, Nat.add_right_comm]

theorem skipWhitespace_scanRule_length (c : Char) (chars : List Char) :
    let scanned := scanRule false false true (c :: chars)
    (skipWhitespace scanned.2.2 scanned.2.1).length < (c :: chars).length := by
  simp only [scanRule, Bool.not_false, Bool.true_and]
  split
  · rename_i h
    have hc : isAsciiWhitespace c = true := by
      rcases Bool.or_eq_true_iff.mp h with h | h
      · rw [beq_iff_eq.mp h]
        rfl
      · exact h
    simp only [skipWhitespace, hc, Bool.not_true, Bool.or_false, Bool.false_eq_true, if_false]
    exact Nat.lt_succ_of_le (skipWhitespace_length _ _)
  · refine Nat.lt_succ_of_le ((skipWhitespace_length _ _).trans ?_)
    rw [← scanRule_length _ _ _ chars]
    exact Nat.le_add_left _ _

/-- Rules are separated by whitespace, but a sign may be set off from its rule. -/
def splitWhitespaceSmart : List Char → List (List Char)
  | [] => []
  | c :: chars =>
    let scanned := scanRule false false true (c :: chars)
    let rest := splitWhitespaceSmart (skipWhitespace scanned.2.2 scanned.2.1)
    if scanned.1.isEmpty then rest else scanned.1 :: rest
termination_by chars => chars.length
decreasing_by exact skipWhitespace_scanRule_length c chars

-- ---------------------------------------------------------------------------
-- Rules
-- ---------------------------------------------------------------------------

inductive RuleEffect where
  | include
  | exclude
deriving DecidableEq, Repr

/-- A raw path expression without any variable substitutions. -/
abbrev EntityPathRule := String

namespace EntityPathRule

def new (expression : List Char) : EntityPathRule := String.ofList (trim expression)

def includeSubtree (rule : EntityPathRule) : Bool := ['/', '*', '*'].isSuffixOf rule.toList

def includingSubtree (pathOrVariable : String) : EntityPathRule := pathOrVariable ++ "/**"

def includingEntitySubtree (table : CharTable) (entityPath : EntityPath) : EntityPathRule :=
  includingSubtree (entityPath.display table)

end EntityPathRule

/-- Variables and their values, in the order of the hash map. -/
abbrev EntityPathSubs := List (String × String)

def EntityPathSubs.newWithOrigin (table : CharTable) (origin : EntityPath) : EntityPathSubs :=
  [("origin", origin.display table)]

def EntityPathSubs.empty : EntityPathSubs := []

structure ResolvedEntityPathRule where
  rule : EntityPathRule
  resolvedPath : EntityPath
deriving DecidableEq

namespace ResolvedEntityPathRule

def isMatch (rule : ResolvedEntityPathRule) (path : EntityPath) : Bool :=
  if rule.rule.includeSubtree then path.startsWith rule.resolvedPath
  else path = rule.resolvedPath

def includingSubtree (table : CharTable) (entityPath : EntityPath) : ResolvedEntityPathRule :=
  ⟨.includingEntitySubtree table entityPath, entityPath⟩

def substituteVariables (rule : EntityPathRule) (substEnv : EntityPathSubs) : List Char :=
  substEnv.foldl (fun expression (key, value) =>
    let expression := replace expression ('$' :: key.toList) value.toList
    replace expression ('$' :: '\x7b' :: key.toList ++ ['\x7d']) value.toList) rule.toList

def parseForgiving (expression : String) (substEnv : EntityPathSubs) : ResolvedEntityPathRule :=
  let rule := EntityPathRule.new expression.toList
  let expressionSub := substituteVariables rule substEnv
  if expressionSub = ['/', '*', '*'] then ⟨rule, EntityPath.root⟩
  else
    match stripSuffix ['/', '*', '*'] expressionSub with
    | some path => ⟨rule, EntityPath.parseForgivingUncached (String.ofList path)⟩
    | none => ⟨rule, EntityPath.parseForgivingUncached (String.ofList expressionSub)⟩

/-- Most specific last, which means recursive first. -/
def cmp (natural : NaturalOrder) (a b : ResolvedEntityPathRule) : Ordering :=
  (EntityPath.cmp natural a.resolvedPath b.resolvedPath).then
    (compare (!a.rule.includeSubtree) (!b.rule.includeSubtree))

end ResolvedEntityPathRule

-- ---------------------------------------------------------------------------
-- Filters
-- ---------------------------------------------------------------------------

structure EntityPathFilter where
  rules : TreeMap EntityPathRule RuleEffect

structure ResolvedEntityPathFilter (natural : NaturalOrder) where
  rules : TreeMap ResolvedEntityPathRule RuleEffect (ResolvedEntityPathRule.cmp natural)

namespace EntityPathFilter

def ruleOf (expression : List Char) : Option (EntityPathRule × RuleEffect) :=
  match trim expression with
  | [] => none
  | '+' :: pathPattern => some (.new pathPattern, .include)
  | '-' :: pathPattern => some (.new pathPattern, .exclude)
  | line => some (.new line, .include)

def fromQueryExpressions (rules : List (List Char)) : EntityPathFilter :=
  ⟨insertEntries (rules.filterMap ruleOf)⟩

def parseForgiving (rules : String) : EntityPathFilter :=
  fromQueryExpressions (splitWhitespaceSmart rules.toList)

/-- The properties are excluded, unless there is a rule for exactly that subtree. -/
def resolveForgiving (table : CharTable) (natural : NaturalOrder) (filter : EntityPathFilter)
    (substEnv : EntityPathSubs) : ResolvedEntityPathFilter natural :=
  let resolved := filter.rules.toList.map fun (rule, effect) =>
    (ResolvedEntityPathRule.parseForgiving rule substEnv, effect)
  ⟨(insertEntries resolved).insertIfNew (.includingSubtree table .properties) .exclude⟩

end EntityPathFilter

namespace ResolvedEntityPathFilter

variable {natural : NaturalOrder}

def mostSpecificMatch (filter : ResolvedEntityPathFilter natural) (path : EntityPath) :
    Option RuleEffect :=
  (filter.rules.toList.reverse.find? fun (rule, _) => rule.isMatch path).map Prod.snd

def isMatch (filter : ResolvedEntityPathFilter natural) (path : EntityPath) : Bool :=
  match (filter.mostSpecificMatch path).getD .exclude with
  | .include => true
  | .exclude => false

end ResolvedEntityPathFilter

end DimosViewer
