import Mathlib.Data.Bool.AllAny
import DimosViewer.Uri.Fragment

/-!
# Reading fragments back

A fragment is read back exactly if the text of its path can be told from what is around
it: a backslash before an ampersand hides it, wherever the backslash belongs.
-/

namespace DimosViewer

open EscapedSplit (Plain Piece escapedAfter)
-- ---------------------------------------------------------------------------
-- Splits
-- ---------------------------------------------------------------------------

theorem splitOnce_append {c : Char} {l : List Char} (h : c ∉ l) (m : List Char) :
    splitOnce c (l ++ c :: m) = some (l, m) := by
  induction l with
  | nil => rw [List.nil_append, splitOnce, if_pos rfl]
  | cons d l ih =>
    rw [List.mem_cons, not_or] at h
    rw [List.cons_append, splitOnce, if_neg (Ne.symm h.1), ih h.2]
    rfl

theorem splitOnceDots_append {l : List Char} (h : ¬ ['.', '.'] <:+: l) (hl : l.getLast? ≠ some '.')
    (m : List Char) : splitOnceDots (l ++ '.' :: '.' :: m) = some (l, m) := by
  induction l with
  | nil => rfl
  | cons c l ih =>
    have hrest := ih (fun hi => h (hi.trans (List.suffix_cons c l).isInfix)) (by
      intro he
      cases l with
      | nil => cases he
      | cons d l => exact hl (by rw [List.getLast?_cons_cons]; exact he))
    have hno : ∀ rest, c = '.' → l ++ '.' :: '.' :: m = '.' :: rest → False := by
      rintro rest rfl he
      cases l with
      | nil => exact hl rfl
      | cons d l =>
        obtain rfl : d = '.' := List.head_eq_of_cons_eq he
        exact h ⟨[], l, rfl⟩
    rw [List.cons_append, splitOnceDots, hrest]
    · rfl
    · exact hno

-- ---------------------------------------------------------------------------
-- Times
-- ---------------------------------------------------------------------------

structure TimeFormat.Reads (format : TimeFormat) (cell : TimeCell) : Prop where
  fromStr : format.fromStr (format.formatUrl cell) = .ok cell
  chars : ∀ c ∈ format.formatUrl cell, c ≠ '&' ∧ c ≠ '=' ∧ c ≠ '@'
  noDots : ¬ ['.', '.'] <:+: format.formatUrl cell
  last : (format.formatUrl cell).getLast? ≠ some '.' ∧
    (format.formatUrl cell).getLast? ≠ some '\\'

namespace TimeSelection

variable {format : TimeFormat} {selection : TimeSelection}

structure Reads (format : TimeFormat) (selection : TimeSelection) : Prop where
  name : '@' ∉ selection.timeline.name.toList ∧ '&' ∉ selection.timeline.name.toList
  temporal : TimeInt.MIN ≤ selection.range.min ∧ TimeInt.MIN ≤ selection.range.max
  min : format.Reads selection.minCell
  max : format.Reads selection.maxCell

theorem fromStr_formatUrl (h : selection.Reads format) :
    fromStr format (selection.formatUrl format) = .ok selection := by
  have hmin : selection.range.min.saturatedTemporal = selection.range.min :=
    max_eq_left h.temporal.1
  have hmax : selection.range.max.saturatedTemporal = selection.range.max :=
    max_eq_left h.temporal.2
  rw [fromStr, formatUrl, splitOnce_append h.name.1]
  simp only [splitOnceDots_append h.min.noDots h.min.last.1, h.min.fromStr, h.max.fromStr]
  simp [minCell, maxCell, TimeCell.new, AbsoluteTimeRange.new, hmin, hmax]

end TimeSelection

namespace Fragment

variable {table : CharTable} {format : TimeFormat} {fragment : Fragment}

structure Reads (table : CharTable) (format : TimeFormat) (fragment : Fragment) : Prop where
  selection : ∀ d ∈ fragment.selection,
    DataPath.fromStr table (String.ofList (d.display table)) = .ok d
  when : ∀ w ∈ fragment.when,
    ('@' ∉ w.1.toList ∧ '&' ∉ w.1.toList) ∧ format.Reads w.2
  timeSelection : ∀ t ∈ fragment.timeSelection, t.Reads format

/-- The path has no ampersand that is not escaped, and no backslash at the end, in front of
the ampersand of another part. -/
def Separable (table : CharTable) (fragment : Fragment) : Prop :=
  ∀ d ∈ fragment.selection, Plain '&' '\\' false (d.display table) ∧
    (fragment.when.isSome ∨ fragment.timeSelection.isSome →
      (d.display table).getLast? ≠ some '\\')

-- ---------------------------------------------------------------------------
-- Texts
-- ---------------------------------------------------------------------------

def laterTexts (format : TimeFormat) (fragment : Fragment) : List (List Char) :=
  (fragment.when.map (whenText format)).toList ++
    (fragment.timeSelection.map (timeSelectionText format)).toList

theorem display_eq_intercalate : fragment.display table format = List.intercalate ['&']
    ((fragment.selection.map (selectionText table)).toList ++ fragment.laterTexts format) := by
  obtain ⟨_ | d, _ | w, _ | t⟩ := fragment <;> simp [display, laterTexts]

def laterText (format : TimeFormat) (fragment : Fragment) : List Char :=
  (fragment.laterTexts format).flatMap ('&' :: ·)

theorem display_eq_append {d : DataPath} (h : fragment.selection = some d) :
    fragment.display table format = selectionText table d ++ fragment.laterText format := by
  obtain ⟨_ | d, _ | w, _ | t⟩ := fragment <;> cases h <;>
    simp [display, laterText, laterTexts]

structure Later (text : List Char) : Prop where
  noAmpersand : '&' ∉ text
  head : text.head? = some 'w' ∨ text.head? = some 't'
  last : text.getLast? ≠ some '\\'

theorem getLast?_append_cons {c d : Char} {l m : List Char} (hc : d ≠ c)
    (hm : m.getLast? ≠ some c) : (l ++ d :: m).getLast? ≠ some c := by
  rw [List.getLast?_append, List.getLast?_cons]
  cases hl : m.getLast? with
  | none => simpa using hc
  | some e =>
    rw [hl] at hm
    simpa using hm

theorem later_keyValue {key : String} {value : List Char} (hkey : '&' ∉ key.toList)
    (hhead : key.toList.head? = some 'w' ∨ key.toList.head? = some 't') (hvalue : '&' ∉ value)
    (hlast : value.getLast? ≠ some '\\') : Later (keyValue key value) where
  noAmpersand := by
    rw [keyValue, List.mem_append, List.mem_cons, not_or, not_or]
    exact ⟨hkey, by decide, hvalue⟩
  head := by
    rw [keyValue, List.head?_append]
    rcases hhead with h | h <;> simp [h]
  last := getLast?_append_cons (by decide) hlast

theorem later_whenText {w : TimelineName × TimeCell} (hname : '&' ∉ w.1.toList)
    (hcell : format.Reads w.2) : Later (whenText format w) := by
  have htime : '&' ∉ format.formatUrl w.2 := fun h => (hcell.chars _ h).1 rfl
  refine later_keyValue (by decide) (.inl (by decide)) (by simp [hname, htime]) ?_
  exact getLast?_append_cons (by decide) hcell.last.2

theorem later_timeSelectionText {t : TimeSelection} (h : t.Reads format) :
    Later (timeSelectionText format t) := by
  have hmin : '&' ∉ format.formatUrl t.minCell := fun hm => (h.min.chars _ hm).1 rfl
  have hmax : '&' ∉ format.formatUrl t.maxCell := fun hm => (h.max.chars _ hm).1 rfl
  refine later_keyValue (by decide) (.inr (by decide)) ?_ ?_
  · simp [TimeSelection.formatUrl, h.name.2, hmin, hmax]
  · refine getLast?_append_cons (by decide) (getLast?_append_cons (by decide) ?_)
    exact getLast?_append_cons (l := []) (by decide) h.max.last.2

theorem Reads.later (h : fragment.Reads table format) :
    ∀ text ∈ fragment.laterTexts format, Later text := by
  intro text ht
  rw [laterTexts, List.mem_append, Option.mem_toList, Option.mem_toList] at ht
  rcases ht with ht | ht
  · obtain ⟨w, hw, rfl⟩ := Option.map_eq_some_iff.mp ht
    exact later_whenText (h.when w hw).1.2 (h.when w hw).2
  · obtain ⟨t, hs, rfl⟩ := Option.map_eq_some_iff.mp ht
    exact later_timeSelectionText (h.timeSelection t hs)

-- ---------------------------------------------------------------------------
-- The parts, one after the other
-- ---------------------------------------------------------------------------

theorem splitFirst_keyValue {key : String} {value : List Char} (hkey : '=' ∉ key.toList)
    (hlast : '\\' ∉ key.toList) :
    EscapedSplit.splitFirst '=' '\\' false (keyValue key value) = some (key.toList, value) := by
  refine EscapedSplit.splitFirst_append hkey (EscapedSplit.escapedAfter_eq_false fun h => ?_) value
  exact hlast (List.mem_of_getLast? h)

theorem applyPart_selection {d : DataPath} (fragment : Fragment)
    (h : DataPath.fromStr table (String.ofList (d.display table)) = .ok d) :
    applyPart table format fragment (selectionText table d) =
      .ok { fragment with selection := some d } := by
  rw [applyPart, selectionText, splitFirst_keyValue (by decide) (by decide)]
  simp only [if_true, h]

theorem applyPart_when {w : TimelineName × TimeCell} (fragment : Fragment)
    (hname : '@' ∉ w.1.toList) (hcell : format.Reads w.2) :
    applyPart table format fragment (whenText format w) =
      .ok { fragment with when := some w } := by
  have hkey : "when".toList ≠ "selection".toList := by decide
  rw [applyPart, whenText, splitFirst_keyValue (by decide) (by decide)]
  simp only [if_neg hkey, if_true, splitOnce_append hname, hcell.fromStr, String.ofList_toList]

theorem applyPart_timeSelection {t : TimeSelection} (fragment : Fragment) (h : t.Reads format) :
    applyPart table format fragment (timeSelectionText format t) =
      .ok { fragment with timeSelection := some t } := by
  have hkey : "time_selection".toList ≠ "selection".toList := by decide
  have hkey' : "time_selection".toList ≠ "when".toList := by decide
  rw [applyPart, timeSelectionText, splitFirst_keyValue (by decide) (by decide)]
  simp only [if_neg hkey, if_neg hkey', if_true, TimeSelection.fromStr_formatUrl h]

theorem foldlM_applyPart (h : fragment.Reads table format) :
    ((fragment.selection.map (selectionText table)).toList ++
      fragment.laterTexts format).foldlM (applyPart table format) {} = .ok fragment := by
  obtain ⟨selection, when, timeSelection⟩ := fragment
  have hselection : (selection.map (selectionText table)).toList.foldlM
      (applyPart table format) {} = .ok { selection } := by
    cases selection with
    | none => rfl
    | some d => simpa using applyPart_selection {} (h.selection d rfl)
  have hwhen : (when.map (whenText format)).toList.foldlM (applyPart table format)
      { selection } = .ok { selection, when } := by
    cases when with
    | none => rfl
    | some w => simpa using applyPart_when { selection } (h.when w rfl).1.1 (h.when w rfl).2
  have htime : (timeSelection.map (timeSelectionText format)).toList.foldlM
      (applyPart table format) { selection, when } = .ok { selection, when, timeSelection } := by
    cases timeSelection with
    | none => rfl
    | some t => simpa using applyPart_timeSelection { selection, when } (h.timeSelection t rfl)
  rw [List.foldlM_append, hselection, laterTexts]
  change List.foldlM _ _ _ = _
  rw [List.foldlM_append, hwhen]
  exact htime

-- ---------------------------------------------------------------------------
-- Separable fragments
-- ---------------------------------------------------------------------------

theorem plain_later {text : List Char} (h : Later text) : Plain '&' '\\' false text ∧ text ≠ [] := by
  refine ⟨EscapedSplit.plain_of_not_mem h.noAmpersand, ?_⟩
  rintro rfl
  rcases h.head with h | h <;> cases h

theorem plain_selectionText {d : DataPath} :
    Plain '&' '\\' false (selectionText table d) ↔ Plain '&' '\\' false (d.display table) := by
  have hkey : Plain '&' '\\' false "selection".toList :=
    EscapedSplit.plain_of_not_mem (by decide)
  have hstate : escapedAfter '\\' false "selection".toList = false := by decide
  rw [selectionText, keyValue, EscapedSplit.plain_append, hstate]
  exact ⟨fun h => h.2.2, fun h => ⟨hkey, by decide, h⟩⟩

variable (format fragment) in
theorem laterTexts_ne_nil : fragment.laterTexts format ≠ [] ↔
    fragment.when.isSome ∨ fragment.timeSelection.isSome := by
  obtain ⟨_, _ | w, _ | t⟩ := fragment <;> simp [laterTexts]

theorem fromStr_display_of_separable (h : fragment.Reads table format)
    (hsep : fragment.Separable table) :
    fromStr table format (fragment.display table format) = .ok fragment := by
  rw [fromStr, display_eq_intercalate, EscapedSplit.split_intercalate (by decide)]
  · exact foldlM_applyPart h
  · intro text ht
    rw [List.mem_append, Option.mem_toList] at ht
    rcases ht with ht | ht
    · obtain ⟨d, hd, rfl⟩ := Option.map_eq_some_iff.mp ht
      refine ⟨plain_selectionText.mpr (hsep d hd).1, ?_⟩
      simp [selectionText, keyValue]
    · exact plain_later (h.later text ht)
  · intro text ht
    cases hd : fragment.selection with
    | none =>
      rw [hd] at ht
      exact (h.later text (List.mem_of_mem_dropLast ht)).last
    | some d =>
      rw [hd, Option.map_some, Option.toList_some, List.singleton_append] at ht
      by_cases hnil : fragment.laterTexts format = []
      · rw [hnil] at ht
        cases ht
      · rw [List.dropLast_cons_of_ne_nil hnil] at ht
        rcases List.mem_cons.mp ht with rfl | ht
        · exact getLast?_append_cons (by decide) ((hsep d hd).2 ((laterTexts_ne_nil format fragment).mp hnil))
        · exact (h.later text (List.mem_of_mem_dropLast ht)).last

-- ---------------------------------------------------------------------------
-- What follows the path
-- ---------------------------------------------------------------------------

section LaterText

variable {texts : List (List Char)}

theorem eq_append_of_no_ampersand {l m x y : List Char} (hl : '&' ∉ l)
    (h : l ++ m = x ++ '&' :: y) : ∃ z, x = l ++ z ∧ m = z ++ '&' :: y := by
  rcases List.append_eq_append_iff.mp h with ⟨z, hx, hm⟩ | ⟨z, hl', hy⟩
  · exact ⟨z, hx, hm⟩
  · cases z with
    | nil => exact ⟨[], by simpa using hl'.symm, by simpa using hy.symm⟩
    | cons c z =>
      obtain rfl : '&' = c := List.head_eq_of_cons_eq hy
      exact absurd (hl' ▸ by simp) hl

theorem head_of_later (htexts : ∀ t ∈ texts, Later t) {x y : List Char}
    (h : texts.flatMap ('&' :: ·) = x ++ '&' :: y) : y.head? = some 'w' ∨ y.head? = some 't' := by
  induction texts generalizing x with
  | nil => simp at h
  | cons t texts ih =>
    obtain ⟨ht, htexts⟩ := List.forall_mem_cons.mp htexts
    rw [List.flatMap_cons, List.cons_append] at h
    cases x with
    | nil =>
      obtain rfl : t ++ texts.flatMap ('&' :: ·) = y := List.tail_eq_of_cons_eq h
      rw [List.head?_append]
      rcases ht.head with h | h <;> simp [h]
    | cons c x =>
      obtain ⟨z, -, hz⟩ := eq_append_of_no_ampersand ht.noAmpersand (List.tail_eq_of_cons_eq h)
      exact ih htexts hz

theorem last_of_later (htexts : ∀ t ∈ texts, Later t) {x after : List Char} (hx : x ≠ [])
    (hafter : after = [] ∨ ∃ a, after = '&' :: a) (h : texts.flatMap ('&' :: ·) = x ++ after) :
    x.getLast? ≠ some '\\' := by
  induction texts generalizing x with
  | nil => simp [hx] at h
  | cons t texts ih =>
    obtain ⟨ht, htexts⟩ := List.forall_mem_cons.mp htexts
    obtain ⟨c, x, rfl⟩ := List.exists_cons_of_ne_nil hx
    rw [List.flatMap_cons, List.cons_append, List.cons_append] at h
    obtain ⟨rfl, htail⟩ := List.cons.inj h
    have hwhole : ('&' :: t).getLast? ≠ some '\\' :=
      getLast?_append_cons (l := []) (by decide) ht.last
    rcases List.append_eq_append_iff.mp htail with ⟨z, rfl, hz⟩ | ⟨z, rfl, hz⟩
    · cases z with
      | nil => rwa [List.append_nil]
      | cons d z =>
        rw [← List.cons_append, List.getLast?_append_of_ne_nil _ (by simp)]
        exact ih htexts (by simp) hz
    · cases z with
      | nil => rwa [List.append_nil] at hwhole
      | cons d z =>
        -- The piece ends within a text, which has no ampersand.
        obtain ⟨a, rfl⟩ := hafter.resolve_left (by rw [hz]; simp)
        obtain rfl : '&' = d := List.head_eq_of_cons_eq hz
        exact absurd (by simp) ht.noAmpersand

end LaterText

end Fragment

-- ---------------------------------------------------------------------------
-- The text of a path
-- ---------------------------------------------------------------------------

section PathText

variable {table : CharTable} {d : DataPath}

theorem plain_escapeChar (b : Bool) (c : Char) : Plain '&' '\\' b (escapeChar table c) := by
  rcases @escapeChar_cases table c with ⟨hp, he⟩ | ⟨-, -, e, -, -, -, he⟩ | ⟨-, -, he⟩
  · rw [he]
    refine EscapedSplit.plain_of_not_mem fun hm => ?_
    rw [← List.mem_singleton.mp hm, printAsIs_ascii (by decide)] at hp
    exact absurd hp (by decide)
  · rw [he]
    exact ⟨fun h => absurd h (by decide), fun _ => rfl, trivial⟩
  · rw [he]
    refine EscapedSplit.plain_of_not_mem ?_
    have hhex : '&' ∉ formatHex c.toNat := fun hm => ne_of_mem_formatHex hm (by decide) rfl
    simp [hhex]

theorem plain_flatMap {f : α → List Char} (h : ∀ b a, Plain '&' '\\' b (f a)) (b : Bool)
    (l : List α) : Plain '&' '\\' b (l.flatMap f) := by
  induction l generalizing b with
  | nil => trivial
  | cons a l ih =>
    rw [List.flatMap_cons, EscapedSplit.plain_append]
    exact ⟨h b a, ih _⟩

def DataPath.frontText (table : CharTable) (d : DataPath) : List Char :=
  (d.entityPath.display table).toList ++
    (d.nr.filter (· ≠ instanceAll)).elim [] fun nr =>
      '[' :: '#' :: Format.formatUint nr ++ [']']

theorem display_eq_frontText (d : DataPath) : d.display table =
    d.frontText table ++ d.component.elim [] fun component => ':' :: component.toList := by
  rw [DataPath.display, DataPath.frontText]

theorem plain_entityDisplay (b : Bool) (path : EntityPath) :
    Plain '&' '\\' b (path.display table).toList := by
  rw [EntityPath.display, String.toList_ofList]
  by_cases hnil : path.isEmpty = true
  · rw [if_pos hnil]
    exact EscapedSplit.plain_of_not_mem (by decide)
  · rw [if_neg hnil]
    refine plain_flatMap (fun b part => ?_) b path
    refine ⟨fun h => absurd h (by decide), ?_⟩
    exact plain_flatMap plain_escapeChar _ part.toList

variable (table) in
theorem plain_frontText (b : Bool) (d : DataPath) : Plain '&' '\\' b (d.frontText table) := by
  rw [DataPath.frontText, EscapedSplit.plain_append]
  refine ⟨plain_entityDisplay b _, EscapedSplit.plain_of_not_mem ?_⟩
  cases d.nr.filter (· ≠ instanceAll) with
  | none => simp
  | some nr =>
    have htext : '&' ∉ Format.formatUint nr := fun hm => absurd (mem_formatUint hm) (by decide)
    simp [htext]

theorem component_of_ampersand {front rest : List Char}
    (h : d.display table = front ++ '&' :: rest) (hfront : escapedAfter '\\' false front = false) :
    ∃ component c, d.component = some component ∧ component.toList = c ++ '&' :: rest := by
  rw [display_eq_frontText] at h
  rcases List.append_eq_append_iff.mp h with ⟨z, rfl, hz⟩ | ⟨z, he, hz⟩
  · cases hc : d.component with
    | none =>
      rw [hc] at hz
      simp at hz
    | some component =>
      rw [hc] at hz
      cases z with
      | nil => exact absurd (List.head_eq_of_cons_eq hz) (by decide)
      | cons c z => exact ⟨component, z, rfl, List.tail_eq_of_cons_eq hz⟩
  · have hplain := plain_frontText table false d
    rw [he, EscapedSplit.plain_append, hfront] at hplain
    cases z with
    | nil =>
      cases hc : d.component with
      | none =>
        rw [hc] at hz
        simp at hz
      | some component =>
        rw [hc] at hz
        exact absurd (List.head_eq_of_cons_eq hz) (by decide)
    | cons c z =>
      obtain rfl : '&' = c := List.head_eq_of_cons_eq hz
      exact absurd (hplain.2.1 rfl) (by decide)

end PathText

-- ---------------------------------------------------------------------------
-- Fragments that are not separable
-- ---------------------------------------------------------------------------

namespace Fragment

variable {table : CharTable} {format : TimeFormat} {fragment : Fragment}

theorem selection_of_applyPart {f : Fragment} {part : List Char}
    (h : applyPart table format fragment part = .ok f) : f.selection = fragment.selection ∨
      ∃ value d, part = keyValue "selection" value ∧
        DataPath.fromStr table (String.ofList value) = .ok d ∧ f.selection = some d := by
  rw [applyPart] at h
  cases hsplit : EscapedSplit.splitFirst '=' '\\' false part with
  | none =>
    rw [hsplit] at h
    cases h
    exact .inl rfl
  | some kv =>
    obtain ⟨key, value⟩ := kv
    rw [hsplit] at h
    simp only [] at h
    by_cases hkey : key = "selection".toList
    · rw [if_pos hkey] at h
      cases hpath : DataPath.fromStr table (String.ofList value) with
      | error e =>
        rw [hpath] at h
        cases h
      | ok d =>
        rw [hpath] at h
        cases h
        have he := EscapedSplit.splitFirst_eq_some hsplit
        rw [hkey] at he
        exact .inr ⟨value, d, he, hpath, rfl⟩
    · rw [if_neg hkey] at h
      refine .inl ?_
      by_cases hwhen : key = "when".toList
      · rw [if_pos hwhen] at h
        cases hat : splitOnce '@' value with
        | none =>
          rw [hat] at h
          cases h
          rfl
        | some w =>
          rw [hat] at h
          cases hcell : format.fromStr w.2 with
          | error e =>
            simp only [hcell] at h
            cases h
          | ok cell =>
            simp only [hcell] at h
            cases h
            rfl
      · rw [if_neg hwhen] at h
        by_cases htime : key = "time_selection".toList
        · rw [if_pos htime] at h
          cases ht : TimeSelection.fromStr format value with
          | error e =>
            rw [ht] at h
            cases h
          | ok t =>
            rw [ht] at h
            cases h
            rfl
        · rw [if_neg htime] at h
          cases h

theorem selection_of_foldlM {f : Fragment} {parts : List (List Char)}
    (h : parts.foldlM (applyPart table format) fragment = .ok f) :
    f.selection = fragment.selection ∨
      ∃ value d, keyValue "selection" value ∈ parts ∧
        DataPath.fromStr table (String.ofList value) = .ok d ∧ f.selection = some d := by
  induction parts generalizing fragment with
  | nil =>
    cases h
    exact .inl rfl
  | cons part parts ih =>
    rw [List.foldlM_cons] at h
    cases hpart : applyPart table format fragment part with
    | error e =>
      rw [hpart] at h
      cases h
    | ok g =>
      rw [hpart] at h
      rcases ih h with hrest | ⟨value, d, hm, hd⟩
      · rcases selection_of_applyPart hpart with hg | ⟨value, d, rfl, hd, hg⟩
        · exact .inl (hrest.trans hg)
        · exact .inr ⟨value, d, List.mem_cons_self, hd, hrest.trans hg⟩
      · exact .inr ⟨value, d, List.mem_cons_of_mem _ hm, hd⟩

variable (format fragment) in
theorem laterText_cases : fragment.laterText format = [] ∧
    ¬ (fragment.when.isSome ∨ fragment.timeSelection.isSome) ∨
      ∃ rest, fragment.laterText format = '&' :: rest := by
  rw [laterText, ← laterTexts_ne_nil format fragment, not_not]
  cases fragment.laterTexts format with
  | nil => exact .inl ⟨rfl, rfl⟩
  | cons text texts => exact .inr ⟨_, rfl⟩

theorem eq_of_front {d : DataPath} (hd : fragment.selection = some d) {value after : List Char}
    (h : fragment.display table format = [] ++ keyValue "selection" value ++ after) :
    d.display table ++ fragment.laterText format = value ++ after := by
  rw [display_eq_append hd, selectionText, keyValue, keyValue, List.nil_append, List.append_assoc,
    List.append_assoc] at h
  exact List.tail_eq_of_cons_eq (List.append_cancel_left h)

theorem separable_of_front {d : DataPath} (hd : fragment.selection = some d)
    (hpath : DataPath.fromStr table (String.ofList (d.display table)) = .ok d)
    {value after : List Char} (hvalue : DataPath.fromStr table (String.ofList value) = .ok d)
    (hpiece : Piece '&' '\\' false (fragment.display table format) [] (keyValue "selection" value)
      after) : fragment.Separable table := by
  have heq := eq_of_front hd hpiece.eq
  obtain rfl : value = d.display table := by
    rcases List.append_eq_append_iff.mp heq with ⟨z, hz, hlater⟩ | ⟨z, hz, hafter⟩
    · cases z with
      | nil => rwa [List.append_nil] at hz
      | cons c z =>
        -- The path would be read with more behind it.
        rcases laterText_cases format fragment with
          ⟨hnil, -⟩ | ⟨rest, hrest⟩
        · rw [hnil] at hlater
          cases hlater
        · rw [hrest] at hlater
          obtain rfl : '&' = c := List.head_eq_of_cons_eq hlater
          rw [hz] at hvalue
          exact absurd hvalue (fromStr_more_ne hpath z)
    · cases z with
      | nil => rw [hz, List.append_nil]
      | cons c z =>
        -- The path would be read with less of it.
        obtain ⟨a, rfl⟩ : ∃ a, after = '&' :: a := by
          rcases hpiece.stop with rfl | ⟨a, ha, -⟩
          · cases hafter
          · exact ⟨a, ha⟩
        obtain rfl : '&' = c := List.head_eq_of_cons_eq hafter
        rw [hz] at hpath
        exact absurd hpath (fromStr_more_ne hvalue z)
  intro d' hd'
  obtain rfl : d = d' := Option.some.inj (hd.symm.trans hd')
  refine ⟨plain_selectionText.mp hpiece.plain, fun hlater => ?_⟩
  obtain rfl : fragment.laterText format = after := List.append_cancel_left heq
  rcases laterText_cases format fragment with ⟨-, hno⟩ | ⟨rest, hrest⟩
  · exact absurd hlater hno
  rcases hpiece.stop with hnil | ⟨a, -, hlast⟩
  · rw [hrest] at hnil
    cases hnil
  · intro hback
    refine EscapedSplit.getLast?_ne_of_escapedAfter hlast ?_
    have hne : d.display table ≠ [] := by
      rintro he
      rw [he] at hback
      cases hback
    rw [keyValue, List.getLast?_append_of_ne_nil _ (by simp), List.getLast?_cons,
      hback]
    rfl

/-- The path is not read anywhere else. -/
theorem not_piece_behind {d : DataPath} (hd : fragment.selection = some d)
    (h : fragment.Reads table format) {value before after : List Char}
    (hvalue : DataPath.fromStr table (String.ofList value) = .ok d) (hbefore : before ≠ []) :
    ¬ Piece '&' '\\' false (fragment.display table format) before (keyValue "selection" value)
      after := by
  intro hpiece
  obtain ⟨b, rfl, hb⟩ := hpiece.start.resolve_left hbefore
  have hkey : '&' ∉ "selection".toList ++ ['='] := by decide
  have hstate : escapedAfter '\\' false ("selection".toList ++ ['=']) = false := by decide
  have heq : ("selection".toList ++ ['=']) ++ (d.display table ++ fragment.laterText format) =
      b ++ '&' :: (keyValue "selection" value ++ after) := by
    have heq := hpiece.eq
    rw [display_eq_append hd] at heq
    simpa only [selectionText, keyValue, List.append_assoc, List.nil_append,
      List.cons_append] using heq
  have hhead : ∀ x, fragment.laterText format ≠
      x ++ '&' :: (keyValue "selection" value ++ after) := by
    intro x hx
    have hsome := head_of_later h.later hx
    simp [keyValue] at hsome
  obtain ⟨z, rfl, hz⟩ := eq_append_of_no_ampersand hkey heq
  rw [EscapedSplit.escapedAfter_append, hstate] at hb
  rcases List.append_eq_append_iff.mp hz with ⟨w, -, hw⟩ | ⟨w, hpath, hw⟩
  · exact hhead w hw
  cases w with
  | nil => exact hhead [] hw.symm
  | cons c w =>
    obtain rfl : '&' = c := List.head_eq_of_cons_eq hw
    have hw := List.tail_eq_of_cons_eq hw
    obtain ⟨component, c, hcomp, hc⟩ := component_of_ampersand hpath hb
    obtain ⟨front, hfront⟩ := colon_of_component hvalue hcomp
    -- The component is in the piece, so that the piece is longer than the rest of it.
    have hlen : w.length < (keyValue "selection" value).length := by
      rw [keyValue, hfront, hc]
      simp
      omega
    rcases List.append_eq_append_iff.mp hw with ⟨y, hy, -⟩ | ⟨y, hy, hlater⟩
    · rw [hy, List.length_append] at hlen
      omega
    · have hne : y ≠ [] := by
        rintro rfl
        rw [hy, List.append_nil] at hlen
        omega
      have hlast := last_of_later h.later hne (hpiece.stop.imp_right fun ⟨a, ha, _⟩ => ⟨a, ha⟩)
        hlater
      obtain ⟨e, y, rfl⟩ := List.exists_cons_of_ne_nil hne
      obtain rfl : e = '&' := by
        rcases laterText_cases format fragment with
          ⟨hnil, -⟩ | ⟨rest, hrest⟩
        · rw [hnil] at hlater
          cases hlater
        · rw [hrest] at hlater
          exact (List.head_eq_of_cons_eq hlater).symm
      -- The ampersand behind the path is in the piece, so that a backslash is in front of it,
      -- which then ends the component and the piece.
      have hplain := hpiece.plain
      rw [EscapedSplit.escapedAfter_append, hy, EscapedSplit.plain_append] at hplain
      have hback := EscapedSplit.getLast?_of_escapedAfter (hplain.2.1 rfl)
      have hw' : w ≠ [] := by
        rintro rfl
        cases hback
      refine hlast ?_
      rw [← List.getLast?_append_of_ne_nil w (by simp), ← hy, keyValue, hfront, hc,
        List.getLast?_append_of_ne_nil _ (by simp), List.getLast?_cons,
        List.getLast?_append_of_ne_nil _ (by simp), List.getLast?_cons,
        List.getLast?_append_of_ne_nil _ (by simp), List.getLast?_cons, hback]
      rfl

theorem separable_of_fromStr (h : fragment.Reads table format)
    (hok : fromStr table format (fragment.display table format) = .ok fragment) :
    fragment.Separable table := by
  intro d hd
  rcases selection_of_foldlM hok with hnone | ⟨value, d', hm, hvalue, hd'⟩
  · rw [show fragment.selection = some d from hd] at hnone
    cases hnone
  · obtain rfl : d = d' := Option.some.inj (hd.symm.trans hd')
    obtain ⟨before, after, hpiece⟩ := EscapedSplit.piece_of_mem_split (by decide) hm
    by_cases hb : before = []
    · subst hb
      exact separable_of_front hd (h.selection d hd) hvalue hpiece d hd
    · exact absurd hpiece (not_piece_behind hd h hvalue hb)

/-- A fragment is read back just if its path can be told from the other parts. -/
theorem fromStr_display_iff (h : fragment.Reads table format) :
    fromStr table format (fragment.display table format) = .ok fragment ↔
      fragment.Separable table :=
  ⟨separable_of_fromStr h, fromStr_display_of_separable h⟩

-- ---------------------------------------------------------------------------
-- A part that ends in a backslash
-- ---------------------------------------------------------------------------

/-- Times on sequences are plain numbers. -/
def plainNumbers : TimeFormat where
  formatUrl cell := Nat.toDigits 10 cell.value.asI64.toNat
  fromStr text :=
    match fromStrRadix 10 63 text with
    | some n => .ok (.new .sequence (.newTemporal n))
    | none => .error "Expected a #sequence"

def partAndTime (part : String) : Fragment where
  selection := some ⟨[part], none, none⟩
  when := some ("t", .new .sequence (.newTemporal 5))

theorem reads_partAndTime {part : String}
    (h : DataPath.fromStr .asciiOnly (String.ofList (DataPath.display .asciiOnly
      ⟨[part], none, none⟩)) = .ok ⟨[part], none, none⟩) :
    Reads .asciiOnly plainNumbers (partAndTime part) where
  selection := by
    rintro d ⟨⟩
    exact h
  when := by
    rintro w ⟨⟩
    refine ⟨by decide, ⟨rfl, List.all_iff_forall_prop.mp (by decide), ?_, by decide⟩⟩
    decide
  timeSelection := by rintro t ⟨⟩

theorem fromStr_display_a : DataPath.fromStr .asciiOnly (String.ofList
    (DataPath.display .asciiOnly ⟨["a"], none, none⟩)) = .ok ⟨["a"], none, none⟩ := by
  decide +kernel

theorem fromStr_display_back : DataPath.fromStr .asciiOnly (String.ofList
    (DataPath.display .asciiOnly ⟨["a\\"], none, none⟩)) = .ok ⟨["a\\"], none, none⟩ := by
  decide +kernel

theorem read_back_partAndTime :
    fromStr .asciiOnly plainNumbers ((partAndTime "a").display .asciiOnly plainNumbers) =
      .ok (partAndTime "a") := by
  refine (fromStr_display_iff (reads_partAndTime fromStr_display_a)).mpr ?_
  rintro d ⟨⟩
  exact ⟨EscapedSplit.plain_of_not_mem (by decide), fun _ => by decide⟩

/-- The time is read as part of the path. -/
theorem backslash_hides_time :
    Reads .asciiOnly plainNumbers (partAndTime "a\\") ∧
      fromStr .asciiOnly plainNumbers ((partAndTime "a\\").display .asciiOnly plainNumbers) ≠
        .ok (partAndTime "a\\") := by
  have hreads := reads_partAndTime fromStr_display_back
  refine ⟨hreads, fun h => ?_⟩
  exact ((separable_of_fromStr hreads h) _ rfl).2 (.inl rfl) (by decide)

end Fragment

end DimosViewer
