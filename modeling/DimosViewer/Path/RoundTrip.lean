import Mathlib.Data.Set.Function
import DimosViewer.Path.Text

/-!
# Entity paths and their text

Printing a path and parsing the text gives the path back exactly when no character
needs a long Unicode escape and no part ends in a backslash in front of a separator.
-/

namespace DimosViewer

-- ---------------------------------------------------------------------------
-- Hexadecimal numbers
-- ---------------------------------------------------------------------------

theorem upperHexDigit_spec {d : Nat} (h : d < 16) :
    toDigit 16 (upperHexDigit d) = some d ∧ (upperHexDigit d).isAlphanum ∧
      (upperHexDigit d).utf8Size = 1 := by
  have key : ∀ d : Fin 16, toDigit 16 (upperHexDigit d) = some d.val ∧
      (upperHexDigit d).isAlphanum ∧ (upperHexDigit d).utf8Size = 1 := by
    decide
  exact key ⟨d, h⟩

theorem foldlM_upperHexDigit {digits : List Nat} (h : ∀ d ∈ digits, d < 16) (acc : Nat) :
    (digits.map upperHexDigit).foldlM (fun acc c => (toDigit 16 c).map (acc * 16 + ·)) acc =
      some (Nat.ofDigits 16 (digits.reverse ++ [acc])) := by
  induction digits generalizing acc with
  | nil => simp
  | cons d digits ih =>
    have hd := (upperHexDigit_spec (h d (by simp))).1
    have hi := ih (fun x hx => h x (by simp [hx])) (acc * 16 + d)
    simp only [List.map_cons, List.foldlM_cons, hd, Option.map_some, Option.bind_eq_bind,
      Option.bind_some, hi, List.reverse_cons, List.append_assoc, Nat.ofDigits_append,
      List.cons_append, List.nil_append, Nat.ofDigits_cons, Nat.ofDigits_nil]
    rw [Nat.add_comm d, Nat.mul_comm acc]
    rfl

theorem formatHex_length {n : Nat} : (formatHex n).length = 4 ↔ n < 0x10000 := by
  have h := @Nat.digits_length_le_iff 16 4 (by decide) n
  simp only [formatHex, Nat.digitsAppend, List.length_map, List.length_reverse,
    List.length_append, List.length_replicate]
  omega

theorem le_formatHex_length (n : Nat) : 4 ≤ (formatHex n).length := by
  simp only [formatHex, Nat.digitsAppend, List.length_map, List.length_reverse,
    List.length_append, List.length_replicate]
  omega

theorem mem_formatHex {n : Nat} {c : Char} (h : c ∈ formatHex n) :
    c.isAlphanum ∧ c.utf8Size = 1 := by
  obtain ⟨d, hd, rfl⟩ := List.mem_map.mp h
  have hlt := Nat.lt_of_mem_digitsAppend (by decide) _ _ (List.mem_reverse.mp hd)
  exact (upperHexDigit_spec hlt).2

theorem ne_of_mem_formatHex {n : Nat} {c d : Char} (h : c ∈ formatHex n)
    (hd : d.isAlphanum = false) : c ≠ d := by
  rintro rfl
  rw [(mem_formatHex h).1] at hd
  cases hd

theorem fromStrRadix_formatHex {n : Nat} (h : n < 2 ^ 32) :
    fromStrRadix 16 32 (formatHex n) = some n := by
  obtain ⟨c, rest, hc⟩ := List.exists_cons_of_length_pos
    (Nat.lt_of_lt_of_le (by decide) (le_formatHex_length n))
  have hplus := ne_of_mem_formatHex (hc ▸ List.mem_cons_self : c ∈ formatHex n)
    (by decide : Char.isAlphanum '+' = false)
  have hfold := @foldlM_upperHexDigit (Nat.digitsAppend 16 4 n).reverse (fun d hd =>
    Nat.lt_of_mem_digitsAppend (by decide) _ _ (List.mem_reverse.mp hd)) 0
  rw [List.reverse_reverse, Nat.ofDigits_append, Nat.digitsAppend,
    Nat.ofDigits_append_replicate_zero, Nat.ofDigits_digits, Nat.ofDigits_singleton, mul_zero,
    add_zero] at hfold
  change (formatHex n).foldlM _ 0 = _ at hfold
  rw [hc] at hfold ⊢
  rw [fromStrRadix]
  · simp only [List.isEmpty_cons, Bool.false_eq_true, if_false, hfold]
    simpa using h
  · rintro _ _ ⟨⟩
    exact hplus rfl

-- ---------------------------------------------------------------------------
-- Unicode escapes
-- ---------------------------------------------------------------------------

theorem char_toNat_lt (c : Char) : c.toNat < 2 ^ 32 := c.val.toNat_lt

theorem charFromU32_toNat (c : Char) : charFromU32 c.toNat = some c := by
  have hvalid : c.toNat.isValidChar := c.valid
  rw [charFromU32, if_pos hvalid, Char.ofNat_toNat]

theorem parseUnicodeEscape_short {c : Char} (h : c.toNat < 0x10000) (rest : List Char) :
    parseUnicodeEscape ('\x7b' :: formatHex c.toNat ++ '\x7d' :: rest) = (.ok c, rest) := by
  have hradix := fromStrRadix_formatHex (char_toNat_lt c)
  have hmem : ∀ x ∈ formatHex c.toNat, x ≠ '\x7d' ∧ x.utf8Size = 1 := fun x hx =>
    ⟨ne_of_mem_formatHex hx (by decide), (mem_formatHex hx).2⟩
  obtain ⟨w, x, y, z, hx⟩ := List.length_eq_four.mp (formatHex_length.mpr h)
  rw [hx] at hradix hmem
  simp only [List.mem_cons, List.not_mem_nil, or_false, forall_eq_or_imp, forall_eq] at hmem
  obtain ⟨⟨hw, hw1⟩, ⟨hx, hx1⟩, ⟨hy, hy1⟩, ⟨hz, hz1⟩⟩ := hmem
  have hbrace : Char.utf8Size '\x7b' = 1 := rfl
  simp [parseUnicodeEscape, takeUnicodeEscape, byteLen, *, charFromU32_toNat]

theorem parseUnicodeEscape_long {c : Char} (h : ¬ c.toNat < 0x10000) (rest : List Char) :
    ∃ text rest', parseUnicodeEscape ('\x7b' :: formatHex c.toNat ++ '\x7d' :: rest) =
      (.error text, rest') := by
  have hlen : 5 ≤ (formatHex c.toNat).length := by
    have := le_formatHex_length c.toNat
    have := mt formatHex_length.mp h
    omega
  have hmem : ∀ x ∈ formatHex c.toNat, x ≠ '\x7d' ∧ x.utf8Size = 1 := fun x hx =>
    ⟨ne_of_mem_formatHex hx (by decide), (mem_formatHex hx).2⟩
  generalize formatHex c.toNat = digits at hlen hmem
  rcases digits with _ | ⟨v, _ | ⟨w, _ | ⟨x, _ | ⟨y, _ | ⟨z, more⟩⟩⟩⟩⟩
  iterate 5 · simp at hlen
  simp only [List.mem_cons, forall_eq_or_imp] at hmem
  obtain ⟨⟨hv, hv1⟩, ⟨hw, hw1⟩, ⟨hx, hx1⟩, ⟨hy, hy1⟩, ⟨hz, hz1⟩, -⟩ := hmem
  have hbrace : Char.utf8Size '\x7b' = 1 := rfl
  simp [parseUnicodeEscape, takeUnicodeEscape, byteLen, *]

-- ---------------------------------------------------------------------------
-- One character
-- ---------------------------------------------------------------------------

section Chars

variable {table : CharTable}

theorem printAsIs_ascii {c : Char} (h : c.toNat < 128) :
    printAsIs table c = (c.isAlphanum || c == '_' || c == '-' || c == '.') := by
  rw [printAsIs, table.ascii c h]

theorem ne_of_printAsIs {c d : Char} (hc : printAsIs table c = true) (hd : d.toNat < 128)
    (hne : (d.isAlphanum || d == '_' || d == '-' || d == '.') = false) : c ≠ d := by
  rintro rfl
  rw [printAsIs_ascii hd, hne] at hc
  cases hc

theorem parseStrictChars_asIs {c : Char} (h : c ≠ '\\') (chars : List Char) :
    parseStrictChars table (c :: chars) =
      if printAsIs table c then (c :: ·) <$> parseStrictChars table chars
      else .error (.missingEscape c) := by
  rw [parseStrictChars]
  · rintro ⟨⟩ -
    exact h rfl
  · rintro _ _ ⟨⟩ -
    exact h rfl

theorem parseStrictChars_escape {c d : Char} (hu : c ≠ 'u') (hd : unescapeChar c = some d)
    (chars : List Char) : parseStrictChars table ('\\' :: c :: chars) =
      (d :: ·) <$> parseStrictChars table chars := by
  rw [parseStrictChars, if_neg hu, hd]

theorem parseForgivingChars_asIs {c : Char} (h : c ≠ '\\') (chars : List Char) :
    parseForgivingChars (c :: chars) = c :: parseForgivingChars chars := by
  rw [parseForgivingChars]
  · rintro ⟨⟩ -
    exact h rfl
  · rintro _ _ ⟨⟩ -
    exact h rfl

theorem parseForgivingChars_escape {c d : Char} (hu : c ≠ 'u') (hd : unescapeChar c = some d)
    (chars : List Char) :
    parseForgivingChars ('\\' :: c :: chars) = d :: parseForgivingChars chars := by
  rw [parseForgivingChars, if_neg hu, hd]
  rfl

theorem isAsciiPunctuation_lt {c : Char} (h : isAsciiPunctuation c = true) : c.toNat < 128 := by
  simp only [isAsciiPunctuation, Bool.or_eq_true, Bool.and_eq_true, decide_eq_true_eq,
    Char.le_def, UInt32.le_iff_toNat_le] at h
  simp only [Char.toNat]
  rcases h with ((⟨-, h⟩ | ⟨-, h⟩) | ⟨-, h⟩) | ⟨-, h⟩
  all_goals exact Nat.lt_of_le_of_lt h (by decide)

theorem escapeChar_cases (c : Char) :
    (printAsIs table c = true ∧ escapeChar table c = [c]) ∨
    (c.toNat < 128 ∧ printAsIs table c = false ∧ ∃ d, d ≠ 'u' ∧ unescapeChar d = some c ∧
      (d == '\\') = (c == '\\') ∧ escapeChar table c = ['\\', d]) ∨
    (printAsIs table c = false ∧ c ≠ '\\' ∧
      escapeChar table c = '\\' :: 'u' :: '\x7b' :: formatHex c.toNat ++ ['\x7d']) := by
  cases hp : printAsIs table c with
  | true => exact .inl ⟨rfl, by simp [escapeChar, hp]⟩
  | false =>
    refine .inr ?_
    by_cases hn : c = '\n'
    · subst hn
      exact .inl ⟨by decide, rfl, 'n', by decide, rfl, rfl, by simp [escapeChar, hp]⟩
    by_cases hr : c = '\r'
    · subst hr
      exact .inl ⟨by decide, rfl, 'r', by decide, rfl, rfl, by simp [escapeChar, hp]⟩
    by_cases ht : c = '\t'
    · subst ht
      exact .inl ⟨by decide, rfl, 't', by decide, rfl, rfl, by simp [escapeChar, hp]⟩
    cases hq : isAsciiPunctuation c || c = ' ' with
    | false =>
      refine .inr ⟨rfl, ?_, by simp [escapeChar, *]⟩
      rintro rfl
      revert hq
      decide
    | true =>
      obtain ⟨h1, h2, h3, h4⟩ : c ≠ 'n' ∧ c ≠ 'r' ∧ c ≠ 't' ∧ c ≠ 'u' := by
        refine ⟨?_, ?_, ?_, ?_⟩ <;> rintro rfl <;> revert hq <;> decide
      refine .inl ⟨?_, rfl, c, h4, by simp [unescapeChar, *], rfl, by simp [escapeChar, *]⟩
      rcases Bool.or_eq_true_iff.mp hq with hq | hq
      · exact isAsciiPunctuation_lt hq
      · rw [of_decide_eq_true hq]
        decide

/-- The characters that survive their own escape. -/
def Escapable (table : CharTable) (c : Char) : Prop := printAsIs table c ∨ c.toNat < 0x10000

theorem parseStrictChars_escapeChar {c : Char} (h : Escapable table c) (rest : List Char) :
    parseStrictChars table (escapeChar table c ++ rest) =
      (c :: ·) <$> parseStrictChars table rest := by
  rcases @escapeChar_cases table c with ⟨hp, he⟩ | ⟨-, -, d, hu, hd, -, he⟩ | ⟨hp, -, he⟩
  · have hne : c ≠ '\\' := ne_of_printAsIs hp (by decide) (by decide)
    rw [he, List.singleton_append, parseStrictChars_asIs hne, if_pos hp]
  · rw [he]
    exact parseStrictChars_escape hu hd rest
  · have hlt : c.toNat < 0x10000 := h.resolve_left (by simp [hp])
    have hparse := parseUnicodeEscape_short hlt rest
    rw [List.cons_append] at hparse
    rw [he]
    simp only [List.cons_append, List.append_assoc, List.nil_append]
    rw [parseStrictChars, if_pos rfl]
    simp only [hparse]

theorem parseStrictChars_not_escapable {c : Char} (h : ¬ Escapable table c) (rest : List Char) :
    ∃ e, parseStrictChars table (escapeChar table c ++ rest) = .error e := by
  rcases @escapeChar_cases table c with ⟨hp, -⟩ | ⟨hlt, -⟩ | ⟨-, -, he⟩
  · exact (h (.inl hp)).elim
  · exact (h (.inr (hlt.trans (by decide)))).elim
  · obtain ⟨text, rest', hparse⟩ := parseUnicodeEscape_long (fun hlt => h (.inr hlt)) rest
    rw [List.cons_append] at hparse
    refine ⟨.invalidUnicodeEscape (String.ofList text), ?_⟩
    rw [he]
    simp only [List.cons_append, List.append_assoc, List.nil_append]
    rw [parseStrictChars, if_pos rfl]
    simp only [hparse]

theorem parseForgivingChars_escapeChar {c : Char} (h : Escapable table c) (rest : List Char) :
    parseForgivingChars (escapeChar table c ++ rest) = c :: parseForgivingChars rest := by
  rcases @escapeChar_cases table c with ⟨hp, he⟩ | ⟨-, -, d, hu, hd, -, he⟩ | ⟨hp, -, he⟩
  · have hne : c ≠ '\\' := ne_of_printAsIs hp (by decide) (by decide)
    rw [he, List.singleton_append, parseForgivingChars_asIs hne]
  · rw [he]
    exact parseForgivingChars_escape hu hd rest
  · have hlt : c.toNat < 0x10000 := h.resolve_left (by simp [hp])
    have hparse := parseUnicodeEscape_short hlt rest
    rw [List.cons_append] at hparse
    rw [he]
    simp only [List.cons_append, List.append_assoc, List.nil_append]
    rw [parseForgivingChars, if_pos rfl]
    simp only [hparse]

end Chars

-- ---------------------------------------------------------------------------
-- Scanning
-- ---------------------------------------------------------------------------

section Scan

variable {table : CharTable} {special : List Char}

def Separators (special : List Char) : Prop := ∀ c ∈ special, c ∈ ['/', '[', ']', ':', '#']

theorem scanToken_cons {b : Bool} {c : Char} (h : b = true ∨ c ∉ special) (chars : List Char) :
    scanToken special b (c :: chars) =
      (c :: (scanToken special (c == '\\') chars).1,
        (scanToken special (c == '\\') chars).2) := by
  rw [scanToken, if_neg]
  rcases h with rfl | h <;> simp [*]

theorem scanToken_plain {l : List Char} (h : ∀ c ∈ l, c ∉ special ∧ c ≠ '\\')
    (chars : List Char) :
    scanToken special false (l ++ chars) =
      (l ++ (scanToken special false chars).1, (scanToken special false chars).2) := by
  induction l with
  | nil => rfl
  | cons c l ih =>
    obtain ⟨hc, hl⟩ := List.forall_mem_cons.mp h
    rw [List.cons_append, scanToken_cons (.inr hc.1), beq_false_of_ne hc.2, ih hl]
    rfl

theorem not_mem_separators (hs : Separators special) {c : Char}
    (h : c ∉ ['/', '[', ']', ':', '#']) : c ∉ special := fun hc => h (hs c hc)

theorem scanToken_escapeChar (hs : Separators special) (b : Bool) (c : Char) (chars : List Char) :
    scanToken special b (escapeChar table c ++ chars) =
      (escapeChar table c ++ (scanToken special (c == '\\') chars).1,
        (scanToken special (c == '\\') chars).2) := by
  have hback : '\\' ∉ special := not_mem_separators hs (by decide)
  rcases @escapeChar_cases table c with ⟨hp, he⟩ | ⟨-, -, d, -, -, hd, he⟩ | ⟨-, hne, he⟩
  · have hc : c ∉ special := by
      intro hc
      have := hs c hc
      revert hp
      simp only [List.mem_cons, List.not_mem_nil, or_false] at this
      rcases this with rfl | rfl | rfl | rfl | rfl
      all_goals rw [printAsIs_ascii (by decide)]; decide
    rw [he, List.singleton_append, scanToken_cons (.inr hc)]
    rfl
  · rw [he]
    simp only [List.cons_append, List.nil_append]
    rw [scanToken_cons (.inr hback), beq_self_eq_true, scanToken_cons (.inl rfl), hd]
  · have hplain : ∀ x ∈ '\x7b' :: (formatHex c.toNat ++ ['\x7d']), x ∉ special ∧ x ≠ '\\' := by
      intro x hx
      have hx : x ∉ ['/', '[', ']', ':', '#', '\\'] := by
        rw [List.mem_cons, List.mem_append, List.mem_singleton] at hx
        rcases hx with rfl | hx | rfl
        · decide
        · have hsym : ∀ d ∈ ['/', '[', ']', ':', '#', '\\'], d.isAlphanum = false := by simp
          exact fun hm => ne_of_mem_formatHex hx (hsym _ hm) rfl
        · decide
      refine ⟨not_mem_separators hs fun h => hx (List.mem_append_left ['\\'] h), ?_⟩
      rintro rfl
      exact hx (by decide)
    have hscan := scanToken_plain hplain chars
    rw [he, beq_false_of_ne hne]
    simp only [List.cons_append, List.append_assoc, List.nil_append] at hscan ⊢
    rw [scanToken_cons (.inr hback), beq_self_eq_true, scanToken_cons (.inl rfl),
      beq_false_of_ne (by decide : 'u' ≠ '\\'), hscan]

/-- The scanner reads over a printed part and ends in an escape behind a last backslash. -/
theorem scanToken_escaped (hs : Separators special) (b : Bool) (cs chars : List Char) :
    scanToken special b (cs.flatMap (escapeChar table) ++ chars) =
      let state := (cs.getLast?.map (· == '\\')).getD b
      (cs.flatMap (escapeChar table) ++ (scanToken special state chars).1,
        (scanToken special state chars).2) := by
  induction cs generalizing b with
  | nil => rfl
  | cons c cs ih =>
    rw [List.flatMap_cons, List.append_assoc, scanToken_escapeChar hs, ih]
    cases cs with
    | nil => simp
    | cons d cs => simp [List.getLast?_cons]

end Scan

-- ---------------------------------------------------------------------------
-- One part
-- ---------------------------------------------------------------------------

section Parts

variable {table : CharTable}

theorem parseStrictChars_escaped {cs : List Char} (h : ∀ c ∈ cs, Escapable table c)
    (rest : List Char) :
    parseStrictChars table (cs.flatMap (escapeChar table) ++ rest) =
      (cs ++ ·) <$> parseStrictChars table rest := by
  induction cs with
  | nil => exact (id_map _).symm
  | cons c cs ih =>
    obtain ⟨hc, hcs⟩ := List.forall_mem_cons.mp h
    rw [List.flatMap_cons, List.append_assoc, parseStrictChars_escapeChar hc, ih hcs,
      ← comp_map]
    rfl

theorem parseForgivingChars_escaped {cs : List Char} (h : ∀ c ∈ cs, Escapable table c)
    (rest : List Char) :
    parseForgivingChars (cs.flatMap (escapeChar table) ++ rest) =
      cs ++ parseForgivingChars rest := by
  induction cs with
  | nil => rfl
  | cons c cs ih =>
    obtain ⟨hc, hcs⟩ := List.forall_mem_cons.mp h
    rw [List.flatMap_cons, List.append_assoc, parseForgivingChars_escapeChar hc, ih hcs]
    rfl

theorem escapable_of_parseStrictChars {cs rest : List Char}
    (h : ∃ chars, parseStrictChars table (cs.flatMap (escapeChar table) ++ rest) = .ok chars) :
    ∀ c ∈ cs, Escapable table c := by
  induction cs with
  | nil => simp
  | cons c cs ih =>
    rw [List.flatMap_cons, List.append_assoc] at h
    have hc : Escapable table c := by
      by_contra hc
      obtain ⟨e, he⟩ := parseStrictChars_not_escapable hc (cs.flatMap (escapeChar table) ++ rest)
      obtain ⟨chars, h⟩ := h
      rw [he] at h
      cases h
    rw [parseStrictChars_escapeChar hc] at h
    refine List.forall_mem_cons.mpr ⟨hc, ih ?_⟩
    obtain ⟨chars, h⟩ := h
    cases hp : parseStrictChars table (cs.flatMap (escapeChar table) ++ rest) with
    | error e =>
      rw [hp] at h
      cases h
    | ok chars => exact ⟨chars, rfl⟩

end Parts

-- ---------------------------------------------------------------------------
-- Tokens of a printed path
-- ---------------------------------------------------------------------------

def EndsInBackslash (part : String) : Prop := part.toList.getLast? = some '\\'

instance (part : String) : Decidable (EndsInBackslash part) := inferInstanceAs (Decidable (_ = _))

section Tokens

variable {table : CharTable} {special : List Char}

theorem escapeChar_ne_nil (c : Char) : escapeChar table c ≠ [] := by
  rcases @escapeChar_cases table c with ⟨-, he⟩ | ⟨-, -, d, -, -, -, he⟩ | ⟨-, -, he⟩
  all_goals simp [he]

theorem escapedString_ne_nil {part : String} (h : part ≠ "") : escapedString table part ≠ [] := by
  obtain ⟨c, cs, hc⟩ := List.exists_cons_of_ne_nil (mt String.toList_eq_nil_iff.mp h)
  rw [escapedString, hc, List.flatMap_cons]
  exact List.append_ne_nil_of_left_ne_nil (escapeChar_ne_nil c) _

theorem scanToken_part (hs : Separators special) {part : String} (h : part ≠ "")
    (chars : List Char) :
    scanToken special false (escapedString table part ++ chars) =
      (escapedString table part ++ (scanToken special (EndsInBackslash part) chars).1,
        (scanToken special (EndsInBackslash part) chars).2) := by
  obtain ⟨c, cs, hc⟩ := List.exists_cons_of_ne_nil (mt String.toList_eq_nil_iff.mp h)
  have hscan := @scanToken_escaped table special hs false part.toList chars
  have hstate : (part.toList.getLast?.map (· == '\\')).getD false =
      decide (EndsInBackslash part) := by
    simp [EndsInBackslash, hc, List.getLast?_cons, beq_eq_decide]
  rw [hstate] at hscan
  exact hscan

def printParts (table : CharTable) (parts : List String) : List Char :=
  parts.flatMap ('/' :: escapedString table ·)

theorem printParts_cons (part : String) (parts : List String) :
    printParts table (part :: parts) =
      '/' :: (escapedString table part ++ printParts table parts) := by
  simp [printParts]

theorem tokenizeBy_slash (h : '/' ∈ special) (chars : List Char) :
    tokenizeBy special ('/' :: chars) = ['/'] :: tokenizeBy special chars := by
  have hscan : scanToken special false ('/' :: chars) = ([], '/' :: chars) := by
    simp [scanToken, h]
  rw [tokenizeBy, hscan]
  rfl

theorem tokenizeBy_scan {chars : List Char} (h : (scanToken special false chars).1 ≠ []) :
    tokenizeBy special chars =
      (scanToken special false chars).1 :: tokenizeBy special (scanToken special false chars).2 := by
  cases chars with
  | nil => exact absurd rfl h
  | cons c chars => rw [tokenizeBy, dif_neg (by simpa using h)]

theorem tokenizeBy_part (hs : Separators special) (hslash : '/' ∈ special) {part : String}
    (hne : part ≠ "") {parts : List String} (h : parts ≠ [] → ¬ EndsInBackslash part) :
    tokenizeBy special (escapedString table part ++ printParts table parts) =
      escapedString table part :: tokenizeBy special (printParts table parts) := by
  have hstop : scanToken special (EndsInBackslash part) (printParts table parts) =
      ([], printParts table parts) := by
    cases parts with
    | nil => rfl
    | cons q qs =>
      rw [printParts_cons, scanToken, if_pos]
      simp [h, hslash]
  have hscan := @scanToken_part table special hs part hne (printParts table parts)
  rw [hstop, List.append_nil] at hscan
  rw [tokenizeBy_scan (by simpa [hscan] using escapedString_ne_nil hne), hscan]

/-- The token of a part that ends in a backslash goes on behind the separator. -/
theorem tokenizeBy_swallow (hs : Separators special) {part : String} (hne : part ≠ "")
    (h : EndsInBackslash part) (q : String) (qs : List String) :
    ∃ token tokens, tokenizeBy special (escapedString table part ++ printParts table (q :: qs)) =
      (escapedString table part ++ '/' :: token) :: tokens := by
  have hscan := @scanToken_part table special hs part hne (printParts table (q :: qs))
  rw [decide_eq_true h, printParts_cons, scanToken_cons (.inl rfl), ← printParts_cons] at hscan
  rw [tokenizeBy_scan (by simp [hscan]), hscan]
  exact ⟨_, _, rfl⟩

end Tokens

-- ---------------------------------------------------------------------------
-- Strict parsing of a printed path
-- ---------------------------------------------------------------------------

/-- What the printer can express: short escapes only, and no backslash in front of
a separator. -/
def Printable (table : CharTable) (path : EntityPath) : Prop :=
  (∀ part ∈ path, ∀ c ∈ part.toList, Escapable table c) ∧
    ∀ part ∈ path.dropLast, ¬ EndsInBackslash part

section Strict

variable {table : CharTable} {special : List Char}

theorem printable_cons {part : String} {parts : List String} :
    Printable table (part :: parts) ↔
      (∀ c ∈ part.toList, Escapable table c) ∧ (parts ≠ [] → ¬ EndsInBackslash part) ∧
        Printable table parts := by
  cases parts with
  | nil => simp [Printable]
  | cons q qs =>
    simp only [Printable, List.dropLast_cons_cons, List.forall_mem_cons]
    tauto

theorem escapedString_ne_separator {part : String} (h : part ≠ "") {c : Char}
    (hc : c ∈ ['/', '[', ']', ':', '#']) : escapedString table part ≠ [c] := by
  intro he
  have hs : Separators [c] := by simpa [Separators] using hc
  have hscan := @scanToken_part table [c] hs part h []
  rw [List.append_nil, he] at hscan
  simp [scanToken] at hscan

theorem entityPathPartsLoop_error {token : List Char}
    (h : ∃ e, parseStrictChars table token = .error e) (tokens : List (List Char))
    (parts : List String) : entityPathPartsLoop table (token :: tokens) ≠ .ok parts := by
  obtain ⟨e, he⟩ := h
  rw [entityPathPartsLoop, he]
  split
  · rintro ⟨⟩
  · rintro ⟨⟩

theorem entityPathPartsLoop_next {token chars : List Char} {tokens : List (List Char)}
    (h : token ≠ ['/']) (hc : parseStrictChars table token = .ok chars) (ht : tokens ≠ []) :
    entityPathPartsLoop table (token :: ['/'] :: tokens) =
      (String.ofList chars :: ·) <$> entityPathPartsLoop table tokens := by
  rw [entityPathPartsLoop, if_neg h, hc]
  simp only [ne_eq, not_true_eq_false, if_false, bind, Except.bind, pure, Except.pure,
    List.isEmpty_eq_false_iff.mpr ht, Bool.false_eq_true]
  cases entityPathPartsLoop table tokens with
  | error e => rfl
  | ok parts => rfl

theorem parseStrictChars_part {part : String} (h : ∀ c ∈ part.toList, Escapable table c) :
    parseStrictChars table (escapedString table part) = .ok part.toList := by
  have hparse := parseStrictChars_escaped h []
  rw [List.append_nil] at hparse
  rw [escapedString, hparse, parseStrictChars]
  simp [Functor.map, Except.map]

theorem not_escapable_error {part : String} (h : ¬ ∀ c ∈ part.toList, Escapable table c)
    (rest : List Char) : ∃ e, parseStrictChars table (escapedString table part ++ rest) = .error e := by
  cases hp : parseStrictChars table (escapedString table part ++ rest) with
  | error e => exact ⟨e, rfl⟩
  | ok chars => exact (h (escapable_of_parseStrictChars ⟨chars, hp⟩)).elim

theorem parseStrictChars_slash (part : String) (rest : List Char) :
    ∃ e, parseStrictChars table (escapedString table part ++ '/' :: rest) = .error e := by
  by_cases h : ∀ c ∈ part.toList, Escapable table c
  · refine ⟨.missingEscape '/', ?_⟩
    have hslash : printAsIs table '/' = false := printAsIs_ascii (by decide)
    rw [escapedString, parseStrictChars_escaped h, parseStrictChars_asIs (by decide), hslash]
    rfl
  · exact not_escapable_error h _

theorem entityPathPartsLoop_printParts (hs : Separators special) (hslash : '/' ∈ special)
    {part : String} {parts : List String} (hne : ∀ p ∈ part :: parts, p ≠ "") :
    (entityPathPartsLoop table
      (tokenizeBy special (escapedString table part ++ printParts table parts)) =
        .ok (part :: parts)) ↔ Printable table (part :: parts) := by
  induction parts generalizing part with
  | nil =>
    have hp := hne part List.mem_cons_self
    rw [tokenizeBy_part hs hslash hp (by simp), printParts, List.flatMap_nil, tokenizeBy]
    constructor
    · intro h
      refine ⟨?_, by simp⟩
      rintro _ (_ | ⟨_, ⟨⟩⟩)
      by_contra hesc
      have herr := not_escapable_error hesc []
      rw [List.append_nil] at herr
      exact entityPathPartsLoop_error herr _ _ h
    · rintro ⟨hesc, -⟩
      rw [entityPathPartsLoop, if_neg (escapedString_ne_separator hp (by decide)),
        parseStrictChars_part (hesc part List.mem_cons_self)]
      simp [bind, Except.bind, pure, Except.pure, String.ofList_toList]
  | cons q qs ih =>
    obtain ⟨hp, hqs⟩ := List.forall_mem_cons.mp hne
    rw [printable_cons]
    by_cases hback : EndsInBackslash part
    · obtain ⟨token, tokens, htok⟩ := @tokenizeBy_swallow table special hs part hp hback q qs
      rw [htok]
      refine iff_of_false ?_ (by simp [hback])
      exact entityPathPartsLoop_error (parseStrictChars_slash part token) _ _
    · rw [tokenizeBy_part hs hslash hp fun _ => hback, printParts_cons, tokenizeBy_slash hslash]
      by_cases hesc : ∀ c ∈ part.toList, Escapable table c
      · have hnil : tokenizeBy special (escapedString table q ++ printParts table qs) ≠ [] := by
          have hq := hqs q List.mem_cons_self
          have hscan := @scanToken_part table special hs q hq (printParts table qs)
          rw [tokenizeBy_scan (by simp [hscan, escapedString_ne_nil hq])]
          exact List.cons_ne_nil _ _
        have hloop := entityPathPartsLoop_next (escapedString_ne_separator hp (by decide))
          (parseStrictChars_part hesc) hnil
        rw [String.ofList_toList] at hloop
        rw [hloop, and_iff_right hesc, and_iff_right fun _ => hback, ← ih hqs]
        cases entityPathPartsLoop table (tokenizeBy special (escapedString table q ++
          printParts table qs)) with
        | error e => simp [Functor.map, Except.map]
        | ok parts => simp [Functor.map, Except.map]
      · have herr := not_escapable_error hesc []
        rw [List.append_nil] at herr
        exact iff_of_false (entityPathPartsLoop_error herr _ _) (by simp [hesc])

theorem entityPathPartsFromTokensStrict_printParts (hs : Separators special)
    (hslash : '/' ∈ special) {parts : List String} (hne : ∀ p ∈ parts, p ≠ "")
    (hparts : parts ≠ []) :
    entityPathPartsFromTokensStrict table (tokenizeBy special (printParts table parts)) =
      .ok parts ↔ Printable table parts := by
  obtain ⟨part, parts, rfl⟩ := List.exists_cons_of_ne_nil hparts
  have hp := hne part List.mem_cons_self
  have hscan := @scanToken_part table special hs part hp (printParts table parts)
  have hcons := @tokenizeBy_scan special (escapedString table part ++ printParts table parts)
    (by simp [hscan, escapedString_ne_nil hp])
  rw [← entityPathPartsLoop_printParts hs hslash hne, printParts_cons, tokenizeBy_slash hslash,
    entityPathPartsFromTokensStrict, if_neg (by simp), if_neg (by simp [hcons])]
  simp

theorem mem_tokenizeBy_printParts (hs : Separators special) (hslash : '/' ∈ special)
    {parts : List String} (hne : ∀ p ∈ parts, p ≠ "") (h : Printable table parts) :
    ∀ token ∈ tokenizeBy special (printParts table parts),
      token = ['/'] ∨ ∃ p ∈ parts, token = escapedString table p := by
  induction parts with
  | nil => simp [printParts, tokenizeBy]
  | cons part parts ih =>
    obtain ⟨hp, hparts⟩ := List.forall_mem_cons.mp hne
    obtain ⟨-, hlast, hrest⟩ := printable_cons.mp h
    rw [printParts_cons, tokenizeBy_slash hslash, tokenizeBy_part hs hslash hp hlast]
    rintro token (_ | ⟨_, _ | ⟨_, hmem⟩⟩)
    · exact .inl rfl
    · exact .inr ⟨part, List.mem_cons_self, rfl⟩
    · refine (ih hparts hrest token hmem).imp_right ?_
      rintro ⟨p, hm, he⟩
      exact ⟨p, List.mem_cons_of_mem part hm, he⟩

theorem parseStrict_of_tokens {input : String} (hne : input ≠ "")
    (hcolon : (tokenizeDataPath input).findIdx? (· = [':']) = none)
    (hbracket : (tokenizeDataPath input).findIdx? (· = ['[']) = none) :
    EntityPath.parseStrict table input =
      entityPathPartsFromTokensStrict table (tokenizeDataPath input) := by
  simp only [EntityPath.parseStrict, DataPath.fromStr, hne, if_false, hcolon, hbracket, bind,
    Except.bind, pure, Except.pure]
  cases entityPathPartsFromTokensStrict table (tokenizeDataPath input) with
  | error e => rfl
  | ok parts => rfl

theorem tokens_of_parseStrict {input : String} {path : EntityPath}
    (h : EntityPath.parseStrict table input = .ok path) :
    entityPathPartsFromTokensStrict table (tokenizeDataPath input) = .ok path := by
  have hne : input ≠ "" := by
    rintro rfl
    cases h
  cases hcolon : (tokenizeDataPath input).findIdx? (· = [':']) with
  | some i =>
    simp only [EntityPath.parseStrict, DataPath.fromStr, hne, if_false, hcolon, bind, Except.bind,
      pure, Except.pure, throw, throwThe, MonadExceptOf.throw] at h
    grind
  | none =>
    cases hbracket : (tokenizeDataPath input).findIdx? (· = ['[']) with
    | some i =>
      simp only [EntityPath.parseStrict, DataPath.fromStr, hne, if_false, hcolon, hbracket, bind,
        Except.bind, pure, Except.pure, throw, throwThe, MonadExceptOf.throw] at h
      grind
    | none => rw [← parseStrict_of_tokens hne hcolon hbracket, h]

end Strict

-- ---------------------------------------------------------------------------
-- Whole paths
-- ---------------------------------------------------------------------------

namespace EntityPath

variable {table : CharTable} {path : EntityPath}

theorem display_eq (h : path ≠ []) : (path.display table).toList = printParts table path := by
  simp [display, h, printParts]

theorem parseStrict_root : parseStrict table (display table []) = .ok [] := by
  have htokens : tokenizeDataPath (display table []) = [['/']] := by
    simp [tokenizeDataPath, display, tokenizeBy_slash, tokenizeBy]
  have hne : String.ofList ['/'] ≠ "" := by decide
  rw [parseStrict_of_tokens, htokens]
  · rfl
  · exact hne
  · rw [htokens]
    rfl
  · rw [htokens]
    rfl

theorem parseStrict_display (hparts : ∀ part ∈ path, part ≠ "") :
    parseStrict table (path.display table) = .ok path ↔ Printable table path := by
  by_cases hnil : path = []
  · subst hnil
    exact iff_of_true parseStrict_root ⟨by simp, by simp⟩
  · have hs : Separators ['/', '[', ']', ':', '#'] := fun _ h => h
    have htokens : tokenizeDataPath (path.display table) =
        tokenizeBy ['/', '[', ']', ':', '#'] (printParts table path) := by
      rw [tokenizeDataPath, display_eq hnil]
    have hiff := @entityPathPartsFromTokensStrict_printParts table _ hs (by decide) _ hparts hnil
    rw [← htokens] at hiff
    refine ⟨fun h => hiff.mp (tokens_of_parseStrict h), fun h => ?_⟩
    have hmem := mem_tokenizeBy_printParts hs (by decide) hparts h
    rw [← htokens] at hmem
    have hnone : ∀ c ∈ [':', '['], (tokenizeDataPath (path.display table)).findIdx? (· = [c]) =
        none := by
      intro c hc
      rw [List.findIdx?_eq_none_iff]
      intro token htoken
      simp only [List.mem_cons, List.not_mem_nil, or_false] at hc
      rcases hmem token htoken with rfl | ⟨p, hp, rfl⟩
      · rcases hc with rfl | rfl <;> rfl
      · refine decide_eq_false (escapedString_ne_separator (hparts p hp) ?_)
        rcases hc with rfl | rfl <;> decide
    rw [parseStrict_of_tokens _ (hnone ':' (by decide)) (hnone '[' (by decide))]
    · exact hiff.mpr h
    · intro he
      have hprint : (path.display table).toList = printParts table path := display_eq hnil
      rw [he] at hprint
      obtain ⟨part, parts, rfl⟩ := List.exists_cons_of_ne_nil hnil
      rw [printParts_cons] at hprint
      cases hprint

theorem parseForgivingUncached_display (hparts : ∀ part ∈ path, part ≠ "")
    (h : Printable table path) : parseForgivingUncached (path.display table) = path := by
  by_cases hnil : path = []
  · subst hnil
    simp [parseForgivingUncached, tokenizeEntityPath, display, tokenizeBy_slash, tokenizeBy]
  · rw [parseForgivingUncached, tokenizeEntityPath, display_eq hnil]
    clear hnil
    have hs : Separators ['/'] := by simp [Separators]
    induction path with
    | nil => simp [printParts, tokenizeBy]
    | cons part parts ih =>
      obtain ⟨hp, hps⟩ := List.forall_mem_cons.mp hparts
      obtain ⟨hesc, hlast, hrest⟩ := printable_cons.mp h
      have hparse := parseForgivingChars_escaped hesc []
      rw [List.append_nil, parseForgivingChars, List.append_nil] at hparse
      rw [printParts_cons, tokenizeBy_slash (by decide), tokenizeBy_part hs (by decide) hp hlast,
        List.filter_cons_of_neg (by simp), List.filter_cons_of_pos
          (by simpa using escapedString_ne_separator hp (by decide)), List.map_cons, ih hps hrest,
        escapedString, hparse, String.ofList_toList]

-- The cache never changes a result, unless two inputs share their hash.

variable {hash : String → Hash64}

def cacheAfter (hash : String → Hash64) (inputs : List String) : ForgivingParseCache :=
  inputs.foldl (fun cache input => (parseForgiving hash cache input).2) ∅

def Cached (hash : String → Hash64) (inputs : List String) (cache : ForgivingParseCache) : Prop :=
  ∀ key path, cache[key]? = some path →
    ∃ input ∈ inputs, hash input = key ∧ path = parseForgivingUncached input

theorem Cached.parseForgiving {inputs : List String} {cache : ForgivingParseCache}
    (h : Cached hash inputs cache) (input : String) :
    Cached hash (input :: inputs) (EntityPath.parseForgiving hash cache input).2 := by
  have hold : Cached hash (input :: inputs) cache := fun key path hk =>
    (h key path hk).imp fun _ hi => ⟨List.mem_cons_of_mem input hi.1, hi.2⟩
  rw [EntityPath.parseForgiving]
  split
  · exact hold
  · intro key path hk
    rw [Std.TreeMap.getElem?_insert] at hk
    split at hk
    · rename_i heq
      obtain rfl := Option.some.inj hk
      exact ⟨input, List.mem_cons_self, Std.LawfulEqOrd.eq_of_compare heq, rfl⟩
    · exact hold key path hk

theorem cached_cacheAfter (hash : String → Hash64) (inputs : List String) :
    Cached hash inputs (cacheAfter hash inputs) := by
  have key : ∀ (rest done : List String) (cache : ForgivingParseCache), Cached hash done cache →
      Cached hash (rest.reverse ++ done)
        (rest.foldl (fun cache input => (EntityPath.parseForgiving hash cache input).2) cache) := by
    intro rest
    induction rest with
    | nil => exact fun _ _ h => h
    | cons input rest ih =>
      intro done cache h
      rw [List.reverse_cons, List.append_assoc]
      exact ih _ _ (h.parseForgiving input)
  have h := key inputs [] ∅ (fun _ _ hk => by simp at hk)
  rw [List.append_nil] at h
  exact fun key path hk => (h key path hk).imp fun _ hi => ⟨List.mem_reverse.mp hi.1, hi.2⟩

theorem parseForgiving_cacheAfter {inputs : List String} {input : String}
    (h : ∀ other ∈ inputs, hash other = hash input → other = input) :
    (parseForgiving hash (cacheAfter hash inputs) input).1 = parseForgivingUncached input := by
  rw [parseForgiving]
  split
  · rename_i path hk
    obtain ⟨other, hmem, hhash, rfl⟩ := cached_cacheAfter hash inputs _ _ hk
    rw [h other hmem hhash]
  · rfl

instance (c : Char) : Decidable (Escapable table c) := inferInstanceAs (Decidable (_ ∨ _))

instance (path : EntityPath) : Decidable (Printable table path) :=
  inferInstanceAs (Decidable (_ ∧ _))

/-- Both parsers read a printed path back exactly if it is printable. -/
theorem parse_display_iff {inputs : List String} (hparts : ∀ part ∈ path, part ≠ "")
    (hhash : ∀ input ∈ inputs, hash input = hash (path.display table) →
      input = path.display table) :
    (parseStrict table (path.display table) = .ok path ∧
      (parseForgiving hash (cacheAfter hash inputs) (path.display table)).1 = path) ↔
      Printable table path := by
  rw [parseForgiving_cacheAfter hhash, parseStrict_display hparts]
  exact ⟨And.left, fun h => ⟨h, parseForgivingUncached_display hparts h⟩⟩

theorem parse_display_iff_two :
    parseStrict .asciiOnly (display .asciiOnly ["a b", "c\\"]) = .ok ["a b", "c\\"] :=
  ((@parse_display_iff .asciiOnly ["a b", "c\\"] (fun input => .ofNat input.length) ["x"]
    (by decide) (by decide)).mpr (by simp [Printable, Escapable, EndsInBackslash])).1

/-- The backslash in front of the separator makes it part of the name. -/
theorem backslash_not_read_back :
    parseStrict .asciiOnly (display .asciiOnly ["a\\", "b"]) ≠ .ok ["a\\", "b"] := by
  rw [Ne, parseStrict_display (by decide)]
  simp [Printable, EndsInBackslash]

end EntityPath

end DimosViewer
