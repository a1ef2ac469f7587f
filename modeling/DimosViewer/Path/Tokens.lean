import DimosViewer.Path.DataPath

/-!
# The tokens of a text

A list is the tokens of its text exactly if it consists of separators and of words
that the scanner reads over, and every word but the last stands in front of a
separator that its own last character does not escape.
-/

namespace DimosViewer

section Tokens

variable {special : List Char}

def escapeAfter (b : Bool) (l : List Char) : Bool := (l.getLast?.map (· == '\\')).getD b

theorem escapeAfter_cons (b : Bool) (c : Char) (l : List Char) :
    escapeAfter (c == '\\') l = escapeAfter b (c :: l) := by
  cases l with
  | nil => rfl
  | cons d l => simp [escapeAfter, List.getLast?_cons]

theorem escapeAfter_eq_false {l : List Char} :
    escapeAfter false l = false ↔ l.getLast? ≠ some '\\' := by
  cases h : l.getLast? <;> simp [escapeAfter, h]

theorem scanToken_over {b : Bool} {t : List Char} (h : scanToken special b t = (t, []))
    (l : List Char) :
    scanToken special b (t ++ l) =
      (t ++ (scanToken special (escapeAfter b t) l).1,
        (scanToken special (escapeAfter b t) l).2) := by
  induction t generalizing b with
  | nil => rfl
  | cons c t ih =>
    by_cases hc : b = true ∨ c ∉ special
    · rw [scanToken_cons hc, Prod.mk.injEq, List.cons.injEq, and_iff_right rfl] at h
      rw [List.cons_append, scanToken_cons hc, ih (Prod.ext h.1 h.2), escapeAfter_cons b]
      rfl
    · rw [not_or, not_not, Bool.not_eq_true] at hc
      simp [scanToken, hc.1, hc.2] at h

theorem scanToken_read (b : Bool) (l : List Char) :
    scanToken special b (scanToken special b l).1 = ((scanToken special b l).1, []) ∧
      ((scanToken special b l).2 ≠ [] → escapeAfter b (scanToken special b l).1 = false) := by
  induction l generalizing b with
  | nil => simp [scanToken]
  | cons c l ih =>
    by_cases hc : b = true ∨ c ∉ special
    · obtain ⟨hread, hleft⟩ := ih (c == '\\')
      rw [scanToken_cons hc, scanToken_cons hc, hread]
      refine ⟨rfl, fun hne => ?_⟩
      rw [← escapeAfter_cons]
      exact hleft hne
    · rw [not_or, not_not, Bool.not_eq_true] at hc
      simp [scanToken, hc.1, hc.2, escapeAfter]

structure Word (special : List Char) (t : List Char) : Prop where
  ne_nil : t ≠ []
  scanned : scanToken special false t = (t, [])

inductive Tokens (special : List Char) : List (List Char) → Prop
  | nil : Tokens special []
  | separator : c ∈ special → Tokens special ts → Tokens special ([c] :: ts)
  | word : Word special t →
      (∀ u ∈ ts.head?, t.getLast? ≠ some '\\' ∧ ∃ c ∈ special, u = [c]) →
      Tokens special ts → Tokens special (t :: ts)

theorem Word.ne_separator (h : Word special t) (hc : c ∈ special) : t ≠ [c] := by
  rintro rfl
  have := h.scanned
  simp [scanToken, hc] at this

theorem Word.head (h : Word special (c :: t)) : c ∉ special := fun hc => by
  have := h.scanned
  simp [scanToken, hc] at this

theorem Tokens.ne_nil (h : Tokens special ts) : ∀ t ∈ ts, t ≠ [] := by
  induction h with
  | nil => simp
  | separator _ _ ih => exact List.forall_mem_cons.mpr ⟨by simp, ih⟩
  | word hw _ _ ih => exact List.forall_mem_cons.mpr ⟨hw.ne_nil, ih⟩

theorem Tokens.tail (h : Tokens special (t :: ts)) : Tokens special ts := by
  cases h with
  | separator _ h => exact h
  | word _ _ h => exact h

theorem Tokens.of_append {xs ys : List (List Char)} (h : Tokens special (xs ++ ys)) :
    Tokens special ys := by
  induction xs with
  | nil => exact h
  | cons x xs ih => exact ih h.tail

theorem Tokens.head (h : Tokens special (t :: ts)) :
    (∃ c ∈ special, t = [c]) ∨ Word special t ∧
      ∀ u ∈ ts.head?, t.getLast? ≠ some '\\' ∧ ∃ c ∈ special, u = [c] := by
  cases h with
  | separator hc _ => exact .inl ⟨_, hc, rfl⟩
  | word hw hnext _ => exact .inr ⟨hw, hnext⟩

theorem tokenizeBy_word (hw : Word special t) {l : List Char}
    (h : ∀ c ∈ l.head?, t.getLast? ≠ some '\\' ∧ c ∈ special) :
    tokenizeBy special (t ++ l) = t :: tokenizeBy special l := by
  have hscan := scanToken_over hw.scanned l
  have hstop : scanToken special (escapeAfter false t) l = ([], l) := by
    cases l with
    | nil => rfl
    | cons c l =>
      obtain ⟨hlast, hc⟩ := h c rfl
      rw [escapeAfter_eq_false.mpr hlast]
      simp [scanToken, hc]
  rw [hstop, List.append_nil] at hscan
  rw [tokenizeBy_scan (by rw [hscan]; exact hw.ne_nil), hscan]

theorem Tokens.head?_flatten (h : Tokens special ts) {c : Char} (hc : c ∈ ts.flatten.head?) :
    ∃ u ∈ ts.head?, u.head? = some c := by
  cases ts with
  | nil => simp at hc
  | cons u ts =>
    refine ⟨u, rfl, ?_⟩
    obtain ⟨d, u, rfl⟩ := List.exists_cons_of_ne_nil (h.ne_nil u List.mem_cons_self)
    simpa using hc

theorem Tokens.tokenizeBy_flatten (h : Tokens special ts) :
    tokenizeBy special ts.flatten = ts := by
  induction h with
  | nil => simp [tokenizeBy]
  | separator hc _ ih =>
    rw [List.flatten_cons, List.singleton_append, tokenizeBy_special hc, ih]
  | word hw hnext hts ih =>
    rw [List.flatten_cons, tokenizeBy_word hw, ih]
    intro c hc
    obtain ⟨u, hu, hcu⟩ := hts.head?_flatten hc
    obtain ⟨hlast, d, hd, rfl⟩ := hnext u hu
    obtain rfl : d = c := by simpa using hcu
    exact ⟨hlast, hd⟩

theorem tokens_tokenizeBy (l : List Char) : Tokens special (tokenizeBy special l) := by
  induction l using tokens_induction special with
  | hnil =>
    rw [tokenizeBy]
    exact .nil
  | hspecial c chars hc ih =>
    rw [tokenizeBy_special hc]
    exact .separator hc ih
  | htoken c chars hc ih =>
    have hne := scanToken_ne_nil hc chars
    obtain ⟨hread, hleft⟩ := @scanToken_read special false (c :: chars)
    rw [tokenizeBy_scan hne]
    refine .word ⟨hne, hread⟩ (fun u hu => ?_) ih
    rcases @scanToken_rest special false (c :: chars) with hrest | ⟨d, rest, hrest, hd⟩
    · rw [hrest, tokenizeBy] at hu
      cases hu
    · refine ⟨escapeAfter_eq_false.mp (hleft (by rw [hrest]; simp)), d, hd, ?_⟩
      rw [hrest, tokenizeBy_special hd] at hu
      exact (Option.some.inj hu).symm

theorem tokenizeBy_eq_iff {l : List Char} :
    tokenizeBy special l = ts ↔ ts.flatten = l ∧ Tokens special ts := by
  constructor
  · rintro rfl
    exact ⟨flatten_tokenizeBy special l, tokens_tokenizeBy l⟩
  · rintro ⟨rfl, h⟩
    exact h.tokenizeBy_flatten

def EndsIn (c : Char) (l : List Char) : Prop :=
  l.getLast? = some c ∧ l.dropLast.getLast? ≠ some '\\'

instance (c : Char) (l : List Char) : Decidable (EndsIn c l) := inferInstanceAs (Decidable (_ ∧ _))

theorem scanToken_over_split {b : Bool} {t l : List Char}
    (h : scanToken special b (t ++ l) = (t ++ l, [])) :
    scanToken special (escapeAfter b t) l = (l, []) := by
  induction t generalizing b with
  | nil => exact h
  | cons c t ih =>
    rw [← escapeAfter_cons]
    refine ih ?_
    by_cases hc : b = true ∨ c ∉ special
    · rw [List.cons_append, scanToken_cons hc, Prod.mk.injEq, List.cons.injEq,
        and_iff_right rfl] at h
      exact Prod.ext h.1 h.2
    · rw [not_or, not_not, Bool.not_eq_true] at hc
      simp [scanToken, hc.1, hc.2] at h

theorem Word.escaped {front : List Char} (h : Word special (front ++ [c])) (hc : c ∈ special) :
    front.getLast? = some '\\' := by
  by_contra hne
  have hsplit := scanToken_over_split h.scanned
  rw [escapeAfter_eq_false.mpr hne] at hsplit
  simp [scanToken, hc] at hsplit

/-- No text in front of a token ends in a backslash. -/
theorem Tokens.before {init rest : List (List Char)} (h : Tokens special (init ++ u :: rest))
    (hback : '\\' ∉ special) : init.flatten.getLast? ≠ some '\\' := by
  induction init with
  | nil => simp
  | cons t init ih =>
    rw [List.flatten_cons, List.getLast?_append]
    cases hlast : init.flatten.getLast? with
    | some c =>
      rw [← hlast]
      simpa [hlast] using ih h.tail
    | none =>
      obtain rfl : init = [] := by
        cases init with
        | nil => rfl
        | cons v init =>
          have hv := h.tail.ne_nil v List.mem_cons_self
          simp [hv] at hlast
      rw [Option.none_or]
      rcases h.head with ⟨c, hc, rfl⟩ | ⟨-, hnext⟩
      · simpa using fun he : c = '\\' => hback (he ▸ hc)
      · exact (hnext u rfl).1

theorem Tokens.getLast?_eq_iff (h : Tokens special ts) (hback : '\\' ∉ special)
    (hc : c ∈ special) : ts.getLast? = some [c] ↔ EndsIn c ts.flatten := by
  rcases List.eq_nil_or_concat ts with rfl | ⟨init, t, rfl⟩
  · simp [EndsIn]
  rw [List.concat_eq_append] at h ⊢
  rw [List.getLast?_concat, Option.some.injEq, List.flatten_append, List.flatten_singleton]
  constructor
  · rintro rfl
    exact ⟨List.getLast?_concat, by rw [List.dropLast_concat]; exact h.before hback⟩
  · rintro ⟨hlast, hfront⟩
    rcases h.of_append.head with ⟨d, -, rfl⟩ | ⟨hw, -⟩
    · rw [List.getLast?_concat] at hlast
      rw [Option.some.inj hlast]
    · obtain ⟨front, rfl⟩ : ∃ front, t = front ++ [c] := by
        rw [List.getLast?_append_of_ne_nil _ hw.ne_nil] at hlast
        exact List.getLast?_eq_some_iff.mp hlast
      rw [← List.append_assoc, List.dropLast_concat, List.getLast?_append, hw.escaped hc] at hfront
      exact absurd rfl hfront

end Tokens

end DimosViewer
