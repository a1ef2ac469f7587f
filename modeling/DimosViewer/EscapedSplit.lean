import Mathlib.Data.List.Basic

/-!
# Splitting at separators that are not escaped

A separator is escaped if the element right before it is the escape, whether or not
that one is escaped itself.
-/

namespace EscapedSplit

variable {α : Type*} [DecidableEq α]

def splitAux (sep esc : α) (escaped : Bool) : List α → List α × List (List α)
  | [] => ([], [])
  | c :: rest =>
    let next := splitAux sep esc (c == esc) rest
    if c = sep ∧ escaped = false then ([], next.1 :: next.2) else (c :: next.1, next.2)

def split (sep esc : α) (l : List α) : List (List α) :=
  if l = [] then [] else (splitAux sep esc false l).1 :: (splitAux sep esc false l).2

def splitFirst (sep esc : α) (escaped : Bool) : List α → Option (List α × List α)
  | [] => none
  | c :: rest =>
    if c = sep ∧ escaped = false then some ([], rest)
    else (splitFirst sep esc (c == esc) rest).map fun (text, rest) => (c :: text, rest)

def Plain (sep esc : α) : Bool → List α → Prop
  | _, [] => True
  | escaped, c :: rest => (c = sep → escaped = true) ∧ Plain sep esc (c == esc) rest

def escapedAfter (esc : α) (escaped : Bool) (l : List α) : Bool :=
  (l.getLast?.map (· == esc)).getD escaped

variable {sep esc : α} {escaped : Bool} {l m : List α}

theorem escapedAfter_cons (c : α) (l : List α) :
    escapedAfter esc escaped (c :: l) = escapedAfter esc (c == esc) l := by
  cases l with
  | nil => rfl
  | cons d l => simp [escapedAfter, List.getLast?_cons]

theorem escapedAfter_append (l m : List α) :
    escapedAfter esc escaped (l ++ m) = escapedAfter esc (escapedAfter esc escaped l) m := by
  induction l generalizing escaped with
  | nil => rfl
  | cons c l ih => rw [List.cons_append, escapedAfter_cons, ih, escapedAfter_cons]

theorem getLast?_of_escapedAfter (h : escapedAfter esc false l = true) :
    l.getLast? = some esc := by
  cases hl : l.getLast? with
  | none => simp [escapedAfter, hl] at h
  | some c => simpa [escapedAfter, hl] using h

theorem escapedAfter_eq_false (h : l.getLast? ≠ some esc) :
    escapedAfter esc false l = false := by
  cases hl : l.getLast? with
  | none => simp [escapedAfter, hl]
  | some c =>
    rw [hl] at h
    simpa [escapedAfter, hl] using h

theorem getLast?_ne_of_escapedAfter (h : escapedAfter esc escaped l = false) :
    l.getLast? ≠ some esc := by
  intro hl
  simp [escapedAfter, hl] at h

theorem plain_append : Plain sep esc escaped (l ++ m) ↔
    Plain sep esc escaped l ∧ Plain sep esc (escapedAfter esc escaped l) m := by
  induction l generalizing escaped with
  | nil => simp [Plain, escapedAfter]
  | cons c l ih => rw [List.cons_append, Plain, Plain, ih, escapedAfter_cons, and_assoc]

theorem plain_of_not_mem (h : sep ∉ l) : Plain sep esc escaped l := by
  induction l generalizing escaped with
  | nil => trivial
  | cons c l ih =>
    rw [List.mem_cons, not_or] at h
    exact ⟨fun he => absurd he.symm h.1, ih h.2⟩

theorem splitAux_cons (c : α) (l : List α) : splitAux sep esc escaped (c :: l) =
    if c = sep ∧ escaped = false then
      ([], (splitAux sep esc (c == esc) l).1 :: (splitAux sep esc (c == esc) l).2)
    else (c :: (splitAux sep esc (c == esc) l).1, (splitAux sep esc (c == esc) l).2) := rfl

theorem splitAux_plain (h : Plain sep esc escaped l) : splitAux sep esc escaped l = (l, []) := by
  induction l generalizing escaped with
  | nil => rfl
  | cons c l ih =>
    rw [splitAux_cons, ih h.2, if_neg]
    exact fun hc => Bool.noConfusion (hc.2.symm.trans (h.1 hc.1))

theorem splitAux_append (hne : sep ≠ esc) (h : Plain sep esc escaped l)
    (hlast : escapedAfter esc escaped l = false) (m : List α) :
    splitAux sep esc escaped (l ++ sep :: m) =
      (l, (splitAux sep esc false m).1 :: (splitAux sep esc false m).2) := by
  induction l generalizing escaped with
  | nil =>
    have hesc : escaped = false := hlast
    rw [List.nil_append, splitAux_cons, beq_false_of_ne hne, if_pos ⟨rfl, hesc⟩]
  | cons c l ih =>
    rw [escapedAfter_cons] at hlast
    rw [List.cons_append, splitAux_cons, ih h.2 hlast, if_neg]
    exact fun hc => Bool.noConfusion (hc.2.symm.trans (h.1 hc.1))

theorem split_plain (h : Plain sep esc false l) (hl : l ≠ []) : split sep esc l = [l] := by
  rw [split, if_neg hl, splitAux_plain h]

theorem split_append (hne : sep ≠ esc) (h : Plain sep esc false l)
    (hlast : l.getLast? ≠ some esc) (hm : m ≠ []) :
    split sep esc (l ++ sep :: m) = l :: split sep esc m := by
  rw [split, if_neg (by simp), splitAux_append hne h (escapedAfter_eq_false hlast), split, if_neg hm]

/-- Joined texts are split again, if only the last may end with the escape. -/
theorem split_intercalate (hne : sep ≠ esc) {texts : List (List α)}
    (hplain : ∀ t ∈ texts, Plain sep esc false t ∧ t ≠ [])
    (hlast : ∀ t ∈ texts.dropLast, t.getLast? ≠ some esc) :
    split sep esc (List.intercalate [sep] texts) = texts := by
  induction texts with
  | nil => rfl
  | cons text texts ih =>
    obtain ⟨htext, htexts⟩ := List.forall_mem_cons.mp hplain
    cases texts with
    | nil => simpa using split_plain htext.1 htext.2
    | cons next texts =>
      rw [List.dropLast_cons_cons, List.forall_mem_cons] at hlast
      rw [List.intercalate_cons_cons, List.append_assoc, List.singleton_append,
        split_append hne htext.1 hlast.1, ih htexts hlast.2]
      cases texts with
      | nil => simpa using (htexts next (by simp)).2
      | cons => simp [List.intercalate_cons_cons, (htexts next (by simp)).2]

structure Piece (sep esc : α) (escaped : Bool) (l before text after : List α) : Prop where
  eq : l = before ++ text ++ after
  plain : Plain sep esc (escapedAfter esc escaped before) text
  start : before = [] ∨ ∃ b, before = b ++ [sep] ∧ escapedAfter esc escaped b = false
  stop : after = [] ∨ ∃ a, after = sep :: a ∧
    escapedAfter esc (escapedAfter esc escaped before) text = false

theorem exists_piece (hne : sep ≠ esc) (l : List α) (escaped : Bool) :
    (∃ after, Piece sep esc escaped l [] (splitAux sep esc escaped l).1 after) ∧
      ∀ text ∈ (splitAux sep esc escaped l).2, ∃ before after,
        Piece sep esc escaped l before text after ∧ before ≠ [] := by
  induction l generalizing escaped with
  | nil => exact ⟨⟨[], rfl, trivial, .inl rfl, .inl rfl⟩, by simp [splitAux]⟩
  | cons c l ih =>
    obtain ⟨⟨after, hfirst⟩, hrest⟩ := ih (c == esc)
    -- A text of the rest is one of the whole.
    have hlater : ∀ text ∈ (splitAux sep esc (c == esc) l).2, ∃ before after,
        Piece sep esc escaped (c :: l) before text after ∧ before ≠ [] := by
      intro text ht
      obtain ⟨before, after, h, hb⟩ := hrest text ht
      refine ⟨c :: before, after, ⟨congrArg (c :: ·) h.eq, ?_, .inr ?_, ?_⟩, by simp⟩
      · rw [escapedAfter_cons]
        exact h.plain
      · obtain ⟨b, rfl, hlast⟩ := h.start.resolve_left hb
        exact ⟨c :: b, rfl, (escapedAfter_cons c b).trans hlast⟩
      · rw [escapedAfter_cons]
        exact h.stop
    rw [splitAux_cons]
    by_cases hc : c = sep ∧ escaped = false
    · rw [if_pos hc]
      obtain ⟨rfl, rfl⟩ := hc
      refine ⟨⟨c :: l, rfl, trivial, .inl rfl, .inr ⟨l, rfl, rfl⟩⟩, fun text ht => ?_⟩
      rcases List.mem_cons.mp ht with rfl | ht
      · refine ⟨[c], after, ⟨?_, hfirst.plain, .inr ⟨[], rfl, rfl⟩, hfirst.stop⟩, by simp⟩
        exact congrArg (c :: ·) hfirst.eq
      · exact hlater text ht
    · rw [if_neg hc]
      refine ⟨⟨after, congrArg (c :: ·) hfirst.eq, ⟨fun he => ?_, hfirst.plain⟩, .inl rfl, ?_⟩, hlater⟩
      · exact Bool.not_eq_false _ ▸ fun hf => hc ⟨he, hf⟩
      · refine hfirst.stop.imp_right ?_
        rintro ⟨a, ha, hlast⟩
        exact ⟨a, ha, (escapedAfter_cons c _).trans hlast⟩

theorem piece_of_mem_split (hne : sep ≠ esc) {text : List α} (h : text ∈ split sep esc l) :
    ∃ before after, Piece sep esc false l before text after := by
  rw [split] at h
  by_cases hl : l = []
  · rw [if_pos hl] at h
    cases h
  rw [if_neg hl] at h
  obtain ⟨⟨after, hfirst⟩, hrest⟩ := exists_piece hne l false
  rcases List.mem_cons.mp h with rfl | h
  · exact ⟨[], after, hfirst⟩
  · obtain ⟨before, after, hp, -⟩ := hrest text h
    exact ⟨before, after, hp⟩

theorem splitFirst_append (h : sep ∉ l) (hl : escapedAfter esc escaped l = false) (m : List α) :
    splitFirst sep esc escaped (l ++ sep :: m) = some (l, m) := by
  induction l generalizing escaped with
  | nil =>
    have hesc : escaped = false := hl
    rw [List.nil_append, splitFirst, if_pos ⟨rfl, hesc⟩]
  | cons c l ih =>
    rw [List.mem_cons, not_or] at h
    rw [escapedAfter_cons] at hl
    rw [List.cons_append, splitFirst, if_neg fun hc => h.1 hc.1.symm, ih h.2 hl]
    rfl

theorem splitFirst_eq_some {text rest : List α}
    (h : splitFirst sep esc escaped l = some (text, rest)) : l = text ++ sep :: rest := by
  induction l generalizing escaped text with
  | nil => cases h
  | cons c l ih =>
    rw [splitFirst] at h
    by_cases hc : c = sep ∧ escaped = false
    · rw [if_pos hc] at h
      cases h
      rw [hc.1, List.nil_append]
    · rw [if_neg hc, Option.map_eq_some_iff] at h
      obtain ⟨⟨text', rest'⟩, hsplit, he⟩ := h
      cases he
      exact congrArg (c :: ·) (ih hsplit)

end EscapedSplit
