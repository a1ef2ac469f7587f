import Mathlib.Data.List.Sort
import Mathlib.Data.Fintype.Basic
import Mathlib.Order.WithBot

/-!
# Zipping ranges

The generator writes one iterator for each number of required and optional inputs,
all of the same shape: here the inputs are families. Inputs are lists that are read
from the front, and a peeked element is still the head of its list.
-/

namespace DimosViewer

-- ---------------------------------------------------------------------------
-- The generated iterators
-- ---------------------------------------------------------------------------

section Model

variable {Idx : Type} [LinearOrder Idx] {r o : Nat}

structure RangeZip (Idx : Type) (R : Fin r → Type) (O : Fin o → Type) where
  required : (k : Fin r) → List (Idx × R k)
  optional : (k : Fin o) → List (Idx × O k)
  dataLatest : (k : Fin o) → Option (O k)

structure RangeZipItem (Idx : Type) (R : Fin r → Type) (O : Fin o → Type) where
  maxIndex : Idx
  requiredData : (k : Fin r) → R k
  optionalData : (k : Fin o) → Option (O k)

variable {R : Fin r → Type} {O : Fin o → Type}

def rangeZip (required : (k : Fin r) → List (Idx × R k)) (optional : (k : Fin o) → List (Idx × O k)) :
    RangeZip Idx R O :=
  ⟨required, optional, fun _ => none⟩

/-- The required inputs are read one after the other, up to the first that is exhausted. -/
def nextRequired (required : (k : Fin r) → List (Idx × R k)) :
    Option ((k : Fin r) → Idx × R k) × ((k : Fin r) → List (Idx × R k)) :=
  if h : ∀ k, required k ≠ [] then
    (some fun k => (required k).head (h k), fun k => (required k).tail)
  else
    (none, fun k => if ∀ j < k, required j ≠ [] then (required k).tail else required k)

def nextWhile (maxIndex : Idx) : Option α → List (Idx × α) → Option α × List (Idx × α)
  | data, [] => (data, [])
  | data, (index, next) :: rest =>
    if index ≤ maxIndex then nextWhile maxIndex (some next) rest else (data, (index, next) :: rest)

namespace RangeZip

def next (zip : RangeZip Idx R O) : Option (RangeZipItem Idx R O) × RangeZip Idx R O :=
  match nextRequired zip.required with
  | (none, required) => (none, { zip with required })
  | (some next, required) =>
    match (List.ofFn fun k => (next k).1).max? with
    | none => (none, { zip with required })
    | some maxIndex =>
      let read k := nextWhile maxIndex none (zip.optional k)
      let data k := (read k).1.or (zip.dataLatest k)
      (some ⟨maxIndex, fun k => (next k).2, data⟩,
        { required, optional := fun k => (read k).2, dataLatest := data })

def after (zip : RangeZip Idx R O) : Nat → RangeZip Idx R O
  | 0 => zip
  | i + 1 => (zip.after i).next.2

def output (zip : RangeZip Idx R O) (i : Nat) : Option (RangeZipItem Idx R O) :=
  (zip.after i).next.1

end RangeZip

end Model

-- ---------------------------------------------------------------------------
-- Sorted streams
-- ---------------------------------------------------------------------------

section Streams

variable {Idx : Type} [LinearOrder Idx]

def IndexSorted (l : List (Idx × α)) : Prop := l.Pairwise fun a b => a.1 ≤ b.1

def upTo (t : WithBot Idx) (l : List (Idx × α)) : List (Idx × α) :=
  l.filter fun e => (e.1 : WithBot Idx) ≤ t

def beyond (t : WithBot Idx) (l : List (Idx × α)) : List (Idx × α) :=
  l.filter fun e => t < (e.1 : WithBot Idx)

def lastUpTo (t : WithBot Idx) (l : List (Idx × α)) : Option α := (upTo t l).getLast?.map Prod.snd

variable {l : List (Idx × α)}

theorem IndexSorted.beyond (h : IndexSorted l) (t : WithBot Idx) : IndexSorted (beyond t l) :=
  h.sublist List.filter_sublist

theorem cons_of_le {e : Idx × α} {t : WithBot Idx} (h : (e.1 : WithBot Idx) ≤ t) :
    upTo t (e :: l) = e :: upTo t l ∧ DimosViewer.beyond t (e :: l) = DimosViewer.beyond t l := by
  simp [upTo, DimosViewer.beyond, h, not_lt.mpr h]

theorem cons_of_lt {e : Idx × α} {t : WithBot Idx} (hl : IndexSorted (e :: l))
    (h : t < (e.1 : WithBot Idx)) :
    upTo t (e :: l) = [] ∧ DimosViewer.beyond t (e :: l) = e :: l := by
  have hall : ∀ x ∈ e :: l, t < (x.1 : WithBot Idx) :=
    List.forall_mem_cons.mpr
      ⟨h, fun x hx => h.trans_le (WithBot.coe_le_coe.mpr ((List.pairwise_cons.mp hl).1 x hx))⟩
  constructor
  · exact List.filter_eq_nil_iff.mpr fun x hx hxt =>
      (hall x hx).not_ge (of_decide_eq_true hxt)
  · exact List.filter_eq_self.mpr fun x hx => decide_eq_true (hall x hx)

theorem upTo_append_beyond (h : IndexSorted l) (t : WithBot Idx) : upTo t l ++ beyond t l = l := by
  induction l with
  | nil => rfl
  | cons e l ih =>
    rcases le_or_gt (e.1 : WithBot Idx) t with hle | hlt
    · obtain ⟨hup, hbeyond⟩ := @cons_of_le _ _ _ l e t hle
      rw [hup, hbeyond, List.cons_append, ih (List.pairwise_cons.mp h).2]
    · obtain ⟨hup, hbeyond⟩ := cons_of_lt h hlt
      rw [hup, hbeyond, List.nil_append]

theorem beyond_beyond {t u : WithBot Idx} (h : t ≤ u) : beyond u (beyond t l) = beyond u l := by
  rw [beyond, beyond, List.filter_filter]
  refine List.filter_congr fun e _ => ?_
  rw [Bool.and_eq_left_iff_imp, decide_eq_true_eq, decide_eq_true_eq]
  exact h.trans_lt

theorem lastUpTo_of_le (hl : IndexSorted l) {t u : WithBot Idx} (h : t ≤ u) :
    lastUpTo u l = (lastUpTo u (beyond t l)).or (lastUpTo t l) := by
  have hup : upTo u (upTo t l) = upTo t l := by
    refine List.filter_eq_self.mpr fun e he => decide_eq_true ?_
    exact (of_decide_eq_true (List.mem_filter.mp he).2).trans h
  have hsplit : upTo u l = upTo t l ++ upTo u (beyond t l) := by
    conv_lhs => rw [← upTo_append_beyond hl t]
    rw [upTo, List.filter_append, ← upTo, ← upTo, hup]
  rw [lastUpTo, hsplit, List.getLast?_append, lastUpTo, lastUpTo]
  cases (upTo u (beyond t l)).getLast? <;> rfl

theorem nextWhile_eq (hl : IndexSorted l) (maxIndex : Idx) (data : Option α) :
    nextWhile maxIndex data l = ((lastUpTo maxIndex l).or data, beyond maxIndex l) := by
  induction l generalizing data with
  | nil => rfl
  | cons e l ih =>
    obtain ⟨index, next⟩ := e
    rw [nextWhile]
    split
    · rename_i hle
      obtain ⟨hup, hbeyond⟩ := @cons_of_le _ _ _ l (index, next) maxIndex
        (WithBot.coe_le_coe.mpr hle)
      rw [ih (List.pairwise_cons.mp hl).2, lastUpTo, lastUpTo, hup, hbeyond, List.getLast?_cons]
      cases (upTo maxIndex l).getLast? <;> rfl
    · rename_i hnot
      obtain ⟨hup, hbeyond⟩ := cons_of_lt hl (WithBot.coe_lt_coe.mpr (not_le.mp hnot))
      rw [lastUpTo, hup, hbeyond]
      rfl

end Streams

-- ---------------------------------------------------------------------------
-- The join
-- ---------------------------------------------------------------------------

namespace RangeZip

variable {Idx : Type} [LinearOrder Idx] {r o : Nat} {R : Fin r → Type} {O : Fin o → Type}
  {required : (k : Fin r) → List (Idx × R k)} {optional : (k : Fin o) → List (Idx × O k)}

structure ReadUpTo (required : (k : Fin r) → List (Idx × R k))
    (optional : (k : Fin o) → List (Idx × O k)) (i : Nat) (t : WithBot Idx)
    (zip : RangeZip Idx R O) : Prop where
  rows : ∀ k, zip.required k = (required k).drop i
  unread : ∀ k, zip.optional k = beyond t (optional k)
  latest : ∀ k, zip.dataLatest k = lastUpTo t (optional k)
  behind : t = ⊥ ∨ ∃ k, ∀ e ∈ (required k).drop i, t ≤ (e.1 : WithBot Idx)

structure IsJoined (required : (k : Fin r) → List (Idx × R k))
    (optional : (k : Fin o) → List (Idx × O k)) (i : Nat) (item : RangeZipItem Idx R O) :
    Prop where
  rows : ∀ k, ∃ index, (required k)[i]? = some (index, item.requiredData k) ∧
    index ≤ item.maxIndex
  reached : ∃ k, ∃ data, (required k)[i]? = some (item.maxIndex, data)
  optional : ∀ k, item.optionalData k = lastUpTo item.maxIndex (optional k)

theorem getElem?_of_drop_eq {l m : List α} {i : Nat} (h : m = l.drop i) (hne : m ≠ []) :
    l[i]? = some (m.head hne) ∧ m.tail = l.drop (i + 1) := by
  subst h
  have hi : i < l.length := by
    by_contra hle
    exact hne (List.drop_of_length_le (Nat.le_of_not_lt hle))
  refine ⟨?_, List.tail_drop⟩
  rw [List.head_drop, List.getElem?_eq_getElem hi]

theorem next_eq {zip : RangeZip Idx R O} (hr : 0 < r) (hne : ∀ k, zip.required k ≠ []) :
    ∃ maxIndex, (∃ k, ((zip.required k).head (hne k)).1 = maxIndex) ∧
      (∀ k, ((zip.required k).head (hne k)).1 ≤ maxIndex) ∧
      zip.next =
        (some ⟨maxIndex, fun k => ((zip.required k).head (hne k)).2,
          fun k => (nextWhile maxIndex none (zip.optional k)).1.or (zip.dataLatest k)⟩,
        ⟨fun k => (zip.required k).tail,
          fun k => (nextWhile maxIndex none (zip.optional k)).2,
          fun k => (nextWhile maxIndex none (zip.optional k)).1.or (zip.dataLatest k)⟩) := by
  have hnext : nextRequired zip.required =
      (some fun k => (zip.required k).head (hne k), fun k => (zip.required k).tail) :=
    dif_pos hne
  cases hmax : (List.ofFn fun k => ((zip.required k).head (hne k)).1).max? with
  | none =>
    rw [List.max?_eq_none_iff, List.ofFn_eq_nil_iff] at hmax
    omega
  | some maxIndex =>
    obtain ⟨hmem, hle⟩ := List.max?_eq_some_iff.mp hmax
    refine ⟨maxIndex, List.mem_ofFn.mp hmem, fun k => hle _ (List.mem_ofFn.mpr ⟨k, rfl⟩), ?_⟩
    simp only [next, hnext, hmax]

theorem ReadUpTo.next {zip : RangeZip Idx R O} {i : Nat} {t : WithBot Idx}
    (h : ReadUpTo required optional i t zip) (hr : 0 < r) (hreq : ∀ k, IndexSorted (required k))
    (hopt : ∀ k, IndexSorted (optional k)) (hne : ∀ k, zip.required k ≠ []) :
    ∃ item, zip.next.1 = some item ∧ IsJoined required optional i item ∧
      ReadUpTo required optional (i + 1) item.maxIndex zip.next.2 := by
  have hrow := fun k => getElem?_of_drop_eq (h.rows k) (hne k)
  obtain ⟨maxIndex, ⟨k, hk⟩, hle, hnext⟩ := next_eq hr hne
  have ht : t ≤ (maxIndex : WithBot Idx) := by
    rcases h.behind with rfl | ⟨j, hj⟩
    · exact bot_le
    · refine (hj _ ?_).trans (WithBot.coe_le_coe.mpr (hle j))
      rw [← h.rows j]
      exact List.head_mem _
  have hread : ∀ k, nextWhile maxIndex none (zip.optional k) =
      (lastUpTo maxIndex (beyond t (optional k)), beyond maxIndex (optional k)) := by
    intro k
    rw [h.unread, nextWhile_eq ((hopt k).beyond t), Option.or_none, beyond_beyond ht]
  have hdata : ∀ k, (nextWhile maxIndex none (zip.optional k)).1.or (zip.dataLatest k) =
      lastUpTo maxIndex (optional k) := by
    intro k
    rw [hread, h.latest, ← lastUpTo_of_le (hopt k) ht]
  rw [hnext]
  refine ⟨_, rfl, ⟨fun k => ⟨_, (hrow k).1, hle k⟩,
      ⟨k, ((zip.required k).head (hne k)).2, ?_⟩, hdata⟩,
    fun k => (hrow k).2, fun k => congrArg Prod.snd (hread k), hdata, .inr ⟨k, fun e he => ?_⟩⟩
  · rw [(hrow k).1, ← hk]
  · have hsorted := (hreq k).sublist (List.drop_sublist i _)
    rw [← h.rows k, ← List.cons_head_tail (hne k), (hrow k).2] at hsorted
    rw [WithBot.coe_le_coe, ← hk]
    exact (List.pairwise_cons.mp hsorted).1 e he

theorem next_exhausted {zip : RangeZip Idx R O} (h : ∃ k, zip.required k = []) :
    zip.next.1 = none ∧ ∃ k, zip.next.2.required k = [] := by
  obtain ⟨k, hk⟩ := h
  have hnot : ¬ ∀ k, zip.required k ≠ [] := fun hall => hall k hk
  have hnext : nextRequired zip.required =
      (none, fun k => if ∀ j < k, zip.required j ≠ [] then (zip.required k).tail
        else zip.required k) := dif_neg hnot
  simp only [next, hnext]
  refine ⟨trivial, k, ?_⟩
  rw [hk]
  split <;> rfl

theorem after_cases (hr : 0 < r) (hreq : ∀ k, IndexSorted (required k))
    (hopt : ∀ k, IndexSorted (optional k)) (i : Nat) :
    ((∃ k, ((rangeZip required optional).after i).required k = []) ∧
      ∃ k, (required k).length ≤ i) ∨
    ∃ t, ReadUpTo required optional i t ((rangeZip required optional).after i) := by
  induction i with
  | zero =>
    refine .inr ⟨⊥, fun k => rfl, fun k => ?_, fun k => ?_, .inl rfl⟩
    · exact (List.filter_eq_self.mpr fun e _ => decide_eq_true (WithBot.bot_lt_coe e.1)).symm
    · have hnil : upTo (⊥ : WithBot Idx) (optional k) = [] :=
        List.filter_eq_nil_iff.mpr fun e _ he =>
          (WithBot.bot_lt_coe e.1).not_ge (of_decide_eq_true he)
      rw [lastUpTo, hnil]
      rfl
  | succ i ih =>
    rcases ih with ⟨hempty, k, hk⟩ | ⟨t, h⟩
    · exact .inl ⟨(next_exhausted hempty).2, k, Nat.le_succ_of_le hk⟩
    · by_cases hne : ∀ k, ((rangeZip required optional).after i).required k ≠ []
      · obtain ⟨item, -, -, hnext⟩ := h.next hr hreq hopt hne
        exact .inr ⟨_, hnext⟩
      · simp only [not_forall, not_not] at hne
        obtain ⟨k, hk⟩ := hne
        refine .inl ⟨(next_exhausted ⟨k, hk⟩).2, k, Nat.le_succ_of_le ?_⟩
        rwa [h.rows k, List.drop_eq_nil_iff] at hk

/-- Row `i` exists if every required input has one, it is their join, and the optional
inputs have been read up to its index and no further. -/
theorem rangeZip_joins (hr : 0 < r) (hreq : ∀ k, IndexSorted (required k))
    (hopt : ∀ k, IndexSorted (optional k)) (i : Nat) :
    (((rangeZip required optional).output i).isSome ↔ ∀ k, i < (required k).length) ∧
    ∀ item, (rangeZip required optional).output i = some item →
      IsJoined required optional i item ∧
      ∀ k, ((rangeZip required optional).after (i + 1)).optional k =
        beyond item.maxIndex (optional k) := by
  rcases after_cases hr hreq hopt i with ⟨hempty, k, hk⟩ | ⟨t, h⟩
  · rw [output, (next_exhausted hempty).1]
    refine ⟨iff_of_false Bool.false_ne_true fun hall => ?_, fun item hitem => ?_⟩
    · exact absurd (hall k) (Nat.not_lt.mpr hk)
    · cases hitem
  · have hlength : (∀ k, ((rangeZip required optional).after i).required k ≠ []) ↔
        ∀ k, i < (required k).length := by
      refine forall_congr' fun k => ?_
      rw [h.rows k, Ne, List.drop_eq_nil_iff, not_le]
    by_cases hne : ∀ k, ((rangeZip required optional).after i).required k ≠ []
    · obtain ⟨item, hitem, hjoined, hnext⟩ := h.next hr hreq hopt hne
      rw [output, hitem]
      refine ⟨iff_of_true rfl (hlength.mp hne), fun item' heq => ?_⟩
      obtain rfl := Option.some.inj heq
      exact ⟨hjoined, hnext.unread⟩
    · have hempty := hne
      simp only [not_forall, not_not] at hempty
      rw [output, (next_exhausted hempty).1]
      refine ⟨iff_of_false Bool.false_ne_true fun hall => hne (hlength.mpr hall),
        fun item hitem => ?_⟩
      cases hitem

end RangeZip

def zippedExample : RangeZip Nat (fun _ : Fin 2 => Char) (fun _ : Fin 1 => Char) :=
  rangeZip (fun k => if k = 0 then [(1, 'a'), (3, 'b'), (5, 'c')] else [(2, 'd'), (3, 'e')])
    fun _ => [(2, 'x'), (2, 'y'), (4, 'z')]

theorem RangeZip.rangeZip_joins_two :
    ((zippedExample.output 1).isSome ↔ ∀ k, 1 < (zippedExample.required k).length) ∧
    ∀ item, zippedExample.output 1 = some item →
      IsJoined zippedExample.required zippedExample.optional 1 item ∧
      ∀ k, (zippedExample.after 2).optional k =
        beyond (WithBot.some item.maxIndex) (zippedExample.optional k) := by
  refine rangeZip_joins (by decide) ?_ ?_ 1
  · unfold IndexSorted
    decide
  · unfold IndexSorted
    decide

end DimosViewer
