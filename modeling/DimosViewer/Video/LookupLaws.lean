import DimosViewer.Video.Samples
import Mathlib.Data.List.TakeWhile

/-!
# What the lookup finds

The search visits the decoded samples from the last one on. It finds the sample that is
shown unless it stops before it, or reads the bits of another sample.
-/

namespace DimosViewer.Video

variable {vec : List SampleMetadataState} {offset : Nat} {samples : Samples} {t : Time}
  {bits : List Bool}

-- ---------------------------------------------------------------------------
-- Local positions
-- ---------------------------------------------------------------------------

theorem get_add (j : Nat) : StableIndexDeque.get ⟨vec, offset⟩ (offset + j) = vec[j]? := by
  rw [StableIndexDeque.get_mk, if_pos (Nat.le_add_right _ _), Nat.add_sub_cancel_left]

theorem ptsAt_add (j : Nat) :
    ptsAt ⟨vec, offset⟩ (offset + j) =
      ((vec[j]?).bind (·.sample)).map (·.presentationTimestamp) := by
  rw [ptsAt, get_add]

theorem exists_of_ptsAt (h : ptsAt ⟨vec, offset⟩ i = some p) :
    ∃ j s, i = offset + j ∧ vec[j]? = some (.present s) ∧ s.presentationTimestamp = p := by
  obtain ⟨s, hs, rfl⟩ := Option.map_eq_some_iff.mp h
  obtain ⟨state, hget, hs⟩ := Option.bind_eq_some_iff.mp hs
  rw [StableIndexDeque.get_mk] at hget
  split at hget
  case isFalse => cases hget
  case isTrue ho =>
    cases state with
    | unloaded => cases hs
    | present s' =>
      obtain rfl := Option.some.inj hs
      exact ⟨i - offset, s', (Nat.add_sub_cancel' ho).symm, hget, rfl⟩

def decoded (vec : List SampleMetadataState) (t : Time) : Nat :=
  (vec.takeWhile fun s => s.decodeTimestamp ≤ t).length

theorem decoded_le (vec : List SampleMetadataState) (t : Time) : decoded vec t ≤ vec.length :=
  (List.takeWhile_sublist _).length_le

theorem decodeTimestamp_le (hs : vec[j]? = some s) (hj : j < decoded vec t) :
    s.decodeTimestamp ≤ t := by
  have hp := List.takeWhile_prefix (fun s : SampleMetadataState => decide (s.decodeTimestamp ≤ t))
    (l := vec)
  have hmem : s ∈ vec.takeWhile fun s => s.decodeTimestamp ≤ t := by
    rw [List.prefix_iff_eq_take.mp hp]
    refine List.mem_of_getElem? (i := j) ?_
    rw [List.getElem?_take]
    exact (if_pos hj).trans hs
  have hle := List.mem_takeWhile_imp hmem
  exact of_decide_eq_true hle

theorem lt_decoded (ho : Ordered ⟨vec, offset⟩) (hs : vec[j]? = some s)
    (ht : s.decodeTimestamp ≤ t) : j < decoded vec t := by
  have h := ho.decode
  dsimp only at h
  clear ho
  unfold decoded
  induction vec generalizing j with
  | nil => cases hs
  | cons a vec ih =>
    have hc := List.pairwise_cons.mp h
    have ha : a.decodeTimestamp ≤ t := by
      cases j with
      | zero => exact Option.some.inj hs ▸ ht
      | succ j => exact (hc.1 s (List.mem_of_getElem? hs)).trans ht
    rw [List.takeWhile_cons, if_pos (decide_eq_true ha), List.length_cons]
    cases j with
    | zero => exact Nat.succ_pos _
    | succ j => exact Nat.succ_lt_succ (ih hs hc.2)

theorem lt_decoded_of_pts (ho : Ordered ⟨vec, offset⟩)
    (hs : vec[j]? = some (.present s)) (ht : s.presentationTimestamp ≤ t) :
    j < decoded vec t :=
  lt_decoded ho hs ((ho.decodedFirst s (List.mem_of_getElem? hs)).trans ht)

theorem ptsAt_unique (ho : Ordered ⟨vec, offset⟩) (hi : ptsAt ⟨vec, offset⟩ i = some p)
    (hj : ptsAt ⟨vec, offset⟩ j = some p) : i = j := by
  obtain ⟨i, s, rfl, hsi, rfl⟩ := exists_of_ptsAt hi
  obtain ⟨j, s', rfl, hsj, he⟩ := exists_of_ptsAt hj
  have h := ho.unique
  dsimp only at h
  rw [List.pairwise_iff_getElem] at h
  obtain ⟨hli, hgi⟩ := List.getElem?_eq_some_iff.mp hsi
  obtain ⟨hlj, hgj⟩ := List.getElem?_eq_some_iff.mp hsj
  rcases Nat.lt_trichotomy i j with hlt | rfl | hlt
  · exact absurd he.symm (h i j hli hlj hlt s (by rw [hgi]; rfl) s' (by rw [hgj]; rfl))
  · rfl
  · exact absurd he (h j i hlj hli hlt s' (by rw [hgj]; rfl) s (by rw [hgi]; rfl))

theorem isShown_unique (ho : Ordered ⟨vec, offset⟩) (hi : IsShown ⟨vec, offset⟩ t i)
    (hj : IsShown ⟨vec, offset⟩ t j) : i = j := by
  obtain ⟨p, hp, hpt, hmax⟩ := hi
  obtain ⟨q, hq, hqt, hmax'⟩ := hj
  have he : p = q := le_antisymm (hmax' i p hp hpt) (hmax j q hq hqt)
  exact ptsAt_unique ho hp (he ▸ hq)

-- ---------------------------------------------------------------------------
-- Any search
-- ---------------------------------------------------------------------------

theorem searchBackwards_present {samples : Samples} (l : List SampleIndex) (best : SampleIndex)
    (bestPts : Time) (hb : bestPts ≠ .MIN → ∃ s, samples.get best = some (.present s))
    (h : searchBackwards samples bits t l best bestPts = some (.ok i)) :
    ∃ s, samples.get i = some (.present s) := by
  induction l generalizing best bestPts with
  | nil => cases h
  | cons idx rest ih =>
    unfold searchBackwards at h
    split at h
    case h_1 => cases h
    case h_2 => cases h
    case h_3 s hs =>
      split at h
      case isTrue =>
        obtain rfl := Except.ok.inj (Option.some.inj h)
        exact ⟨s, hs⟩
      case isFalse =>
        dsimp only at h
        generalize hu : (if s.presentationTimestamp < t ∧ bestPts < s.presentationTimestamp then
          (idx, s.presentationTimestamp) else (best, bestPts)) = u at h
        have hb' : u.2 ≠ .MIN → ∃ s, samples.get u.1 = some (.present s) := by
          split at hu
          · exact fun _ => hu ▸ ⟨s, hs⟩
          · exact hu ▸ hb
        split at h
        case isTrue hne =>
          split at h
          case h_1 => cases h
          case h_2 =>
            obtain rfl := Except.ok.inj (Option.some.inj h)
            exact hb' hne
          case h_3 => exact ih _ _ hb' h
        case isFalse => exact ih _ _ hb' h

theorem searchBackwards_unloaded {samples : Samples} (l : List SampleIndex) (best : SampleIndex)
    (bestPts : Time)
    (h : searchBackwards samples bits t l best bestPts = some (.error (some i))) :
    i ∈ l ∧ ∃ minDts, samples.get i = some (.unloaded minDts) := by
  induction l generalizing best bestPts with
  | nil => cases h
  | cons idx rest ih =>
    unfold searchBackwards at h
    split at h
    case h_1 => cases h
    case h_2 minDts hs =>
      obtain rfl := Option.some.inj (Except.error.inj (Option.some.inj h))
      exact ⟨List.mem_cons_self, minDts, hs⟩
    case h_3 s hs =>
      split at h
      case isTrue => cases h
      case isFalse =>
        dsimp only at h
        generalize (if s.presentationTimestamp < t ∧ bestPts < s.presentationTimestamp then
          (idx, s.presentationTimestamp) else (best, bestPts)) = u at h
        split at h
        case isTrue =>
          split at h
          case h_1 => cases h
          case h_2 => cases h
          case h_3 => exact (ih _ _ h).imp_left (List.mem_cons_of_mem _)
        case isFalse => exact (ih _ _ h).imp_left (List.mem_cons_of_mem _)

-- ---------------------------------------------------------------------------
-- The search over loaded samples
-- ---------------------------------------------------------------------------

/-- The search when `m` samples are left, with the best one so far. -/
def search (vec : List SampleMetadataState) (offset : Nat) (bits : List Bool) (t : Time) (m : Nat)
    (u : SampleIndex × Time) : Option (Except (Option SampleIndex) SampleIndex) :=
  searchBackwards ⟨vec, offset⟩ bits t (List.range' offset m).reverse u.1 u.2

def improve (t : Time) (i : SampleIndex) (p : Time) (u : SampleIndex × Time) :
    SampleIndex × Time :=
  if p < t ∧ u.2 < p then (i, p) else u

theorem improve_eq_self {u : SampleIndex × Time} (h : ¬(p < t ∧ u.2 < p)) :
    improve t i p u = u := if_neg h

theorem search_succ (hs : vec[m]? = some (.present s)) (u : SampleIndex × Time) :
    search vec offset bits t (m + 1) u =
      if s.presentationTimestamp = t then some (.ok (offset + m))
      else
        let u := improve t (offset + m) s.presentationTimestamp u
        if u.2 ≠ .MIN then
          match bits[offset + m]? with
          | none => none
          | some true => some (.ok u.1)
          | some false => search vec offset bits t m u
        else search vec offset bits t m u := by
  rw [search, List.range'_1_concat, List.reverse_append, List.reverse_singleton,
    List.singleton_append, searchBackwards, get_add, hs]
  rfl

theorem ptsAt_present (offset : Nat) (hs : vec[m]? = some (.present s)) :
    ptsAt ⟨vec, offset⟩ (offset + m) = some s.presentationTimestamp := by
  rw [ptsAt_add, hs]
  rfl

theorem search_nothing (hl : ∀ k < m, ∃ s, vec[k]? = some (.present s) ∧
      t < s.presentationTimestamp) (b : SampleIndex) :
    search vec offset bits t m (b, .MIN) = some (.error none) := by
  induction m with
  | zero => rfl
  | succ m ih =>
    obtain ⟨s, hs, hlt⟩ := hl m (Nat.lt_succ_self m)
    rw [search_succ hs, if_neg hlt.ne', improve_eq_self fun h => hlt.not_gt h.1]
    dsimp only
    rw [if_neg (not_not.mpr rfl)]
    exact ih fun k hk => hl k (Nat.lt_succ_of_lt hk)

/-- Once the sample that is shown is the best one, the next bit that is set ends the search. -/
theorem search_settled (hl : ∀ k < m, ∃ s, vec[k]? = some (.present s) ∧
      s.presentationTimestamp ≠ t ∧ ¬(s.presentationTimestamp < t ∧ p < s.presentationTimestamp))
    (hp : p ≠ .MIN) (hb : offset + m ≤ bits.length) :
    search vec offset bits t m (b, p) = some (.ok i) ↔
      i = b ∧ ∃ j < m, bits[offset + j]? = some true := by
  induction m with
  | zero => exact iff_of_false nofun fun h => (nomatch h.2)
  | succ m ih =>
    obtain ⟨s, hs, hne, hbest⟩ := hl m (Nat.lt_succ_self m)
    specialize ih (fun k hk => hl k (Nat.lt_succ_of_lt hk)) (by omega)
    rw [search_succ hs, if_neg hne, improve_eq_self hbest]
    dsimp only
    rw [if_pos hp]
    match hbit : bits[offset + m]? with
    | none => exact absurd (List.getElem?_eq_none_iff.mp hbit) (by omega)
    | some true =>
      refine ⟨fun h => ⟨(Except.ok.inj (Option.some.inj h)).symm, m, Nat.lt_succ_self m, hbit⟩,
        fun h => ?_⟩
      rw [h.1]
    | some false =>
      refine ih.trans (and_congr_right fun _ => ⟨fun ⟨j, hj, ht⟩ => ⟨j, Nat.lt_succ_of_lt hj, ht⟩,
        fun ⟨j, hj, ht⟩ => ⟨j, ?_, ht⟩⟩)
      refine Nat.lt_of_le_of_ne (Nat.lt_succ_iff.mp hj) ?_
      rintro rfl
      cases hbit.symm.trans ht

structure Seen (vec : List SampleMetadataState) (offset : Nat) (t : Time) (n m : Nat)
    (u : SampleIndex × Time) : Prop where
  found : u.2 ≠ .MIN → ∃ k, m ≤ k ∧ k < n ∧ u.1 = offset + k ∧
    ptsAt ⟨vec, offset⟩ (offset + k) = some u.2 ∧ u.2 < t
  most : ∀ k q, m ≤ k → k < n → ptsAt ⟨vec, offset⟩ (offset + k) = some q → q ≤ t → q ≤ u.2

theorem Seen.improve (h : Seen vec offset t n (m + 1) u) (hs : vec[m]? = some (.present s))
    (hm : m < n) (hne : s.presentationTimestamp ≠ t) :
    Seen vec offset t n m (improve t (offset + m) s.presentationTimestamp u) := by
  unfold Video.improve
  refine ⟨fun hu => ?_, fun k q hk hkn hq hqt => ?_⟩
  · split at hu
    case isTrue hi =>
      rw [if_pos hi]
      exact ⟨m, le_rfl, hm, rfl, ptsAt_present _ hs, hi.1⟩
    case isFalse hi =>
      rw [if_neg hi]
      obtain ⟨k, hk, hr⟩ := h.found hu
      exact ⟨k, Nat.le_of_succ_le hk, hr⟩
  · rcases Nat.eq_or_lt_of_le hk with rfl | hlt
    · obtain rfl := Option.some.inj (hq.symm.trans (ptsAt_present _ hs))
      split
      case isTrue => exact le_rfl
      case isFalse hi => exact not_lt.mp fun hlt => hi ⟨lt_of_le_of_ne hqt hne, hlt⟩
    · have hle := h.most k q hlt hkn hq hqt
      split
      case isTrue hi => exact hle.trans hi.2.le
      case isFalse => exact hle

theorem Seen.ne_min_iff (h : Seen vec offset t n m u) : u.2 ≠ .MIN ↔
    ∃ k q, m ≤ k ∧ k < n ∧ ptsAt ⟨vec, offset⟩ (offset + k) = some q ∧ Time.MIN < q ∧ q ≤ t := by
  refine ⟨fun hu => ?_, ?_⟩
  · obtain ⟨k, hk, hkn, -, hq, ht⟩ := h.found hu
    exact ⟨k, u.2, hk, hkn, hq, lt_of_le_of_ne (Time.MIN_le _) hu.symm, ht.le⟩
  · rintro ⟨k, q, hk, hkn, hq, hmin, ht⟩ hu
    exact absurd (h.most k q hk hkn hq ht) (hu ▸ not_le.mpr hmin)

-- ---------------------------------------------------------------------------
-- The search for a sample that is shown
-- ---------------------------------------------------------------------------

def Loaded (vec : List SampleMetadataState) (n : Nat) : Prop :=
  ∀ k < n, ∃ s, vec[k]? = some (.present s)

def StopsAt (vec : List SampleMetadataState) (offset : Nat) (bits : List Bool) (t : Time)
    (a : Nat) : Prop :=
  ∀ p, ptsAt ⟨vec, offset⟩ (offset + a) = some p →
    p = t ∨ Time.MIN < p ∧ (bits[offset + a]?).isSome ∧ ∃ j ≤ a, bits[offset + j]? = some true

section
variable {a n : Nat} {u : SampleIndex × Time}

theorem search_at (ho : Ordered ⟨vec, offset⟩) (hl : Loaded vec n) (han : a < n)
    (ha : IsShown ⟨vec, offset⟩ t (offset + a)) (hu : Seen vec offset t n (a + 1) u) :
    search vec offset bits t (a + 1) u = some (.ok (offset + a)) ↔
      StopsAt vec offset bits t a := by
  obtain ⟨s, hs⟩ := hl a han
  have hpa := ptsAt_present offset hs
  obtain ⟨p, hp, hpt, hmax⟩ := ha
  obtain rfl := Option.some.inj (hp.symm.trans hpa)
  have hstops : StopsAt vec offset bits t a ↔ s.presentationTimestamp = t ∨
      Time.MIN < s.presentationTimestamp ∧ (bits[offset + a]?).isSome ∧
        ∃ j ≤ a, bits[offset + j]? = some true :=
    ⟨fun h => h _ hpa, fun h q hq => Option.some.inj (hpa.symm.trans hq) ▸ h⟩
  -- The other samples are presented later than the time, or before this one.
  have hother : ∀ k < a, ∃ s', vec[k]? = some (.present s') ∧
      (s'.presentationTimestamp < s.presentationTimestamp ∨ t < s'.presentationTimestamp) := by
    intro k hk
    obtain ⟨s', hs'⟩ := hl k (hk.trans han)
    refine ⟨s', hs', or_iff_not_imp_right.mpr fun hle => ?_⟩
    refine lt_of_le_of_ne (hmax _ _ (ptsAt_present _ hs') (not_lt.mp hle)) fun he => ?_
    have hka : offset + k = offset + a :=
      ptsAt_unique ho (ptsAt_present offset hs') (he ▸ hpa)
    omega
  rw [search_succ hs, hstops]
  by_cases hpt' : s.presentationTimestamp = t
  · rw [if_pos hpt']
    exact iff_of_true rfl (.inl hpt')
  · have hlt : s.presentationTimestamp < t := lt_of_le_of_ne hpt hpt'
    rw [if_neg hpt', or_iff_right hpt']
    have hu2 : u.2 ≠ .MIN → u.2 < s.presentationTimestamp := by
      intro hne
      obtain ⟨k, hk, -, -, hq, hqt⟩ := hu.found hne
      refine lt_of_le_of_ne (hmax _ _ hq hqt.le) fun he => ?_
      have hka : offset + k = offset + a := ptsAt_unique ho hq (he ▸ hpa)
      omega
    by_cases hmin : s.presentationTimestamp = .MIN
    · have hu2' : u.2 = .MIN := by
        by_contra hne
        exact absurd (hu2 hne) (hmin ▸ not_lt.mpr (Time.MIN_le _))
      obtain ⟨b, _⟩ := u
      obtain rfl := hu2'
      rw [improve_eq_self fun h => h.2.ne' hmin]
      dsimp only
      rw [if_neg (not_not.mpr rfl), search_nothing fun k hk => ?_]
      · exact iff_of_false nofun fun h => h.1.ne' hmin
      · obtain ⟨s', hs', hlt' | hlt'⟩ := hother k hk
        · exact absurd hlt' (hmin ▸ not_lt.mpr (Time.MIN_le _))
        · exact ⟨s', hs', hlt'⟩
    · have himp : improve t (offset + a) s.presentationTimestamp u =
          (offset + a, s.presentationTimestamp) := by
        refine if_pos ⟨hlt, ?_⟩
        by_cases hne : u.2 = .MIN
        · exact hne ▸ lt_of_le_of_ne (Time.MIN_le _) (Ne.symm hmin)
        · exact hu2 hne
      rw [himp, and_iff_right (lt_of_le_of_ne (Time.MIN_le _) (Ne.symm hmin))]
      dsimp only
      rw [if_pos hmin]
      match hbit : bits[offset + a]? with
      | none => exact iff_of_false nofun fun h => nomatch h.1
      | some true => exact iff_of_true rfl ⟨rfl, a, le_rfl, hbit⟩
      | some false =>
        have hlen := (List.getElem?_eq_some_iff.mp hbit).1
        dsimp only
        rw [search_settled (fun k hk => ?_) hmin (by omega)]
        · refine ⟨fun h => ⟨rfl, ?_⟩, fun h => ⟨rfl, ?_⟩⟩
          · obtain ⟨j, hj, ht⟩ := h.2
            exact ⟨j, hj.le, ht⟩
          · obtain ⟨j, hj, ht⟩ := h.2
            refine ⟨j, Nat.lt_of_le_of_ne hj ?_, ht⟩
            rintro rfl
            cases hbit.symm.trans ht
        · obtain ⟨s', hs', hlt' | hlt'⟩ := hother k hk
          · exact ⟨s', hs', (hlt'.trans hlt).ne, fun h => h.2.not_gt hlt'⟩
          · exact ⟨s', hs', hlt'.ne', fun h => h.1.not_gt hlt'⟩

/-- The search reaches the sample that is shown unless a bit stops it before. -/
theorem search_shown (ho : Ordered ⟨vec, offset⟩) (hl : Loaded vec n) (hmn : m ≤ n)
    (ha : IsShown ⟨vec, offset⟩ t (offset + a)) (ham : a + 1 ≤ m)
    (hu : Seen vec offset t n m u) :
    search vec offset bits t m u = some (.ok (offset + a)) ↔
      (∀ j, a < j → j < m → (∃ k q, j ≤ k ∧ k < n ∧
        ptsAt ⟨vec, offset⟩ (offset + k) = some q ∧ Time.MIN < q ∧ q ≤ t) →
          bits[offset + j]? = some false) ∧ StopsAt vec offset bits t a := by
  induction m, ham using Nat.le_induction generalizing u with
  | base =>
    rw [search_at ho hl hmn ha hu]
    exact ⟨fun h => ⟨fun j hj hj' => by omega, h⟩, And.right⟩
  | succ m ham ih =>
    obtain ⟨s, hs⟩ := hl m hmn
    have hne : s.presentationTimestamp ≠ t := by
      intro he
      obtain ⟨p, hp, hpt, hmax⟩ := ha
      have hq := ptsAt_present offset hs
      have hle := hmax _ _ hq he.le
      have hma : offset + m = offset + a :=
        ptsAt_unique ho hq (le_antisymm (he ▸ hpt) (he ▸ hle) ▸ hp)
      omega
    have hu' := hu.improve hs hmn hne
    specialize ih (Nat.le_of_succ_le hmn) hu'
    rw [search_succ hs, if_neg hne]
    generalize improve t (offset + m) s.presentationTimestamp u = u' at ih hu' ⊢
    dsimp only
    by_cases hmin : u'.2 = .MIN
    · rw [if_neg (not_not.mpr hmin), ih]
      refine and_congr_left fun _ => ⟨fun h j hj hjm hk => ?_, fun h j hj hjm => h j hj (by omega)⟩
      rcases Nat.eq_or_lt_of_le (Nat.lt_succ_iff.mp hjm) with rfl | hlt
      · exact absurd hmin (hu'.ne_min_iff.mpr hk)
      · exact h j hj hlt hk
    · rw [if_pos hmin]
      have hk := hu'.ne_min_iff.mp hmin
      match hbit : bits[offset + m]? with
      | none => exact iff_of_false nofun fun h => nomatch hbit.symm.trans (h.1 m ham (by omega) hk)
      | some true =>
        refine iff_of_false (fun h => ?_) fun h =>
          nomatch hbit.symm.trans (h.1 m ham (by omega) hk)
        obtain ⟨k, hmk, -, hk, -⟩ := hu'.found hmin
        have hka : offset + k = offset + a := hk.symm.trans (Except.ok.inj (Option.some.inj h))
        omega
      | some false =>
        dsimp only
        rw [ih]
        refine and_congr_left fun _ =>
          ⟨fun h j hj hjm hk => ?_, fun h j hj hjm => h j hj (by omega)⟩
        rcases Nat.eq_or_lt_of_le (Nat.lt_succ_iff.mp hjm) with rfl | hlt
        · exact hbit
        · exact h j hj hlt hk

end

-- ---------------------------------------------------------------------------
-- When the lookup is right
-- ---------------------------------------------------------------------------

/-- The bits that the search reads lead it to the sample that is shown. No bit is set, or
missing, between a sample that is presented by the time and that one. And then a bit is set
there or before, unless the sample is presented at exactly the time. -/
def LeadsTo (samples : Samples) (bits : List Bool) (t : Time) (a : Nat) : Prop :=
  (∀ j, a < j → (∃ k q, j ≤ k ∧ ptsAt samples k = some q ∧ Time.MIN < q ∧ q ≤ t) →
    bits[j]? = some false) ∧
  ∀ p, ptsAt samples a = some p → p = t ∨
    Time.MIN < p ∧ (bits[a]?).isSome ∧
      ∃ j, samples.minIndex ≤ j ∧ j ≤ a ∧ bits[j]? = some true

structure Findable (debugAssertions : Bool) (samples : Samples) (t : Time) : Prop where
  /-- The length of the bit vector is asserted to be the next index. -/
  aligned : debugAssertions → samples.minIndex = 0 ∨
    (SamplesStatistics.new samples).hasSampleHighestPtsSoFar = none
  /-- Before the first sample, the front was never dropped or samples are reordered. -/
  start : (∀ s ∈ samples.vec, t < s.decodeTimestamp) →
    samples.minIndex = 0 ∨ (SamplesStatistics.new samples).hasSampleHighestPtsSoFar.isSome
  bits : ∀ bits, (SamplesStatistics.new samples).hasSampleHighestPtsSoFar = some bits →
    ∀ a, IsShown samples t a → LeadsTo samples bits t a

theorem leadsTo_iff (ho : Ordered ⟨vec, offset⟩) (t : Time) (a : Nat) :
    LeadsTo ⟨vec, offset⟩ bits t (offset + a) ↔
      (∀ j, a < j → j < decoded vec t → (∃ k q, j ≤ k ∧ k < decoded vec t ∧
        ptsAt ⟨vec, offset⟩ (offset + k) = some q ∧ Time.MIN < q ∧ q ≤ t) →
          bits[offset + j]? = some false) ∧ StopsAt vec offset bits t a := by
  refine and_congr ⟨fun h j hj _ hk => ?_, fun h j hj hk => ?_⟩
    (forall₂_congr fun p _ => or_congr_right (and_congr_right fun _ => and_congr_right fun _ => ?_))
  · obtain ⟨k, q, hjk, -, hq, hmin, hqt⟩ := hk
    exact h (offset + j) (by omega) ⟨offset + k, q, by omega, hq, hmin, hqt⟩
  · obtain ⟨k, q, hjk, hq, hmin, hqt⟩ := hk
    obtain ⟨k, s, rfl, hs, rfl⟩ := exists_of_ptsAt hq
    have hkn := lt_decoded_of_pts ho hs hqt
    obtain ⟨j, rfl⟩ : ∃ j', j = offset + j' := ⟨j - offset, by omega⟩
    exact h j (by omega) (by omega) ⟨k, _, by omega, hkn, hq, hmin, hqt⟩
  · change (∃ j, offset ≤ j ∧ _) ↔ _
    refine ⟨fun ⟨j, hoj, hj, ht⟩ => ⟨j - offset, by omega, ?_⟩,
      fun ⟨j, hj, ht⟩ => ⟨offset + j, by omega, by omega, ht⟩⟩
    rw [Nat.add_sub_cancel' hoj]
    exact ht

theorem loadedUntil_iff (ho : Ordered ⟨vec, offset⟩) :
    LoadedUntil ⟨vec, offset⟩ t ↔ Loaded vec (decoded vec t) := by
  refine ⟨fun h k hk => ?_, fun h s hs ht => ?_⟩
  · have hlt := Nat.lt_of_lt_of_le hk (decoded_le vec t)
    have hget := List.getElem?_eq_getElem hlt
    have hs := h _ (List.getElem_mem hlt) (decodeTimestamp_le hget hk)
    cases hx : vec[k] with
    | present s => exact ⟨s, by rw [hget, hx]⟩
    | unloaded => rw [hx] at hs; cases hs
  · obtain ⟨k, hk⟩ := List.mem_iff_getElem?.mp hs
    obtain ⟨s', hs'⟩ := h k (lt_decoded ho hk ht)
    obtain rfl := Option.some.inj (hk.symm.trans hs')
    rfl

theorem exists_shown_local (ho : Ordered ⟨vec, offset⟩) (h : IsShown ⟨vec, offset⟩ t i) :
    ∃ a < decoded vec t, i = offset + a := by
  obtain ⟨p, hp, hpt, -⟩ := h
  obtain ⟨a, s, rfl, hs, rfl⟩ := exists_of_ptsAt hp
  exact ⟨a, lt_decoded_of_pts ho hs hpt, rfl⟩

/-- Either a sample is shown, or every loaded sample is presented later. -/
theorem shown_or_later (samples : Samples) (t : Time) :
    (∃ i, IsShown samples t i) ∨ ∀ i p, ptsAt samples i = some p → t < p := by
  obtain ⟨vec, offset⟩ := samples
  let pts := ((vec.filterMap (·.sample)).map (·.presentationTimestamp)).filter (· ≤ t)
  have hmem : ∀ p, p ∈ pts ↔ (∃ i, ptsAt ⟨vec, offset⟩ i = some p) ∧ p ≤ t := by
    intro p
    rw [List.mem_filter, decide_eq_true_iff]
    refine and_congr_left fun _ => ⟨fun h => ?_, fun ⟨i, hi⟩ => ?_⟩
    · obtain ⟨s, hs, rfl⟩ := List.mem_map.mp h
      obtain ⟨state, hstate, hs⟩ := List.mem_filterMap.mp hs
      obtain ⟨j, hj⟩ := List.mem_iff_getElem?.mp hstate
      exact ⟨offset + j, by rw [ptsAt_add, hj, Option.bind_some, hs]; rfl⟩
    · obtain ⟨j, s, -, hs, rfl⟩ := exists_of_ptsAt hi
      exact List.mem_map_of_mem (List.mem_filterMap.mpr ⟨_, List.mem_of_getElem? hs, rfl⟩)
  match hm : pts.max? with
  | none =>
    refine .inr fun i p hp => not_le.mp fun hle => ?_
    rw [List.max?_eq_none_iff] at hm
    exact List.not_mem_nil (hm ▸ (hmem p).mpr ⟨⟨i, hp⟩, hle⟩)
  | some p =>
    obtain ⟨hp, hmax⟩ := List.max?_eq_some_iff.mp hm
    obtain ⟨⟨i, hi⟩, hle⟩ := (hmem p).mp hp
    exact .inl ⟨i, p, hi, hle, fun j q hq hqt => hmax q ((hmem q).mpr ⟨⟨j, hq⟩, hqt⟩)⟩

theorem correct_iff {samples : Samples} {result : Option (Except (Option SampleIndex) SampleIndex)}
    (hp : ∀ i, result = some (.ok i) → ∃ s, samples.get i = some (.present s))
    (hu : ∀ i, result = some (.error (some i)) →
      ∃ minDts, samples.get i = some (.unloaded minDts) ∧ minDts ≤ t)
    (hr : LoadedUntil samples t → (((∃ i, IsShown samples t i ∧ result = some (.ok i)) ∨
      (¬∃ i, IsShown samples t i) ∧ result = some (.error none)) ↔ Findable false samples t)) :
    Correct samples t result ↔ (LoadedUntil samples t → Findable false samples t) :=
  ⟨fun h hl => (hr hl).mp (h.shown hl), fun h => ⟨fun hl => (hr hl).mpr (h hl), hp, hu⟩⟩

theorem partitionPoint_eq (vec : List SampleMetadataState) (offset : Nat) (t : Time) :
    StableIndexDeque.partitionPoint ⟨vec, offset⟩ (fun s => s.decodeTimestamp ≤ t) =
      decoded vec t + offset := rfl

theorem lookup_before (ho : Ordered ⟨vec, offset⟩) (hn : decoded vec t = 0) :
    Correct ⟨vec, offset⟩ t (latestSampleIndexAtPresentationTimestamp false ⟨vec, offset⟩
        (.new ⟨vec, offset⟩) t) ↔
      (LoadedUntil ⟨vec, offset⟩ t → Findable false ⟨vec, offset⟩ t) := by
  have hshown : ¬∃ i, IsShown ⟨vec, offset⟩ t i := by
    rintro ⟨i, hi⟩
    obtain ⟨a, ha, -⟩ := exists_shown_local ho hi
    omega
  have hlate : ∀ s ∈ vec, t < s.decodeTimestamp := by
    intro s hs
    obtain ⟨j, hj⟩ := List.mem_iff_getElem?.mp hs
    by_contra hle
    have := lt_decoded ho hj (not_lt.mp hle)
    omega
  unfold latestSampleIndexAtPresentationTimestamp latestSampleIndexAtDecodeTimestamp
  rw [partitionPoint_eq, hn, Nat.zero_add]
  cases offset with
  | zero =>
    refine correct_iff nofun nofun fun _ => iff_of_true (.inr ⟨hshown, rfl⟩) ?_
    exact ⟨nofun, fun _ => .inl rfl, fun _ _ a ha => absurd ⟨a, ha⟩ hshown⟩
  | succ d =>
    have hget : StableIndexDeque.get ⟨vec, d + 1⟩ d = none :=
      if_neg (Nat.not_succ_le_self d)
    dsimp only
    rw [hget, Option.any_none, if_neg Bool.false_ne_true]
    cases hb : (SamplesStatistics.new ⟨vec, d + 1⟩).hasSampleHighestPtsSoFar with
    | none =>
      refine iff_of_false (fun h => ?_) fun h => ?_
      · obtain ⟨s, hs⟩ := h.present d rfl
        cases hget.symm.trans hs
      · have hl : LoadedUntil ⟨vec, d + 1⟩ t := fun s hs ht => absurd (hlate s hs) (not_lt.mpr ht)
        rcases (h hl).start hlate with h0 | h0
        · cases h0
        · rw [hb] at h0
          cases h0
    | some bits =>
      have hr : (List.range' (d + 1) (d + 1 - (d + 1))).reverse = [] := by
        rw [Nat.sub_self]
        rfl
      change Correct _ _ (searchBackwards _ _ _ (List.range' (d + 1) (d + 1 - (d + 1))).reverse _ _)
        ↔ _
      rw [hr]
      refine correct_iff nofun nofun fun _ => iff_of_true (.inr ⟨hshown, rfl⟩) ?_
      exact ⟨nofun, fun _ => .inr (by rw [hb]; rfl), fun _ _ a ha => absurd ⟨a, ha⟩ hshown⟩

/-- Without reordering, the last sample that is decoded is shown. -/
theorem shown_of_dts_eq_pts (ho : Ordered ⟨vec, offset⟩)
    (hb : (SamplesStatistics.new ⟨vec, offset⟩).hasSampleHighestPtsSoFar = none)
    (hn : decoded vec t = d + 1) (hs : vec[d]? = some (.present s)) :
    IsShown ⟨vec, offset⟩ t (offset + d) := by
  have heq : ∀ (k : Nat) (s' : SampleMetadata), vec[k]? = some (SampleMetadataState.present s') →
      s'.decodeTimestamp = s'.presentationTimestamp := by
    intro k s' hk
    have hall : (vec.filterMap (·.sample)).all fun s =>
        s.decodeTimestamp = s.presentationTimestamp := by
      by_contra hne
      have : (SamplesStatistics.new ⟨vec, offset⟩).hasSampleHighestPtsSoFar ≠ none := by
        rw [SamplesStatistics.new]
        dsimp only
        rw [if_neg hne]
        exact Option.some_ne_none _
      exact this hb
    have := List.all_eq_true.mp hall s'
      (List.mem_filterMap.mpr ⟨_, List.mem_of_getElem? hk, rfl⟩)
    exact of_decide_eq_true this
  refine ⟨_, ptsAt_present offset hs, ?_, fun j q hq hqt => ?_⟩
  · rw [← heq d s hs]
    exact decodeTimestamp_le hs (by omega)
  · obtain ⟨k, s', rfl, hk, rfl⟩ := exists_of_ptsAt hq
    have hkd := lt_decoded_of_pts ho hk hqt
    rw [← heq k s' hk, ← heq d s hs]
    rcases Nat.eq_or_lt_of_le (show k ≤ d by omega) with rfl | hlt
    · obtain rfl := SampleMetadataState.present.inj (Option.some.inj (hk.symm.trans hs))
      exact le_rfl
    · obtain ⟨hlk, hgk⟩ := List.getElem?_eq_some_iff.mp hk
      obtain ⟨hld, hgd⟩ := List.getElem?_eq_some_iff.mp hs
      have h := List.pairwise_iff_getElem.mp ho.decode k d hlk hld hlt
      dsimp only at h
      rw [hgk, hgd] at h
      exact h

theorem lookup_after (ho : Ordered ⟨vec, offset⟩) (hn : decoded vec t = d + 1) :
    Correct ⟨vec, offset⟩ t (latestSampleIndexAtPresentationTimestamp false ⟨vec, offset⟩
        (.new ⟨vec, offset⟩) t) ↔
      (LoadedUntil ⟨vec, offset⟩ t → Findable false ⟨vec, offset⟩ t) := by
  have hd : d < vec.length := Nat.lt_of_lt_of_le (by omega) (decoded_le vec t)
  have hget := List.getElem?_eq_getElem hd
  have hdts := decodeTimestamp_le hget (show d < decoded vec t by omega)
  have hstart : ¬∀ s ∈ vec, t < s.decodeTimestamp := fun h =>
    absurd (h _ (List.getElem_mem hd)) (not_lt.mpr hdts)
  unfold latestSampleIndexAtPresentationTimestamp latestSampleIndexAtDecodeTimestamp
  rw [partitionPoint_eq, hn, Nat.add_right_comm, Nat.add_comm d]
  dsimp only
  rw [get_add, hget, Option.any_some]
  cases hx : vec[d] with
  | unloaded minDts =>
    rw [hx] at hget hdts
    rw [if_pos (show (SampleMetadataState.unloaded minDts).isUnloaded from rfl)]
    refine correct_iff nofun (fun i hi => ?_) fun hl => ?_
    · obtain rfl := Option.some.inj (Except.error.inj (Option.some.inj hi))
      exact ⟨minDts, by rw [get_add, hget], hdts⟩
    · cases hl _ (List.mem_of_getElem? hget) hdts
  | present s =>
    rw [hx] at hget
    rw [if_neg (show ¬(SampleMetadataState.present s).isUnloaded from Bool.false_ne_true)]
    cases hb : (SamplesStatistics.new ⟨vec, offset⟩).hasSampleHighestPtsSoFar with
    | none =>
      refine correct_iff (fun i hi => ?_) nofun fun _ => iff_of_true (.inl ?_) ?_
      · obtain rfl := Except.ok.inj (Option.some.inj hi)
        exact ⟨s, by rw [get_add, hget]⟩
      · exact ⟨offset + d, shown_of_dts_eq_pts ho hb hn hget, rfl⟩
      · exact ⟨nofun, fun h => absurd h hstart, fun bits h => nomatch hb.symm.trans h⟩
    | some bits =>
      have hlen : offset + d + 1 - offset = d + 1 := by omega
      change Correct _ _ (searchBackwards _ _ _
        (List.range' offset (offset + d + 1 - offset)).reverse _ _) ↔ _
      rw [hlen]
      refine correct_iff (fun i hi => ?_) (fun i hi => ?_) fun hl => ?_
      · exact searchBackwards_present _ _ _ (fun h => absurd rfl h) hi
      · obtain ⟨hmem, minDts, hi⟩ := searchBackwards_unloaded _ _ _ hi
        obtain ⟨k, hk, rfl⟩ := List.mem_range'.mp (List.mem_reverse.mp hmem)
        rw [Nat.one_mul, get_add] at hi
        exact ⟨minDts, by rw [Nat.one_mul, get_add, hi], decodeTimestamp_le hi (by omega)⟩
      · rw [loadedUntil_iff ho] at hl
        have hfind : Findable false ⟨vec, offset⟩ t ↔
            ∀ a, IsShown ⟨vec, offset⟩ t a → LeadsTo ⟨vec, offset⟩ bits t a := by
          refine ⟨fun h => h.bits bits hb, fun h => ⟨nofun, fun h' => absurd h' hstart, fun b hb' => ?_⟩⟩
          obtain rfl := Option.some.inj (hb.symm.trans hb')
          exact h
        rw [hfind]
        rcases shown_or_later ⟨vec, offset⟩ t with ⟨i, hi⟩ | hlater
        · obtain ⟨a, ha, rfl⟩ := exists_shown_local ho hi
          have hseen : Seen vec offset t (decoded vec t) (d + 1) (sampleIndexMax, .MIN) :=
            ⟨fun h => absurd rfl h, fun k q hk hk' => by omega⟩
          have hmain : search vec offset bits t (d + 1) (sampleIndexMax, .MIN) =
              some (.ok (offset + a)) ↔ _ := search_shown ho hl (by omega) hi (by omega) hseen
          have hlead : LeadsTo ⟨vec, offset⟩ bits t (offset + a) ↔ _ := leadsTo_iff ho t a
          rw [hn] at hmain hlead
          rw [← hlead] at hmain
          refine Iff.trans ⟨fun h => ?_, fun h => .inl ⟨_, hi, h⟩⟩
            (hmain.trans ⟨fun h b hb' => isShown_unique ho hi hb' ▸ h, fun h => h _ hi⟩)
          rcases h with ⟨j, hj, hr⟩ | ⟨hno, -⟩
          · exact isShown_unique ho hj hi ▸ hr
          · exact absurd ⟨_, hi⟩ hno
        · have hno : ¬∃ i, IsShown ⟨vec, offset⟩ t i := fun ⟨i, p, hp, hpt, _⟩ =>
            absurd hpt (not_le.mpr (hlater i p hp))
          refine iff_of_true (.inr ⟨hno, ?_⟩) fun a ha => absurd ⟨a, ha⟩ hno
          refine search_nothing (fun k hk => ?_) sampleIndexMax
          obtain ⟨s', hs'⟩ := hl k (by omega)
          exact ⟨s', hs', hlater _ _ (ptsAt_present offset hs')⟩

theorem length_highestPtsSoFar (biggest : Time) (samples : List SampleMetadataState) :
    (SamplesStatistics.highestPtsSoFar biggest samples).length = samples.length := by
  induction samples generalizing biggest with
  | nil => rfl
  | cons s rest ih =>
    unfold SamplesStatistics.highestPtsSoFar
    split
    · simp [ih]
    · split <;> simp [ih]

theorem SamplesStatistics.new_bits {samples : Samples}
    (h : (SamplesStatistics.new samples).hasSampleHighestPtsSoFar = some bits) :
    bits.length = samples.vec.length := by
  rw [SamplesStatistics.new] at h
  dsimp only at h
  split at h
  · cases h
  · rw [← Option.some.inj h, length_highestPtsSoFar]

theorem SamplesStatistics.new_dtsAlwaysEqualPts {samples : Samples}
    (h : (SamplesStatistics.new samples).hasSampleHighestPtsSoFar = none) :
    (SamplesStatistics.new samples).dtsAlwaysEqualPts := by
  rw [SamplesStatistics.new] at h ⊢
  dsimp only at h ⊢
  split at h
  · assumption
  · cases h

theorem lookup_aligned (h : samples.minIndex = 0 ∨
      (SamplesStatistics.new samples).hasSampleHighestPtsSoFar = none) (debugAssertions : Bool) :
    latestSampleIndexAtPresentationTimestamp debugAssertions samples (.new samples) t =
      latestSampleIndexAtPresentationTimestamp false samples (.new samples) t := by
  unfold latestSampleIndexAtPresentationTimestamp
  cases hb : (SamplesStatistics.new samples).hasSampleHighestPtsSoFar with
  | none => simp [SamplesStatistics.new_dtsAlwaysEqualPts hb]
  | some bits =>
    have hoffset : samples.indexOffset = 0 := h.resolve_right fun h => nomatch hb.symm.trans h
    simp [StableIndexDeque.nextIndex, SamplesStatistics.new_bits hb, hoffset]

/-- Where it can fail, it does once the samples that are decoded by the time are loaded. -/
theorem lookup_misaligned (ho : Ordered samples) (hoffset : samples.minIndex ≠ 0)
    (hb : (SamplesStatistics.new samples).hasSampleHighestPtsSoFar = some bits)
    (hl : LoadedUntil samples t) :
    latestSampleIndexAtPresentationTimestamp true samples (.new samples) t = none := by
  obtain ⟨vec, offset⟩ := samples
  have hoffset : offset ≠ 0 := hoffset
  have hloaded : ∀ s ∈ StableIndexDeque.get ⟨vec, offset⟩ (decoded vec t + offset - 1),
      s.isUnloaded = false := by
    intro s hs
    rw [Option.mem_def, StableIndexDeque.get_mk] at hs
    split at hs
    case isFalse => cases hs
    case isTrue =>
      have hi := (loadedUntil_iff ho).mp hl (decoded vec t + offset - 1 - offset)
      rcases Nat.eq_zero_or_pos (decoded vec t) with h0 | hpos
      · omega
      · obtain ⟨s', hs'⟩ := hi (by omega)
        obtain rfl := Option.some.inj (hs.symm.trans hs')
        rfl
  have hlength : bits.length ≠ vec.length + offset := by
    have hlen : bits.length = vec.length := SamplesStatistics.new_bits hb
    omega
  unfold latestSampleIndexAtPresentationTimestamp latestSampleIndexAtDecodeTimestamp
  rw [partitionPoint_eq, hb]
  obtain ⟨n, hn⟩ : ∃ n, decoded vec t + offset = n + 1 := ⟨decoded vec t + offset - 1, by omega⟩
  rw [hn] at hloaded ⊢
  have hany : (StableIndexDeque.get ⟨vec, offset⟩ n).any (·.isUnloaded) = false := by
    rw [Option.any_eq_false_iff_get]
    intro h
    rw [hloaded _ (Option.get_mem h)]
  dsimp only
  rw [hany]
  simp [StableIndexDeque.nextIndex, hlength]

theorem findable_of_aligned {debugAssertions : Bool} (h : debugAssertions → samples.minIndex = 0 ∨
      (SamplesStatistics.new samples).hasSampleHighestPtsSoFar = none) :
    Findable debugAssertions samples t ↔ Findable false samples t :=
  ⟨fun hf => ⟨nofun, hf.start, hf.bits⟩, fun hf => ⟨h, hf.start, hf.bits⟩⟩

/-- Without debug assertions. -/
theorem lookup_correct_plain (samples : Samples) (t : Time) (ho : Ordered samples) :
    Correct samples t
        (latestSampleIndexAtPresentationTimestamp false samples (.new samples) t) ↔
      (LoadedUntil samples t → Findable false samples t) := by
  obtain ⟨vec, offset⟩ := samples
  match hn : decoded vec t with
  | 0 => exact lookup_before ho hn
  | d + 1 => exact lookup_after ho hn

theorem lookup_eq_or_panics (debugAssertions : Bool) (samples : Samples) (t : Time) :
    latestSampleIndexAtPresentationTimestamp debugAssertions samples (.new samples) t =
        latestSampleIndexAtPresentationTimestamp false samples (.new samples) t ∨
      latestSampleIndexAtPresentationTimestamp debugAssertions samples (.new samples) t = none := by
  unfold latestSampleIndexAtPresentationTimestamp
  cases latestSampleIndexAtDecodeTimestamp samples t with
  | none => exact .inl rfl
  | some i =>
    dsimp only
    split
    · exact .inl rfl
    · split <;> split <;> simp

/-- The lookup is right exactly when the samples that are decoded by the time are not all
loaded, or the search can find the sample that is shown. -/
theorem lookup_correct_iff (debugAssertions : Bool) (samples : Samples) (t : Time)
    (ho : Ordered samples) :
    Correct samples t
        (latestSampleIndexAtPresentationTimestamp debugAssertions samples (.new samples) t) ↔
      (LoadedUntil samples t → Findable debugAssertions samples t) := by
  by_cases ha : debugAssertions → samples.minIndex = 0 ∨
      (SamplesStatistics.new samples).hasSampleHighestPtsSoFar = none
  case pos =>
    rw [findable_of_aligned ha, ← lookup_correct_plain samples t ho]
    cases debugAssertions with
    | false => rfl
    | true => rw [lookup_aligned (ha rfl)]
  case neg =>
    obtain ⟨rfl, hnot⟩ := Classical.not_imp.mp ha
    obtain ⟨hoffset, hb⟩ := not_or.mp hnot
    obtain ⟨bits, hb⟩ := Option.ne_none_iff_exists'.mp hb
    constructor
    · intro h hl
      rw [lookup_misaligned ho hoffset hb hl] at h
      rcases h.shown hl with ⟨i, -, hi⟩ | ⟨-, hi⟩ <;> cases hi
    · intro h
      have hl : ¬ LoadedUntil samples t := fun hl => hnot ((h hl).aligned rfl)
      rcases lookup_eq_or_panics true samples t with he | he <;> rw [he]
      · exact (lookup_correct_plain samples t ho).mpr fun h => absurd h hl
      · exact ⟨fun h => absurd h hl, nofun, nofun⟩

-- ---------------------------------------------------------------------------
-- Samples that are not found
-- ---------------------------------------------------------------------------

def sampleAt (dts pts : Int) (h : (i64Min ≤ dts ∧ dts ≤ i64Max) ∧ i64Min ≤ pts ∧ pts ≤ i64Max) :
    SampleMetadataState :=
  .present ⟨false, ⟨dts, h.1⟩, ⟨pts, h.2⟩⟩

def atTime (units : Int) (h : i64Min ≤ units ∧ units ≤ i64Max) : Time := ⟨units, h⟩

/-- The second of three samples is presented last. -/
def reordered : Samples :=
  ⟨[sampleAt 0 4 (by decide), sampleAt 1 10 (by decide), sampleAt 2 2 (by decide)], 0⟩

theorem ordered_of (samples : Samples)
    (hd : samples.vec.Pairwise fun a b => a.decodeTimestamp ≤ b.decodeTimestamp)
    (hu : samples.vec.Pairwise fun a b =>
      ∀ s ∈ a.sample, ∀ s' ∈ b.sample, s.presentationTimestamp ≠ s'.presentationTimestamp)
    (hp : ∀ s ∈ samples.vec.filterMap (·.sample), s.decodeTimestamp ≤ s.presentationTimestamp) :
    Ordered samples :=
  ⟨hd, hu, fun s hs => hp s (List.mem_filterMap.mpr ⟨_, hs, rfl⟩)⟩

theorem lookup_correct_iff_reordered :
    Correct reordered (atTime 5 (by decide))
        (latestSampleIndexAtPresentationTimestamp true reordered (.new reordered)
          (atTime 5 (by decide))) ↔
      (LoadedUntil reordered (atTime 5 (by decide)) →
        Findable true reordered (atTime 5 (by decide))) :=
  lookup_correct_iff _ _ _ (ordered_of _ (by decide) (by decide) (by decide))

/-- At time 5 the sample of time 4 is shown. The search stops at the one of time 10, which
is the highest so far, and returns that of time 2. -/
theorem search_stops_early :
    ¬ ∃ debugAssertions, ∀ samples t, Ordered samples → Correct samples t
      (latestSampleIndexAtPresentationTimestamp debugAssertions samples (.new samples) t) := by
  rintro ⟨debugAssertions, h⟩
  have hc := h reordered (atTime 5 (by decide))
    (ordered_of _ (by decide) (by decide) (by decide))
  have hr : latestSampleIndexAtPresentationTimestamp debugAssertions reordered (.new reordered)
      (atTime 5 (by decide)) = some (.ok 2) := by
    cases debugAssertions <;> decide
  rw [hr] at hc
  rcases hc.shown (by decide) with ⟨i, ⟨p, hp, -, hmax⟩, hi⟩ | ⟨-, hi⟩
  · obtain rfl := Except.ok.inj (Option.some.inj hi)
    have hle := hmax 0 (atTime 4 (by decide)) (by decide) (by decide)
    rw [show ptsAt reordered 2 = some (atTime 2 (by decide)) by decide] at hp
    obtain rfl := Option.some.inj hp
    exact absurd hle (by decide)
  · cases hi

/-- Once the front was dropped, a time before all samples is answered with an index at which
there is no sample. -/
example : latestSampleIndexAtPresentationTimestamp false ⟨[sampleAt 5 5 (by decide)], 1⟩
    (.new ⟨[sampleAt 5 5 (by decide)], 1⟩) (atTime 0 (by decide)) = some (.ok 0) := by decide

end DimosViewer.Video
