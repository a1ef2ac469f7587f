import DimosViewer.EntityDb.LoadedLaws

/-!
# Merged ranges are an exact segmentation

Between two neighboring times a range either covers the cell or it does not. While ranges
are merged, the cells behind the start of the range popped last are settled, and those
ahead are covered by the last segment and by what is still in the heap.
-/

namespace DimosViewer

/-- Sorted segments without gaps that say for each time which chunks have a range there. -/
structure Segmentation (inputs segments : List TimeRange) : Prop where
  ordered : ∀ seg ∈ segments, seg.range.min ≤ seg.range.max
  gapless : segments.IsChain fun seg next => seg.range.max = next.range.min
  first : ∀ seg ∈ segments.head?, IsLeast {t | ∃ r ∈ inputs, r.range.min = t} seg.range.min
  last : ∀ seg ∈ segments.getLast?, IsGreatest {t | ∃ r ∈ inputs, r.range.max = t} seg.range.max
  shown : ∀ r ∈ inputs, ∀ t, r.range.contains t → ∀ chunk ∈ r.dependsOn,
    ∃ seg ∈ segments, seg.range.contains t ∧ chunk ∈ seg.dependsOn
  exact : ∀ seg ∈ segments, ∀ t, seg.range.min < t → t < seg.range.max →
    (∃ r ∈ inputs, r.range.contains t) →
    ∀ chunk, chunk ∈ seg.dependsOn ↔ ∃ r ∈ inputs, r.range.contains t ∧ chunk ∈ r.dependsOn

namespace Ranges

/-- One range is popped and merged. Of ranges that tie any one may be popped. -/
inductive Step : Ranges → Ranges → Prop
  | pop {segments heap rest : List TimeRange} {range : TimeRange} :
    heap.Perm (range :: rest) → (∀ r ∈ rest, range.precedes r) →
    Step ⟨segments, heap⟩ (push ⟨segments, rest⟩ range)

inductive Merged : Ranges → List TimeRange → Prop
  | done (segments : List TimeRange) : Merged ⟨segments, []⟩ segments.reverse
  | step : Step ranges ranges' → Merged ranges' segments → Merged ranges segments

-- ---------------------------------------------------------------------------
-- Cells
-- ---------------------------------------------------------------------------

/-- The cell between `x` and the next time. -/
def Covers (r : TimeRange) (x : Int) : Prop := r.range.min.asI64 ≤ x ∧ x < r.range.max.asI64

def Needed (ranges : List TimeRange) (x : Int) (chunk : ChunkId) : Prop :=
  ∃ r ∈ ranges, Covers r x ∧ chunk ∈ r.dependsOn

theorem needed_cons : Needed (r :: ranges) x chunk ↔
    Covers r x ∧ chunk ∈ r.dependsOn ∨ Needed ranges x chunk := by
  simp [Needed]

theorem needed_append : Needed (l ++ l') x chunk ↔ Needed l x chunk ∨ Needed l' x chunk := by
  simp [Needed, or_and_right, exists_or]

theorem needed_perm (h : l.Perm l') : Needed l x chunk ↔ Needed l' x chunk := by
  simp only [Needed, h.mem_iff]

theorem asI64_min (a b : TimeInt) : (min a b).asI64 = min a.asI64 b.asI64 := by
  obtain h | h := le_total a b
  · rw [min_eq_left h, min_eq_left (TimeInt.le_iff.mp h)]
  · rw [min_eq_right h, min_eq_right (TimeInt.le_iff.mp h)]

theorem asI64_max (a b : TimeInt) : (max a b).asI64 = max a.asI64 b.asI64 := by
  obtain h | h := le_total a b
  · rw [max_eq_right h, max_eq_right (TimeInt.le_iff.mp h)]
  · rw [max_eq_left h, max_eq_left (TimeInt.le_iff.mp h)]

def shared (last range : TimeRange) : TimeRange :=
  ⟨⟨range.range.min, min range.range.max last.range.max⟩, last.dependsOn ∪ range.dependsOn⟩

theorem needed_shared {last range : TimeRange} (hx : range.range.min.asI64 ≤ x)
    (hstart : last.range.min ≤ range.range.min) (chunk : ChunkId) :
    (Covers (shared last range) x ∧ chunk ∈ (shared last range).dependsOn ∨
      Needed (delayed last range) x chunk) ↔
    Covers last x ∧ chunk ∈ last.dependsOn ∨ Covers range x ∧ chunk ∈ range.dependsOn := by
  rw [TimeInt.le_iff] at hstart
  simp only [delayed, shared, Covers, asI64_min, Finset.mem_union]
  split
  case isTrue hlt =>
    rw [TimeInt.lt_iff] at hlt
    simp only [Needed, List.mem_singleton, exists_eq_left, Covers]
    by_cases hx' : x < last.range.max.asI64 <;> grind
  case isFalse hge =>
    split
    case isTrue hlt =>
      rw [TimeInt.lt_iff] at hlt
      simp only [Needed, List.mem_singleton, exists_eq_left, Covers]
      by_cases hx' : x < range.range.max.asI64 <;> grind
    case isFalse hge' =>
      have heq : last.range.max.asI64 = range.range.max.asI64 :=
        le_antisymm (not_lt.mp hge') (not_lt.mp hge)
      simp only [Needed, List.not_mem_nil, false_and, exists_false, or_false, heq]
      grind

-- ---------------------------------------------------------------------------
-- The invariant
-- ---------------------------------------------------------------------------

/-- A point range that has been merged: some segment shows it, and where a segment goes on
over it, the segment was of these chunks alone when it came. -/
structure Placed (r : TimeRange) (frontier : TimeInt) (last : TimeRange)
    (before : List TimeRange) : Prop where
  past : r.range.min ≤ frontier
  shown : ∃ seg ∈ last :: before, seg.range.min ≤ r.range.min ∧ r.range.min ≤ seg.range.max ∧
    r.dependsOn ⊆ seg.dependsOn
  whole : last.range.min < r.range.min → last.dependsOn = r.dependsOn
  inside : ∀ seg ∈ before, seg.range.min < r.range.min → r.range.min < seg.range.max →
    seg.dependsOn = r.dependsOn

/-- The state of the merging. `frontier` is the start of the range popped last, and the
segments are `last` and, latest first, those before it. -/
structure Segmented (inputs : List TimeRange) (frontier : TimeInt) (last : TimeRange)
    (before heap : List TimeRange) : Prop where
  valid : ∀ r ∈ heap, r.range.min ≤ r.range.max
  after : ∀ r ∈ heap, frontier ≤ r.range.min
  start : last.range.min ≤ frontier
  stop : frontier ≤ last.range.max
  ordered : ∀ seg ∈ before, seg.range.min ≤ seg.range.max
  below : ∀ seg ∈ before, seg.range.max ≤ last.range.min
  chain : (last :: before).IsChain fun seg previous => previous.range.max = seg.range.min
  first : IsLeast {t | ∃ r ∈ inputs, r.range.min = t} (before.getLastD last).range.min
  reach : ∀ r ∈ inputs, ∃ s ∈ last :: heap, r.range.max ≤ s.range.max
  attained : ∀ s ∈ last :: heap, ∃ r ∈ inputs, r.range.max = s.range.max
  ahead : ∀ x, frontier.asI64 ≤ x → ∀ chunk, Needed inputs x chunk ↔
    Covers last x ∧ chunk ∈ last.dependsOn ∨ Needed heap x chunk
  settled : ∀ x < frontier.asI64, Needed inputs x chunk → ∃ seg ∈ last :: before, Covers seg x
  exact : ∀ x < frontier.asI64, Needed inputs x chunk → ∀ seg ∈ last :: before, Covers seg x →
    ∀ c, Needed inputs x c ↔ c ∈ seg.dependsOn
  points : ∀ r ∈ inputs, r.range.min = r.range.max → r ∈ heap ∨ Placed r frontier last before

def endAt (last : TimeRange) (t : TimeInt) : TimeRange := { last with range.max := t }

namespace Placed

variable {frontier frontier' : TimeInt}

theorem endAt (h : Placed r frontier last before) (hf : frontier ≤ frontier')
    (ht : r.range.min ≤ t) : Placed r frontier' (endAt last t) before := by
  refine ⟨h.past.trans hf, ?_, h.whole, h.inside⟩
  obtain ⟨seg, hseg, hmin, hmax, hsub⟩ := h.shown
  obtain rfl | hseg := List.mem_cons.mp hseg
  · exact ⟨_, List.mem_cons_self, hmin, ht, hsub⟩
  · exact ⟨seg, List.mem_cons_of_mem _ hseg, hmin, hmax, hsub⟩

theorem push (h : Placed r frontier last before) (hnext : r.range.min ≤ next.range.min) :
    Placed r frontier next (last :: before) := by
  refine ⟨h.past, ?_, fun hlt => absurd hlt (not_lt.mpr hnext), ?_⟩
  · obtain ⟨seg, hseg, hshown⟩ := h.shown
    exact ⟨seg, List.mem_cons_of_mem _ hseg, hshown⟩
  · rintro seg hseg hmin hmax
    obtain rfl | hseg := List.mem_cons.mp hseg
    · exact h.whole hmin
    · exact h.inside seg hseg hmin hmax

theorem join (h : Placed r frontier last before) (hf : frontier ≤ frontier')
    (hlast : r.range.min ≤ last.range.min) (hmin : next.range.min = last.range.min)
    (hmax : next.range.min ≤ next.range.max) (hsub : last.dependsOn ⊆ next.dependsOn) :
    Placed r frontier' next before := by
  refine ⟨h.past.trans hf, ?_, fun hlt => absurd hlt (not_lt.mpr (hmin ▸ hlast)), h.inside⟩
  obtain ⟨seg, hseg, hshown, hshown', hsubset⟩ := h.shown
  obtain rfl | hseg := List.mem_cons.mp hseg
  · exact ⟨next, List.mem_cons_self, hmin ▸ hshown, (hlast.trans hmin.ge).trans hmax,
      hsubset.trans hsub⟩
  · exact ⟨seg, List.mem_cons_of_mem _ hseg, hshown, hshown', hsubset⟩

end Placed

theorem not_needed_of_le {heap : List TimeRange} (h : ∀ r ∈ heap, t ≤ r.range.min)
    (hx : x < t.asI64) : ¬ Needed heap x chunk := by
  rintro ⟨r, hr, hcovers, -⟩
  have := TimeInt.le_iff.mp (h r hr)
  have := hcovers.1
  omega

namespace Segmented

variable {inputs before rest : List TimeRange} {frontier : TimeInt} {last range : TimeRange}

/-- What is popped next starts no earlier, so all cells before it are settled. -/
theorem settled_before (h : Segmented inputs frontier last before (range :: rest))
    (hmin : ∀ r ∈ rest, range.range.min ≤ r.range.min) (hx : x < range.range.min.asI64)
    (hn : Needed inputs x chunk) : ∃ seg ∈ last :: before, Covers seg x := by
  obtain hlt | hge := lt_or_ge x frontier.asI64
  · exact h.settled x hlt hn
  · obtain ⟨hcovers, -⟩ | hheap := (h.ahead x hge chunk).mp hn
    · exact ⟨last, List.mem_cons_self, hcovers⟩
    · exact absurd hheap (not_needed_of_le (List.forall_mem_cons.mpr ⟨le_rfl, hmin⟩) hx)

theorem exact_before (h : Segmented inputs frontier last before (range :: rest))
    (hmin : ∀ r ∈ rest, range.range.min ≤ r.range.min) (hx : x < range.range.min.asI64)
    (hn : Needed inputs x chunk) (hseg : seg ∈ last :: before) (hcovers : Covers seg x)
    (c : ChunkId) : Needed inputs x c ↔ c ∈ seg.dependsOn := by
  obtain hlt | hge := lt_or_ge x frontier.asI64
  · exact h.exact x hlt hn seg hseg hcovers c
  · have hheap : ¬ Needed (range :: rest) x c :=
      not_needed_of_le (List.forall_mem_cons.mpr ⟨le_rfl, hmin⟩) hx
    obtain rfl | hbefore := List.mem_cons.mp hseg
    · rw [h.ahead x hge c, or_iff_left hheap, and_iff_right hcovers]
    · have hbelow := TimeInt.le_iff.mp (h.below seg hbefore)
      have hstart := TimeInt.le_iff.mp h.start
      have := hcovers.2
      omega

theorem settled_endAt (h : Segmented inputs frontier last before (range :: rest))
    (hmin : ∀ r ∈ rest, range.range.min ≤ r.range.min) (ht : range.range.min ≤ t)
    (hx : x < range.range.min.asI64) (hn : Needed inputs x chunk) :
    ∃ seg ∈ endAt last t :: before, Covers seg x := by
  obtain ⟨seg, hseg, hcovers⟩ := h.settled_before hmin hx hn
  obtain rfl | hseg := List.mem_cons.mp hseg
  · exact ⟨_, List.mem_cons_self, hcovers.1, hx.trans_le (TimeInt.le_iff.mp ht)⟩
  · exact ⟨seg, List.mem_cons_of_mem _ hseg, hcovers⟩

theorem exact_endAt (h : Segmented inputs frontier last before (range :: rest))
    (hmin : ∀ r ∈ rest, range.range.min ≤ r.range.min) (hx : x < range.range.min.asI64)
    (hn : Needed inputs x chunk) (hseg : seg ∈ endAt last t :: before) (hcovers : Covers seg x)
    (c : ChunkId) : Needed inputs x c ↔ c ∈ seg.dependsOn := by
  obtain rfl | hseg := List.mem_cons.mp hseg
  · -- Only `last` can cover the cell: the segments before it end where it starts.
    obtain ⟨old, hold, hcov⟩ := h.settled_before hmin hx hn
    obtain rfl | hold := List.mem_cons.mp hold
    · exact h.exact_before hmin hx hn List.mem_cons_self hcov c
    · have hbelow := TimeInt.le_iff.mp (h.below old hold)
      have hfrom : last.range.min.asI64 ≤ x := hcovers.1
      have := hcov.2
      omega
  · exact h.exact_before hmin hx hn (List.mem_cons_of_mem _ hseg) hcovers c

theorem chain_endAt (h : (last :: before).IsChain fun seg previous =>
      previous.range.max = seg.range.min) (t : TimeInt) :
    (endAt last t :: before).IsChain fun seg previous =>
      previous.range.max = seg.range.min := by
  cases before with
  | nil => exact .singleton _
  | cons previous before =>
    rw [List.isChain_cons_cons] at h ⊢
    exact h

theorem first_endAt (last : TimeRange) (before : List TimeRange) (t : TimeInt) :
    (before.getLastD (endAt last t)).range.min = (before.getLastD last).range.min := by
  cases before <;> rfl

theorem start_le (h : Segmented inputs frontier last before (range :: rest)) :
    last.range.min ≤ range.range.min :=
  h.start.trans (h.after range List.mem_cons_self)

theorem points_cases (h : Segmented inputs frontier last before (range :: rest))
    {next : TimeRange} {before' : List TimeRange} (more : List TimeRange)
    (hnew : range.range.min = range.range.max →
      Placed range range.range.min next before')
    (hold : ∀ r, Placed r frontier last before → Placed r range.range.min next before') :
    ∀ r ∈ inputs, r.range.min = r.range.max →
      r ∈ more ++ rest ∨ Placed r range.range.min next before' := by
  intro r hr hpoint
  obtain hheap | hplaced := h.points r hr hpoint
  · obtain rfl | hrest := List.mem_cons.mp hheap
    · exact .inr (hnew hpoint)
    · exact .inl (List.mem_append_right _ hrest)
  · exact .inr (hold r hplaced)

theorem grow (h : Segmented inputs frontier last before (range :: rest))
    (hmin : ∀ r ∈ rest, range.range.min ≤ r.range.min)
    (hchunks : last.dependsOn = range.dependsOn) :
    Segmented inputs range.range.min (endAt last (max last.range.max range.range.max)) before
      rest := by
  have hrange := h.valid range List.mem_cons_self
  have hfrontier := h.after range List.mem_cons_self
  have hend : range.range.min ≤ max last.range.max range.range.max :=
    hrange.trans (le_max_right _ _)
  refine {
    valid := fun r hr => h.valid r (List.mem_cons_of_mem _ hr)
    after := hmin
    start := h.start_le
    stop := hend
    ordered := h.ordered
    below := h.below
    chain := chain_endAt h.chain _
    first := (first_endAt last before _) ▸ h.first
    reach := fun r hr => ?_
    attained := fun s hs => ?_
    ahead := fun x hx chunk => ?_
    settled := fun x hx hn => h.settled_endAt hmin hend hx hn
    exact := fun x hx hn seg hseg hcovers c => h.exact_endAt hmin hx hn hseg hcovers c
    points := h.points_cases [] (fun hpoint => ?_) fun r hr =>
      hr.endAt hfrontier ((hr.past.trans hfrontier).trans hend) }
  · obtain ⟨s, hs, hle⟩ := h.reach r hr
    obtain rfl | hs := List.mem_cons.mp hs
    · exact ⟨_, List.mem_cons_self, hle.trans (le_max_left _ _)⟩
    · obtain rfl | hs := List.mem_cons.mp hs
      · exact ⟨_, List.mem_cons_self, hle.trans (le_max_right _ _)⟩
      · exact ⟨s, List.mem_cons_of_mem _ hs, hle⟩
  · obtain rfl | hs := List.mem_cons.mp hs
    · obtain hmax | hmax := max_choice last.range.max range.range.max
      · obtain ⟨r, hr, heq⟩ := h.attained last List.mem_cons_self
        exact ⟨r, hr, heq.trans hmax.symm⟩
      · obtain ⟨r, hr, heq⟩ := h.attained range (List.mem_cons_of_mem _ List.mem_cons_self)
        exact ⟨r, hr, heq.trans hmax.symm⟩
    · exact h.attained s (List.mem_cons_of_mem _ (List.mem_cons_of_mem _ hs))
  · have hstart := TimeInt.le_iff.mp h.start_le
    have hcovers : Covers (endAt last (max last.range.max range.range.max)) x ↔
        Covers last x ∨ Covers range x := by
      simp only [Covers, endAt, asI64_max]
      omega
    rw [h.ahead x ((TimeInt.le_iff.mp hfrontier).trans hx) chunk, needed_cons, hcovers, ← hchunks,
      ← or_assoc, ← or_and_right]
    rfl
  · refine ⟨le_rfl, ⟨_, List.mem_cons_self, h.start_le, hend, hchunks.ge⟩, fun _ => hchunks,
      fun seg hseg _ hlt => ?_⟩
    exact absurd hlt (not_lt.mpr ((h.below seg hseg).trans h.start_le))

theorem follow (h : Segmented inputs frontier last before (range :: rest))
    (hmin : ∀ r ∈ rest, range.range.min ≤ r.range.min)
    (hend : last.range.max ≤ range.range.min) :
    Segmented inputs range.range.min range (endAt last range.range.min :: before) rest := by
  have hrange := h.valid range List.mem_cons_self
  have hfrontier := h.after range List.mem_cons_self
  refine {
    valid := fun r hr => h.valid r (List.mem_cons_of_mem _ hr)
    after := hmin
    start := le_rfl
    stop := hrange
    ordered := List.forall_mem_cons.mpr ⟨h.start_le, h.ordered⟩
    below := List.forall_mem_cons.mpr ⟨le_rfl, fun seg hseg => (h.below seg hseg).trans h.start_le⟩
    chain := List.isChain_cons_cons.mpr ⟨rfl, chain_endAt h.chain _⟩
    first := ?_
    reach := fun r hr => ?_
    attained := fun s hs => h.attained s (List.mem_cons_of_mem _ hs)
    ahead := fun x hx chunk => ?_
    settled := fun x hx hn => ?_
    exact := fun x hx hn seg hseg hcovers c => ?_
    points := h.points_cases [] (fun hpoint => ?_) fun r hr =>
      (hr.endAt hfrontier (hr.past.trans hfrontier)).push (hr.past.trans hfrontier) }
  · rw [List.getLastD_cons, first_endAt]
    exact h.first
  · obtain ⟨s, hs, hle⟩ := h.reach r hr
    obtain rfl | hs := List.mem_cons.mp hs
    · exact ⟨range, List.mem_cons_self, hle.trans (hend.trans hrange)⟩
    · exact ⟨s, hs, hle⟩
  · have hlast : ¬ Covers last x := fun hc => by
      have := TimeInt.le_iff.mp hend
      have := hc.2
      omega
    rw [h.ahead x ((TimeInt.le_iff.mp hfrontier).trans hx) chunk, needed_cons,
      or_iff_right fun hc => hlast hc.1]
  · obtain ⟨seg, hseg, hcovers⟩ := h.settled_endAt hmin le_rfl hx hn
    exact ⟨seg, List.mem_cons_of_mem _ hseg, hcovers⟩
  · obtain rfl | hseg := List.mem_cons.mp hseg
    · exact absurd hcovers.1 (not_le.mpr hx)
    · exact h.exact_endAt hmin hx hn hseg hcovers c
  · refine ⟨le_rfl, ⟨range, List.mem_cons_self, le_rfl, hrange, subset_rfl⟩, fun _ => rfl,
      fun seg hseg _ hlt => ?_⟩
    obtain rfl | hseg := List.mem_cons.mp hseg
    · exact absurd hlt (lt_irrefl _)
    · exact absurd hlt (not_lt.mpr ((h.below seg hseg).trans h.start_le))

theorem mem_delayed {last range r : TimeRange} (hoverlap : range.range.min ≤ last.range.max)
    (hrange : range.range.min ≤ range.range.max) (hr : r ∈ delayed last range) :
    range.range.min ≤ r.range.min ∧ r.range.min ≤ r.range.max ∧
      (r.range.max = last.range.max ∨ r.range.max = range.range.max) := by
  rw [delayed] at hr
  split at hr
  case isTrue hlt =>
    obtain rfl := List.mem_singleton.mp hr
    exact ⟨hoverlap, hlt.le, .inr rfl⟩
  case isFalse =>
    split at hr
    case isTrue hlt =>
      obtain rfl := List.mem_singleton.mp hr
      exact ⟨hrange, hlt.le, .inl rfl⟩
    case isFalse => cases hr

theorem exists_reach {last range : TimeRange} (t : TimeInt)
    (ht : t ≤ last.range.max ∨ t ≤ range.range.max) :
    ∃ s ∈ shared last range :: delayed last range, t ≤ s.range.max := by
  rw [delayed]
  split
  case isTrue hlt =>
    exact ⟨_, List.mem_cons_of_mem _ (List.mem_singleton_self _),
      ht.elim (fun h => h.trans hlt.le) id⟩
  case isFalse hge =>
    split
    case isTrue hlt =>
      exact ⟨_, List.mem_cons_of_mem _ (List.mem_singleton_self _),
        ht.elim id fun h => h.trans hlt.le⟩
    case isFalse hge' =>
      have heq : last.range.max = range.range.max := le_antisymm (not_lt.mp hge') (not_lt.mp hge)
      refine ⟨_, List.mem_cons_self, ?_⟩
      rw [shared, heq, min_self]
      exact ht.elim (fun h => h.trans heq.le) id

section Overlap

variable (h : Segmented inputs frontier last before (range :: rest))
  (hmin : ∀ r ∈ rest, range.range.min ≤ r.range.min)
  (hoverlap : range.range.min < last.range.max)

include h

theorem reach_overlap (r : TimeRange) (hr : r ∈ inputs) :
    ∃ s ∈ shared last range :: (delayed last range ++ rest), r.range.max ≤ s.range.max := by
  obtain ⟨s, hs, hle⟩ := h.reach r hr
  have hfound (ht : r.range.max ≤ last.range.max ∨ r.range.max ≤ range.range.max) :
      ∃ s ∈ shared last range :: (delayed last range ++ rest), r.range.max ≤ s.range.max := by
    obtain ⟨s, hs, hle⟩ := exists_reach r.range.max ht
    exact ⟨s, List.mem_append_left rest hs, hle⟩
  obtain rfl | hs := List.mem_cons.mp hs
  · exact hfound (.inl hle)
  · obtain rfl | hs := List.mem_cons.mp hs
    · exact hfound (.inr hle)
    · exact ⟨s, List.mem_cons_of_mem _ (List.mem_append_right _ hs), hle⟩

theorem ahead_overlap (x : Int) (hx : range.range.min.asI64 ≤ x) (chunk : ChunkId) :
    Needed inputs x chunk ↔
      Covers (shared last range) x ∧ chunk ∈ (shared last range).dependsOn ∨
        Needed (delayed last range ++ rest) x chunk := by
  have hfrontier := TimeInt.le_iff.mp (h.after range List.mem_cons_self)
  rw [h.ahead x (hfrontier.trans hx) chunk, needed_cons, needed_append, ← or_assoc, ← or_assoc,
    needed_shared hx h.start_le]

include hoverlap

theorem attained_overlap (s : TimeRange)
    (hs : s ∈ shared last range :: (delayed last range ++ rest)) :
    ∃ r ∈ inputs, r.range.max = s.range.max := by
  have hends (he : s.range.max = last.range.max ∨ s.range.max = range.range.max) :
      ∃ r ∈ inputs, r.range.max = s.range.max := by
    obtain he | he := he
    · exact he ▸ h.attained last List.mem_cons_self
    · exact he ▸ h.attained range (List.mem_cons_of_mem _ List.mem_cons_self)
  obtain rfl | hs := List.mem_cons.mp hs
  · exact hends ((min_choice range.range.max last.range.max).symm)
  · obtain hs | hs := List.mem_append.mp hs
    · exact hends (mem_delayed hoverlap.le (h.valid range List.mem_cons_self) hs).2.2
    · exact h.attained s (List.mem_cons_of_mem _ (List.mem_cons_of_mem _ hs))

theorem valid_overlap (r : TimeRange) (hr : r ∈ delayed last range ++ rest) :
    r.range.min ≤ r.range.max := by
  obtain hr | hr := List.mem_append.mp hr
  · exact (mem_delayed hoverlap.le (h.valid range List.mem_cons_self) hr).2.1
  · exact h.valid r (List.mem_cons_of_mem _ hr)

include hmin

theorem after_overlap (r : TimeRange) (hr : r ∈ delayed last range ++ rest) :
    range.range.min ≤ r.range.min := by
  obtain hr | hr := List.mem_append.mp hr
  · exact (mem_delayed hoverlap.le (h.valid range List.mem_cons_self) hr).1
  · exact hmin r hr

theorem join (hstart : last.range.min = range.range.min) :
    Segmented inputs range.range.min (shared last range) before (delayed last range ++ rest) := by
  have hrange := h.valid range List.mem_cons_self
  have hfrontier := h.after range List.mem_cons_self
  have hstop : range.range.min ≤ min range.range.max last.range.max := le_min hrange hoverlap.le
  have hcovered (seg : TimeRange) (hseg : seg ∈ last :: before) (x : Int)
      (hx : x < range.range.min.asI64) (hc : Covers seg x) : seg ∈ before := by
    obtain rfl | hseg := List.mem_cons.mp hseg
    · exact absurd hc.1 (not_le.mpr (hstart ▸ hx))
    · exact hseg
  refine {
    valid := h.valid_overlap hoverlap
    after := h.after_overlap hmin hoverlap
    start := le_rfl
    stop := hstop
    ordered := h.ordered
    below := fun seg hseg => (h.below seg hseg).trans hstart.le
    chain := ?_
    first := ?_
    reach := h.reach_overlap
    attained := h.attained_overlap hoverlap
    ahead := h.ahead_overlap
    settled := fun x hx hn => ?_
    exact := fun x hx hn seg hseg hcovers c => ?_
    points := h.points_cases _ (fun hpoint => ?_) fun r hr => ?_ }
  · have hchain := h.chain
    cases before with
    | nil => exact .singleton _
    | cons previous before =>
      rw [List.isChain_cons_cons] at hchain ⊢
      exact ⟨hchain.1.trans hstart, hchain.2⟩
  · have hfirst := h.first
    cases before with
    | nil => exact hstart ▸ hfirst
    | cons previous before => exact hfirst
  · obtain ⟨seg, hseg, hcovers⟩ := h.settled_before hmin hx hn
    exact ⟨seg, List.mem_cons_of_mem _ (hcovered seg hseg x hx hcovers), hcovers⟩
  · obtain rfl | hseg := List.mem_cons.mp hseg
    · exact absurd hcovers.1 (not_le.mpr hx)
    · exact h.exact_before hmin hx hn (List.mem_cons_of_mem _ hseg) hcovers c
  · refine ⟨le_rfl, ⟨_, List.mem_cons_self, le_rfl, hstop, Finset.subset_union_right⟩,
      fun hlt => absurd hlt (lt_irrefl _), fun seg hseg _ hlt => ?_⟩
    exact absurd hlt (not_lt.mpr ((h.below seg hseg).trans h.start_le))
  · exact hr.join hfrontier ((hr.past.trans hfrontier).trans hstart.ge) hstart.symm hstop
      Finset.subset_union_left

theorem cut : Segmented inputs range.range.min (shared last range)
    (endAt last range.range.min :: before) (delayed last range ++ rest) := by
  have hrange := h.valid range List.mem_cons_self
  have hfrontier := h.after range List.mem_cons_self
  have hstop : range.range.min ≤ min range.range.max last.range.max := le_min hrange hoverlap.le
  refine {
    valid := h.valid_overlap hoverlap
    after := h.after_overlap hmin hoverlap
    start := le_rfl
    stop := hstop
    ordered := List.forall_mem_cons.mpr ⟨h.start_le, h.ordered⟩
    below := List.forall_mem_cons.mpr ⟨le_rfl, fun seg hseg => (h.below seg hseg).trans h.start_le⟩
    chain := List.isChain_cons_cons.mpr ⟨rfl, chain_endAt h.chain _⟩
    first := ?_
    reach := h.reach_overlap
    attained := h.attained_overlap hoverlap
    ahead := h.ahead_overlap
    settled := fun x hx hn => ?_
    exact := fun x hx hn seg hseg hcovers c => ?_
    points := h.points_cases _ (fun hpoint => ?_) fun r hr =>
      (hr.endAt hfrontier (hr.past.trans hfrontier)).push (hr.past.trans hfrontier) }
  · rw [List.getLastD_cons, first_endAt]
    exact h.first
  · obtain ⟨seg, hseg, hcovers⟩ := h.settled_endAt hmin le_rfl hx hn
    exact ⟨seg, List.mem_cons_of_mem _ hseg, hcovers⟩
  · obtain rfl | hseg := List.mem_cons.mp hseg
    · exact absurd hcovers.1 (not_le.mpr hx)
    · exact h.exact_endAt hmin hx hn hseg hcovers c
  · refine ⟨le_rfl, ⟨_, List.mem_cons_self, le_rfl, hstop, Finset.subset_union_right⟩,
      fun hlt => absurd hlt (lt_irrefl _), fun seg hseg _ hlt => ?_⟩
    obtain rfl | hseg := List.mem_cons.mp hseg
    · exact absurd hlt (lt_irrefl _)
    · exact absurd hlt (not_lt.mpr ((h.below seg hseg).trans h.start_le))

end Overlap

theorem push (h : Segmented inputs frontier last before (range :: rest))
    (hmin : ∀ r ∈ rest, range.range.min ≤ r.range.min) :
    ∃ last' before' heap', Ranges.push ⟨last :: before, rest⟩ range = ⟨last' :: before', heap'⟩ ∧
      Segmented inputs range.range.min last' before' heap' := by
  rw [Ranges.push]
  dsimp only
  split
  case isTrue hchunks => exact ⟨_, _, _, rfl, h.grow hmin hchunks⟩
  case isFalse =>
    split
    case isTrue hend => exact ⟨_, _, _, rfl, h.follow hmin hend⟩
    case isFalse hoverlap =>
      have hoverlap := not_le.mp hoverlap
      split
      case isTrue hstart =>
        have hjoin := h.join hmin hoverlap hstart
        rw [shared, ← hstart, min_comm] at hjoin
        exact ⟨_, _, _, rfl, hstart ▸ hjoin⟩
      case isFalse => exact ⟨_, _, _, rfl, h.cut hmin hoverlap⟩

theorem single (hvalid : ∀ r ∈ range :: rest, r.range.min ≤ r.range.max)
    (hmin : ∀ r ∈ rest, range.range.min ≤ r.range.min) (hp : inputs.Perm (range :: rest)) :
    Segmented inputs range.range.min range [] rest := by
  have hleast : ∀ r ∈ range :: rest, range.range.min ≤ r.range.min :=
    List.forall_mem_cons.mpr ⟨le_rfl, hmin⟩
  have hnone (x : Int) (hx : x < range.range.min.asI64) (chunk : ChunkId)
      (hn : Needed inputs x chunk) : False :=
    not_needed_of_le hleast hx ((needed_perm hp).mp hn)
  refine {
    valid := fun r hr => hvalid r (List.mem_cons_of_mem _ hr)
    after := hmin
    start := le_rfl
    stop := hvalid range List.mem_cons_self
    ordered := fun _ hs => absurd hs List.not_mem_nil
    below := fun _ hs => absurd hs List.not_mem_nil
    chain := .singleton _
    first := ⟨⟨range, hp.mem_iff.mpr List.mem_cons_self, rfl⟩, ?_⟩
    reach := fun r hr => ⟨r, hp.mem_iff.mp hr, le_rfl⟩
    attained := fun s hs => ⟨s, hp.mem_iff.mpr hs, rfl⟩
    ahead := fun x _ chunk => (needed_perm hp).trans needed_cons
    settled := fun x hx hn => (hnone x hx _ hn).elim
    exact := fun x hx hn => (hnone x hx _ hn).elim
    points := fun r hr hpoint => ?_ }
  · rintro t ⟨r, hr, rfl⟩
    exact hleast r (hp.mem_iff.mp hr)
  · obtain rfl | hrest := List.mem_cons.mp (hp.mem_iff.mp hr)
    · exact .inr ⟨le_rfl, ⟨r, List.mem_cons_self, le_rfl, hpoint.le, subset_rfl⟩, fun _ => rfl,
        fun _ hs => absurd hs List.not_mem_nil⟩
    · exact .inl hrest

theorem heap_perm (h : Segmented inputs frontier last before heap) (hp : heap.Perm heap') :
    Segmented inputs frontier last before heap' := by
  refine { h with
    valid := fun r hr => h.valid r (hp.mem_iff.mpr hr)
    after := fun r hr => h.after r (hp.mem_iff.mpr hr)
    reach := fun r hr => ?_
    attained := fun s hs => h.attained s ((hp.cons last).mem_iff.mpr hs)
    ahead := fun x hx chunk => (h.ahead x hx chunk).trans (by rw [needed_perm hp])
    points := fun r hr hpoint => (h.points r hr hpoint).imp_left hp.mem_iff.mp }
  obtain ⟨s, hs, hle⟩ := h.reach r hr
  exact ⟨s, (hp.cons last).mem_iff.mp hs, hle⟩

-- ---------------------------------------------------------------------------
-- The empty heap
-- ---------------------------------------------------------------------------

section Final

variable (h : Segmented inputs frontier last before [])

include h

theorem ahead_final (hx : frontier.asI64 ≤ x) :
    Needed inputs x chunk ↔ Covers last x ∧ chunk ∈ last.dependsOn := by
  rw [h.ahead x hx chunk]
  simp [Needed]

theorem exact_final (hn : Needed inputs x chunk) (hseg : seg ∈ last :: before)
    (hcovers : Covers seg x) (c : ChunkId) : Needed inputs x c ↔ c ∈ seg.dependsOn := by
  obtain hlt | hge := lt_or_ge x frontier.asI64
  · exact h.exact x hlt hn seg hseg hcovers c
  · obtain rfl | hbefore := List.mem_cons.mp hseg
    · rw [h.ahead_final hge, and_iff_right hcovers]
    · have := TimeInt.le_iff.mp (h.below seg hbefore)
      have := TimeInt.le_iff.mp h.start
      have := hcovers.2
      omega

theorem settled_final (hn : Needed inputs x chunk) :
    ∃ seg ∈ last :: before, Covers seg x ∧ chunk ∈ seg.dependsOn := by
  have hfound : ∃ seg ∈ last :: before, Covers seg x := by
    obtain hlt | hge := lt_or_ge x frontier.asI64
    · exact h.settled x hlt hn
    · exact ⟨last, List.mem_cons_self, (h.ahead_final hge |>.mp hn).1⟩
  obtain ⟨seg, hseg, hcovers⟩ := hfound
  exact ⟨seg, hseg, hcovers, (h.exact_final hn hseg hcovers chunk).mp hn⟩

theorem placed (hr : r ∈ inputs) (hpoint : r.range.min = r.range.max) :
    Placed r frontier last before :=
  (h.points r hr hpoint).resolve_left List.not_mem_nil

/-- A point range inside a segment has just the chunks of the segment. -/
theorem dependsOn_of_point (hr : r ∈ inputs) (hpoint : r.range.min = r.range.max)
    (hseg : seg ∈ last :: before) (hlt : seg.range.min < r.range.min)
    (hgt : r.range.min < seg.range.max) : seg.dependsOn = r.dependsOn := by
  have hp := h.placed hr hpoint
  obtain rfl | hseg := List.mem_cons.mp hseg
  · exact hp.whole hlt
  · exact hp.inside seg hseg hlt hgt

end Final

end Segmented

theorem exists_cell (ht : r.range.contains t) : r.range.min = r.range.max ∨
    Covers r t.asI64 ∨ Covers r (t.asI64 - 1) := by
  rw [AbsoluteTimeRange.contains_iff, TimeInt.le_iff, TimeInt.le_iff] at ht
  simp only [Covers, TimeInt.ext_iff]
  omega

theorem contains_of_covers (h : Covers r x) (hx : x = t.asI64 ∨ x = t.asI64 - 1) :
    r.range.contains t := by
  obtain ⟨hle, hlt⟩ := h
  rw [AbsoluteTimeRange.contains_iff, TimeInt.le_iff, TimeInt.le_iff]
  omega

theorem Segmented.segmentation {frontier : TimeInt} (h : Segmented inputs frontier last before [])
    (hchunks : ∀ r ∈ inputs, r.dependsOn.Nonempty) :
    Segmentation inputs (last :: before).reverse := by
  have hcell {r : TimeRange} {t : TimeInt} (ht : r.range.contains t)
      (hne : r.range.min ≠ r.range.max) : ∃ x, (x = t.asI64 ∨ x = t.asI64 - 1) ∧ Covers r x := by
    obtain hpoint | hc | hc := exists_cell ht
    · exact absurd hpoint hne
    · exact ⟨_, .inl rfl, hc⟩
    · exact ⟨_, .inr rfl, hc⟩
  refine ⟨fun seg hseg => ?_, ?_, fun seg hseg => ?_, fun seg hseg => ?_,
    fun r hr t ht chunk hchunk => ?_, fun seg hseg t hlt hgt hex chunk => ?_⟩
  · obtain rfl | hseg := List.mem_cons.mp (List.mem_reverse.mp hseg)
    · exact h.start.trans h.stop
    · exact h.ordered seg hseg
  · rw [List.isChain_reverse]
    exact h.chain
  · rw [List.head?_reverse, List.getLast?_cons, Option.mem_some_iff, ← List.getLastD_eq_getLast?]
      at hseg
    exact hseg ▸ h.first
  · rw [List.getLast?_reverse, List.head?_cons, Option.mem_some_iff] at hseg
    subst hseg
    refine ⟨h.attained last List.mem_cons_self, ?_⟩
    rintro t ⟨r, hr, rfl⟩
    obtain ⟨s, hs, hle⟩ := h.reach r hr
    exact List.mem_singleton.mp hs ▸ hle
  · by_cases hpoint : r.range.min = r.range.max
    · obtain ⟨seg, hseg, hmin, hmax, hsub⟩ := (h.placed hr hpoint).shown
      obtain ⟨hle, hge⟩ := AbsoluteTimeRange.contains_iff.mp ht
      obtain rfl := le_antisymm hle (hpoint ▸ hge)
      exact ⟨seg, List.mem_reverse.mpr hseg, AbsoluteTimeRange.contains_iff.mpr ⟨hmin, hmax⟩,
        hsub hchunk⟩
    · obtain ⟨x, hx, hc⟩ := hcell ht hpoint
      obtain ⟨seg, hseg, hcovers, hmem⟩ := h.settled_final ⟨r, hr, hc, hchunk⟩
      exact ⟨seg, List.mem_reverse.mpr hseg, contains_of_covers hcovers hx, hmem⟩
  · rw [List.mem_reverse] at hseg
    have hcovers (x : Int) (hx : x = t.asI64 ∨ x = t.asI64 - 1) : Covers seg x := by
      rw [TimeInt.lt_iff] at hlt hgt
      simp only [Covers]
      omega
    have hpointed {r : TimeRange} (hr : r ∈ inputs) (ht : r.range.contains t)
        (hpoint : r.range.min = r.range.max) : seg.dependsOn = r.dependsOn := by
      obtain ⟨hle, hge⟩ := AbsoluteTimeRange.contains_iff.mp ht
      obtain rfl := le_antisymm hle (hpoint ▸ hge)
      exact h.dependsOn_of_point hr hpoint hseg hlt hgt
    constructor
    · intro hchunk
      obtain ⟨r, hr, ht⟩ := hex
      by_cases hpoint : r.range.min = r.range.max
      · exact ⟨r, hr, ht, hpointed hr ht hpoint ▸ hchunk⟩
      · obtain ⟨x, hx, hc⟩ := hcell ht hpoint
        obtain ⟨c, hcr⟩ := hchunks r hr
        obtain ⟨r', hr', hc', hmem⟩ :=
          (h.exact_final ⟨r, hr, hc, hcr⟩ hseg (hcovers x hx) chunk).mpr hchunk
        exact ⟨r', hr', contains_of_covers hc' hx, hmem⟩
    · rintro ⟨r, hr, ht, hchunk⟩
      by_cases hpoint : r.range.min = r.range.max
      · exact hpointed hr ht hpoint ▸ hchunk
      · obtain ⟨x, hx, hc⟩ := hcell ht hpoint
        have hn : Needed inputs x chunk := ⟨r, hr, hc, hchunk⟩
        exact (h.exact_final hn hseg (hcovers x hx) chunk).mp hn

-- ---------------------------------------------------------------------------
-- Runs
-- ---------------------------------------------------------------------------

def Progress (inputs : List TimeRange) (ranges : Ranges) : Prop :=
  ranges.new = [] ∧ inputs.Perm ranges.incoming ∨
    ∃ frontier last before, ranges.new = last :: before ∧
      Segmented inputs frontier last before ranges.incoming

theorem min_le_of_precedes {a b : TimeRange} (h : a.precedes b) : a.range.min ≤ b.range.min := by
  rw [TimeRange.precedes, decide_eq_true_iff] at h
  obtain h | ⟨h, -⟩ := h
  · exact h.le
  · exact h.le

theorem Progress.step (hvalid : ∀ r ∈ inputs, r.range.min ≤ r.range.max)
    (h : Progress inputs ranges) (hs : Step ranges ranges') : Progress inputs ranges' := by
  obtain ⟨hperm, hprecedes⟩ := hs
  rename_i segments heap rest range
  have hmin (r : TimeRange) (hr : r ∈ rest) := min_le_of_precedes (hprecedes r hr)
  obtain ⟨hnew, hp⟩ | ⟨frontier, last, before, hnew, hsegmented⟩ := h
  · have hall := hp.trans hperm
    obtain rfl : segments = [] := hnew
    exact .inr ⟨_, _, _, rfl,
      .single (fun r hr => hvalid r (hall.mem_iff.mpr hr)) hmin hall⟩
  · obtain rfl : segments = last :: before := hnew
    obtain ⟨last', before', heap', hpush, hnext⟩ := (hsegmented.heap_perm hperm).push hmin
    rw [hpush]
    exact .inr ⟨_, _, _, rfl, hnext⟩

theorem segmentation_nil : Segmentation [] [] :=
  ⟨fun _ h => absurd h List.not_mem_nil, .nil, fun _ h => absurd h (Option.not_mem_none _),
    fun _ h => absurd h (Option.not_mem_none _), fun _ h => absurd h List.not_mem_nil,
    fun _ h => absurd h List.not_mem_nil⟩

theorem Progress.segmentation (hvalid : ∀ r ∈ inputs, r.range.min ≤ r.range.max)
    (hchunks : ∀ r ∈ inputs, r.dependsOn.Nonempty) (hm : Merged ranges segments)
    (h : Progress inputs ranges) : Segmentation inputs segments := by
  induction hm with
  | done segments =>
    obtain ⟨hnew, hp⟩ | ⟨frontier, last, before, hnew, hsegmented⟩ := h
    · obtain rfl : segments = [] := hnew
      obtain rfl := hp.eq_nil
      exact segmentation_nil
    · obtain rfl : segments = last :: before := hnew
      exact hsegmented.segmentation hchunks
  | step hs _ ih => exact ih (h.step hvalid hs)

theorem cost_step (hvalid : ∀ r ∈ ranges.incoming, r.range.min ≤ r.range.max)
    (hs : Step ranges ranges') : (ranges'.incoming.map cost).sum < (ranges.incoming.map cost).sum ∧
      ∀ r ∈ ranges'.incoming, r.range.min ≤ r.range.max := by
  obtain ⟨hperm, -⟩ := hs
  rename_i segments heap rest range
  have hall (r : TimeRange) (hr : r ∈ range :: rest) : r.range.min ≤ r.range.max :=
    hvalid r (hperm.mem_iff.mpr hr)
  obtain ⟨more, hmore, hcost, hord⟩ := push_incoming ⟨segments, rest⟩ (hall range List.mem_cons_self)
  rw [hmore]
  refine ⟨?_, fun r hr => ?_⟩
  · rw [(hperm.map cost).sum_eq, List.map_append, List.sum_append, List.map_cons, List.sum_cons]
    dsimp only
    omega
  · obtain hr | hr := List.mem_append.mp hr
    · exact hord r hr
    · exact hall r (List.mem_cons_of_mem _ hr)

theorem acc_step (ranges : Ranges) (hvalid : ∀ r ∈ ranges.incoming, r.range.min ≤ r.range.max) :
    Acc (fun after before => Step before after) ranges := by
  generalize hn : (ranges.incoming.map cost).sum = n
  induction n using Nat.strong_induction_on generalizing ranges with
  | h n ih =>
    refine .intro ranges fun ranges' hs => ?_
    obtain ⟨hcost, hvalid'⟩ := cost_step hvalid hs
    exact ih _ (hn ▸ hcost) ranges' hvalid' rfl

-- ---------------------------------------------------------------------------
-- The heap of the model
-- ---------------------------------------------------------------------------

theorem precedes_trans {a b c : TimeRange} (h : a.precedes b) (h' : b.precedes c) :
    a.precedes c := by
  simp only [TimeRange.precedes, decide_eq_true_iff, TimeInt.lt_iff, TimeInt.ext_iff] at *
  omega

theorem precedes_of_not {a b : TimeRange} (h : ¬ a.precedes b) : b.precedes a := by
  simp only [TimeRange.precedes, decide_eq_true_iff, TimeInt.lt_iff, TimeInt.ext_iff] at *
  omega

theorem popIncoming_precedes {l rest : List TimeRange} (h : popIncoming l = some (range, rest)) :
    ∀ r ∈ rest, range.precedes r := by
  induction l generalizing range rest with
  | nil => cases h
  | cons head l ih =>
    rw [popIncoming] at h
    split at h
    case h_1 =>
      cases h
      exact fun r hr => absurd hr List.not_mem_nil
    case h_2 best others hsome =>
      have hbest := ih hsome
      split at h
      case isTrue hhead =>
        cases h
        intro r hr
        obtain rfl | hr := List.mem_cons.mp ((popIncoming_perm hsome).mem_iff.mp hr)
        · exact hhead
        · exact precedes_trans hhead (hbest r hr)
      case isFalse hhead =>
        cases h
        exact List.forall_mem_cons.mpr ⟨precedes_of_not hhead, hbest⟩

theorem merged_mergeIn {fuel : Nat} {ranges : Ranges}
    (h : (mergeIn fuel ranges).incoming = []) :
    Merged ranges (mergeIn fuel ranges).new.reverse := by
  induction fuel generalizing ranges with
  | zero =>
    obtain ⟨segments, heap⟩ := ranges
    obtain rfl : heap = [] := h
    exact .done segments
  | succ fuel ih =>
    obtain ⟨segments, heap⟩ := ranges
    rw [mergeIn] at h ⊢
    cases hpop : popIncoming heap with
    | none =>
      obtain rfl := popIncoming_eq_none hpop
      exact .done segments
    | some popped =>
      obtain ⟨range, rest⟩ := popped
      rw [hpop] at h
      exact .step (.pop (popIncoming_perm hpop) (popIncoming_precedes hpop)) (ih h)

end Ranges

/-- However ties are broken, merging ends with an exact segmentation. -/
theorem mergeRanges_segmentation (inputs : List (ChunkId × AbsoluteTimeRange))
    (h : ∀ i ∈ inputs, i.2.min ≤ i.2.max) :
    let ranges := inputs.map fun i => TimeRange.ofChunk i.1 i.2
    Acc (fun after before => Ranges.Step before after) { incoming := ranges } ∧
    Ranges.Merged { incoming := ranges } (mergeRanges ranges) ∧
    ∀ segments, Ranges.Merged { incoming := ranges } segments → Segmentation ranges segments := by
  intro ranges
  have hvalid : ∀ r ∈ ranges, r.range.min ≤ r.range.max := by
    intro r hr
    obtain ⟨i, hi, rfl⟩ := List.mem_map.mp hr
    exact h i hi
  have hchunks : ∀ r ∈ ranges, r.dependsOn.Nonempty := by
    intro r hr
    obtain ⟨i, -, rfl⟩ := List.mem_map.mp hr
    exact Finset.singleton_nonempty i.1
  exact ⟨Ranges.acc_step _ hvalid, Ranges.merged_mergeIn (Ranges.mergeRanges_done hvalid),
    fun segments hm => Ranges.Progress.segmentation hvalid hchunks hm (.inl ⟨rfl, .refl _⟩)⟩

/-- A point inside a longer range, and a second range over its end. -/
theorem mergeRanges_segmentation_three :
    let ranges := [(1, ⟨.ZERO, .newTemporal 10⟩), (2, ⟨.newTemporal 5, .newTemporal 5⟩),
      (3, ⟨.newTemporal 8, .MAX⟩)].map fun (i : ChunkId × AbsoluteTimeRange) =>
        TimeRange.ofChunk i.1 i.2
    Acc (fun after before => Ranges.Step before after) { incoming := ranges } ∧
    Ranges.Merged { incoming := ranges } (mergeRanges ranges) ∧
    ∀ segments, Ranges.Merged { incoming := ranges } segments → Segmentation ranges segments :=
  mergeRanges_segmentation _ (by decide)

end DimosViewer
