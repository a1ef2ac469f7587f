import Mathlib.Data.Finset.Sort
import Mathlib.Data.Set.Finite.Lemmas
import DimosViewer.CyclicSteps
import DimosViewer.TimePanel.TimeControl

/-!
# Steps visit every data time in turn

A step goes to the next data time in the loop, and starts anew at the other end. The
code starts anew with the same strict search, so it skips a data time on a bound.
-/

namespace DimosViewer

open Std (TreeMap)
open CyclicSteps (IsNext IsPrev Finds step isPrev_iff_dual)

namespace TimeControl

-- ---------------------------------------------------------------------------
-- What is asked of the steps
-- ---------------------------------------------------------------------------

def stepNoPause (db : EntityDb) (direction : MoveDirection) (self : TimeControl) : TimeControl :=
  match direction with
  | .back => self.stepTimeBackNoPause db
  | .forward => self.stepTimeFwdNoPause db

structure At (control : TimeControl) (timeline : TimelineName)
    (loop : Option AbsoluteTimeRangeF) (c : TimeReal) : Prop where
  hasTimeline : control.timelineName = timeline
  hasLoop : control.activeLoopSelection = loop
  hasTime : control.time = some c

def instants (db : EntityDb) (timeline : TimelineName) : Set TimeReal :=
  TimeReal.ofTimeInt '' {t | t ∈ db.store.dataTimes timeline}

def within : Option AbsoluteTimeRangeF → Set TimeReal
  | some loop => Set.Icc loop.min loop.max
  | none => Set.univ

def stops (db : EntityDb) (timeline : TimelineName) (loop : Option AbsoluteTimeRangeF) :
    Set TimeReal :=
  instants db timeline ∩ within loop

def stopList (db : EntityDb) (timeline : TimelineName) (loop : Option AbsoluteTimeRangeF) :
    List TimeReal :=
  (((db.store.dataTimes timeline).map TimeReal.ofTimeInt).filter fun t =>
    loop.all (·.contains t)).toFinset.sort

/-- From every cursor in the loop, steps go to the next data time in the loop and back to the
previous one. They stay in the loop, visit each data time in a cycle, and undo each other. -/
structure StepsInTurn (db : EntityDb) (timeline : TimelineName)
    (loop : Option AbsoluteTimeRangeF) : Prop where
  forward : ∀ self c, At self timeline loop c → c ∈ within loop →
    ∃ t, (self.stepTimeFwdNoPause db).time = some t ∧ IsNext (stops db timeline loop) c t
  back : ∀ self c, At self timeline loop c → c ∈ within loop →
    ∃ t, (self.stepTimeBackNoPause db).time = some t ∧ IsPrev (stops db timeline loop) c t
  stays : ∀ self c, At self timeline loop c → c ∈ within loop →
    ∀ directions : List MoveDirection, ∃ t ∈ within loop,
      (directions.foldl (fun self d => self.stepNoPause db d) self).time = some t
  visits : ∀ self c, At self timeline loop c → c ∈ within loop → ∀ direction,
    ((List.range (stopList db timeline loop).length).map fun k =>
      ((stepNoPause db direction)^[k + 1] self).time).Perm
        ((stopList db timeline loop).map some)
  undo : ∀ self c, At self timeline loop c → c ∈ stops db timeline loop →
    ((self.stepTimeFwdNoPause db).stepTimeBackNoPause db).time = some c

/-- No data time is missed at the bounds of the loop, or at the ends of the recording. -/
def BoundsClear (db : EntityDb) (timeline : TimelineName) : Option AbsoluteTimeRangeF → Prop
  | some loop =>
    ¬ (loop.min ∈ instants db timeline ∧ ∃ t ∈ instants db timeline, loop.min < t) ∧
    ¬ (loop.max ∈ instants db timeline ∧ ∃ t ∈ instants db timeline, t < loop.max) ∧
    ¬ (loop.min < .ofTimeInt .MIN ∧ TimeReal.ofTimeInt .MIN ∈ instants db timeline) ∧
    ¬ (.ofTimeInt .MAX < loop.max ∧ TimeReal.ofTimeInt .MAX ∈ instants db timeline)
  | none =>
    (∃ range, db.timeRangeFor timeline = some range ∧ range.min ∈ db.store.dataTimes timeline ∧
      range.max ∈ db.store.dataTimes timeline) ∧
    ¬ (TimeReal.ofTimeInt .MIN ∈ instants db timeline ∧
      ∃ t ∈ instants db timeline, .ofTimeInt .MIN < t) ∧
    ¬ (TimeReal.ofTimeInt .MAX ∈ instants db timeline ∧
      ∃ t ∈ instants db timeline, t < .ofTimeInt .MAX)

-- ---------------------------------------------------------------------------
-- One step
-- ---------------------------------------------------------------------------

section Steps

variable {db : EntityDb} {self : TimeControl} {timeline : TimelineName}
  {loop : Option AbsoluteTimeRangeF} {c t : TimeReal}

theorem state?_modifyState (self : TimeControl) (f : TimeState → TimeState) :
    (self.modifyState f).state? = self.state?.map f := by
  rw [state?, modifyState, timelineName, OrdMap.getElem?_modify]
  simp [state?, timelineName]

theorem At.modifyTime (h : At self timeline loop c) (t : TimeReal) :
    At (self.modifyState ({ · with time := t })) timeline loop t := by
  have hstate := state?_modifyState self ({ · with time := t })
  obtain ⟨state, hs, -⟩ := Option.map_eq_some_iff.mp h.hasTime
  refine ⟨h.hasTimeline, ?_, ?_⟩
  · have hloop := h.hasLoop
    rw [activeLoopSelection, timeSelection, hs] at hloop
    rw [activeLoopSelection, timeSelection, hstate, hs]
    exact hloop
  · rw [time, hstate, hs]
    rfl

def findNext (db : EntityDb) (timeline : TimelineName) (c : TimeReal) : Option TimeReal :=
  (db.nextTimeOnTimeline timeline c.floor).map TimeReal.ofTimeInt

def findPrev (db : EntityDb) (timeline : TimelineName) (c : TimeReal) : Option TimeReal :=
  (db.prevTimeOnTimeline timeline c.ceil).map TimeReal.ofTimeInt

def firstTime (db : EntityDb) (timeline : TimelineName) : Option TimeReal :=
  (db.timeRangeFor timeline).map fun range => .ofTimeInt range.min

def lastTime (db : EntityDb) (timeline : TimelineName) : Option TimeReal :=
  (db.timeRangeFor timeline).map fun range => .ofTimeInt range.max

theorem newTimeFwd_eq (self : TimeControl) (db : EntityDb) (c : TimeReal) :
    self.newTimeFwd db c = step (findNext db self.timelineName)
      (self.activeLoopSelection.map fun r => (r.min, r.max)) (firstTime db self.timelineName) c := by
  rw [newTimeFwd]
  cases self.activeLoopSelection with
  | none =>
    simp only [Option.map_none, step, findNext]
    cases db.nextTimeOnTimeline self.timelineName c.floor <;> rfl
  | some r =>
    simp only [Option.map_some, step, findNext, Option.filter_map]
    change _ = some ((((db.nextTimeOnTimeline self.timelineName c.floor).filter
      (TimeReal.ofTimeInt · ≤ r.max)).map TimeReal.ofTimeInt).getD _)
    cases (db.nextTimeOnTimeline self.timelineName c.floor).filter
        (TimeReal.ofTimeInt · ≤ r.max) with
    | some next => rfl
    | none => cases db.nextTimeOnTimeline self.timelineName r.min.floor <;> rfl

theorem newTimeBack_eq (self : TimeControl) (db : EntityDb) (c : TimeReal) :
    self.newTimeBack db c = step (α := TimeRealᵒᵈ) (findPrev db self.timelineName)
      (self.activeLoopSelection.map fun r => (r.max, r.min)) (lastTime db self.timelineName) c := by
  rw [newTimeBack]
  cases self.activeLoopSelection with
  | none =>
    simp only [Option.map_none, step, findPrev]
    cases db.prevTimeOnTimeline self.timelineName c.ceil <;> rfl
  | some r =>
    simp only [Option.map_some, step, findPrev]
    change _ = some ((((db.prevTimeOnTimeline self.timelineName c.ceil).map
      TimeReal.ofTimeInt).filter (r.min ≤ ·)).getD _)
    rw [Option.filter_map]
    change _ = some ((((db.prevTimeOnTimeline self.timelineName c.ceil).filter
      (r.min ≤ TimeReal.ofTimeInt ·)).map TimeReal.ofTimeInt).getD _)
    cases (db.prevTimeOnTimeline self.timelineName c.ceil).filter
        (r.min ≤ TimeReal.ofTimeInt ·) with
    | some prev => rfl
    | none => cases db.prevTimeOnTimeline self.timelineName r.max.ceil <;> rfl

theorem At.stepFwd (h : At self timeline loop c) (ht : step (findNext db timeline)
    (loop.map fun r => (r.min, r.max)) (firstTime db timeline) c = some t) :
    At (self.stepTimeFwdNoPause db) timeline loop t := by
  have hnew : self.time.bind (self.newTimeFwd db) = some t := by
    rw [h.hasTime, Option.bind_some, newTimeFwd_eq, h.hasTimeline, h.hasLoop, ht]
  rw [stepTimeFwdNoPause, hnew]
  exact h.modifyTime t

theorem At.stepBack (h : At self timeline loop c) (ht : step (α := TimeRealᵒᵈ)
    (findPrev db timeline) (loop.map fun r => (r.max, r.min)) (lastTime db timeline) c = some t) :
    At (self.stepTimeBackNoPause db) timeline loop t := by
  have hnew : self.time.bind (self.newTimeBack db) = some t := by
    rw [h.hasTime, Option.bind_some, newTimeBack_eq, h.hasTimeline, h.hasLoop, ht]
  rw [stepTimeBackNoPause, hnew]
  exact h.modifyTime t

theorem finds_next (hdb : db.store.Consistent) (timeline : TimelineName) :
    Finds (findNext db timeline) (instants db timeline) (.ofTimeInt .MIN) := by
  refine Finds.of_image (fun _ _ => TimeReal.ofTimeInt_le)
    (fun c x => hdb.nextTime_eq_some_iff) (fun c => hdb.nextTime_eq_none_iff) (fun c x => ?_)
    fun x hx => TimeReal.ofTimeInt_le.mpr (hdb.temporal hx)
  exact and_congr_right fun hx => TimeReal.floor_lt_iff (hdb.temporal hx)

theorem finds_prev (hdb : db.store.Consistent) (timeline : TimelineName) :
    Finds (α := TimeRealᵒᵈ) (findPrev db timeline) (instants db timeline) (.ofTimeInt .MAX) := by
  refine Finds.of_image (α := TimeRealᵒᵈ) (γ := TimeIntᵒᵈ) (fun _ _ => TimeReal.ofTimeInt_le)
    (fun c x => hdb.prevTime_eq_some_iff) (fun c => hdb.prevTime_eq_none_iff) (fun c x => ?_)
    fun x hx => TimeReal.ofTimeInt_le.mpr (TimeInt.le_MAX x)
  exact and_congr_right fun hx => TimeReal.lt_ceil_iff (hdb.temporal hx)

-- ---------------------------------------------------------------------------
-- Steps of cursors and steps of controls
-- ---------------------------------------------------------------------------

def StepsForward (db : EntityDb) (timeline : TimelineName) (loop : Option AbsoluteTimeRangeF) :
    Prop :=
  ∀ c ∈ within loop, ∃ t, step (findNext db timeline) (loop.map fun r => (r.min, r.max))
    (firstTime db timeline) c = some t ∧ IsNext (stops db timeline loop) c t

def StepsBackward (db : EntityDb) (timeline : TimelineName) (loop : Option AbsoluteTimeRangeF) :
    Prop :=
  ∀ c ∈ within loop, ∃ t, step (α := TimeRealᵒᵈ) (findPrev db timeline)
    (loop.map fun r => (r.max, r.min)) (lastTime db timeline) c = some t ∧
      IsPrev (stops db timeline loop) c t

def withCursor (timeline : TimelineName) (loop : Option AbsoluteTimeRangeF) (c : TimeReal) :
    TimeControl where
  timeline := .pending timeline
  states := (∅ : TreeMap TimelineName TimeState).insert timeline { time := c, timeSelection := loop }
  loopMode := .selection

theorem at_withCursor (timeline : TimelineName) (loop : Option AbsoluteTimeRangeF)
    (c : TimeReal) : At (withCursor timeline loop c) timeline loop c := by
  have hstate : (withCursor timeline loop c).state? =
      some { time := c, timeSelection := loop } := by
    rw [state?, withCursor, timelineName, ActiveTimeline.name, TreeMap.getElem?_insert_self]
  refine ⟨rfl, ?_, ?_⟩
  · rw [activeLoopSelection, timeSelection, hstate]
    rfl
  · rw [time, hstate]
    rfl

theorem StepsForward.at (h : StepsForward db timeline loop) (hat : At self timeline loop c)
    (hc : c ∈ within loop) : ∃ t, At (self.stepTimeFwdNoPause db) timeline loop t ∧
      IsNext (stops db timeline loop) c t := by
  obtain ⟨t, ht, hnext⟩ := h c hc
  exact ⟨t, hat.stepFwd ht, hnext⟩

theorem StepsBackward.at (h : StepsBackward db timeline loop) (hat : At self timeline loop c)
    (hc : c ∈ within loop) : ∃ t, At (self.stepTimeBackNoPause db) timeline loop t ∧
      IsPrev (stops db timeline loop) c t := by
  obtain ⟨t, ht, hprev⟩ := h c hc
  exact ⟨t, hat.stepBack ht, hprev⟩

theorem exists_range (hdb : db.store.Consistent) (hne : (stops db timeline loop).Nonempty) :
    ∃ range, db.timeRangeFor timeline = some range := by
  obtain ⟨_, ⟨d, hd, -⟩, -⟩ := hne
  exact (hdb.mem_timeRange hd).imp fun _ h => h.1

theorem stepsForward_of (hdb : db.store.Consistent) (hne : (stops db timeline loop).Nonempty)
    (h : ∀ self c, At self timeline loop c → c ∈ within loop →
      ∃ t, (self.stepTimeFwdNoPause db).time = some t ∧ IsNext (stops db timeline loop) c t) :
    StepsForward db timeline loop := by
  intro c hc
  have hat := at_withCursor timeline loop c
  obtain ⟨t, ht, hnext⟩ := h _ c hat hc
  cases hstep : step (findNext db timeline) (loop.map fun r => (r.min, r.max))
      (firstTime db timeline) c with
  | none =>
    obtain ⟨range, hrange⟩ := exists_range hdb hne
    cases loop with
    | none => simp [step, firstTime, hrange] at hstep
    | some r => simp [step] at hstep
  | some t' =>
    have htime := (hat.stepFwd hstep).hasTime
    rw [ht] at htime
    exact ⟨t', rfl, Option.some.inj htime ▸ hnext⟩

theorem stepsBackward_of (hdb : db.store.Consistent) (hne : (stops db timeline loop).Nonempty)
    (h : ∀ self c, At self timeline loop c → c ∈ within loop →
      ∃ t, (self.stepTimeBackNoPause db).time = some t ∧ IsPrev (stops db timeline loop) c t) :
    StepsBackward db timeline loop := by
  intro c hc
  have hat := at_withCursor timeline loop c
  obtain ⟨t, ht, hprev⟩ := h _ c hat hc
  cases hstep : step (α := TimeRealᵒᵈ) (findPrev db timeline)
      (loop.map fun r => (r.max, r.min)) (lastTime db timeline) c with
  | none =>
    obtain ⟨range, hrange⟩ := exists_range hdb hne
    cases loop with
    | none =>
      simp only [Option.map_none, step, lastTime, hrange] at hstep
      cases (Option.or_eq_none_iff.mp hstep).2
    | some r => simp [step] at hstep
  | some t' =>
    have htime := (hat.stepBack hstep).hasTime
    rw [ht] at htime
    exact ⟨t', rfl, Option.some.inj htime ▸ hprev⟩

-- ---------------------------------------------------------------------------
-- When the bounds are clear
-- ---------------------------------------------------------------------------

theorem isLeast_first_iff (hdb : db.store.Consistent) {range : AbsoluteTimeRange}
    (hrange : db.timeRangeFor timeline = some range) :
    IsLeast (instants db timeline) (.ofTimeInt range.min) ↔
      range.min ∈ db.store.dataTimes timeline := by
  constructor
  · rintro ⟨⟨d, hd, he⟩, -⟩
    exact TimeReal.ofTimeInt_inj.mp he ▸ hd
  · refine fun h => ⟨⟨_, h, rfl⟩, ?_⟩
    rintro _ ⟨d, hd, rfl⟩
    obtain ⟨range', hr, hcontains⟩ := hdb.mem_timeRange hd
    obtain rfl := Option.some.inj (hrange.symm.trans hr)
    exact TimeReal.ofTimeInt_le.mpr (AbsoluteTimeRange.contains_iff.mp hcontains).1

theorem isGreatest_last_iff (hdb : db.store.Consistent) {range : AbsoluteTimeRange}
    (hrange : db.timeRangeFor timeline = some range) :
    IsGreatest (instants db timeline) (.ofTimeInt range.max) ↔
      range.max ∈ db.store.dataTimes timeline := by
  constructor
  · rintro ⟨⟨d, hd, he⟩, -⟩
    exact TimeReal.ofTimeInt_inj.mp he ▸ hd
  · refine fun h => ⟨⟨_, h, rfl⟩, ?_⟩
    rintro _ ⟨d, hd, rfl⟩
    obtain ⟨range', hr, hcontains⟩ := hdb.mem_timeRange hd
    obtain rfl := Option.some.inj (hrange.symm.trans hr)
    exact TimeReal.ofTimeInt_le.mpr (AbsoluteTimeRange.contains_iff.mp hcontains).2

theorem exists_isGreatest (hne : (instants db timeline).Nonempty) :
    ∃ t, IsGreatest (instants db timeline) t := by
  have hfin := (List.finite_toSet (db.store.dataTimes timeline)).image TimeReal.ofTimeInt
  obtain ⟨t, ht, hle⟩ := Set.exists_max_image (instants db timeline) id hfin hne
  exact ⟨t, ht, hle⟩

theorem exists_isLeast (hne : (instants db timeline).Nonempty) :
    ∃ t, IsLeast (instants db timeline) t := by
  have hfin := (List.finite_toSet (db.store.dataTimes timeline)).image TimeReal.ofTimeInt
  obtain ⟨t, ht, hle⟩ := Set.exists_min_image (instants db timeline) id hfin hne
  exact ⟨t, ht, hle⟩

theorem saturating_lt_MIN : TimeReal.saturating i128Min < .ofTimeInt .MIN := by
  decide

theorem MAX_lt_saturating : .ofTimeInt .MAX < TimeReal.saturating i128Max := by
  decide

theorem stops_none : stops db timeline none = instants db timeline := Set.inter_univ _

theorem stops_some_dual (r : AbsoluteTimeRangeF) : stops db timeline (some r) =
    instants db timeline ∩ Set.Icc (α := TimeRealᵒᵈ) r.max r.min :=
  congrArg _ (Set.ext fun _ => and_comm)

theorem stepsForward_some_iff (hdb : db.store.Consistent) {r : AbsoluteTimeRangeF}
    (hne : (stops db timeline (some r)).Nonempty) : StepsForward db timeline (some r) ↔
      ¬ (r.min ∈ instants db timeline ∧ ∃ t ∈ instants db timeline, r.min < t) ∧
      ¬ (r.min < .ofTimeInt .MIN ∧ TimeReal.ofTimeInt .MIN ∈ instants db timeline) := by
  constructor
  · intro h
    exact (finds_next hdb timeline).loop_of_isNext hne fun c hfirst hlast => h c ⟨hfirst, hlast⟩
  · rintro ⟨hfirst, hedge⟩ c hc
    exact (finds_next hdb timeline).isNext_loop hne hfirst hedge hc.1

theorem stepsBackward_some_iff (hdb : db.store.Consistent) {r : AbsoluteTimeRangeF}
    (hne : (stops db timeline (some r)).Nonempty) : StepsBackward db timeline (some r) ↔
      ¬ (r.max ∈ instants db timeline ∧ ∃ t ∈ instants db timeline, t < r.max) ∧
      ¬ (.ofTimeInt .MAX < r.max ∧ TimeReal.ofTimeInt .MAX ∈ instants db timeline) := by
  rw [stops_some_dual] at hne
  constructor
  · intro h
    rw [StepsBackward, stops_some_dual] at h
    exact (finds_prev hdb timeline).loop_of_isNext hne fun c hlast hfirst => h c ⟨hfirst, hlast⟩
  · rintro ⟨hlast, hedge⟩ c hc
    rw [stops_some_dual]
    exact (finds_prev hdb timeline).isNext_loop hne hlast hedge hc.2

theorem stepsForward_none_iff (hdb : db.store.Consistent)
    (hne : (stops db timeline none).Nonempty) : StepsForward db timeline none ↔
      (∃ t, firstTime db timeline = some t ∧ IsLeast (instants db timeline) t) ∧
      ¬ (TimeReal.ofTimeInt .MIN ∈ instants db timeline ∧
        ∃ t ∈ instants db timeline, .ofTimeInt .MIN < t) := by
  rw [StepsForward, stops_none]
  rw [stops_none] at hne
  constructor
  · intro h
    obtain ⟨last, hlast⟩ := exists_isGreatest hne
    exact (finds_next hdb timeline).free_of_isNext hlast saturating_lt_MIN fun c => h c trivial
  · rintro ⟨⟨first, hstart, hleast⟩, hedge⟩ c -
    rw [hstart]
    exact (finds_next hdb timeline).isNext_free hleast hedge c

theorem stepsBackward_none_iff (hdb : db.store.Consistent)
    (hne : (stops db timeline none).Nonempty) : StepsBackward db timeline none ↔
      (∃ t, lastTime db timeline = some t ∧ IsGreatest (instants db timeline) t) ∧
      ¬ (TimeReal.ofTimeInt .MAX ∈ instants db timeline ∧
        ∃ t ∈ instants db timeline, t < .ofTimeInt .MAX) := by
  rw [StepsBackward, stops_none]
  rw [stops_none] at hne
  constructor
  · intro h
    obtain ⟨first, hfirst⟩ := exists_isLeast hne
    exact (finds_prev hdb timeline).free_of_isNext hfirst MAX_lt_saturating fun c => h c trivial
  · rintro ⟨⟨last, hstart, hgreatest⟩, hedge⟩ c -
    rw [hstart]
    exact (finds_prev hdb timeline).isNext_free hgreatest hedge c

theorem ends_iff (hdb : db.store.Consistent) :
    (∃ range, db.timeRangeFor timeline = some range ∧ range.min ∈ db.store.dataTimes timeline ∧
      range.max ∈ db.store.dataTimes timeline) ↔
    (∃ t, firstTime db timeline = some t ∧ IsLeast (instants db timeline) t) ∧
      ∃ t, lastTime db timeline = some t ∧ IsGreatest (instants db timeline) t := by
  rw [firstTime, lastTime]
  cases hrange : db.timeRangeFor timeline with
  | none => simp
  | some range =>
    simp only [Option.map_some, Option.some.injEq, exists_eq_left']
    rw [isLeast_first_iff hdb hrange, isGreatest_last_iff hdb hrange]

/-- Steps of cursors are in turn just if the bounds are clear. -/
theorem steps_iff (hdb : db.store.Consistent) (hne : (stops db timeline loop).Nonempty) :
    StepsForward db timeline loop ∧ StepsBackward db timeline loop ↔
      BoundsClear db timeline loop := by
  cases loop with
  | some r =>
    rw [stepsForward_some_iff hdb hne, stepsBackward_some_iff hdb hne, BoundsClear]
    tauto
  | none =>
    rw [stepsForward_none_iff hdb hne, stepsBackward_none_iff hdb hne, BoundsClear, ends_iff hdb]
    tauto

-- ---------------------------------------------------------------------------
-- What follows for runs of steps
-- ---------------------------------------------------------------------------

theorem mem_stopList : t ∈ stopList db timeline loop ↔ t ∈ stops db timeline loop := by
  rw [stopList, Finset.mem_sort, List.mem_toFinset, List.mem_filter, List.mem_map, stops]
  refine and_congr (by rfl) ?_
  cases loop with
  | none => simp [within]
  | some r => simp [within, AbsoluteTimeRangeF.contains]

theorem At.stepNoPause (hf : StepsForward db timeline loop) (hb : StepsBackward db timeline loop)
    (hat : At self timeline loop c) (hc : c ∈ within loop) (direction : MoveDirection) :
    ∃ t ∈ within loop, At (self.stepNoPause db direction) timeline loop t := by
  cases direction with
  | back =>
    obtain ⟨t, hat', hprev⟩ := hb.at hat hc
    exact ⟨t, (isPrev_iff_dual.mp hprev).mem.2, hat'⟩
  | forward =>
    obtain ⟨t, hat', hnext⟩ := hf.at hat hc
    exact ⟨t, hnext.mem.2, hat'⟩

theorem At.foldl_stepNoPause (hf : StepsForward db timeline loop)
    (hb : StepsBackward db timeline loop) (hat : At self timeline loop c) (hc : c ∈ within loop)
    (directions : List MoveDirection) : ∃ t ∈ within loop,
      At (directions.foldl (fun self d => self.stepNoPause db d) self) timeline loop t := by
  induction directions generalizing self c with
  | nil => exact ⟨c, hc, hat⟩
  | cons d rest ih =>
    obtain ⟨t, ht, hat'⟩ := hat.stepNoPause hf hb hc d
    exact ih hat' ht

theorem At.iterate (hf : StepsForward db timeline loop) (hb : StepsBackward db timeline loop)
    (hat : At self timeline loop c) (hc : c ∈ within loop) (direction : MoveDirection) (k : Nat) :
    ∃ t ∈ within loop, At ((TimeControl.stepNoPause db direction)^[k] self) timeline loop t := by
  induction k generalizing self c with
  | zero => exact ⟨c, hc, hat⟩
  | succ k ih =>
    obtain ⟨t, ht, hat'⟩ := hat.stepNoPause hf hb hc direction
    exact ih hat' ht

theorem setOf_mem_stopList :
    {t | t ∈ stopList db timeline loop} = stops db timeline loop :=
  Set.ext fun _ => mem_stopList

theorem stopList_pairwise (db : EntityDb) (timeline : TimelineName)
    (loop : Option AbsoluteTimeRangeF) : (stopList db timeline loop).Pairwise (· < ·) :=
  (Finset.sortedLT_sort _).pairwise

theorem visits_of {cursor : Nat → TimeReal} {direction : MoveDirection} {l : List TimeReal}
    (hcursor : ∀ k, At ((stepNoPause db direction)^[k] self) timeline loop (cursor k))
    (hperm : ((List.range l.length).map fun k => cursor (k + 1)).Perm l) :
    ((List.range l.length).map fun k =>
      ((stepNoPause db direction)^[k + 1] self).time).Perm (l.map some) := by
  have hmap := hperm.map some
  rw [List.map_map] at hmap
  refine (List.map_congr_left fun k _ => ?_) ▸ hmap
  exact (hcursor (k + 1)).hasTime.symm

theorem visits_forward (hf : StepsForward db timeline loop) (hb : StepsBackward db timeline loop)
    (hat : At self timeline loop c) (hc : c ∈ within loop) :
    ((List.range (stopList db timeline loop).length).map fun k =>
      ((stepNoPause db .forward)^[k + 1] self).time).Perm ((stopList db timeline loop).map some) := by
  choose cursor hmem hcursor using fun k => hat.iterate hf hb hc .forward k
  refine visits_of hcursor (CyclicSteps.visits_perm (stopList_pairwise ..) fun k _ => ?_)
  obtain ⟨t, hat', hnext⟩ := hf.at (hcursor k) (hmem k)
  have htime := (hcursor (k + 1)).hasTime
  rw [Function.iterate_succ_apply'] at htime
  rw [setOf_mem_stopList, ← Option.some.inj (hat'.hasTime.symm.trans htime)]
  exact hnext

theorem visits_back (hf : StepsForward db timeline loop) (hb : StepsBackward db timeline loop)
    (hat : At self timeline loop c) (hc : c ∈ within loop) :
    ((List.range (stopList db timeline loop).length).map fun k =>
      ((stepNoPause db .back)^[k + 1] self).time).Perm ((stopList db timeline loop).map some) := by
  choose cursor hmem hcursor using fun k => hat.iterate hf hb hc .back k
  refine visits_of hcursor (CyclicSteps.visits_perm_back (stopList_pairwise ..) fun k _ => ?_)
  obtain ⟨t, hat', hprev⟩ := hb.at (hcursor k) (hmem k)
  have htime := (hcursor (k + 1)).hasTime
  rw [Function.iterate_succ_apply'] at htime
  rw [setOf_mem_stopList, ← Option.some.inj (hat'.hasTime.symm.trans htime)]
  exact hprev

theorem stepsInTurn_of (hf : StepsForward db timeline loop)
    (hb : StepsBackward db timeline loop) : StepsInTurn db timeline loop where
  forward self c hat hc := by
    obtain ⟨t, hat', hnext⟩ := hf.at hat hc
    exact ⟨t, hat'.hasTime, hnext⟩
  back self c hat hc := by
    obtain ⟨t, hat', hprev⟩ := hb.at hat hc
    exact ⟨t, hat'.hasTime, hprev⟩
  stays self c hat hc directions := by
    obtain ⟨t, ht, hat'⟩ := hat.foldl_stepNoPause hf hb hc directions
    exact ⟨t, ht, hat'.hasTime⟩
  visits self c hat hc direction := by
    cases direction with
    | back => exact visits_back hf hb hat hc
    | forward => exact visits_forward hf hb hat hc
  undo self c hat hc := by
    obtain ⟨t, hat', hnext⟩ := hf.at hat hc.2
    obtain ⟨t', hat'', hprev⟩ := hb.at hat' hnext.mem.2
    rw [hat''.hasTime, (isPrev_iff_dual.mp hprev).unique (isPrev_iff_dual.mp (hnext.undo hc))]

/-- Steps visit every data time in turn just if no data time is missed at the bounds. -/
theorem stepsInTurn_iff (hdb : db.store.Consistent) (hne : (stops db timeline loop).Nonempty) :
    StepsInTurn db timeline loop ↔ BoundsClear db timeline loop := by
  rw [← steps_iff hdb hne]
  constructor
  · exact fun h => ⟨stepsForward_of hdb hne h.forward, stepsBackward_of hdb hne h.back⟩
  · exact fun ⟨hf, hb⟩ => stepsInTurn_of hf hb

end Steps

-- ---------------------------------------------------------------------------
-- Data on the bounds of a loop
-- ---------------------------------------------------------------------------

def twoTimes : EntityDb where
  store := ChunkStore.run .plain .COMPACTION_DISABLED
    [.insertChunk (.single 1 1 0), .insertChunk (.single 2 2 10)]
  timelines := ∅
  numTemporalRowsOnTimeline _ := 2

theorem twoTimes_consistent : twoTimes.store.Consistent := by
  refine ChunkStore.consistent_of_reached
    (ChunkStore.reached_run ⟨⟨?_, ?_, trivial, trivial⟩, ⟨?_, ?_, trivial, trivial⟩, trivial⟩)
  · decide
  · exact Env.plain_not_future (by decide) _
  · decide
  · exact Env.plain_not_future (by decide) _

def bothTimes : AbsoluteTimeRangeF := .ofRange ⟨.newTemporal 0, .newTemporal 10⟩

def aroundTimes : AbsoluteTimeRangeF := .ofRange ⟨.newTemporal (-5), .newTemporal 15⟩

theorem stepsInTurn_twoTimes : StepsInTurn twoTimes "t" (some aroundTimes) := by
  have hne : (stops twoTimes "t" (some aroundTimes)).Nonempty :=
    ⟨.ofTimeInt (.newTemporal 0), ⟨_, by decide, rfl⟩, by constructor <;> decide⟩
  refine (stepsInTurn_iff twoTimes_consistent hne).mpr ⟨?_, ?_, ?_, ?_⟩
  · rintro ⟨⟨d, hd, he⟩, -⟩
    rw [TimeReal.ofTimeInt_inj.mp he] at hd
    revert hd
    decide
  · rintro ⟨⟨d, hd, he⟩, -⟩
    rw [TimeReal.ofTimeInt_inj.mp he] at hd
    revert hd
    decide
  · exact fun h => absurd h.1 (by decide)
  · exact fun h => absurd h.1 (by decide)

/-- With data on both bounds of the loop, the step from the last does not reach the first. -/
theorem bothTimes_not_inTurn : twoTimes.store.Consistent ∧
    (stops twoTimes "t" (some bothTimes)).Nonempty ∧
      ¬ StepsInTurn twoTimes "t" (some bothTimes) := by
  have hfirst : bothTimes.min ∈ stops twoTimes "t" (some bothTimes) :=
    ⟨⟨.newTemporal 0, by decide, rfl⟩, by constructor <;> decide⟩
  refine ⟨twoTimes_consistent, ⟨_, hfirst⟩, fun h => ?_⟩
  obtain ⟨t, ht, hnext⟩ := h.forward _ bothTimes.max (at_withCursor "t" (some bothTimes) _)
    (by constructor <;> decide)
  have htime : (stepTimeFwdNoPause (withCursor "t" (some bothTimes) bothTimes.max)
    twoTimes).time = some bothTimes.max := by decide
  obtain rfl := Option.some.inj (htime.symm.trans ht)
  rcases hnext with hn | hn
  · exact lt_irrefl _ hn.1.2
  · exact absurd (hn.2.2 hfirst) (by decide)

end TimeControl

end DimosViewer
