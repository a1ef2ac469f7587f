import DimosViewer.Store.NextTime
import DimosViewer.Time

/-!
# Times with a fraction

A `TimeReal` is a fixed-point number, with 64 bits before and 64 bits after the point.
Rounding to a `TimeInt` never gives the static time, so the least numbers round to a
time that is greater.
-/

namespace DimosViewer

def i128Min : Int := -2 ^ 127
def i128Max : Int := 2 ^ 127 - 1

/-- `bits` is the number times `2 ^ 64`. -/
structure TimeReal where
  bits : Int
  lower : i128Min ≤ bits
  upper : bits ≤ i128Max

namespace TimeReal

theorem bits_injective : Function.Injective bits := by
  rintro ⟨a, _, _⟩ ⟨b, _, _⟩ h
  cases h
  rfl

instance : LinearOrder TimeReal := LinearOrder.lift' bits bits_injective

@[ext] theorem ext {a b : TimeReal} (h : a.bits = b.bits) : a = b := bits_injective h

theorem le_iff {a b : TimeReal} : a ≤ b ↔ a.bits ≤ b.bits := Iff.rfl

theorem lt_iff {a b : TimeReal} : a < b ↔ a.bits < b.bits := Iff.rfl

def saturating (bits : Int) : TimeReal :=
  ⟨max i128Min (min i128Max bits), by unfold i128Min; omega, by unfold i128Min i128Max; omega⟩

instance : Inhabited TimeReal := ⟨saturating 0⟩

def add (a b : TimeReal) : TimeReal := saturating (a.bits + b.bits)

def ofInt (integer : Int) : TimeReal := saturating (integer * 2 ^ 64)

def ofTimeInt (t : TimeInt) : TimeReal :=
  ⟨t.asI64 * 2 ^ 64, by have := t.lower; unfold i64Min at this; unfold i128Min; omega,
    by have := t.upper; unfold i64Max at this; unfold i128Max; omega⟩

def floor (t : TimeReal) : TimeInt := .newTemporal (t.bits / 2 ^ 64)

def ceil (t : TimeReal) : TimeInt := .newTemporal (-(-t.bits / 2 ^ 64))

-- ---------------------------------------------------------------------------
-- Rounding
-- ---------------------------------------------------------------------------

variable {a b : TimeInt} {t : TimeReal}

theorem bits_ofTimeInt (t : TimeInt) : (ofTimeInt t).bits = t.asI64 * 2 ^ 64 := rfl

@[simp] theorem ofTimeInt_le : ofTimeInt a ≤ ofTimeInt b ↔ a ≤ b := by
  rw [le_iff, TimeInt.le_iff, bits_ofTimeInt, bits_ofTimeInt]
  omega

@[simp] theorem ofTimeInt_inj : ofTimeInt a = ofTimeInt b ↔ a = b := by
  rw [TimeReal.ext_iff, TimeInt.ext_iff, bits_ofTimeInt, bits_ofTimeInt]
  omega

theorem floor_lt_iff (hb : TimeInt.MIN ≤ b) :
    t.floor < b ↔ t < ofTimeInt b ∧ ¬ (t < ofTimeInt .MIN ∧ ofTimeInt b = ofTimeInt .MIN) := by
  rw [ofTimeInt_inj]
  have hl := t.lower
  have hu := t.upper
  have hbu := b.upper
  rw [TimeInt.le_iff] at hb
  rw [TimeInt.lt_iff, lt_iff, lt_iff, TimeInt.ext_iff, floor, TimeInt.newTemporal_asI64,
    bits_ofTimeInt, bits_ofTimeInt]
  simp only [TimeInt.MIN, i64Min, i64Max, i128Min, i128Max] at *
  omega

theorem lt_ceil_iff (hb : TimeInt.MIN ≤ b) :
    b < t.ceil ↔ ofTimeInt b < t ∧ ¬ (ofTimeInt .MAX < t ∧ ofTimeInt b = ofTimeInt .MAX) := by
  rw [ofTimeInt_inj]
  have hl := t.lower
  have hu := t.upper
  have hbu := b.upper
  rw [TimeInt.le_iff] at hb
  rw [TimeInt.lt_iff, lt_iff, lt_iff, TimeInt.ext_iff, ceil, TimeInt.newTemporal_asI64,
    bits_ofTimeInt, bits_ofTimeInt]
  simp only [TimeInt.MIN, TimeInt.MAX, i64Min, i64Max, i128Min, i128Max] at *
  omega

end TimeReal

-- ---------------------------------------------------------------------------
-- Ranges
-- ---------------------------------------------------------------------------

structure AbsoluteTimeRangeF where
  min : TimeReal
  max : TimeReal
deriving DecidableEq, Inhabited

namespace AbsoluteTimeRangeF

def ofRange (r : AbsoluteTimeRange) : AbsoluteTimeRangeF := ⟨.ofTimeInt r.min, .ofTimeInt r.max⟩

def toInt (r : AbsoluteTimeRangeF) : AbsoluteTimeRange := .new r.min.floor r.max.ceil

def contains (r : AbsoluteTimeRangeF) (t : TimeReal) : Bool := r.min ≤ t ∧ t ≤ r.max

end AbsoluteTimeRangeF

end DimosViewer

/-!
## The time control

The cursor, the play state and the loop of every timeline, the commands that change
them, and the blueprint that the same state is read from and written to.
-/

namespace DimosViewer

open Std (TreeMap)

/-- What the time control asks of a recording. -/
structure EntityDb where
  store : ChunkStore
  timelines : TreeMap TimelineName Timeline
  numTemporalRowsOnTimeline : TimelineName → Nat

namespace EntityDb

def timeRangeFor (db : EntityDb) (timeline : TimelineName) : Option AbsoluteTimeRange :=
  db.store.timeRange timeline

def nextTimeOnTimeline (db : EntityDb) (timeline : TimelineName) (after : TimeInt) :
    Option TimeInt :=
  db.store.nextTimeOnTimeline timeline after

def prevTimeOnTimeline (db : EntityDb) (timeline : TimelineName) (before : TimeInt) :
    Option TimeInt :=
  db.store.prevTimeOnTimeline timeline before

end EntityDb

-- ---------------------------------------------------------------------------
-- The blueprint
-- ---------------------------------------------------------------------------

inductive PlayState where
  | paused
  | playing
  | following
deriving DecidableEq

inductive LoopMode where
  | off
  | selection
  | all
deriving DecidableEq

inductive NeedsRepaint where
  | yes
  | no
deriving DecidableEq

structure TimePanelBlueprint where
  timeline : Option TimelineName := none
  playbackSpeed : Option Float := none
  fps : Option Float := none
  playState : Option PlayState := none
  loopMode : Option LoopMode := none
  timeSelection : Option AbsoluteTimeRange := none

/-- What reads return, and what it will be once all writes have arrived. They arrive at
once, or with the next frame. -/
structure BlueprintContext where
  current : TimePanelBlueprint
  written : TimePanelBlueprint
  immediate : Bool

namespace BlueprintContext

def save (ctx : BlueprintContext) (write : TimePanelBlueprint → TimePanelBlueprint) :
    BlueprintContext :=
  let written := write ctx.written
  { ctx with written, current := if ctx.immediate then written else ctx.current }

def setTimeline (ctx : BlueprintContext) (timeline : TimelineName) : BlueprintContext :=
  ctx.save fun b => { b with timeline := some timeline }

def clearTimeline (ctx : BlueprintContext) : BlueprintContext :=
  ctx.save fun b => { b with timeline := none }

def setPlaybackSpeed (ctx : BlueprintContext) (playbackSpeed : Float) : BlueprintContext :=
  ctx.save fun b => { b with playbackSpeed := some playbackSpeed }

def setFps (ctx : BlueprintContext) (fps : Float) : BlueprintContext :=
  ctx.save fun b => { b with fps := some fps }

def setPlayState (ctx : BlueprintContext) (playState : PlayState) : BlueprintContext :=
  ctx.save fun b => { b with playState := some playState }

def setLoopMode (ctx : BlueprintContext) (loopMode : LoopMode) : BlueprintContext :=
  ctx.save fun b => { b with loopMode := some loopMode }

def setTimeSelection (ctx : BlueprintContext) (timeRange : AbsoluteTimeRange) :
    BlueprintContext :=
  ctx.save fun b => { b with timeSelection := some timeRange }

def clearTimeSelection (ctx : BlueprintContext) : BlueprintContext :=
  ctx.save fun b => { b with timeSelection := none }

def timeSelection (ctx : BlueprintContext) : Option AbsoluteTimeRange :=
  ctx.current.timeSelection.map fun r => .new r.min r.max

/-- The part of `set_play_state` that writes to the blueprint. -/
def updatePlayState (ctx : BlueprintContext) (playState : PlayState) : BlueprintContext :=
  if some playState = ctx.current.playState then ctx else ctx.setPlayState playState

end BlueprintContext

namespace Timeline

def logTime : Timeline := ⟨"log_time", .timestampNs⟩
def logTick : Timeline := ⟨"log_tick", .sequence⟩

def priority (timeline : Timeline) : Nat :=
  if timeline.name = "message_log_time" then 3
  else if timeline = logTick then 0
  else if timeline = logTime then 1
  else 2

/-- `max_by`, which returns the last of the greatest. -/
def pickBestTimeline (timelines : List Timeline) (score : Timeline → Nat) : Timeline :=
  let key (t : Timeline) : Nat ×ₗ Nat := toLex (t.priority, score t)
  (timelines.foldl (fun best t =>
    match best with
    | none => some t
    | some b => if key t < key b then some b else some t) none).getD logTime

end Timeline

-- ---------------------------------------------------------------------------
-- The state
-- ---------------------------------------------------------------------------

structure TimeView where
  min : TimeReal
  timeSpanned : Float

structure TimeState where
  time : TimeReal
  lastPausedTime : Option TimeReal := none
  fps : Float32 := 30.0
  timeSelection : Option AbsoluteTimeRangeF := none
  view : Option TimeView := none

instance : Inhabited TimeState := ⟨{ time := default }⟩

inductive ActiveTimeline where
  | auto (timeline : Timeline)
  | userEdited (timeline : Timeline)
  | pending (name : TimelineName)
deriving DecidableEq

namespace ActiveTimeline

def name : ActiveTimeline → TimelineName
  | .auto timeline | .userEdited timeline => timeline.name
  | .pending name => name

def timeline? : ActiveTimeline → Option Timeline
  | .auto timeline | .userEdited timeline => some timeline
  | .pending _ => none

def isAuto : ActiveTimeline → Bool
  | .auto _ => true
  | .userEdited _ | .pending _ => false

end ActiveTimeline

/-- `following` is ignored while `playing` is false. -/
structure TimeControl where
  timeline : ActiveTimeline := .auto (Timeline.pickBestTimeline [] fun _ => 0)
  states : TreeMap TimelineName TimeState := ∅
  playing : Bool := true
  following : Bool := true
  waitForData : Bool := true
  speed : Float32 := 1.0
  loopMode : LoopMode := .off
  highlightedRange : Option AbsoluteTimeRange := none

namespace TimeControl

def timelineName (self : TimeControl) : TimelineName := self.timeline.name

def state? (self : TimeControl) : Option TimeState := self.states[self.timelineName]?

def time (self : TimeControl) : Option TimeReal := self.state?.map (·.time)

def timeInt (self : TimeControl) : Option TimeInt := self.time.map (·.floor)

def timeType (self : TimeControl) : Option TimeType := self.timeline.timeline?.map (·.typ)

def playState (self : TimeControl) : PlayState :=
  if self.playing then if self.following then .following else .playing else .paused

def timeSelection (self : TimeControl) : Option AbsoluteTimeRangeF :=
  self.state?.bind (·.timeSelection)

def activeLoopSelection (self : TimeControl) : Option AbsoluteTimeRangeF :=
  if self.loopMode = .selection then self.timeSelection else none

def modifyState (self : TimeControl) (f : TimeState → TimeState) : TimeControl :=
  { self with states := self.states.modify self.timelineName f }

/-- Changes the state of the active timeline, which is made up if there is none. -/
def entryState (self : TimeControl) (new : TimeState) (f : TimeState → TimeState) :
    TimeControl :=
  { self with states := self.states.alter self.timelineName fun s? => some (f (s?.getD new)) }

def setTimeAdHoc (self : TimeControl) (time : TimeReal) : TimeControl :=
  self.entryState { time } ({ · with time })

-- ---------------------------------------------------------------------------
-- Play state
-- ---------------------------------------------------------------------------

/-- Start from beginning if we are at the end. -/
def startIfAtEnd (self : TimeControl) (entityDb : Option EntityDb) : TimeControl :=
  match entityDb.bind (·.timeRangeFor self.timelineName) with
  | none => self
  | some range =>
    match self.state? with
    | some state =>
      if TimeReal.ofTimeInt range.max ≤ state.time then
        self.modifyState ({ · with time := .ofTimeInt range.min })
      else self
    | none => self.entryState { time := .ofTimeInt range.min } id

/-- The part of `set_play_state` that changes the control. -/
def setPlayStateOf (self : TimeControl) (entityDb : Option EntityDb) (playState : PlayState) :
    TimeControl :=
  match playState with
  | .paused => { self with playing := false }
  | .playing =>
    { self with playing := true, following := false, waitForData := true }.startIfAtEnd entityDb
  | .following =>
    let self := { self with playing := true, following := true }
    match entityDb.bind (·.timeRangeFor self.timelineName) with
    | none => self
    | some range => self.setTimeAdHoc (.ofTimeInt range.max)

def setPlayState (self : TimeControl) (entityDb : Option EntityDb) (playState : PlayState)
    (ctx : Option BlueprintContext) : TimeControl × Option BlueprintContext :=
  (self.setPlayStateOf entityDb playState, ctx.map (·.updatePlayState playState))

/-- If following, switch to playing. Otherwise keep the current play state. -/
def exitFollowMode (self : TimeControl) (entityDb : EntityDb) (ctx : Option BlueprintContext) :
    TimeControl × Option BlueprintContext :=
  if self.following then self.setPlayState (some entityDb) .playing ctx else (self, ctx)

def pause (self : TimeControl) (ctx : Option BlueprintContext) :
    TimeControl × Option BlueprintContext :=
  ({ self with playing := false }.modifyState fun state =>
      { state with lastPausedTime := some state.time },
    ctx.map (·.setPlayState .paused))

def togglePlayPause (self : TimeControl) (entityDb : EntityDb) (ctx : Option BlueprintContext) :
    TimeControl × Option BlueprintContext :=
  if self.playing then self.pause ctx
  else
    let atEnd := do
      let range ← entityDb.timeRangeFor self.timelineName
      let state ← self.state?
      if TimeReal.ofTimeInt range.max ≤ state.time then some range else none
    match atEnd with
    | some range =>
      -- Returns without a write to the blueprint.
      ({ self with playing := true, following := false }.modifyState
        ({ · with time := .ofTimeInt range.min }), ctx)
    | none => self.setPlayState (some entityDb) .playing ctx

-- ---------------------------------------------------------------------------
-- Steps
-- ---------------------------------------------------------------------------

def newTimeBack (self : TimeControl) (entityDb : EntityDb) (time : TimeReal) : Option TimeReal :=
  let timeline := self.timelineName
  let prev := entityDb.prevTimeOnTimeline timeline time.ceil
  match self.activeLoopSelection with
  | some loopRange =>
    match prev.filter (loopRange.min ≤ TimeReal.ofTimeInt ·) with
    | some prev => some (.ofTimeInt prev)
    | none =>
      -- Wrap to end of loop
      match entityDb.prevTimeOnTimeline timeline loopRange.max.ceil with
      | some prevFromEnd => some (.ofTimeInt prevFromEnd)
      | none => some loopRange.max
  | none =>
    match prev with
    | some prev => some (.ofTimeInt prev)
    -- Wrap to the end
    | none => (entityDb.timeRangeFor timeline).map fun range => .ofTimeInt range.max

def stepTimeBackNoPause (self : TimeControl) (entityDb : EntityDb) : TimeControl :=
  match self.time.bind (self.newTimeBack entityDb) with
  | some newTime => self.modifyState ({ · with time := newTime })
  | none => self

def newTimeFwd (self : TimeControl) (entityDb : EntityDb) (time : TimeReal) : Option TimeReal :=
  let timeline := self.timelineName
  let next := entityDb.nextTimeOnTimeline timeline time.floor
  match self.activeLoopSelection with
  | some loopRange =>
    match next.filter (TimeReal.ofTimeInt · ≤ loopRange.max) with
    | some next => some (.ofTimeInt next)
    | none =>
      -- Wrap to start of loop
      match entityDb.nextTimeOnTimeline timeline loopRange.min.floor with
      | some nextFromStart => some (.ofTimeInt nextFromStart)
      | none => some loopRange.min
  | none =>
    match next with
    | some next => some (.ofTimeInt next)
    -- Wrap to the start
    | none => (entityDb.timeRangeFor timeline).map fun range => .ofTimeInt range.min

def stepTimeFwdNoPause (self : TimeControl) (entityDb : EntityDb) : TimeControl :=
  match self.time.bind (self.newTimeFwd entityDb) with
  | some newTime => self.modifyState ({ · with time := newTime })
  | none => self

def stepTimeBack (self : TimeControl) (entityDb : EntityDb) (ctx : Option BlueprintContext) :
    TimeControl × Option BlueprintContext :=
  let (self, ctx) := self.pause ctx
  (self.stepTimeBackNoPause entityDb, ctx)

def stepTimeFwd (self : TimeControl) (entityDb : EntityDb) (ctx : Option BlueprintContext) :
    TimeControl × Option BlueprintContext :=
  let (self, ctx) := self.pause ctx
  (self.stepTimeFwdNoPause entityDb, ctx)

inductive MoveDirection where
  | back
  | forward
deriving DecidableEq

inductive MoveSpeed where
  | normal
  | fast
deriving DecidableEq

/-- `nanos` is the whole number that `seconds` is in nanoseconds. -/
def moveByNanosTemporal (self : TimeControl) (entityDb : EntityDb) (nanos : Int) : TimeControl :=
  match self.time with
  | none => self
  | some time =>
    let newTime := time.add (.ofInt nanos)
    let range := self.timeSelection.or
      ((entityDb.timeRangeFor self.timelineName).map AbsoluteTimeRangeF.ofRange)
    let newTime :=
      match range with
      | none => newTime
      | some range =>
        if time = range.min ∧ newTime < range.min then range.max
        else if newTime < range.min then range.min
        else if time = range.max ∧ newTime > range.max then range.min
        else if newTime > range.max then range.max
        else newTime
    self.modifyState ({ · with time := newTime })

def moveTime (self : TimeControl) (entityDb : EntityDb) (ctx : Option BlueprintContext)
    (direction : MoveDirection) (speed : MoveSpeed) : TimeControl × Option BlueprintContext :=
  let (self, ctx) := self.exitFollowMode entityDb ctx
  match self.timeType with
  | some .sequence =>
    let steps := match speed with
      | .normal => 1
      | .fast => 10
    let step := match direction with
      | .back => fun self : TimeControl => self.stepTimeBackNoPause entityDb
      | .forward => fun self : TimeControl => self.stepTimeFwdNoPause entityDb
    (step^[steps] self, ctx)
  | some .durationNs | some .timestampNs =>
    let nanos := match direction, speed with
      | .back, .normal => -100000000
      | .forward, .normal => 100000000
      | .back, .fast => -1000000000
      | .forward, .fast => 1000000000
    (self.moveByNanosTemporal entityDb nanos, ctx)
  | none => (self, ctx)

end TimeControl

end DimosViewer
