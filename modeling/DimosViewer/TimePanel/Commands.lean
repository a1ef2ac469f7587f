import DimosViewer.TimePanel.TimeControl

/-!
# Time control commands and updates

What the commands do to the control and to the blueprint, how the control is read back
from the blueprint, and how an update moves the cursor.
-/

namespace DimosViewer

open Std (TreeMap)

namespace TimeControl

inductive Command where
  | highlightRange (range : AbsoluteTimeRange)
  | clearHighlightedRange
  | resetActiveTimeline
  | setActiveTimeline (timelineName : TimelineName)
  | setLoopMode (loopMode : LoopMode)
  | setPlayState (playState : PlayState)
  | pause
  | togglePlayPause
  | stepTimeBack
  | stepTimeForward
  | move (direction : MoveDirection) (speed : MoveSpeed)
  | moveBeginning
  | moveEnd
  | restart
  | setSpeed (speed : Float32)
  | setFps (fps : Float32)
  | setTimeSelection (timeRange : AbsoluteTimeRange)
  | removeTimeSelection
  | setTime (time : TimeReal)
  | setTimeView (timeView : TimeView)
  | resetTimeView

/-- An auto timeline is picked anew, a pending one waits for data. -/
def selectValidTimeline (self : TimeControl) (entityDb : EntityDb) : TimeControl :=
  let best := Timeline.pickBestTimeline entityDb.timelines.values fun t =>
    entityDb.numTemporalRowsOnTimeline t.name
  match self.timeline with
  | .auto _ => { self with timeline := .auto best }
  | .userEdited selected =>
    if entityDb.timelines.contains selected.name then self
    else { self with timeline := .auto best }
  | .pending name =>
    match entityDb.timelines[name]? with
    | some timeline => { self with timeline := .userEdited timeline }
    | none => self

-- ---------------------------------------------------------------------------
-- Commands
-- ---------------------------------------------------------------------------

def resetActiveTimeline (self : TimeControl) (entityDb : EntityDb) : TimeControl :=
  let self :=
    match self.timeline.timeline?.or entityDb.timelines.values.head? with
    | some timeline => { self with timeline := .auto timeline }
    | none => self
  self.selectValidTimeline entityDb

def setActiveTimeline (self : TimeControl) (entityDb : EntityDb) (ctx : Option BlueprintContext)
    (name : TimelineName) : TimeControl × Option BlueprintContext :=
  let ctx := ctx.map (·.setTimeline name)
  let timeline :=
    match entityDb.timelines[name]? with
    | some timeline => .userEdited timeline
    | none => .pending name
  let self := { self with timeline }
  match self.states[name]? with
  | some state =>
    -- The new timeline's cached time selection.
    (self, ctx.map fun ctx =>
      match state.timeSelection with
      | some selection => ctx.setTimeSelection selection.toInt
      | none => ctx.clearTimeSelection)
  | none =>
    match entityDb.timeRangeFor name with
    | some fullRange =>
      ({ self with states := self.states.insert name { time := .ofTimeInt fullRange.min } }, ctx)
    | none => (self, ctx)

def setLoopMode (self : TimeControl) (entityDb : EntityDb) (ctx : Option BlueprintContext)
    (loopMode : LoopMode) : TimeControl × Option BlueprintContext :=
  let ctx := ctx.map (·.setLoopMode loopMode)
  let self := { self with loopMode }
  if loopMode = .off then (self, ctx)
  else
    let (self, ctx) :=
      if self.playState = .following then self.setPlayState (some entityDb) .playing ctx
      else (self, ctx)
    -- It makes no sense with looping and follow.
    ({ self with following := false }, ctx)

/-- The one bound of the recording that `MoveBeginning` and `MoveEnd` go to. -/
def moveTo (self : TimeControl) (entityDb : EntityDb) (bound : AbsoluteTimeRange → TimeInt) :
    TimeControl × NeedsRepaint :=
  match entityDb.timeRangeFor self.timelineName with
  | some fullRange => (self.setTimeAdHoc (.ofTimeInt (bound fullRange)), .yes)
  | none => (self, .no)

def restart (self : TimeControl) (entityDb : EntityDb) : TimeControl × NeedsRepaint :=
  match entityDb.timeRangeFor self.timelineName with
  | some fullRange =>
    ({ self with following := false }.modifyState
      ({ · with time := .ofTimeInt fullRange.min }), .yes)
  | none => (self, .no)

def setTimeSelection (self : TimeControl) (timeRange : AbsoluteTimeRange) :
    TimeControl × NeedsRepaint :=
  let old := self.timeSelection.map (·.toInt)
  (self.entryState { time := .ofTimeInt timeRange.min }
      ({ · with timeSelection := some (.ofRange timeRange) }),
    if old = some timeRange then .no else .yes)

def removeTimeSelection (self : TimeControl) (ctx : Option BlueprintContext) :
    TimeControl × Option BlueprintContext :=
  let ctx := ctx.map (·.clearTimeSelection)
  let self := self.modifyState ({ · with timeSelection := none })
  if self.loopMode = .selection then
    ({ self with loopMode := .off }, ctx.map (·.setLoopMode .off))
  else (self, ctx)

def setTime (self : TimeControl) (entityDb : EntityDb) (ctx : Option BlueprintContext)
    (time : TimeReal) : (TimeControl × Option BlueprintContext) × NeedsRepaint :=
  let repaint : NeedsRepaint := if self.timeInt = some time.floor then .no else .yes
  let (self, ctx) := (self.setTimeAdHoc time).exitFollowMode entityDb ctx
  (({ self with waitForData := true }, ctx), repaint)

/-- Changes the state of the active timeline if there is one, and tells if there is. -/
def tryModifyState (self : TimeControl) (f : TimeState → TimeState) : TimeControl × NeedsRepaint :=
  (self.modifyState f, if self.state?.isSome then .yes else .no)

def handleTimeCommand (self : TimeControl) (ctx : Option BlueprintContext) (entityDb : EntityDb) :
    Command → (TimeControl × Option BlueprintContext) × NeedsRepaint
  | .highlightRange range => (({ self with highlightedRange := some range }, ctx), .no)
  | .clearHighlightedRange => (({ self with highlightedRange := none }, ctx), .no)
  | .resetActiveTimeline =>
    ((self.resetActiveTimeline entityDb, ctx.map (·.clearTimeline)), .yes)
  | .setActiveTimeline name => (self.setActiveTimeline entityDb ctx name, .yes)
  | .setLoopMode loopMode =>
    if self.loopMode = loopMode then ((self, ctx), .no)
    else (self.setLoopMode entityDb ctx loopMode, .yes)
  | .setPlayState playState =>
    if self.playState = playState then ((self, ctx), .no)
    else
      let (self, ctx) := self.setPlayState (some entityDb) playState ctx
      if self.following then
        (({ self with loopMode := .off }, ctx.map (·.setLoopMode .off)), .yes)
      else ((self, ctx), .yes)
  | .pause => if self.playing then (self.pause ctx, .yes) else ((self, ctx), .no)
  | .togglePlayPause => (self.togglePlayPause entityDb ctx, .yes)
  | .stepTimeBack => (self.stepTimeBack entityDb ctx, .yes)
  | .stepTimeForward => (self.stepTimeFwd entityDb ctx, .yes)
  | .move direction speed => (self.moveTime entityDb ctx direction speed, .yes)
  | .moveBeginning =>
    let (self, repaint) := self.moveTo entityDb (·.min)
    ((self, ctx), repaint)
  | .moveEnd =>
    let (self, repaint) := self.moveTo entityDb (·.max)
    ((self, ctx), repaint)
  | .restart =>
    let (self, repaint) := self.restart entityDb
    ((self, ctx), repaint)
  | .setSpeed speed =>
    if speed == self.speed then ((self, ctx), .no)
    else (({ self with speed }, ctx.map (·.setPlaybackSpeed speed.toFloat)), .yes)
  | .setFps fps =>
    match self.state? with
    | some state =>
      if state.fps != fps then
        ((self.modifyState ({ · with fps }), ctx.map (·.setFps fps.toFloat)), .yes)
      else ((self, ctx), .no)
    | none => ((self, ctx), .no)
  | .setTimeSelection timeRange =>
    let (self, repaint) := self.setTimeSelection timeRange
    ((self, ctx.map (·.setTimeSelection timeRange)), repaint)
  | .removeTimeSelection =>
    if self.state?.isSome then (self.removeTimeSelection ctx, .yes) else ((self, ctx), .no)
  | .setTime time => self.setTime entityDb ctx time
  | .setTimeView timeView =>
    let (self, repaint) := self.tryModifyState ({ · with view := some timeView })
    ((self, ctx), repaint)
  | .resetTimeView =>
    let (self, repaint) := self.tryModifyState ({ · with view := none })
    ((self, ctx), repaint)

-- ---------------------------------------------------------------------------
-- Responses
-- ---------------------------------------------------------------------------

structure Response where
  needsRepaint : NeedsRepaint
  playingChange : Option Bool := none
  timelineChange : Option (Timeline × TimeReal) := none
  timeChange : Option TimeReal := none

def diffWith (self old : TimeControl) (response : Response) : Response where
  needsRepaint := response.needsRepaint
  playingChange :=
    if old.playing = self.playing then response.playingChange else some self.playing
  timelineChange :=
    if old.timeline.timeline? = self.timeline.timeline? then response.timelineChange
    else self.timeline.timeline?.map fun t => (t, self.time.getD (.saturating i128Min))
  timeChange :=
    match self.time with
    | some time => if old.time = some time then response.timeChange else some time
    | none => response.timeChange

def handleTimeCommands (self : TimeControl) (ctx : Option BlueprintContext) (entityDb : EntityDb)
    (commands : List Command) : (TimeControl × Option BlueprintContext) × Response :=
  let ((new, ctx), needsRepaint) := commands.foldl
    (fun ((control, ctx), repaint) command =>
      let (next, needsRepaint) := control.handleTimeCommand ctx entityDb command
      (next, if needsRepaint = .yes then .yes else repaint))
    ((self, ctx), NeedsRepaint.no)
  ((new, ctx), new.diffWith self { needsRepaint })

-- ---------------------------------------------------------------------------
-- Updates
-- ---------------------------------------------------------------------------

/-- The timeline of the blueprint, which is pending until it is found in a recording. -/
def readTimeline (self : TimeControl) (ctx : BlueprintContext) : TimeControl :=
  match ctx.current.timeline with
  | some timeline =>
    if self.timeline.isAuto || timeline != self.timelineName then
      { self with timeline := .pending timeline }
    else self
  | none =>
    match self.timeline.timeline? with
    | some timeline => { self with timeline := .auto timeline }
    | none => self

def readPlayState (self : TimeControl) (ctx : BlueprintContext) (entityDb : Option EntityDb) :
    TimeControl × BlueprintContext :=
  match ctx.current.playState with
  | some new =>
    if new = self.playState then (self, ctx)
    else (self.setPlayStateOf entityDb new, ctx.updatePlayState new)
  | none => (self, ctx)

def readLoopMode (self : TimeControl) (ctx : BlueprintContext) (entityDb : Option EntityDb) :
    TimeControl × BlueprintContext :=
  match ctx.current.loopMode with
  | some new =>
    let self := { self with loopMode := new }
    if new = .off then (self, ctx)
    else
      let (self, ctx) :=
        if self.playState = .following then
          (self.setPlayStateOf entityDb .playing, ctx.updatePlayState .playing)
        else (self, ctx)
      ({ self with following := false }, ctx)
  | none => (self, ctx)

def readState (self : TimeControl) (ctx : BlueprintContext) (oldTimeline : TimelineName) :
    TimeControl × BlueprintContext :=
  match self.state? with
  | none => (self, ctx)
  | some state =>
    let sameTimeline : Bool := oldTimeline = self.timelineName
    let self := self.modifyState fun state =>
      { state with
        fps := (ctx.current.fps.map Float.toFloat32).getD state.fps
        timeSelection :=
          if sameTimeline then ctx.timeSelection.map .ofRange else state.timeSelection
        lastPausedTime := if self.playState = .paused then some state.time else state.lastPausedTime }
    (self,
      if sameTimeline then ctx
      else
        match state.timeSelection with
        | some selection => ctx.setTimeSelection selection.toInt
        | none => ctx.clearTimeSelection)

def updateFromBlueprint (self : TimeControl) (ctx : BlueprintContext)
    (entityDb : Option EntityDb) : TimeControl × BlueprintContext :=
  let self := self.readTimeline ctx
  let oldTimeline := self.timelineName
  let self := entityDb.elim self self.selectValidTimeline
  let (self, ctx) := self.readPlayState ctx entityDb
  let (self, ctx) := self.readLoopMode ctx entityDb
  let self := { self with speed := (ctx.current.playbackSpeed.map Float.toFloat32).getD self.speed }
  self.readState ctx oldTimeline

def fromBlueprint (ctx : BlueprintContext) : TimeControl × BlueprintContext :=
  TimeControl.updateFromBlueprint {} ctx none

structure UpdateParams where
  stableDt : Float32
  moreDataIsStreamingIn : Bool
  isBuffering : Bool
  shouldDiffState : Bool

/-- The conversions of floating-point numbers to times. -/
structure FloatTimes where
  fromFloat32 : Float32 → TimeReal
  fromSecs : Float32 → TimeReal

/-- Where the cursor goes that is now in `state`. -/
def advance (conv : FloatTimes) (self : TimeControl) (fullRange : AbsoluteTimeRange)
    (state : TimeState) (dt : Float32) : TimeReal :=
  let newTime :=
    match self.timeType with
    | some .sequence => state.time.add (conv.fromFloat32 (state.fps * dt))
    | some .durationNs | some .timestampNs => state.time.add (conv.fromSecs dt)
    | none => state.time
  let loopRange :=
    match self.loopMode with
    | .off => none
    | .selection => state.timeSelection
    | .all => some (.ofRange fullRange)
  match loopRange with
  | some loopRange => if loopRange.max < newTime then loopRange.min else newTime
  | none => newTime

def updatePlaying (conv : FloatTimes) (self : TimeControl) (params : UpdateParams)
    (fullRange : AbsoluteTimeRange) (ctx : Option BlueprintContext) :
    (TimeControl × Option BlueprintContext) × NeedsRepaint :=
  let self := self.entryState { time := .ofTimeInt fullRange.min } id
  let state := self.state?.getD { time := .ofTimeInt fullRange.min }
  if self.waitForData && params.isBuffering then ((self, ctx), .no)
  else
    let self := { self with waitForData := false }
    let dt := min params.stableDt 0.1 * self.speed
    if self.loopMode = .off ∧ .ofTimeInt fullRange.max ≤ state.time then
      let self := self.setTimeAdHoc (.ofTimeInt fullRange.max)
      if params.moreDataIsStreamingIn then ((self, ctx), .no) else (self.pause ctx, .no)
    else ((self.setTimeAdHoc (self.advance conv fullRange state dt), ctx), .yes)

def updatePlayState (conv : FloatTimes) (self : TimeControl) (params : UpdateParams)
    (fullRange : AbsoluteTimeRange) (ctx : Option BlueprintContext) :
    (TimeControl × Option BlueprintContext) × NeedsRepaint :=
  match self.playState with
  | .paused =>
    let start := if self.following then fullRange.max else fullRange.min
    let self := self.entryState { time := .ofTimeInt start } fun state =>
      { state with lastPausedTime := some state.time }
    (({ self with waitForData := true }, ctx), .no)
  | .playing => self.updatePlaying conv params fullRange ctx
  | .following => ((self.setTimeAdHoc (.ofTimeInt fullRange.max), ctx), .no)

def update (conv : FloatTimes) (self : TimeControl) (entityDb : EntityDb) (params : UpdateParams)
    (ctx : Option BlueprintContext) : (TimeControl × Option BlueprintContext) × Response :=
  let (new, ctx) :=
    match ctx with
    | some ctx =>
      let (new, ctx) := self.updateFromBlueprint ctx (some entityDb)
      (new, some ctx)
    | none => (self.selectValidTimeline entityDb, none)
  match entityDb.timeRangeFor new.timelineName with
  | none => ((new, ctx), { needsRepaint := .no })
  | some fullRange =>
    let ((new, ctx), needsRepaint) := new.updatePlayState conv params fullRange ctx
    let response : Response := { needsRepaint }
    ((new, ctx),
      if params.shouldDiffState && (entityDb.timeRangeFor new.timelineName).isSome then
        new.diffWith self response
      else response)

end TimeControl

end DimosViewer
