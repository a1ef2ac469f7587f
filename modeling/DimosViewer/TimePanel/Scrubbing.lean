import DimosViewer.TimePanel.Commands
import DimosViewer.TimePanel.Stepping

/-!
# Scrubbing and the play state

Commands that move the cursor or that look at other times. They keep a control paused,
but for the seeks, which leave follow mode by playing: that a paused control still has
its follow flag is not looked at.
-/

namespace DimosViewer

open Std (TreeMap)

namespace TimeControl

-- ---------------------------------------------------------------------------
-- Runs
-- ---------------------------------------------------------------------------

namespace Command

/-- `SetTime` and `Move`, which leave follow mode. -/
def isSeek : Command → Bool
  | .setTime _ | .move _ _ => true
  | _ => false

def isStep : Command → Bool
  | .stepTimeBack | .stepTimeForward => true
  | _ => false

def isView : Command → Bool
  | .setTimeView _ | .setTimeSelection _ => true
  | _ => false

def isScrub : Command → Bool
  | .moveBeginning | .moveEnd => true
  | command => command.isSeek || command.isStep || command.isView

end Command

structure Scrub where
  ctx : Option BlueprintContext
  entityDb : EntityDb
  command : Command
  isScrub : command.isScrub = true

def Scrub.run (scrub : Scrub) (control : TimeControl) : TimeControl :=
  (control.handleTimeCommand scrub.ctx scrub.entityDb scrub.command).1.1

def scrubAll (control : TimeControl) (scrubs : List Scrub) : TimeControl :=
  scrubs.foldl (fun control scrub => scrub.run control) control

def Along (p : TimeControl → Scrub → Prop) : TimeControl → List Scrub → Prop
  | _, [] => True
  | control, scrub :: rest => p control scrub ∧ Along p (scrub.run control) rest

/-- The control is paused, but its follow flag is still set. -/
def StaleFollow (control : TimeControl) : Prop :=
  control.playing = false ∧ control.following = true

structure ScrubLaw (control : TimeControl) (scrub : Scrub) : Prop where
  exits : scrub.command.isSeek ∨ scrub.command.isStep →
    (scrub.run control).playState ≠ .following
  follows : (scrub.run control).playState = .following → control.playState = .following
  steps : scrub.command.isStep → (scrub.run control).playState = .paused
  views : scrub.command.isView → (scrub.run control).playState = control.playState
  lands : ∀ time, scrub.command = .setTime time →
    (control.following = true → ∀ range, scrub.entityDb.timeRangeFor control.timelineName =
      some range → time < .ofTimeInt range.max) → (scrub.run control).time = some time

/-- A run of scrubs: what each does, and that the control stays paused unless a seek finds it
paused with its follow flag still set. -/
structure Scrubs (control : TimeControl) (scrubs : List Scrub) : Prop where
  each : Along ScrubLaw control scrubs
  paused : control.playState = .paused →
    Along (fun control scrub => ¬ (control.StaleFollow ∧ scrub.command.isSeek)) control scrubs →
    (control.scrubAll scrubs).playState = .paused
  clear : control.playState = .paused → control.following = false →
    (control.scrubAll scrubs).playState = .paused

-- ---------------------------------------------------------------------------
-- What keeps the flags
-- ---------------------------------------------------------------------------

section Flags

variable {self : TimeControl} {db : EntityDb} {ctx : Option BlueprintContext} {time : TimeReal}

theorem playState_eq_paused : self.playState = .paused ↔ self.playing = false := by
  cases hp : self.playing <;> cases hf : self.following <;> simp [playState, hp, hf]

theorem playState_eq_following :
    self.playState = .following ↔ self.playing = true ∧ self.following = true := by
  cases hp : self.playing <;> cases hf : self.following <;> simp [playState, hp, hf]

structure SameFlags (old new : TimeControl) : Prop where
  playing : new.playing = old.playing
  following : new.following = old.following
  timeline : new.timeline = old.timeline

namespace SameFlags

variable {a b c : TimeControl}

theorem refl : SameFlags a a := ⟨rfl, rfl, rfl⟩

theorem trans (h : SameFlags a b) (h' : SameFlags b c) : SameFlags a c :=
  ⟨h'.playing.trans h.playing, h'.following.trans h.following, h'.timeline.trans h.timeline⟩

theorem playState (h : SameFlags a b) : b.playState = a.playState := by
  rw [TimeControl.playState, TimeControl.playState, h.playing, h.following]

end SameFlags

theorem sameFlags_modifyState (self : TimeControl) (f : TimeState → TimeState) :
    SameFlags self (self.modifyState f) := ⟨rfl, rfl, rfl⟩

theorem sameFlags_entryState (self : TimeControl) (new : TimeState) (f : TimeState → TimeState) :
    SameFlags self (self.entryState new f) := ⟨rfl, rfl, rfl⟩

theorem sameFlags_stepNoPause (self : TimeControl) (db : EntityDb) :
    SameFlags self (self.stepTimeBackNoPause db) ∧
      SameFlags self (self.stepTimeFwdNoPause db) := by
  constructor
  · rw [stepTimeBackNoPause]
    cases self.time.bind (self.newTimeBack db) with
    | none => exact .refl
    | some t => exact sameFlags_modifyState ..
  · rw [stepTimeFwdNoPause]
    cases self.time.bind (self.newTimeFwd db) with
    | none => exact .refl
    | some t => exact sameFlags_modifyState ..

theorem sameFlags_iterate {step : TimeControl → TimeControl}
    (hstep : ∀ control, SameFlags control (step control)) (n : Nat) :
    SameFlags self (step^[n] self) := by
  induction n generalizing self with
  | zero => exact .refl
  | succ n ih => exact (hstep self).trans ih

theorem sameFlags_moveByNanosTemporal (self : TimeControl) (db : EntityDb) (nanos : Int) :
    SameFlags self (self.moveByNanosTemporal db nanos) := by
  rw [moveByNanosTemporal]
  cases self.time with
  | none => exact .refl
  | some t => exact sameFlags_modifyState ..

theorem sameFlags_startIfAtEnd (self : TimeControl) (entityDb : Option EntityDb) :
    SameFlags self (self.startIfAtEnd entityDb) := by
  rw [startIfAtEnd]
  cases entityDb.bind (·.timeRangeFor self.timelineName) with
  | none => exact .refl
  | some range =>
    cases self.state? with
    | none => exact sameFlags_entryState ..
    | some state =>
      by_cases hend : TimeReal.ofTimeInt range.max ≤ state.time
      · simp only [if_pos hend]
        exact sameFlags_modifyState ..
      · simp only [if_neg hend]
        exact .refl

/-- The flags once follow mode is left. A paused control plays if its follow flag is set. -/
structure LeftFollow (old new : TimeControl) : Prop where
  playing : new.playing = (old.playing || old.following)
  following : new.following = false
  timeline : new.timeline = old.timeline

theorem LeftFollow.trans {a b c : TimeControl} (h : LeftFollow a b) (h' : SameFlags b c) :
    LeftFollow a c :=
  ⟨h'.playing.trans h.playing, h'.following.trans h.following, h'.timeline.trans h.timeline⟩

theorem leftFollow_exitFollowMode (self : TimeControl) (db : EntityDb)
    (ctx : Option BlueprintContext) : LeftFollow self (self.exitFollowMode db ctx).1 := by
  rw [exitFollowMode]
  by_cases hf : self.following = true
  · rw [if_pos hf]
    have h := sameFlags_startIfAtEnd
      { self with playing := true, following := false, waitForData := true } (some db)
    refine ⟨h.playing.trans ?_, h.following, h.timeline⟩
    simp only [hf, Bool.or_true]
  · rw [if_neg hf]
    have hf := Bool.eq_false_iff.mpr hf
    exact ⟨by simp only [hf, Bool.or_false], hf, rfl⟩

theorem leftFollow_moveTime (self : TimeControl) (db : EntityDb) (ctx : Option BlueprintContext)
    (direction : MoveDirection) (speed : MoveSpeed) :
    LeftFollow self (self.moveTime db ctx direction speed).1 := by
  have hleft := leftFollow_exitFollowMode self db ctx
  rw [moveTime.eq_def]
  generalize self.exitFollowMode db ctx = left at hleft ⊢
  obtain ⟨left, ctx⟩ := left
  simp only []
  cases left.timeType with
  | none => exact hleft
  | some typ =>
    cases typ with
    | sequence =>
      refine hleft.trans (sameFlags_iterate (fun control => ?_) _)
      cases direction with
      | back => exact (sameFlags_stepNoPause control db).1
      | forward => exact (sameFlags_stepNoPause control db).2
    | durationNs => exact hleft.trans (sameFlags_moveByNanosTemporal ..)
    | timestampNs => exact hleft.trans (sameFlags_moveByNanosTemporal ..)

theorem state?_entryState (self : TimeControl) (new : TimeState) (f : TimeState → TimeState) :
    (self.entryState new f).state? = some (f (self.state?.getD new)) := by
  change (self.states.alter self.timelineName _)[self.timelineName]? = _
  rw [TreeMap.getElem?_alter_self]
  rfl

theorem leftFollow_setTime (self : TimeControl) (db : EntityDb) (ctx : Option BlueprintContext)
    (time : TimeReal) : LeftFollow self (self.setTime db ctx time).1.1 := by
  have h := leftFollow_exitFollowMode (self.setTimeAdHoc time) db ctx
  exact ⟨h.playing, h.following, h.timeline⟩

theorem startIfAtEnd_of_lt {state : TimeState} (hs : self.state? = some state)
    (hlt : ∀ range, db.timeRangeFor self.timelineName = some range →
      state.time < .ofTimeInt range.max) : self.startIfAtEnd (some db) = self := by
  rw [startIfAtEnd, Option.bind_some]
  cases hr : db.timeRangeFor self.timelineName with
  | none => rfl
  | some range => simp only [hs, if_neg (not_le.mpr (hlt range hr))]

/-- A seek lands unless the start over at the end of the data gets in between. -/
theorem setTime_time (hend : self.following = true → ∀ range,
      db.timeRangeFor self.timelineName = some range → time < .ofTimeInt range.max) :
    (self.setTime db ctx time).1.1.time = some time := by
  have hs : (self.setTimeAdHoc time).state? =
      some { self.state?.getD { time } with time } := state?_entryState ..
  change (((self.setTimeAdHoc time).exitFollowMode db ctx).1.state?).map (·.time) = some time
  rw [exitFollowMode]
  by_cases hf : (self.setTimeAdHoc time).following = true
  · have hstart : ({ self.setTimeAdHoc time with
        playing := true, following := false, waitForData := true } : TimeControl).startIfAtEnd
          (some db) = _ := startIfAtEnd_of_lt hs (hend hf)
    rw [if_pos hf, setPlayState, setPlayStateOf, hstart]
    exact congrArg (Option.map (·.time)) hs
  · rw [if_neg hf, hs]
    rfl

-- ---------------------------------------------------------------------------
-- One scrub
-- ---------------------------------------------------------------------------

theorem sameFlags_moveTo (self : TimeControl) (db : EntityDb)
    (bound : AbsoluteTimeRange → TimeInt) : SameFlags self (self.moveTo db bound).1 := by
  rw [moveTo]
  cases db.timeRangeFor self.timelineName with
  | none => exact .refl
  | some range => exact ⟨rfl, rfl, rfl⟩

theorem scrub_flags (control : TimeControl) (scrub : Scrub) :
    scrub.command.isSeek = true ∧ LeftFollow control (scrub.run control) ∨
    scrub.command.isStep = true ∧ (scrub.run control).playing = false ∧
      (scrub.run control).following = control.following ∨
    scrub.command.isSeek = false ∧ scrub.command.isStep = false ∧
      SameFlags control (scrub.run control) := by
  obtain ⟨ctx, db, command, hscrub⟩ := scrub
  cases command with
  | setTime time => exact .inl ⟨rfl, leftFollow_setTime ..⟩
  | move direction speed => exact .inl ⟨rfl, leftFollow_moveTime ..⟩
  | stepTimeBack =>
    have h := (sameFlags_stepNoPause (control.pause ctx).1 db).1
    exact .inr (.inl ⟨rfl, h.playing, h.following⟩)
  | stepTimeForward =>
    have h := (sameFlags_stepNoPause (control.pause ctx).1 db).2
    exact .inr (.inl ⟨rfl, h.playing, h.following⟩)
  | moveBeginning => exact .inr (.inr ⟨rfl, rfl, sameFlags_moveTo ..⟩)
  | moveEnd => exact .inr (.inr ⟨rfl, rfl, sameFlags_moveTo ..⟩)
  | setTimeView view => exact .inr (.inr ⟨rfl, rfl, sameFlags_modifyState ..⟩)
  | setTimeSelection range => exact .inr (.inr ⟨rfl, rfl, ⟨rfl, rfl, rfl⟩⟩)
  | _ => cases hscrub

theorem scrubLaw (control : TimeControl) (scrub : Scrub) : ScrubLaw control scrub := by
  have hflags := scrub_flags control scrub
  refine ⟨?_, ?_, ?_, ?_, ?_⟩
  · intro hkind hfollow
    obtain ⟨hp, hf⟩ := playState_eq_following.mp hfollow
    rcases hflags with ⟨-, h⟩ | ⟨-, h, -⟩ | ⟨hseek, hstep, -⟩
    · rw [h.following] at hf
      cases hf
    · rw [h] at hp
      cases hp
    · rw [hseek, hstep] at hkind
      exact hkind.elim Bool.noConfusion Bool.noConfusion
  · intro hfollow
    obtain ⟨hp, hf⟩ := playState_eq_following.mp hfollow
    rcases hflags with ⟨-, h⟩ | ⟨-, h, -⟩ | ⟨-, -, h⟩
    · rw [h.following] at hf
      cases hf
    · rw [h] at hp
      cases hp
    · rw [← h.playState]
      exact hfollow
  · intro hstep
    rcases hflags with ⟨hseek, -⟩ | ⟨-, h, -⟩ | ⟨-, hno, -⟩
    · cases hc : scrub.command <;> rw [hc] at hseek hstep <;> cases hseek <;> cases hstep
    · exact playState_eq_paused.mpr h
    · rw [hno] at hstep
      cases hstep
  · intro hview
    rcases hflags with ⟨hseek, -⟩ | ⟨hstep, -⟩ | ⟨-, -, h⟩
    · cases hc : scrub.command <;> rw [hc] at hseek hview <;> cases hseek <;> cases hview
    · cases hc : scrub.command <;> rw [hc] at hstep hview <;> cases hstep <;> cases hview
    · exact h.playState
  · intro time hc hend
    obtain ⟨ctx, db, command, hscrub⟩ := scrub
    obtain rfl : command = .setTime time := hc
    exact setTime_time hend

-- ---------------------------------------------------------------------------
-- Runs of scrubs
-- ---------------------------------------------------------------------------

theorem along_of_forall {p : TimeControl → Scrub → Prop} (hp : ∀ control scrub, p control scrub) :
    ∀ control scrubs, Along p control scrubs
  | _, [] => trivial
  | control, scrub :: rest => ⟨hp control scrub, along_of_forall hp (scrub.run control) rest⟩

/-- A scrub keeps a control paused, but for a seek that finds the follow flag set. -/
theorem paused_run {control : TimeControl} {scrub : Scrub} (hp : control.playing = false)
    (hstale : ¬ (control.StaleFollow ∧ scrub.command.isSeek)) :
    (scrub.run control).playing = false := by
  rcases scrub_flags control scrub with ⟨hseek, h⟩ | ⟨-, h, -⟩ | ⟨-, -, h⟩
  · have hf : control.following = false :=
      Bool.eq_false_iff.mpr fun hf => hstale ⟨⟨hp, hf⟩, hseek⟩
    rw [h.playing, hp, hf]
    rfl
  · exact h
  · exact h.playing.trans hp

theorem following_run {control : TimeControl} (hf : control.following = false) (scrub : Scrub) :
    (scrub.run control).following = false := by
  rcases scrub_flags control scrub with ⟨-, h⟩ | ⟨-, -, h⟩ | ⟨-, -, h⟩
  · exact h.following
  · exact h.trans hf
  · exact h.following.trans hf

theorem paused_scrubAll {control : TimeControl} {scrubs : List Scrub}
    (hp : control.playing = false)
    (hstale : Along (fun control scrub => ¬ (control.StaleFollow ∧ scrub.command.isSeek))
      control scrubs) : (control.scrubAll scrubs).playing = false := by
  induction scrubs generalizing control with
  | nil => exact hp
  | cons scrub rest ih => exact ih (paused_run hp hstale.1) hstale.2

theorem notStale_of_clear {control : TimeControl} (hf : control.following = false)
    (scrubs : List Scrub) :
    Along (fun control scrub => ¬ (control.StaleFollow ∧ scrub.command.isSeek)) control scrubs := by
  induction scrubs generalizing control with
  | nil => trivial
  | cons scrub rest ih =>
    refine ⟨fun h => ?_, ih (following_run hf scrub)⟩
    rw [h.1.2] at hf
    cases hf

theorem scrubs_hold (control : TimeControl) (l : List Scrub) : Scrubs control l where
  each := along_of_forall scrubLaw control l
  paused hp hstale := playState_eq_paused.mpr (paused_scrubAll (playState_eq_paused.mp hp) hstale)
  clear hp hf := playState_eq_paused.mpr
    (paused_scrubAll (playState_eq_paused.mp hp) (notStale_of_clear hf l))

end Flags

/-- Paused while following live data, then sought: it plays. Sought to the end while following,
it is at the beginning. Given a time selection while following, it follows. -/
theorem seek_plays :
    let following := (handleTimeCommands {} none twoTimes [.setActiveTimeline "t"]).1.1
    let paused := (following.handleTimeCommands none twoTimes [.pause]).1.1
    let start := TimeReal.ofTimeInt (.newTemporal 0)
    let stop := TimeReal.ofTimeInt (.newTemporal 10)
    paused.playState = .paused ∧
      (paused.scrubAll [⟨none, twoTimes, .setTime start, rfl⟩]).playState = .playing ∧
      (following.scrubAll [⟨none, twoTimes, .setTime stop, rfl⟩]).time = some start ∧
      (following.scrubAll [⟨none, twoTimes, .setTimeSelection ⟨.newTemporal 0, .newTemporal 10⟩,
        rfl⟩]).playState = .following := by
  decide +kernel

end TimeControl

end DimosViewer
