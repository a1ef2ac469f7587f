import DimosViewer.Interaction.Halting

/-!
# Frames and the emergency stop

A frame reads the keys and then draws the overlay. What it publishes is what it would put into an
empty queue, whether or not the queue takes it. The emergency stop is a one-shot action: it lasts
no longer than its frame.
-/

namespace DimosViewer.Interaction

structure Frame where
  keys : FrameInput := {}
  clicks : OverlayInput := {}
deriving DecidableEq

def movementKeys : List (FrameInput → Bool) :=
  [FrameInput.w, FrameInput.arrowUp, FrameInput.s, FrameInput.arrowDown, FrameInput.a,
    FrameInput.arrowLeft, FrameInput.d, FrameInput.arrowRight, FrameInput.q, FrameInput.e]

def anyMovementKey (input : FrameInput) : Bool := movementKeys.any fun key => key input

namespace KeyboardHandler

/-- `process` and then `draw_overlay`. -/
def frame (h : KeyboardHandler) (input : Frame) : KeyboardHandler × List WsEvent :=
  let (h, link, _) := h.process {} input.keys
  let (h, link) := h.drawOverlay link input.clicks
  (h, link.queue.map (·.event))

structure Shown where
  handler : KeyboardHandler
  input : Frame
  published : List WsEvent

def run : KeyboardHandler → List Frame → List Shown
  | _, [] => []
  | h, input :: rest => ⟨h, input, (h.frame input).2⟩ :: (h.frame input).1.run rest

namespace Shown

def twists (shown : Shown) : Bool := shown.published.any WsEvent.isTwist

def stops (shown : Shown) : Bool := shown.published.contains .stop

def estop (shown : Shown) : Bool := shown.handler.engaged && shown.input.keys.spacePressed

/-- Motion is commanded: a movement key is down, and nothing keeps it from being read. -/
def commands (shown : Shown) : Bool :=
  shown.handler.engaged && !shown.input.keys.spacePressed && anyMovementKey shown.input.keys

def stopsAfterTwist (shown : Shown) : Prop :=
  ∃ event, event.isTwist = true ∧ shown.published = [event, .stop]

end Shown

-- ---------------------------------------------------------------------------
-- What is asked of a run
-- ---------------------------------------------------------------------------

def Released (run : List Shown) (i j : Nat) : Prop :=
  ∀ key ∈ movementKeys, ∀ shown, run[i]? = some shown → key shown.input.keys = true →
    ∃ k, i < k ∧ k ≤ j ∧ ∃ later, run[k]? = some later ∧ key later.input.keys = false

def PressedAnew (run : List Shown) (i j : Nat) : Prop :=
  ∃ key ∈ movementKeys, ∃ k, i ≤ k ∧ k < j ∧ ∃ before after, run[k]? = some before ∧
    run[k + 1]? = some after ∧ key before.input.keys = false ∧ key after.input.keys = true

/-- After an emergency stop there is no twist before the keys have been released, or one of them
has been pressed anew. -/
def StopHolds (run : List Shown) : Prop :=
  ∀ i j stopped shown, i < j → run[i]? = some stopped → stopped.estop = true →
    run[j]? = some shown → shown.twists = true → Released run i j ∨ PressedAnew run i j

def StopFollows (run : List Shown) : Prop :=
  ∀ i last next, run[i]? = some last → run[i + 1]? = some next → last.twists = true →
    next.twists = false → next.stops = true

/-- The emergency stop publishes a stop and no twist, and there is none before motion is
commanded. -/
def StopsOnce (run : List Shown) : Prop :=
  ∀ (i : Nat) (stopped : Shown), run[i]? = some stopped → stopped.estop = true →
    stopped.stops = true ∧
    ∀ (j : Nat) (shown : Shown), i ≤ j → run[j]? = some shown →
      (∀ (k : Nat) (between : Shown), i < k → k ≤ j → run[k]? = some between →
        between.commands = false) →
      shown.twists = false

/-- The last frame of those that publish twists publishes a stop after its twist, or the next
frame publishes one. -/
def StopEnds (run : List Shown) : Prop :=
  ∀ i last next, run[i]? = some last → run[i + 1]? = some next → last.twists = true →
    next.twists = false → last.stopsAfterTwist ∨ next.stops = true

-- ---------------------------------------------------------------------------
-- One frame
-- ---------------------------------------------------------------------------

def commanded (h : KeyboardHandler) (input : FrameInput) : Bool :=
  h.engaged && !input.spacePressed && anyMovementKey input

/-- A stop is due if there is no twist: motion ends, or Space is pressed. -/
def stopDue (h : KeyboardHandler) (input : FrameInput) : Bool :=
  h.wasActive || h.engaged && input.spacePressed

theorem anyActive_updateKeyState (h : KeyboardHandler) (input : FrameInput) :
    (h.updateKeyState input).anyActive = anyMovementKey input := by
  simp [updateKeyState, KeyState.anyActive, anyMovementKey, movementKeys, Bool.or_assoc]

theorem process_frame (h : KeyboardHandler) (input : FrameInput) :
    (h.process {} input).1.wasActive = h.commanded input ∧
    ∃ event, event.isTwist = true ∧ (h.process {} input).2.1.queue.map (·.event) =
      if h.commanded input then [event] else if h.stopDue input then [.stop] else [] := by
  rw [process, commanded, stopDue]
  simp only [anyActive_updateKeyState]
  generalize anyMovementKey input = active
  obtain ⟨state, wasActive, estopFlash, engaged⟩ := h
  cases engaged with
  | false => cases wasActive <;> exact ⟨rfl, .twist 0 0 0 0 0 0, rfl, rfl⟩
  | true =>
    cases input.spacePressed with
    | true => cases wasActive <;> exact ⟨rfl, .twist 0 0 0 0 0 0, rfl, rfl⟩
    | false =>
      cases active with
      | true => exact ⟨rfl, _, rfl, rfl⟩
      | false => cases wasActive <;> exact ⟨rfl, .twist 0 0 0 0 0 0, rfl, rfl⟩

theorem frame_events (h : KeyboardHandler) (input : Frame) :
    (h.frame input).2 =
      ((h.process {} input.keys).1.drawOverlay (h.process {} input.keys).2.1
        input.clicks).2.queue.map (·.event) := rfl

/-- All that a frame does: what the keys publish, and then a stop where a click disengages the
handler. Otherwise the handler knows whether there was a twist. -/
theorem frame_cases (h : KeyboardHandler) (input : Frame) :
    ∃ event, event.isTwist = true ∧
      (((h.frame input).2 =
          (if h.commanded input.keys then [event]
            else if h.stopDue input.keys then [.stop] else []) ++ [.stop]) ∨
        (h.frame input).2 =
          (if h.commanded input.keys then [event]
            else if h.stopDue input.keys then [.stop] else []) ∧
        (h.frame input).1.wasActive = h.commanded input.keys) := by
  obtain ⟨hactive, event, htwist, hevents⟩ := h.process_frame input.keys
  refine ⟨event, htwist, ?_⟩
  obtain ⟨hkept, hlink⟩ | ⟨-, -, hlink⟩ :=
    (h.process {} input.keys).1.drawOverlay_cases (h.process {} input.keys).2.1 input.clicks
  · right
    refine ⟨?_, hkept.trans hactive⟩
    rw [← hevents, frame_events, hlink]
  · left
    have hlength := congrArg List.length hevents
    rw [List.length_map] at hlength
    have hroom : (h.process {} input.keys).2.1.queue.length < QUEUE_CAPACITY := by
      rw [hlength]
      split
      · exact Nat.lt_of_sub_eq_succ rfl
      · split <;> decide
    rw [← hevents, frame_events, hlink, Link.broadcast, if_pos hroom, List.map_append]
    rfl

-- ---------------------------------------------------------------------------
-- A frame of a run
-- ---------------------------------------------------------------------------

variable {start : KeyboardHandler} {inputs : List Frame} {shown last next : Shown} {i : Nat}

theorem run_published (h : (run start inputs)[i]? = some shown) :
    shown.published = (shown.handler.frame shown.input).2 := by
  induction inputs generalizing start i with
  | nil => cases h
  | cons input inputs ih =>
    cases i with
    | zero =>
      cases h
      rfl
    | succ i => exact ih h

theorem run_next (h : (run start inputs)[i]? = some shown)
    (h' : (run start inputs)[i + 1]? = some next) :
    next.handler = (shown.handler.frame shown.input).1 := by
  induction inputs generalizing start i with
  | nil => cases h
  | cons input inputs ih =>
    cases i with
    | zero =>
      cases h
      cases inputs with
      | nil => cases h'
      | cons second inputs =>
        cases h'
        rfl
    | succ i => exact ih h h'

/-- A frame publishes a twist if and only if it commands motion. -/
theorem twists_eq (h : (run start inputs)[i]? = some shown) : shown.twists = shown.commands := by
  obtain ⟨event, htwist, hcases⟩ := shown.handler.frame_cases shown.input
  have hstop : WsEvent.isTwist .stop = false := rfl
  rw [Shown.twists, run_published h]
  change _ = shown.handler.commanded shown.input.keys
  obtain hframe | ⟨hframe, -⟩ := hcases <;> rw [hframe] <;>
    cases shown.handler.commanded shown.input.keys <;>
    cases shown.handler.stopDue shown.input.keys <;> simp [htwist, hstop]

theorem stops_of_due (h : (run start inputs)[i]? = some shown) (htwist : shown.twists = false)
    (hdue : shown.handler.stopDue shown.input.keys = true) : shown.stops = true := by
  have hcommanded : shown.handler.commanded shown.input.keys = false :=
    (twists_eq h).symm.trans htwist
  obtain ⟨event, -, hcases⟩ := shown.handler.frame_cases shown.input
  rw [Shown.stops, run_published h]
  obtain hframe | ⟨hframe, -⟩ := hcases <;> rw [hframe, hcommanded, hdue] <;> rfl

theorem stop_or_due (h : (run start inputs)[i]? = some last)
    (h' : (run start inputs)[i + 1]? = some next) (htwist : last.twists = true) :
    last.stopsAfterTwist ∨ next.handler.stopDue next.input.keys = true := by
  have hcommanded : last.handler.commanded last.input.keys = true :=
    (twists_eq h).symm.trans htwist
  obtain ⟨event, hevent, hframe | ⟨-, hactive⟩⟩ := last.handler.frame_cases last.input
  · left
    refine ⟨event, hevent, ?_⟩
    rw [run_published h, hframe, hcommanded]
    rfl
  · right
    rw [stopDue, run_next h h', hactive, hcommanded]
    rfl

-- ---------------------------------------------------------------------------
-- Main results
-- ---------------------------------------------------------------------------

/-- The emergency stop is a one-shot action, and twists end in a stop. -/
theorem stops_once_and_at_the_end (start : KeyboardHandler) (inputs : List Frame) :
    StopsOnce (start.run inputs) ∧ StopEnds (start.run inputs) := by
  constructor
  · intro i stopped hstopped hestop
    obtain ⟨hengaged, hspace⟩ := Bool.and_eq_true_iff.mp hestop
    have hidle : stopped.twists = false := by
      rw [twists_eq hstopped, Shown.commands, hspace, Bool.not_true, Bool.and_false,
        Bool.false_and]
    refine ⟨stops_of_due hstopped hidle ?_, ?_⟩
    · rw [stopDue, hengaged, hspace]
      exact Bool.or_true _
    · intro j shown hij hshown hbetween
      obtain rfl | hlt := Nat.eq_or_lt_of_le hij
      · rw [hstopped] at hshown
        cases hshown
        exact hidle
      · rw [twists_eq hshown]
        exact hbetween j shown hlt (Nat.le_refl j) hshown
  · intro i last next hlast hnext htwist hidle
    exact (stop_or_due hlast hnext htwist).imp_right (stops_of_due hnext hidle)

/-- The overlay is clicked, W is pressed, and then Space as well; W stays down. -/
def heldRun : List Frame :=
  [{ clicks := { overlayClicked := true } }, { keys := { w := true } },
    { keys := { w := true, spacePressed := true } }, { keys := { w := true } }]

/-- The overlay is clicked, and while W is down there is a click outside it. -/
def clickedRun : List Frame :=
  [{ clicks := { overlayClicked := true } },
    { keys := { w := true }, clicks := { outsideClicked := true } }, {}]

/-- The key that is held makes the robot move again, and a click stops it in the frame itself. -/
theorem held_key_moves_again :
    ¬StopHolds (run {} heldRun) ∧ ¬StopFollows (run {} clickedRun) := by
  constructor
  · intro h
    obtain hreleased | ⟨key, hkey, k, hk, hk', before, after, hbefore, hafter, hup, hdown⟩ :=
      h 2 3 _ _ (by decide) rfl rfl rfl rfl
    · obtain ⟨k, hk, hk', later, hlater, hup⟩ := hreleased FrameInput.w List.mem_cons_self _ rfl rfl
      obtain rfl : k = 3 := by omega
      cases hlater
      cases hup
    · obtain rfl : k = 2 := by omega
      cases hbefore
      cases hafter
      have hsame : ∀ key ∈ movementKeys, key { w := true, spacePressed := true } = false →
          key { w := true } = false := by simp [movementKeys]
      exact Bool.false_ne_true ((hsame key hkey hup).symm.trans hdown)
  · intro h
    have := h 1 _ _ rfl rfl rfl rfl
    revert this
    decide

end KeyboardHandler

end DimosViewer.Interaction
