import DimosViewer.Interaction.Ws

/-!
# Keyboard teleoperation

Keys that are held down are published as twists, once a frame. A stop follows when
they are released.
-/

namespace DimosViewer.Interaction

def BASE_LINEAR_SPEED : F64 := 1 / 2
def BASE_ANGULAR_SPEED : F64 := 4 / 5
def FAST_MULTIPLIER : F64 := 2

structure KeyState where
  forward : Bool := false
  backward : Bool := false
  left : Bool := false
  right : Bool := false
  strafeL : Bool := false
  strafeR : Bool := false
  fast : Bool := false
deriving DecidableEq

namespace KeyState

def anyActive (k : KeyState) : Bool :=
  k.forward || k.backward || k.left || k.right || k.strafeL || k.strafeR

def reset (_ : KeyState) : KeyState := {}

end KeyState

structure FrameInput where
  w : Bool := false
  arrowUp : Bool := false
  s : Bool := false
  arrowDown : Bool := false
  a : Bool := false
  arrowLeft : Bool := false
  d : Bool := false
  arrowRight : Bool := false
  q : Bool := false
  e : Bool := false
  shift : Bool := false
  spacePressed : Bool := false
deriving DecidableEq

structure OverlayInput where
  overlayClicked : Bool := false
  outsideClicked : Bool := false
deriving DecidableEq

structure KeyboardHandler where
  state : KeyState := {}
  wasActive : Bool := false
  estopFlash : Bool := false
  engaged : Bool := false
deriving DecidableEq

namespace KeyboardHandler

def updateKeyState (_ : KeyboardHandler) (i : FrameInput) : KeyState where
  forward := i.w || i.arrowUp
  backward := i.s || i.arrowDown
  left := i.a || i.arrowLeft
  right := i.d || i.arrowRight
  strafeL := i.q
  strafeR := i.e
  fast := i.shift

/-- The velocities in the order in which a twist takes them. -/
def computeTwist (h : KeyboardHandler) : WsEvent :=
  let linearX := (if h.state.forward then BASE_LINEAR_SPEED else 0) -
    (if h.state.backward then BASE_LINEAR_SPEED else 0)
  let linearY := (if h.state.strafeL then BASE_LINEAR_SPEED else 0) -
    (if h.state.strafeR then BASE_LINEAR_SPEED else 0)
  let angularZ := (if h.state.left then BASE_ANGULAR_SPEED else 0) -
    (if h.state.right then BASE_ANGULAR_SPEED else 0)
  let factor := if h.state.fast then FAST_MULTIPLIER else 1
  .twist (linearX * factor) (linearY * factor) 0 0 0 (angularZ * factor)

def publishTwist (h : KeyboardHandler) (ws : Link) : Link × Except SendError Unit :=
  ws.broadcast h.computeTwist

def publishStop (_ : KeyboardHandler) (ws : Link) : Link × Except SendError Unit :=
  ws.sendStop

/-- A publish that fails is logged, and otherwise taken as done. -/
def process (h : KeyboardHandler) (ws : Link) (input : FrameInput) :
    KeyboardHandler × Link × Bool :=
  let h := { h with estopFlash := false }
  if !h.engaged then
    if h.wasActive then ({ h with wasActive := false }, (h.publishStop ws).1, false)
    else (h, ws, false)
  else
    let h := { h with state := h.updateKeyState input }
    if input.spacePressed then
      let h := { h with state := h.state.reset }
      ({ h with wasActive := false, estopFlash := true }, (h.publishStop ws).1, true)
    else if h.state.anyActive then
      ({ h with wasActive := true }, (h.publishTwist ws).1, h.state.anyActive)
    else if h.wasActive then
      ({ h with wasActive := false }, (h.publishStop ws).1, h.state.anyActive)
    else (h, ws, h.state.anyActive)

/-- A stop is sent whenever the handler is disengaged. -/
def disengage (h : KeyboardHandler) (ws : Link) : KeyboardHandler × Link :=
  ({ h with engaged := false, state := h.state.reset, wasActive := false }, (h.publishStop ws).1)

def drawOverlay (h : KeyboardHandler) (ws : Link) (input : OverlayInput) :
    KeyboardHandler × Link :=
  let (h, ws) :=
    if input.overlayClicked then
      let h := { h with engaged := !h.engaged }
      if !h.engaged then h.disengage ws else (h, ws)
    else (h, ws)
  if h.engaged && input.outsideClicked then h.disengage ws else (h, ws)

end KeyboardHandler

-- ---------------------------------------------------------------------------
-- The viewer and the client
-- ---------------------------------------------------------------------------

/-- The handler, which keeps a publisher for as long as it lives, and the link. -/
structure Teleop where
  handler : KeyboardHandler := {}
  link : Link := {}
deriving DecidableEq

namespace Teleop

inductive Action where
  | process (input : FrameInput)
  | drawOverlay (input : OverlayInput)
  /-- A click into a spatial view. -/
  | click (x y z : F64) (entityPath : String) (timestampMs : Nat)
  | client (step : Link.ClientStep)
deriving DecidableEq

/-- A frame sends at most one event in each of its two parts, before it sets its own state. So
each part is one step. -/
def act (t : Teleop) : Action → Teleop
  | .process input =>
    let (handler, link, _) := t.handler.process t.link input
    ⟨handler, link⟩
  | .drawOverlay input =>
    let (handler, link) := t.handler.drawOverlay t.link input
    ⟨handler, link⟩
  | .click x y z entityPath timestampMs =>
    { t with link := (t.link.sendClick x y z entityPath timestampMs).1 }
  | .client step => { t with link := t.link.clientStep step }

end Teleop

end DimosViewer.Interaction
