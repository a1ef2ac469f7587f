import DimosViewer.Interaction.Delivery
import DimosViewer.Interaction.Keyboard

/-!
# No stop is left out

The robot does what the last velocity says. Unless a stop is refused or given up at the
wrong time, that is no twist once the keyboard is idle.
-/

namespace DimosViewer.Interaction

open Reach (Reachable)

def lastVelocity (l : List Message) : Option WsEvent :=
  ((l.map (·.event)).filter WsEvent.isVelocity).getLast?

def Moving (l : List Message) : Prop :=
  (lastVelocity l).any WsEvent.isTwist = true

instance (l : List Message) : Decidable (Moving l) :=
  inferInstanceAs (Decidable (_ = _))

@[simp] theorem lastVelocity_append (l l' : List Message) :
    lastVelocity (l ++ l') = (lastVelocity l').or (lastVelocity l) := by
  rw [lastVelocity, List.map_append, List.filter_append, List.getLast?_append]
  rfl

theorem lastVelocity_cons_of_click {m : Message} (h : m.event.isVelocity = false)
    (l : List Message) : lastVelocity (m :: l) = lastVelocity l := by
  rw [lastVelocity, List.map_cons, List.filter_cons, h]
  rfl

theorem not_moving_nil : ¬ Moving [] := nofun

theorem not_moving_concat_stop (l : List Message) (seq : Nat) : ¬ Moving (l ++ [⟨seq, .stop⟩]) := by
  rw [Moving, lastVelocity_append]
  exact nofun

theorem moving_concat_click {event : WsEvent} (h : event.isVelocity = false) (l : List Message)
    (seq : Nat) : Moving (l ++ [⟨seq, event⟩]) ↔ Moving l := by
  rw [Moving, lastVelocity_append, lastVelocity_cons_of_click (m := ⟨seq, event⟩) h]
  rfl

namespace KeyboardHandler

def stops (h : KeyboardHandler) (input : FrameInput) : Bool :=
  if h.engaged then
    input.spacePressed || !(h.updateKeyState input).anyActive && h.wasActive
  else h.wasActive

/-- A click disengages the handler, at once or after it was engaged by the same click. -/
def disengages (h : KeyboardHandler) (input : OverlayInput) : Bool :=
  h.engaged && input.overlayClicked || (h.engaged ^^ input.overlayClicked) && input.outsideClicked

theorem process_cases (h : KeyboardHandler) (ws : Link) (input : FrameInput) :
    (h.process ws input).1.wasActive = h.wasActive ∧ (h.process ws input).2.1 = ws ∨
      h.stops input = true ∧ (h.process ws input).1.wasActive = false ∧
        (h.process ws input).2.1 = (ws.broadcast .stop).1 ∨
      (h.process ws input).1.wasActive = true ∧
        ∃ event, (h.process ws input).2.1 = (ws.broadcast event).1 := by
  rw [process]
  dsimp only
  split
  case isTrue he =>
    have he : h.engaged = false := by simpa using he
    split
    case isTrue ha => exact .inr (.inl ⟨by simp [stops, he, ha], rfl, rfl⟩)
    case isFalse => exact .inl ⟨rfl, rfl⟩
  case isFalse he =>
    have he : h.engaged = true := by simpa using he
    split
    case isTrue hs => exact .inr (.inl ⟨by simp [stops, he, hs], rfl, rfl⟩)
    case isFalse =>
      split
      case isTrue => exact .inr (.inr ⟨rfl, _, rfl⟩)
      case isFalse hk =>
        have hk : (h.updateKeyState input).anyActive = false := Bool.eq_false_iff.mpr hk
        split
        case isTrue ha => exact .inr (.inl ⟨by simp [stops, he, hk, ha], rfl, rfl⟩)
        case isFalse => exact .inl ⟨rfl, rfl⟩

theorem drawOverlay_cases (h : KeyboardHandler) (ws : Link) (input : OverlayInput) :
    (h.drawOverlay ws input).1.wasActive = h.wasActive ∧ (h.drawOverlay ws input).2 = ws ∨
      h.disengages input = true ∧ (h.drawOverlay ws input).1.wasActive = false ∧
        (h.drawOverlay ws input).2 = (ws.broadcast .stop).1 := by
  obtain ⟨state, wasActive, estopFlash, engaged⟩ := h
  obtain ⟨overlayClicked, outsideClicked⟩ := input
  cases engaged <;> cases overlayClicked <;> cases outsideClicked <;>
    first
    | exact .inl ⟨rfl, rfl⟩
    | exact .inr ⟨rfl, rfl, rfl⟩

end KeyboardHandler

namespace Teleop

/-- A stop can be refused or given up only while the robot has no need of it: it does not
move, or more velocities follow. -/
def KeepsStops (t : Teleop) : Action → Prop
  | .process input => t.handler.stops input = true →
      t.link.queue.length < QUEUE_CAPACITY ∨ ¬ Moving t.link.history
  | .drawOverlay input => t.handler.disengages input = true →
      t.link.queue.length < QUEUE_CAPACITY ∨ ¬ Moving t.link.history
  | .click .. => True
  | .client step => ∀ lost ∈ t.link.gaveUp? step, lost.1.event = .stop →
      lastVelocity lost.2 = none → Moving t.link.delivered → t.handler.wasActive = true

instance (t : Teleop) (a : Action) : Decidable (t.KeepsStops a) := by
  cases a <;> unfold KeepsStops <;> infer_instance

/-- The robot is left moving: the keyboard is idle, nothing is queued, and the last velocity that
was delivered, or that is being sent, is a twist. -/
structure LeftMoving (t : Teleop) : Prop where
  idle : t.handler.wasActive = false
  queue : t.link.queue = []
  connected : ∃ m, t.link.client = .connected m
  moving : Moving (t.link.delivered ++ t.link.sending.toList)

/-- While the keyboard is idle, the last velocity of all is no twist. -/
structure Settled (t : Teleop) : Prop where
  hasConnection : t.link.HasConnection
  settled : t.handler.wasActive = false → ¬ Moving t.link.history

variable {t : Teleop}

theorem not_moving_sendStop {ws : Link} (h : ws.queue.length < QUEUE_CAPACITY ∨ ¬ Moving ws.history) :
    ¬ Moving (ws.broadcast .stop).1.history := by
  obtain ⟨-, -, hh⟩ | ⟨hfull, he⟩ := ws.history_broadcast .stop
  · rw [hh]
    exact not_moving_concat_stop _ _
  · rw [he]
    exact h.resolve_left hfull

theorem Settled.click (h : t.Settled) {event : WsEvent} (hc : event.isVelocity = false) :
    Settled { t with link := (t.link.broadcast event).1 } := by
  refine ⟨h.hasConnection.broadcast event, fun hidle => ?_⟩
  obtain ⟨-, -, hh⟩ | ⟨-, he⟩ := t.link.history_broadcast event
  · rw [hh, moving_concat_click hc]
    exact h.settled hidle
  · rw [he]
    exact h.settled hidle

theorem Settled.client (h : t.Settled) {step : Link.ClientStep}
    (hok : t.KeepsStops (.client step)) :
    Settled { t with link := t.link.clientStep step } := by
  refine ⟨h.hasConnection.moves (t.link.moves step), fun hidle => ?_⟩
  obtain ⟨-, hh | ⟨m, behind, hlost, hh, hh'⟩⟩ :=
    Link.history_moves h.hasConnection (t.link.moves step)
  · rw [hh]
    exact h.settled hidle
  · have hold := h.settled hidle
    rw [hh, Moving, lastVelocity_append, ← List.singleton_append, lastVelocity_append] at hold
    rw [hh', Moving, lastVelocity_append]
    cases hb : lastVelocity behind with
    | some event => rwa [hb] at hold
    | none =>
      rw [hb] at hold
      rw [Option.none_or] at hold ⊢
      obtain ⟨seq, event⟩ := m
      cases event with
      | click => exact hold
      | twist => exact absurd rfl hold
      | stop =>
        -- The robot moves only if the keyboard is active.
        intro hmoving
        exact Bool.false_ne_true (hidle.symm.trans (hok _ hlost rfl hb hmoving))

theorem Settled.publish (h : t.Settled) {handler : KeyboardHandler} {link : Link}
    (hcases : handler.wasActive = t.handler.wasActive ∧ link = t.link ∨
      (t.link.queue.length < QUEUE_CAPACITY ∨ ¬ Moving t.link.history) ∧
        handler.wasActive = false ∧ link = (t.link.broadcast .stop).1 ∨
      handler.wasActive = true ∧ ∃ event, link = (t.link.broadcast event).1) :
    Settled ⟨handler, link⟩ := by
  obtain ⟨ha, rfl⟩ | ⟨hroom, -, rfl⟩ | ⟨ha, event, rfl⟩ := hcases
  · exact ⟨h.hasConnection, fun hidle => h.settled (ha.symm.trans hidle)⟩
  · exact ⟨h.hasConnection.broadcast _, fun _ => not_moving_sendStop hroom⟩
  · exact ⟨h.hasConnection.broadcast _, fun hidle =>
      Bool.noConfusion (ha.symm.trans hidle)⟩

theorem Settled.act (h : t.Settled) {a : Action} (hok : t.KeepsStops a) : (t.act a).Settled := by
  cases a with
  | process input =>
    refine h.publish ((t.handler.process_cases t.link input).imp_right ?_)
    exact Or.imp_left fun ⟨hs, hrest⟩ => ⟨hok hs, hrest⟩
  | drawOverlay input =>
    refine h.publish ((t.handler.drawOverlay_cases t.link input).imp_right ?_)
    exact fun ⟨hs, hrest⟩ => .inl ⟨hok hs, hrest⟩
  | click x y z entityPath timestampMs => exact h.click rfl
  | client step => exact h.client hok

theorem settled_new : ({} : Teleop).Settled where
  hasConnection := Link.ordered_new.hasConnection
  settled _ := not_moving_nil

abbrev Reached (ok : Teleop → Action → Prop) (t : Teleop) : Prop :=
  Reachable {} act ok t

/-- If stops are kept, the robot is never left moving. -/
theorem not_leftMoving_of_reached (h : Reached KeepsStops t) : ¬ t.LeftMoving := by
  intro hleft
  have hsettled : t.Settled := h.invariant settled_new fun _ _ hs hok => hs.act hok
  refine hsettled.settled hleft.idle ?_
  rw [Link.history, Link.onTheWay, hleft.queue, List.append_nil]
  exact hleft.moving

def pressedRun : List Action :=
  [.client (.connect true), .drawOverlay { overlayClicked := true }, .process { w := true },
    .client .recv, .client (.sent true), .process {}, .client .recv, .client (.sent true)]

theorem not_leftMoving_of_reached_pressedRun : ¬ (pressedRun.foldl act {}).LeftMoving :=
  not_leftMoving_of_reached (Reachable.foldl .init (by decide))

/-- The server closes the connection, and W is released before the queue is drained. The stop is
drained, and the handler does not send it again. -/
def releasedRun : List Action :=
  [.client (.connect true), .drawOverlay { overlayClicked := true }, .process { w := true },
    .client .recv, .client (.sent true), .client .readerExit, .process {}, .client .tryRecv,
    .client .tryRecv, .client .wake, .client (.connect true)]

theorem leftMoving_releasedRun :
    ∃ t, Reached (fun _ _ => True) t ∧ t.LeftMoving :=
  ⟨releasedRun.foldl act {}, Reachable.foldl .init (by simp [releasedRun, Reachable.Allows]),
    ⟨by decide, by decide, ⟨none, by decide⟩, by decide⟩⟩

end Teleop

end DimosViewer.Interaction
