import Mathlib.Data.List.Basic
import Mathlib.Algebra.GroupWithZero.Nat
import DimosViewer.Reach

/-!
# The blocking channel with a byte budget

Senders reserve space under the lock of the state, then send to an unbounded channel of
crossbeam; receivers take from it, then give the space back. Every action is one step of one
of the threads; the clock is left open. Sizes do not overflow.

Only the call that holds the lock of the active sender goes on. The others wait for their turn,
which comes when that call returns. A message is known by its number among the reservations.
-/

namespace DimosViewer.Quota.Sync

open Reach (Reachable)

structure SizedMessage (T : Type) where
  msg : T
  sizeBytes : Nat
deriving DecidableEq

inductive Method where
  | sendWithSize
  | trySend
deriving DecidableEq

structure SendCall (T : Type) where
  message : SizedMessage T
  method : Method
deriving DecidableEq

inductive SendResult where
  | ok
  /-- `SendError`, or `TrySendError::Disconnected`. -/
  | disconnected
  | full
deriving DecidableEq

inductive Stage where
  /-- About to lock the state. -/
  | locking
  | parked (notified : Bool)
  /-- The message has its space, and is not sent yet. -/
  | reserved (n : Nat)
  | returning (result : SendResult)
deriving DecidableEq

structure Turn (T : Type) where
  call : SendCall T
  warned : Bool := false
  stage : Stage := .locking
deriving DecidableEq

/-- A message that was given space, and whether the space has been given back. -/
structure Reservation (T : Type) where
  message : SizedMessage T
  released : Bool := false
deriving DecidableEq

inductive Life where
  /-- Counted; the handle of the inner channel is not cloned yet. -/
  | cloning (origin : Nat)
  | live
  /-- Not counted any more; the inner handle is dropped last. -/
  | uncounted (notify : Bool)
  | gone
deriving DecidableEq

inductive ReceiveStage where
  /-- Has the message, and is about to give its space back. -/
  | holding
  /-- About to notify the senders. -/
  | released
  | returned
deriving DecidableEq

structure ReceiveCall where
  receiver : Nat
  message : Nat
  stage : ReceiveStage := .holding
deriving DecidableEq

structure Channel (T : Type) where
  bytesInFlight : Nat := 0
  numReceivers : Nat := 1
  /-- The holder of the lock of the active sender. -/
  turn : Option (Turn T) := none
  waiting : List (SendCall T) := []
  results : List (SendCall T × SendResult) := []
  reservations : List (Reservation T) := []
  /-- The inner channel. -/
  queue : List Nat := []
  receivers : List Life := [.live]
  /-- The calls that took a message, in this order. -/
  receiveCalls : List ReceiveCall := []
deriving DecidableEq

def Life.isCounted : Life → Bool
  | .cloning _ | .live => true
  | _ => false

def Life.isConnected : Life → Bool
  | .live | .uncounted _ => true
  | _ => false

namespace Channel

def connected (s : Channel T) : Bool := s.receivers.any (·.isConnected)

-- ---------------------------------------------------------------------------
-- `Sender`
-- ---------------------------------------------------------------------------

def setStage (s : Channel T) (t : Turn T) (stage : Stage) : Channel T :=
  { s with turn := some { t with stage } }

/-- The condition of the waiting loops. A message larger than the capacity waits for the
channel to be empty. -/
def mustWait (capacityBytes : Nat) (s : Channel T) (sizeBytes : Nat) : Bool :=
  if sizeBytes ≤ capacityBytes then capacityBytes < s.bytesInFlight + sizeBytes
  else 0 < s.bytesInFlight

def reserve (s : Channel T) (t : Turn T) : Channel T :=
  { s.setStage t (.reserved s.reservations.length) with
    bytesInFlight := s.bytesInFlight + t.call.message.sizeBytes
    reservations := s.reservations ++ [{ message := t.call.message }] }

/-- What `send_impl` does with the state locked, at first and after every wake-up. `late` tells
whether the warning is due. -/
def sendLocked (capacityBytes : Nat) (s : Channel T) (t : Turn T) (late : Bool) : Channel T :=
  if s.mustWait capacityBytes t.call.message.sizeBytes then
    if s.numReceivers = 0 then s.setStage t (.returning .disconnected)
    else s.setStage { t with warned := t.warned || late } (.parked false)
  else s.reserve t

def trySendLocked (capacityBytes : Nat) (s : Channel T) (t : Turn T) : Channel T :=
  if capacityBytes < s.bytesInFlight + t.call.message.sizeBytes ∧ 0 < s.bytesInFlight then
    s.setStage t (.returning .full)
  else s.reserve t

inductive SenderStep where
  /-- Locks the state. -/
  | lock (late : Bool)
  /-- `wait_for` ends. -/
  | timeout
  /-- `self.tx.send`. -/
  | innerSend
  /-- The lock of the active sender is given back. -/
  | leave
deriving DecidableEq

def senderStep (capacityBytes : Nat) (s : Channel T) (step : SenderStep) : Channel T :=
  match s.turn with
  | none => s
  | some t =>
    match step, t.stage with
    | .lock late, .locking | .lock late, .parked true =>
      match t.call.method with
      | .sendWithSize => s.sendLocked capacityBytes t late
      | .trySend => s.trySendLocked capacityBytes t
    | .timeout, .parked false => if t.warned then s else s.setStage t (.parked true)
    | .innerSend, .reserved n =>
      if s.connected then { s.setStage t (.returning .ok) with queue := s.queue ++ [n] }
      else s.setStage t (.returning .disconnected)
    | .leave, .returning result =>
      { s with turn := none, results := s.results ++ [(t.call, result)] }
    | _, _ => s

/-- The lock of the active sender is given to one of those that wait for it. -/
def takeTurn (s : Channel T) (i : Nat) : Channel T :=
  match s.turn, s.waiting[i]? with
  | none, some call => { s with turn := some { call }, waiting := s.waiting.eraseIdx i }
  | _, _ => s

def notifyAll (s : Channel T) : Channel T :=
  match s.turn with
  | some t =>
    match t.stage with
    | .parked _ => s.setStage t (.parked true)
    | _ => s
  | none => s

-- ---------------------------------------------------------------------------
-- `Receiver`
-- ---------------------------------------------------------------------------

def onReceive (s : Channel T) (c : Nat) : Channel T :=
  match s.receiveCalls[c]? with
  | none => s
  | some call =>
    match call.stage with
    | .holding =>
      match s.reservations[call.message]? with
      | none => s
      | some r =>
        { s with
          -- `saturating_sub`
          bytesInFlight := s.bytesInFlight - r.message.sizeBytes
          reservations := s.reservations.set call.message { r with released := true }
          receiveCalls := s.receiveCalls.set c { call with stage := .released } }
    | .released =>
      { s.notifyAll with receiveCalls := s.receiveCalls.set c { call with stage := .returned } }
    | .returned => s

def setLife (s : Channel T) (j : Nat) (life : Life) : Channel T :=
  { s with receivers := s.receivers.set j life }

def borrowed (s : Channel T) (j : Nat) : Bool :=
  s.receiveCalls.any (fun call => call.receiver = j && call.stage ≠ .returned) ||
    s.receivers.any (· = .cloning j)

inductive ReceiverStep where
  /-- `self.rx.recv`, when there is a message. -/
  | recv
  | clone
  | innerClone
  /-- The locked part of `drop`. -/
  | uncount
  /-- The rest of `drop`, for the last receiver. -/
  | notify
  /-- The handle of the inner channel is dropped, with the last one all messages are. -/
  | disconnect
deriving DecidableEq

def receiverStep (s : Channel T) (j : Nat) (step : ReceiverStep) : Channel T :=
  match s.receivers[j]? with
  | none => s
  | some life =>
    match step, life with
    | .recv, .live =>
      match s.queue with
      | [] => s
      | n :: queue =>
        { s with queue, receiveCalls := s.receiveCalls ++ [{ receiver := j, message := n }] }
    | .clone, .live =>
      { s with numReceivers := s.numReceivers + 1, receivers := s.receivers ++ [.cloning j] }
    | .innerClone, .cloning _ => s.setLife j .live
    | .uncount, .live =>
      if s.borrowed j then s
      else
        { s.setLife j (.uncounted (s.numReceivers - 1 = 0)) with
          numReceivers := s.numReceivers - 1 }
    | .notify, .uncounted true => s.notifyAll.setLife j (.uncounted false)
    | .disconnect, .uncounted false =>
      let s := s.setLife j .gone
      if s.connected then s else { s with queue := [] }
    | _, _ => s

inductive Action (T : Type) where
  /-- Someone calls `send_with_size` or `try_send`. -/
  | send (call : SendCall T)
  | takeTurn (i : Nat)
  | sender (step : SenderStep)
  | receiver (j : Nat) (step : ReceiverStep)
  | onReceive (c : Nat)
deriving DecidableEq

def act (capacityBytes : Nat) (s : Channel T) : Action T → Channel T
  | .send call => { s with waiting := s.waiting ++ [call] }
  | .takeTurn i => s.takeTurn i
  | .sender step => s.senderStep capacityBytes step
  | .receiver j step => s.receiverStep j step
  | .onReceive c => s.onReceive c

/-- The states of all runs of `channel`, whatever is sent and whoever goes first. -/
abbrev Reached (capacityBytes : Nat) (s : Channel T) : Prop :=
  Reachable {} (act capacityBytes) (fun _ _ => True) s

end Channel
end DimosViewer.Quota.Sync
