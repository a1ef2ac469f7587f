import Mathlib.Data.List.Basic
import Mathlib.Algebra.GroupWithZero.Nat
import DimosViewer.Reach

/-!
# The broadcast channel with back-pressure

Senders reserve space under a lock, then send to the broadcast channel of tokio, whose
values they wrap so that the last copy gives the space back. Every action is one step of
one of the threads; the clock is left open. Sizes do not overflow.

A message is known by its number among those that were given space, a value of the tokio
channel by its position. A slot of it keeps its value until all receivers that were there
when it was sent have read it, or are past it, or until it is used again.
-/

namespace DimosViewer.Quota

open Reach (Reachable)

/-- Of a channel. Tokio may make more slots than it is asked for. -/
structure Config where
  maxMessages : Nat
  maxBytes : Nat
  capacity : Nat
  one_le : 1 ≤ maxMessages
  enough : maxMessages ≤ capacity

structure Locked where
  bytesInFlight : Nat := 0
  messagesInFlight : Nat := 0
  numReceivers : Nat := 1
deriving DecidableEq

/-- A message that was given space. It is dropped when its space is free again. -/
structure TrackedMessage (T : Type) where
  value : T
  dropped : Bool := false
deriving DecidableEq

inductive Stage where
  | trySend
  /-- The message has its space, and is not sent yet. -/
  | reserved (msg : Nat)
  /-- Tokio found no receivers, and gave the message back. -/
  | rejected (msg : Nat)
  /-- Refused, and not waiting yet. -/
  | full
  | waiting (notified : Bool)
  | sent (n : Nat)
  | noReceivers
deriving DecidableEq

structure SendCall (T : Type) where
  value : T
  warned : Bool := false
  stage : Stage := .trySend
deriving DecidableEq

/-- From `subscribe` to the end of the `drop` of tokio, that reads what is left. -/
inductive Life where
  | live
  | closing
  | draining (upTo : Nat)
  | closed
deriving DecidableEq

/-- A receiver, with the position at which it was made, the copy that `recv` is about to
drop, and what it has returned so far. -/
structure Receiver (T : Type) where
  life : Life := .live
  since : Nat
  next : Nat
  holding : Option Nat := none
  received : List T := []
deriving DecidableEq

/-- A value of the tokio channel, with the receivers that have not read it. -/
structure Slot where
  msg : Nat
  unread : List Nat
deriving DecidableEq

structure Channel (T : Type) where
  locked : Locked := {}
  tracked : List (TrackedMessage T) := []
  slots : List Slot := []
  calls : List (SendCall T) := []
  receivers : List (Receiver T) := [{ since := 0, next := 0 }]
  /-- The messages whose last copy is gone. Its `drop` is to take the lock. -/
  dropping : List Nat := []
  /-- The receivers that are counted, and not yet made. -/
  subscribing : Nat := 0
  /-- The calls of `notify_waiters` to come. -/
  notifying : Nat := 0
deriving DecidableEq

inductive RecvResult where
  | empty
  | lagged
  | value (msg : Nat)
deriving DecidableEq

/-- Is there space. The first message is let through whatever its size. -/
def Locked.accepts (cfg : Config) (locked : Locked) (msgBytes : Nat) : Bool :=
  (locked.messagesInFlight + 1 ≤ cfg.maxMessages &&
      locked.bytesInFlight + msgBytes ≤ cfg.maxBytes) ||
    (locked.bytesInFlight == 0 && locked.messagesInFlight == 0)

def Receiver.isSubscribed (r : Receiver T) : Bool := r.life = .live || r.life = .closing

def SendCall.holds (call : SendCall T) (msg : Nat) : Bool :=
  call.stage = .reserved msg || call.stage = .rejected msg

namespace Channel

-- ---------------------------------------------------------------------------
-- The broadcast channel of tokio
-- ---------------------------------------------------------------------------

def subscribed (s : Channel T) : List Nat :=
  (s.receivers.zipIdx.filter (·.1.isSubscribed)).map (·.2)

/-- Does the slot of this position still have its value. -/
def occupied (cfg : Config) (s : Channel T) (pos : Nat) (slot : Slot) : Bool :=
  !slot.unread.isEmpty && s.slots.length ≤ pos + cfg.capacity

def tryRecv (cfg : Config) (s : Channel T) (r : Receiver T) : RecvResult :=
  match s.slots[r.next]? with
  | none => .empty
  | some slot => if r.next + cfg.capacity < s.slots.length then .lagged else .value slot.msg

def oldest (cfg : Config) (s : Channel T) : Nat := s.slots.length - cfg.capacity

def markRead (s : Channel T) (i pos : Nat) : List Slot :=
  s.slots.modify pos fun slot => { slot with unread := slot.unread.erase i }

def held (cfg : Config) (s : Channel T) (msg : Nat) : Bool :=
  (s.slots.zipIdx.any fun (slot, pos) => slot.msg == msg && s.occupied cfg pos slot) ||
    s.calls.any (·.holds msg) || s.receivers.any (·.holding = some msg)

-- ---------------------------------------------------------------------------
-- `Sender`
-- ---------------------------------------------------------------------------

section Sender

variable (cfg : Config) (size : T → Nat)

def setCall (s : Channel T) (i : Nat) (call : SendCall T) : Channel T :=
  { s with calls := s.calls.set i call }

/-- The locked part of `try_send`. `late` tells whether the warning is due, if it is
refused. -/
def trySend (s : Channel T) (i : Nat) (late : Bool) : Channel T :=
  match s.calls[i]? with
  | some call =>
    if call.stage = .trySend then
      if s.locked.numReceivers = 0 then s.setCall i { call with stage := .noReceivers }
      else if s.locked.accepts cfg (size call.value) then
        { s.setCall i { call with stage := .reserved s.tracked.length } with
          locked := { s.locked with
            bytesInFlight := s.locked.bytesInFlight + size call.value
            messagesInFlight := s.locked.messagesInFlight + 1 }
          tracked := s.tracked ++ [{ value := call.value }] }
      else s.setCall i { call with stage := .full, warned := call.warned || late }
    else s
  | none => s

def innerSend (s : Channel T) (i : Nat) : Channel T :=
  match s.calls[i]? with
  | some call =>
    match call.stage with
    | .reserved msg =>
      if s.subscribed.isEmpty then s.setCall i { call with stage := .rejected msg }
      else
        { s.setCall i { call with stage := .sent s.subscribed.length } with
          slots := s.slots ++ [⟨msg, s.subscribed⟩] }
    | _ => s
  | none => s

inductive CallStep where
  /-- `into_value` drops the message. -/
  | dropRejected
  /-- `notified`. -/
  | register
  | wake
  | timeout
deriving DecidableEq

def callStep (s : Channel T) (i : Nat) (step : CallStep) : Channel T :=
  match s.calls[i]? with
  | some call =>
    match step, call.stage with
    | .dropRejected, .rejected _ => s.setCall i { call with stage := .noReceivers }
    | .register, .full => s.setCall i { call with stage := .waiting false }
    | .wake, .waiting true => s.setCall i { call with stage := .trySend }
    | .timeout, .waiting _ => if call.warned then s else s.setCall i { call with stage := .trySend }
    | _, _ => s
  | none => s

def notify (s : Channel T) : Channel T :=
  if s.notifying = 0 then s
  else
    { s with
      notifying := s.notifying - 1
      calls := s.calls.map fun call =>
        if call.stage = .waiting false then { call with stage := .waiting true } else call }

def release (s : Channel T) (msg : Nat) : Channel T :=
  match s.tracked[msg]? with
  | some t =>
    if s.dropping.contains msg then
      { s with
        tracked := s.tracked.set msg { t with dropped := true }
        locked := { s.locked with
          bytesInFlight := s.locked.bytesInFlight - size t.value
          messagesInFlight := s.locked.messagesInFlight - 1 }
        dropping := s.dropping.erase msg
        notifying := s.notifying + 1 }
    else s
  | none => s

end Sender

-- ---------------------------------------------------------------------------
-- `Receiver`
-- ---------------------------------------------------------------------------

section Receiver

variable (cfg : Config)

def setReceiver (s : Channel T) (i : Nat) (r : Receiver T) : Channel T :=
  { s with receivers := s.receivers.set i r }

def subscribe (s : Channel T) : Channel T :=
  { s with
    locked := { s.locked with numReceivers := s.locked.numReceivers + 1 }
    subscribing := s.subscribing + 1 }

def innerSubscribe (s : Channel T) : Channel T :=
  if s.subscribing = 0 then s
  else
    { s with
      subscribing := s.subscribing - 1
      receivers := s.receivers ++ [{ since := s.slots.length, next := s.slots.length }] }

inductive ReceiverStep where
  | recv
  /-- The end of `recv`, where the copy is dropped. -/
  | dropCopy
  /-- The locked part of `drop`. -/
  | close
  /-- The `drop` of tokio, up to its loop. -/
  | innerClose
  /-- A turn of that loop. -/
  | drain
deriving DecidableEq

def receiverStep (s : Channel T) (i : Nat) (step : ReceiverStep) : Channel T :=
  match s.receivers[i]? with
  | some r =>
    match step, r.life with
    | .recv, .live =>
      if r.holding = none then
        match s.tryRecv cfg r with
        | .empty => s
        | .lagged => s.setReceiver i { r with next := s.oldest cfg }
        | .value msg =>
          { s.setReceiver i { r with
              next := r.next + 1
              holding := some msg
              received := r.received ++ (s.tracked[msg]?.map (·.value)).toList } with
            slots := s.markRead i r.next }
      else s
    | .dropCopy, .live => s.setReceiver i { r with holding := none }
    | .close, .live =>
      if r.holding = none then
        let numReceivers := s.locked.numReceivers - 1
        { s.setReceiver i { r with life := .closing } with
          locked := { s.locked with numReceivers }
          notifying := if numReceivers = 0 then s.notifying + 1 else s.notifying }
      else s
    | .innerClose, .closing => s.setReceiver i { r with life := .draining s.slots.length }
    | .drain, .draining upTo =>
      if r.next < upTo then
        match s.tryRecv cfg r with
        | .empty => s
        | .lagged => s.setReceiver i { r with next := s.oldest cfg }
        | .value _ =>
          { s.setReceiver i { r with next := r.next + 1 } with slots := s.markRead i r.next }
      else s.setReceiver i { r with life := .closed }
    | _, _ => s
  | none => s

end Receiver

-- ---------------------------------------------------------------------------
-- Runs
-- ---------------------------------------------------------------------------

inductive Action (T : Type) where
  /-- Someone calls `send_async`. -/
  | send (value : T)
  | trySend (i : Nat) (late : Bool)
  | innerSend (i : Nat)
  | call (i : Nat) (step : CallStep)
  | subscribe
  | innerSubscribe
  | receiver (i : Nat) (step : ReceiverStep)
  | release (msg : Nat)
  | notify
deriving DecidableEq

def perform (cfg : Config) (size : T → Nat) (s : Channel T) : Action T → Channel T
  | .send value => { s with calls := s.calls ++ [{ value }] }
  | .trySend i late => s.trySend cfg size i late
  | .innerSend i => s.innerSend i
  | .call i step => s.callStep i step
  | .subscribe => s.subscribe
  | .innerSubscribe => s.innerSubscribe
  | .receiver i step => s.receiverStep cfg i step
  | .release msg => s.release size msg
  | .notify => s.notify

/-- The messages that someone has a copy of in `s`, and nobody in `s'`. -/
def lastCopies (cfg : Config) (s s' : Channel T) : List Nat :=
  (List.range s.tracked.length).filter fun msg => s.held cfg msg && !s'.held cfg msg

/-- The last copy that goes starts the `drop` of what the copies share. -/
def act (cfg : Config) (size : T → Nat) (s : Channel T) (a : Action T) : Channel T :=
  let s' := s.perform cfg size a
  { s' with dropping := s'.dropping ++ s.lastCopies cfg s' }

abbrev Reached (cfg : Config) (size : T → Nat) (ok : Channel T → Action T → Prop)
    (s : Channel T) : Prop :=
  Reachable {} (act cfg size) ok s

end Channel

/-- `channel`, over a tokio channel of so many slots. -/
def channel (maxMessages maxBytes slots : Nat) (h : max maxMessages 1 ≤ slots) : Config where
  maxMessages := max maxMessages 1
  maxBytes := maxBytes
  capacity := slots
  one_le := Nat.le_max_right ..
  enough := h

end DimosViewer.Quota
