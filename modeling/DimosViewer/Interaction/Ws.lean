import DimosViewer.Reach

/-!
# The WebSocket client

Events go into a bounded queue. A client task connects, sends what is queued, and
starts over when the connection is lost. Messages are numbered, and all that were
accepted and delivered are kept, to say what a run has done.
-/

namespace DimosViewer.Interaction

open Reach (Reachable)

/-- Finite, and exact: all that is computed is sums and doubles of two base speeds. -/
abbrev F64 := Rat

inductive WsEvent where
  | click (x y z : F64) (entityPath : String) (timestampMs : Nat)
  | twist (linearX linearY linearZ angularX angularY angularZ : F64)
  | stop
deriving DecidableEq

namespace WsEvent

def isTwist : WsEvent → Bool
  | twist .. => true
  | _ => false

def isVelocity : WsEvent → Bool
  | click .. => false
  | _ => true

end WsEvent

inductive SendError where
  | queueFull
  | serialize (err : String)
deriving DecidableEq

structure Message where
  seq : Nat
  event : WsEvent
deriving DecidableEq

/-- A connection, with the number of events accepted before it was established, and what
was delivered on it, in order. -/
structure Connection where
  establishedAt : Nat
  delivered : List Message := []
deriving DecidableEq

/-- Where `run_client` is. -/
inductive Client where
  | connecting
  | connected (sending : Option Message)
  | draining
  | sleeping
  | stopped
deriving DecidableEq

/-- The channel from `WsPublisher` to `run_client`, and the latest connections first. -/
structure Link where
  accepted : List WsEvent := []
  queue : List Message := []
  hungUp : Bool := false
  client : Client := .connecting
  connections : List Connection := []
deriving DecidableEq

def QUEUE_CAPACITY : Nat := 256

namespace Link

-- ---------------------------------------------------------------------------
-- `WsPublisher`
-- ---------------------------------------------------------------------------

/-- `serde_json::to_string` does not fail on these events. -/
def broadcast (s : Link) (event : WsEvent) : Link × Except SendError Unit :=
  if s.queue.length < QUEUE_CAPACITY then
    ({ s with
      accepted := s.accepted ++ [event]
      queue := s.queue ++ [⟨s.accepted.length, event⟩] }, .ok ())
  else (s, .error .queueFull)

def sendClick (s : Link) (x y z : F64) (entityPath : String) (timestampMs : Nat) :
    Link × Except SendError Unit :=
  s.broadcast (.click x y z entityPath timestampMs)

def sendTwist (s : Link) (linearX linearY linearZ angularX angularY angularZ : F64) :
    Link × Except SendError Unit :=
  s.broadcast (.twist linearX linearY linearZ angularX angularY angularZ)

def sendStop (s : Link) : Link × Except SendError Unit :=
  s.broadcast .stop

-- ---------------------------------------------------------------------------
-- `run_client`
-- ---------------------------------------------------------------------------

/-- What the client task waits for. -/
inductive ClientStep where
  /-- `connect_async` returns. -/
  | connect (ok : Bool)
  /-- `rx.recv` in the write loop. -/
  | recv
  /-- `writer.send` returns `Ok`: the message is flushed to the socket, and reaches the server
  or is lost with the connection. -/
  | sent (arrived : Bool)
  /-- `writer.send` returns an error, maybe after the server got the message. -/
  | sendError (arrived : Bool)
  /-- The read task ends: the server closed the connection, or a read failed. -/
  | readerExit
  /-- One `rx.try_recv` of the drain. -/
  | tryRecv
  /-- The second is over. -/
  | wake
deriving DecidableEq

def connect (s : Link) : Link :=
  { s with
    client := .connected none
    connections := { establishedAt := s.accepted.length } :: s.connections }

def deliver (s : Link) (m : Message) : Link :=
  { s with
    connections :=
      match s.connections with
      | [] => []
      | c :: rest => { c with delivered := c.delivered ++ [m] } :: rest }

def settle (s : Link) (m : Message) (arrived : Bool) (client : Client) : Link :=
  { (if arrived then s.deliver m else s) with client }

/-- A step that is not what the client waits for changes nothing. -/
def clientStep (s : Link) : ClientStep → Link
  | .connect ok =>
    match s.client with
    | .connecting => if ok then s.connect else { s with client := .draining }
    | _ => s
  | .recv =>
    match s.client, s.queue with
    | .connected none, m :: queue => { s with client := .connected (some m), queue }
    | .connected none, [] => if s.hungUp then { s with client := .stopped } else s
    | _, _ => s
  | .sent arrived =>
    match s.client with
    | .connected (some m) => s.settle m arrived (.connected none)
    | _ => s
  | .sendError arrived =>
    match s.client with
    | .connected (some m) => s.settle m arrived .draining
    | _ => s
  | .readerExit =>
    match s.client with
    | .connected none => { s with client := .draining }
    | _ => s
  | .tryRecv =>
    match s.client, s.queue with
    | .draining, _ :: queue => { s with queue }
    | .draining, [] => { s with client := .sleeping }
    | _, _ => s
  | .wake =>
    match s.client with
    | .sleeping => { s with client := .connecting }
    | _ => s

inductive Action where
  /-- A producer calls `WsPublisher::send_*`. -/
  | send (event : WsEvent)
  /-- The last publisher is dropped. -/
  | hangUp
  | client (step : ClientStep)
deriving DecidableEq

def act (s : Link) : Action → Link
  | .send event => if s.hungUp then s else (s.broadcast event).1
  | .hangUp => { s with hungUp := true }
  | .client step => s.clientStep step

abbrev Reached (ok : Link → Action → Prop) (s : Link) : Prop :=
  Reachable {} act ok s

end Link

end DimosViewer.Interaction
