import DimosViewer.Reach

/-!
# The message proxy

One event loop handles the messages of the producers and the connections of clients, one
event after the other. A client gets the history as it is when its connection is handled,
and a broadcast of what is handled from then on; its stream is polled at any time.

Payloads are opaque, and so is the size of a message. The broadcast gives every receiver
all that was sent since it subscribed, in order.
-/

namespace DimosViewer.Grpc

open Reach (Reachable)

-- ---------------------------------------------------------------------------
-- Messages
-- ---------------------------------------------------------------------------

inductive StoreKind where
  | unspecified
  | recording
  | blueprint
deriving DecidableEq

structure StoreId where
  kind : StoreKind
  recordingId : String
  applicationId : Option String
deriving DecidableEq

structure StoreInfo where
  storeId : Option StoreId
deriving DecidableEq

structure ArrowMsg where
  storeId : Option StoreId
  isStatic : Option Bool
  payload : List UInt8
deriving DecidableEq

structure BlueprintActivationCommand where
  blueprintId : Option StoreId
  makeActive : Bool
  makeDefault : Bool
deriving DecidableEq

inductive Msg where
  | setStoreInfo (info : Option StoreInfo)
  | arrowMsg (msg : ArrowMsg)
  | blueprintActivationCommand (cmd : BlueprintActivationCommand)
deriving DecidableEq

structure LogMsgProto where
  msg : Option Msg
deriving DecidableEq

inductive LogOrTableMsgProto where
  | logMsg (msg : LogMsgProto)
  | table (id : String) (data : List UInt8)
  | uiCommand (cmd : String)
deriving DecidableEq

inductive ReadLogOrTableMsgResponse where
  | logMsg (msg : LogMsgProto)
  | tableMsg (id : String) (data : List UInt8)
  | uiCommand
deriving DecidableEq

def ReadLogOrTableMsgResponse.from : LogOrTableMsgProto → ReadLogOrTableMsgResponse
  | .logMsg msg => .logMsg msg
  | .table id data => .tableMsg id data
  | .uiCommand _ => .uiCommand

-- ---------------------------------------------------------------------------
-- `MessageBuffer`
-- ---------------------------------------------------------------------------

inductive PlaybackBehavior where
  | oldestFirst
  | newestFirst
deriving DecidableEq

structure MsgQueue where
  queue : List LogOrTableMsgProto := []
  sizeBytes : Nat := 0
deriving DecidableEq

structure MessageBuffer where
  disposable : MsgQueue := {}
  static : MsgQueue := {}
  persistent : MsgQueue := {}
deriving DecidableEq

/-- The order in which the queues are sent. -/
def PlaybackBehavior.chain (behavior : PlaybackBehavior) (persistent static disposable : List α) :
    List α :=
  match behavior with
  | .oldestFirst => persistent ++ static ++ disposable
  | .newestFirst => persistent.reverse ++ static.reverse ++ disposable.reverse

section MessageBuffer

variable (size : LogOrTableMsgProto → Nat)

def MsgQueue.pushBack (q : MsgQueue) (msg : LogOrTableMsgProto) : MsgQueue :=
  { queue := q.queue ++ [msg], sizeBytes := q.sizeBytes + size msg }

/-- The loop of `gc` over one queue. The other two have `others` bytes. -/
def dropOldest (maxBytes others : Nat) : List LogOrTableMsgProto → Nat → MsgQueue
  | [], sizeBytes => { queue := [], sizeBytes }
  | msg :: queue, sizeBytes =>
    if others + (sizeBytes - size msg) < maxBytes then
      { queue, sizeBytes := sizeBytes - size msg }
    else dropOldest maxBytes others queue (sizeBytes - size msg)

namespace MessageBuffer

def totalBytes (b : MessageBuffer) : Nat :=
  b.disposable.sizeBytes + b.static.sizeBytes + b.persistent.sizeBytes

def all (b : MessageBuffer) (behavior : PlaybackBehavior) : List LogOrTableMsgProto :=
  behavior.chain b.persistent.queue b.static.queue b.disposable.queue

def addLogMsg (b : MessageBuffer) (msg : LogMsgProto) : MessageBuffer :=
  match msg.msg with
  | none => b
  | some (.setStoreInfo _) | some (.blueprintActivationCommand _) =>
    { b with persistent := b.persistent.pushBack size (.logMsg msg) }
  | some (.arrowMsg inner) =>
    let isBlueprint := inner.storeId.any (·.kind = .blueprint)
    if isBlueprint then { b with persistent := b.persistent.pushBack size (.logMsg msg) }
    else if inner.isStatic = some true then
      { b with static := b.static.pushBack size (.logMsg msg) }
    else { b with disposable := b.disposable.pushBack size (.logMsg msg) }

def addMsg (b : MessageBuffer) : LogOrTableMsgProto → MessageBuffer
  | .logMsg msg => b.addLogMsg size msg
  | .table id data => { b with disposable := b.disposable.pushBack size (.table id data) }
  | .uiCommand cmd => { b with disposable := b.disposable.pushBack size (.uiCommand cmd) }

def gc (b : MessageBuffer) (maxBytes : Nat) : MessageBuffer :=
  if b.totalBytes ≤ maxBytes then b
  else
    let b := { b with
      disposable := dropOldest size maxBytes (b.static.sizeBytes + b.persistent.sizeBytes)
        b.disposable.queue b.disposable.sizeBytes }
    if maxBytes < b.totalBytes then
      { b with
        static := dropOldest size maxBytes (b.disposable.sizeBytes + b.persistent.sizeBytes)
          b.static.queue b.static.sizeBytes }
    else b

end MessageBuffer

end MessageBuffer

-- ---------------------------------------------------------------------------
-- The stream of a client
-- ---------------------------------------------------------------------------

inductive Poll (T : Type) where
  | ready (item : Option T)
  | pending
deriving DecidableEq

inductive Source where
  | channel
  | history
deriving DecidableEq

/-- A client, with what the broadcast has for it, the streams of its `PriorityMerge`, and
what it was sent. -/
structure Client where
  history : List LogOrTableMsgProto
  channel : List LogOrTableMsgProto := []
  streams : List Source := [.channel, .history]
  received : List ReadLogOrTableMsgResponse := []
deriving DecidableEq

namespace Client

/-- Poll one of the two streams. The broadcast ends when it is closed and read. -/
def pollSource (closed : Bool) (c : Client) : Source → Poll LogOrTableMsgProto × Client
  | .channel =>
    match c.channel with
    | [] => (if closed then .ready none else .pending, c)
    | msg :: channel => (.ready (some msg), { c with channel })
  | .history =>
    match c.history with
    | [] => (.ready none, c)
    | msg :: history => (.ready (some msg), { c with history })

def retain (closed : Bool) (c : Client) : List Source →
    Option LogOrTableMsgProto × List Source × Client
  | [] => (none, [], c)
  | source :: streams =>
    match c.pollSource closed source with
    | (.ready (some item), c) => (some item, source :: streams, c)
    | (.ready none, c) => retain closed c streams
    | (.pending, c) =>
      let (item, kept, c) := retain closed c streams
      (item, source :: kept, c)

def pollMerge (closed : Bool) (c : Client) : Poll LogOrTableMsgProto × Client :=
  match c.retain closed c.streams with
  | (some item, streams, c) => (.ready (some item), { c with streams })
  | (none, streams, c) => (if streams.isEmpty then .ready none else .pending, { c with streams })

def pollChain (closed : Bool) (c : Client) : Poll LogOrTableMsgProto × Client :=
  match c.pollSource closed .history with
  | (.ready (some item), c) => (.ready (some item), c)
  | (_, c) => c.pollSource closed .channel

def pollNext (behavior : PlaybackBehavior) (closed : Bool) (c : Client) :
    Poll LogOrTableMsgProto × Client :=
  match behavior with
  | .oldestFirst => c.pollChain closed
  | .newestFirst => c.pollMerge closed

end Client

-- ---------------------------------------------------------------------------
-- `EventLoop`
-- ---------------------------------------------------------------------------

/-- `none` is no limit. -/
structure ServerOptions where
  playbackBehavior : PlaybackBehavior := .oldestFirst
  memoryLimit : Option Nat := some (1024 * 1024 * 1024)
deriving DecidableEq

def ServerOptions.isHistoryEnabled (options : ServerOptions) : Bool := options.memoryLimit ≠ some 0

structure EventLoop where
  history : MessageBuffer := {}
  clients : List Client := []
  closed : Bool := false
  handled : List LogOrTableMsgProto := []
deriving DecidableEq

namespace EventLoop

variable (options : ServerOptions) (size : LogOrTableMsgProto → Nat)

def gcIfUsingTooMuchRam (history : MessageBuffer) : MessageBuffer :=
  match options.memoryLimit with
  | some maxBytes => history.gc size maxBytes
  | none => history

def handleMsg (s : EventLoop) (msg : LogOrTableMsgProto) : EventLoop :=
  { s with
    clients := s.clients.map fun c => { c with channel := c.channel ++ [msg] }
    history :=
      if options.isHistoryEnabled then
        (gcIfUsingTooMuchRam options size s.history).addMsg size msg
      else s.history
    handled := s.handled ++ [msg] }

def newClient (s : EventLoop) : EventLoop :=
  { s with clients := s.clients ++ [{ history := s.history.all options.playbackBehavior }] }

def poll (s : EventLoop) (i : Nat) : EventLoop :=
  match s.clients[i]? with
  | some c =>
    match c.pollNext options.playbackBehavior s.closed with
    | (.ready (some item), c) =>
      let received := c.received ++ [.from item]
      { s with clients := s.clients.set i { c with received } }
    | (_, c) => { s with clients := s.clients.set i c }
  | none => s

inductive Action where
  | message (msg : LogOrTableMsgProto)
  | newClient
  | poll (i : Nat)
  /-- All senders of events are gone, and the loop ends. -/
  | shutdown
deriving DecidableEq

def act (s : EventLoop) : Action → EventLoop
  | .message msg => if s.closed then s else s.handleMsg options size msg
  | .newClient => if s.closed then s else s.newClient options
  | .poll i => s.poll options i
  | .shutdown => { s with closed := true }

abbrev Reached (s : EventLoop) : Prop :=
  Reachable {} (act options size) (fun _ _ => True) s

end EventLoop

end DimosViewer.Grpc
