import DimosViewer.Grpc.Playback
import Mathlib.Algebra.GroupWithZero.Nat
import Mathlib.Algebra.Order.Ring.Nat
import Mathlib.Data.List.Infix

/-!
# The history stays within its limit

The buffer is collected before a message is added. A collection drops the oldest messages
of one queue after the other, and stops once the bytes are below the limit.
-/

namespace DimosViewer.Grpc

open Reach (Reachable)

section Buffer

variable (size : LogOrTableMsgProto → Nat)

def bytes (queue : List LogOrTableMsgProto) : Nat := (queue.map size).sum

def MsgQueue.Accounted (q : MsgQueue) : Prop := q.sizeBytes = bytes size q.queue

structure MessageBuffer.Accounted (b : MessageBuffer) : Prop where
  disposable : b.disposable.Accounted size
  static : b.static.Accounted size
  persistent : b.persistent.Accounted size

/-- If there are too many bytes, no number of oldest messages leaves exactly `maxBytes`, with the
`others` and some message. -/
def NeverExact (maxBytes others : Nat) (queue : List LogOrTableMsgProto) : Prop :=
  maxBytes < others + bytes size queue →
    ∀ rest, rest <:+ queue → rest ≠ [] → others + bytes size rest ≠ maxBytes

/-- `rest` is what is left without the shortest part at the front that brings the bytes to at
most `maxBytes`, or nothing if no part does. -/
def ShortestDropped (maxBytes others : Nat) (queue rest : List LogOrTableMsgProto) : Prop :=
  ∃ dropped, queue = dropped ++ rest ∧ (others + bytes size rest ≤ maxBytes ∨ rest = []) ∧
    ∀ front left, queue = front ++ left → front.length < dropped.length →
      maxBytes < others + bytes size left

variable {size} {maxBytes others : Nat} {queue : List LogOrTableMsgProto}

@[simp] theorem bytes_nil : bytes size [] = 0 := rfl

@[simp] theorem bytes_cons (msg : LogOrTableMsgProto) (queue : List LogOrTableMsgProto) :
    bytes size (msg :: queue) = size msg + bytes size queue := List.sum_cons

@[simp] theorem bytes_append (queue rest : List LogOrTableMsgProto) :
    bytes size (queue ++ rest) = bytes size queue + bytes size rest := by
  rw [bytes, List.map_append, List.sum_append]
  rfl

theorem ShortestDropped.none (h : others + bytes size queue ≤ maxBytes) :
    ShortestDropped size maxBytes others queue queue :=
  ⟨[], rfl, .inl h, nofun⟩

theorem ShortestDropped.cons (h : ShortestDropped size maxBytes others queue rest)
    (hmsg : maxBytes < others + bytes size (msg :: queue)) :
    ShortestDropped size maxBytes others (msg :: queue) rest := by
  obtain ⟨dropped, rfl, hrest, hshort⟩ := h
  refine ⟨msg :: dropped, rfl, hrest, ?_⟩
  rintro (_ | ⟨m, front⟩) left he hlt
  · obtain rfl := he
    exact hmsg
  · exact hshort front left (List.cons.inj he).2 (Nat.lt_of_succ_lt_succ hlt)

theorem dropOldest_accounted (maxBytes others : Nat) {sizeBytes : Nat}
    (h : sizeBytes = bytes size queue) :
    (dropOldest size maxBytes others queue sizeBytes).Accounted size ∧
      (others + (dropOldest size maxBytes others queue sizeBytes).sizeBytes < maxBytes ∨
        (dropOldest size maxBytes others queue sizeBytes).queue = []) := by
  induction queue generalizing sizeBytes with
  | nil => exact ⟨h, .inr rfl⟩
  | cons msg queue ih =>
    have hrest : sizeBytes - size msg = bytes size queue := by
      rw [h, bytes_cons, Nat.add_sub_cancel_left]
    rw [dropOldest]
    split
    case isTrue hlt => exact ⟨hrest, .inl hlt⟩
    case isFalse => exact ih hrest

/-- The loop is entered when there are too many bytes. Where the limit is never met exactly
before the end, what it drops is the shortest part that will do. -/
theorem dropOldest_shortest (maxBytes others : Nat) {sizeBytes : Nat}
    (h : sizeBytes = bytes size queue) (hmany : maxBytes < others + bytes size queue)
    (hexact : NeverExact size maxBytes others queue) :
    ShortestDropped size maxBytes others queue
      (dropOldest size maxBytes others queue sizeBytes).queue := by
  replace hexact := hexact hmany
  induction queue generalizing sizeBytes with
  | nil => exact ⟨[], rfl, .inr rfl, nofun⟩
  | cons msg queue ih =>
    have hrest : sizeBytes - size msg = bytes size queue := by
      rw [h, bytes_cons, Nat.add_sub_cancel_left]
    rw [dropOldest]
    split
    case isTrue hlt =>
      rw [hrest] at hlt
      exact (ShortestDropped.none hlt.le).cons hmany
    case isFalse hge =>
      rw [hrest, not_lt] at hge
      cases queue with
      | nil => exact ShortestDropped.cons ⟨[], rfl, .inr rfl, nofun⟩ hmany
      | cons next queue =>
        have hne := hexact _ (List.suffix_cons _ _) (List.cons_ne_nil _ _)
        exact (ih hrest (lt_of_le_of_ne hge hne.symm) fun rest hr =>
          hexact rest (hr.trans (List.suffix_cons _ _))).cons hmany

namespace MessageBuffer

variable {b : MessageBuffer}

theorem Accounted.addMsg (h : b.Accounted size) (msg : LogOrTableMsgProto) :
    (b.addMsg size msg).Accounted size := by
  have hpush : ∀ {q : MsgQueue}, q.Accounted size → ∀ msg, (q.pushBack size msg).Accounted size := by
    intro q hq msg
    rw [MsgQueue.Accounted, MsgQueue.pushBack, bytes_append, ← hq, bytes_cons, bytes_nil,
      Nat.add_zero]
  cases msg with
  | table | uiCommand => exact ⟨hpush h.disposable _, h.static, h.persistent⟩
  | logMsg msg =>
    obtain ⟨_ | (_ | inner | _)⟩ := msg
    · exact h
    · exact ⟨h.disposable, h.static, hpush h.persistent _⟩
    · rw [MessageBuffer.addMsg, addLogMsg]
      dsimp only
      split
      · exact ⟨h.disposable, h.static, hpush h.persistent _⟩
      split
      · exact ⟨h.disposable, hpush h.static _, h.persistent⟩
      · exact ⟨hpush h.disposable _, h.static, h.persistent⟩
    · exact ⟨h.disposable, h.static, hpush h.persistent _⟩

structure Collected (size : LogOrTableMsgProto → Nat) (maxBytes : Nat)
    (before after : MessageBuffer) : Prop where
  accounted : after.Accounted size
  fits : after.totalBytes ≤ maxBytes ∨ after.disposable.queue = [] ∧ after.static.queue = []
  persistent : after.persistent = before.persistent
  static_kept : after.disposable.queue ≠ [] → after.static = before.static
  disposable : NeverExact size maxBytes (before.static.sizeBytes + before.persistent.sizeBytes)
      before.disposable.queue →
    ShortestDropped size maxBytes (before.static.sizeBytes + before.persistent.sizeBytes)
      before.disposable.queue after.disposable.queue
  static : NeverExact size maxBytes before.persistent.sizeBytes before.static.queue →
    ShortestDropped size maxBytes (after.disposable.sizeBytes + before.persistent.sizeBytes)
      before.static.queue after.static.queue

theorem Collected.refl (h : b.Accounted size) (hfits : b.totalBytes ≤ maxBytes) :
    Collected size maxBytes b b := by
  have hd := h.disposable
  have hs := h.static
  rw [MsgQueue.Accounted] at hd hs
  rw [totalBytes] at hfits
  exact ⟨h, .inl hfits, rfl, fun _ => rfl, fun _ => .none (by omega), fun _ => .none (by omega)⟩

theorem gc_collected (h : b.Accounted size) (maxBytes : Nat) :
    Collected size maxBytes b (b.gc size maxBytes) := by
  rw [gc]
  split
  case isTrue hfits => exact .refl h hfits
  case isFalse hmany =>
    rw [not_le, totalBytes] at hmany
    have hd : b.disposable.sizeBytes = bytes size b.disposable.queue := h.disposable
    have hs : b.static.sizeBytes = bytes size b.static.queue := h.static
    obtain ⟨haccounted, hstop⟩ := dropOldest_accounted maxBytes
      (b.static.sizeBytes + b.persistent.sizeBytes) hd
    have hshort := dropOldest_shortest maxBytes
      (b.static.sizeBytes + b.persistent.sizeBytes) hd (by omega)
    generalize dropOldest size maxBytes (b.static.sizeBytes + b.persistent.sizeBytes)
      b.disposable.queue b.disposable.sizeBytes = disposable at haccounted hstop hshort ⊢
    dsimp only
    split
    case isFalse hfits =>
      rw [not_lt, totalBytes] at hfits
      dsimp only at hfits
      exact ⟨⟨haccounted, h.static, h.persistent⟩, .inl hfits, rfl, fun _ => rfl, hshort,
        fun _ => .none (by dsimp only; omega)⟩
    case isTrue hmore =>
      rw [totalBytes] at hmore
      dsimp only at hmore
      have hempty : disposable.queue = [] := hstop.resolve_left (by omega)
      obtain ⟨hstatic, hstop'⟩ := dropOldest_accounted maxBytes
        (disposable.sizeBytes + b.persistent.sizeBytes) hs
      have hzero : disposable.sizeBytes = 0 := by
        rw [haccounted, hempty, bytes_nil]
      have hmore' : maxBytes < disposable.sizeBytes + b.persistent.sizeBytes +
          bytes size b.static.queue := by omega
      refine ⟨⟨haccounted, hstatic, h.persistent⟩, ?_, rfl, fun hne => absurd hempty hne, hshort,
        fun hexact => dropOldest_shortest _ _ hs hmore' ?_⟩
      swap
      · rw [hzero, Nat.zero_add]
        exact hexact
      rcases hstop' with hlt | hnil
      · refine .inl ?_
        rw [totalBytes]
        dsimp only
        omega
      · exact .inr ⟨hempty, hnil⟩

end MessageBuffer

end Buffer

-- ---------------------------------------------------------------------------
-- Runs
-- ---------------------------------------------------------------------------

namespace EventLoop

variable {options : ServerOptions} {size : LogOrTableMsgProto → Nat} {s : EventLoop}

theorem gcIfUsingTooMuchRam_accounted {history : MessageBuffer} (h : history.Accounted size) :
    (gcIfUsingTooMuchRam options size history).Accounted size := by
  rw [gcIfUsingTooMuchRam]
  split
  · exact (MessageBuffer.gc_collected h _).accounted
  · exact h

theorem Reached.accounted (h : Reached options size s) : s.history.Accounted size := by
  induction h with
  | init => exact ⟨rfl, rfl, rfl⟩
  | @step s action _ _ ih =>
    cases action with
    | message msg =>
      rw [act]
      split
      · exact ih
      · rw [handleMsg]
        dsimp only
        split
        · exact (gcIfUsingTooMuchRam_accounted ih).addMsg msg
        · exact ih
    | newClient =>
      rw [act]
      split <;> exact ih
    | poll i =>
      rw [act, poll]
      split
      · split <;> exact ih
      · exact ih
    | shutdown => exact ih

/-- What is handled goes behind a collected history, whose bytes are within the limit unless
only persistent messages are left. -/
theorem history_limited (size : LogOrTableMsgProto → Nat) :
    (∀ b : MessageBuffer, b.Accounted size → ∀ maxBytes,
      MessageBuffer.Collected size maxBytes b (b.gc size maxBytes)) ∧
    ∀ (options : ServerOptions) (limit : Nat) (s : EventLoop) (msg : LogOrTableMsgProto),
      options.memoryLimit = some limit → 0 < limit → Reached options size s →
        (s.handleMsg options size msg).history.Accounted size ∧
          ∃ kept, MessageBuffer.Collected size limit s.history kept ∧
            (s.handleMsg options size msg).history = kept.addMsg size msg := by
  refine ⟨fun b h maxBytes => MessageBuffer.gc_collected h maxBytes, ?_⟩
  intro options limit s msg hlimit hpos h
  have henabled : options.isHistoryEnabled = true := by
    rw [ServerOptions.isHistoryEnabled, hlimit]
    simpa using hpos.ne'
  have hkept : (s.handleMsg options size msg).history =
      (s.history.gc size limit).addMsg size msg := by
    rw [handleMsg, henabled, gcIfUsingTooMuchRam, hlimit]
    rfl
  have hcollected := MessageBuffer.gc_collected h.accounted limit
  exact ⟨hkept ▸ hcollected.accounted.addMsg msg, _, hcollected, hkept⟩

def tableOf (n : Nat) : LogOrTableMsgProto := .table "t" (List.replicate n 0)

def payloadSize : LogOrTableMsgProto → Nat
  | .table _ data => data.length
  | .logMsg ⟨some (.arrowMsg msg)⟩ => msg.payload.length
  | _ => 0

def twoTables : EventLoop :=
  [6, 6].foldl (fun s n => s.handleMsg { memoryLimit := some 10 } payloadSize (tableOf n)) {}

def threeTables : MessageBuffer :=
  [4, 6, 4].foldl (fun b n => b.addMsg payloadSize (tableOf n)) {}

/-- A message that is added takes the history above its limit, and where a message less leaves
exactly the limit, one more is dropped. -/
theorem limit_exceeded_and_undercut :
    (twoTables.history.persistent.queue = [] ∧ twoTables.history.totalBytes = 12) ∧
      (threeTables.gc payloadSize 10).disposable.queue = [tableOf 4] ∧
        bytes payloadSize [tableOf 6, tableOf 4] = 10 := by
  decide

def staticOf (n : Nat) : LogOrTableMsgProto :=
  .logMsg ⟨some (.arrowMsg ⟨none, some true, List.replicate n 0⟩)⟩

def mixedHistory : EventLoop :=
  [staticOf 5, tableOf 3, staticOf 5].foldl
    (fun s msg => s.act { memoryLimit := some 9 } payloadSize (.message msg)) {}

/-- The table goes and the first static message, the second one stays. -/
theorem history_limited_mixed :
    (mixedHistory.handleMsg { memoryLimit := some 9 } payloadSize (tableOf 1)).history.Accounted
        payloadSize ∧
      ∃ kept, MessageBuffer.Collected payloadSize 9 mixedHistory.history kept ∧
        (mixedHistory.handleMsg { memoryLimit := some 9 } payloadSize (tableOf 1)).history =
          kept.addMsg payloadSize (tableOf 1) ∧
        ShortestDropped payloadSize 9 10 [tableOf 3] kept.disposable.queue ∧
        ShortestDropped payloadSize 9 kept.disposable.sizeBytes [staticOf 5, staticOf 5]
          kept.static.queue := by
  have hreached : Reached { memoryLimit := some 9 } payloadSize mixedHistory :=
    .step (a := Action.message (staticOf 5)) (.step (a := Action.message (tableOf 3))
      (.step (a := Action.message (staticOf 5)) .init trivial) trivial) trivial
  obtain ⟨haccounted, kept, hkept, hadded⟩ := (history_limited payloadSize).2
    { memoryLimit := some 9 } 9 mixedHistory (tableOf 1) rfl (by decide) hreached
  refine ⟨haccounted, kept, hkept, hadded, hkept.disposable fun _ => ?_,
    hkept.static fun _ => ?_⟩ <;> simp only [← List.mem_tails] <;> decide

end EventLoop

end DimosViewer.Grpc
