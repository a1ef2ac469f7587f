import Mathlib.Data.List.Nodup
import DimosViewer.Grpc.MessageProxy

/-!
# What a client of the message proxy gets

The stream of a client interleaves the history as it was when the client came with what was
handled since. The history is known by the positions of its messages among those handled:
all of them in the persistent queue, the last ones in the other two.
-/

namespace DimosViewer.Grpc

inductive Interleaved : List α → List α → List α → Prop
  | nil : Interleaved [] [] []
  | left (h : Interleaved xs ys zs) : Interleaved (xs ++ [z]) ys (zs ++ [z])
  | right (h : Interleaved xs ys zs) : Interleaved xs (ys ++ [z]) (zs ++ [z])

theorem pair_sublist {l : List Nat} (hl : l.Pairwise (· < ·)) (hi : i ∈ l) (hj : j ∈ l)
    (hlt : i < j) : [i, j].Sublist l := by
  induction l with
  | nil => cases hi
  | cons k l ih =>
    obtain ⟨hk, hl⟩ := List.pairwise_cons.mp hl
    rcases List.mem_cons.mp hi with rfl | hi'
    · rcases List.mem_cons.mp hj with rfl | hj'
      · exact absurd hlt (Nat.lt_irrefl _)
      · exact (List.singleton_sublist.mpr hj').cons_cons _
    · rcases List.mem_cons.mp hj with rfl | hj'
      · exact absurd (hk i hi') (Nat.lt_asymm hlt)
      · exact (ih hl hi' hj').cons _

-- ---------------------------------------------------------------------------
-- Queues
-- ---------------------------------------------------------------------------

inductive Queue where
  | persistent
  | static
  | disposable
deriving DecidableEq

def queueOf : LogOrTableMsgProto → Option Queue
  | .logMsg ⟨none⟩ => none
  | .logMsg ⟨some (.arrowMsg inner)⟩ =>
    if inner.storeId.any (·.kind = .blueprint) then some .persistent
    else if inner.isStatic = some true then some .static
    else some .disposable
  | .logMsg _ => some .persistent
  | .table .. | .uiCommand _ => some .disposable

namespace MessageBuffer

def queue (b : MessageBuffer) : Queue → List LogOrTableMsgProto
  | .persistent => b.persistent.queue
  | .static => b.static.queue
  | .disposable => b.disposable.queue

theorem addMsg_queue (size : LogOrTableMsgProto → Nat) (b : MessageBuffer)
    (msg : LogOrTableMsgProto) (q : Queue) :
    (b.addMsg size msg).queue q = b.queue q ++ if queueOf msg = some q then [msg] else [] := by
  match msg with
  | .logMsg ⟨none⟩ => simp [addMsg, addLogMsg, queueOf]
  | .logMsg ⟨some (.setStoreInfo _)⟩ | .logMsg ⟨some (.blueprintActivationCommand _)⟩
  | .table .. | .uiCommand _ =>
    cases q <;> simp [addMsg, addLogMsg, queueOf, queue, MsgQueue.pushBack]
  | .logMsg ⟨some (.arrowMsg inner)⟩ =>
    simp only [addMsg, addLogMsg, queueOf]
    split
    · cases q <;> simp [queue, MsgQueue.pushBack]
    split <;> cases q <;> simp [queue, MsgQueue.pushBack]

theorem dropOldest_queue (size : LogOrTableMsgProto → Nat) (maxBytes others : Nat)
    (queue : List LogOrTableMsgProto) (sizeBytes : Nat) :
    (dropOldest size maxBytes others queue sizeBytes).queue <:+ queue := by
  fun_induction dropOldest with
  | case1 => exact List.suffix_refl _
  | case2 => exact List.suffix_cons ..
  | case3 _ _ _ _ ih => exact ih.trans (List.suffix_cons ..)

/-- Only the oldest messages go, and none of the persistent ones. -/
theorem gc_queue (size : LogOrTableMsgProto → Nat) (b : MessageBuffer) (maxBytes : Nat)
    (q : Queue) : (b.gc size maxBytes).queue q <:+ b.queue q ∧
      (q = .persistent → (b.gc size maxBytes).queue q = b.queue q) := by
  rw [gc]
  split
  · exact ⟨List.suffix_refl _, fun _ => rfl⟩
  · dsimp only
    split <;> cases q <;> first
      | exact ⟨List.suffix_refl _, fun _ => rfl⟩
      | exact ⟨dropOldest_queue .., by simp⟩

end MessageBuffer

-- ---------------------------------------------------------------------------
-- What is retained
-- ---------------------------------------------------------------------------

def positions (messages : List LogOrTableMsgProto) (q : Queue) : List Nat :=
  (List.range messages.length).filter fun i => messages[i]?.bind queueOf = some q

theorem positions_increasing (messages : List LogOrTableMsgProto) (q : Queue) :
    (positions messages q).Pairwise (· < ·) :=
  List.pairwise_lt_range.filter _

theorem mem_positions {messages : List LogOrTableMsgProto} :
    i ∈ positions messages q ↔ ∃ msg, messages[i]? = some msg ∧ queueOf msg = some q := by
  simp only [positions, List.mem_filter, List.mem_range, decide_eq_true_eq, Option.bind_eq_some_iff]
  refine ⟨And.right, fun h => ⟨?_, h⟩⟩
  obtain ⟨msg, hmsg, -⟩ := h
  exact (List.getElem?_eq_some_iff.mp hmsg).1

theorem positions_append (messages : List LogOrTableMsgProto) (msg : LogOrTableMsgProto)
    (q : Queue) : positions (messages ++ [msg]) q =
      positions messages q ++ if queueOf msg = some q then [messages.length] else [] := by
  have hold : (List.range messages.length).filter
      (fun i => (messages ++ [msg])[i]?.bind queueOf = some q) = positions messages q := by
    refine List.filter_congr fun i hi => ?_
    rw [List.getElem?_append_left (List.mem_range.mp hi)]
  rw [positions, List.length_append, List.length_singleton, List.range_succ, List.filter_append,
    hold, List.filter_singleton]
  simp

structure Retains (messages : List LogOrTableMsgProto) (history : MessageBuffer)
    (kept : Queue → List Nat) : Prop where
  queue (q : Queue) : (kept q).map (messages[·]?) = (history.queue q).map some
  suffix (q : Queue) : kept q <:+ positions messages q
  persistent : kept .persistent = positions messages .persistent

namespace Retains

theorem empty : Retains [] {} fun _ => [] where
  queue q := by cases q <;> rfl
  suffix _ := List.nil_suffix
  persistent := rfl

theorem gc (h : Retains messages history kept) (size : LogOrTableMsgProto → Nat)
    (maxBytes : Nat) : ∃ kept, Retains messages (history.gc size maxBytes) kept := by
  have hsuffix := MessageBuffer.gc_queue size history maxBytes
  refine ⟨fun q => (kept q).drop
    ((history.queue q).length - ((history.gc size maxBytes).queue q).length), ?_, ?_, ?_⟩
  · intro q
    rw [List.map_drop, h.queue, ← List.map_drop, ← List.suffix_iff_eq_drop.mp (hsuffix q).1]
  · exact fun q => (List.drop_suffix ..).trans (h.suffix q)
  · rw [(hsuffix .persistent).2 rfl, Nat.sub_self, List.drop_zero, h.persistent]

theorem addMsg (h : Retains messages history kept) (size : LogOrTableMsgProto → Nat)
    (msg : LogOrTableMsgProto) : ∃ kept,
      Retains (messages ++ [msg]) (history.addMsg size msg) kept := by
  refine ⟨fun q => kept q ++ if queueOf msg = some q then [messages.length] else [], ?_, ?_, ?_⟩
  · intro q
    have hold : (kept q).map ((messages ++ [msg])[·]?) = (kept q).map (messages[·]?) := by
      refine List.map_congr_left fun i hi => ?_
      obtain ⟨m, hm, -⟩ := mem_positions.mp ((h.suffix q).subset hi)
      exact List.getElem?_append_left (List.getElem?_eq_some_iff.mp hm).1
    rw [List.map_append, hold, h.queue, MessageBuffer.addMsg_queue, List.map_append]
    congr 1
    split <;> simp
  · intro q
    rw [positions_append]
    obtain ⟨dropped, hd⟩ := h.suffix q
    exact ⟨dropped, by rw [← hd, List.append_assoc]⟩
  · rw [positions_append, h.persistent]

end Retains

-- ---------------------------------------------------------------------------
-- The order of the history
-- ---------------------------------------------------------------------------

theorem PlaybackBehavior.map_chain (behavior : PlaybackBehavior) (f : α → β) (p s d : List α) :
    (behavior.chain p s d).map f = behavior.chain (p.map f) (s.map f) (d.map f) := by
  cases behavior <;> simp [chain]

theorem PlaybackBehavior.chain_perm (behavior : PlaybackBehavior) (p s d : List α) :
    (behavior.chain p s d).Perm (p ++ s ++ d) := by
  cases behavior with
  | oldestFirst => exact .refl _
  | newestFirst =>
    exact ((List.reverse_perm p).append (List.reverse_perm s)).append (List.reverse_perm d)

def IsStoreInfo (id : StoreId) (msg : LogOrTableMsgProto) : Prop :=
  msg = .logMsg ⟨some (.setStoreInfo (some ⟨some id⟩))⟩

def IsArrowMsg (id : StoreId) (msg : LogOrTableMsgProto) : Prop :=
  ∃ inner : ArrowMsg, inner.storeId = some id ∧ msg = .logMsg ⟨some (.arrowMsg inner)⟩

/-- The history, sent in this order of positions: each once, and what announces a store
before its data, except that blueprints are sent from the newest too. -/
structure Replayed (behavior : PlaybackBehavior) (messages : List LogOrTableMsgProto)
    (history : MessageBuffer) (order : List Nat) : Prop where
  sent : order.map (messages[·]?) = (history.all behavior).map some
  once : order.Nodup
  announced {i j : Nat} {id : StoreId} {info data : LogOrTableMsgProto} : i ∈ order → j ∈ order →
    i < j → messages[i]? = some info → IsStoreInfo id info → messages[j]? = some data →
    IsArrowMsg id data → behavior = .oldestFirst ∨ id.kind ≠ .blueprint → [i, j].Sublist order

theorem Retains.replayed (h : Retains messages history kept) (behavior : PlaybackBehavior) :
    Replayed behavior messages history
      (behavior.chain (kept .persistent) (kept .static) (kept .disposable)) := by
  have hmem : ∀ {q i}, i ∈ kept q → ∃ msg, messages[i]? = some msg ∧ queueOf msg = some q :=
    fun hi => mem_positions.mp ((h.suffix _).subset hi)
  have hincreasing : ∀ q, (kept q).Pairwise (· < ·) := fun q =>
    (positions_increasing messages q).sublist (h.suffix q).sublist
  have hdisjoint : ∀ {q q'}, q ≠ q' → (kept q).Disjoint (kept q') := by
    intro q q' hne i hi hi'
    obtain ⟨msg, hmsg, hq⟩ := hmem hi
    obtain ⟨msg', hmsg', hq'⟩ := hmem hi'
    rw [hmsg] at hmsg'
    cases hmsg'
    rw [hq] at hq'
    exact hne (Option.some.inj hq')
  have hnodup : ∀ q, (kept q).Nodup := fun q => (hincreasing q).imp Nat.ne_of_lt
  have hperm := behavior.chain_perm (kept .persistent) (kept .static) (kept .disposable)
  refine ⟨?_, hperm.nodup_iff.mpr ?_, ?_⟩
  · rw [behavior.map_chain, h.queue, h.queue, h.queue, ← behavior.map_chain]
    rfl
  · refine List.nodup_append'.mpr ⟨List.nodup_append'.mpr ⟨hnodup _, hnodup _,
      hdisjoint (by simp)⟩, hnodup _, ?_⟩
    exact List.disjoint_append_left.mpr ⟨hdisjoint (by simp), hdisjoint (by simp)⟩
  · intro i j id info data hiOrder hjOrder hlt hgeti hinfo hgetj hdata hcond
    have hin : ∀ {k msg q}, k ∈ behavior.chain (kept .persistent) (kept .static)
        (kept .disposable) → messages[k]? = some msg → queueOf msg = some q → k ∈ kept q := by
      intro k msg q hk hget hq
      have hk : ∃ q', k ∈ kept q' := by
        rcases List.mem_append.mp (hperm.mem_iff.mp hk) with hk | hk
        · exact (List.mem_append.mp hk).elim (⟨_, ·⟩) (⟨_, ·⟩)
        · exact ⟨_, hk⟩
      obtain ⟨q', hk⟩ := hk
      obtain ⟨msg', hget', hq'⟩ := hmem hk
      rw [hget] at hget'
      cases hget'
      rw [hq] at hq'
      cases hq'
      exact hk
    have hi : i ∈ kept .persistent := hin hiOrder hgeti (by rw [hinfo]; rfl)
    obtain ⟨inner, hid, rfl⟩ := hdata
    have hq : ∃ q, queueOf (.logMsg ⟨some (.arrowMsg inner)⟩) = some q ∧
        (q = .persistent → id.kind = .blueprint) := by
      simp only [queueOf, hid, Option.any_some, decide_eq_true_eq]
      split
      · exact ⟨_, rfl, fun _ => ‹_›⟩
      split <;> exact ⟨_, rfl, by simp⟩
    obtain ⟨q, hq, hblueprint⟩ := hq
    have hj := hin hjOrder hgetj hq
    -- The persistent queue is sent first.
    have hlater : q ≠ .persistent → [i, j].Sublist
        (behavior.chain (kept .persistent) (kept .static) (kept .disposable)) := by
      intro hne
      have hrest : j ∈ kept .static ++ kept .disposable := by
        cases q with
        | persistent => exact absurd rfl hne
        | static => exact List.mem_append_left _ hj
        | disposable => exact List.mem_append_right _ hj
      cases behavior with
      | oldestFirst =>
        rw [PlaybackBehavior.chain, List.append_assoc]
        exact (List.singleton_sublist.mpr hi).append (List.singleton_sublist.mpr hrest)
      | newestFirst =>
        rw [PlaybackBehavior.chain, List.append_assoc]
        refine (List.singleton_sublist.mpr (List.mem_reverse.mpr hi)).append
          (List.singleton_sublist.mpr ?_)
        simpa using hrest
    by_cases hp : q = .persistent
    · subst hp
      rcases hcond with rfl | hkind
      · rw [PlaybackBehavior.chain, List.append_assoc]
        exact (pair_sublist (hincreasing _) hi hj hlt).trans (List.sublist_append_left ..)
      · exact absurd (hblueprint rfl) hkind
    · exact hlater hp

-- ---------------------------------------------------------------------------
-- Polls
-- ---------------------------------------------------------------------------

namespace Client

def Idle (c : Client) : Source → Prop
  | .channel => c.channel = []
  | .history => c.history = []

def Exhausted (closed : Bool) (c : Client) : Source → Prop
  | .channel => c.channel = [] ∧ closed = true
  | .history => c.history = []

structure Takes (c : Client) (item : LogOrTableMsgProto) (c' : Client) : Prop where
  received : c'.received = c.received
  taken : (c.history = item :: c'.history ∧ c'.channel = c.channel) ∨
    (c.channel = item :: c'.channel ∧ c'.history = c.history)

theorem Exhausted.idle (h : Exhausted closed c source) : c.Idle source := by
  cases source with
  | channel => exact h.1
  | history => exact h

theorem Exhausted.takes (h : Exhausted closed c source) (ht : c.Takes item c') :
    c'.Exhausted closed source := by
  cases source with
  | channel =>
    obtain ⟨hempty, hclosed⟩ := h
    rcases ht.taken with ⟨-, hsame⟩ | ⟨htaken, -⟩
    · exact ⟨hsame ▸ hempty, hclosed⟩
    · rw [hempty] at htaken
      cases htaken
  | history =>
    rcases ht.taken with ⟨htaken, -⟩ | ⟨-, hsame⟩
    · rw [Exhausted] at h
      rw [h] at htaken
      cases htaken
    · exact hsame.trans h

theorem pollSource_cases (closed : Bool) (c : Client) (source : Source) :
    (∃ item c', c.pollSource closed source = (.ready (some item), c') ∧ c.Takes item c' ∧
      c'.streams = c.streams) ∨
    (c.pollSource closed source = (.ready none, c) ∧ c.Exhausted closed source) ∨
    (c.pollSource closed source = (.pending, c) ∧ c.Idle source) := by
  cases source with
  | channel =>
    rw [pollSource]
    cases hc : c.channel with
    | nil =>
      cases closed with
      | false => exact .inr (.inr ⟨rfl, hc⟩)
      | true => exact .inr (.inl ⟨rfl, hc, rfl⟩)
    | cons msg channel => exact .inl ⟨msg, _, rfl, ⟨rfl, .inr ⟨hc, rfl⟩⟩, rfl⟩
  | history =>
    rw [pollSource]
    cases hc : c.history with
    | nil => exact .inr (.inl ⟨rfl, hc⟩)
    | cons msg history => exact .inl ⟨msg, _, rfl, ⟨rfl, .inl ⟨hc, rfl⟩⟩, rfl⟩

theorem retain_cases (closed : Bool) (c : Client) (streams : List Source) :
    (∃ item kept c', c.retain closed streams = (some item, kept, c') ∧ c.Takes item c' ∧
      ∀ source ∈ streams, source ∉ kept → c.Exhausted closed source) ∨
    (∃ kept, c.retain closed streams = (none, kept, c) ∧ (∀ source ∈ streams, c.Idle source) ∧
      ∀ source ∈ streams, source ∉ kept → c.Exhausted closed source) := by
  induction streams with
  | nil => exact .inr ⟨[], rfl, by simp, by simp⟩
  | cons source streams ih =>
    rw [retain]
    rcases pollSource_cases closed c source with ⟨item, c', hpoll, htakes, -⟩ | ⟨hpoll, hend⟩ |
      ⟨hpoll, hidle⟩ <;> rw [hpoll]
    · exact .inl ⟨item, _, c', rfl, htakes, fun _ hs hn => absurd hs hn⟩
    · rcases ih with ⟨item, kept, c', hrest, htakes, hkept⟩ | ⟨kept, hrest, hidle, hkept⟩
      · refine .inl ⟨item, kept, c', hrest, htakes, fun s hs hn => ?_⟩
        rcases List.mem_cons.mp hs with rfl | hs
        · exact hend
        · exact hkept s hs hn
      · refine .inr ⟨kept, hrest, List.forall_mem_cons.mpr ⟨hend.idle, hidle⟩, fun s hs hn => ?_⟩
        rcases List.mem_cons.mp hs with rfl | hs
        · exact hend
        · exact hkept s hs hn
    · dsimp only
      have hcons : ∀ {kept : List Source},
          (∀ s ∈ streams, s ∉ kept → c.Exhausted closed s) →
          ∀ s ∈ source :: streams, s ∉ source :: kept → c.Exhausted closed s := by
        intro kept hkept s hs hn
        rw [List.mem_cons, not_or] at hn
        exact hkept s ((List.mem_cons.mp hs).resolve_left hn.1) hn.2
      rcases ih with ⟨item, kept, c', hrest, htakes, hkept⟩ | ⟨kept, hrest, hidles, hkept⟩ <;>
        rw [hrest]
      · exact .inl ⟨item, _, c', rfl, htakes, hcons hkept⟩
      · exact .inr ⟨_, rfl, List.forall_mem_cons.mpr ⟨hidle, hidles⟩, hcons hkept⟩

theorem pollChain_nil {c : Client} (h : c.history = []) :
    c.pollChain closed = c.pollSource closed .channel := by
  simp [pollChain, pollSource, h]

theorem pollNext_cases {c : Client} (behavior : PlaybackBehavior)
    (h : ∀ source, source ∉ c.streams → c.Exhausted closed source) :
    (∃ item c', c.pollNext behavior closed = (.ready (some item), c') ∧ c.Takes item c' ∧
      ∀ source, source ∉ c'.streams → c'.Exhausted closed source) ∨
    (∃ poll streams, c.pollNext behavior closed = (poll, { c with streams }) ∧
      (∀ item, poll ≠ .ready (some item)) ∧ c.history = [] ∧ c.channel = [] ∧
      ∀ source, source ∉ streams → c.Exhausted closed source) := by
  cases behavior with
  | newestFirst =>
    rw [pollNext, pollMerge]
    rcases retain_cases closed c c.streams with ⟨item, kept, c', hr, htakes, hkept⟩ |
      ⟨kept, hr, hidle, hkept⟩ <;> rw [hr]
    · refine .inl ⟨item, _, rfl, ⟨htakes.received, htakes.taken⟩, fun source hn => ?_⟩
      have hend : c.Exhausted closed source := by
        by_cases hs : source ∈ c.streams
        · exact hkept source hs hn
        · exact h source hs
      exact hend.takes ⟨htakes.received, htakes.taken⟩
    · have hall : ∀ source, c.Idle source := by
        intro source
        by_cases hs : source ∈ c.streams
        · exact hidle source hs
        · exact (h source hs).idle
      refine .inr ⟨_, kept, rfl, fun item => by split <;> simp, hall .history, hall .channel,
        fun source hn => ?_⟩
      by_cases hs : source ∈ c.streams
      · exact hkept source hs hn
      · exact h source hs
  | oldestFirst =>
    have htake : ∀ {item c'}, c.Takes item c' → c'.streams = c.streams →
        ∀ source, source ∉ c'.streams → c'.Exhausted closed source :=
      fun htakes hstreams source hn => (h source (hstreams ▸ hn)).takes htakes
    rw [pollNext]
    by_cases hc : c.history = []
    · rw [pollChain_nil hc]
      rcases pollSource_cases closed c .channel with ⟨item, c', hpoll, htakes, hstreams⟩ |
        ⟨hpoll, hend⟩ | ⟨hpoll, hidle⟩ <;> rw [hpoll]
      · exact .inl ⟨item, c', rfl, htakes, htake htakes hstreams⟩
      · exact .inr ⟨_, c.streams, rfl, by simp, hc, hend.idle, h⟩
      · exact .inr ⟨_, c.streams, rfl, by simp, hc, hidle, h⟩
    · obtain ⟨item, history, hc⟩ := List.exists_cons_of_ne_nil hc
      have htakes : c.Takes item { c with history } := ⟨rfl, .inl ⟨hc, rfl⟩⟩
      exact .inl ⟨item, _, by simp [pollChain, pollSource, hc], htakes, htake htakes rfl⟩

end Client

-- ---------------------------------------------------------------------------
-- Runs
-- ---------------------------------------------------------------------------

/-- A client that came when the history was as `history` says, and what was handled since. -/
structure Client.Follows (behavior : PlaybackBehavior) (history : MessageBuffer)
    (since : List LogOrTableMsgProto) (closed : Bool) (c : Client) : Prop where
  stream : ∃ replayed live, Interleaved (replayed.map .from) (live.map .from) c.received ∧
    replayed ++ c.history = history.all behavior ∧ live ++ c.channel = since
  ended (source : Source) : source ∉ c.streams → c.Exhausted closed source

namespace Client.Follows

theorem new (behavior : PlaybackBehavior) (kept : MessageBuffer) (closed : Bool) :
    Follows behavior kept [] closed { history := kept.all behavior } where
  stream := ⟨[], [], .nil, rfl, rfl⟩
  ended source := by cases source <;> simp

theorem message {c : Client} (h : c.Follows behavior kept since false)
    (msg : LogOrTableMsgProto) :
    Follows behavior kept (since ++ [msg]) false { c with channel := c.channel ++ [msg] } where
  stream := by
    obtain ⟨replayed, live, hi, hr, hl⟩ := h.stream
    exact ⟨replayed, live, hi, hr, by rw [← hl, List.append_assoc]⟩
  ended source hn := by
    cases source with
    | channel => exact absurd (h.ended .channel hn).2 (by simp)
    | history => exact h.ended .history hn

theorem close {c : Client} (h : c.Follows behavior kept since closed) :
    c.Follows behavior kept since true where
  stream := h.stream
  ended source hn := by
    cases source with
    | channel => exact ⟨(h.ended .channel hn).1, rfl⟩
    | history => exact h.ended .history hn

theorem takes {c : Client} (h : c.Follows behavior kept since closed) (ht : c.Takes item c')
    (hended : ∀ source, source ∉ c'.streams → c'.Exhausted closed source) :
    Follows behavior kept since closed { c' with received := c'.received ++ [.from item] } where
  stream := by
    obtain ⟨replayed, live, hi, hr, hl⟩ := h.stream
    rcases ht.taken with ⟨htaken, hsame⟩ | ⟨htaken, hsame⟩
    · refine ⟨replayed ++ [item], live, ?_, ?_, hsame ▸ hl⟩
      · rw [ht.received, List.map_append]
        exact hi.left
      · rw [List.append_assoc, List.singleton_append, ← htaken, hr]
    · refine ⟨replayed, live ++ [item], ?_, hsame ▸ hr, ?_⟩
      · rw [ht.received, List.map_append]
        exact hi.right
      · rw [List.append_assoc, List.singleton_append, ← htaken, hl]
  ended source hn := by
    cases source with
    | channel => exact hended .channel hn
    | history => exact hended .history hn

theorem complete {c : Client} (h : c.Follows behavior kept since closed)
    (hpoll : ∀ item, (c.pollNext behavior closed).1 ≠ .ready (some item)) :
    c.history = [] ∧ c.channel = [] := by
  rcases pollNext_cases behavior h.ended with ⟨item, c', hn, -⟩ | ⟨_, _, -, -, hhist, hchan, -⟩
  · exact absurd (congrArg Prod.fst hn) (hpoll item)
  · exact ⟨hhist, hchan⟩

end Client.Follows

namespace EventLoop

variable {options : ServerOptions} {size : LogOrTableMsgProto → Nat} {s : EventLoop}

theorem Reached.retains (henabled : options.isHistoryEnabled) (h : Reached options size s) :
    ∃ kept, Retains s.handled s.history kept := by
  induction h with
  | init => exact ⟨_, .empty⟩
  | @step s action _ _ ih =>
    obtain ⟨kept, hk⟩ := ih
    cases action with
    | message msg =>
      rw [act]
      split
      · exact ⟨kept, hk⟩
      · simp only [handleMsg, henabled, if_true]
        rw [gcIfUsingTooMuchRam]
        cases options.memoryLimit with
        | none => exact hk.addMsg size msg
        | some maxBytes =>
          obtain ⟨kept, hk⟩ := hk.gc size maxBytes
          exact hk.addMsg size msg
    | newClient =>
      rw [act]
      split <;> exact ⟨kept, hk⟩
    | poll i =>
      rw [act, poll]
      split
      · split <;> exact ⟨kept, hk⟩
      · exact ⟨kept, hk⟩
    | shutdown => exact ⟨kept, hk⟩

def Following (options : ServerOptions) (kept : MessageBuffer) (i n : Nat) (s : EventLoop) :
    Prop :=
  n ≤ s.handled.length ∧ ∃ c, s.clients[i]? = some c ∧
    c.Follows options.playbackBehavior kept (s.handled.drop n) s.closed

theorem Following.act (h : s.Following options kept i n) (action : Action) :
    (act options size s action).Following options kept i n := by
  obtain ⟨hn, c, hc, hf⟩ := h
  cases action with
  | message msg =>
    rw [EventLoop.act]
    split
    · exact ⟨hn, c, hc, hf⟩
    · rename_i hopen
      rw [Bool.not_eq_true] at hopen
      refine ⟨by simp only [handleMsg, List.length_append]; omega,
        { c with channel := c.channel ++ [msg] }, by simp [handleMsg, hc], ?_⟩
      simp only [handleMsg, List.drop_append_of_le_length hn, hopen] at hf ⊢
      exact hf.message msg
  | newClient =>
    rw [EventLoop.act]
    split
    · exact ⟨hn, c, hc, hf⟩
    · refine ⟨hn, c, ?_, hf⟩
      exact (List.getElem?_append_left (List.getElem?_eq_some_iff.mp hc).1).trans hc
  | poll j =>
    rw [EventLoop.act, poll]
    cases hj : s.clients[j]? with
    | none => exact ⟨hn, c, hc, hf⟩
    | some c' =>
      -- Another client's poll leaves this one as it is.
      have hother : j ≠ i → ∀ c'', (s.clients.set j c'')[i]? = some c :=
        fun hne c'' => (List.getElem?_set_ne hne).trans hc
      have hself : ∀ c'', (s.clients.set i c'')[i]? = some c'' := fun c'' =>
        List.getElem?_set_self (List.getElem?_eq_some_iff.mp hc).1
      by_cases hij : j = i
      · subst hij
        rw [hj] at hc
        cases hc
        dsimp only
        rcases Client.pollNext_cases options.playbackBehavior hf.ended with
          ⟨item, c'', hpoll, htakes, hended⟩ | ⟨poll, streams, hpoll, hnone, -, -, hended⟩
        · rw [hpoll]
          exact ⟨hn, _, hself _, hf.takes htakes hended⟩
        · rw [hpoll]
          have hsame : Client.Follows options.playbackBehavior kept (s.handled.drop n) s.closed
              { c with streams } := by
            refine ⟨hf.stream, fun source hs => ?_⟩
            cases source with
            | channel => exact hended .channel hs
            | history => exact hended .history hs
          match poll with
          | .ready (some item) => exact absurd rfl (hnone item)
          | .ready none | .pending => exact ⟨hn, _, hself _, hsame⟩
      · dsimp only
        split
        · exact ⟨hn, c, hother hij _, hf⟩
        · exact ⟨hn, c, hother hij _, hf⟩
  | shutdown => exact ⟨hn, c, hc, hf.close⟩

/-- What a client gets that came at `before`, until `after`: the history, then or in between
what is handled later, and nothing is left when there is nothing to read. -/
structure Delivered (options : ServerOptions) (before after : EventLoop) (c : Client) : Prop where
  replayed : ∃ order, Replayed options.playbackBehavior before.handled before.history order
  stream : ∃ replayed live, Interleaved (replayed.map .from) (live.map .from) c.received ∧
    replayed ++ c.history = before.history.all options.playbackBehavior ∧
    before.handled ++ (live ++ c.channel) = after.handled
  complete : (∀ item, (c.pollNext options.playbackBehavior after.closed).1 ≠ .ready (some item)) →
    c.history = [] ∧ c.channel = []

theorem handled_grows (s : EventLoop) (actions : List Action) :
    s.handled <+: (actions.foldl (act options size) s).handled := by
  induction actions generalizing s with
  | nil => exact List.prefix_refl _
  | cons action actions ih =>
    refine List.IsPrefix.trans ?_ (ih _)
    cases action with
    | message msg =>
      rw [act]
      split
      · exact List.prefix_refl _
      · exact List.prefix_append ..
    | newClient =>
      rw [act]
      split <;> exact List.prefix_refl _
    | poll i =>
      rw [act, poll]
      split
      · split <;> exact List.prefix_refl _
      · exact List.prefix_refl _
    | shutdown => exact List.prefix_refl _

end EventLoop

open EventLoop

theorem delivered (options : ServerOptions) (size : LogOrTableMsgProto → Nat)
    (henabled : options.isHistoryEnabled) {s : EventLoop} (hs : Reached options size s)
    (hopen : s.closed = false) (actions : List Action) :
    ∃ c, ((.newClient :: actions).foldl (act options size) s).clients[s.clients.length]? = some c ∧
      Delivered options s ((.newClient :: actions).foldl (act options size) s) c := by
  obtain ⟨kept, hk⟩ := hs.retains henabled
  have hnew : (act options size s .newClient).Following options s.history s.clients.length
      s.handled.length := by
    rw [act, hopen]
    refine ⟨Nat.le_refl _, _, List.getElem?_concat_length .., ?_⟩
    show Client.Follows _ _ (s.handled.drop s.handled.length) s.closed _
    rw [List.drop_length]
    exact .new ..
  have hrun : ∀ {s' : EventLoop}, s'.Following options s.history s.clients.length
      s.handled.length → ∀ actions : List Action,
      (actions.foldl (act options size) s').Following options s.history s.clients.length
        s.handled.length := by
    intro s' h actions
    induction actions generalizing s' with
    | nil => exact h
    | cons action actions ih => exact ih (h.act action)
  obtain ⟨-, c, hc, hf⟩ := hrun hnew actions
  refine ⟨c, hc, ⟨_, hk.replayed _⟩, ?_, hf.complete⟩
  obtain ⟨replayed, live, hi, hr, hl⟩ := hf.stream
  refine ⟨replayed, live, hi, hr, ?_⟩
  rw [hl]
  exact List.prefix_iff_eq_append.mp (handled_grows s (.newClient :: actions))

def sentBlueprint : List Action :=
  [.message (.logMsg ⟨some (.setStoreInfo (some ⟨some ⟨.blueprint, "b", none⟩⟩))⟩),
    .message (.logMsg ⟨some (.arrowMsg ⟨some ⟨.blueprint, "b", none⟩, some false, [1]⟩)⟩)]

theorem delivered_blueprint : ∃ c,
    ([.newClient, .poll 0, .message (.table "t" []), .poll 0, .poll 0].foldl (act {} fun _ => 1)
      (sentBlueprint.foldl (act {} fun _ => 1) {})).clients[0]? = some c ∧
    Delivered {} (sentBlueprint.foldl (act {} fun _ => 1) {})
      ([.newClient, .poll 0, .message (.table "t" []), .poll 0, .poll 0].foldl
        (act {} fun _ => 1) (sentBlueprint.foldl (act {} fun _ => 1) {})) c :=
  delivered {} (fun _ => 1) (by decide) (.foldl .init (by decide)) (by decide)
    [.poll 0, .message (.table "t" []), .poll 0, .poll 0]

/-- With the newest first, its data is sent before what announces it. -/
theorem newest_first_blueprint_reversed :
    ((sentBlueprint ++ [Action.newClient, .poll 0, .poll 0]).foldl
      (act { playbackBehavior := .newestFirst } fun _ => 1) {}).clients.map Client.received =
    [[.logMsg ⟨some (.arrowMsg ⟨some ⟨.blueprint, "b", none⟩, some false, [1]⟩)⟩,
      .logMsg ⟨some (.setStoreInfo (some ⟨some ⟨.blueprint, "b", none⟩⟩))⟩]] := by
  decide

end DimosViewer.Grpc
