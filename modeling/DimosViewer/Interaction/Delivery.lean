import DimosViewer.Interaction.Ws

/-!
# What a connection delivers

A step of the link leaves the messages on their way as they are, appends one, or
gives one up. So what is delivered stays in the order in which it was accepted.
-/

namespace DimosViewer.Interaction.Link

open Reach (Reachable)

variable {s : Link}

def sending (s : Link) : Option Message :=
  match s.client with
  | .connected m => m
  | _ => none

def delivered (s : Link) : List Message :=
  s.connections.reverse.flatMap (·.delivered)

def onTheWay (s : Link) : List Message :=
  s.sending.toList ++ s.queue

def history (s : Link) : List Message :=
  s.delivered ++ s.onTheWay

/-- The message that a step gives up, and what waits behind it. -/
def gaveUp? (s : Link) : ClientStep → Option (Message × List Message)
  | .sent false | .sendError false => s.sending.map (·, s.queue)
  | .tryRecv =>
    match s.client, s.queue with
    | .draining, m :: queue => some (m, queue)
    | _, _ => none
  | _ => none

/-- A client that is connected is so on the latest connection. -/
def HasConnection (s : Link) : Prop :=
  ∀ m, s.client = .connected m → ∃ c rest, s.connections = c :: rest

-- ---------------------------------------------------------------------------
-- One step
-- ---------------------------------------------------------------------------

theorem sending_of_connected (h : s.client = .connected m) : s.sending = m := by
  rw [sending, h]

theorem delivered_cons (h : s.connections = c :: rest) :
    s.delivered = (rest.reverse.flatMap (·.delivered)) ++ c.delivered := by
  simp [delivered, h]

theorem delivered_deliver (h : s.connections = c :: rest) (m : Message) :
    (s.deliver m).delivered = s.delivered ++ [m] := by
  rw [delivered_cons h, List.append_assoc]
  exact delivered_cons (c := { c with delivered := c.delivered ++ [m] }) (by rw [deliver, h])

theorem connections_settle (s : Link) (m : Message) (arrived : Bool) (client : Client) :
    (s.settle m arrived client).connections =
      if arrived then (s.deliver m).connections else s.connections := by
  cases arrived <;> rfl

inductive Moves (s : Link) : ClientStep → Link → Prop
  | idle : Moves s step s
  | connect : s.client = .connecting → Moves s (.connect true) s.connect
  | refused : s.client = .connecting → Moves s (.connect false) { s with client := .draining }
  | recv {queue : List Message} : s.client = .connected none → s.queue = m :: queue →
      Moves s .recv { s with client := .connected (some m), queue }
  | finish : s.client = .connected none → Moves s .recv { s with client := .stopped }
  | sent : s.client = .connected (some m) →
      Moves s (.sent arrived) (s.settle m arrived (.connected none))
  | failed : s.client = .connected (some m) →
      Moves s (.sendError arrived) (s.settle m arrived .draining)
  | closed : s.client = .connected none → Moves s .readerExit { s with client := .draining }
  | drained {queue : List Message} : s.client = .draining → s.queue = m :: queue →
      Moves s .tryRecv { s with queue }
  | drainedAll : s.client = .draining → s.queue = [] →
      Moves s .tryRecv { s with client := .sleeping }
  | woke : s.client = .sleeping → Moves s .wake { s with client := .connecting }

theorem moves (s : Link) (step : ClientStep) : s.Moves step (s.clientStep step) := by
  cases step with
  | connect ok =>
    simp only [clientStep]
    split
    case h_1 hc => cases ok <;> [exact .refused hc; exact .connect hc]
    case h_2 => exact .idle
  | recv =>
    simp only [clientStep]
    split
    case h_1 hc hq => exact .recv hc hq
    case h_2 hc _ => split <;> [exact .finish hc; exact .idle]
    case h_3 => exact .idle
  | sent arrived =>
    simp only [clientStep]
    split
    case h_1 hc => exact .sent hc
    case h_2 => exact .idle
  | sendError arrived =>
    simp only [clientStep]
    split
    case h_1 hc => exact .failed hc
    case h_2 => exact .idle
  | readerExit =>
    simp only [clientStep]
    split
    case h_1 hc => exact .closed hc
    case h_2 => exact .idle
  | tryRecv =>
    simp only [clientStep]
    split
    case h_1 hc hq => exact .drained hc hq
    case h_2 hc hq => exact .drainedAll hc hq
    case h_3 => exact .idle
  | wake =>
    simp only [clientStep]
    split
    case h_1 hc => exact .woke hc
    case h_2 => exact .idle

theorem broadcast_cases (s : Link) (event : WsEvent) :
    s.queue.length < QUEUE_CAPACITY ∧ (s.broadcast event).1 = { s with
        accepted := s.accepted ++ [event]
        queue := s.queue ++ [⟨s.accepted.length, event⟩] } ∨
      ¬ s.queue.length < QUEUE_CAPACITY ∧ (s.broadcast event).1 = s := by
  rw [broadcast]
  split
  case isTrue h => exact .inl ⟨h, rfl⟩
  case isFalse h => exact .inr ⟨h, rfl⟩

-- ---------------------------------------------------------------------------
-- Invariants of a step
-- ---------------------------------------------------------------------------

theorem HasConnection.moves (h : s.HasConnection) (hs : s.Moves step s') : s'.HasConnection := by
  intro m hm
  cases hs with
  | idle => exact h m hm
  | connect => exact ⟨_, _, rfl⟩
  | recv hc => exact h _ hc
  | @sent _ arrived hc =>
    obtain ⟨c, rest, hcons⟩ := h _ hc
    cases arrived with
    | true => exact ⟨_, _, by rw [connections_settle, if_pos rfl, deliver, hcons]⟩
    | false => exact ⟨c, rest, hcons⟩
  | drained hc => exact h m hm
  | _ => cases hm

theorem HasConnection.broadcast (h : s.HasConnection) (event : WsEvent) :
    (s.broadcast event).1.HasConnection := by
  obtain ⟨-, he⟩ | ⟨-, he⟩ := s.broadcast_cases event <;> exact he.symm ▸ h

theorem HasConnection.act (h : s.HasConnection) (a : Action) : (s.act a).HasConnection := by
  cases a with
  | send event =>
    rw [Link.act]
    split
    · exact h
    · exact h.broadcast event
  | hangUp => exact h
  | client step => exact h.moves (s.moves step)

theorem history_broadcast (s : Link) (event : WsEvent) :
    s.queue.length < QUEUE_CAPACITY ∧
        (s.broadcast event).1.accepted = s.accepted ++ [event] ∧
        (s.broadcast event).1.history = s.history ++ [⟨s.accepted.length, event⟩] ∨
      ¬ s.queue.length < QUEUE_CAPACITY ∧ (s.broadcast event).1 = s := by
  refine (s.broadcast_cases event).imp_left fun ⟨hroom, he⟩ => ⟨hroom, ?_⟩
  rw [he]
  refine ⟨rfl, ?_⟩
  simp only [history, onTheWay, ← List.append_assoc]
  rfl

theorem history_settle (h : s.HasConnection) (hc : s.client = .connected (some m))
    (arrived : Bool) {client : Client}
    (hidle : client = .connected none ∨ client = .draining) :
    (s.settle m arrived client).accepted = s.accepted ∧
      (s.settle m arrived client).history =
        if arrived then s.history else s.delivered ++ s.queue := by
  have hsending : (s.settle m arrived client).sending = none := by
    obtain rfl | rfl := hidle <;> rfl
  obtain ⟨c, rest, hcons⟩ := h _ hc
  cases arrived with
  | true =>
    refine ⟨rfl, ?_⟩
    have hd : (s.settle m true client).delivered = s.delivered ++ [m] :=
      delivered_deliver hcons m
    rw [if_pos rfl, history, hd, onTheWay, hsending, history, onTheWay, sending_of_connected hc,
      List.append_assoc]
    rfl
  | false =>
    refine ⟨rfl, ?_⟩
    rw [history, onTheWay, hsending]
    rfl

theorem history_moves (h : s.HasConnection) (hs : s.Moves step s') :
    s'.accepted = s.accepted ∧
      (s'.history = s.history ∨
        ∃ m behind, s.gaveUp? step = some (m, behind) ∧ s.history = s.delivered ++ m :: behind ∧
          s'.history = s.delivered ++ behind) := by
  have hsent {m : Message} (hc : s.client = .connected (some m)) : s.sending = some m :=
    sending_of_connected hc
  have hkept {m : Message} (hc : s.client = .connected (some m)) :
      s.history = s.delivered ++ m :: s.queue := by
    rw [history, onTheWay, hsent hc]
    rfl
  cases hs with
  | idle => exact ⟨rfl, .inl rfl⟩
  | connect hc => exact ⟨rfl, .inl (by simp [Link.connect, history, delivered, onTheWay, sending, hc])⟩
  | refused hc => exact ⟨rfl, .inl (by simp [history, delivered, onTheWay, sending, hc])⟩
  | recv hc hq => exact ⟨rfl, .inl (by simp [history, delivered, onTheWay, sending, hc, hq])⟩
  | finish hc => exact ⟨rfl, .inl (by simp [history, delivered, onTheWay, sending, hc])⟩
  | closed hc => exact ⟨rfl, .inl (by simp [history, delivered, onTheWay, sending, hc])⟩
  | drainedAll hc => exact ⟨rfl, .inl (by simp [history, delivered, onTheWay, sending, hc])⟩
  | woke hc => exact ⟨rfl, .inl (by simp [history, delivered, onTheWay, sending, hc])⟩
  | @sent m arrived hc =>
    obtain ⟨ha, hh⟩ := history_settle h hc arrived (.inl rfl)
    refine ⟨ha, ?_⟩
    cases arrived with
    | true => exact .inl hh
    | false => exact .inr ⟨m, s.queue, by rw [gaveUp?, hsent hc]; rfl, hkept hc, hh⟩
  | @failed m arrived hc =>
    obtain ⟨ha, hh⟩ := history_settle h hc arrived (.inr rfl)
    refine ⟨ha, ?_⟩
    cases arrived with
    | true => exact .inl hh
    | false => exact .inr ⟨m, s.queue, by rw [gaveUp?, hsent hc]; rfl, hkept hc, hh⟩
  | @drained m queue hc hq =>
    have hs : s.sending = none := by rw [sending, hc]
    refine ⟨rfl, .inr ⟨m, queue, ?_, ?_, ?_⟩⟩
    · simp [gaveUp?, hc, hq]
    · simp [history, onTheWay, hs, hq]
    · simp [history, onTheWay, delivered, sending, hc]

-- ---------------------------------------------------------------------------
-- Order
-- ---------------------------------------------------------------------------

/-- The messages are in the order of their numbers, and are what was accepted under them. -/
def Numbered (s : Link) : Prop :=
  s.history.Pairwise (fun m n => m.seq < n.seq) ∧
    ∀ m ∈ s.history, s.accepted[m.seq]? = some m.event

theorem Numbered.broadcast (h : s.Numbered) (event : WsEvent) :
    (s.broadcast event).1.Numbered := by
  obtain ⟨-, ha, hh⟩ | ⟨-, he⟩ := s.history_broadcast event
  · rw [Numbered, ha, hh]
    have hlt : ∀ m ∈ s.history, m.seq < s.accepted.length := fun m hm =>
      (List.getElem?_eq_some_iff.mp (h.2 m hm)).1
    refine ⟨List.pairwise_append.mpr ⟨h.1, List.pairwise_singleton _ _, ?_⟩, ?_⟩
    · rintro m hm n hn
      rw [List.mem_singleton.mp hn]
      exact hlt m hm
    · intro m hm
      rcases List.mem_append.mp hm with hm | hm
      · rw [List.getElem?_append_left (hlt m hm)]
        exact h.2 m hm
      · rw [List.mem_singleton.mp hm]
        exact List.getElem?_concat_length
  · exact he.symm ▸ h

theorem Numbered.moves (h : s.Numbered) (hcon : s.HasConnection) (hs : s.Moves step s') :
    s'.Numbered := by
  obtain ⟨ha, hh⟩ := history_moves hcon hs
  have hsub : s'.history.Sublist s.history := by
    obtain hh | ⟨m, behind, -, hh, hh'⟩ := hh
    · exact hh ▸ .refl _
    · rw [hh, hh']
      exact (List.sublist_cons_self m behind).append_left _
  exact ⟨h.1.sublist hsub, fun m hm => ha ▸ h.2 m (hsub.subset hm)⟩

structure Fresh (s : Link) : Prop where
  established : ∀ c ∈ s.connections, c.establishedAt ≤ s.accepted.length
  delivered : ∀ c ∈ s.connections, ∀ m ∈ c.delivered, c.establishedAt ≤ m.seq
  onTheWay : ∀ m, s.client = .connected m → ∀ c rest, s.connections = c :: rest →
    ∀ m ∈ s.onTheWay, c.establishedAt ≤ m.seq

def ConnectsEmpty (s : Link) (a : Action) : Prop :=
  a = .client (.connect true) → s.client = .connecting → s.queue = []

instance (s : Link) (a : Action) : Decidable (s.ConnectsEmpty a) :=
  inferInstanceAs (Decidable (_ → _ → _))

theorem Fresh.broadcast (h : s.Fresh) (event : WsEvent) : (s.broadcast event).1.Fresh := by
  obtain ⟨-, he⟩ | ⟨-, he⟩ := s.broadcast_cases event
  · rw [he]
    refine ⟨fun c hc => ?_, h.delivered, fun m hm c rest hcons n hn => ?_⟩
    · rw [List.length_append]
      exact Nat.le_trans (h.established c hc) (Nat.le_add_right _ _)
    · have hn : n ∈ s.onTheWay ++ [⟨s.accepted.length, event⟩] := by
        rw [Link.onTheWay, List.append_assoc]
        exact hn
      rcases List.mem_append.mp hn with hn | hn
      · exact h.onTheWay m hm c rest hcons n hn
      · rw [List.mem_singleton.mp hn]
        exact h.established c (hcons ▸ List.mem_cons_self)
  · exact he.symm ▸ h

theorem mem_deliver (hc : c ∈ (s.deliver m).connections) :
    c ∈ s.connections ∨ ∃ c' rest, s.connections = c' :: rest ∧
      c = { c' with delivered := c'.delivered ++ [m] } := by
  cases hcons : s.connections with
  | nil =>
    rw [deliver, hcons] at hc
    cases hc
  | cons c' rest =>
    rw [deliver, hcons] at hc
    rcases List.mem_cons.mp hc with rfl | hc
    · exact .inr ⟨c', rest, rfl, rfl⟩
    · exact .inl (List.mem_cons_of_mem _ hc)

theorem Fresh.deliver (h : s.Fresh) (hm : s.client = .connected (some m)) :
    (∀ c ∈ (s.deliver m).connections, c.establishedAt ≤ s.accepted.length) ∧
      ∀ c ∈ (s.deliver m).connections, ∀ n ∈ c.delivered, c.establishedAt ≤ n.seq := by
  refine ⟨fun c hc => ?_, fun c hc n hn => ?_⟩
  · obtain hc | ⟨c', rest, hcons, rfl⟩ := mem_deliver hc
    · exact h.established c hc
    · exact h.established c' (hcons ▸ List.mem_cons_self)
  · obtain hc | ⟨c', rest, hcons, rfl⟩ := mem_deliver hc
    · exact h.delivered c hc n hn
    · rcases List.mem_append.mp hn with hn | hn
      · exact h.delivered c' (hcons ▸ List.mem_cons_self) n hn
      · rw [List.mem_singleton.mp hn]
        refine h.onTheWay _ hm c' rest hcons m ?_
        rw [Link.onTheWay, sending_of_connected hm]
        exact List.mem_cons_self

theorem Fresh.settle (h : s.Fresh) (hm : s.client = .connected (some m)) (arrived : Bool)
    (client : Client) :
    (∀ c ∈ (s.settle m arrived client).connections, c.establishedAt ≤
      (s.settle m arrived client).accepted.length) ∧
      ∀ c ∈ (s.settle m arrived client).connections, ∀ n ∈ c.delivered,
        c.establishedAt ≤ n.seq := by
  cases arrived with
  | true => exact h.deliver hm
  | false => exact ⟨h.established, h.delivered⟩

theorem Fresh.moves (h : s.Fresh) (hok : s.ConnectsEmpty (.client step)) (hs : s.Moves step s') :
    s'.Fresh := by
  cases hs with
  | idle => exact h
  | connect hc =>
    refine ⟨fun c hmem => ?_, fun c hmem => ?_, fun m hm c rest hcons n hn => ?_⟩
    · rcases List.mem_cons.mp hmem with rfl | hmem
      · exact Nat.le_refl _
      · exact h.established c hmem
    · rcases List.mem_cons.mp hmem with rfl | hmem
      · exact nofun
      · exact h.delivered c hmem
    · rw [Link.onTheWay, Link.connect, hok rfl hc] at hn
      cases hn
  | @recv m queue hc hq =>
    refine ⟨h.established, h.delivered, fun m' hm c rest hcons n hn => ?_⟩
    refine h.onTheWay _ hc c rest hcons n ?_
    rw [Link.onTheWay, sending_of_connected hc, hq]
    exact hn
  | @sent m arrived hm =>
    obtain ⟨hest, hdel⟩ := h.settle hm arrived (.connected none)
    refine ⟨hest, hdel, fun m' hm' c rest hcons n hn => ?_⟩
    obtain ⟨c', rest', hcons', he⟩ : ∃ c' rest', s.connections = c' :: rest' ∧
        c.establishedAt = c'.establishedAt := by
      rw [connections_settle] at hcons
      cases arrived with
      | false => exact ⟨c, rest, hcons, rfl⟩
      | true =>
        rw [if_pos rfl] at hcons
        cases hs : s.connections with
        | nil => simp [Link.deliver, hs] at hcons
        | cons c' rest' =>
          rw [Link.deliver, hs] at hcons
          exact ⟨c', rest', rfl, by rw [← (List.cons.inj hcons).1]⟩
    cases hm'
    rw [he]
    refine h.onTheWay _ hm c' rest' hcons' n ?_
    rw [Link.onTheWay, sending_of_connected hm]
    refine List.mem_cons_of_mem _ ?_
    cases arrived <;> exact hn
  | @failed m arrived hm =>
    obtain ⟨hest, hdel⟩ := h.settle hm arrived .draining
    exact ⟨hest, hdel, nofun⟩
  | drained hc _ => exact ⟨h.established, h.delivered, fun m hm => by cases hc.symm.trans hm⟩
  | _ => exact ⟨h.established, h.delivered, nofun⟩

-- ---------------------------------------------------------------------------
-- Runs
-- ---------------------------------------------------------------------------

structure Ordered (s : Link) : Prop where
  numbered : s.Numbered
  hasConnection : s.HasConnection

theorem Ordered.act (h : s.Ordered) (a : Action) : (s.act a).Ordered := by
  refine ⟨?_, h.hasConnection.act a⟩
  cases a with
  | send event =>
    rw [Link.act]
    split
    · exact h.numbered
    · exact h.numbered.broadcast event
  | hangUp => exact h.numbered
  | client step => exact h.numbered.moves h.hasConnection (s.moves step)

theorem ordered_new : ({} : Link).Ordered where
  numbered := ⟨.nil, fun _ hm => absurd hm List.not_mem_nil⟩
  hasConnection _ hm := nomatch hm

theorem Reached.ordered {ok : Link → Action → Prop} (h : Reached ok s) : s.Ordered :=
  h.invariant ordered_new fun _ a hs _ => hs.act a

theorem Fresh.act (h : s.Fresh) {a : Action} (hok : s.ConnectsEmpty a) : (s.act a).Fresh := by
  cases a with
  | send event =>
    rw [Link.act]
    split
    · exact h
    · exact h.broadcast event
  | hangUp => exact ⟨h.established, h.delivered, h.onTheWay⟩
  | client step => exact h.moves hok (s.moves step)

theorem fresh_new : ({} : Link).Fresh where
  established _ hc := absurd hc List.not_mem_nil
  delivered _ hc := absurd hc List.not_mem_nil
  onTheWay _ hm := nomatch hm

/-- On every connection of every run, messages are delivered as they were accepted, in order and
at most once. -/
theorem in_order_of_reached {ok : Link → Action → Prop} (h : Reached ok s) :
    ∀ c ∈ s.connections, c.delivered.Pairwise (fun m n => m.seq < n.seq) ∧
      ∀ m ∈ c.delivered, s.accepted[m.seq]? = some m.event := by
  obtain ⟨hp, ha⟩ := h.ordered.numbered
  intro c hc
  have hsub : c.delivered.Sublist s.history :=
    (List.sublist_flatten_of_mem (List.mem_map_of_mem (List.mem_reverse.mpr hc))).trans
      (List.sublist_append_left _ _)
  exact ⟨hp.sublist hsub, fun m hm => ha m (hsub.subset hm)⟩

/-- If connections are only established while nothing is queued, each message that is delivered on
one was accepted after it was established, and messages are delivered in order and at most once. -/
theorem fresh_of_reached (h : Reached ConnectsEmpty s) :
    ∀ c ∈ s.connections, (∀ m ∈ c.delivered, c.establishedAt ≤ m.seq) ∧
      c.delivered.Pairwise (fun m n => m.seq < n.seq) ∧
      ∀ m ∈ c.delivered, s.accepted[m.seq]? = some m.event := by
  have hfresh : s.Fresh := h.invariant fresh_new fun _ _ hs hok => hs.act hok
  exact fun c hc => ⟨hfresh.delivered c hc, in_order_of_reached h c hc⟩

def reconnectRun : List Action :=
  [.client (.connect true), .client .readerExit, .client .tryRecv, .client .wake,
    .client (.connect true), .send (.twist 1 0 0 0 0 0), .client .recv, .client (.sent true)]

theorem fresh_of_reached_reconnectRun :
    ∃ c ∈ (reconnectRun.foldl act {}).connections, c.delivered ≠ [] ∧
      (∀ m ∈ c.delivered, c.establishedAt ≤ m.seq) ∧
      c.delivered.Pairwise (fun m n => m.seq < n.seq) ∧
      ∀ m ∈ c.delivered, (reconnectRun.foldl act {}).accepted[m.seq]? = some m.event := by
  have hc : (⟨0, [⟨0, .twist 1 0 0 0 0 0⟩]⟩ : Connection) ∈
      (reconnectRun.foldl act {}).connections := by decide
  exact ⟨_, hc, by decide, fresh_of_reached (Reachable.foldl .init (by decide)) _ hc⟩

/-- A twist that is sent while the client sleeps is delivered once it is connected again. -/
theorem stale_after_reconnect :
    ∃ s, Reached (fun _ _ => True) s ∧
      ∃ c ∈ s.connections, ∃ m ∈ c.delivered, m.seq < c.establishedAt :=
  ⟨[Action.client (.connect true), .client .readerExit, .client .tryRecv,
      .send (.twist 1 0 0 0 0 0), .client .wake, .client (.connect true), .client .recv,
      .client (.sent true)].foldl act {},
    Reachable.foldl .init (by simp [Reachable.Allows]),
    ⟨1, [⟨0, .twist 1 0 0 0 0 0⟩]⟩, by decide, ⟨0, .twist 1 0 0 0 0 0⟩, by decide, by decide⟩

end DimosViewer.Interaction.Link
