import Mathlib.Data.List.Nodup
import Mathlib.Data.List.Perm.Subperm
import DimosViewer.Quota.BroadcastChannel

/-!
# No message is lost

A value that a receiver has not read is in flight, and so is one that is about to be sent.
There are never more in flight than the tokio channel has slots, so a slot is only used
again when everyone has read it.
-/

namespace DimosViewer.Quota

-- ---------------------------------------------------------------------------
-- Lists
-- ---------------------------------------------------------------------------

theorem length_le_filter {l : List α} {p : α → Bool} {indices : List Nat} (hn : indices.Nodup)
    (h : ∀ i ∈ indices, ∃ x, l[i]? = some x ∧ p x) : indices.length ≤ (l.filter p).length := by
  have hsub : indices ⊆ (l.zipIdx.filter (p ·.1)).map (·.2) := by
    intro i hi
    obtain ⟨x, hx, hp⟩ := h i hi
    have hmem : (x, i) ∈ l.zipIdx := List.mk_mem_zipIdx_iff_getElem?.mpr hx
    exact List.mem_map.mpr ⟨(x, i), List.mem_filter.mpr ⟨hmem, hp⟩, rfl⟩
  have hfilter : l.filter p = (l.zipIdx.filter (p ·.1)).map (·.1) := by
    conv => lhs; rw [← List.zipIdx_map_fst 0 l]
    rw [List.filter_map]
    rfl
  have := (hn.subperm hsub).length_le
  rwa [List.length_map, ← List.length_map (f := Prod.fst), ← hfilter] at this

theorem filter_set_perm {l : List α} {p : α → Bool} {i : Nat} {x y : α} (hx : l[i]? = some x)
    (hpx : p x) (hpy : p y = false) : (l.filter p).Perm (x :: (l.set i y).filter p) := by
  obtain ⟨hi, hget⟩ := List.getElem?_eq_some_iff.mp hx
  have hl : l = l.take i ++ x :: l.drop (i + 1) := by
    rw [← hget, List.getElem_cons_drop, List.take_append_drop]
  have hset : l.set i y = l.take i ++ y :: l.drop (i + 1) := by
    rw [List.set_eq_take_append_cons_drop, if_pos hi]
  rw [hset]
  conv => lhs; rw [hl]
  rw [List.filter_append, List.filter_append, List.filter_cons_of_pos hpx,
    List.filter_cons_of_neg (by simp [hpy])]
  exact List.perm_middle

theorem map_some_filterMap {l : List α} {f : α → Option β} (h : ∀ x ∈ l, (f x).isSome) :
    (l.filterMap f).map some = l.map f := by
  induction l with
  | nil => rfl
  | cons x l ih =>
    obtain ⟨y, hy⟩ := Option.isSome_iff_exists.mp (h x List.mem_cons_self)
    rw [List.filterMap_cons_some hy, List.map_cons, List.map_cons, hy,
      ih fun z hz => h z (List.mem_cons_of_mem _ hz)]

namespace Channel

section Laws

variable {cfg : Config} {size : T → Nat} {s : Channel T}

-- ---------------------------------------------------------------------------
-- What a run keeps
-- ---------------------------------------------------------------------------

def inFlight (s : Channel T) : List (TrackedMessage T) := s.tracked.filter (!·.dropped)

def valueOf (s : Channel T) (slot : Slot) : Option T := s.tracked[slot.msg]?.map (·.value)

def sent (s : Channel T) : List T := s.slots.filterMap s.valueOf

theorem mem_subscribed : i ∈ s.subscribed ↔ ∃ r, s.receivers[i]? = some r ∧ r.isSubscribed := by
  simp only [subscribed, List.mem_map, List.mem_filter, Prod.exists,
    List.mk_mem_zipIdx_iff_getElem?]
  constructor
  · rintro ⟨r, i', ⟨hr, hs⟩, rfl⟩
    exact ⟨r, hr, hs⟩
  · rintro ⟨r, hr, hs⟩
    exact ⟨r, i, ⟨hr, hs⟩, rfl⟩

/-- In a slot, in the hands of a sender, or in those of a receiver. -/
inductive Holder (cfg : Config) (s : Channel T) (msg : Nat) : Prop
  | slot {pos : Nat} {slot : Slot} (h : s.slots[pos]? = some slot) (hm : slot.msg = msg)
    (hu : slot.unread ≠ []) (hp : s.slots.length ≤ pos + cfg.capacity)
  | call {i : Nat} {call : SendCall T} (h : s.calls[i]? = some call) (hm : call.holds msg)
  | receiver {i : Nat} {r : Receiver T} (h : s.receivers[i]? = some r) (hm : r.holding = some msg)

theorem held_iff : s.held cfg msg ↔ s.Holder cfg msg := by
  simp only [held, Bool.or_eq_true, List.any_eq_true, Prod.exists, List.mk_mem_zipIdx_iff_getElem?,
    Bool.and_eq_true, beq_iff_eq, occupied, Bool.not_eq_true', List.isEmpty_eq_false_iff,
    decide_eq_true_eq]
  constructor
  · rintro ((⟨slot, pos, h, hm, hu, hp⟩ | ⟨call, h, hm⟩) | ⟨r, h, hm⟩)
    · exact .slot h hm hu hp
    · obtain ⟨i, h⟩ := List.mem_iff_getElem?.mp h
      exact .call h hm
    · obtain ⟨i, h⟩ := List.mem_iff_getElem?.mp h
      exact .receiver h hm
  · rintro (⟨h, hm, hu, hp⟩ | ⟨h, hm⟩ | ⟨h, hm⟩)
    · exact .inl (.inl ⟨_, _, h, hm, hu, hp⟩)
    · exact .inl (.inr ⟨_, List.mem_of_getElem? h, hm⟩)
    · exact .inr ⟨_, List.mem_of_getElem? h, hm⟩

theorem Holder.congr {s' : Channel T} (h : s'.Holder cfg msg) (hslots : s'.slots = s.slots)
    (hcalls : s'.calls = s.calls) (hreceivers : s'.receivers = s.receivers) :
    s.Holder cfg msg := by
  cases h with
  | slot h hm hu hp => exact .slot (hslots ▸ h) hm hu (hslots ▸ hp)
  | call h hm => exact .call (hcalls ▸ h) hm
  | receiver h hm => exact .receiver (hreceivers ▸ h) hm

/-- The numbers of the messages: given once, and sent once. -/
structure Numbered (s : Channel T) : Prop where
  issued {pos : Nat} {slot : Slot} : s.slots[pos]? = some slot → slot.msg < s.tracked.length
  slots {pos pos' : Nat} {slot slot' : Slot} : s.slots[pos]? = some slot →
    s.slots[pos']? = some slot' → slot.msg = slot'.msg → pos = pos'
  calls {i i' msg : Nat} {call call' : SendCall T} : s.calls[i]? = some call →
    s.calls[i']? = some call' → call.stage = .reserved msg → call'.stage = .reserved msg → i = i'
  unsent {i pos msg : Nat} {call : SendCall T} {slot : Slot} : s.calls[i]? = some call →
    call.stage = .reserved msg → s.slots[pos]? = some slot → slot.msg ≠ msg

structure Accounted (cfg : Config) (size : T → Nat) (s : Channel T) : Prop where
  bytes : s.locked.bytesInFlight = (s.inFlight.map (size ·.value)).sum
  messages : s.locked.messagesInFlight = s.inFlight.length
  maxMessages : s.locked.messagesInFlight ≤ cfg.maxMessages
  maxBytes : s.locked.bytesInFlight ≤ cfg.maxBytes ∨ s.locked.messagesInFlight ≤ 1

/-- Who has a copy keeps the message in flight. -/
def Alive (cfg : Config) (s : Channel T) : Prop :=
  ∀ {msg : Nat}, s.Holder cfg msg → ∃ t, s.tracked[msg]? = some t ∧ t.dropped = false

/-- What a receiver has not read is there for it. -/
structure Reading (cfg : Config) (s : Channel T) : Prop where
  inBounds {i : Nat} {r : Receiver T} : s.receivers[i]? = some r → r.isSubscribed →
    r.next ≤ s.slots.length ∧ s.slots.length ≤ r.next + cfg.capacity
  unread {i pos : Nat} {r : Receiver T} {slot : Slot} : s.receivers[i]? = some r →
    r.isSubscribed → r.next ≤ pos → s.slots[pos]? = some slot → i ∈ slot.unread
  position {i : Nat} {r : Receiver T} : s.receivers[i]? = some r → r.isSubscribed →
    r.since + r.received.length = r.next
  received {i : Nat} {r : Receiver T} : s.receivers[i]? = some r →
    r.received.map some <+: (s.slots.map s.valueOf).drop r.since

structure Regular (cfg : Config) (size : T → Nat) (s : Channel T) : Prop where
  numbered : s.Numbered
  accounted : s.Accounted cfg size
  alive : s.Alive cfg
  reading : s.Reading cfg

/-- What is in flight has a copy somewhere, or its drop is under way. -/
structure Drops (cfg : Config) (s : Channel T) : Prop where
  once : s.dropping.Nodup
  unheld {msg : Nat} : msg ∈ s.dropping → ¬ s.Holder cfg msg
  alive {msg : Nat} : msg ∈ s.dropping → ∃ t, s.tracked[msg]? = some t ∧ t.dropped = false
  counted {msg : Nat} {t : TrackedMessage T} : s.tracked[msg]? = some t → t.dropped = false →
    s.Holder cfg msg ∨ msg ∈ s.dropping

/-- What a step does to the copies: no one gets a copy of a message that has none left, and only a
drop that is under way ends. -/
structure Moves (cfg : Config) (s s' : Channel T) : Prop where
  holder {msg : Nat} : s'.Holder cfg msg → s.Holder cfg msg ∨ s.tracked.length ≤ msg
  dropping : s'.dropping.Sublist s.dropping
  kept {msg : Nat} {t : TrackedMessage T} : s.tracked[msg]? = some t → t.dropped = false →
    (msg ∈ s.dropping → msg ∈ s'.dropping) → s'.tracked[msg]? = some t
  counted {msg : Nat} {t : TrackedMessage T} : s'.tracked[msg]? = some t → t.dropped = false →
    s.tracked[msg]? = some t ∧ (msg ∈ s.dropping → msg ∈ s'.dropping) ∨ s'.Holder cfg msg

theorem Moves.of_holder {s' : Channel T} (htracked : s'.tracked = s.tracked)
    (hdropping : s'.dropping = s.dropping)
    (hholder : ∀ {msg : Nat}, s'.Holder cfg msg → s.Holder cfg msg) : s.Moves cfg s' where
  holder hm := .inl (hholder hm)
  dropping := hdropping ▸ List.Sublist.refl _
  kept ht _ _ := htracked ▸ ht
  counted ht _ := .inl ⟨htracked ▸ ht, fun hm => hdropping ▸ hm⟩

theorem Moves.of_counters {s' : Channel T} (h : s.Moves cfg s')
    (numReceivers subscribing notifying : Nat) :
    s.Moves cfg { s' with subscribing, notifying, locked := { s'.locked with numReceivers } } where
  holder hm := h.holder (hm.congr rfl rfl rfl)
  dropping := h.dropping
  kept := h.kept
  counted ht hd := (h.counted ht hd).imp_right fun hm => hm.congr rfl rfl rfl

structure Keeps (cfg : Config) (size : T → Nat) (s s' : Channel T) : Prop where
  moves : s.Moves cfg s'
  regular : s'.Regular cfg size

theorem Keeps.refl (h : s.Regular cfg size) : s.Keeps cfg size s :=
  ⟨.of_holder rfl rfl id, h⟩

namespace Regular

theorem alive_lt (h : s.Alive cfg) (hm : s.Holder cfg msg) : msg < s.tracked.length := by
  obtain ⟨t, ht, -⟩ := h hm
  exact (List.getElem?_eq_some_iff.mp ht).1

-- ---------------------------------------------------------------------------
-- Senders
-- ---------------------------------------------------------------------------

theorem of_calls (h : s.Regular cfg size) (calls : List (SendCall T))
    (numReceivers subscribing notifying : Nat)
    (hreserved : ∀ {i msg : Nat} {call' : SendCall T}, calls[i]? = some call' →
      call'.stage = .reserved msg → ∃ call, s.calls[i]? = some call ∧ call.stage = .reserved msg)
    (hholds : ∀ {i msg : Nat} {call' : SendCall T}, calls[i]? = some call' → call'.holds msg →
      s.Holder cfg msg) :
    s.Keeps cfg size { s with
      calls, subscribing, notifying, locked := { s.locked with numReceivers } } := by
  have hholder : ∀ {msg : Nat}, Holder cfg { s with
      calls, subscribing, notifying, locked := { s.locked with numReceivers } } msg →
      s.Holder cfg msg := by
    intro msg hm
    cases hm with
    | slot hs hm hu hp => exact .slot hs hm hu hp
    | call hc hm => exact hholds hc hm
    | receiver hr hm => exact .receiver hr hm
  refine ⟨.of_holder rfl rfl hholder, ⟨h.numbered.issued, h.numbered.slots, ?_, ?_⟩,
    ⟨h.accounted.bytes, h.accounted.messages, h.accounted.maxMessages, h.accounted.maxBytes⟩,
    fun hm => h.alive (hholder hm),
    ⟨h.reading.inBounds, h.reading.unread, h.reading.position, h.reading.received⟩⟩
  · intro i i' msg call call' hi hi' hstage hstage'
    obtain ⟨_, hi, hstage⟩ := hreserved hi hstage
    obtain ⟨_, hi', hstage'⟩ := hreserved hi' hstage'
    exact h.numbered.calls hi hi' hstage hstage'
  · intro i pos msg call slot hi hstage hslot
    obtain ⟨_, hi, hstage⟩ := hreserved hi hstage
    exact h.numbered.unsent hi hstage hslot

theorem setCall (h : s.Regular cfg size) {call' : SendCall T} (hi : s.calls[i]? = some call)
    (hreserved : ∀ msg, call'.stage = .reserved msg → call.stage = .reserved msg)
    (hholds : ∀ msg, call'.holds msg → call.holds msg) :
    s.Keeps cfg size (s.setCall i call') := by
  refine h.of_calls (s.calls.set i call') s.locked.numReceivers s.subscribing s.notifying
    (fun {j msg _} hj hstage => ?_) fun {j msg _} hj hm => ?_
  · rw [List.getElem?_set] at hj
    split at hj
    · rename_i hij
      split at hj
      · cases hj
        exact ⟨call, hij ▸ hi, hreserved msg hstage⟩
      · cases hj
    · exact ⟨_, hj, hstage⟩
  · rw [List.getElem?_set] at hj
    split at hj
    · split at hj
      · cases hj
        exact .call hi (hholds msg hm)
      · cases hj
    · exact .call hj hm

theorem notify (h : s.Regular cfg size) : s.Keeps cfg size s.notify := by
  rw [Channel.notify]
  split
  · exact .refl h
  refine h.of_calls (s.calls.map fun call =>
    if call.stage = .waiting false then { call with stage := .waiting true } else call)
    s.locked.numReceivers s.subscribing (s.notifying - 1)
    (fun {i msg _} hi hstage => ?_) fun {i msg _} hi hm => ?_
  · rw [List.getElem?_map, Option.map_eq_some_iff] at hi
    obtain ⟨call, hi, rfl⟩ := hi
    refine ⟨call, hi, ?_⟩
    split at hstage
    · cases hstage
    · exact hstage
  · rw [List.getElem?_map, Option.map_eq_some_iff] at hi
    obtain ⟨call, hi, rfl⟩ := hi
    refine .call hi ?_
    split at hm
    · simp [SendCall.holds] at hm
    · exact hm

theorem of_counters (h : s.Regular cfg size) (numReceivers subscribing notifying : Nat) :
    s.Keeps cfg size { s with subscribing, notifying, locked := { s.locked with numReceivers } } :=
  h.of_calls s.calls numReceivers subscribing notifying (fun hi hstage => ⟨_, hi, hstage⟩) .call

theorem send (h : s.Regular cfg size) (value : T) :
    s.Keeps cfg size { s with calls := s.calls ++ [{ value }] } := by
  refine h.of_calls (s.calls ++ [({ value } : SendCall T)]) s.locked.numReceivers s.subscribing
    s.notifying (fun {i msg call} hi hstage => ?_) fun {i msg call} hi hm => ?_
  · rw [List.getElem?_append] at hi
    split at hi
    · exact ⟨call, hi, hstage⟩
    · rw [List.mem_singleton.mp (List.mem_of_getElem? hi)] at hstage
      cases hstage
  · rw [List.getElem?_append] at hi
    split at hi
    · exact .call hi hm
    · rw [List.mem_singleton.mp (List.mem_of_getElem? hi)] at hm
      simp [SendCall.holds] at hm

theorem callStep (h : s.Regular cfg size) : s.Keeps cfg size (s.callStep i step) := by
  rw [Channel.callStep]
  cases hi : s.calls[i]? with
  | none => exact .refl h
  | some call =>
    have hset : ∀ {stage : Stage}, (∀ msg, stage ≠ .reserved msg ∧ stage ≠ .rejected msg) →
        s.Keeps cfg size (s.setCall i { call with stage }) := by
      intro stage hstage
      refine h.setCall hi (fun msg hres => absurd hres (hstage msg).1) fun msg hm => ?_
      simp only [SendCall.holds, Bool.or_eq_true, decide_eq_true_eq] at hm
      exact absurd hm (not_or.mpr (hstage msg))
    dsimp only
    split
    · exact hset (by simp)
    · exact hset (by simp)
    · exact hset (by simp)
    · split
      · exact .refl h
      · exact hset (by simp)
    · exact .refl h

theorem reserve (h : s.Regular cfg size) (hi : s.calls[i]? = some call)
    (hacc : s.locked.accepts cfg (size call.value)) :
    s.Keeps cfg size { s.setCall i { call with stage := .reserved s.tracked.length } with
      locked := { s.locked with
        bytesInFlight := s.locked.bytesInFlight + size call.value
        messagesInFlight := s.locked.messagesInFlight + 1 }
      tracked := s.tracked ++ [{ value := call.value }] } := by
  have hissued : ∀ {j msg : Nat} {call' : SendCall T}, s.calls[j]? = some call' →
      call'.stage = .reserved msg → msg < s.tracked.length := fun hj hstage =>
    alive_lt h.alive (.call hj (by simp [SendCall.holds, hstage]))
  -- What is reserved was reserved, or is the new message, by this call.
  have hcalls : ∀ {j msg : Nat} {call' : SendCall T},
      (s.calls.set i { call with stage := .reserved s.tracked.length })[j]? = some call' →
      call'.stage = .reserved msg →
      (j ≠ i ∧ s.calls[j]? = some call') ∨ (j = i ∧ msg = s.tracked.length) := by
    intro j msg call' hj hstage
    rw [List.getElem?_set] at hj
    split at hj
    · split at hj
      · cases hj
        cases hstage
        exact .inr ⟨Eq.symm ‹_›, rfl⟩
      · cases hj
    · exact .inl ⟨Ne.symm ‹_›, hj⟩
  have hvalue : ∀ {msg : Nat}, msg < s.tracked.length →
      (s.tracked ++ [{ value := call.value }])[msg]? = s.tracked[msg]? := List.getElem?_append_left
  have hnew : (s.calls.set i { call with stage := .reserved s.tracked.length })[i]? =
      some { call with stage := .reserved s.tracked.length } :=
    List.getElem?_set_self (List.getElem?_eq_some_iff.mp hi).1
  have hholder : ∀ {msg : Nat}, Holder cfg { s.setCall i
      { call with stage := .reserved s.tracked.length } with
        locked := { s.locked with
          bytesInFlight := s.locked.bytesInFlight + size call.value
          messagesInFlight := s.locked.messagesInFlight + 1 }
        tracked := s.tracked ++ [{ value := call.value }] } msg →
      s.Holder cfg msg ∨ msg = s.tracked.length := by
    intro msg hm
    cases hm with
    | slot hs hm hu hp => exact .inl (.slot hs hm hu hp)
    | receiver hr hm => exact .inl (.receiver hr hm)
    | @call j call' hj hm =>
      rw [show Channel.calls _ = s.calls.set i _ from rfl, List.getElem?_set] at hj
      split at hj
      · split at hj
        · cases hj
          simp only [SendCall.holds, Stage.reserved.injEq, reduceCtorEq, decide_false,
            Bool.or_false, decide_eq_true_eq] at hm
          exact .inr hm.symm
        · cases hj
      · exact .inl (.call hj hm)
  refine ⟨⟨fun hm => (hholder hm).imp_right fun he => Nat.le_of_eq he.symm, .refl _, fun ht _ _ => ?_, fun {msg t} ht _ => ?_⟩,
    ⟨fun hs => ?_, h.numbered.slots, ?_, ?_⟩, ⟨?_, ?_, ?_, ?_⟩, fun hm => ?_, ?_⟩
  · exact (hvalue (List.getElem?_eq_some_iff.mp ht).1).trans ht
  · rcases Nat.lt_or_ge msg s.tracked.length with hlt | hge
    · exact .inl ⟨(hvalue hlt).symm.trans ht, id⟩
    · have hlt := (List.getElem?_eq_some_iff.mp ht).1
      simp only [List.length_append, List.length_singleton] at hlt
      obtain rfl : msg = s.tracked.length := by omega
      exact .inr (.call hnew (by simp [SendCall.holds]))
  · exact Nat.lt_of_lt_of_le (h.numbered.issued hs) (by simp)
  · intro j j' msg c c' hj hj' hstage hstage'
    rcases hcalls hj hstage with ⟨-, hold⟩ | ⟨rfl, rfl⟩ <;>
      rcases hcalls hj' hstage' with ⟨-, hold'⟩ | ⟨rfl, hmsg⟩
    · exact h.numbered.calls hold hold' hstage hstage'
    · exact absurd (hissued hold hstage) (by omega)
    · exact absurd (hissued hold' hstage') (by omega)
    · rfl
  · intro j pos msg c slot hj hstage hs
    rcases hcalls hj hstage with ⟨-, hold⟩ | ⟨-, rfl⟩
    · exact h.numbered.unsent hold hstage hs
    · exact Nat.ne_of_lt (h.numbered.issued hs)
  · show s.locked.bytesInFlight + size call.value = _
    rw [h.accounted.bytes]
    simp [inFlight]
  · show s.locked.messagesInFlight + 1 = _
    rw [h.accounted.messages]
    simp [inFlight]
  · simp only [Locked.accepts, Bool.or_eq_true, Bool.and_eq_true, decide_eq_true_eq,
      beq_iff_eq] at hacc
    show s.locked.messagesInFlight + 1 ≤ cfg.maxMessages
    have := cfg.one_le
    omega
  · simp only [Locked.accepts, Bool.or_eq_true, Bool.and_eq_true, decide_eq_true_eq,
      beq_iff_eq] at hacc
    show s.locked.bytesInFlight + size call.value ≤ cfg.maxBytes ∨ s.locked.messagesInFlight + 1 ≤ 1
    omega
  · rcases hholder hm with hm | rfl
    · rw [hvalue (alive_lt h.alive hm)]
      exact h.alive hm
    · exact ⟨{ value := call.value }, by simp, rfl⟩
  · refine ⟨h.reading.inBounds, h.reading.unread, h.reading.position, fun hr => ?_⟩
    have hsame : s.slots.map (valueOf { s with
        tracked := s.tracked ++ [{ value := call.value }] }) = s.slots.map s.valueOf := by
      refine List.map_congr_left fun slot hs => ?_
      obtain ⟨pos, hs⟩ := List.mem_iff_getElem?.mp hs
      rw [valueOf, valueOf, hvalue (h.numbered.issued hs)]
    have := h.reading.received hr
    rwa [← hsame] at this

theorem trySend (h : s.Regular cfg size) : s.Keeps cfg size (s.trySend cfg size i late) := by
  rw [Channel.trySend]
  cases hi : s.calls[i]? with
  | none => exact .refl h
  | some call =>
    dsimp only
    split
    · split
      · exact h.setCall hi (by simp) (by simp [SendCall.holds])
      split
      · exact h.reserve hi ‹_›
      · exact h.setCall hi (by simp) (by simp [SendCall.holds])
    · exact .refl h

theorem slots_nodup (h : s.Regular cfg size) : (s.slots.map (·.msg)).Nodup := by
  rw [List.nodup_iff_getElem?_ne_getElem?]
  intro i j hij hj heq
  rw [List.length_map] at hj
  rw [List.getElem?_map, List.getElem?_map, List.getElem?_eq_getElem hj, Option.map_some,
    Option.map_eq_some_iff] at heq
  obtain ⟨slot, hslot, hmsg⟩ := heq
  exact absurd (h.numbered.slots hslot (List.getElem?_eq_getElem hj) hmsg) (Nat.ne_of_lt hij)

/-- When a message is about to be sent, everyone has read the slot that it will take: what
a receiver has not read is in flight, along with the message. -/
theorem room {i j : Nat} {call : SendCall T} {r : Receiver T} (h : s.Regular cfg size)
    (hi : s.calls[i]? = some call) (hstage : call.stage = .reserved msg)
    (hj : s.receivers[j]? = some r) (hr : r.isSubscribed) :
    s.slots.length < r.next + cfg.capacity := by
  by_contra hfull
  obtain ⟨hnext, hle⟩ := h.reading.inBounds hj hr
  have hunread : ∀ m ∈ (s.slots.drop r.next).map (·.msg), s.Holder cfg m ∧ m ≠ msg := by
    intro m hm
    obtain ⟨slot, hslot, rfl⟩ := List.mem_map.mp hm
    obtain ⟨k, hk⟩ := List.mem_iff_getElem?.mp hslot
    rw [List.getElem?_drop] at hk
    have hne := List.ne_nil_of_mem (h.reading.unread hj hr (Nat.le_add_right ..) hk)
    exact ⟨.slot hk rfl hne (by omega), h.numbered.unsent hi hstage hk⟩
  have hdistinct : (msg :: (s.slots.drop r.next).map (·.msg)).Nodup := by
    refine List.nodup_cons.mpr ⟨fun hm => (hunread msg hm).2 rfl, ?_⟩
    exact h.slots_nodup.sublist ((List.drop_sublist ..).map _)
  have hcount := length_le_filter (l := s.tracked) (p := (!·.dropped)) hdistinct (by
    intro m hm
    have halive : s.Holder cfg m := by
      rcases List.mem_cons.mp hm with rfl | hm
      · exact .call hi (by simp [SendCall.holds, hstage])
      · exact (hunread m hm).1
    obtain ⟨t, ht, hd⟩ := h.alive halive
    exact ⟨t, ht, by simp [hd]⟩)
  have hmessages := h.accounted.messages
  have hmax := h.accounted.maxMessages
  have henough := cfg.enough
  rw [inFlight] at hmessages
  rw [List.length_cons, List.length_map, List.length_drop] at hcount
  omega

theorem push {call : SendCall T} (h : s.Regular cfg size) (hi : s.calls[i]? = some call)
    (hstage : call.stage = .reserved msg) :
    s.Keeps cfg size { s.setCall i { call with stage := .sent n } with
      slots := s.slots ++ [⟨msg, s.subscribed⟩] } := by
  have hcalls : ∀ {j : Nat} {call' : SendCall T},
      (s.calls.set i { call with stage := .sent n })[j]? = some call' →
      (j ≠ i ∧ s.calls[j]? = some call') ∨ call'.stage = .sent n := by
    intro j call' hj
    rw [List.getElem?_set] at hj
    split at hj
    · split at hj
      · cases hj
        exact .inr rfl
      · cases hj
    · exact .inl ⟨Ne.symm ‹_›, hj⟩
  have hslots : ∀ {pos : Nat} {slot : Slot}, (s.slots ++ [⟨msg, s.subscribed⟩])[pos]? = some slot →
      s.slots[pos]? = some slot ∨ (pos = s.slots.length ∧ slot = ⟨msg, s.subscribed⟩) := by
    intro pos slot hs
    rw [List.getElem?_append] at hs
    split at hs
    · exact .inl hs
    · rename_i hlt
      have hpos := (List.getElem?_eq_some_iff.mp hs).1
      rw [List.length_singleton] at hpos
      exact .inr ⟨by omega, List.mem_singleton.mp (List.mem_of_getElem? hs)⟩
  have hheld : s.Holder cfg msg := .call hi (by simp [SendCall.holds, hstage])
  have hlt : msg < s.tracked.length := alive_lt h.alive hheld
  have hholder : ∀ {m : Nat}, Holder cfg { s.setCall i { call with stage := .sent n } with
      slots := s.slots ++ [⟨msg, s.subscribed⟩] } m → s.Holder cfg m := by
    intro m hm
    cases hm with
    | @slot pos slot hs hm hu hp =>
      rcases hslots hs with hold | ⟨-, rfl⟩
      · refine .slot hold hm hu ?_
        simp only [List.length_append, List.length_singleton] at hp
        omega
      · exact hm ▸ hheld
    | call hj hm =>
      rcases hcalls hj with ⟨-, hold⟩ | hsent
      · exact .call hold hm
      · simp [SendCall.holds, hsent] at hm
    | receiver hr hm => exact .receiver hr hm
  refine ⟨.of_holder rfl rfl hholder, ⟨?_, ?_, ?_, ?_⟩, ⟨h.accounted.bytes, h.accounted.messages,
    h.accounted.maxMessages, h.accounted.maxBytes⟩, fun hm => h.alive (hholder hm),
    ⟨?_, ?_, h.reading.position, ?_⟩⟩
  · intro pos slot hs
    rcases hslots hs with hold | ⟨-, rfl⟩
    · exact h.numbered.issued hold
    · exact hlt
  · intro pos pos' slot slot' hs hs' hmsg
    rcases hslots hs with hold | ⟨rfl, rfl⟩ <;> rcases hslots hs' with hold' | ⟨rfl, rfl⟩
    · exact h.numbered.slots hold hold' hmsg
    · exact absurd hmsg (h.numbered.unsent hi hstage hold)
    · exact absurd hmsg.symm (h.numbered.unsent hi hstage hold')
    · rfl
  · intro j j' m c c' hj hj' hs hs'
    rcases hcalls hj with ⟨-, hold⟩ | hsent
    · rcases hcalls hj' with ⟨-, hold'⟩ | hsent
      · exact h.numbered.calls hold hold' hs hs'
      · rw [hsent] at hs'
        cases hs'
    · rw [hsent] at hs
      cases hs
  · intro j pos m c slot hj hs hslot
    rcases hcalls hj with ⟨hne, hold⟩ | hsent
    · rcases hslots hslot with hold' | ⟨-, rfl⟩
      · exact h.numbered.unsent hold hs hold'
      · rintro rfl
        exact hne (h.numbered.calls hold hi hs hstage)
    · rw [hsent] at hs
      cases hs
  · intro j r hj hr
    have hroom := h.room hi hstage hj hr
    obtain ⟨hnext, -⟩ := h.reading.inBounds hj hr
    simp only [List.length_append, List.length_singleton]
    omega
  · intro j pos r slot hj hr hle hs
    rcases hslots hs with hold | ⟨-, rfl⟩
    · exact h.reading.unread hj hr hle hold
    · exact mem_subscribed.mpr ⟨r, hj, hr⟩
  · intro j r hj
    refine (h.reading.received hj).trans ?_
    show _ <+: (List.map s.valueOf (s.slots ++ [⟨msg, s.subscribed⟩])).drop r.since
    rw [List.map_append, List.drop_append]
    exact List.prefix_append ..

theorem innerSend (h : s.Regular cfg size) : s.Keeps cfg size (s.innerSend i) := by
  rw [Channel.innerSend]
  cases hi : s.calls[i]? with
  | none => exact .refl h
  | some call =>
    dsimp only
    split
    · rename_i msg hstage
      split
      · exact h.setCall hi (by simp) (by simp [SendCall.holds, hstage])
      · exact h.push hi hstage
    · exact .refl h

-- ---------------------------------------------------------------------------
-- Receivers
-- ---------------------------------------------------------------------------

theorem setReceiver {r r' : Receiver T} (h : s.Regular cfg size) (hi : s.receivers[i]? = some r)
    (hsub : r'.isSubscribed → r.isSubscribed ∧ r'.next = r.next)
    (hholding : ∀ msg, r'.holding = some msg → r.holding = some msg)
    (hsince : r'.since = r.since) (hreceived : r'.received = r.received) :
    s.Keeps cfg size (s.setReceiver i r') := by
  have hold : ∀ {j : Nat} {q : Receiver T}, (s.receivers.set i r')[j]? = some q →
      ∃ p, s.receivers[j]? = some p ∧ (q.isSubscribed → p.isSubscribed ∧ q.next = p.next) ∧
        (∀ msg, q.holding = some msg → p.holding = some msg) ∧ q.since = p.since ∧
        q.received = p.received := by
    intro j q hj
    rw [List.getElem?_set] at hj
    split at hj
    · rename_i hij
      split at hj
      · cases hj
        exact ⟨r, hij ▸ hi, hsub, hholding, hsince, hreceived⟩
      · cases hj
    · exact ⟨q, hj, fun hq => ⟨hq, rfl⟩, fun _ hm => hm, rfl, rfl⟩
  have hholder : ∀ {msg : Nat}, (s.setReceiver i r').Holder cfg msg → s.Holder cfg msg := by
    intro msg hm
    cases hm with
    | slot hs hm hu hp => exact .slot hs hm hu hp
    | call hc hm => exact .call hc hm
    | receiver hj hm =>
      obtain ⟨p, hj, -, hp, -⟩ := hold hj
      exact .receiver hj (hp msg hm)
  refine ⟨.of_holder rfl rfl hholder,
    ⟨h.numbered.issued, h.numbered.slots, h.numbered.calls, h.numbered.unsent⟩,
    ⟨h.accounted.bytes, h.accounted.messages, h.accounted.maxMessages, h.accounted.maxBytes⟩,
    fun hm => h.alive (hholder hm), ⟨?_, ?_, ?_, ?_⟩⟩
  · intro j q hj hq
    obtain ⟨p, hj, hp, -⟩ := hold hj
    obtain ⟨hp, hnext⟩ := hp hq
    exact hnext ▸ h.reading.inBounds hj hp
  · intro j pos q slot hj hq hle hs
    obtain ⟨p, hj, hp, -⟩ := hold hj
    obtain ⟨hp, hnext⟩ := hp hq
    exact h.reading.unread hj hp (hnext ▸ hle) hs
  · intro j q hj hq
    obtain ⟨p, hj, hp, -, hsince, hreceived⟩ := hold hj
    obtain ⟨hp, hnext⟩ := hp hq
    rw [hsince, hreceived, hnext]
    exact h.reading.position hj hp
  · intro j q hj
    obtain ⟨p, hj, -, -, hsince, hreceived⟩ := hold hj
    rw [hsince, hreceived]
    exact h.reading.received hj

theorem markRead_getElem? (s : Channel T) (i at' pos : Nat) : (s.markRead i at')[pos]? =
    s.slots[pos]?.map fun slot =>
      if at' = pos then { slot with unread := slot.unread.erase i } else slot := by
  rw [markRead, List.getElem?_modify]
  cases s.slots[pos]? with
  | none => rfl
  | some slot => split <;> rfl

theorem read {r r' : Receiver T} {slot : Slot} (h : s.Regular cfg size)
    (hi : s.receivers[i]? = some r) (hslot : s.slots[r.next]? = some slot)
    (hsub : r'.isSubscribed → r.isSubscribed ∧ r'.next = r.next + 1 ∧
      r'.received.length = r.received.length + 1)
    (hholding : ∀ msg, r'.holding = some msg → s.Holder cfg msg) (hsince : r'.since = r.since)
    (hreceived : r'.received.map some <+: (s.slots.map s.valueOf).drop r.since) :
    s.Keeps cfg size { s.setReceiver i r' with slots := s.markRead i r.next } := by
  have hslots : ∀ {pos : Nat} {x : Slot}, (s.markRead i r.next)[pos]? = some x →
      ∃ y, s.slots[pos]? = some y ∧ x.msg = y.msg ∧
        x.unread = if r.next = pos then y.unread.erase i else y.unread := by
    intro pos x hx
    rw [markRead_getElem?, Option.map_eq_some_iff] at hx
    obtain ⟨y, hy, rfl⟩ := hx
    refine ⟨y, hy, ?_⟩
    split <;> exact ⟨rfl, rfl⟩
  have hreceivers : ∀ {j : Nat} {q : Receiver T}, (s.receivers.set i r')[j]? = some q →
      (j = i ∧ q = r') ∨ (j ≠ i ∧ s.receivers[j]? = some q) := by
    intro j q hj
    rw [List.getElem?_set] at hj
    split at hj
    · split at hj
      · cases hj
        exact .inl ⟨Eq.symm ‹_›, rfl⟩
      · cases hj
    · exact .inr ⟨Ne.symm ‹_›, hj⟩
  have hlength : (s.markRead i r.next).length = s.slots.length := List.length_modify ..
  have hvalues : (s.markRead i r.next).map s.valueOf = s.slots.map s.valueOf := by
    refine List.ext_getElem? fun pos => ?_
    rw [List.getElem?_map, List.getElem?_map, markRead_getElem?, Option.map_map]
    congr 1
    funext slot
    show s.valueOf (if _ then _ else _) = _
    split <;> rfl
  have hlt := (List.getElem?_eq_some_iff.mp hslot).1
  have hholder : ∀ {m : Nat}, Holder cfg { s.setReceiver i r' with
      slots := s.markRead i r.next } m → s.Holder cfg m := by
    intro m hm
    cases hm with
    | slot hx hm hu hp =>
      obtain ⟨y, hy, hmsg, hunread⟩ := hslots hx
      refine .slot hy (hmsg ▸ hm) (fun hnil => hu ?_) (hlength ▸ hp)
      rw [hunread, hnil]
      split <;> rfl
    | call hc hm => exact .call hc hm
    | receiver hj hm =>
      rcases hreceivers hj with ⟨-, rfl⟩ | ⟨-, hj⟩
      · exact hholding m hm
      · exact .receiver hj hm
  refine ⟨.of_holder rfl rfl hholder, ⟨?_, ?_, h.numbered.calls, ?_⟩, ⟨h.accounted.bytes,
    h.accounted.messages, h.accounted.maxMessages, h.accounted.maxBytes⟩,
    fun hm => h.alive (hholder hm), ⟨?_, ?_, ?_, ?_⟩⟩
  · intro pos x hx
    obtain ⟨y, hy, hmsg, -⟩ := hslots hx
    exact hmsg ▸ h.numbered.issued hy
  · intro pos pos' x x' hx hx' heq
    obtain ⟨y, hy, hmsg, -⟩ := hslots hx
    obtain ⟨y', hy', hmsg', -⟩ := hslots hx'
    exact h.numbered.slots hy hy' (hmsg ▸ hmsg' ▸ heq)
  · intro j pos m c x hj hs hx
    obtain ⟨y, hy, hmsg, -⟩ := hslots hx
    exact hmsg ▸ h.numbered.unsent hj hs hy
  · intro j q hj hq
    rw [show Channel.slots _ = s.markRead i r.next from rfl, hlength]
    rcases hreceivers hj with ⟨rfl, rfl⟩ | ⟨-, hj⟩
    · obtain ⟨hr, hnext, -⟩ := hsub hq
      have := h.reading.inBounds hi hr
      omega
    · exact h.reading.inBounds hj hq
  · intro j pos q x hj hq hle hx
    obtain ⟨y, hy, -, hunread⟩ := hslots hx
    rw [hunread]
    rcases hreceivers hj with ⟨rfl, rfl⟩ | ⟨hne, hj⟩
    · obtain ⟨hr, hnext, -⟩ := hsub hq
      rw [if_neg (by omega)]
      exact h.reading.unread hi hr (by omega) hy
    · have hmem := h.reading.unread hj hq hle hy
      split
      · exact (List.mem_erase_of_ne hne).mpr hmem
      · exact hmem
  · intro j q hj hq
    rcases hreceivers hj with ⟨rfl, rfl⟩ | ⟨-, hj⟩
    · obtain ⟨hr, hnext, hlen⟩ := hsub hq
      have := h.reading.position hi hr
      omega
    · exact h.reading.position hj hq
  · intro j q hj
    show _ <+: (List.map s.valueOf (s.markRead i r.next)).drop q.since
    rw [hvalues]
    rcases hreceivers hj with ⟨rfl, rfl⟩ | ⟨-, hj⟩
    · exact hsince ▸ hreceived
    · exact h.reading.received hj

theorem next_holder {i : Nat} {r : Receiver T} {slot : Slot} (h : s.Regular cfg size)
    (hi : s.receivers[i]? = some r) (hr : r.isSubscribed) (hslot : s.slots[r.next]? = some slot) :
    s.Holder cfg slot.msg :=
  .slot hslot rfl (List.ne_nil_of_mem (h.reading.unread hi hr (Nat.le_refl _) hslot))
    (h.reading.inBounds hi hr).2

theorem received_append {i : Nat} {r : Receiver T} {slot : Slot} (h : s.Regular cfg size)
    (hi : s.receivers[i]? = some r) (hr : r.isSubscribed) (hslot : s.slots[r.next]? = some slot) :
    ∃ t, s.tracked[slot.msg]? = some t ∧
      (r.received ++ [t.value]).map some <+: (s.slots.map s.valueOf).drop r.since := by
  obtain ⟨t, ht, -⟩ := h.alive (h.next_holder hi hr hslot)
  refine ⟨t, ht, ?_⟩
  obtain ⟨rest, hrest⟩ := h.reading.received hi
  have hat : ((s.slots.map s.valueOf).drop r.since)[r.received.length]? = some (some t.value) := by
    rw [List.getElem?_drop, h.reading.position hi hr, List.getElem?_map, hslot]
    simp [valueOf, ht]
  rw [← hrest, List.getElem?_append_right (by simp), List.length_map, Nat.sub_self] at hat
  rw [← List.head?_eq_getElem?, List.head?_eq_some_iff] at hat
  obtain ⟨rest', rfl⟩ := hat
  exact ⟨rest', by rw [← hrest]; simp⟩

theorem tryRecv_eq {r : Receiver T} {slot : Slot} (hslot : s.slots[r.next]? = some slot) :
    s.tryRecv cfg r =
      if r.next + cfg.capacity < s.slots.length then .lagged else .value slot.msg := by
  rw [tryRecv, hslot]

theorem tryRecv_empty {r : Receiver T} (hslot : s.slots[r.next]? = none) :
    s.tryRecv cfg r = .empty := by
  rw [tryRecv, hslot]

theorem receiverStep (h : s.Regular cfg size) :
    s.Keeps cfg size (s.receiverStep cfg i step) := by
  rw [Channel.receiverStep]
  cases hi : s.receivers[i]? with
  | none => exact .refl h
  | some r =>
    have hgone : ∀ {r' : Receiver T}, r'.isSubscribed = false → r'.holding = r.holding →
        r'.since = r.since → r'.received = r.received → s.Keeps cfg size (s.setReceiver i r') :=
      fun hsub hholding => h.setReceiver hi (fun hr => absurd hr (by simp [hsub]))
        fun msg hm => hholding ▸ hm
    dsimp only
    split
    · -- recv
      rename_i hlive
      have hr : r.isSubscribed := by simp [Receiver.isSubscribed, hlive]
      split
      · rename_i hnone
        cases hslot : s.slots[r.next]? with
        | none =>
          rw [tryRecv_empty hslot]
          exact .refl h
        | some slot =>
          obtain ⟨t, ht, happend⟩ := h.received_append hi hr hslot
          rw [tryRecv_eq hslot, if_neg (Nat.not_lt.mpr (h.reading.inBounds hi hr).2)]
          dsimp only
          rw [ht]
          refine h.read hi hslot (fun _ => ⟨hr, rfl, by simp⟩) (fun msg hm => ?_) rfl happend
          cases hm
          exact h.next_holder hi hr hslot
      · exact .refl h
    · exact h.setReceiver hi (fun hr => ⟨hr, rfl⟩) (by simp) rfl rfl
    · -- close
      rename_i hlive
      split
      · have hr : r.isSubscribed := by simp [Receiver.isSubscribed, hlive]
        have hclosing : s.Keeps cfg size (s.setReceiver i { r with life := .closing }) :=
          h.setReceiver hi (fun _ => ⟨hr, rfl⟩) (fun _ hm => hm) rfl rfl
        exact ⟨hclosing.moves.of_counters .., (hclosing.regular.of_counters ..).regular⟩
      · exact .refl h
    · exact hgone rfl rfl rfl rfl
    · -- drain
      rename_i upTo hdraining
      split
      · cases hslot : s.slots[r.next]? with
        | none =>
          rw [tryRecv_empty hslot]
          exact .refl h
        | some slot =>
          rw [tryRecv_eq hslot]
          by_cases hlagged : r.next + cfg.capacity < s.slots.length
          · simp only [hlagged, if_true]
            exact hgone (by simp [Receiver.isSubscribed, hdraining]) rfl rfl rfl
          · simp only [hlagged, if_false]
            refine h.read hi hslot (fun hr => ?_) (fun msg hm => .receiver (r := r) hi hm) rfl
              (h.reading.received (r := r) hi)
            simp [Receiver.isSubscribed, hdraining] at hr
      · exact hgone rfl rfl rfl rfl
    · exact .refl h

theorem innerSubscribe (h : s.Regular cfg size) : s.Keeps cfg size s.innerSubscribe := by
  rw [Channel.innerSubscribe]
  split
  · exact .refl h
  have hold : ∀ {j : Nat} {r : Receiver T},
      (s.receivers ++ [{ since := s.slots.length, next := s.slots.length }])[j]? = some r →
      s.receivers[j]? = some r ∨ r = { since := s.slots.length, next := s.slots.length } := by
    intro j r hj
    rw [List.getElem?_append] at hj
    split at hj
    · exact .inl hj
    · exact .inr (List.mem_singleton.mp (List.mem_of_getElem? hj))
  have hholder : ∀ {msg : Nat}, Holder cfg { s with
      subscribing := s.subscribing - 1
      receivers := s.receivers ++ [{ since := s.slots.length, next := s.slots.length }] } msg →
      s.Holder cfg msg := by
    intro msg hm
    cases hm with
    | slot hs hm hu hp => exact .slot hs hm hu hp
    | call hc hm => exact .call hc hm
    | receiver hj hm =>
      rcases hold hj with hj | rfl
      · exact .receiver hj hm
      · cases hm
  refine ⟨.of_holder rfl rfl hholder,
    ⟨h.numbered.issued, h.numbered.slots, h.numbered.calls, h.numbered.unsent⟩,
    ⟨h.accounted.bytes, h.accounted.messages, h.accounted.maxMessages, h.accounted.maxBytes⟩,
    fun hm => h.alive (hholder hm), ⟨?_, ?_, ?_, ?_⟩⟩
  · intro j r hj hr
    rcases hold hj with hj | rfl
    · exact h.reading.inBounds hj hr
    · exact ⟨Nat.le_refl _, Nat.le_add_right ..⟩
  · intro j pos r slot hj hr hle hs
    rcases hold hj with hj | rfl
    · exact h.reading.unread hj hr hle hs
    · exact absurd (List.getElem?_eq_some_iff.mp hs).1 (Nat.not_lt.mpr hle)
  · intro j r hj hr
    rcases hold hj with hj | rfl
    · exact h.reading.position hj hr
    · rfl
  · intro j r hj
    rcases hold hj with hj | rfl
    · exact h.reading.received hj
    · exact List.nil_prefix

-- ---------------------------------------------------------------------------
-- Messages
-- ---------------------------------------------------------------------------

theorem release_eq (hm : msg ∈ s.dropping) (ht : s.tracked[msg]? = some t) :
    s.release size msg =
      { s with
        tracked := s.tracked.set msg { t with dropped := true }
        locked := { s.locked with
          bytesInFlight := s.locked.bytesInFlight - size t.value
          messagesInFlight := s.locked.messagesInFlight - 1 }
        dropping := s.dropping.erase msg
        notifying := s.notifying + 1 } := by
  rw [Channel.release, ht]
  exact if_pos (List.contains_iff_mem.mpr hm)

variable (size) in
theorem inFlight_release (hm : msg ∈ s.dropping) (ht : s.tracked[msg]? = some t)
    (halive : t.dropped = false) : s.inFlight.Perm (t :: (s.release size msg).inFlight) := by
  rw [release_eq hm ht]
  exact filter_set_perm ht (by simp [halive]) rfl

theorem release (h : s.Regular cfg size) (hdrops : s.Drops cfg) :
    s.Keeps cfg size (s.release size msg) := by
  by_cases hm : msg ∈ s.dropping
  case neg =>
    have hsame : s.release size msg = s := by
      rw [Channel.release]
      split
      · exact if_neg (mt List.contains_iff_mem.mp hm)
      · rfl
    rw [hsame]
    exact .refl h
  obtain ⟨t, ht, halive⟩ := hdrops.alive hm
  have hperm := inFlight_release size hm ht halive
  rw [release_eq hm ht] at hperm ⊢
  change s.inFlight.Perm (t :: (s.tracked.set msg _).filter (!·.dropped)) at hperm
  have hlength := hperm.length_eq
  have hsum := (hperm.map (size ·.value)).sum_nat
  rw [List.length_cons] at hlength
  rw [List.map_cons, List.sum_cons] at hsum
  have hbytes := h.accounted.bytes
  have hmessages := h.accounted.messages
  have hmax := h.accounted.maxMessages
  have hmaxBytes := h.accounted.maxBytes
  have hvalues : s.slots.map (valueOf { s with
      tracked := s.tracked.set msg { t with dropped := true } }) = s.slots.map s.valueOf := by
    refine List.map_congr_left fun slot _ => ?_
    rw [valueOf, valueOf, List.getElem?_set]
    split
    · rename_i heq
      rw [if_pos (List.getElem?_eq_some_iff.mp ht).1, ← heq, ht]
      rfl
    · rfl
  have hother : ∀ {m : Nat}, m ≠ msg →
      (s.tracked.set msg { t with dropped := true })[m]? = s.tracked[m]? :=
    fun hne => List.getElem?_set_ne hne.symm
  have hholder : ∀ {m : Nat}, Holder cfg { s with
      tracked := s.tracked.set msg { t with dropped := true }
      locked := { s.locked with
        bytesInFlight := s.locked.bytesInFlight - size t.value
        messagesInFlight := s.locked.messagesInFlight - 1 }
      dropping := s.dropping.erase msg
      notifying := s.notifying + 1 } m → s.Holder cfg m := fun hm => hm.congr rfl rfl rfl
  refine ⟨⟨fun hm => .inl (hholder hm), List.erase_sublist, fun ht' hd hsub => ?_,
    fun {m t'} ht' hd => ?_⟩, ⟨fun hs => ?_, h.numbered.slots, h.numbered.calls, h.numbered.unsent⟩,
    ⟨?_, ?_, ?_, ?_⟩, fun {m} hm' => ?_,
    ⟨h.reading.inBounds, h.reading.unread, h.reading.position, fun hr => ?_⟩⟩
  · refine (hother ?_).trans ht'
    rintro rfl
    exact hdrops.once.not_mem_erase (hsub hm)
  · by_cases hne : m = msg
    · subst hne
      rw [List.getElem?_set_self (List.getElem?_eq_some_iff.mp ht).1] at ht'
      obtain rfl := Option.some.inj ht'
      cases hd
    · exact .inl ⟨(hother hne).symm.trans ht', (List.mem_erase_of_ne hne).mpr⟩
  · rw [List.length_set]
    exact h.numbered.issued hs
  · show s.locked.bytesInFlight - size t.value = (List.map _
      ((s.tracked.set msg { t with dropped := true }).filter _)).sum
    omega
  · show s.locked.messagesInFlight - 1 =
      ((s.tracked.set msg { t with dropped := true }).filter _).length
    omega
  · show s.locked.messagesInFlight - 1 ≤ _
    omega
  · show s.locked.bytesInFlight - size t.value ≤ _ ∨ s.locked.messagesInFlight - 1 ≤ 1
    omega
  · have hne : m ≠ msg := by
      rintro rfl
      exact hdrops.unheld hm (hholder hm')
    rw [hother hne]
    exact h.alive (hholder hm')
  · have := h.reading.received hr
    rwa [← hvalues] at this

theorem perform (h : s.Regular cfg size) (hdrops : s.Drops cfg) (a : Action T) :
    s.Keeps cfg size (s.perform cfg size a) := by
  cases a with
  | send value => exact h.send value
  | trySend i late => exact h.trySend
  | innerSend i => exact h.innerSend
  | call i step => exact h.callStep
  | subscribe => exact h.of_counters ..
  | innerSubscribe => exact h.innerSubscribe
  | receiver i step => exact h.receiverStep
  | release msg => exact h.release hdrops
  | notify => exact h.notify

end Regular

/-- The drops that a step starts are those of the messages that it leaves without a copy. -/
theorem Drops.settle {s' : Channel T} (hdrops : s.Drops cfg) (halive : s.Alive cfg)
    (h : s.Moves cfg s') :
    Drops cfg { s' with dropping := s'.dropping ++ s.lastCopies cfg s' } := by
  have hlast : ∀ {msg : Nat}, msg ∈ s.lastCopies cfg s' ↔ s.Holder cfg msg ∧ ¬ s'.Holder cfg msg := by
    intro msg
    simp only [lastCopies, List.mem_filter, List.mem_range, Bool.and_eq_true, Bool.not_eq_true',
      ← held_iff, Bool.not_eq_true]
    exact and_iff_right_of_imp fun hm => Regular.alive_lt halive (held_iff.mp hm.1)
  have hholder : ∀ {msg : Nat}, Holder cfg { s' with
      dropping := s'.dropping ++ s.lastCopies cfg s' } msg ↔ s'.Holder cfg msg :=
    ⟨fun hm => hm.congr rfl rfl rfl, fun hm => hm.congr rfl rfl rfl⟩
  refine ⟨?_, fun {msg} hm => ?_, fun {msg} hm => ?_, fun {msg t} ht hd => ?_⟩
  · refine List.nodup_append'.mpr ⟨hdrops.once.sublist h.dropping, List.nodup_range.filter _, ?_⟩
    intro msg hm hm'
    exact hdrops.unheld (h.dropping.subset hm) (hlast.mp hm').1
  · rw [hholder]
    rcases List.mem_append.mp hm with hm | hm
    · intro hheld
      obtain ⟨t, ht, -⟩ := hdrops.alive (h.dropping.subset hm)
      rcases h.holder hheld with hheld | hle
      · exact hdrops.unheld (h.dropping.subset hm) hheld
      · exact absurd (List.getElem?_eq_some_iff.mp ht).1 (Nat.not_lt.mpr hle)
    · exact (hlast.mp hm).2
  · rcases List.mem_append.mp hm with hm | hm
    · obtain ⟨t, ht, hd⟩ := hdrops.alive (h.dropping.subset hm)
      exact ⟨t, h.kept ht hd fun _ => hm, hd⟩
    · obtain ⟨t, ht, hd⟩ := halive (hlast.mp hm).1
      exact ⟨t, h.kept ht hd fun hm' => absurd (hlast.mp hm).1 (hdrops.unheld hm'), hd⟩
  · rw [hholder]
    show _ ∨ msg ∈ s'.dropping ++ s.lastCopies cfg s'
    rw [List.mem_append, hlast]
    rcases h.counted ht hd with ⟨hold, hsub⟩ | hheld
    · rcases hdrops.counted hold hd with hheld | hm
      · by_cases hheld' : s'.Holder cfg msg
        · exact .inl hheld'
        · exact .inr (.inr ⟨hheld, hheld'⟩)
      · exact .inr (.inl (hsub hm))
    · exact .inl hheld

namespace Regular

theorem of_dropping (h : s.Regular cfg size) (dropping : List Nat) :
    Regular cfg size { s with dropping } where
  numbered := ⟨h.numbered.issued, h.numbered.slots, h.numbered.calls, h.numbered.unsent⟩
  accounted := ⟨h.accounted.bytes, h.accounted.messages, h.accounted.maxMessages,
    h.accounted.maxBytes⟩
  alive hm := h.alive (hm.congr rfl rfl rfl)
  reading := ⟨h.reading.inBounds, h.reading.unread, h.reading.position, h.reading.received⟩

theorem initial : Regular cfg size ({} : Channel T) where
  numbered := ⟨by simp, by simp, by simp, by simp⟩
  accounted := ⟨rfl, rfl, Nat.zero_le _, .inl (Nat.zero_le _)⟩
  alive := by
    intro msg hm
    cases hm with
    | slot hs => cases hs
    | call hc => cases hc
    | receiver hr hm =>
      rw [List.mem_singleton.mp (List.mem_of_getElem? hr)] at hm
      cases hm
  reading := by
    refine ⟨fun hr _ => ?_, fun _ _ _ hs => (by cases hs), fun hr _ => ?_, fun hr => ?_⟩ <;>
      rw [List.mem_singleton.mp (List.mem_of_getElem? hr)]
    · exact ⟨Nat.le_refl _, Nat.zero_le _⟩
    · rfl
    · exact List.nil_prefix

theorem sent_map_some (h : s.Regular cfg size) : s.sent.map some = s.slots.map s.valueOf := by
  refine map_some_filterMap fun slot hs => ?_
  obtain ⟨pos, hs⟩ := List.mem_iff_getElem?.mp hs
  rw [valueOf, List.getElem?_eq_getElem (h.numbered.issued hs)]
  rfl

theorem received_initial {i : Nat} {r : Receiver T} (h : s.Regular cfg size)
    (hi : s.receivers[i]? = some r) : r.received <+: s.sent.drop r.since := by
  have := h.reading.received hi
  rw [← h.sent_map_some, ← List.map_drop] at this
  exact (List.prefix_map_iff_of_injective fun _ _ => Option.some.inj).mp this

theorem recv_next {i : Nat} {r : Receiver T} (h : s.Regular cfg size)
    (hi : s.receivers[i]? = some r) (hlive : r.life = .live) (hnone : r.holding = none)
    (hv : (s.sent.drop r.since)[r.received.length]? = some value) :
    ∃ r', (s.receiverStep cfg i .recv).receivers[i]? = some r' ∧
      r'.received = r.received ++ [value] := by
  have hr : r.isSubscribed := by simp [Receiver.isSubscribed, hlive]
  rw [List.getElem?_drop, h.reading.position hi hr] at hv
  have hat : (s.slots.map s.valueOf)[r.next]? = some (some value) := by
    rw [← h.sent_map_some, List.getElem?_map, hv]
    rfl
  rw [List.getElem?_map, Option.map_eq_some_iff] at hat
  obtain ⟨slot, hslot, hvalue⟩ := hat
  have hlt := (List.getElem?_eq_some_iff.mp hi).1
  refine ⟨{ r with
    next := r.next + 1
    holding := some slot.msg
    received := r.received ++ [value] }, ?_, rfl⟩
  rw [Channel.receiverStep, hi]
  simp only [hlive, hnone, tryRecv_eq hslot, Nat.not_lt.mpr (h.reading.inBounds hi hr).2, if_true,
    if_false]
  rw [valueOf] at hvalue
  rw [hvalue]
  simp [Channel.setReceiver, hlt]

end Regular

structure Sound (cfg : Config) (size : T → Nat) (s : Channel T) : Prop where
  regular : s.Regular cfg size
  drops : s.Drops cfg

theorem Sound.initial : Sound cfg size ({} : Channel T) :=
  ⟨.initial, List.nodup_nil, nofun, nofun, fun ht => (by simp at ht)⟩

theorem Sound.act (h : s.Sound cfg size) (a : Action T) : (act cfg size s a).Sound cfg size :=
  have hkeeps := h.regular.perform h.drops a
  ⟨hkeeps.regular.of_dropping _, h.drops.settle h.regular.alive hkeeps.moves⟩

theorem Reached.sound (h : Reached cfg size ok s) : s.Sound cfg size :=
  h.invariant .initial fun _ a hs _ => hs.act a

theorem Sound.freed (h : s.Sound cfg size) (hm : msg ∈ s.dropping) :
    ∃ t, s.tracked[msg]? = some t ∧
      s.inFlight.Perm (t :: (s.act cfg size (.release msg)).inFlight) ∧
      (s.act cfg size (.release msg)).locked.bytesInFlight + size t.value =
        s.locked.bytesInFlight ∧
      (s.act cfg size (.release msg)).locked.messagesInFlight + 1 = s.locked.messagesInFlight := by
  obtain ⟨t, ht, halive⟩ := h.drops.alive hm
  have hperm : s.inFlight.Perm (t :: (s.act cfg size (.release msg)).inFlight) :=
    Regular.inFlight_release size hm ht halive
  have hafter := (h.act (.release msg)).regular.accounted
  have hlength := hperm.length_eq
  have hsum := (hperm.map (size ·.value)).sum_nat
  rw [List.length_cons] at hlength
  rw [List.map_cons, List.sum_cons] at hsum
  refine ⟨t, ht, hperm, ?_, ?_⟩
  · rw [h.regular.accounted.bytes, hafter.bytes, hsum, Nat.add_comm]
  · rw [h.regular.accounted.messages, hafter.messages, hlength]

/-- Of every message sent since it subscribed, a receiver has returned the first ones, each
once and in order, and `recv` returns the next. What is in flight is counted: someone has a copy
of it, or the drop of the last one is under way, which gives the space back. -/
structure Lossless (cfg : Config) (size : T → Nat) (s : Channel T) : Prop where
  received {i : Nat} {r : Receiver T} : s.receivers[i]? = some r →
    r.received <+: s.sent.drop r.since
  notLagged {i : Nat} {r : Receiver T} : s.receivers[i]? = some r → r.life = .live →
    s.tryRecv cfg r ≠ .lagged
  next {i : Nat} {r : Receiver T} {value : T} : s.receivers[i]? = some r → r.life = .live →
    r.holding = none → (s.sent.drop r.since)[r.received.length]? = some value →
    ∃ r', (s.receiverStep cfg i .recv).receivers[i]? = some r' ∧
      r'.received = r.received ++ [value]
  held {msg : Nat} : s.held cfg msg → ∃ t ∈ s.inFlight, s.tracked[msg]? = some t
  counted {msg : Nat} {t : TrackedMessage T} : s.tracked[msg]? = some t → t.dropped = false →
    s.held cfg msg ∨ msg ∈ s.dropping
  freed {msg : Nat} : msg ∈ s.dropping → s.held cfg msg = false ∧ ∃ t, s.tracked[msg]? = some t ∧
    s.inFlight.Perm (t :: (s.act cfg size (.release msg)).inFlight) ∧
    (s.act cfg size (.release msg)).locked.bytesInFlight + size t.value = s.locked.bytesInFlight ∧
    (s.act cfg size (.release msg)).locked.messagesInFlight + 1 = s.locked.messagesInFlight
  bytes : s.locked.bytesInFlight = (s.inFlight.map (size ·.value)).sum
  messages : s.locked.messagesInFlight = s.inFlight.length
  maxMessages : s.locked.messagesInFlight ≤ cfg.maxMessages
  maxBytes : s.locked.bytesInFlight ≤ cfg.maxBytes ∨ ∃ t, s.inFlight = [t]

end Laws

/-- Of two messages, one is sent and received, and the other is refused until then. -/
def handedOver : List (Action Nat) :=
  [.send 7, .trySend 0 false, .innerSend 0, .send 8, .trySend 1 false, .call 1 .register,
    .receiver 0 .recv, .receiver 0 .dropCopy, .release 0, .notify, .call 1 .wake, .trySend 1 false,
    .innerSend 1]

end Channel

end DimosViewer.Quota
