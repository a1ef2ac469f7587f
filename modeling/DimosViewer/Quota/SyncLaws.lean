import DimosViewer.Quota.Lossless
import DimosViewer.Quota.Sync

/-!
# What a blocking channel keeps

The bytes in flight, the order of the messages and the wake-ups are three invariants, each
of them over the parts of the state that it is about.
-/

namespace DimosViewer.Quota.Sync

-- ---------------------------------------------------------------------------
-- Lists
-- ---------------------------------------------------------------------------

theorem mem_set_of_ne {l : List α} (hj : l[j]? = some x) (hne : x ≠ z) (hz : z ∈ l) (y : α) :
    z ∈ l.set j y := by
  obtain ⟨i, hi⟩ := List.mem_iff_getElem?.mp hz
  have hij : j ≠ i := by
    rintro rfl
    rw [hj] at hi
    exact hne (Option.some.inj hi)
  exact List.mem_iff_getElem?.mpr ⟨i, by rw [List.getElem?_set_ne hij, hi]⟩

theorem mem_set_self {l : List α} (hj : l[j]? = some x) (y : α) : y ∈ l.set j y :=
  List.mem_set (List.getElem?_eq_some_iff.mp hj).1 y

theorem map_set_same {l : List α} {f : α → β} (hj : l[j]? = some x) (h : f y = f x) :
    (l.set j y).map f = l.map f := by
  obtain ⟨hlt, hx⟩ := List.getElem?_eq_some_iff.mp hj
  rw [List.map_set, h, ← hx, ← List.getElem_map f (h := by rwa [List.length_map]),
    List.set_getElem_self]

namespace Channel

variable {capacityBytes : Nat} {s s' : Channel T}

def inFlight (s : Channel T) : List (Reservation T) := s.reservations.filter (!·.released)

def sizeOf (r : Reservation T) : Nat := r.message.sizeBytes

def pendingOf : Option (Turn T) → List Nat
  | some t => match t.stage with
    | .reserved n => [n]
    | _ => []
  | none => []

/-- All messages on their way: received, in the inner channel, and about to be sent to it. -/
def numbers (s : Channel T) : List Nat :=
  s.receiveCalls.map (·.message) ++ s.queue ++ pendingOf s.turn

def Finished (s : Channel T) (n : Nat) : Prop :=
  ∃ call ∈ s.receiveCalls, call.message = n ∧ call.stage ≠ .holding

def WakePending (s : Channel T) : Prop :=
  (∃ call ∈ s.receiveCalls, call.stage = .released) ∨ .uncounted true ∈ s.receivers

-- ---------------------------------------------------------------------------
-- Invariants
-- ---------------------------------------------------------------------------

structure Accounted (capacityBytes : Nat) (s : Channel T) : Prop where
  bytes : s.bytesInFlight = (s.inFlight.map sizeOf).sum
  oversized : capacityBytes < s.bytesInFlight →
    ∃ r, s.inFlight.filter (sizeOf · ≠ 0) = [r] ∧ capacityBytes < sizeOf r
  order : s.numbers.Pairwise (· < ·)
  bound : ∀ n ∈ s.numbers, n < s.reservations.length
  released_iff : ∀ n r, s.reservations[n]? = some r → (r.released = true ↔ s.Finished n)

structure Counted (s : Channel T) : Prop where
  count : s.numReceivers = s.receivers.countP (·.isCounted)
  origin : ∀ j, .cloning j ∈ s.receivers → s.receivers[j]? = some .live

/-- While a receiver is there, no message is lost. -/
def Complete (s : Channel T) : Prop :=
  s.connected = true → s.numbers = List.range s.reservations.length

def Watched (capacityBytes : Nat) (s : Channel T) : Prop :=
  ∀ t, s.turn = some t → t.stage = .parked false →
    (s.mustWait capacityBytes t.call.message.sizeBytes = true ∧ s.numReceivers ≠ 0) ∨
      s.WakePending

structure Regular (capacityBytes : Nat) (s : Channel T) : Prop where
  accounted : s.Accounted capacityBytes
  counted : s.Counted
  complete : s.Complete
  watched : s.Watched capacityBytes

theorem initial : Regular capacityBytes ({} : Channel T) where
  accounted :=
    { bytes := rfl
      oversized := by nofun
      order := .nil
      bound := by nofun
      released_iff := by nofun }
  counted :=
    { count := rfl
      origin := by
        intro j hj
        cases List.mem_singleton.mp hj }
  complete := fun _ => rfl
  watched := by nofun

-- ---------------------------------------------------------------------------
-- Steps that leave the space alone
-- ---------------------------------------------------------------------------

theorem Accounted.of_sublist (h : s.Accounted capacityBytes)
    (hb : s'.bytesInFlight = s.bytesInFlight) (hr : s'.reservations = s.reservations)
    (hf : ∀ n, s'.Finished n ↔ s.Finished n) (hn : s'.numbers.Sublist s.numbers) :
    s'.Accounted capacityBytes where
  bytes := by
    rw [hb, inFlight, hr]
    exact h.bytes
  oversized := by
    rw [hb, inFlight, hr]
    exact h.oversized
  order := h.order.sublist hn
  bound := by
    intro n hmem
    rw [hr]
    exact h.bound n (hn.subset hmem)
  released_iff := by
    intro n r hget
    rw [hr] at hget
    rw [hf, h.released_iff n r hget]

theorem Regular.setStage {t t' : Turn T} (h : s.Regular capacityBytes) (ht : s.turn = some t)
    (hp : pendingOf (some t') = pendingOf (some t))
    (hw : t'.stage = .parked false →
      s.mustWait capacityBytes t'.call.message.sizeBytes = true ∧ s.numReceivers ≠ 0) :
    Regular capacityBytes { s with turn := some t' } := by
  have hn : numbers { s with turn := some t' } = s.numbers := by
    rw [numbers, numbers, ht, hp]
  refine ⟨h.accounted.of_sublist rfl rfl (fun _ => Iff.rfl) (by rw [hn]), ⟨h.counted.count, h.counted.origin⟩, ?_, ?_⟩
  · intro hc
    exact hn.trans (h.complete hc)
  · rintro u ⟨⟩ hu
    exact .inl (hw hu)

-- ---------------------------------------------------------------------------
-- Senders
-- ---------------------------------------------------------------------------

theorem numbers_reserve {t : Turn T} (ht : s.turn = some t) (hp : pendingOf (some t) = []) :
    (s.reserve t).numbers = s.numbers ++ [s.reservations.length] := by
  rw [numbers, numbers, ht, hp, List.append_nil]
  rfl

theorem inFlight_reserve (s : Channel T) (t : Turn T) :
    (s.reserve t).inFlight = s.inFlight ++ [{ message := t.call.message }] :=
  List.filter_append ..

theorem Accounted.reserve {t : Turn T} (h : s.Accounted capacityBytes) (ht : s.turn = some t)
    (hp : pendingOf (some t) = [])
    (hfit : s.bytesInFlight + t.call.message.sizeBytes ≤ capacityBytes ∨ s.bytesInFlight = 0) :
    (s.reserve t).Accounted capacityBytes where
  bytes := by
    rw [inFlight_reserve, List.map_append, List.sum_append, ← h.bytes]
    rfl
  oversized := by
    intro hover
    have hbytes : (s.reserve t).bytesInFlight = s.bytesInFlight + t.call.message.sizeBytes := rfl
    have hzero : s.bytesInFlight = 0 := by omega
    have hempty : s.inFlight.filter (sizeOf · ≠ 0) = [] := by
      have hsum := h.bytes.symm.trans hzero
      rw [List.sum_eq_zero_iff_forall_eq_nat] at hsum
      refine List.filter_eq_nil_iff.mpr ?_
      intro r hr
      have hsize := hsum _ (List.mem_map_of_mem hr)
      simp [hsize]
    have hsize : sizeOf { message := t.call.message } = t.call.message.sizeBytes := rfl
    refine ⟨{ message := t.call.message }, ?_, by omega⟩
    rw [inFlight_reserve, List.filter_append, hempty, List.nil_append]
    refine List.filter_cons_of_pos (decide_eq_true ?_)
    omega
  order := by
    rw [numbers_reserve ht hp, List.pairwise_append]
    refine ⟨h.order, List.pairwise_singleton .., ?_⟩
    intro n hn m hm
    rw [List.mem_singleton.mp hm]
    exact h.bound n hn
  bound := by
    intro n hn
    have hlen : (s.reserve t).reservations.length = s.reservations.length + 1 :=
      List.length_append
    rw [numbers_reserve ht hp] at hn
    rw [hlen]
    obtain hn | hn := List.mem_append.mp hn
    · exact Nat.lt_succ_of_lt (h.bound n hn)
    · rw [List.mem_singleton.mp hn]
      exact Nat.lt_succ_self _
  released_iff := by
    intro n r hr
    obtain hlt | hge := Nat.lt_or_ge n s.reservations.length
    · rw [Channel.reserve, List.getElem?_append_left hlt] at hr
      exact h.released_iff n r hr
    · have hnew : r = { message := t.call.message } := by
        rw [Channel.reserve, List.getElem?_append_right hge] at hr
        exact List.mem_singleton.mp (List.mem_of_getElem? hr)
      subst hnew
      refine iff_of_false Bool.false_ne_true ?_
      rintro ⟨call, hcall, rfl, -⟩
      have hmem : call.message ∈ s.numbers :=
        List.mem_append_left _ (List.mem_append_left _ (List.mem_map_of_mem hcall))
      exact Nat.not_lt.mpr hge (h.bound _ hmem)

theorem Regular.reserve {t : Turn T} (h : s.Regular capacityBytes) (ht : s.turn = some t)
    (hp : pendingOf (some t) = [])
    (hfit : s.bytesInFlight + t.call.message.sizeBytes ≤ capacityBytes ∨ s.bytesInFlight = 0) :
    (s.reserve t).Regular capacityBytes where
  accounted := h.accounted.reserve ht hp hfit
  counted := ⟨h.counted.count, h.counted.origin⟩
  complete := by
    intro hc
    have hlen : (s.reserve t).reservations.length = s.reservations.length + 1 :=
      List.length_append
    rw [numbers_reserve ht hp, hlen, List.range_succ, h.complete hc]
  watched := by
    rintro u ⟨⟩ hu
    cases hu

theorem Regular.sendLocked {t : Turn T} (h : s.Regular capacityBytes) (ht : s.turn = some t)
    (hp : pendingOf (some t) = []) (late : Bool) :
    (s.sendLocked capacityBytes t late).Regular capacityBytes := by
  rw [Channel.sendLocked]
  split
  · rename_i hwait
    split
    · exact h.setStage ht hp.symm (by nofun)
    · rename_i hreceivers
      exact h.setStage ht hp.symm fun _ => ⟨hwait, hreceivers⟩
  · rename_i hfit
    refine h.reserve ht hp ?_
    rw [mustWait] at hfit
    split at hfit <;> simp only [decide_eq_true_eq] at hfit <;> omega

theorem Regular.trySendLocked {t : Turn T} (h : s.Regular capacityBytes) (ht : s.turn = some t)
    (hp : pendingOf (some t) = []) : (s.trySendLocked capacityBytes t).Regular capacityBytes := by
  rw [Channel.trySendLocked]
  split
  · exact h.setStage ht hp.symm (by nofun)
  · exact h.reserve ht hp (by omega)

theorem Regular.innerSend {t : Turn T} (h : s.Regular capacityBytes) (ht : s.turn = some t)
    (hstage : t.stage = .reserved n) :
    Regular capacityBytes { s.setStage t (.returning .ok) with queue := s.queue ++ [n] } := by
  have hn : numbers { s.setStage t (.returning .ok) with queue := s.queue ++ [n] } = s.numbers := by
    have hp : pendingOf (some t) = [n] := by rw [pendingOf, hstage]
    rw [numbers, numbers, ht, hp, ← List.append_assoc]
    exact List.append_nil _
  refine ⟨h.accounted.of_sublist rfl rfl (fun _ => Iff.rfl) (by rw [hn]), ⟨h.counted.count, h.counted.origin⟩, ?_, ?_⟩
  · intro hc
    exact hn.trans (h.complete hc)
  · rintro u ⟨⟩ hu
    cases hu

theorem Regular.of_disconnected (h : s.Regular capacityBytes)
    (hb : s'.bytesInFlight = s.bytesInFlight) (hr : s'.reservations = s.reservations)
    (hf : ∀ n, s'.Finished n ↔ s.Finished n) (hn : s'.numbers.Sublist s.numbers)
    (hcounted : s'.Counted) (hd : s'.connected = false) (hw : s'.Watched capacityBytes) :
    s'.Regular capacityBytes where
  accounted := h.accounted.of_sublist hb hr hf hn
  counted := hcounted
  complete := by
    intro hcon
    rw [hd] at hcon
    cases hcon
  watched := hw

theorem Regular.locked (h : s.Regular capacityBytes) (ht : s.turn = some t)
    (hp : pendingOf (some t) = []) (late : Bool) :
    (match t.call.method with
      | .sendWithSize => s.sendLocked capacityBytes t late
      | .trySend => s.trySendLocked capacityBytes t).Regular capacityBytes := by
  split
  · exact h.sendLocked ht hp late
  · exact h.trySendLocked ht hp

theorem Regular.senderStep (h : s.Regular capacityBytes) (step : SenderStep) :
    (s.senderStep capacityBytes step).Regular capacityBytes := by
  rw [Channel.senderStep]
  cases ht : s.turn with
  | none => exact h
  | some t =>
    simp only []
    split
    · rename_i hstage
      exact h.locked ht (by rw [pendingOf, hstage]) _
    · rename_i hstage
      exact h.locked ht (by rw [pendingOf, hstage]) _
    · rename_i hstage
      split
      · exact h
      · exact h.setStage ht (by simp only [pendingOf, hstage]) (by rintro ⟨⟩)
    · rename_i n hstage
      split
      · exact h.innerSend ht hstage
      · rename_i hc
        have hn : (s.setStage t (.returning .disconnected)).numbers.Sublist s.numbers := by
          rw [numbers, numbers]
          exact (List.nil_sublist _).append_left _
        exact h.of_disconnected rfl rfl (fun _ => Iff.rfl) hn ⟨h.counted.count, h.counted.origin⟩
          (Bool.not_eq_true _ ▸ hc) (by rintro u ⟨⟩ hu; cases hu)
    · rename_i result hstage
      have hn : numbers { s with turn := none, results := s.results ++ [(t.call, result)] } =
          s.numbers := by
        rw [numbers, numbers, ht, pendingOf, pendingOf, hstage]
      exact ⟨h.accounted.of_sublist rfl rfl (fun _ => Iff.rfl) (by rw [hn]),
        ⟨h.counted.count, h.counted.origin⟩, fun hc => hn.trans (h.complete hc), by rintro _ ⟨⟩⟩
    · exact h

theorem Regular.takeTurn (h : s.Regular capacityBytes) (i : Nat) :
    (s.takeTurn i).Regular capacityBytes := by
  rw [Channel.takeTurn]
  split
  · rename_i call ht _
    have hn : numbers { s with turn := some { call }, waiting := s.waiting.eraseIdx i } =
        s.numbers := by
      rw [numbers, numbers, ht]
      rfl
    refine ⟨h.accounted.of_sublist rfl rfl (fun _ => Iff.rfl) (by rw [hn]),
      ⟨h.counted.count, h.counted.origin⟩, fun hc => hn.trans (h.complete hc), ?_⟩
    rintro u ⟨⟩ hu
    cases hu
  · exact h

-- ---------------------------------------------------------------------------
-- Receivers
-- ---------------------------------------------------------------------------

theorem notifyAll_spec (s : Channel T) :
    ∃ turn, s.notifyAll = { s with turn } ∧ pendingOf turn = pendingOf s.turn ∧
      ∀ t, turn = some t → t.stage ≠ .parked false := by
  rw [notifyAll]
  cases ht : s.turn with
  | none =>
    refine ⟨s.turn, rfl, by rw [ht], ?_⟩
    rw [ht]
    nofun
  | some t =>
    simp only []
    split
    · rename_i hstage
      refine ⟨some { t with stage := .parked true }, rfl, ?_, ?_⟩
      · simp only [pendingOf, hstage]
      · rintro u ⟨⟩
        nofun
    · rename_i hstage
      refine ⟨s.turn, rfl, by rw [ht], ?_⟩
      rw [ht]
      rintro u ⟨⟩
      exact hstage false

theorem Regular.notifyAll (h : s.Regular capacityBytes) : s.notifyAll.Regular capacityBytes := by
  obtain ⟨turn, heq, hp, hparked⟩ := notifyAll_spec s
  have hn : s.notifyAll.numbers = s.numbers := by rw [heq, numbers, numbers, hp]
  rw [heq] at hn ⊢
  exact ⟨h.accounted.of_sublist rfl rfl (fun _ => Iff.rfl) (by rw [hn]), ⟨h.counted.count, h.counted.origin⟩,
    fun hc => hn.trans (h.complete hc), fun t ht hstage => absurd hstage (hparked t ht)⟩

theorem messages_set {call : ReceiveCall} (hc : s.receiveCalls[c]? = some call)
    (stage : ReceiveStage) :
    (s.receiveCalls.set c { call with stage }).map (·.message) = s.receiveCalls.map (·.message) :=
  map_set_same hc rfl

theorem Accounted.release {call : ReceiveCall} {r : Reservation T}
    (h : s.Accounted capacityBytes) (hc : s.receiveCalls[c]? = some call)
    (hstage : call.stage = .holding) (hr : s.reservations[call.message]? = some r) :
    r.released = false ∧ sizeOf r ≤ s.bytesInFlight ∧
      Accounted capacityBytes
        { s with
          bytesInFlight := s.bytesInFlight - r.message.sizeBytes
          reservations := s.reservations.set call.message { r with released := true }
          receiveCalls := s.receiveCalls.set c { call with stage := .released } } := by
  have hlt : (s.receiveCalls.map (·.message)).Pairwise (· < ·) :=
    h.order.sublist ((List.sublist_append_left _ _).trans (List.sublist_append_left _ _))
  have hnodup : (s.receiveCalls.map (·.message)).Nodup := hlt.imp Nat.ne_of_lt
  -- no other call has this message
  have hunique : ∀ i call', s.receiveCalls[i]? = some call' → call'.message = call.message →
      i = c := by
    intro i call' hi hmsg
    have hlen : i < (s.receiveCalls.map (·.message)).length := by
      rw [List.length_map]
      exact (List.getElem?_eq_some_iff.mp hi).1
    refine (List.getElem?_inj hlen hnodup).mp ?_
    rw [List.getElem?_map, List.getElem?_map, hi, hc, Option.map_some, Option.map_some, hmsg]
  have hunreleased : r.released = false := by
    by_contra hrel
    rw [Bool.not_eq_false, h.released_iff _ r hr] at hrel
    obtain ⟨call', hmem, hmsg, hne⟩ := hrel
    obtain ⟨i, hi⟩ := List.mem_iff_getElem?.mp hmem
    have hic := hunique i call' hi hmsg
    subst hic
    rw [hc] at hi
    cases hi
    exact hne hstage
  have hperm : s.inFlight.Perm
      (r :: (s.reservations.set call.message { r with released := true }).filter (!·.released)) :=
    filter_set_perm hr (by rw [hunreleased]; rfl) rfl
  have hsum := (hperm.map sizeOf).sum_nat
  rw [← h.bytes, List.map_cons, List.sum_cons] at hsum
  have hsize : sizeOf r = r.message.sizeBytes := rfl
  have hnumbers : numbers
      { s with
        bytesInFlight := s.bytesInFlight - r.message.sizeBytes
        reservations := s.reservations.set call.message { r with released := true }
        receiveCalls := s.receiveCalls.set c { call with stage := .released } } = s.numbers := by
    simp only [numbers, messages_set hc]
  refine ⟨hunreleased, by omega, ?_, ?_, ?_, ?_, ?_⟩
  · rw [hsum, hsize, Nat.add_sub_cancel_left]
    rfl
  · intro hover
    simp only [] at hover
    obtain ⟨big, hbig, hlarge⟩ := h.oversized (by omega)
    have hfilter := hperm.filter (sizeOf · ≠ 0)
    rw [hbig] at hfilter
    by_cases hzero : sizeOf r = 0
    · rw [List.filter_cons_of_neg (by simpa using hzero)] at hfilter
      exact ⟨big, List.perm_singleton.mp hfilter.symm, hlarge⟩
    · -- the message is the large one, and nothing else has a size
      rw [List.filter_cons_of_pos (by simpa using hzero)] at hfilter
      have hnone := List.length_eq_zero_iff.mp (Nat.succ.inj hfilter.length_eq.symm)
      rw [List.filter_eq_nil_iff] at hnone
      have hrest : (((s.reservations.set call.message { r with released := true }).filter
          (!·.released)).map sizeOf).sum = 0 := by
        rw [List.sum_eq_zero_iff_forall_eq_nat]
        intro n hn
        obtain ⟨r', hr', rfl⟩ := List.mem_map.mp hn
        simpa using hnone r' hr'
      omega
  · exact (congrArg (List.Pairwise (· < ·)) hnumbers).mpr h.order
  · intro n hn
    rw [hnumbers] at hn
    rw [List.length_set]
    exact h.bound n hn
  · intro n r' hr'
    by_cases hn : n = call.message
    · subst hn
      rw [List.getElem?_set_self (List.getElem?_eq_some_iff.mp hr).1] at hr'
      cases hr'
      refine iff_of_true rfl ⟨_, mem_set_self hc _, rfl, by nofun⟩
    · rw [List.getElem?_set_ne (Ne.symm hn)] at hr'
      rw [h.released_iff n r' hr']
      constructor
      · rintro ⟨call', hmem, rfl, hne⟩
        refine ⟨call', mem_set_of_ne hc ?_ hmem _, rfl, hne⟩
        rintro rfl
        exact hn rfl
      · rintro ⟨call', hmem, rfl, hne⟩
        obtain hmem | rfl := List.mem_or_eq_of_mem_set hmem
        · exact ⟨call', hmem, rfl, hne⟩
        · exact absurd rfl hn

theorem Regular.onReceive (h : s.Regular capacityBytes) (c : Nat) :
    (s.onReceive c).Regular capacityBytes := by
  rw [Channel.onReceive]
  split
  · exact h
  · rename_i call hc
    split
    · rename_i hstage
      split
      · exact h
      · rename_i r hr
        obtain ⟨-, -, haccounted⟩ := h.accounted.release hc hstage hr
        refine ⟨haccounted, ⟨h.counted.count, h.counted.origin⟩, ?_, ?_⟩
        · intro hcon
          have hn := h.complete hcon
          simp only [numbers, messages_set hc, List.length_set] at hn ⊢
          exact hn
        · intro t _ _
          exact .inr (.inl ⟨_, mem_set_self hc _, rfl⟩)
    · rename_i hstage
      obtain ⟨turn, heq, hp, hparked⟩ := notifyAll_spec s
      rw [heq]
      have hn : numbers { s with
          turn, receiveCalls := s.receiveCalls.set c { call with stage := .returned } } =
          s.numbers := by
        simp only [numbers, messages_set hc, hp]
      have hf : ∀ n, Finished { s with
          turn, receiveCalls := s.receiveCalls.set c { call with stage := .returned } } n ↔
          s.Finished n := by
        intro n
        constructor
        · rintro ⟨call', hmem, hmsg, hne⟩
          obtain hmem | rfl := List.mem_or_eq_of_mem_set hmem
          · exact ⟨call', hmem, hmsg, hne⟩
          · exact ⟨call, List.mem_of_getElem? hc, hmsg, by rw [hstage]; nofun⟩
        · rintro ⟨call', hmem, hmsg, hne⟩
          by_cases heq : call = call'
          · subst heq
            exact ⟨_, mem_set_self hc _, hmsg, by nofun⟩
          · exact ⟨call', mem_set_of_ne hc heq hmem _, hmsg, hne⟩
      exact ⟨h.accounted.of_sublist rfl rfl hf (by rw [hn]), ⟨h.counted.count, h.counted.origin⟩,
        fun hcon => hn.trans (h.complete hcon), fun t ht hparked' => absurd hparked' (hparked t ht)⟩
    · exact h

theorem Regular.of_receivers (h : s.Regular capacityBytes) (receivers : List Life)
    (numReceivers : Nat) (hcounted : Counted { s with receivers, numReceivers })
    (hconnected : s.connected = true)
    (hwatched : Watched capacityBytes { s with receivers, numReceivers }) :
    Regular capacityBytes { s with receivers, numReceivers } where
  accounted := h.accounted.of_sublist rfl rfl (fun _ => Iff.rfl) (.refl _)
  counted := hcounted
  complete := fun _ => h.complete hconnected
  watched := hwatched

theorem connected_of {j : Nat} {life : Life} (hj : s.receivers[j]? = some life)
    (hl : life.isConnected = true) : s.connected = true :=
  List.any_eq_true.mpr ⟨life, List.mem_of_getElem? hj, hl⟩

theorem Counted.set {j : Nat} {life life' : Life} (h : s.Counted) (hj : s.receivers[j]? = some life)
    (hfree : life = .live → .cloning j ∉ s.receivers) (hnew : ∀ k, life' ≠ .cloning k)
    {numReceivers : Nat}
    (hnum : numReceivers + life.isCounted.toNat = s.numReceivers + life'.isCounted.toNat) :
    Counted { s with receivers := s.receivers.set j life', numReceivers } where
  count := by
    obtain ⟨hlt, hget⟩ := List.getElem?_eq_some_iff.mp hj
    have hpos : life.isCounted = true → 0 < s.receivers.countP (·.isCounted) := fun hl =>
      List.countP_pos_iff.mpr ⟨life, List.mem_of_getElem? hj, hl⟩
    have hcount := h.count
    simp only []
    rw [List.countP_set hlt, hget]
    cases hl : life.isCounted <;> cases hl' : life'.isCounted <;>
      simp only [hl, hl', Bool.toNat_true, Bool.toNat_false, Bool.false_eq_true, if_true,
        if_false, false_implies, true_implies] at hnum hpos ⊢ <;> omega
  origin := by
    intro k hk
    obtain hk | hk := List.mem_or_eq_of_mem_set hk
    · have hlive := h.origin k hk
      have hjk : j ≠ k := by
        rintro rfl
        rw [hj] at hlive
        exact hfree (Option.some.inj hlive) hk
      simp only []
      rw [List.getElem?_set_ne hjk, hlive]
    · exact absurd hk.symm (hnew k)

theorem WakePending.set {j : Nat} {life : Life} (h : s.WakePending) (hj : s.receivers[j]? = some life)
    (hl : life ≠ .uncounted true) (life' : Life) (numReceivers : Nat) :
    WakePending { s with receivers := s.receivers.set j life', numReceivers } :=
  h.imp_right fun hlast => mem_set_of_ne hj hl hlast life'

theorem Regular.recv {n : Nat} {queue : List Nat} (h : s.Regular capacityBytes) (j : Nat)
    (hq : s.queue = n :: queue) :
    Regular capacityBytes
      { s with queue, receiveCalls := s.receiveCalls ++ [{ receiver := j, message := n }] } := by
  have hn : numbers { s with
      queue, receiveCalls := s.receiveCalls ++ [{ receiver := j, message := n }] } = s.numbers := by
    simp only [numbers, hq, List.map_append, List.append_assoc]
    rfl
  have hf : ∀ m, Finished { s with
      queue, receiveCalls := s.receiveCalls ++ [{ receiver := j, message := n }] } m ↔
      s.Finished m := by
    intro m
    constructor
    · rintro ⟨call, hmem, hmsg, hne⟩
      obtain hmem | hmem := List.mem_append.mp hmem
      · exact ⟨call, hmem, hmsg, hne⟩
      · rw [List.mem_singleton.mp hmem] at hne
        exact absurd rfl hne
    · rintro ⟨call, hmem, hmsg, hne⟩
      exact ⟨call, List.mem_append_left _ hmem, hmsg, hne⟩
  refine ⟨h.accounted.of_sublist rfl rfl hf (by rw [hn]), ⟨h.counted.count, h.counted.origin⟩,
    fun hcon => hn.trans (h.complete hcon), ?_⟩
  intro t ht hparked
  refine (h.watched t ht hparked).imp_right ?_
  rintro (⟨call, hmem, hstage⟩ | hlast)
  · exact .inl ⟨call, List.mem_append_left _ hmem, hstage⟩
  · exact .inr hlast

theorem Regular.receiverStep (h : s.Regular capacityBytes) (j : Nat) (step : ReceiverStep) :
    (s.receiverStep j step).Regular capacityBytes := by
  rw [Channel.receiverStep]
  split
  · exact h
  · rename_i life hj
    split
    · split
      · exact h
      · rename_i n queue hq
        exact h.recv j hq
    · have hn : s.connected = true := connected_of hj rfl
      refine h.of_receivers _ _ ⟨?_, ?_⟩ hn ?_
      · simp only []
        rw [List.countP_append, ← h.counted.count]
        rfl
      · intro k hk
        simp only []
        obtain hk | hk := List.mem_append.mp hk
        · have hlive := h.counted.origin k hk
          rw [List.getElem?_append_left (List.getElem?_eq_some_iff.mp hlive).1, hlive]
        · cases List.mem_singleton.mp hk
          rw [List.getElem?_append_left (List.getElem?_eq_some_iff.mp hj).1, hj]
      · intro t ht hparked
        refine (h.watched t ht hparked).imp (fun hw => ⟨hw.1, Nat.succ_ne_zero _⟩) ?_
        exact Or.imp_right fun hlast => List.mem_append_left _ hlast
    · rename_i origin
      have horigin := h.counted.origin origin (List.mem_of_getElem? hj)
      refine h.of_receivers _ _ (h.counted.set hj (by nofun) (by nofun) rfl)
        (connected_of horigin rfl) ?_
      intro t ht hparked
      exact (h.watched t ht hparked).imp_right fun hw => hw.set hj (by nofun) _ _
    · split
      · exact h
      · rename_i hborrowed
        have hfree : .cloning j ∉ s.receivers := by
          intro hmem
          refine hborrowed ?_
          rw [borrowed, Bool.or_eq_true]
          exact .inr (List.any_eq_true.mpr ⟨_, hmem, decide_eq_true rfl⟩)
        have hpos : 0 < s.numReceivers := by
          rw [h.counted.count]
          exact List.countP_pos_iff.mpr ⟨_, List.mem_of_getElem? hj, rfl⟩
        refine h.of_receivers _ _ (h.counted.set hj (fun _ => hfree) (by nofun) ?_)
          (connected_of hj rfl) ?_
        · have htrue : Life.isCounted .live = true := rfl
          have hfalse : ∀ notify, Life.isCounted (.uncounted notify) = false := fun _ => rfl
          rw [htrue, hfalse, Bool.toNat_true, Bool.toNat_false]
          omega
        · intro t ht hparked
          by_cases hlast : s.numReceivers - 1 = 0
          · -- the last receiver is about to notify
            right
            right
            simp only [hlast, decide_true]
            exact mem_set_self hj _
          · refine (h.watched t ht hparked).imp (fun hw => ⟨hw.1, hlast⟩) ?_
            exact fun hw => hw.set hj (by nofun) _ _
    · obtain ⟨turn, heq, hp, hparked⟩ := notifyAll_spec s
      have hnotified := h.notifyAll
      rw [heq] at hnotified ⊢
      refine hnotified.of_receivers _ _ (hnotified.counted.set hj (by nofun) (by nofun) rfl)
        (connected_of hj rfl) ?_
      intro t ht hparked'
      exact absurd hparked' (hparked t ht)
    · have hcounted : (s.setLife j .gone).Counted := h.counted.set hj (by nofun) (by nofun) rfl
      have hwatched : (s.setLife j .gone).Watched capacityBytes := by
        intro t ht hparked
        exact (h.watched t ht hparked).imp_right fun hw => hw.set hj (by nofun) _ _
      simp only []
      split
      · exact h.of_receivers _ _ hcounted (connected_of hj rfl) hwatched
      · rename_i hd
        have hn : numbers { s.setLife j .gone with queue := [] } |>.Sublist s.numbers := by
          simp only [numbers, List.append_nil]
          exact (List.sublist_append_left _ _).append_right _
        exact h.of_disconnected rfl rfl (fun _ => Iff.rfl) hn ⟨hcounted.count, hcounted.origin⟩
          (Bool.not_eq_true _ ▸ hd) hwatched
    · exact h

-- ---------------------------------------------------------------------------
-- Runs
-- ---------------------------------------------------------------------------

theorem Regular.act (h : s.Regular capacityBytes) (a : Action T) :
    (s.act capacityBytes a).Regular capacityBytes := by
  cases a with
  | send call =>
    exact ⟨h.accounted.of_sublist rfl rfl (fun _ => Iff.rfl) (.refl _),
      ⟨h.counted.count, h.counted.origin⟩, h.complete, h.watched⟩
  | takeTurn i => exact h.takeTurn i
  | sender step => exact h.senderStep step
  | receiver j step => exact h.receiverStep j step
  | onReceive c => exact h.onReceive c

theorem Reached.regular (h : Reached capacityBytes s) : s.Regular capacityBytes :=
  h.invariant initial fun _ a hs _ => hs.act a

/-- A sender is parked, nobody is about to wake it up, and it has nothing to wait for: its
message fits, or there are no receivers any more. -/
def Stuck (capacityBytes : Nat) (s : Channel T) : Prop :=
  ∃ t, s.turn = some t ∧ t.stage = .parked false ∧ ¬ s.WakePending ∧
    (s.mustWait capacityBytes t.call.message.sizeBytes = false ∨
      ∀ life ∈ s.receivers, life.isCounted = false)

/-- The promises of the channel: its budget is exact, exceeded by one large message only, and
never subtracted from in vain; messages are received once, and in the order of their
reservations; while there are receivers, nothing that was given space is lost; nobody is stuck. -/
structure Kept (capacityBytes : Nat) (s : Channel T) : Prop where
  /-- What is in flight is what no call that received it has given the space back of. -/
  released : ∀ n r, s.reservations[n]? = some r →
    (r.released = true ↔ ∃ call ∈ s.receiveCalls, call.message = n ∧ call.stage ≠ .holding)
  exact : s.bytesInFlight = (s.inFlight.map sizeOf).sum
  oversized : capacityBytes < s.bytesInFlight →
    ∃ r, s.inFlight.filter (sizeOf · ≠ 0) = [r] ∧ capacityBytes < sizeOf r
  subtracts : ∀ call ∈ s.receiveCalls, call.stage = .holding →
    ∃ r, s.reservations[call.message]? = some r ∧ sizeOf r ≤ s.bytesInFlight
  inOrder : (s.receiveCalls.map (·.message)).Pairwise (· < ·)
  noneLost : s.connected = true → s.numbers = List.range s.reservations.length
  notStuck : ¬ s.Stuck capacityBytes

theorem budget_kept (h : Reached capacityBytes s) : s.Kept capacityBytes := by
  have hr := h.regular
  refine ⟨hr.accounted.released_iff, hr.accounted.bytes, hr.accounted.oversized, ?_, ?_,
    hr.complete, ?_⟩
  · intro call hmem hstage
    obtain ⟨c, hc⟩ := List.mem_iff_getElem?.mp hmem
    have hbound : call.message < s.reservations.length :=
      hr.accounted.bound _
        (List.mem_append_left _ (List.mem_append_left _ (List.mem_map_of_mem hmem)))
    have hget := List.getElem?_eq_getElem hbound
    obtain ⟨-, hle, -⟩ := hr.accounted.release hc hstage hget
    exact ⟨_, hget, hle⟩
  · exact hr.accounted.order.sublist
      ((List.sublist_append_left _ _).trans (List.sublist_append_left _ _))
  · rintro ⟨t, ht, hparked, hnone, hfree⟩
    obtain ⟨hwait, hreceivers⟩ | hpending := hr.watched t ht hparked
    · obtain hfits | hgone := hfree
      · rw [hwait] at hfits
        cases hfits
      · rw [hr.counted.count] at hreceivers
        obtain ⟨life, hmem, hcounted⟩ := List.countP_pos_iff.mp (Nat.pos_of_ne_zero hreceivers)
        rw [hgone life hmem] at hcounted
        cases hcounted
    · exact hnone hpending

/-- Two messages of 80 bytes each over 100 bytes: the second one waits, is notified, and is
received after the first. -/
def backpressure : List (Action Nat) :=
  [.send ⟨⟨1, 80⟩, .sendWithSize⟩, .takeTurn 0, .sender (.lock false), .sender .innerSend,
    .sender .leave, .send ⟨⟨2, 80⟩, .sendWithSize⟩, .takeTurn 0, .sender (.lock false),
    .receiver 0 .recv, .onReceive 0, .onReceive 0, .sender (.lock false), .sender .innerSend,
    .sender .leave, .receiver 0 .recv]

theorem budget_kept_backpressure :
    ((backpressure.foldl (act 100) {}).receiveCalls.map (·.message) = [0, 1]) ∧
      Kept 100 (backpressure.foldl (act 100) {}) :=
  ⟨by decide, budget_kept (Reach.Reachable.foldl .init (by decide))⟩

end Channel
end DimosViewer.Quota.Sync
