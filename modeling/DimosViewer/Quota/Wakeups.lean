import DimosViewer.Quota.BroadcastChannel

/-!
# Wake-ups of blocked senders

A sender that was refused looks at the clock, then registers with `notified`. What is
released before it registers, and notified before it registers, does not wake it. If it
was warned before, nothing else will.
-/

namespace DimosViewer.Quota

/-- It is between its last `try_send` and its untimed wait, or waits. -/
def SendCall.Blocked (call : SendCall T) : Prop :=
  call.warned ∧ (call.stage = .full ∨ call.stage = .waiting false)

namespace Channel

section Wakeups

variable {cfg : Config} {size : T → Nat} {s : Channel T}

-- ---------------------------------------------------------------------------
-- What blocks
-- ---------------------------------------------------------------------------

def canReturn (cfg : Config) (size : T → Nat) (s : Channel T) (call : SendCall T) : Bool :=
  s.locked.numReceivers = 0 || s.locked.accepts cfg (size call.value)

def Stuck (cfg : Config) (size : T → Nat) (s : Channel T) : Prop :=
  ∃ call ∈ s.calls, call.warned ∧ call.stage = .waiting false ∧ s.canReturn cfg size call ∧
    s.notifying = 0

instance : Decidable (s.Stuck cfg size) :=
  inferInstanceAs (Decidable (∃ call ∈ s.calls, call.warned ∧ call.stage = .waiting false ∧
    s.canReturn cfg size call ∧ s.notifying = 0))

/-- The last notification does not come while a sender that was warned is refused and not
registered, though it need not wait any more. -/
def Timely (cfg : Config) (size : T → Nat) (s : Channel T) (a : Action T) : Prop :=
  a = .notify → s.notifying = 1 → ∀ call ∈ s.calls, call.warned → call.stage = .full →
    s.canReturn cfg size call = false

instance [DecidableEq T] (a : Action T) : Decidable (s.Timely cfg size a) :=
  inferInstanceAs (Decidable (a = .notify → s.notifying = 1 → ∀ call ∈ s.calls, call.warned →
    call.stage = .full → s.canReturn cfg size call = false))

/-- A blocked sender that need not wait has a notification to come. -/
def Watched (cfg : Config) (size : T → Nat) (s : Channel T) : Prop :=
  ∀ call ∈ s.calls, call.Blocked → s.canReturn cfg size call → 0 < s.notifying

theorem Watched.not_stuck (h : s.Watched cfg size) : ¬ s.Stuck cfg size := by
  rintro ⟨call, hc, hwarned, hstage, hret, hzero⟩
  have := h call hc ⟨hwarned, .inr hstage⟩ hret
  omega

-- ---------------------------------------------------------------------------
-- Steps
-- ---------------------------------------------------------------------------

theorem accepts_antitone {locked locked' : Locked}
    (hb : locked.bytesInFlight ≤ locked'.bytesInFlight)
    (hm : locked.messagesInFlight ≤ locked'.messagesInFlight)
    (h : locked'.accepts cfg n) : locked.accepts cfg n := by
  simp only [Locked.accepts, Bool.or_eq_true, Bool.and_eq_true, decide_eq_true_eq,
    beq_iff_eq] at h ⊢
  omega

theorem Watched.of_calls {s' : Channel T} (h : s.Watched cfg size)
    (hcalls : ∀ call ∈ s'.calls, call.Blocked → s'.canReturn cfg size call → 0 < s'.notifying ∨
      call ∈ s.calls ∧ s.canReturn cfg size call ∧ s.notifying ≤ s'.notifying) :
    s'.Watched cfg size := by
  intro call hc hb hret
  obtain hpos | ⟨hold, hret, hle⟩ := hcalls call hc hb hret
  · exact hpos
  · exact Nat.lt_of_lt_of_le (h call hold hb hret) hle

theorem Watched.setCall (h : s.Watched cfg size) {call : SendCall T}
    (hc : ¬ call.Blocked) : (s.setCall i call).Watched cfg size := by
  refine h.of_calls fun call' hm hb hret => ?_
  obtain hold | rfl := List.mem_or_eq_of_mem_set hm
  · exact .inr ⟨hold, hret, Nat.le_refl _⟩
  · exact absurd hb hc

theorem Watched.trySend (h : s.Watched cfg size) :
    (s.trySend cfg size i late).Watched cfg size := by
  rw [Channel.trySend]
  cases hi : s.calls[i]? with
  | none => exact h
  | some call =>
    dsimp only
    split
    · split
      · exact h.setCall (by simp [SendCall.Blocked])
      rename_i hreceivers
      split
      · refine h.of_calls fun call' hm hb hret => .inr ?_
        obtain hold | rfl := List.mem_or_eq_of_mem_set hm
        · refine ⟨hold, ?_, Nat.le_refl _⟩
          simp only [canReturn, Bool.or_eq_true, decide_eq_true_eq] at hret ⊢
          exact hret.imp_right (accepts_antitone (Nat.le_add_right ..) (Nat.le_add_right ..))
        · simp [SendCall.Blocked] at hb
      · rename_i hrefused
        refine h.of_calls fun call' hm hb hret => .inr ?_
        obtain hold | rfl := List.mem_or_eq_of_mem_set hm
        · exact ⟨hold, hret, Nat.le_refl _⟩
        · simp only [canReturn, Bool.or_eq_true, decide_eq_true_eq] at hret
          exact absurd hret (not_or.mpr ⟨hreceivers, hrefused⟩)
    · exact h

theorem Watched.innerSend (h : s.Watched cfg size) : (s.innerSend i).Watched cfg size := by
  rw [Channel.innerSend]
  cases hi : s.calls[i]? with
  | none => exact h
  | some call =>
    dsimp only
    split
    · split
      · exact h.setCall (by simp [SendCall.Blocked])
      · have hsent : (s.setCall i { call with stage := .sent s.subscribed.length }).Watched cfg size :=
          h.setCall (by simp [SendCall.Blocked])
        exact hsent
    · exact h

theorem Watched.callStep (h : s.Watched cfg size) : (s.callStep i step).Watched cfg size := by
  rw [Channel.callStep]
  cases hi : s.calls[i]? with
  | none => exact h
  | some call =>
    dsimp only
    split
    · exact h.setCall (by simp [SendCall.Blocked])
    · rename_i hfull
      refine h.of_calls fun call' hm hb hret => ?_
      obtain hold | rfl := List.mem_or_eq_of_mem_set hm
      · exact .inr ⟨hold, hret, Nat.le_refl _⟩
      · exact .inl (h call (List.mem_of_getElem? hi) ⟨hb.1, .inl hfull⟩ hret)
    · exact h.setCall (by simp [SendCall.Blocked])
    · split
      · exact h
      · exact h.setCall (by simp [SendCall.Blocked])
    · exact h

theorem Watched.receiverStep (h : s.Watched cfg size) :
    (s.receiverStep cfg i step).Watched cfg size := by
  rw [Channel.receiverStep]
  cases hi : s.receivers[i]? with
  | none => exact h
  | some r =>
    dsimp only
    split
    · split
      · split <;> exact h
      · exact h
    · exact h
    · split
      · refine h.of_calls fun call hm hb hret => ?_
        by_cases hzero : s.locked.numReceivers - 1 = 0
        · exact .inl (by simp [hzero])
        · refine .inr ⟨hm, ?_, by simp [hzero]⟩
          simp only [canReturn, Bool.or_eq_true, decide_eq_true_eq] at hret ⊢
          exact .inr (hret.resolve_left hzero)
      · exact h
    · exact h
    · split
      · split <;> exact h
      · exact h
    · exact h

theorem Watched.release (h : s.Watched cfg size) : (s.release size msg).Watched cfg size := by
  rw [Channel.release]
  split
  · split
    · exact fun _ _ _ _ => Nat.succ_pos _
    · exact h
  · exact h

theorem Watched.notify (h : s.Watched cfg size) (ht : s.Timely cfg size .notify) :
    s.notify.Watched cfg size := by
  rw [Channel.notify]
  split
  · exact h
  rename_i hne
  intro call' hm hb hret
  obtain ⟨call, hc, rfl⟩ := List.mem_map.mp hm
  split at hb
  · simp [SendCall.Blocked] at hb
  · rename_i hstage
    rw [if_neg hstage] at hret
    have hfull : call.stage = .full := hb.2.resolve_right hstage
    have hone : s.notifying ≠ 1 := by
      intro hone
      have := ht rfl hone call hc hb.1 hfull
      rw [show s.canReturn cfg size call = true from hret] at this
      cases this
    show 0 < s.notifying - 1
    omega

theorem Watched.perform (h : s.Watched cfg size) (ht : s.Timely cfg size a) :
    (s.perform cfg size a).Watched cfg size := by
  cases a with
  | send value =>
    refine h.of_calls fun call hm hb hret => .inr ?_
    obtain hold | hnew := List.mem_append.mp hm
    · exact ⟨hold, hret, Nat.le_refl _⟩
    · rw [List.mem_singleton.mp hnew] at hb
      simp [SendCall.Blocked] at hb
  | trySend i late => exact h.trySend
  | innerSend i => exact h.innerSend
  | call i step => exact h.callStep
  | subscribe =>
    refine h.of_calls fun call hm hb hret => .inr ⟨hm, ?_, Nat.le_refl _⟩
    simp only [canReturn, Bool.or_eq_true, decide_eq_true_eq] at hret ⊢
    exact .inr (hret.resolve_left (Nat.succ_ne_zero _))
  | innerSubscribe =>
    rw [Channel.perform, Channel.innerSubscribe]
    split <;> exact h
  | receiver i step => exact h.receiverStep
  | release msg => exact h.release
  | notify => exact h.notify ht

theorem Watched.act (h : s.Watched cfg size) (ht : s.Timely cfg size a) :
    (s.act cfg size a).Watched cfg size :=
  h.perform ht

-- ---------------------------------------------------------------------------
-- Runs
-- ---------------------------------------------------------------------------

theorem Reached.watched (h : Reached cfg size (Timely cfg size) s) : s.Watched cfg size :=
  h.invariant (fun _ hc => absurd hc List.not_mem_nil) fun _ _ hw ht => hw.act ht

/-- After a notification that comes too early, the sender only has to register. -/
theorem stuck_of_not_timely (h : ¬ s.Timely cfg size .notify) :
    ∃ i, ((s.act cfg size .notify).act cfg size (.call i .register)).Stuck cfg size := by
  simp only [Timely, forall_const] at h
  push Not at h
  obtain ⟨hone, call, hc, hwarned, hfull, hret⟩ := h
  obtain ⟨i, hi, hget⟩ := List.mem_iff_getElem.mp hc
  have hnotify : s.notify = { s with
      notifying := s.notifying - 1
      calls := s.calls.map fun call =>
        if call.stage = .waiting false then { call with stage := .waiting true } else call } := by
    rw [Channel.notify, if_neg (by omega)]
  have hcall : s.notify.calls[i]? = some call := by
    rw [hnotify]
    simp [hi, hget, hfull]
  have hreg : (s.act cfg size .notify).perform cfg size (.call i .register) =
      (s.act cfg size .notify).setCall i { call with stage := .waiting false } := by
    show (s.act cfg size .notify).callStep i .register = _
    rw [Channel.callStep, show (s.act cfg size .notify).calls[i]? = some call from hcall]
    dsimp only
    rw [hfull]
  have hlen : i < s.notify.calls.length := (List.getElem?_eq_some_iff.mp hcall).1
  have hstuck : ((s.act cfg size .notify).setCall i { call with stage := .waiting false }).Stuck
      cfg size := by
    refine ⟨{ call with stage := .waiting false }, List.mem_set hlen _, hwarned, rfl, ?_, ?_⟩
    · show s.notify.canReturn cfg size call = true
      rw [hnotify]
      exact (Bool.not_eq_false _).mp hret
    · show s.notify.notifying = 0
      rw [hnotify]
      show s.notifying - 1 = 0
      omega
  rw [← hreg] at hstuck
  exact ⟨i, hstuck⟩

end Wakeups

/-- No sender is stuck in a run whose notifications are timely; one that is not leaves a
sender stuck as soon as it registers. -/
theorem never_stuck (cfg : Config) (size : T → Nat) :
    (∀ s : Channel T, Reached cfg size (Timely cfg size) s → ¬ s.Stuck cfg size) ∧
    (∀ s : Channel T, ¬ s.Timely cfg size .notify →
      ∃ i, ((s.act cfg size .notify).act cfg size (.call i .register)).Stuck cfg size) :=
  ⟨fun _ h => h.watched.not_stuck, fun _ h => stuck_of_not_timely h⟩

/-- The second of two senders is refused, waits for the time of the warning, is refused
again and warned. -/
def contended : List (Action Nat) :=
  [.send 0, .trySend 0 false, .innerSend 0, .send 1, .trySend 1 false, .call 1 .register,
    .call 1 .timeout, .trySend 1 true]

def registeredInTime : List (Action Nat) :=
  contended ++
    [.call 1 .register, .receiver 0 .recv, .receiver 0 .dropCopy, .release 0, .notify]

def registeredLate : List (Action Nat) :=
  contended ++
    [.receiver 0 .recv, .receiver 0 .dropCopy, .release 0, .notify, .call 1 .register]

theorem never_stuck_registered :
    ¬ (registeredInTime.foldl (act (channel 1 100 1 (by decide)) fun _ => 1) {}).Stuck
        (channel 1 100 1 (by decide)) fun _ => 1 :=
  (never_stuck _ _).1 _ (.foldl .init (by decide +kernel))

/-- There is space for its message, and nothing is in flight whose drop could wake it. -/
theorem registered_late_stuck :
    (registeredLate.foldl (act (channel 1 100 1 (by decide)) fun _ => 1) {}).Stuck
        (channel 1 100 1 (by decide)) (fun _ => 1) ∧
      (registeredLate.foldl (act (channel 1 100 1 (by decide)) fun _ => 1)
        {}).locked.messagesInFlight = 0 := by
  decide +kernel

end Channel

end DimosViewer.Quota
