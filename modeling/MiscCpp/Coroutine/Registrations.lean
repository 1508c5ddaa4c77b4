import MiscCpp.Coroutine.ItemLife

/-!
# The registrations of other calls

The interest set is keyed by descriptor, and a descriptor in it is registered for one call. A call
of `CoPoll` that starts leaves what is registered (`EPOLL_CTL_ADD` fails with `EEXIST`), but the one
that ends removes every descriptor of its array, whoever registered it.

So a run of the event loop leaves the registrations of pending calls alone exactly as long as no
call that ends has a descriptor that is registered for another pending call
(`always_leavesRegistrations_iff`).
-/

open Function

namespace CoRoutine

/-- The coroutine of the call `y` is suspended in it. -/
def Pending (s : EventLoop) (y : ItemId) : Prop :=
  s.suspended (s.epoll.items y).args = some y

instance (s : EventLoop) (y : ItemId) : Decidable (Pending s y) :=
  inferInstanceAs (Decidable (s.suspended (s.epoll.items y).args = some y))

/-- The registrations of the calls that are still pending stay. -/
def LeavesRegistrations (s t : EventLoop) : Prop :=
  ∀ fd y i, s.interest fd = some (y, i) → Pending t y → t.interest fd = some (y, i)

/-- Both parts of a step, the action and the clean-up of the coroutine that gets control, leave the
registrations of the calls that are still pending. -/
def StepLeavesRegistrations (loopCo : CoId) (s : EventLoop) (a : LoopAction) : Prop :=
  ∀ t, s.act loopCo a = some t → LeavesRegistrations s t ∧
    ∀ s', t.arrive = some s' → LeavesRegistrations t s'

/-- No descriptor of the call `x` is registered for another pending call. -/
def OwnsDescriptors (t : EventLoop) (x : ItemId) : Prop :=
  ∀ p, t.polls x = some p → ∀ f ∈ p.fds, f.fd > -1 → ∀ y i, t.interest f.fd = some (y, i) →
    y ≠ x → ¬ Pending t y

/-- A call that ends in this step has no descriptor that is registered for another pending call. -/
def EndsOwning (loopCo : CoId) (s : EventLoop) (a : LoopAction) : Prop :=
  ∀ t, s.act loopCo a = some t → ∀ x, t.suspended t.rt.running = some x → OwnsDescriptors t x

variable {s s' t : EventLoop} {loopCo : CoId} {a : LoopAction} {x y : ItemId}

/-! ### The actions -/

theorem onPollPrepare_interest {i : ℕ} {events : BitVec 32}
    (h : s.onPollPrepare x i events = some t) : t.interest = s.interest := by
  obtain ⟨p, -, rfl | ⟨ep, -, rfl⟩⟩ := EventLoop.onPollPrepare_eq_some h
  · rfl
  · rfl

theorem prepareAll_interest {events : List (ℤ × BitVec 32)}
    (h : EventLoop.prepareAll events s = some t) : t.interest = s.interest := by
  induction events generalizing s with
  | nil => exact Option.some.inj h ▸ rfl
  | cons e events ih =>
    obtain ⟨x, i, s₁, -, h₁, h⟩ := EventLoop.prepareAll_cons_eq_some h
    rw [ih h, onPollPrepare_interest h₁]

theorem broadcastLoop_interest {c : CondId} {fuel : ℕ}
    (h : EventLoop.broadcastLoop c fuel s = some t) : t.interest = s.interest := by
  induction fuel generalizing s with
  | zero => exact Option.some.inj h ▸ rfl
  | succ fuel ih =>
    rw [EventLoop.broadcastLoop] at h
    split at h
    · exact Option.some.inj h ▸ rfl
    · obtain ⟨s₁, h₁, h⟩ := Option.bind_eq_some_iff.1 h
      obtain ⟨ep, -, rfl⟩ := Option.map_eq_some_iff.1 h₁
      have hint := ih h
      exact hint

theorem coPoll_interest {fds : List PollFd} {timeout : ℤ} {now sp : ℕ} {ctl : ℤ → CtlResult}
    (h : s.coPoll fds timeout now ctl sp = some t) :
    t.interest = s.interest ∨
      t.interest = Interest.addAll ctl s.epoll.nextItem 0 fds s.interest := by
  rw [EventLoop.coPoll] at h
  split at h
  · exact .inl (Option.some.inj h ▸ rfl)
  split at h
  · cases h
  split at h
  · exact .inl (Option.some.inj h ▸ rfl)
  split at h
  next s' heq =>
    obtain rfl := (Prod.mk.inj heq).1
    obtain ⟨rt, -, rfl⟩ := Option.map_eq_some_iff.1 h
    exact .inr rfl
  next s' n heq =>
    obtain rfl := (Prod.mk.inj heq).1
    exact .inr (Option.some.inj h ▸ rfl)

theorem coCondTimewait_interest {c : CondId} {timeout : ℤ} {now sp : ℕ}
    (h : s.coCondTimewait c timeout now sp = some t) : t.interest = s.interest := by
  have hstart : ∀ self, (s.startTimewait self timeout now).1.interest = s.interest := fun self ↦ by
    rw [EventLoop.startTimewait]
    split <;> rfl
  rw [EventLoop.coCondTimewait] at h
  split at h
  · cases h
  next self _ =>
    split at h
    next s' heq =>
      obtain ⟨rt, -, rfl⟩ := Option.map_eq_some_iff.1 h
      exact (congrArg (fun r ↦ r.1.interest) heq).symm.trans (hstart self)
    next s' n heq =>
      obtain rfl := Option.some.inj h
      exact (congrArg (fun r ↦ r.1.interest) heq).symm.trans (hstart self)

/-- **No action takes anything out of the interest set.** -/
theorem act_interest (h : s.act loopCo a = some t) {fd : ℤ} {ptr : ItemId × ℕ}
    (hfd : s.interest fd = some ptr) : t.interest fd = some ptr := by
  cases a with
  | runtime a =>
    cases a with
    | release co | reset co =>
      obtain ⟨-, h⟩ := Option.ite_none_left_eq_some.1 h
      obtain ⟨rt, -, rfl⟩ := Option.map_eq_some_iff.1 h
      exact hfd
    | create attr buffer | resume co sp | yield sp | finish sp | run bytes =>
      rw [EventLoop.act, EventLoop.runtimeStep] at h
      obtain ⟨rt, -, rfl⟩ := Option.map_eq_some_iff.1 h
      exact hfd
  | poll fds timeout now ctl sp =>
    rcases coPoll_interest h with hint | hint
    · rw [hint, hfd]
    · rw [hint, Interest.addAll_of_some hfd]
  | timewait c timeout now sp => rw [coCondTimewait_interest h, hfd]
  | signal c =>
    obtain rfl | ⟨x, -, h⟩ := EventLoop.coCondSignal_eq_some h
    · exact hfd
    · obtain ⟨ep, -, rfl⟩ := Option.map_eq_some_iff.1 h
      exact hfd
  | broadcast c => rw [broadcastLoop_interest h, hfd]
  | iterate events now =>
    obtain ⟨-, h⟩ := Option.ite_none_right_eq_some.1 h
    obtain ⟨-, s₁, ep, h₁, -, rfl⟩ := EventLoop.iterate_eq_some h
    show s₁.interest fd = some ptr
    rw [prepareAll_interest h₁]
    exact hfd
  | drain sp =>
    obtain ⟨-, h⟩ := Option.ite_none_right_eq_some.1 h
    rw [EventLoop.drain] at h
    split at h
    · cases h
    · split at h
      · exact Option.some.inj h ▸ hfd
      · exact Option.some.inj h ▸ hfd
      · obtain ⟨-, h⟩ := Option.ite_none_left_eq_some.1 h
        obtain ⟨rt, -, rfl⟩ := Option.map_eq_some_iff.1 h
        exact hfd

/-! ### The clean-up -/

theorem endWait_interest (h : t.endWait x = some s') :
    s'.interest = (t.polls x).elim t.interest fun p ↦ Interest.delAll p.fds t.interest := by
  rw [EventLoop.endWait] at h
  split at h
  next p hp =>
    obtain ⟨ep, -, rfl⟩ := Option.map_eq_some_iff.1 h
    rw [hp, Option.elim_some]
  next hp =>
    obtain ⟨conds, -, rfl⟩ := Option.map_eq_some_iff.1 h
    rw [hp, Option.elim_none]

/-- Which calls are pending after the clean-up of the call `x`. -/
theorem LoopOk.pending_endWait (O : LoopOk t) (hx : t.suspended t.rt.running = some x)
    (h : t.endWait x = some s') : Pending s' y ↔ y ≠ x ∧ Pending t y := by
  obtain ⟨-, -, -, hsusp, hview, hother⟩ := O.endWait hx h
  have hpending : ∀ {u : EventLoop}, Pending u y ↔ (view u y).waiting = true :=
    decide_eq_true_iff.symm
  rcases eq_or_ne y x with rfl | hyx
  · simp [hpending, hview, View.ended]
  · rw [hpending, hpending, hother y hyx, and_iff_right hyx]

/-- **The clean-up of a call leaves the registrations of the others** exactly if none of its
descriptors is registered for a pending one. -/
theorem LoopOk.leavesRegistrations_endWait (O : LoopOk t) (hx : t.suspended t.rt.running = some x)
    (h : t.endWait x = some s') : LeavesRegistrations t s' ↔ OwnsDescriptors t x := by
  rw [LeavesRegistrations, OwnsDescriptors, endWait_interest h]
  constructor
  · intro hleaves p hp f hf hfd y i hreg hyx hy
    have hstays := hleaves f.fd y i hreg ((O.pending_endWait hx h).2 ⟨hyx, hy⟩)
    rw [hp, Option.elim_some, Interest.delAll_apply, if_pos ⟨hfd, f, hf, rfl⟩] at hstays
    cases hstays
  · intro howns fd y i hreg hy
    obtain ⟨hyx, hy⟩ := (O.pending_endWait hx h).1 hy
    cases hp : t.polls x with
    | none => rw [Option.elim_none, hreg]
    | some p =>
      rw [Option.elim_some, Interest.delAll_apply, if_neg, hreg]
      rintro ⟨hfd, f, hf, rfl⟩
      exact howns p hp f hf hfd y i hreg hyx hy

/-! ### Runs -/

theorem InOrder.stepLeavesRegistrations_iff (I : InOrder s) :
    StepLeavesRegistrations loopCo s a ↔ EndsOwning loopCo s a := by
  refine forall₂_congr fun t ht ↦ ?_
  have O := I.ok.act I.running ht
  have hstart : LeavesRegistrations s t := fun fd y i hreg _ ↦ act_interest ht hreg
  rw [and_iff_right hstart]
  cases hx : t.suspended t.rt.running with
  | none =>
    have harrive : t.arrive = some t := by rw [EventLoop.arrive, hx]
    simp only [harrive, Option.some.injEq, forall_eq', reduceCtorEq, false_implies, implies_true,
      iff_true]
    exact fun fd y i hreg _ ↦ hreg
  | some x =>
    obtain ⟨s', hs'⟩ := O.endWait_defined x
    have harrive : t.arrive = some s' := by
      rw [EventLoop.arrive, hx]
      exact hs'
    simp only [harrive, Option.some.injEq, forall_eq']
    exact O.leavesRegistrations_endWait hx hs'

variable {share : ShareStack} {coFunc : ℕ} {buffer : ℕ → ℕ} {mainBuffer now : ℕ}
  {acts : List LoopAction}

/-- **A run leaves the registrations of pending calls alone exactly as long as no call that ends has
a descriptor that is registered for another pending call.** -/
theorem always_leavesRegistrations_iff (loopCo : CoId) :
    Machine.Always (EventLoop.step loopCo) (StepLeavesRegistrations loopCo)
        (.initial (initial share coFunc buffer mainBuffer) now) acts ↔
      Machine.Always (EventLoop.step loopCo) (EndsOwning loopCo)
        (.initial (initial share coFunc buffer mainBuffer) now) acts :=
  Machine.always_congr (fun _ _ _ (I : InOrder _) h ↦ I.step h)
    (fun _ _ I ↦ I.stepLeavesRegistrations_iff)
    (inOrder_initial (wf_initial share coFunc buffer mainBuffer) now)

/-- Two coroutines wait for the same descriptor, one to read and one to write. The second one's
timeout comes first. -/
def readerAndWriter : List LoopAction :=
  [.runtime (.create {} 0), .runtime (.create {} 0), .runtime (.resume 1 0),
    .poll [⟨5, POLLIN, 0⟩] 1000 1000 (fun _ ↦ .ok) 0, .runtime (.resume 2 0),
    .poll [⟨5, POLLOUT, 0⟩] 1 1000 (fun _ ↦ .ok) 0, .iterate [] 1001]

/-- The writer takes the registration of the reader with it. -/
theorem not_always_leavesRegistrations_readerAndWriter :
    ¬ Machine.Always (EventLoop.step 0) (StepLeavesRegistrations 0)
      (.initial (initial oneStack 0 (fun _ ↦ 65536) 0) 1000) (readerAndWriter ++ [.drain 0]) := by
  intro h
  have hrun : (Machine.exec (EventLoop.step 0)
      (.initial (initial oneStack 0 (fun _ ↦ 65536) 0) 1000) readerAndWriter).bind
        (fun s ↦ (s.act 0 (.drain 0)).bind fun t ↦
          t.arrive.map fun s' ↦ (t.interest 5, decide (Pending s' 0), s'.interest 5)) =
      some (some (0, 0), true, none) := by decide +kernel
  obtain ⟨s, hs, hrun⟩ := Option.bind_eq_some_iff.1 hrun
  obtain ⟨t, ht, hrun⟩ := Option.bind_eq_some_iff.1 hrun
  obtain ⟨s', hs', hvalues⟩ := Option.map_eq_some_iff.1 hrun
  simp only [Prod.mk.injEq, decide_eq_true_eq] at hvalues
  obtain ⟨hreg, hpending, hgone⟩ := hvalues
  have hstep : StepLeavesRegistrations 0 s (.drain 0) := Machine.always_step h hs
  have hstays := (hstep t ht).2 s' hs' 5 0 0 hreg hpending
  rw [hgone] at hstays
  cases hstays

end CoRoutine
