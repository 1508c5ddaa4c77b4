import MiscCpp.Coroutine.ItemLife

/-!
# A wait ends once

Every call of `CoPoll` or `CoCondTimewait` that waits is resumed by at most one call of
`OnProcessEvent`, and an item that is freed is in no list any more (`waits_once`), in every run in
which the waiting coroutines are left to `OnProcessEvent`: nothing else resumes them, and they are
neither released nor reset. `CoFree` and `CoReset` take no item out of a list. After a reset the
item still names the coroutine, which `OnProcessEvent` starts anew, and then resumes in a later call
(`not_forall_waits_once`).

The invariant of an item is `View.WaitsOnce`: as long as it is linked anywhere, or registered for
events, its call waits, and a call that waits has not been processed. `OnProcessEvent` finds the
item on `active_list`, so it finds it waiting, and the coroutine it resumes takes the item out of
the one list it may still be in.
-/

namespace CoRoutine

/-- What holds of an item while the waiting coroutines are left to `OnProcessEvent`. -/
structure View.WaitsOnce (v : View) : Prop where
  linked : v.link ≠ none ∨ v.cond ≠ none ∨ v.poll = true → v.waiting = true
  waiting : v.waiting = true → v.processed = 0 ∧ v.freed = false
  processed : v.processed ≤ 1
  poll : v.poll = true → v.cond = none

namespace View.WaitsOnce

variable {v v' : View}

/-- Nothing is linked to an item whose call does not wait. -/
theorem unlinked (W : v.WaitsOnce) (hw : v.waiting = false) :
    v.link = none ∧ v.cond = none ∧ v.poll = false := by
  have h := mt W.linked (by simp [hw])
  push Not at h
  exact ⟨h.1, h.2.1, Bool.eq_false_iff.2 h.2.2⟩

theorem of_begun (h : v.Begun) : v.WaitsOnce where
  linked _ := h.waiting
  waiting _ := ⟨h.processed, h.freed⟩
  processed := h.processed.symm ▸ Nat.zero_le 1
  poll := h.poll

theorem of_refused (h : v.Refused) : v.WaitsOnce where
  linked hl := by simp [h.link, h.cond, h.poll] at hl
  waiting hw := by simp [h.waiting] at hw
  processed := h.processed.symm ▸ Nat.zero_le 1
  poll _ := h.cond

/-- The call of an item in a list waits; it may move to another list. -/
theorem relink (W : v.WaitsOnce) (hw : v.waiting = true) {link : Option TimeoutLink}
    {isTimeout : Bool} : View.WaitsOnce { v with link := link, isTimeout := isTimeout } where
  linked _ := hw
  waiting := W.waiting
  processed := W.processed
  poll := W.poll

/-- `OnProcessEvent` ends the wait. -/
theorem called (W : v.WaitsOnce) (hlink : v.link = some .activeList) : v.called.WaitsOnce := by
  have hw : v.waiting = true := W.linked (.inl (by simp [hlink]))
  obtain ⟨hproc, -⟩ := W.waiting hw
  have hended : v.called =
      { v with
        link := none
        cond := none
        poll := false
        waiting := false
        processed := 1
        freed := true } := by
    rw [View.called]
    cases hpoll : v.poll
    · simp [View.ended, hw, hproc]
    · simp [View.ended, hw, hproc, W.poll hpoll]
  rw [hended]
  exact ⟨by simp, by simp, Nat.le_refl 1, by simp⟩

/-- Every item step keeps it. -/
theorem step {l l' : Option ℕ × View} (W : l.2.WaitsOnce) (h : ItemStep True False l l') :
    l'.2.WaitsOnce := by
  cases h with
  | begun _ hv' => exact .of_begun hv'
  | refused _ hv' => exact .of_refused hv'
  | abandoned hP => exact absurd trivial hP
  | resumed hP => exact absurd trivial hP
  | woken c hc hpoll _ =>
    have hw := W.linked (.inr (.inl (by simp [hc])))
    exact ⟨fun _ ↦ hw, W.waiting, W.processed, fun _ ↦ rfl⟩
  | prepared _ hP => exact W.relink (hP trivial)
  | stays now => exact W
  | taken now i hlink => exact W.relink (W.linked (.inl (by simp [hlink])))
  | drained now _ => exact W
  | rearmed now i hlink _ _ => exact W.relink (W.linked (.inl (by simp [hlink])))
  | called now hlink => exact W.called hlink

end View.WaitsOnce

/-- Waiting coroutines are left to `OnProcessEvent`: nothing else gives them control, and they are
neither released nor reset. -/
def LeavesWaiting (loopCo : CoId) (s : EventLoop) (a : LoopAction) : Prop :=
  OnlyProcessResumes loopCo s a ∧ SparesWaiting s a

instance (loopCo : CoId) (s : EventLoop) (a : LoopAction) : Decidable (LeavesWaiting loopCo s a) :=
  inferInstanceAs (Decidable (_ ∧ _))

/-- A state in order, in which every item waits once. -/
structure WaitsOnce (s : EventLoop) : Prop extends InOrder s where
  view : ∀ x, (view s x).WaitsOnce

variable {s s' : EventLoop} {loopCo : CoId} {a : LoopAction}

theorem WaitsOnce.linkedWait (W : WaitsOnce s) : LinkedWait s := fun x hx ↦
  (W.view x).linked (hx.imp_right fun h ↦ .inr h)

/-- **A step keeps it.** -/
theorem WaitsOnce.step (W : WaitsOnce s) (hP : LeavesWaiting loopCo s a)
    (h : s.step loopCo a = some s') : WaitsOnce s' := by
  have M := W.ok.step (P := True) (Q := False) W.running (fun _ ↦ ⟨hP.1, hP.2, W.linkedWait⟩)
    False.elim h
  refine ⟨⟨M.ok, M.running⟩, fun x ↦ ?_⟩
  exact (M.life x).invariant (I := fun l ↦ l.2.WaitsOnce) (fun _ _ hl hstep ↦ hl.step hstep)
    (W.view x)

theorem waitsOnce_initial {rt : Runtime} {active : List CoId} (W : Wf rt active) (now : ℕ) :
    WaitsOnce (.initial rt now) where
  toInOrder := inOrder_initial W now
  view _ := .of_refused ⟨rfl, rfl, rfl, rfl, rfl, rfl⟩

variable {share : ShareStack} {coFunc : ℕ} {buffer : ℕ → ℕ} {mainBuffer now : ℕ}
  {acts : List LoopAction}

/-- **Each wait ends once and leaves nothing behind**: in every run of the event loop in which
waiting coroutines are left to `OnProcessEvent`, no item is processed twice, and a freed item is in
no slot of the wheel, not in `timeout_list`, not in `active_list` and in no condition variable. -/
theorem waits_once (loopCo : CoId)
    (hP : Machine.Always (EventLoop.step loopCo) (LeavesWaiting loopCo)
      (.initial (initial share coFunc buffer mainBuffer) now) acts)
    (h : Machine.exec (EventLoop.step loopCo)
      (.initial (initial share coFunc buffer mainBuffer) now) acts = some s) :
    (∀ x, s.processed x ≤ 1) ∧ ∃ A B, s.epoll.links.Represents A ∧ s.conds.Represents B ∧
      ∀ x, s.freed x = true → (∀ l, x ∉ A l) ∧ ∀ c, x ∉ B c := by
  have W : WaitsOnce s := Machine.exec_invariant (fun _ _ _ W hP h ↦ W.step hP h)
    (waitsOnce_initial (wf_initial share coFunc buffer mainBuffer) now) hP h
  refine ⟨fun x ↦ (W.view x).processed, ?_⟩
  obtain ⟨A, L, -⟩ := W.ok.listed
  obtain ⟨B, R⟩ := W.ok.conds
  refine ⟨A, B, L.represents, R, fun x hx ↦ ?_⟩
  have hw : (CoRoutine.view s x).waiting = false := Bool.eq_false_iff.2 fun hw ↦
    absurd hx (Bool.eq_false_iff.1 ((W.view x).waiting hw).2)
  obtain ⟨hlink, hcond, -⟩ := (W.view x).unlinked hw
  exact ⟨L.represents.link_eq_none.1 hlink, R.link_eq_none.1 hcond⟩

/-- One coroutine waits on a condition variable, another one in `CoPoll`. An iteration finds an
event for the second one and the timeout of the first one, and both are resumed and end. -/
def eventAndTimer : List LoopAction :=
  [.runtime (.create {} 0), .runtime (.create {} 0), .runtime (.resume 1 0), .timewait 0 1 1000 0,
    .runtime (.resume 2 0), .poll [⟨5, POLLIN, 0⟩] 1000 1000 (fun _ ↦ .ok) 0,
    .iterate [(5, EPOLLIN)] 1001, .drain 0, .runtime (.finish 0), .drain 0, .runtime (.finish 0),
    .drain 0]

theorem waits_once_eventAndTimer :
    ∃ s, Machine.exec (EventLoop.step 0) (.initial (initial oneStack 0 (fun _ ↦ 65536) 0) 1000)
      eventAndTimer = some s ∧ s.processed 0 = 1 ∧ s.processed 1 = 1 ∧ s.freed 0 = true ∧
      (∀ x, s.processed x ≤ 1) ∧ ∃ A B, s.epoll.links.Represents A ∧ s.conds.Represents B ∧
        ∀ x, s.freed x = true → (∀ l, x ∉ A l) ∧ ∀ c, x ∉ B c := by
  have hrun : (Machine.exec (EventLoop.step 0)
      (.initial (initial oneStack 0 (fun _ ↦ 65536) 0) 1000) eventAndTimer).map
        (fun s ↦ (s.processed 0, s.processed 1, s.freed 0)) = some (1, 1, true) := by
    decide +kernel
  obtain ⟨s, hs, hvalues⟩ := Option.map_eq_some_iff.1 hrun
  simp only [Prod.mk.injEq] at hvalues
  obtain ⟨h₀, h₁, hfreed⟩ := hvalues
  exact ⟨s, hs, h₀, h₁, hfreed, waits_once 0 (by decide +kernel) hs⟩

/-- A coroutine that waits with a timeout is reset. The timeout starts it anew and it waits for
another condition variable, but the condition variable of the first call still has its item. -/
def resetWhileWaiting : List LoopAction :=
  [.runtime (.create {} 0), .runtime (.resume 1 0), .timewait 0 1 1000 0, .runtime (.reset 1),
    .iterate [] 1001, .drain 0, .timewait 1 10 1001 0, .drain 0, .signal 0, .iterate [] 1002,
    .drain 0]

/-- With coroutines that are reset while they wait, the item of the first call is processed twice,
and the second time it is the second call that ends. -/
theorem not_forall_waits_once : ¬ ∀ (loopCo : CoId) (share : ShareStack) (coFunc : ℕ)
    (buffer : ℕ → ℕ) (mainBuffer now : ℕ) (acts : List LoopAction) (s : EventLoop),
    Machine.Always (EventLoop.step loopCo) (OnlyProcessResumes loopCo)
      (.initial (initial share coFunc buffer mainBuffer) now) acts →
    Machine.exec (EventLoop.step loopCo)
      (.initial (initial share coFunc buffer mainBuffer) now) acts = some s →
    (∀ x, s.processed x ≤ 1) ∧ ∃ A B, s.epoll.links.Represents A ∧ s.conds.Represents B ∧
      ∀ x, s.freed x = true → (∀ l, x ∉ A l) ∧ ∀ c, x ∉ B c := by
  intro h
  have hrun : (Machine.exec (EventLoop.step 0)
      (.initial (initial oneStack 0 (fun _ ↦ 65536) 0) 1000) resetWhileWaiting).map
        (fun s ↦ s.processed 0) = some 2 := by
    decide +kernel
  obtain ⟨s, hs, htwice⟩ := Option.map_eq_some_iff.1 hrun
  have hle := (h 0 _ _ _ _ _ resetWhileWaiting s (by decide +kernel) hs).1 0
  rw [htwice] at hle
  exact absurd hle (by decide)

end CoRoutine
