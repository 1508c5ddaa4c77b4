import Mathlib.Data.List.Basic
import MiscCpp.Library.Machine

/-!
# The registry lock in `wait_gp`

`wait_gp` is called with `rcu_registry_lock` held, gives it up to wait for a reader, and takes it
again on two of its three ways out: if `gp.futex` is not −1, and if the futex wait fails with
`EWOULDBLOCK`. When a reader has woken it up the wait returns 0, the loop ends, and the function
returns without the lock. So it keeps the lock discipline exactly if the first result that ends the
loop is not a 0 (`waitGp_keepsLock_iff`).

The caller is the loop of `wait_for_readers`, which between two scans gives the lock up for a moment
or, when it has waited long enough, calls `wait_gp`. `holdsLockAtScans_iff` is what this means for
it: an unlocking without the lock, or a scan without it, is the next thing that it does. (The test
in front of this, an assignment, never fails, so the calls of `wait_for_readers` do not get here.)
-/

namespace Urcu

/-- What `futex(&gp.futex, FUTEX_WAIT, -1, …)` comes back with: 0, or −1 and one of two `errno`s. -/
inductive FutexWait where
  | woken
  | wouldBlock
  | interrupted
  deriving DecidableEq

/-- The result ends the loop. -/
def FutexWait.ends : FutexWait → Bool
  | .interrupted => false
  | _ => true

/-- `rcu_registry_lock`: whether this thread holds it, and how often it has released it. -/
structure RegistryLock where
  held : Bool
  releases : ℕ

namespace RegistryLock

/-- To unlock a mutex that one does not hold is undefined. -/
def unlock (s : RegistryLock) : Option RegistryLock :=
  if s.held then some { held := false, releases := s.releases + 1 } else none

/-- To lock a mutex that one holds is undefined, too. -/
def lock (s : RegistryLock) : Option RegistryLock :=
  if s.held then none else some { s with held := true }

end RegistryLock

/-- A call in progress: it has used up the results, or has returned. -/
inductive WaitGp where
  | waiting (s : RegistryLock)
  | returned (s : RegistryLock)

/-- The loop of `wait_gp`, for the results of the futex wait. -/
def waitLoop : List FutexWait → RegistryLock → Option WaitGp
  | [], s => some (.waiting s)
  | .woken :: _, s => some (.returned s)
  | .wouldBlock :: _, s => s.lock.map .returned
  | .interrupted :: results, s => waitLoop results s

def waitGp (futex : BitVec 32) (results : List FutexWait) (s : RegistryLock) : Option WaitGp :=
  s.unlock.bind fun s ↦
    if futex ≠ -1 then s.lock.map .returned else waitLoop results s

/-! ### The lock discipline -/

/-- Entered with the lock held, the call does nothing undefined; and when it returns it has released
the lock once, and holds it again, so that the caller may unlock it. -/
def KeepsLock (futex : BitVec 32) (results : List FutexWait) : Prop :=
  ∃ call, waitGp futex results { held := true, releases := 0 } = some call ∧
    ∀ s, call = .returned s → s.releases = 1 ∧ s.held = true ∧ s.unlock.isSome

/-- The loop goes on up to the first result that ends it. -/
theorem waitLoop_eq (results : List FutexWait) (s : RegistryLock) :
    waitLoop results s = match results.find? FutexWait.ends with
      | none => some (.waiting s)
      | some .wouldBlock => s.lock.map .returned
      | some _ => some (.returned s) := by
  induction results with
  | nil => rfl
  | cons r results ih =>
    cases r with
    | woken => rfl
    | wouldBlock => rfl
    | interrupted => exact ih

/-- No loop is ended by an interruption. -/
theorem find?_ends_ne (results : List FutexWait) :
    results.find? FutexWait.ends ≠ some .interrupted := fun h ↦
  Bool.noConfusion (List.find?_some h)

variable {futex : BitVec 32} {results : List FutexWait} {s : RegistryLock}

/-- What the call does on each of its ways. -/
theorem waitGp_eq (hs : s.held = true) : waitGp futex results s =
    if futex ≠ -1 ∨ results.find? FutexWait.ends = some .wouldBlock then
      some (.returned { held := true, releases := s.releases + 1 })
    else if results.find? FutexWait.ends = some .woken then
      some (.returned { held := false, releases := s.releases + 1 })
    else some (.waiting { held := false, releases := s.releases + 1 }) := by
  rw [waitGp, RegistryLock.unlock, if_pos hs, Option.bind_some]
  by_cases hfutex : futex ≠ -1
  · rw [if_pos hfutex, if_pos (.inl hfutex)]
    rfl
  · rw [if_neg hfutex, waitLoop_eq]
    simp only [hfutex, false_or]
    cases hfind : results.find? FutexWait.ends with
    | none => rfl
    | some r =>
      cases r with
      | woken => rfl
      | wouldBlock => rfl
      | interrupted => exact absurd hfind (find?_ends_ne results)

/-- **The lock discipline** is kept exactly if `gp.futex` has been changed already, or no 0 is the
first result that ends the loop. -/
theorem waitGp_keepsLock_iff (futex : BitVec 32) (results : List FutexWait) :
    KeepsLock futex results ↔ futex ≠ -1 ∨ results.find? FutexWait.ends ≠ some .woken := by
  rw [KeepsLock, waitGp_eq rfl]
  split
  next hlock =>
    refine iff_of_true ⟨_, rfl, ?_⟩ (hlock.imp id fun h ↦ by simp [h])
    rintro _ ⟨⟩
    exact ⟨rfl, rfl, rfl⟩
  next hlock =>
    rw [not_or] at hlock
    split
    next hwoken =>
      refine iff_of_false ?_ (not_or.2 ⟨hlock.1, not_not.2 hwoken⟩)
      rintro ⟨_, ⟨⟩, hreturned⟩
      exact Bool.noConfusion (hreturned _ rfl).2.1
    next hwoken => exact iff_of_true ⟨_, rfl, nofun⟩ (.inr hwoken)

/-- A reader wakes it up at once. -/
theorem not_forall_waitGp_keepsLock : ¬ ∀ futex results, KeepsLock futex results := by
  intro h
  obtain ⟨call, hcall, hreturned⟩ := h (-1) [.woken]
  obtain rfl := Option.some.inj hcall
  exact Bool.noConfusion (hreturned _ rfl).2.1

/-! ### The caller -/

/-- What `wait_for_readers` does between two scans: whether it is slow by now, and what happens to
`wait_gp` if it is. -/
structure Pause where
  slow : Bool
  futex : BitVec 32
  results : List FutexWait

/-- The lock between two scans. A call of `wait_gp` that does not return leads to no scan. -/
def betweenScans (s : RegistryLock) (p : Pause) : Option RegistryLock :=
  if p.slow then
    match waitGp p.futex p.results s with
    | some (.returned s) => some s
    | _ => none
  else s.unlock.bind RegistryLock.lock

/-- The pause ends with the lock. -/
def Pause.Relocks (p : Pause) : Prop :=
  p.slow = true → p.futex ≠ -1 ∨ p.results.find? FutexWait.ends = some .wouldBlock

/-- **The scans of `wait_for_readers`** are reached, and with the lock, exactly if each call of
`wait_gp` takes it again. -/
theorem holdsLockAtScans_iff (pauses : List Pause) (hs : s.held = true) :
    (∀ bs, bs <+: pauses → ∃ t, Machine.exec betweenScans s bs = some t ∧ t.held = true) ↔
      Machine.Always betweenScans (fun _ p ↦ p.Relocks) s pauses := by
  refine Machine.exists_prefix_iff (fun _ ↦ id) (fun s p hs hp ↦ ?_) (fun s p t hs hp ht ↦ ?_) hs
  · rw [betweenScans]
    split
    next hslow =>
      rw [waitGp_eq hs, if_pos (hp hslow)]
      exact ⟨_, rfl, rfl⟩
    next =>
      rw [RegistryLock.unlock, if_pos hs]
      exact ⟨_, rfl, rfl⟩
  · rw [Pause.Relocks, Classical.not_imp] at hp
    obtain ⟨hslow, hp⟩ := hp
    rw [betweenScans, if_pos hslow, waitGp_eq hs, if_neg hp] at ht
    split at ht
    next hwait =>
      split at hwait
      next =>
        cases hwait
        cases ht
        exact Bool.false_ne_true
      next => cases hwait
    next => cases ht

end Urcu
