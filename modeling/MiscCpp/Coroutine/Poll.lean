import Mathlib.Algebra.Group.Nat.Defs
import Mathlib.Data.Int.Notation
import Mathlib.Data.Nat.Notation
import Mathlib.Logic.Function.Basic
import Mathlib.Tactic.Common

/-!
# The data of `poll`

`pollfd`, the conversion between the event bits of `poll` and `epoll`, the record `co_poll_t` of a
waiting `CoPoll` call, and what `OnPollPrepare` does to it when an event of the call arrives.

The interest set of the kernel's epoll instance is keyed by descriptor. A registration carries the
pointer `ev.data.ptr` to an entry of `poll_items`: here the waiting call and the index of the entry.
-/

open Function

namespace CoRoutine

/-! ### Event bits -/

/-- The event bits of `poll`, on a `short`. -/
def POLLIN : BitVec 16 := 0x001#16
def POLLPRI : BitVec 16 := 0x002#16
def POLLOUT : BitVec 16 := 0x004#16
def POLLERR : BitVec 16 := 0x008#16
def POLLHUP : BitVec 16 := 0x010#16
def POLLRDNORM : BitVec 16 := 0x040#16
def POLLWRNORM : BitVec 16 := 0x100#16

/-- The event bits of `epoll`, on a `uint32_t`. -/
def EPOLLIN : BitVec 32 := 0x001#32
def EPOLLOUT : BitVec 32 := 0x004#32
def EPOLLERR : BitVec 32 := 0x008#32
def EPOLLHUP : BitVec 32 := 0x010#32
def EPOLLRDNORM : BitVec 32 := 0x040#32
def EPOLLWRNORM : BitVec 32 := 0x100#32

/-- `if (events & from) e |= to`. -/
def convertBit {n m : ℕ} (events : BitVec n) (src : BitVec n) (dst : BitVec m) : BitVec m :=
  if events &&& src ≠ 0 then dst else 0

/-- The events of `epoll` as those of `poll`, bit by bit. -/
def epollEvent2Poll (events : BitVec 32) : BitVec 16 :=
  convertBit events EPOLLIN POLLIN ||| convertBit events EPOLLOUT POLLOUT |||
    convertBit events EPOLLHUP POLLHUP ||| convertBit events EPOLLERR POLLERR |||
    convertBit events EPOLLRDNORM POLLRDNORM ||| convertBit events EPOLLWRNORM POLLWRNORM

/-- The timeout `CoPoll` goes by: a negative one is `INT_MAX`. -/
def pollTimeout (timeout : ℤ) : ℕ := if timeout < 0 then 2 ^ 31 - 1 else timeout.toNat

/-- `struct pollfd` -/
structure PollFd where
  fd : ℤ
  events : BitVec 16
  revents : BitVec 16
  deriving DecidableEq

/-- `co_poll_t`, beyond the timeout item it is. `fds` is the caller's array; of the copy
`item.fds` only the `revents` are used. -/
structure CoPollT where
  fds : List PollFd
  revents : List (BitVec 16)
  allEventDetach : Bool
  raiseCnt : ℕ

/-- The zeroed record of a call, for the caller's array. -/
def CoPollT.new (fds : List PollFd) : CoPollT where
  fds := fds
  revents := List.replicate fds.length 0
  allEventDetach := false
  raiseCnt := 0

/-- What `OnPollPrepare` writes in the record, for an event of the entry `i`. -/
def CoPollT.prepare (p : CoPollT) (i : ℕ) (events : BitVec 32) : CoPollT :=
  { p with
    revents := p.revents.set i (epollEvent2Poll events)
    raiseCnt := p.raiseCnt + 1
    allEventDetach := true }

/-! ### The interest set -/

/-- What the kernel says to `EPOLL_CTL_ADD` of a descriptor that is not in the interest set. -/
inductive CtlResult where
  | ok
  | eperm
  | failed
  deriving DecidableEq, Repr

/-- The interest set: for each descriptor in it the entry that `ev.data.ptr` names, as the waiting
call and the index. -/
abbrev Interest := ℤ → Option (ℕ × ℕ)

/-- `EPOLL_CTL_ADD`. A descriptor that is in the set already is refused with `EEXIST`. -/
def Interest.add (m : Interest) (ctl : ℤ → CtlResult) (fd : ℤ) (ptr : ℕ × ℕ) : Interest :=
  if (m fd).isNone ∧ ctl fd = .ok then update m fd (some ptr) else m

/-- `EPOLL_CTL_DEL`. -/
def Interest.del (m : Interest) (fd : ℤ) : Interest := update m fd none

/-- `CoPoll` registers the entries of the call `x`, from the index `i` on. -/
def Interest.addAll (ctl : ℤ → CtlResult) (x : ℕ) : ℕ → List PollFd → Interest → Interest
  | _, [], m => m
  | i, f :: fds, m => addAll ctl x (i + 1) fds (if f.fd > -1 then m.add ctl f.fd (x, i) else m)

/-- The clean-up of `CoPoll` removes every descriptor of the call. -/
def Interest.delAll (fds : List PollFd) (m : Interest) : Interest :=
  fds.foldl (fun m f ↦ if f.fd > -1 then m.del f.fd else m) m

/-- The single entry of the call is refused with `EPERM`: `CoPoll` returns what `pollfunc` does. -/
def refusedSingle (ctl : ℤ → CtlResult) (m : Interest) (fds : List PollFd) : Bool :=
  match fds with
  | [f] => decide (f.fd > -1) && (m f.fd).isNone && decide (ctl f.fd = .eperm)
  | _ => false

variable {m : Interest} {fds : List PollFd} {fd : ℤ} {x i : ℕ} {ptr : ℕ × ℕ}
  {ctl : ℤ → CtlResult}

/-- **What the clean-up leaves**: everything but the descriptors of the call. -/
theorem Interest.delAll_apply (fds : List PollFd) (m : Interest) (fd : ℤ) :
    delAll fds m fd = if fd > -1 ∧ ∃ f ∈ fds, f.fd = fd then none else m fd := by
  induction fds generalizing m with
  | nil => simp [delAll]
  | cons f fds ih =>
    have hcons : delAll (f :: fds) m =
        delAll fds (if f.fd > -1 then m.del f.fd else m) := rfl
    rw [hcons, ih]
    rcases eq_or_ne f.fd fd with rfl | hne
    · by_cases hf : f.fd > -1 <;> simp [hf, del]
    · have hm : (if f.fd > -1 then m.del f.fd else m) fd = m fd := by
        split
        · exact update_of_ne hne.symm ..
        · rfl
      simp [hm, hne]

/-- A registration stays while entries are added. -/
theorem Interest.addAll_of_some (h : m fd = some ptr) : addAll ctl x i fds m fd = some ptr := by
  induction fds generalizing i m with
  | nil => exact h
  | cons f fds ih =>
    refine ih ?_
    split
    · rw [add]
      split
      next hnew =>
        rcases eq_or_ne fd f.fd with rfl | hne
        · simp [h] at hnew
        · rw [update_of_ne hne, h]
      next => exact h
    · exact h

/-- What is in the interest set after entries were added was there before, or is an entry of the
call. -/
theorem Interest.addAll_eq_some (h : addAll ctl x i fds m fd = some ptr) :
    m fd = some ptr ∨ fd > -1 ∧ ∃ j f, fds[j]? = some f ∧ f.fd = fd ∧ ptr = (x, i + j) := by
  induction fds generalizing i m with
  | nil => exact .inl h
  | cons f fds ih =>
    rcases ih h with h | ⟨hfd, j, g, hg, hgfd, rfl⟩
    · split at h
      next hf =>
        rw [add] at h
        split at h
        next =>
          rcases eq_or_ne fd f.fd with rfl | hne
          · rw [update_self, Option.some.injEq] at h
            exact .inr ⟨hf, 0, f, rfl, rfl, h.symm⟩
          · rw [update_of_ne hne] at h
            exact .inl h
        next => exact .inl h
      next => exact .inl h
    · exact .inr ⟨hfd, j + 1, g, hg, hgfd, by rw [Nat.add_assoc, Nat.add_comm 1 j]⟩

end CoRoutine
