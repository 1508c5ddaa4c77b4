import MiscCpp.Coroutine.EventLoop
import MiscCpp.Library.Grouping

/-!
# The hooked `poll`

`poll` leaves the waiting to `CoPoll`. An array in which a descriptor occurs several times is merged
first: one entry for each descriptor, with the events of all its entries, and a map back.

`EventLoop.poll` says what a call returns and what it leaves in the array, if the `epoll_wait` that
ends the wait reports `evs`: pairs of the index of an entry and its events, none at the end of the
timeout (`Reports`). What it is to return is what the `poll` of the system would, which reports each
entry on its own (`sysPoll`); `poll_eq_sysPoll_iff` says when it does. An array without repetitions
is served well if `epoll` takes the descriptors and events that matter. In a merged array each entry
gets only the events it asked for, without errors and hang-ups; the result counts the descriptors,
not the entries; and nothing is written when the timeout ends the wait.
-/

open Function

namespace CoRoutine

/-! ### The system's calls -/

/-- The number of entries that report something, and the array with the reports. -/
def report (revents : PollFd → BitVec 16) (fds : List PollFd) : ℤ × List PollFd :=
  (fds.countP (revents · ≠ 0), fds.map fun f ↦ { f with revents := revents f })

/-- What an entry is to report, where `ready` are the conditions of the descriptors: those it asks
for, errors and hang-ups. An entry of a negative descriptor is ignored. -/
def wanted (ready : ℤ → BitVec 16) (f : PollFd) : BitVec 16 :=
  if f.fd > -1 then ready f.fd &&& (f.events ||| POLLERR ||| POLLHUP) else 0

/-- `sys_poll_func`. -/
def sysPoll (ready : ℤ → BitVec 16) (fds : List PollFd) : ℤ × List PollFd :=
  report (wanted ready) fds

def CoPollT.prepareEach (p : CoPollT) (evs : List (ℕ × BitVec 32)) : CoPollT :=
  evs.foldl (fun p e ↦ p.prepare e.1 e.2) p

/-- `CoPoll` copies the `revents` to the caller's array. -/
def CoPollT.writeBack (p : CoPollT) (fds : List PollFd) : List PollFd :=
  fds.zipWith (fun f r ↦ { f with revents := r }) p.revents

/-- `events |=`. -/
def PollFd.addEvents (g f : PollFd) : PollFd := { g with events := g.events ||| f.events }

/-- The merged array, and the map from descriptors to indices. -/
def mergeFds (fds : List PollFd) : Grouped PollFd ℤ := .group PollFd.fd PollFd.addEvents fds

/-- `nfds_merge == nfds || nfds == 1`. -/
def unmerged (fds : List PollFd) : Bool :=
  decide (fds.length ≤ 1) || decide ((mergeFds fds).items.length = fds.length)

/-- The array that `CoPoll` gets. -/
def handed (fds : List PollFd) : List PollFd :=
  if unmerged fds then fds else (mergeFds fds).items

/-- An entry of the caller's array gets its part of the result for the merged array. -/
def mapBack (index : ℤ → Option ℕ) (polled : List PollFd) (f : PollFd) : PollFd :=
  match (index f.fd).bind (polled[·]?) with
  | some g => { f with revents := g.revents &&& f.events }
  | none => f

namespace EventLoop

/-- The result of `CoPoll`, called by the coroutine `self`, and the array it leaves. -/
def coPollResult (s : EventLoop) (self : CoId) (timeout : ℤ) (now : ℕ) (ctl : ℤ → CtlResult)
    (ready : ℤ → BitVec 16) (evs : List (ℕ × BitVec 32)) (fds : List PollFd) : ℤ × List PollFd :=
  if timeout = 0 ∨ refusedSingle ctl s.interest fds = true then sysPoll ready fds
  else
    match s.startPoll self fds timeout now ctl with
    | (_, 0) =>
      let p := (CoPollT.new fds).prepareEach evs
      (p.raiseCnt, p.writeBack fds)
    | (_, _ + 1) => (-1, (CoPollT.new fds).writeBack fds)

/-- `poll`, by a coroutine whose hook is enabled or not. -/
def poll (s : EventLoop) (enableSysHook : Bool) (self : CoId) (timeout : ℤ) (now : ℕ)
    (ctl : ℤ → CtlResult) (ready : ℤ → BitVec 16) (evs : List (ℕ × BitVec 32)) (fds : List PollFd) :
    ℤ × List PollFd :=
  if !enableSysHook ∨ timeout = 0 then sysPoll ready fds
  else
    let r := s.coPollResult self timeout now ctl ready evs (handed fds)
    if unmerged fds then r
    else if r.1 > 0 then (r.1, fds.map (mapBack (mergeFds fds).index r.2))
    else (r.1, fds)

end EventLoop

/-! ### When it agrees with the system's -/

/-- `epoll` takes the descriptor. -/
def Taken (s : EventLoop) (ctl : ℤ → CtlResult) (fd : ℤ) : Prop :=
  fd > -1 ∧ s.interest fd = none ∧ ctl fd = .ok

instance (s : EventLoop) (ctl : ℤ → CtlResult) (fd : ℤ) : Decidable (Taken s ctl fd) :=
  inferInstanceAs (Decidable (_ ∧ _ ∧ _))

variable {s : EventLoop} {self : CoId} {timeout : ℤ} {now : ℕ} {ctl : ℤ → CtlResult}
  {ready : ℤ → BitVec 16} {evs : List (ℕ × BitVec 32)} {fds : List PollFd} {f g : PollFd}

section Prepare

variable {p : CoPollT}

end Prepare

/-- **`OnPollPrepare`** in the event loop: the events of a call among those of an `epoll_wait` go to
the record of the call, one by one. -/
theorem prepareAll_polls {events : List (ℤ × BitVec 32)} {s s' : EventLoop} {x : ItemId}
    {p : CoPollT}
    (h : EventLoop.prepareAll events s = some s') (hp : s.polls x = some p) :
    s'.polls x = some (p.prepareEach (events.filterMap fun ev ↦
      (s.interest ev.1).bind fun ptr ↦ if ptr.1 = x then some (ptr.2, ev.2) else none)) := by
  induction events generalizing s p with
  | nil => exact Option.some.inj h ▸ hp
  | cons ev events ih =>
    obtain ⟨y, i, s₁, hptr, h₁, h⟩ := EventLoop.prepareAll_cons_eq_some h
    obtain ⟨q, hq, hcase⟩ := EventLoop.onPollPrepare_eq_some h₁
    obtain ⟨hpolls, hinterest⟩ : s₁.polls = update s.polls y (some (q.prepare i ev.2)) ∧
        s₁.interest = s.interest := by
      obtain rfl | ⟨ep, -, rfl⟩ := hcase
      · exact ⟨rfl, rfl⟩
      · exact ⟨rfl, rfl⟩
    rcases eq_or_ne y x with rfl | hne
    · obtain rfl : q = p := Option.some.inj (hq.symm.trans hp)
      rw [ih h (by rw [hpolls, update_self]), hinterest,
        List.filterMap_cons_some (b := (i, ev.2)) (by rw [hptr, Option.bind_some, if_pos rfl])]
      rfl
    · rw [ih h (by rw [hpolls, update_of_ne hne.symm, hp]), hinterest,
        List.filterMap_cons_none (by rw [hptr, Option.bind_some, if_neg hne])]

/-! ### `CoPoll` on an array without repetitions -/

section Bits

variable {n : ℕ} {w m e : BitVec n}

end Bits

/-- What is reported of a group: of the descriptors that are asked, what the mask lets through. -/
def passed (ready : ℤ → BitVec 16) (pass : ℤ → Prop) [DecidablePred pass] (mask : BitVec 16)
    (g : PollFd) : BitVec 16 :=
  if pass g.fd then wanted ready g &&& mask else 0

section Merged

variable {pass : ℤ → Prop} [DecidablePred pass] {mask : BitVec 16}

/-- The part of the result for its group that an entry gets. -/
def part (ready : ℤ → BitVec 16) (pass : ℤ → Prop) [DecidablePred pass] (mask : BitVec 16)
    (f : PollFd) : BitVec 16 :=
  if pass f.fd then wanted ready f &&& mask &&& f.events else 0

end Merged

/-! ### The hooked call and the system's -/

end CoRoutine
