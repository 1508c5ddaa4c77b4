import MiscCpp.Coroutine.CallStack
import MiscCpp.Coroutine.Poll
import MiscCpp.Coroutine.SharedStack
import MiscCpp.Coroutine.TimingWheel

/-!
# The event loop

`CoEventloop` with the calls that wait in it: `CoPoll` and `CoCondTimewait`, the condition
variables, `OnProcessEvent` and `OnPollPrepare`, over the coroutine runtime and the timing wheel.
The clock readings and the answers of the kernel (the events of `epoll_wait`, the results of
`epoll_ctl`) are parameters of the steps.

A step is what one coroutine does without giving up control in the middle: an operation of the
runtime, a call of `CoPoll` or `CoCondTimewait` up to its `CoYield`, a signal, or a piece of the
loop itself, which the coroutine `loopCo` runs. `CoEventloop` is cut in two pieces: what it does
from `epoll_wait` to the drain (`iterate`), and one turn of the drain (`drain`).

A coroutine that gets control while it is suspended in a waiting call goes on with the clean-up of
that call, whoever gave it control. So a step is an action (`act`), which ends where some coroutine
has control, and then the clean-up of that coroutine (`arrive`), if it is suspended in a call. A
call that `TimerItemAdd` refuses goes straight to its clean-up.

The memory of an item that its call has freed is not used again in the model; a turn of the drain
that processes such an item is undefined.
-/

open Function

namespace CoRoutine

/-- Condition variables. -/
abbrev CondId := ℕ

/-- The state of a thread. An item is a `co_poll_t` or the `timeout` of a `co_cond_item_t`, whose
own list pointers are in `conds`; `suspended` is the call a coroutine is suspended in, and
`draining` the `now` of the drain in progress. The last three fields are a history: how often
`OnProcessEvent` was called for an item, whether it was freed, and whether it was popped by a signal
or a broadcast. -/
structure EventLoop where
  rt : Runtime
  epoll : CoEpoll
  conds : Links CondId ItemId
  polls : ItemId → Option CoPollT
  interest : Interest
  suspended : CoId → Option ItemId
  draining : Option ℕ
  processed : ItemId → ℕ
  freed : ItemId → Bool
  signalled : ItemId → Bool

namespace EventLoop

variable (s : EventLoop)

/-! ### The calls that wait -/

/-- `CoSelf`. -/
def coSelf : Option CoId := s.rt.env.callAt (s.rt.env.callStackSize - 1)

/-- What the running coroutine does behind the `CoYield` of its call `x`: it takes the item out of
the list it may be in, a `CoPoll` removes its descriptors from the interest set, and frees it. -/
def endWait (x : ItemId) : Option EventLoop :=
  match s.polls x with
  | some p =>
    (s.epoll.timeoutRemoveFromLink x).map fun ep ↦
      { s with
        epoll := ep
        polls := update s.polls x none
        interest := s.interest.delAll p.fds
        suspended := update s.suspended s.rt.running none
        freed := update s.freed x true }
  | none =>
    (s.conds.removeFromLink x).map fun conds ↦
      { s with
        conds := conds
        suspended := update s.suspended s.rt.running none
        freed := update s.freed x true }

/-- A coroutine has been given control: if it is suspended in a call, it ends the call. -/
def arrive : Option EventLoop :=
  match s.suspended s.rt.running with
  | none => some s
  | some x => s.endWait x

/-- `calloc` of an item for the running coroutine. -/
def alloc (expire self : ℕ) : EventLoop := { s with epoll := s.epoll.allocItem expire self }

/-- The running coroutine is in the call `x`, between its start and its clean-up. -/
def suspend (x : ItemId) : EventLoop :=
  { s with suspended := update s.suspended s.rt.running (some x) }

/-- The `CoYield` of the call `x`. -/
def wait (x : ItemId) (sp : ℕ) : Option EventLoop :=
  (s.rt.coYield sp).map fun rt ↦ { s.suspend x with rt := rt }

/-- The state of `CoPoll` before its `CoYield`, with the return value of `TimerItemAdd`. -/
def startPoll (self : CoId) (fds : List PollFd) (timeout : ℤ) (now : ℕ) (ctl : ℤ → CtlResult) :
    EventLoop × ℕ :=
  let x := s.epoll.nextItem
  let s := s.alloc ((now + pollTimeout timeout) % 2 ^ 64) self
  let r := s.epoll.timerItemAdd x now
  ({ s with
      epoll := r.1
      polls := update s.polls x (some (.new fds))
      interest := Interest.addAll ctl x 0 fds s.interest }, r.2)

/-- `CoPoll`. With a timeout of zero, or a single descriptor that `epoll` does not take, it is the
`poll` of the system. -/
def coPoll (fds : List PollFd) (timeout : ℤ) (now : ℕ) (ctl : ℤ → CtlResult) (sp : ℕ) :
    Option EventLoop :=
  if timeout = 0 then some s
  else
    match s.coSelf with
    | none => none
    | some self =>
      if refusedSingle ctl s.interest fds then
        some { s.alloc 0 self with freed := update s.freed s.epoll.nextItem true }
      else
        match s.startPoll self fds timeout now ctl with
        | (s', 0) => s'.wait s.epoll.nextItem sp
        | (s', _ + 1) => some (s'.suspend s.epoll.nextItem)

/-- The state of `CoCondTimewait` before the item goes to the condition variable, with the return
value of `TimerItemAdd`. -/
def startTimewait (self : CoId) (timeout : ℤ) (now : ℕ) : EventLoop × ℕ :=
  let x := s.epoll.nextItem
  if timeout > 0 then
    let s := s.alloc ((now + timeout.toNat) % 2 ^ 64) self
    let r := s.epoll.timerItemAdd x now
    ({ s with epoll := r.1 }, r.2)
  else (s.alloc 0 self, 0)

/-- `CoCondTimewait`: wait on the condition, at most as long as the timeout. -/
def coCondTimewait (c : CondId) (timeout : ℤ) (now : ℕ) (sp : ℕ) : Option EventLoop :=
  match s.coSelf with
  | none => none
  | some self =>
    match s.startTimewait self timeout now with
    | (s', 0) =>
      { s' with conds := s'.conds.tailAdd c s.epoll.nextItem }.wait s.epoll.nextItem sp
    | (s', _ + 1) => some { s' with freed := update s'.freed s.epoll.nextItem true }

/-! ### Condition variables -/

/-- The head `x` of the condition variable is popped and moved to `active_list`. -/
def wakeUp (c : CondId) (x : ItemId) : Option EventLoop :=
  (s.epoll.activate x).map fun ep ↦
    { s with
      epoll := ep
      conds := s.conds.headPop c
      signalled := update s.signalled x true }

/-- `CoCondSignal`: wake up the first coroutine that waits. -/
def coCondSignal (c : CondId) : Option EventLoop :=
  match s.conds.head c with
  | none => some s
  | some x => s.wakeUp c x

/-- The loop of `CoCondBroadcast`. It has no bound of its own; `fuel` bounds the number of turns. -/
def broadcastLoop (c : CondId) : ℕ → EventLoop → Option EventLoop
  | 0, s => some s
  | fuel + 1, s =>
    match s.conds.head c with
    | none => some s
    | some x => (s.wakeUp c x).bind (broadcastLoop c fuel)

/-- `CoCondBroadcast`: wake up all that wait now. -/
def coCondBroadcast (c : CondId) : Option EventLoop := broadcastLoop c s.epoll.nextItem s

/-! ### The loop -/

/-- `OnPollPrepare`, for an event of the entry `i` of the call `x`. The first event of a call moves
its item to `active_list`. -/
def onPollPrepare (x : ItemId) (i : ℕ) (events : BitVec 32) : Option EventLoop :=
  match s.polls x with
  | none => none
  | some p =>
    let s := { s with polls := update s.polls x (some (p.prepare i events)) }
    if p.allEventDetach then some s
    else (s.epoll.activate x).map fun ep ↦ { s with epoll := ep }

/-- The events of one `epoll_wait`: each belongs to a descriptor of the interest set. -/
def prepareAll : List (ℤ × BitVec 32) → EventLoop → Option EventLoop
  | [], s => some s
  | (fd, events) :: rest, s =>
    match s.interest fd with
    | none => none
    | some (x, i) => (s.onPollPrepare x i events).bind (prepareAll rest)

/-- An iteration of `CoEventloop`, up to the drain. -/
def iterate (events : List (ℤ × BitVec 32)) (now : ℕ) : Option EventLoop :=
  match s.draining with
  | some _ => none
  | none =>
    (prepareAll events { s with epoll := s.epoll.clearTimeoutList }).bind fun s ↦
      (s.epoll.takeTimeouts now).map fun ep ↦ { s with epoll := ep, draining := some now }

/-- `OnProcessEvent`: the coroutine of the item is resumed. -/
def onProcessEvent (x : ItemId) (sp : ℕ) : Option EventLoop :=
  if s.freed x then none
  else
    (s.rt.coResume (s.epoll.items x).args sp).map fun rt ↦
      { s with rt := rt, processed := update s.processed x (s.processed x + 1) }

/-- A turn of the drain. -/
def drain (sp : ℕ) : Option EventLoop :=
  match s.draining with
  | none => none
  | some now =>
    match s.epoll.drainTurn now with
    | .done => some { s with draining := none }
    | .rearmed ep => some { s with epoll := ep }
    | .process x ep => { s with epoll := ep }.onProcessEvent x sp

/-! ### Steps -/

/-- An operation of the runtime by the running coroutine. A coroutine that is released or reset
gives up the call it is suspended in; on the call stack it must be neither. -/
def runtimeStep (a : Action) : Option EventLoop :=
  match a with
  | .release co | .reset co =>
    if OnCallStack s.rt co then none
    else (CoRoutine.step s.rt a).map fun rt ↦
      { s with rt := rt, suspended := update s.suspended co none }
  | .create _ _ | .run _ | .resume _ _ | .yield _ | .finish _ =>
    (CoRoutine.step s.rt a).map fun rt ↦ { s with rt := rt }

end EventLoop

/-- What a program that uses the event loop can do. -/
inductive LoopAction where
  | runtime (a : Action)
  | poll (fds : List PollFd) (timeout : ℤ) (now : ℕ) (ctl : ℤ → CtlResult) (sp : ℕ)
  | timewait (c : CondId) (timeout : ℤ) (now sp : ℕ)
  | signal (c : CondId)
  | broadcast (c : CondId)
  | iterate (events : List (ℤ × BitVec 32)) (now : ℕ)
  | drain (sp : ℕ)

namespace EventLoop

/-- The first part of a step, in a thread whose event loop the coroutine `loopCo` runs: the action
of the running coroutine. -/
def act (loopCo : CoId) (s : EventLoop) : LoopAction → Option EventLoop
  | .runtime a => s.runtimeStep a
  | .poll fds timeout now ctl sp => s.coPoll fds timeout now ctl sp
  | .timewait c timeout now sp => s.coCondTimewait c timeout now sp
  | .signal c => s.coCondSignal c
  | .broadcast c => s.coCondBroadcast c
  | .iterate events now => if s.rt.running = loopCo then s.iterate events now else none
  | .drain sp => if s.rt.running = loopCo then s.drain sp else none

/-- The event loop after one action, up to where coroutines arrive. -/
def step (loopCo : CoId) (s : EventLoop) (a : LoopAction) : Option EventLoop :=
  (s.act loopCo a).bind arrive

/-- The state after `CurrThreadEnvInit`, at the reading `now` of the clock. -/
def initial (rt : Runtime) (now : ℕ) : EventLoop where
  rt := rt
  epoll := epollAlloc 60000 now
  conds := .empty
  polls _ := none
  interest _ := none
  suspended _ := none
  draining := none
  processed _ := 0
  freed _ := false
  signalled _ := false

/-! ### What the operations do -/

variable {s s' : EventLoop} {x : ItemId}

theorem onPollPrepare_eq_some {i : ℕ} {events : BitVec 32}
    (h : s.onPollPrepare x i events = some s') : ∃ p, s.polls x = some p ∧
      (s' = { s with polls := update s.polls x (some (p.prepare i events)) } ∨
        ∃ ep, s.epoll.activate x = some ep ∧
          s' = { s with
            epoll := ep
            polls := update s.polls x (some (p.prepare i events)) }) := by
  rw [onPollPrepare] at h
  split at h
  · cases h
  next p hp =>
    refine ⟨p, hp, ?_⟩
    dsimp only at h
    split at h
    · exact .inl (Option.some.inj h).symm
    · obtain ⟨ep, hep, rfl⟩ := Option.map_eq_some_iff.1 h
      exact .inr ⟨ep, hep, rfl⟩

theorem prepareAll_cons_eq_some {e : ℤ × BitVec 32} {events : List (ℤ × BitVec 32)}
    (h : prepareAll (e :: events) s = some s') : ∃ x i s₁, s.interest e.1 = some (x, i) ∧
      s.onPollPrepare x i e.2 = some s₁ ∧ prepareAll events s₁ = some s' := by
  rw [prepareAll] at h
  split at h
  · cases h
  next x i hx =>
    obtain ⟨s₁, h₁, h⟩ := Option.bind_eq_some_iff.1 h
    exact ⟨x, i, s₁, hx, h₁, h⟩

theorem coCondSignal_eq_some {c : CondId} (h : s.coCondSignal c = some s') :
    s' = s ∨ ∃ x, s.conds.head c = some x ∧ s.wakeUp c x = some s' := by
  rw [coCondSignal] at h
  split at h
  · exact .inl (Option.some.inj h).symm
  next x hx => exact .inr ⟨x, hx, h⟩

theorem iterate_eq_some {events : List (ℤ × BitVec 32)} {now : ℕ}
    (h : s.iterate events now = some s') : s.draining = none ∧
      ∃ s₁ ep, prepareAll events { s with epoll := s.epoll.clearTimeoutList } = some s₁ ∧
        s₁.epoll.takeTimeouts now = some ep ∧
        s' = { s₁ with epoll := ep, draining := some now } := by
  rw [iterate] at h
  split at h
  · cases h
  next hdr =>
    obtain ⟨s₁, h₁, h⟩ := Option.bind_eq_some_iff.1 h
    obtain ⟨ep, hep, rfl⟩ := Option.map_eq_some_iff.1 h
    exact ⟨hdr, s₁, ep, h₁, hep, rfl⟩

end EventLoop

end CoRoutine
