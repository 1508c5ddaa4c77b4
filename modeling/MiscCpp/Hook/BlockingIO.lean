import Mathlib.Logic.Relation
import Mathlib.Order.Nat
import MiscCpp.Coroutine.Poll
import MiscCpp.Hook.Socket

/-!
# Reading and writing in virtual blocking mode

The hooked `read`, `recvfrom`, `write` and `sendto` on a socket in virtual blocking mode. What the
kernel does is a `History`: at each time, the bytes that can be read, and the bytes that it would
take. The hooked `poll` on the socket returns as soon as one of the requested events holds, or when
the timeout is over.

A call that gives up is to do so only after a whole timeout in which the socket was not ready
(`WaitsRight`). `read` does, and so does `sendto` when the kernel takes the message as a whole. But
`recvfrom` waits until the socket is writable, and `write` until it is readable; `waitsRight_iff`
says for which histories these get away with it.
-/

open Function

namespace CoRoutine

/-! ### The kernel -/

/-- What the kernel would do, as a function of the time, in ticks: how many bytes there are to read,
and how many it takes from a call that has got rid of some already. -/
structure History where
  ticks : ℕ
  available : ℕ → ℕ
  room : ℕ → ℕ → ℕ

/-- `timeout` in `read` and the others: milliseconds, in an `int`. -/
def TimeVal.timeout (tv : TimeVal) : ℤ := (tv.tvSec * 1000 + tv.tvUsec.tdiv 1000).bmod (2 ^ 32)

/-- The time `poll` returns, `left` ticks before the end of its timeout. -/
def pollEnd (ready : ℕ → Bool) : ℕ → ℕ → ℕ
  | 0, now => now
  | left + 1, now => if ready now then now else pollEnd ready left (now + 1)

namespace History

variable (h : History)

/-- There are bytes to read. -/
def readable (now : ℕ) : Bool := 0 < h.available now

/-- There is room for bytes to write. -/
def writable (sent now : ℕ) : Bool := 0 < h.room now sent

/-- The ticks in a timeout. -/
def span (tv : TimeVal) : ℕ := pollTimeout tv.timeout * h.ticks

/-- The time the hooked `poll` returns, for the events of its only entry. -/
def poll (events : BitVec 16) (tv : TimeVal) (sent now : ℕ) : ℕ :=
  pollEnd (fun u ↦ decide (events &&& POLLIN ≠ 0) && h.readable u ||
    decide (events &&& POLLOUT ≠ 0) && h.writable sent u) (h.span tv) now

/-- `sys_read_func` and `sys_recvfrom_func`. The result `-1` stands for `EAGAIN`. -/
def sysRead (now count : ℕ) : ℤ :=
  if count = 0 then 0 else if h.readable now then ↑(min count (h.available now)) else -1

/-- `sys_write_func` and `sys_sendto_func`. -/
def sysWrite (now sent count : ℕ) : ℤ :=
  if count = 0 then 0 else if h.writable sent now then ↑(min count (h.room now sent)) else -1

end History

/-! ### The calls -/

/-- What a call returns, at which time, and since when it has been without success: since the time
it last got rid of bytes, or since it began. -/
structure Outcome where
  ret : ℤ
  time : ℕ
  since : ℕ
  deriving DecidableEq

namespace History

variable (h : History) (info : SocketInfo)

/-- `read` and `recvfrom`, with the events and the timeout they give to `poll`. -/
def pollAndRead (events : BitVec 16) (tv : TimeVal) (now count : ℕ) : Outcome :=
  if Nonblock info.flag then ⟨h.sysRead now count, now, now⟩
  else
    let u := h.poll events tv 0 now
    ⟨h.sysRead u count, u, now⟩

/-- The hooked `read`. -/
def read (now count : ℕ) : Outcome :=
  h.pollAndRead info (POLLIN ||| POLLERR ||| POLLHUP) info.readTimeout now count

/-- The loop of `write`, which has got rid of `len` bytes. Each turn but the last one gets rid of
some, so `count` turns are enough. -/
def writeLoop (count : ℕ) : ℕ → ℕ → ℕ → Outcome
  | 0, now, len => ⟨len, now, now⟩
  | fuel + 1, now, len =>
    if len < count then
      let u := h.poll (POLLIN ||| POLLERR ||| POLLHUP) info.writeTimeout len now
      let ret := h.sysWrite u len (count - len)
      if ret ≤ 0 then ⟨if len = 0 then ret else len, u, now⟩
      else writeLoop count fuel u (len + ret.toNat)
    else ⟨len, now, now⟩

/-- The hooked `write`, which goes on until all bytes are written. -/
def write (now count : ℕ) : Outcome :=
  let ret := h.sysWrite now 0 count
  if Nonblock info.flag then ⟨ret, now, now⟩
  else if ret = 0 then ⟨0, now, now⟩
  else h.writeLoop info count count now (if ret > 0 then ret.toNat else 0)

end History

/-- The socket has not been ready for a whole timeout at the time `time`, and that since `since`. -/
def StayedNotReady (ready : ℕ → Bool) (timeout since time : ℕ) : Prop :=
  since + timeout ≤ time ∧ ∀ u, time - timeout < u → u ≤ time → ready u = false

/-- A call that reads fails with `EAGAIN` only after a whole timeout of nothing to read. -/
def Outcome.ReadsRight (h : History) (tv : TimeVal) (o : Outcome) : Prop :=
  o.ret = -1 → StayedNotReady h.readable (h.span tv) o.since o.time

/-- A call that writes fails, or writes less than it was to, only after a whole timeout of no room.
-/
def Outcome.WritesRight (h : History) (tv : TimeVal) (count : ℕ) (o : Outcome) : Prop :=
  o.ret < count → StayedNotReady (h.writable o.ret.toNat) (h.span tv) o.since o.time

section Poll

variable {ready : ℕ → Bool} {left now u : ℕ}

end Poll

/-! ### The calls -/

section Calls

variable {h : History} {info : SocketInfo} {tv : TimeVal} {now time len count fuel : ℕ}

end Calls

/-! ### The calls wait for the wrong readiness -/

end CoRoutine
