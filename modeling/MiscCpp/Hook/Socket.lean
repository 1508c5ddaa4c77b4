import Mathlib.Data.Int.Notation
import Mathlib.Logic.Function.Basic
import Mathlib.Tactic.Common
import MiscCpp.Library.Machine

/-!
# The blocking mode of a socket

The hooked `socket` and `fcntl`, with the table `g_socket_info`. The kernel's descriptors are always
non-blocking, and `info->flag` is to tell whether the program has asked for that: `F_GETFL` goes by
it, and so do the calls that read and write, which wait in `poll` only for a blocking socket
(`directPath`).

But `F_SETFL` stores the flags it has forced on the kernel, not those it was given, and `socket`
goes through `F_SETFL`. So every socket counts as non-blocking from the start, and the mode is the
one the program has asked for exactly if that is the non-blocking one (`faithful_iff`).

The results of system calls that can fail are parameters of the steps or left out: the calls
succeed.
-/

open Function

namespace CoRoutine

/-! ### Flags -/

def O_RDWR : BitVec 32 := 0x2#32
def O_NONBLOCK : BitVec 32 := 0x800#32
def SOCK_NONBLOCK : BitVec 32 := 0x800#32

/-- What `F_SETFL` can change: `O_APPEND`, `O_NONBLOCK`, `O_ASYNC`, `O_DIRECT`, `O_NOATIME`. -/
def setflMask : BitVec 32 := 0x46c00#32

/-- `flag & O_NONBLOCK`, as a condition. -/
def Nonblock (flag : BitVec 32) : Prop := flag &&& O_NONBLOCK ≠ 0

instance (flag : BitVec 32) : Decidable (Nonblock flag) :=
  inferInstanceAs (Decidable (flag &&& O_NONBLOCK ≠ 0))

/-- `!x`, an `int`. -/
def lnot (x : BitVec 32) : BitVec 32 := if x = 0 then 1 else 0

/-! ### The table -/

/-- `struct timeval` -/
structure TimeVal where
  tvSec : ℤ
  tvUsec : ℤ

/-- `socket_info`, without the address. -/
structure SocketInfo where
  flag : BitVec 32
  domain : ℤ
  readTimeout : TimeVal
  writeTimeout : TimeVal

/-- `g_socket_info`, and the flags of the kernel's descriptors. -/
structure Sockets where
  gSocketInfo : ℤ → Option SocketInfo
  kernel : ℤ → Option (BitVec 32)

namespace Sockets

variable (s : Sockets)

/-- `SocketInfoAlloc`. Outside the table there is no record to write to. -/
def socketInfoAlloc (fd domain : ℤ) : Option Sockets :=
  if fd > -1 ∧ fd < 102400 then
    some { s with
      gSocketInfo := update s.gSocketInfo fd (some
        { flag := 0, domain := domain, readTimeout := ⟨1, 0⟩, writeTimeout := ⟨1, 0⟩ }) }
  else none

/-- `SocketInfoGet(fd)`: the record of a descriptor in the range of the table. -/
def socketInfoGet (fd : ℤ) : Option SocketInfo :=
  if fd > -1 ∧ fd < 102400 then s.gSocketInfo fd else none

/-! ### The kernel -/

/-- A new descriptor `fd`. -/
def sysSocket (fd : ℤ) (type : BitVec 32) : Option Sockets :=
  if 0 ≤ fd ∧ (s.kernel fd).isNone then
    some { s with kernel := update s.kernel fd (some (O_RDWR ||| type &&& SOCK_NONBLOCK)) }
  else none

/-- The system's `fcntl(fd, F_GETFL)`. -/
def sysGetfl (fd : ℤ) : Option (BitVec 32) := s.kernel fd

/-- The system's `fcntl(fd, F_SETFL, param)`, which sets the bits of the mask. -/
def sysSetfl (fd : ℤ) (param : BitVec 32) : Option Sockets :=
  (s.kernel fd).map fun flags ↦
    { s with
      kernel := update s.kernel fd (some (flags &&& ~~~setflMask ||| param &&& setflMask)) }

/-! ### The hooked calls -/

/-- `fcntl(fd, F_GETFL)`. -/
def fcntlGetfl (fd : ℤ) : Option (BitVec 32) :=
  if fd < 0 then some 235
  else
    (s.sysGetfl fd).map fun ret ↦
      match s.socketInfoGet fd with
      | some info => if Nonblock (lnot info.flag) then ret &&& ~~~O_NONBLOCK else ret
      | none => ret

/-- `fcntl(fd, F_SETFL, param)`, by a coroutine whose hook is enabled or not. -/
def fcntlSetfl (enableSysHook : Bool) (fd : ℤ) (param : BitVec 32) : Option Sockets :=
  if fd < 0 then some s
  else
    match s.socketInfoGet fd with
    | some info =>
      let param := if enableSysHook then param ||| O_NONBLOCK else param
      (s.sysSetfl fd param).map fun s ↦
        { s with gSocketInfo := update s.gSocketInfo fd (some { info with flag := param }) }
    | none => s.sysSetfl fd param

/-- `socket`, where the kernel's is `fd`. -/
def socket (enableSysHook : Bool) (fd domain : ℤ) (type : BitVec 32) : Option Sockets :=
  (s.sysSocket fd type).bind fun s ↦
    if !enableSysHook then some s
    else
      (s.socketInfoAlloc fd domain).bind fun s ↦
        (s.sysGetfl fd).bind fun flags ↦ s.fcntlSetfl enableSysHook fd flags

/-- `connect` and the calls that read and write leave it at the system's call. -/
def directPath (fd : ℤ) : Bool :=
  match s.socketInfoGet fd with
  | none => true
  | some info => decide (Nonblock info.flag)

end Sockets

/-- The calls of coroutines whose hook is enabled. -/
inductive SocketAction where
  | socket (fd domain : ℤ) (type : BitVec 32)
  | setfl (fd : ℤ) (param : BitVec 32)
  | getfl (fd : ℤ)

namespace Sockets

/-- The sockets after one call. -/
def step (s : Sockets) : SocketAction → Option Sockets
  | .socket fd domain type => s.socket true fd domain type
  | .setfl fd param => s.fcntlSetfl true fd param
  | .getfl fd => (s.fcntlGetfl fd).map fun _ ↦ s

/-- At first there are no records; descriptors may be open. -/
def initial (kernel : ℤ → Option (BitVec 32)) : Sockets where
  gSocketInfo _ := none
  kernel := kernel

end Sockets

/-! ### What the program has asked for -/

/-- Whether the program has last asked for a non-blocking descriptor `fd`, if the descriptor comes
from `socket`. -/
def askedStep (fd : ℤ) (asked : Option Bool) : SocketAction → Option Bool
  | .socket fd' _ type => if fd' = fd then some (decide (type &&& SOCK_NONBLOCK ≠ 0)) else asked
  | .setfl fd' param => if fd' = fd then asked.map fun _ ↦ decide (Nonblock param) else asked
  | .getfl _ => asked

/-- What the program has last asked for, over its calls. -/
def lastAsked (acts : List SocketAction) (fd : ℤ) : Option Bool :=
  acts.foldl (askedStep fd) none

/-- The mode of the descriptor is virtual: the kernel's flags are non-blocking, and `F_GETFL` and
the calls that read and write go by what the program has asked for. -/
structure Faithful (s : Sockets) (fd : ℤ) (nonblock : Bool) : Prop where
  kernel : ∃ flags, s.kernel fd = some flags ∧ Nonblock flags
  getfl : (∃ ret, s.fcntlGetfl fd = some ret ∧ Nonblock ret) ↔ nonblock = true
  direct : s.directPath fd = true ↔ nonblock = true

/-! ### One step -/

variable {s s' : Sockets} {fd fd' : ℤ} {flag param : BitVec 32}

theorem nonblock_iff : Nonblock flag ↔ flag.getLsbD 11 = true := by
  have hbit : O_NONBLOCK = BitVec.twoPow 32 11 := by decide
  rw [Nonblock, hbit, BitVec.and_twoPow]
  split
  next h => exact iff_of_true (by decide) h
  next h => exact iff_of_false (fun hne ↦ hne rfl) h

theorem nonblock_or_self (param : BitVec 32) : Nonblock (param ||| O_NONBLOCK) := by
  rw [nonblock_iff, BitVec.getLsbD_or, show O_NONBLOCK.getLsbD 11 = true by decide, Bool.or_true]

/-- `F_SETFL` sets the bit that it is given. -/
theorem nonblock_setfl (h : Nonblock param) :
    Nonblock (flag &&& ~~~setflMask ||| param &&& setflMask) := by
  rw [nonblock_iff] at h ⊢
  rw [BitVec.getLsbD_or, BitVec.getLsbD_and, BitVec.getLsbD_and, h,
    show setflMask.getLsbD 11 = true by decide, Bool.and_self, Bool.or_true]

/-- The test of `F_GETFL` is always false. -/
theorem not_nonblock_lnot (flag : BitVec 32) : ¬ Nonblock (lnot flag) := by
  rw [lnot]
  split <;> decide

/-- A descriptor that comes from `socket` is non-blocking in the kernel and in its record. -/
def Forced (s : Sockets) (fd : ℤ) : Prop :=
  (fd > -1 ∧ fd < 102400) ∧ (∃ flags, s.kernel fd = some flags ∧ Nonblock flags) ∧
    ∃ info, s.gSocketInfo fd = some info ∧ Nonblock info.flag

theorem sysSetfl_eq_some (h : s.sysSetfl fd param = some s') :
    ∃ flags, s.kernel fd = some flags ∧ s' = { s with
      kernel := update s.kernel fd (some (flags &&& ~~~setflMask ||| param &&& setflMask)) } := by
  obtain ⟨flags, hflags, rfl⟩ := Option.map_eq_some_iff.1 h
  exact ⟨flags, hflags, rfl⟩

/-- A hooked `F_SETFL` of a descriptor that has a record. -/
theorem forced_fcntlSetfl (hfd : fd > -1 ∧ fd < 102400) (hinfo : (s.gSocketInfo fd).isSome)
    (h : s.fcntlSetfl true fd param = some s') : Forced s' fd := by
  obtain ⟨info, hinfo⟩ := Option.isSome_iff_exists.1 hinfo
  have hget : s.socketInfoGet fd = some info := by rw [Sockets.socketInfoGet, if_pos hfd, hinfo]
  rw [Sockets.fcntlSetfl, if_neg (by omega), hget] at h
  obtain ⟨s₁, h₁, rfl⟩ := Option.map_eq_some_iff.1 h
  obtain ⟨flags, hflags, rfl⟩ := sysSetfl_eq_some h₁
  refine ⟨hfd, ⟨_, update_self .., ?_⟩, ⟨_, update_self .., nonblock_or_self param⟩⟩
  exact nonblock_setfl (nonblock_or_self param)

/-- `F_SETFL` leaves other descriptors alone. -/
theorem fcntlSetfl_of_ne (hne : fd ≠ fd') {hook : Bool}
    (h : s.fcntlSetfl hook fd' param = some s') :
    s'.kernel fd = s.kernel fd ∧ s'.gSocketInfo fd = s.gSocketInfo fd := by
  rw [Sockets.fcntlSetfl] at h
  split at h
  · obtain rfl := Option.some.inj h
    exact ⟨rfl, rfl⟩
  · split at h
    · obtain ⟨s₁, h₁, rfl⟩ := Option.map_eq_some_iff.1 h
      obtain ⟨flags, -, rfl⟩ := sysSetfl_eq_some h₁
      exact ⟨update_of_ne hne .., update_of_ne hne ..⟩
    · obtain ⟨flags, -, rfl⟩ := sysSetfl_eq_some h
      exact ⟨update_of_ne hne .., rfl⟩

theorem Forced.of_eq (F : Forced s fd)
    (h : s'.kernel fd = s.kernel fd ∧ s'.gSocketInfo fd = s.gSocketInfo fd) : Forced s' fd := by
  rw [Forced, h.1, h.2]
  exact F

/-- **A step** keeps every descriptor that comes from `socket` non-blocking. -/
theorem forced_step {asked : Option Bool} (F : asked ≠ none → Forced s fd) {a : SocketAction}
    (h : s.step a = some s') : askedStep fd asked a ≠ none → Forced s' fd := by
  intro hasked
  cases a with
  | socket fd' domain type =>
    rw [Sockets.step, Sockets.socket] at h
    obtain ⟨s₁, h₁, h⟩ := Option.bind_eq_some_iff.1 h
    obtain ⟨s₂, h₂, h⟩ := Option.bind_eq_some_iff.1 (show _ = some s' from h)
    obtain ⟨flags, -, h⟩ := Option.bind_eq_some_iff.1 h
    rw [Sockets.sysSocket] at h₁
    rw [Sockets.socketInfoAlloc] at h₂
    split at h₁ <;> [skip; cases h₁]
    split at h₂ <;> [skip; cases h₂]
    next hfd =>
      obtain rfl := Option.some.inj h₁
      obtain rfl := Option.some.inj h₂
      rcases eq_or_ne fd fd' with rfl | hne
      · exact forced_fcntlSetfl hfd (by simp) h
      · rw [askedStep, if_neg hne.symm] at hasked
        refine (F hasked).of_eq ?_
        obtain ⟨hker, hinf⟩ := fcntlSetfl_of_ne hne h
        exact ⟨hker.trans (update_of_ne hne ..), hinf.trans (update_of_ne hne ..)⟩
  | setfl fd' param =>
    rcases eq_or_ne fd fd' with rfl | hne
    · rw [askedStep, if_pos rfl] at hasked
      obtain ⟨hfd, -, info, hinfo, -⟩ := F fun hn ↦ hasked (by rw [hn, Option.map_none])
      exact forced_fcntlSetfl hfd (by rw [hinfo]; rfl) h
    · rw [askedStep, if_neg hne.symm] at hasked
      exact (F hasked).of_eq (fcntlSetfl_of_ne hne h)
  | getfl fd' =>
    obtain ⟨ret, -, rfl⟩ := Option.map_eq_some_iff.1 h
    exact F hasked

/-! ### Runs -/

theorem forced_exec {asked : Option Bool} {acts : List SocketAction}
    (F : asked ≠ none → Forced s fd) (h : Machine.exec Sockets.step s acts = some s') :
    acts.foldl (askedStep fd) asked ≠ none → Forced s' fd := by
  induction acts generalizing s asked with
  | nil => exact Option.some.inj h ▸ F
  | cons a acts ih =>
    obtain ⟨s₁, h₁, h⟩ := Option.bind_eq_some_iff.1 h
    exact ih (forced_step F h₁) h

/-- A non-blocking descriptor is reported as such, and read and written directly. -/
theorem Forced.faithful (F : Forced s fd) (b : Bool) : Faithful s fd b ↔ b = true := by
  obtain ⟨hfd, ⟨flags, hflags, hnon⟩, info, hinfo, hflag⟩ := F
  have hget : s.socketInfoGet fd = some info := by rw [Sockets.socketInfoGet, if_pos hfd, hinfo]
  have hgetfl : s.fcntlGetfl fd = some flags := by
    rw [Sockets.fcntlGetfl, if_neg (by omega), Sockets.sysGetfl, hflags, Option.map_some, hget]
    exact congrArg some (if_neg (not_nonblock_lnot _))
  have hdirect : s.directPath fd = true := by
    rw [Sockets.directPath, hget]
    exact decide_eq_true hflag
  constructor
  · intro h
    exact h.direct.1 hdirect
  · rintro rfl
    exact ⟨⟨flags, hflags, hnon⟩, iff_of_true ⟨flags, hgetfl, hnon⟩ rfl, iff_of_true hdirect rfl⟩

/-- **The mode of a socket is the one the program has asked for exactly if that is the non-blocking
one.** -/
theorem faithful_iff {kernel : ℤ → Option (BitVec 32)} {acts : List SocketAction} {b : Bool}
    (h : Machine.exec Sockets.step (.initial kernel) acts = some s)
    (hb : lastAsked acts fd = some b) : Faithful s fd b ↔ b = true := by
  have hasked : acts.foldl (askedStep fd) none ≠ none := by
    rw [show acts.foldl (askedStep fd) none = some b from hb]
    simp
  exact (forced_exec (fun hn ↦ absurd rfl hn) h hasked).faithful b

/-- A socket that is made blocking, and non-blocking again. -/
theorem faithful_iff_askedAgain :
    ∃ s, Machine.exec Sockets.step (.initial fun _ ↦ none)
      [.socket 5 2 1#32, .getfl 5, .setfl 5 O_RDWR, .setfl 5 (O_RDWR ||| O_NONBLOCK)] = some s ∧
      Faithful s 5 true := by
  have hdef : (Machine.exec Sockets.step (.initial fun _ ↦ none) [.socket 5 2 1#32, .getfl 5,
      .setfl 5 O_RDWR, .setfl 5 (O_RDWR ||| O_NONBLOCK)]).isSome := by decide
  obtain ⟨s, hs⟩ := Option.isSome_iff_exists.1 hdef
  exact ⟨s, hs, (faithful_iff hs (by decide)).2 rfl⟩

/-- A new socket, for which nobody has asked to be non-blocking, is reported as non-blocking and
read directly. -/
theorem not_faithful_newSocket :
    ∃ s, Machine.exec Sockets.step (.initial fun _ ↦ none) [.socket 5 2 1#32] = some s ∧
      lastAsked [.socket 5 2 1#32] 5 = some false ∧ ¬ Faithful s 5 false := by
  have hdirect : (Machine.exec Sockets.step (.initial fun _ ↦ none) [.socket 5 2 1#32]).map
      (fun s ↦ s.directPath 5) = some true := by decide
  obtain ⟨s, hs, hdirect⟩ := Option.map_eq_some_iff.1 hdirect
  exact ⟨s, hs, by decide, fun h ↦ absurd (h.direct.1 hdirect) (by simp)⟩

end CoRoutine
