import MiscCpp.Hook.Socket
import MiscCpp.Coroutine.Poll

/-!
# The address in `socket_info`

The hooked `bind` and `connect` copy the address they are given to the `dest` field of the record of
the socket. Memory is bytes here, and keeps the ranges that have been stored to.

`dest` is a `sockaddr`, and behind it come `domain` and the two timeouts. The copy is as long as the
address, so it stays inside the field exactly if the address does (`keepsSettings_iff`).
-/

namespace CoRoutine

/-! ### Memory -/

/-- Memory, with the address and the number of bytes of each store. -/
structure Memory where
  byte : ℕ → UInt8
  stores : List (ℕ × ℕ)

namespace Memory

variable (m : Memory)

/-- `memcpy(dst, src, src.length)` -/
def memcpy (dst : ℕ) (src : List UInt8) : Memory where
  byte a := if dst ≤ a then src.getD (a - dst) (m.byte a) else m.byte a
  stores := (dst, src.length) :: m.stores

/-- The `n` bytes from an address on. -/
def bytes (a n : ℕ) : List UInt8 := (List.range n).map fun i ↦ m.byte (a + i)

/-- The address is in a range that has been stored to. -/
def Stored (a : ℕ) : Prop := ∃ s ∈ m.stores, s.1 ≤ a ∧ a < s.1 + s.2

end Memory

/-- The number that bytes stand for, the least significant one first. -/
def littleEndian (bytes : List UInt8) : ℕ := bytes.foldr (fun b n ↦ b.toNat + 2 ^ 8 * n) 0

/-! ### The record -/

/-- A field of `socket_info`: its offset and its size. -/
structure Field where
  offset : ℕ
  size : ℕ

namespace Field

def flag : Field := ⟨0, 4⟩
def dest : Field := ⟨4, 16⟩
def domain : Field := ⟨20, 4⟩
def readTimeout : Field := ⟨24, 16⟩
def writeTimeout : Field := ⟨40, 16⟩

/-- The fields other than `dest`. -/
def settings : List Field := [flag, domain, readTimeout, writeTimeout]

end Field

/-- The bytes of a field of the record at `info`. -/
def Memory.field (m : Memory) (info : ℕ) (f : Field) : List UInt8 :=
  m.bytes (info + f.offset) f.size

/-- The flag word of a record. -/
def Memory.flag (m : Memory) (info : ℕ) : BitVec 32 :=
  BitVec.ofNat 32 (littleEndian (m.field info .flag))

/-- `timeval`: two numbers of 64 bits. -/
def TimeVal.ofBytes (bytes : List UInt8) : TimeVal where
  tvSec := (littleEndian (bytes.take 8) : ℤ).bmod (2 ^ 64)
  tvUsec := (littleEndian (bytes.drop 8) : ℤ).bmod (2 ^ 64)

/-- The record at `info`, without the address. -/
def Memory.socketInfo (m : Memory) (info : ℕ) : SocketInfo where
  flag := m.flag info
  domain := (littleEndian (m.field info .domain) : ℤ).bmod (2 ^ 32)
  readTimeout := .ofBytes (m.field info .readTimeout)
  writeTimeout := .ofBytes (m.field info .writeTimeout)

/-- `SocketInfoGet`: the address of the record. -/
def socketInfoAt (table : ℤ → Option ℕ) (fd : ℤ) : Option ℕ :=
  if fd > -1 ∧ fd < 102400 then table fd else none

/-! ### The calls -/

def EINPROGRESS : ℤ := 115

def ETIMEDOUT : ℤ := 110

/-- `bind`, where `sys_bind_func` returns `sys`. -/
def bind (enableSysHook : Bool) (table : ℤ → Option ℕ) (m : Memory) (sockfd : ℤ)
    (addr : List UInt8) (sys : ℤ) : Memory × ℤ :=
  if !enableSysHook then (m, sys)
  else
    match socketInfoAt table sockfd with
    | some info => (m.memcpy (info + Field.dest.offset) addr, sys)
    | none => (m, sys)

/-- What the calls that `connect` makes return: `sys_connect_func` with `errno`, each `poll` with
`revents`, and `getsockopt` with `errno` and `err`. -/
structure ConnectAnswers where
  ret : ℤ
  errno : ℤ
  polls : ℕ → ℤ × BitVec 16
  sockopt : ℤ × ℤ
  err : ℤ

/-- `while (1)`: the `revents` of the first `poll` from the `k`th on that returns `1`. -/
def ConnectAnswers.waitPoll (answers : ConnectAnswers) : ℕ → ℕ → Option (BitVec 16)
  | 0, _ => none
  | fuel + 1, k =>
    if (answers.polls k).1 = 1 then some (answers.polls k).2 else answers.waitPoll fuel (k + 1)

/-- `connect`: the memory, and what it returns with which `errno`, if it returns before `fuel` calls
of `poll`. -/
def connect (enableSysHook : Bool) (table : ℤ → Option ℕ) (m : Memory) (sockfd : ℤ)
    (addr : List UInt8) (answers : ConnectAnswers) (fuel : ℕ) : Memory × Option (ℤ × ℤ) :=
  if !enableSysHook then (m, some (answers.ret, answers.errno))
  else
    match socketInfoAt table sockfd with
    | none => (m, some (answers.ret, answers.errno))
    | some info =>
      let m := m.memcpy (info + Field.dest.offset) addr
      (m,
        if Nonblock (m.flag info) then some (answers.ret, answers.errno)
        else if ¬ (answers.ret < 0 ∧ answers.errno = EINPROGRESS) then
          some (answers.ret, answers.errno)
        else
          (answers.waitPoll fuel 0).map fun revents ↦
            if revents &&& POLLOUT ≠ 0 then
              if answers.sockopt.1 < 0 then answers.sockopt
              else if answers.err ≠ 0 then (-1, answers.err)
              else (0, 0)
            else (answers.ret, ETIMEDOUT))

/-- A call that remembers an address. -/
inductive AddressCall where
  | bind (sys : ℤ)
  | connect (answers : ConnectAnswers) (fuel : ℕ)

/-- The memory after the call, by a coroutine whose hook is enabled. -/
def AddressCall.memory (table : ℤ → Option ℕ) (m : Memory) (sockfd : ℤ) (addr : List UInt8) :
    AddressCall → Memory
  | .bind sys => (CoRoutine.bind true table m sockfd addr sys).1
  | .connect answers fuel => (CoRoutine.connect true table m sockfd addr answers fuel).1

/-! ### What they leave -/

/-- From `m` to `m'` the settings in the record at `info` stay as they are, and nothing outside its
`dest` has been stored to that had not been before. -/
structure KeepsSettings (info : ℕ) (m m' : Memory) : Prop where
  field_eq (f : Field) (hf : f ∈ Field.settings) : m'.field info f = m.field info f
  inside (a : ℕ) (h : m'.Stored a) :
    m.Stored a ∨ info + Field.dest.offset ≤ a ∧ a < info + Field.dest.offset + Field.dest.size

variable {info : ℕ} {m m' : Memory} {addr : List UInt8}

/-- The record of the socket's settings is the same then. -/
theorem KeepsSettings.socketInfo_eq (h : KeepsSettings info m m') :
    m'.socketInfo info = m.socketInfo info := by
  have hf (f : Field) (hf : f ∈ Field.settings) := h.field_eq f hf
  simp only [Field.settings, List.mem_cons, List.not_mem_nil, or_false, forall_eq_or_imp,
    forall_eq] at hf
  obtain ⟨hflag, hdomain, hread, hwrite⟩ := hf
  simp only [Memory.socketInfo, Memory.flag, hflag, hdomain, hread, hwrite]

theorem memcpy_byte_of_outside {dst a : ℕ} (h : a < dst ∨ dst + addr.length ≤ a) :
    (m.memcpy dst addr).byte a = m.byte a := by
  simp only [Memory.memcpy]
  split
  · rw [List.getD_eq_getElem?_getD, List.getElem?_eq_none (by omega), Option.getD_none]
  · rfl

/-- Behind the record's `dest` nothing changes if the copy is not longer than that. -/
theorem memcpy_field_eq (haddr : addr.length ≤ Field.dest.size) {f : Field}
    (hf : f ∈ Field.settings) :
    (m.memcpy (info + Field.dest.offset) addr).field info f = m.field info f := by
  refine List.map_congr_left fun i hi ↦ memcpy_byte_of_outside ?_
  have hi := List.mem_range.1 hi
  simp only [Field.settings, List.mem_cons, List.not_mem_nil, or_false] at hf
  obtain rfl | rfl | rfl | rfl := hf <;>
    simp only [Field.flag, Field.domain, Field.readTimeout, Field.writeTimeout, Field.dest]
      at hi haddr ⊢ <;> omega

theorem keepsSettings_memcpy_iff (hm : m.stores = []) :
    KeepsSettings info m (m.memcpy (info + Field.dest.offset) addr) ↔
      addr.length ≤ Field.dest.size := by
  constructor
  · intro h
    by_contra hlong
    -- the byte behind `dest` has been stored to
    have hstored : (m.memcpy (info + Field.dest.offset) addr).Stored
        (info + Field.dest.offset + Field.dest.size) :=
      ⟨_, List.mem_cons_self, Nat.le_add_right _ _, by dsimp only; omega⟩
    rcases h.inside _ hstored with ⟨s, hs, -⟩ | hinside
    · rw [hm] at hs
      exact absurd hs List.not_mem_nil
    · omega
  · intro h
    refine ⟨fun f hf ↦ memcpy_field_eq h hf, ?_⟩
    rintro a ⟨s, hs, hle, hlt⟩
    obtain rfl | hs := List.mem_cons.1 hs
    · exact .inr ⟨hle, by dsimp only at hlt; omega⟩
    · exact .inl ⟨s, hs, hle, hlt⟩

theorem AddressCall.memory_eq {table : ℤ → Option ℕ} {sockfd : ℤ}
    (hinfo : socketInfoAt table sockfd = some info) (m : Memory) (addr : List UInt8)
    (call : AddressCall) :
    call.memory table m sockfd addr = m.memcpy (info + Field.dest.offset) addr := by
  cases call with
  | bind sys => simp [AddressCall.memory, CoRoutine.bind, hinfo]
  | connect answers fuel => simp [AddressCall.memory, CoRoutine.connect, hinfo]

/-- **Which addresses spoil the settings.** Those that are longer than a `sockaddr`. -/
theorem keepsSettings_iff {table : ℤ → Option ℕ} {sockfd : ℤ}
    (hinfo : socketInfoAt table sockfd = some info) (hm : m.stores = []) (addr : List UInt8)
    (call : AddressCall) :
    KeepsSettings info m (call.memory table m sockfd addr) ↔ addr.length ≤ 16 := by
  rw [AddressCall.memory_eq hinfo]
  exact keepsSettings_memcpy_iff hm

/-- An IPv4 address: family, port 80, 127.0.0.1, and eight bytes that are not used. -/
theorem keepsSettings_ipv4 :
    KeepsSettings 0x1000 ⟨fun _ ↦ 0, []⟩
      ((AddressCall.bind 0).memory (fun _ ↦ some 0x1000) ⟨fun _ ↦ 0, []⟩ 5
        [2, 0, 0, 80, 127, 0, 0, 1, 0, 0, 0, 0, 0, 0, 0, 0]) :=
  (keepsSettings_iff rfl rfl _ _).2 (by decide)

/-- The IPv6 address 2001:db8::1 with port 80: 28 bytes. -/
def ipv6Address : List UInt8 :=
  [10, 0, 0, 80, 0, 0, 0, 0, 0x20, 0x01, 0x0d, 0xb8, 0, 0, 0, 0, 0, 0, 0, 0, 0, 0, 0, 1, 0, 0, 0, 0]

/-- The timeout for reading has become 194 days. -/
example : (((AddressCall.bind 0).memory (fun _ ↦ some 0x1000) ⟨fun _ ↦ 0, []⟩ 5
    ipv6Address).socketInfo 0x1000).readTimeout.tvSec = 16777216 := by decide

/-- The second half of the address goes to `domain` and to `read_timeout`. -/
theorem not_forall_keepsSettings :
    ¬ ∀ (info : ℕ) (m : Memory) (table : ℤ → Option ℕ) (sockfd : ℤ) (addr : List UInt8)
      (call : AddressCall), socketInfoAt table sockfd = some info → m.stores = [] →
        KeepsSettings info m (call.memory table m sockfd addr) := by
  intro h
  have hkeeps := h 0x1000 ⟨fun _ ↦ 0, []⟩ (fun _ ↦ some 0x1000) 5 ipv6Address (.bind 0) rfl rfl
  rw [AddressCall.memory_eq rfl] at hkeeps
  exact absurd ((keepsSettings_memcpy_iff rfl).1 hkeeps) (by decide)

end CoRoutine
