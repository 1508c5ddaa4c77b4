import MiscCpp.Hook.Socket

/-!
# The records of the open sockets

The hooked `socket`, `accept4` and `close`, called by coroutines whose hooks are enabled or not, and
the table `g_socket_info`. The kernel gives out the numbers of descriptors; it may use the number of
a closed one again.

Two calls leave the table wrong. `socket` writes the domain to the record that it has asked for,
without a look whether there is one, so it dereferences a null pointer if the number is beyond the
table; `accept4` does not. And `close` by a coroutine whose hooks are disabled leaves the record,
which then belongs to whatever gets the number next. These two are all (`mirrorsSockets_iff`).
-/

open Function

namespace CoRoutine

namespace Sockets

variable (s : Sockets)

/-- `SocketInfoFree`. -/
def socketInfoFree (fd : ℤ) : Sockets :=
  if fd > -1 ∧ fd < 102400 then { s with gSocketInfo := update s.gSocketInfo fd none } else s

/-- A new descriptor as well. -/
def sysAccept4 (fd : ℤ) (flags : BitVec 32) : Option Sockets := s.sysSocket fd flags

/-- The system's `close`. -/
def sysClose (fd : ℤ) : Sockets := { s with kernel := update s.kernel fd none }

/-- `accept4`, where the kernel's is `fd`. The result of `SocketInfoAlloc` is not looked at. -/
def accept4 (enableSysHook : Bool) (fd : ℤ) (flags : BitVec 32) : Option Sockets :=
  (s.sysAccept4 fd flags).map fun s ↦
    if enableSysHook ∧ fd ≥ 0 then (s.socketInfoAlloc fd 0).getD s else s

/-- The hooked `close`, which frees the record first. -/
def close (enableSysHook : Bool) (fd : ℤ) : Sockets :=
  if !enableSysHook then s.sysClose fd else (s.socketInfoFree fd).sysClose fd

end Sockets

/-- The calls, by a coroutine whose hook is enabled or not. A new descriptor is the one that the
kernel returns. -/
inductive TableCall where
  | socket (enableSysHook : Bool) (fd domain : ℤ) (type : BitVec 32)
  | accept4 (enableSysHook : Bool) (fd : ℤ) (flags : BitVec 32)
  | close (enableSysHook : Bool) (fd : ℤ)

namespace TableCall

/-- The descriptor of a call. -/
def fd : TableCall → ℤ
  | .socket _ fd _ _ | .accept4 _ fd _ | .close _ fd => fd

/-- The record that a hooked call creates its descriptor with. -/
def settings : TableCall → Option SocketInfo
  | .socket true _ domain type => some
    { flag := (O_RDWR ||| type &&& SOCK_NONBLOCK) ||| O_NONBLOCK
      domain := domain
      readTimeout := ⟨1, 0⟩
      writeTimeout := ⟨1, 0⟩ }
  | .accept4 true _ _ => some
    { flag := 0
      domain := 0
      readTimeout := ⟨1, 0⟩
      writeTimeout := ⟨1, 0⟩ }
  | .socket false .. | .accept4 false .. | .close .. => none

end TableCall

/-- The sockets with a history: the settings of the open descriptors that hooked calls have created.
-/
structure TableRun where
  sockets : Sockets
  created : ℤ → Option SocketInfo

namespace TableRun

variable (r : TableRun)

/-- The sockets after a call. -/
def call (s : Sockets) : TableCall → Option Sockets
  | .socket hook fd domain type => s.socket hook fd domain type
  | .accept4 hook fd flags => s.accept4 hook fd flags
  | .close hook fd => some (s.close hook fd)

/-- The sockets after a call, with what each descriptor was created with. -/
def step (c : TableCall) : Option TableRun :=
  (call r.sockets c).map fun s ↦ { sockets := s, created := update r.created c.fd c.settings }

/-- At first there are no records; descriptors may be open. -/
def initial (kernel : ℤ → Option (BitVec 32)) : TableRun where
  sockets := .initial kernel
  created _ := none

/-- `SocketInfoGet` finds the settings of the open descriptors below 102400 that hooked calls have
created, and nothing else. -/
def Mirrors : Prop :=
  ∀ fd, r.sockets.socketInfoGet fd = if fd > -1 ∧ fd < 102400 then r.created fd else none

/-- The kernel gives out numbers that are not in use. -/
def KernelAnswers : TableCall → Prop
  | .socket _ fd _ _ | .accept4 _ fd _ => 0 ≤ fd ∧ r.sockets.kernel fd = none
  | .close _ _ => True

/-- A call dereferences no null pointer, and afterwards the table is right. -/
def MirrorsSockets (c : TableCall) : Prop := ∃ r', r.step c = some r' ∧ r'.Mirrors

/-- A hooked `socket` gets a number within the table, and a `close` that is not hooked finds no
record. -/
def StaysInTable : TableCall → Prop
  | .socket true fd _ _ => fd < 102400
  | .close false fd => r.sockets.socketInfoGet fd = none
  | .socket false .. | .accept4 .. | .close true _ => True

instance (c : TableCall) : Decidable (r.KernelAnswers c) :=
  match c with
  | .socket .. | .accept4 .. => inferInstanceAs (Decidable (_ ∧ _))
  | .close .. => isTrue trivial

instance (c : TableCall) : Decidable (r.StaysInTable c) :=
  match c with
  | .socket true _ _ _ => inferInstanceAs (Decidable (_ < _))
  | .close false fd => inferInstanceAs (Decidable (r.sockets.socketInfoGet fd = none))
  | .socket false .. | .accept4 .. | .close true _ => isTrue trivial

end TableRun

/-! ### One call -/

open TableRun

variable {s s' : Sockets} {r r' : TableRun} {c : TableCall} {fd domain : ℤ} {type : BitVec 32}

/-- The table is right, and no settings are kept for a closed descriptor. -/
structure Mirroring (r : TableRun) : Prop where
  mirrors : r.Mirrors
  created : ∀ fd, r.sockets.kernel fd = none → r.created fd = none

theorem sysSocket_eq (h : 0 ≤ fd ∧ s.kernel fd = none) : s.sysSocket fd type =
    some { s with kernel := update s.kernel fd (some (O_RDWR ||| type &&& SOCK_NONBLOCK)) } :=
  if_pos ⟨h.1, by rw [h.2]; rfl⟩

theorem step_of_call (h : call r.sockets c = some s') :
    r.step c = some { sockets := s', created := update r.created c.fd c.settings } := by
  rw [TableRun.step, h, Option.map_some]

theorem socket_unhooked (h : 0 ≤ fd ∧ s.kernel fd = none) : s.socket false fd domain type =
    some { s with kernel := update s.kernel fd (some (O_RDWR ||| type &&& SOCK_NONBLOCK)) } := by
  rw [Sockets.socket, sysSocket_eq h]
  rfl

/-- A hooked `socket` within the table: its `F_SETFL` is hooked as well. -/
theorem socket_hooked (domain : ℤ) (type : BitVec 32) (h : 0 ≤ fd ∧ s.kernel fd = none)
    (hfd : fd < 102400) : ∃ flags, s.socket true fd domain type = some
      { gSocketInfo := update s.gSocketInfo fd (TableCall.socket true fd domain type).settings
        kernel := update s.kernel fd (some flags) } := by
  have hin : fd > -1 ∧ fd < 102400 := ⟨by omega, hfd⟩
  have hneg : ¬ fd < 0 := by omega
  let flags := O_RDWR ||| type &&& SOCK_NONBLOCK
  refine ⟨flags &&& ~~~setflMask ||| (flags ||| O_NONBLOCK) &&& setflMask, ?_⟩
  rw [Sockets.socket, sysSocket_eq h, Option.bind_some]
  simp only [Bool.not_true, Bool.false_eq_true, if_false, Sockets.socketInfoAlloc, if_pos hin,
    Option.bind_some, Sockets.sysGetfl, update_self, Sockets.fcntlSetfl, if_neg hneg,
    Sockets.socketInfoGet, if_true, Sockets.sysSetfl, Option.map_some, update_idem]
  rfl

/-- Beyond the table it does not complete. -/
theorem socket_beyond (hfd : ¬ fd < 102400) : s.socket true fd domain type = none := by
  rw [Sockets.socket, Option.bind_eq_none_iff]
  intro s₁ _
  have hnone : s₁.socketInfoAlloc fd domain = none := if_neg fun h ↦ hfd h.2
  show (s₁.socketInfoAlloc fd domain).bind _ = none
  rw [hnone, Option.bind_none]

theorem accept4_hooked (flags : BitVec 32) (h : 0 ≤ fd ∧ s.kernel fd = none) :
    s.accept4 true fd flags = some
      { gSocketInfo := if fd > -1 ∧ fd < 102400 then
          update s.gSocketInfo fd (TableCall.accept4 true fd flags).settings else s.gSocketInfo
        kernel := update s.kernel fd (some (O_RDWR ||| flags &&& SOCK_NONBLOCK)) } := by
  rw [Sockets.accept4, Sockets.sysAccept4, sysSocket_eq h, Option.map_some, if_pos ⟨rfl, h.1⟩,
    Sockets.socketInfoAlloc]
  split <;> rfl

theorem close_hooked (s : Sockets) (fd : ℤ) : s.close true fd =
    { gSocketInfo := if fd > -1 ∧ fd < 102400 then update s.gSocketInfo fd none else s.gSocketInfo
      kernel := update s.kernel fd none } := by
  show (s.socketInfoFree fd).sysClose fd = _
  rw [Sockets.socketInfoFree]
  split <;> rfl

/-- A call that leaves the record of its creation for its descriptor, and the other descriptors
alone. -/
theorem Mirroring.write {record : Option SocketInfo} {flags : Option (BitVec 32)} (M : Mirroring r)
    (hrecord : s'.socketInfoGet fd = if fd > -1 ∧ fd < 102400 then record else none)
    (hother : ∀ fd', fd' ≠ fd → s'.gSocketInfo fd' = r.sockets.gSocketInfo fd')
    (hkernel : s'.kernel = update r.sockets.kernel fd flags)
    (hclosed : flags = none → record = none) :
    Mirroring { sockets := s', created := update r.created fd record } := by
  constructor
  · intro fd'
    show s'.socketInfoGet fd' =
      if fd' > -1 ∧ fd' < 102400 then update r.created fd record fd' else none
    rcases eq_or_ne fd' fd with rfl | hne
    · rw [hrecord, update_self]
    · rw [update_of_ne hne, ← M.mirrors fd', Sockets.socketInfoGet, hother fd' hne]
      rfl
  · intro fd' hnone
    show update r.created fd record fd' = none
    replace hnone : update r.sockets.kernel fd flags fd' = none := hkernel ▸ hnone
    rcases eq_or_ne fd' fd with rfl | hne
    · rw [update_self] at hnone ⊢
      exact hclosed hnone
    · rw [update_of_ne hne] at hnone ⊢
      exact M.created fd' hnone

/-- A call that writes the record. -/
theorem Mirroring.write_table (M : Mirroring r) (fd : ℤ) (record : Option SocketInfo)
    (flags : Option (BitVec 32)) (hclosed : flags = none → record = none) :
    Mirroring
      { sockets :=
          { gSocketInfo := if fd > -1 ∧ fd < 102400 then update r.sockets.gSocketInfo fd record
              else r.sockets.gSocketInfo
            kernel := update r.sockets.kernel fd flags }
        created := update r.created fd record } := by
  refine M.write ?_ (fun fd' hne ↦ ?_) rfl hclosed
  · rw [Sockets.socketInfoGet]
    split
    · exact update_self ..
    · rfl
  · split
    · exact update_of_ne hne ..
    · rfl

/-- A call that leaves the table alone, for a descriptor without a record. -/
theorem Mirroring.leave_table (M : Mirroring r) (hnone : r.sockets.socketInfoGet fd = none)
    (flags : Option (BitVec 32)) :
    Mirroring
      { sockets := { r.sockets with kernel := update r.sockets.kernel fd flags }
        created := update r.created fd none } :=
  M.write (hnone.trans (ite_self none).symm) (fun _ _ ↦ rfl) rfl fun _ ↦ rfl

theorem Mirroring.socketInfoGet_new (M : Mirroring r) (h : r.sockets.kernel fd = none) :
    r.sockets.socketInfoGet fd = none := by
  rw [M.mirrors fd, M.created fd h, ite_self]

/-- **A call that stays in the table** completes and leaves it right. -/
theorem Mirroring.step (M : Mirroring r) (h : r.KernelAnswers c) (hstay : r.StaysInTable c) :
    ∃ r', r.step c = some r' ∧ Mirroring r' := by
  cases c with
  | socket hook fd domain type =>
    cases hook with
    | false =>
      have hcall : call r.sockets (.socket false fd domain type) = some _ := socket_unhooked h
      have M' := M.leave_table (M.socketInfoGet_new h.2) (some (O_RDWR ||| type &&& SOCK_NONBLOCK))
      exact ⟨_, step_of_call hcall, M'⟩
    | true =>
      have hin : fd > -1 ∧ fd < 102400 := ⟨Int.lt_of_lt_of_le (by decide) h.1, hstay⟩
      obtain ⟨flags, hcall⟩ := socket_hooked domain type h hstay
      have M' := M.write_table fd (TableCall.socket true fd domain type).settings (some flags) nofun
      rw [if_pos hin] at M'
      exact ⟨_, step_of_call hcall, M'⟩
  | accept4 hook fd flags =>
    cases hook with
    | false =>
      have hcall : call r.sockets (.accept4 false fd flags) = some _ :=
        congrArg (Option.map _) (sysSocket_eq h)
      have M' := M.leave_table (M.socketInfoGet_new h.2) (some (O_RDWR ||| flags &&& SOCK_NONBLOCK))
      exact ⟨_, step_of_call hcall, M'⟩
    | true => exact ⟨_, step_of_call (accept4_hooked flags h), M.write_table fd _ _ nofun⟩
  | close hook fd =>
    cases hook with
    | false => exact ⟨_, rfl, M.leave_table hstay none⟩
    | true =>
      have hcall : call r.sockets (.close true fd) = some _ := congrArg some (close_hooked _ fd)
      exact ⟨_, step_of_call hcall, M.write_table fd _ _ fun _ ↦ rfl⟩

/-- One that does not stay in it does not complete, or leaves it wrong. -/
theorem staysInTable_of_mirrorsSockets (hc : r.MirrorsSockets c) : r.StaysInTable c := by
  obtain ⟨r', hr', M'⟩ := hc
  cases c with
  | socket hook fd domain type =>
    cases hook with
    | false => trivial
    | true =>
      show fd < 102400
      by_contra hfd
      rw [TableRun.step, TableRun.call, socket_beyond hfd] at hr'
      cases hr'
  | accept4 hook fd flags => cases hook <;> trivial
  | close hook fd =>
    cases hook with
    | false =>
      obtain rfl := Option.some.inj hr'
      refine (M' fd).trans ?_
      show (if _ then update r.created fd none fd else none) = none
      rw [update_self, ite_self]
    | true => trivial

/-! ### Sequences of calls -/

theorem mirroring_initial (kernel : ℤ → Option (BitVec 32)) : Mirroring (.initial kernel) where
  mirrors _ := rfl
  created _ _ := rfl

/-- **Exactly when the table mirrors the open sockets**: every hooked `socket` gets a number within
the table, and every `close` that is not hooked is of a descriptor without a record. -/
theorem mirrorsSockets_iff {kernel : ℤ → Option (BitVec 32)} {calls : List TableCall}
    (h : Machine.Always TableRun.step KernelAnswers (.initial kernel) calls) :
    Machine.Always TableRun.step MirrorsSockets (.initial kernel) calls ↔
      Machine.Always TableRun.step StaysInTable (.initial kernel) calls := by
  refine Machine.always_congr_of_always (I := Mirroring) (fun r c r' M hk hc hs ↦ ?_)
    (fun r c M hk ↦ ⟨staysInTable_of_mirrorsSockets, fun hstay ↦ ?_⟩) (mirroring_initial kernel) h
  · obtain ⟨r'', hr'', M'⟩ := M.step hk (staysInTable_of_mirrorsSockets hc)
    obtain rfl := Option.some.inj (hr''.symm.trans hs)
    exact M'
  · obtain ⟨r', hr', M'⟩ := M.step hk hstay
    exact ⟨r', hr', M'.mirrors⟩

/-- The number of a closed socket is used again, by `accept4`; another is beyond the table. -/
theorem mirrorsSockets_iff_reused :
    Machine.Always TableRun.step MirrorsSockets (.initial fun _ ↦ none)
      [.socket true 5 2 1#32, .close true 5, .accept4 true 5 0#32, .accept4 true 102400 0#32,
        .socket false 6 2 1#32, .close false 6] := by
  exact (mirrorsSockets_iff (by decide)).2 (by decide)

/-- A socket that is closed by a coroutine whose hook is disabled leaves its record. -/
theorem not_forall_mirrorsSockets :
    ¬ ∀ (kernel : ℤ → Option (BitVec 32)) (calls : List TableCall),
      Machine.Always TableRun.step KernelAnswers (.initial kernel) calls →
      Machine.Always TableRun.step MirrorsSockets (.initial kernel) calls := by
  intro hall
  have hmirrors := hall (fun _ ↦ none) [.socket true 5 2 1#32, .close false 5] (by decide)
  have hclose : TableRun.StaysInTable _ (.close false 5) :=
    staysInTable_of_mirrorsSockets (hmirrors.2 _ rfl).1
  exact absurd hclose (by decide)

end CoRoutine
