import Mathlib.Logic.Function.Basic
import MiscCpp.Library.CInt
import MiscCpp.Library.Machine

/-!
# `NetServer::Run`

The loop that accepts the connections and hands them to the reactors, with whatever `epoll_wait` and
`accept4` return and with what the clients and the reactors do in between.

The server keeps a descriptor of `/dev/null`, which it closes when it has run out of descriptors, so
that it can accept a connection in order to close it. A connection that is accepted goes to the next
reactor and leaves everything else as it was (`Inv.onListen`), and the recovery restores the
descriptor (`Kept.recover`). But there the loop does not go on: `perror` and `exit` follow the
recovery as they follow any other error (`onListen_error`). So the server keeps running exactly as
long as it does not run out of descriptors (`keepsRunning_iff`).
-/

open Function Machine

namespace Reactor

/-! ### Round robin -/

/-- Each of the `xs` with the one of `n` that it goes to. -/
def deal {α : Type*} (n : ℕ) (xs : List α) : List (ℕ × α) := xs.mapIdx fun i x ↦ (i % n, x)

theorem deal_concat {α : Type*} (n : ℕ) (xs : List α) (x : α) :
    deal n (xs ++ [x]) = deal n xs ++ [(xs.length % n, x)] := by
  rw [deal, List.mapIdx_concat, deal]

/-! ### The kernel -/

def EINTR : ℤ := 4
def EMFILE : ℤ := 24
def NUM_REACTORS : ℕ := 4

/-- What a descriptor refers to: `/dev/null`, a connection, or a socket or an epoll instance that
the server has made at the start. -/
inductive File where
  | null
  | connection (c : ℕ)
  | other

/-- The open descriptors, the connections that wait to be accepted, what has been added to the epoll
instance of which reactor, and the connections that `Run` has closed. -/
structure Kernel where
  file : ℤ → Option File
  pending : List ℕ
  added : List (ℕ × ℕ)
  closed : List ℕ

namespace Kernel

variable (k : Kernel)

/-- `accept` or `accept4`, which returns the descriptor `fd`. -/
def accept (fd : ℤ) : Option Kernel :=
  match k.pending, k.file fd with
  | c :: pending, none =>
    some { k with file := update k.file fd (some (.connection c)), pending := pending }
  | _, _ => none

/-- `close(fd)` -/
def close (fd : ℤ) : Kernel :=
  { k with
    file := update k.file fd none
    closed :=
      match k.file fd with
      | some (.connection c) => k.closed ++ [c]
      | _ => k.closed }

/-- `open("/dev/null", O_RDONLY | O_CLOEXEC)`, which returns `fd`. -/
def openNull (fd : ℤ) : Option Kernel :=
  match k.file fd with
  | none => some { k with file := update k.file fd (some .null) }
  | some _ => none

/-- `epoll_ctl(reactors_[i].epollfd_, EPOLL_CTL_ADD, fd, &ee)`, undefined outside the vector. -/
def addTo (i : ℤ) (fd : ℤ) : Option Kernel :=
  if 0 ≤ i ∧ i < NUM_REACTORS then
    match k.file fd with
    | some (.connection c) => some { k with added := k.added ++ [(i.toNat, c)] }
    | _ => some k
  else none

end Kernel

/-! ### The loop -/

/-- `Run` waits for events or has some of them left, or the process has ended. -/
inductive Control where
  | running (left : ℕ)
  | exited

/-- The result of `accept4`: a descriptor, or an error, with what `accept` and `open` return in the
recovery. -/
inductive AcceptResult where
  | connfd (fd : ℤ)
  | error (errno : ℤ) (fd idlefd : ℤ)

/-- A result of `epoll_wait`, the next event, and what a client and a reactor do. -/
inductive Action where
  | waitError (errno : ℤ)
  | ready (nready : ℕ)
  | event (fd : ℤ) (r : AcceptResult)
  | connect (c : ℕ)
  | reactorClose (fd : ℤ)

/-- The members that `Run` uses, with the connections in the order in which clients have made them
and in which `accept4` has come to them: whether it accepted or ran out of descriptors. -/
structure NetServer where
  kernel : Kernel
  listenfd : ℤ
  idlefd : ℤ
  reactorIndex : ℤ
  eventsSize : ℕ
  control : Control
  connected : List ℕ
  results : List (Bool × ℕ)

namespace NetServer

variable (s : NetServer)

/-- The four calls after `errno == EMFILE`. -/
def recover (fd idlefd : ℤ) : Option NetServer := do
  let k := s.kernel.close s.idlefd
  let k ← k.accept fd
  let k := k.close fd
  let k ← k.openNull idlefd
  some { s with kernel := k, idlefd := idlefd }

/-- The connection that `accept4` comes to. -/
def noteResult (accepted : Bool) : NetServer :=
  { s with results := s.results ++ (s.kernel.pending.head?.map (accepted, ·)).toList }

/-- The body of the `for` loop for the listening socket. -/
def onListen : AcceptResult → Option NetServer
  | .connfd connfd => do
    let s := s.noteResult true
    let k ← s.kernel.accept connfd
    let reactorIndex := (s.reactorIndex + 1).tmod NUM_REACTORS
    let k ← k.addTo reactorIndex connfd
    some { s with kernel := k, reactorIndex := reactorIndex }
  | .error errno fd idlefd => do
    let s ← if errno = EMFILE then (s.noteResult false).recover fd idlefd else some s
    some { s with control := .exited }

/-- One turn of a loop of `Run`, or what happens beside it. -/
def step : Action → Option NetServer
  | .connect c =>
    some { s with
      kernel := { s.kernel with pending := s.kernel.pending ++ [c] }
      connected := s.connected ++ [c] }
  | .reactorClose fd =>
    match s.kernel.file fd with
    | some (.connection _) =>
      some { s with kernel := { s.kernel with file := update s.kernel.file fd none } }
    | _ => none
  | .waitError errno =>
    match s.control with
    | .running 0 => if errno = EINTR then some s else some { s with control := .exited }
    | _ => none
  | .ready nready =>
    match s.control with
    | .running 0 =>
      if (nready : ℤ) ≤ (CInt.wrap s.eventsSize).1 then
        some { s with
          control := .running nready
          eventsSize :=
            if (nready : ℤ) = (CInt.wrap s.eventsSize).1 then s.eventsSize * 2
            else s.eventsSize }
      else none
    | _ => none
  | .event fd r =>
    match s.control with
    | .running (left + 1) =>
      if fd = s.listenfd then { s with control := .running left }.onListen r
      else some { s with control := .running left }
    | _ => none

/-! ### What holds in a run -/

/-- The connections that `accept4` has accepted, or those for which there was no descriptor. -/
def resultsOf (accepted : Bool) : List ℕ :=
  (s.results.filter (·.1 = accepted)).map Prod.snd

/-- The idle descriptor is open, no connection is lost or overtakes another one, those accepted go
to the reactors in turn, and those for which there was no descriptor are closed. -/
structure Kept : Prop where
  idle : s.kernel.file s.idlefd = some .null
  order : s.connected = s.results.map Prod.snd ++ s.kernel.pending
  added : s.kernel.added = deal NUM_REACTORS (s.resultsOf true)
  closed : s.kernel.closed = s.resultsOf false

/-- The event loop goes on. -/
def Running : Prop := ∃ left, s.control = .running left

/-- No connection is lost, and the event loop goes on. -/
def Right : Prop := s.Kept ∧ s.Running

/-- The index is that of the reactor to which the last connection has gone. -/
structure Inv : Prop extends Kept s where
  bounds : -1 ≤ s.reactorIndex ∧ s.reactorIndex < NUM_REACTORS
  index : (s.reactorIndex + 1) % NUM_REACTORS = (s.resultsOf true).length % NUM_REACTORS

end NetServer

/-- An error that ends the process. -/
def Action.Fails (listenfd : ℤ) : Action → Prop
  | .waitError errno => errno ≠ EINTR
  | .event fd (.error _ _ _) => fd = listenfd
  | _ => False

/-! ### The steps -/

namespace NetServer

variable {s t : NetServer} {a : Action} {fd idlefd : ℤ} {c : ℕ}

theorem accept_eq_some {k k' : Kernel} (h : k.accept fd = some k') :
    ∃ c pending, k.pending = c :: pending ∧ k.file fd = none ∧
      k' = { k with file := update k.file fd (some (.connection c)), pending := pending } := by
  rw [Kernel.accept] at h
  split at h
  next c pending hpending hfile => exact ⟨c, pending, hpending, hfile, (Option.some.inj h).symm⟩
  next => cases h

theorem openNull_eq_some {k k' : Kernel} (h : k.openNull fd = some k') :
    k' = { k with file := update k.file fd (some .null) } := by
  rw [Kernel.openNull] at h
  split at h
  next => exact (Option.some.inj h).symm
  next => cases h

theorem close_null {k : Kernel} (h : k.file fd = some .null) :
    k.close fd = { k with file := update k.file fd none } := by
  rw [Kernel.close, h]

theorem close_connection {k : Kernel} (h : k.file fd = some (.connection c)) :
    k.close fd = { k with file := update k.file fd none, closed := k.closed ++ [c] } := by
  rw [Kernel.close, h]

theorem noteResult_eq {pending : List ℕ} (h : s.kernel.pending = c :: pending) (b : Bool) :
    s.noteResult b = { s with results := s.results ++ [(b, c)] } := by
  rw [noteResult, h]
  rfl

theorem resultsOf_concat (s : NetServer) (b accepted : Bool) (c : ℕ) :
    ({ s with results := s.results ++ [(b, c)] } : NetServer).resultsOf accepted =
      s.resultsOf accepted ++ if b = accepted then [c] else [] := by
  rw [resultsOf, List.filter_append, List.map_append, resultsOf]
  cases b <;> cases accepted <;> rfl

/-- A result of `accept4` for the first connection that waits. -/
theorem order_concat {pending : List ℕ} (h : s.connected = s.results.map Prod.snd ++ c :: pending)
    (b : Bool) : s.connected = (s.results ++ [(b, c)]).map Prod.snd ++ pending := by
  rw [h, List.map_append, List.append_assoc]
  rfl

/-- **The recovery** closes a connection and opens the idle descriptor again. -/
theorem Kept.recover (h : s.Kept) (hrecover : (s.noteResult false).recover fd idlefd = some t) :
    t.Kept := by
  obtain ⟨k, hk, hrecover⟩ := Option.bind_eq_some_iff.1 hrecover
  obtain ⟨k', hk', hrecover⟩ := Option.bind_eq_some_iff.1 hrecover
  obtain rfl := Option.some.inj hrecover
  have hclose : s.kernel.close s.idlefd =
      { s.kernel with file := update s.kernel.file s.idlefd none } := close_null h.idle
  obtain ⟨c, pending, hpending, -, rfl⟩ := accept_eq_some hk
  have hpending : s.kernel.pending = c :: pending := by
    rw [← hpending]
    exact (congrArg Kernel.pending hclose).symm
  rw [close_connection (update_self ..)] at hk'
  obtain rfl := openNull_eq_some hk'
  rw [noteResult_eq hpending]
  refine ⟨update_self .., order_concat (hpending ▸ h.order) false, ?_, ?_⟩
  · show s.kernel.added = deal NUM_REACTORS
      (resultsOf { s with results := s.results ++ [(false, c)] } true)
    rw [resultsOf_concat, if_neg (by decide), List.append_nil]
    exact h.added
  · show (s.kernel.close s.idlefd).closed ++ [c] =
      resultsOf { s with results := s.results ++ [(false, c)] } false
    rw [resultsOf_concat, if_pos rfl, hclose]
    exact congrArg (· ++ [c]) h.closed

/-- **An error** ends the process. Where there was no descriptor, all is as it should be when it
does. -/
theorem onListen_error {errno : ℤ} (h : s.onListen (.error errno fd idlefd) = some t) :
    t.control = .exited ∧ (errno = EMFILE → s.Kept → t.Kept) := by
  rw [NetServer.onListen] at h
  split at h
  · obtain ⟨s', hrecover, h⟩ := Option.bind_eq_some_iff.1 h
    obtain rfl := Option.some.inj h
    refine ⟨rfl, fun _ hkept ↦ ?_⟩
    obtain ⟨hidle, horder, hadded, hclosed⟩ := hkept.recover hrecover
    exact ⟨hidle, horder, hadded, hclosed⟩
  next hne =>
    obtain rfl := Option.some.inj h
    exact ⟨rfl, fun herrno ↦ absurd herrno hne⟩

theorem addTo_eq_some {k k' : Kernel} {i : ℤ} (h : k.addTo i fd = some k')
    (hfile : k.file fd = some (.connection c)) :
    k' = { k with added := k.added ++ [(i.toNat, c)] } := by
  rw [Kernel.addTo, hfile] at h
  split at h
  · exact (Option.some.inj h).symm
  · cases h

theorem connfd_eq_some (h : s.onListen (.connfd fd) = some t) :
    ∃ c pending, s.kernel.pending = c :: pending ∧ s.kernel.file fd = none ∧
      t =
        { s with
          kernel :=
            { file := update s.kernel.file fd (some (.connection c))
              pending := pending
              added := s.kernel.added ++ [(((s.reactorIndex + 1).tmod NUM_REACTORS).toNat, c)]
              closed := s.kernel.closed }
          reactorIndex := (s.reactorIndex + 1).tmod NUM_REACTORS
          results := s.results ++ [(true, c)] } := by
  obtain ⟨k, hk, h⟩ := Option.bind_eq_some_iff.1 h
  obtain ⟨k', hk', h⟩ := Option.bind_eq_some_iff.1 h
  obtain rfl := Option.some.inj h
  obtain ⟨c, pending, hpending, hfree, rfl⟩ := accept_eq_some hk
  obtain rfl := addTo_eq_some hk' (update_self ..)
  have hpending : s.kernel.pending = c :: pending := hpending
  refine ⟨c, pending, hpending, hfree, ?_⟩
  rw [noteResult_eq hpending]

/-- **A connection** that is accepted goes to the next reactor. -/
theorem Inv.onListen (h : s.Inv) (haccept : s.onListen (.connfd fd) = some t) :
    t.Inv ∧ t.control = s.control := by
  obtain ⟨c, pending, hpending, hfree, rfl⟩ := connfd_eq_some haccept
  have hn : (NUM_REACTORS : ℤ) = 4 := rfl
  obtain ⟨hge, hlt⟩ := h.bounds
  have hmod : (s.reactorIndex + 1).tmod NUM_REACTORS =
      ((s.resultsOf true).length % NUM_REACTORS : ℕ) := by
    rw [Int.tmod_eq_emod_of_nonneg (by omega), h.index, Int.natCast_emod]
  have htrue : resultsOf { s with results := s.results ++ [(true, c)] } true =
      s.resultsOf true ++ [c] := resultsOf_concat s true true c
  have hfalse : resultsOf { s with results := s.results ++ [(true, c)] } false =
      s.resultsOf false ++ [] := resultsOf_concat s true false c
  refine ⟨⟨⟨?_, order_concat (hpending ▸ h.order) true, ?_, ?_⟩, ?_, ?_⟩, rfl⟩
  · have hidle : s.idlefd ≠ fd := by
      rintro rfl
      cases h.idle.symm.trans hfree
    exact (update_of_ne hidle ..).trans h.idle
  · show s.kernel.added ++ _ = deal NUM_REACTORS
      (resultsOf { s with results := s.results ++ [(true, c)] } true)
    rw [htrue, deal_concat, h.added, hmod, Int.toNat_natCast]
  · show s.kernel.closed = resultsOf { s with results := s.results ++ [(true, c)] } false
    rw [hfalse, List.append_nil]
    exact h.closed
  · show -1 ≤ (s.reactorIndex + 1).tmod NUM_REACTORS ∧
      (s.reactorIndex + 1).tmod NUM_REACTORS < NUM_REACTORS
    rw [Int.tmod_eq_emod_of_nonneg (by omega), hn]
    omega
  · show ((s.reactorIndex + 1).tmod NUM_REACTORS + 1) % NUM_REACTORS =
      ((resultsOf { s with results := s.results ++ [(true, c)] } true).length : ℤ) % NUM_REACTORS
    rw [htrue, List.length_append, List.length_singleton, hmod, Int.natCast_emod, hn]
    omega

/-- The loops themselves touch nothing of what is kept. -/
theorem Inv.loop (h : s.Inv) (control : Control) (eventsSize : ℕ) :
    Inv { s with control := control, eventsSize := eventsSize } :=
  ⟨⟨h.idle, h.order, h.added, h.closed⟩, h.bounds, h.index⟩

/-- **A step** that does not fail keeps everything as it should be, and the server running. -/
theorem Inv.step (h : s.Inv) (hrunning : s.Running) (hnot : ¬ a.Fails s.listenfd)
    (hstep : s.step a = some t) : t.Inv ∧ t.Running := by
  cases a with
  | waitError errno =>
    have herrno : errno = EINTR := not_not.1 hnot
    rw [NetServer.step] at hstep
    split at hstep
    · rw [if_pos herrno] at hstep
      obtain rfl := Option.some.inj hstep
      exact ⟨h, hrunning⟩
    · cases hstep
  | ready nready =>
    rw [NetServer.step] at hstep
    split at hstep
    · split at hstep
      · obtain rfl := Option.some.inj hstep
        exact ⟨h.loop _ _, nready, rfl⟩
      · cases hstep
    · cases hstep
  | event fd r =>
    rw [NetServer.step] at hstep
    split at hstep
    next left _ =>
      split at hstep
      next hlisten =>
        cases r with
        | connfd connfd =>
          obtain ⟨hinv, hcontrol⟩ := (h.loop (.running left) s.eventsSize).onListen hstep
          exact ⟨hinv, left, hcontrol⟩
        | error errno fd' idlefd => exact absurd hlisten hnot
      next =>
        obtain rfl := Option.some.inj hstep
        exact ⟨h.loop _ _, left, rfl⟩
    next => cases hstep
  | connect c =>
    obtain rfl := Option.some.inj hstep
    refine ⟨⟨⟨h.idle, ?_, h.added, h.closed⟩, h.bounds, h.index⟩, hrunning⟩
    exact (congrArg (· ++ [c]) h.order).trans (List.append_assoc ..)
  | reactorClose fd =>
    rw [NetServer.step] at hstep
    split at hstep
    next c hfile =>
      obtain rfl := Option.some.inj hstep
      have hidle : s.idlefd ≠ fd := by
        rintro rfl
        cases h.idle.symm.trans hfile
      exact ⟨⟨⟨(update_of_ne hidle ..).trans h.idle, h.order, h.added, h.closed⟩, h.bounds,
        h.index⟩, hrunning⟩
    next => cases hstep

/-- **A step that fails** ends the process. -/
theorem step_fails (hfails : a.Fails s.listenfd) (hstep : s.step a = some t) :
    t.control = .exited := by
  cases a with
  | waitError errno =>
    have herrno : errno ≠ EINTR := hfails
    rw [NetServer.step] at hstep
    split at hstep
    · rw [if_neg herrno] at hstep
      obtain rfl := Option.some.inj hstep
      rfl
    · cases hstep
  | event fd r =>
    cases r with
    | connfd connfd => cases hfails
    | error errno fd' idlefd =>
      have hlisten : fd = s.listenfd := hfails
      rw [NetServer.step] at hstep
      split at hstep
      next left _ =>
        rw [if_pos hlisten] at hstep
        exact (onListen_error hstep).1
      next => cases hstep
  | ready _ | connect _ | reactorClose _ => cases hfails

end NetServer

/-- The descriptors when `Run` is called. -/
structure Start where
  listenfd : ℤ
  idlefd : ℤ
  file : ℤ → Option File
  idle : file idlefd = some .null

namespace Start

variable (start : Start)

/-- The server when its loop begins. -/
def netServer : NetServer where
  kernel := { file := start.file, pending := [], added := [], closed := [] }
  listenfd := start.listenfd
  idlefd := start.idlefd
  reactorIndex := -1
  eventsSize := 32
  control := .running 0
  connected := []
  results := []

theorem inv_netServer : start.netServer.Inv :=
  ⟨⟨start.idle, rfl, rfl, rfl⟩, ⟨le_rfl, show (-1 : ℤ) < 4 by decide⟩, rfl⟩

/-- In all states of the run the server is running and everything is as it should be. -/
def KeepsRunning (as : List Action) : Prop :=
  ∀ bs t, bs <+: as → exec NetServer.step start.netServer bs = some t → t.Right

/-- The server keeps running exactly as long as nothing fails. -/
theorem keepsRunning_iff_fails (as : List Action) : start.KeepsRunning as ↔
    Always NetServer.step (fun s a ↦ ¬ (a.Fails s.listenfd ∧ (s.step a).isSome))
      start.netServer as := by
  refine forall_prefix_iff (I := fun s ↦ s.Inv ∧ s.Running) (fun s h ↦ ⟨h.1.toKept, h.2⟩)
    (fun s a t h hnot hstep ↦ ?_) (fun s a _ hfails ↦ ?_) ⟨start.inv_netServer, 0, rfl⟩
  · refine h.1.step h.2 (fun hfails ↦ hnot ⟨hfails, ?_⟩) hstep
    rw [hstep]
    rfl
  · obtain ⟨hfails, hsome⟩ := not_not.1 hfails
    obtain ⟨t, ht⟩ := Option.isSome_iff_exists.1 hsome
    refine ⟨t, ht, fun hright ↦ ?_⟩
    obtain ⟨left, hrunning⟩ := hright.2
    cases hrunning.symm.trans (NetServer.step_fails hfails ht)

end Start

/-- `epoll_wait` is interrupted at most, and `accept4` runs out of descriptors at most. -/
def Action.Expected : Action → Prop
  | .waitError errno => errno = EINTR
  | .event _ (.error errno _ _) => errno = EMFILE
  | _ => True

/-- `accept4` runs out of descriptors, where that is possible. -/
def NetServer.RunsOut (s : NetServer) (a : Action) : Prop :=
  (∃ fd idlefd, a = .event s.listenfd (.error EMFILE fd idlefd)) ∧ (s.step a).isSome

theorem fails_iff {a : Action} (h : a.Expected) (listenfd : ℤ) : a.Fails listenfd ↔
    ∃ fd idlefd, a = .event listenfd (.error EMFILE fd idlefd) := by
  cases a with
  | waitError errno => exact iff_of_false (fun hfails ↦ hfails h) nofun
  | event fd r =>
    cases r with
    | connfd connfd => exact iff_of_false id nofun
    | error errno fd' idlefd =>
      have herrno : errno = EMFILE := h
      subst herrno
      refine ⟨?_, ?_⟩
      · rintro rfl
        exact ⟨fd', idlefd, rfl⟩
      · rintro ⟨_, _, heq⟩
        exact (Action.event.inj heq).1
  | ready _ | connect _ | reactorClose _ => exact iff_of_false id nofun

/-- **The server** keeps running in exactly the runs in which `accept4` does not run out of
descriptors. -/
theorem keepsRunning_iff (start : Start) {as : List Action} (h : ∀ a ∈ as, a.Expected) :
    start.KeepsRunning as ↔
      Always NetServer.step (fun s a ↦ ¬ s.RunsOut a) start.netServer as := by
  rw [start.keepsRunning_iff_fails]
  exact always_congr_of_mem fun s a ha ↦ not_congr (and_congr_left fun _ ↦
    fails_iff (h a ha) s.listenfd)

/-- The sockets are 3, and 4 is the idle descriptor. -/
def testStart : Start where
  listenfd := 3
  idlefd := 4
  file := update (update (fun _ ↦ none) 3 (some .other)) 4 (some .null)
  idle := rfl

/-- A connection is accepted. -/
theorem keepsRunning_test :
    testStart.KeepsRunning [.connect 0, .ready 1, .event 3 (.connfd 5)] := by
  refine (keepsRunning_iff testStart ?_).2 ?_
  · simp [Action.Expected]
  · refine (always_congr_of_mem fun s a ha ↦ iff_true_intro ?_).2
      (always_of_forall (fun _ _ ↦ trivial) _ _)
    rintro ⟨⟨fd, idlefd, rfl⟩, -⟩
    simp at ha

/-- Without a descriptor for the first connection the server stops. -/
theorem not_forall_keepsRunning : ¬ ∀ (start : Start) (as : List Action),
    (∀ a ∈ as, a.Expected) → start.KeepsRunning as := by
  intro h
  have hexpected : ∀ a ∈ [Action.connect 0, .ready 1, .event 3 (.error EMFILE 4 4)],
      a.Expected := by
    simp [Action.Expected]
  have hrun := (testStart.keepsRunning_iff_fails _).1 (h testStart _ hexpected)
  exact ((hrun.2 _ rfl).2 _ rfl).1 ⟨rfl, rfl⟩

end Reactor
