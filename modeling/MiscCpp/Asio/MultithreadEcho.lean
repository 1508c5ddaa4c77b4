import Mathlib.Algebra.BigOperators.Group.Finset.Piecewise
import Mathlib.Algebra.Order.BigOperators.Group.Finset
import Mathlib.Data.Fintype.Basic
import MiscCpp.Asio.Echo

/-!
# The echo server with several threads

`Session` and `Server` of `asio/echo/multithread_echo_server.cc`, whose handlers are run by any
number of threads, and the operations of the sessions complete in any order.

A session has one operation at a time, and the closure of its handler keeps the session alive by a
`shared_ptr`. The next operation is started within a handler, so it can complete, and its handler be
taken by another thread, before the first handler has returned; that is what the strand is for.

`Inv` counts the owners of each session and says what an operation holds back of the bytes that have
been read. From it: no session is used after its end, and one is freed when nothing can use it again
(`lifetime_of_exec`); every client gets back what it has sent, in order and once
(`echoed_of_exec`).
-/

open AsioEcho (Buffer ErrorCode take_fill)
open Function Machine

namespace MultithreadEcho

/-! ### The program -/

/-- The handlers of a session, with the arguments they are called with. -/
inductive Handler where
  | read (ec : ErrorCode) (len : ℕ)
  | write (ec : ErrorCode)

/-- The operation of a session: `async_write` goes on until it has written everything, and a handler
is queued when its operation has completed. -/
inductive Op where
  | idle
  | read
  | write (len done : ℕ)
  | queued (h : Handler)

/-- A session with the number of its owners, and what has been sent, read and written back. -/
structure Session where
  data : Buffer
  op : Op
  refs : ℕ
  sent : List UInt8
  received : List UInt8
  written : List UInt8

/-- What a thread does in `io_context.run()`. A handler that returns destroys its closure. -/
inductive Task where
  | idle
  | called (i : ℕ) (h : Handler)
  | returning (i : ℕ)
  | accepting
  | acceptReturning (i : ℕ)

/-- Where `do_accept` is, with the session that gets the connection: it waits, its handler is
queued or called, or the handler has called `start` and will call `do_accept` again. -/
inductive Accept where
  | waiting (i : ℕ)
  | queued (i : ℕ) (ec : ErrorCode)
  | called (i : ℕ) (ec : ErrorCode)
  | next (i : ℕ)

/-- `size` sessions have been made. `fault` is set when one is used that has been freed. -/
structure Server (Tid : Type) where
  session : ℕ → Session
  size : ℕ
  accept : Accept
  task : Tid → Task
  fault : Bool

/-- The handler is called with an error. -/
def Handler.failed : Handler → Bool
  | .read ec _ | .write ec => ec ≠ 0

/-- `do_write` after a read, and `do_read` after a write. -/
def Handler.next : Handler → Op
  | .read _ len => .write len 0
  | .write _ => .read

/-- The session that the handler of `do_accept` has not yet started. -/
def Accept.unstarted : Accept → Option ℕ
  | .waiting i | .queued i _ | .called i _ => some i
  | .next _ => none

/-- The session whose strand the thread is in. -/
def Task.strand : Task → Option ℕ
  | .called i _ | .returning i => some i
  | _ => none

/-- A session as `make_shared` leaves it, with an array that is not initialized. -/
def Session.new (data : Buffer) : Session := ⟨data, .idle, 1, [], [], []⟩

/-- There is one session, for the first connection. -/
def initial {Tid : Type} (data : Buffer) : Server Tid where
  session := update (fun _ ↦ { Session.new data with refs := 0 }) 0 (.new data)
  size := 1
  accept := .waiting 0
  task _ := .idle
  fault := false

/-- What the kernel does, and what the threads do. -/
inductive Event (Tid : Type) where
  | send (i : ℕ) (bytes : List UInt8)
  | readDone (i n : ℕ)
  | readFail (i : ℕ) (ec : ErrorCode)
  | writeSome (i n : ℕ)
  | writeFail (i : ℕ) (ec : ErrorCode)
  | acceptDone (ec : ErrorCode)
  | run (t : Tid) (i : ℕ)
  | runAccept (t : Tid)
  | turn (t : Tid) (data : Buffer)

variable {Tid : Type} [DecidableEq Tid]

namespace Server

variable (st : Server Tid)

/-- The session is accessed. -/
def use (i : ℕ) (s : Session) : Server Tid :=
  { st with session := update st.session i s, fault := st.fault || (st.session i).refs == 0 }

/-- A thread goes on with a task. -/
def goto (t : Tid) (task : Task) : Server Tid := { st with task := update st.task t task }

/-- A kernel event for the operation of a session. -/
def complete (i : ℕ) : Event Tid → Option Session
  | .readDone _ n =>
    let s := st.session i
    match s.op with
    | .read =>
      if h : 0 < n ∧ n ≤ 1024 ∧ s.received.length + n ≤ s.sent.length then
        let bytes := (s.sent.drop s.received.length).take n
        some { s with
          data := s.data.fill bytes ((List.length_take_le ..).trans h.2.1)
          received := s.received ++ bytes
          op := .queued (.read 0 n) }
      else none
    | _ => none
  | .readFail _ ec =>
    let s := st.session i
    match s.op with
    | .read => if ec ≠ 0 then some { s with op := .queued (.read ec 0) } else none
    | _ => none
  | .writeSome _ n =>
    let s := st.session i
    match s.op with
    | .write len done =>
      if 0 < n ∧ done + n ≤ len then
        some { s with
          written := s.written ++ ((s.data.bytes.take len).drop done).take n
          op := if done + n = len then .queued (.write 0) else .write len (done + n) }
      else none
    | _ => none
  | .writeFail _ ec =>
    let s := st.session i
    match s.op with
    | .write _ _ => if ec ≠ 0 then some { s with op := .queued (.write ec) } else none
    | _ => none
  | _ => none

/-- `shared_from_this()`, and the next operation with it. -/
def start (i : ℕ) (op : Op) : Server Tid :=
  let s := st.session i
  st.use i { s with op := op, refs := s.refs + 1 }

/-- The closure of a handler is destroyed. -/
def release (i : ℕ) : Server Tid :=
  let s := st.session i
  st.use i { s with refs := s.refs - 1 }

/-- `do_accept`, whose new session is owned by the closure of the handler. -/
def doAccept (data : Buffer) : Server Tid :=
  { st with
    session := update st.session st.size (.new data)
    size := st.size + 1
    accept := .waiting st.size }

/-- The next step of the handler that the thread runs. -/
def turn (t : Tid) (data : Buffer) : Option (Server Tid) :=
  match st.task t with
  | .idle => none
  | .called i h =>
    if h.failed then some (st.goto t (.returning i))
    else some ((st.start i h.next).goto t (.returning i))
  | .returning i | .acceptReturning i => some ((st.release i).goto t .idle)
  | .accepting =>
    match st.accept with
    | .called i ec =>
      if ec = 0 then some { st.start i .read with accept := .next i }
      else some { st with accept := .next i }
    | .next i => some ((st.doAccept data).goto t (.acceptReturning i))
    | _ => none

end Server

variable [Fintype Tid]

/-- The server after one event: of a client, of the network or of a thread. -/
def Server.step (st : Server Tid) : Event Tid → Option (Server Tid)
  | .send i bytes =>
    let s := st.session i
    if i < st.size then
      some { st with session := update st.session i { s with sent := s.sent ++ bytes } }
    else none
  | .acceptDone ec =>
    match st.accept with
    | .waiting i => some { st with accept := .queued i ec }
    | _ => none
  | .run t i =>
    let s := st.session i
    match st.task t, s.op with
    | .idle, .queued h =>
      if ∀ u, (st.task u).strand ≠ some i then
        some ((st.use i { s with op := .idle }).goto t (.called i h))
      else none
    | _, _ => none
  | .runAccept t =>
    match st.task t, st.accept with
    | .idle, .queued i ec => some { st.goto t .accepting with accept := .called i ec }
    | _, _ => none
  | .turn t data => st.turn t data
  | .readDone i n => (st.complete i (.readDone i n)).map (st.use i)
  | .readFail i ec => (st.complete i (.readFail i ec)).map (st.use i)
  | .writeSome i n => (st.complete i (.writeSome i n)).map (st.use i)
  | .writeFail i ec => (st.complete i (.writeFail i ec)).map (st.use i)

/-! ### The owners -/

/-- The closures that an operation, a thread and `do_accept` hold of a session. -/
def Op.refs : Op → ℕ
  | .idle => 0
  | _ => 1

theorem Op.refs_eq_zero {op : Op} : op.refs = 0 ↔ op = .idle := by
  rcases op with - | - | - | - <;> simp only [refs, reduceCtorEq, one_ne_zero]

/-- The references to a session that a task holds. -/
def Task.refs (i : ℕ) : Task → ℕ
  | .called j _ | .returning j | .acceptReturning j => if j = i then 1 else 0
  | _ => 0

/-- The references to a session that the acceptor holds. -/
def Accept.refs (i : ℕ) : Accept → ℕ
  | .waiting j | .queued j _ | .called j _ | .next j => if j = i then 1 else 0

/-- The threads that hold a session. -/
def holders (task : Tid → Task) (i : ℕ) : ℕ := ∑ t, (task t).refs i

theorem holders_update (task : Tid → Task) (t : Tid) (x : Task) (i : ℕ) :
    holders (update task t x) i + (task t).refs i = holders task i + x.refs i := by
  have hsum (f : Tid → ℕ) := Finset.sum_eq_add_sum_sdiff_singleton_of_mem (Finset.mem_univ t) f
  have hrest : ∑ u ∈ Finset.univ \ {t}, (update task t x u).refs i =
      ∑ u ∈ Finset.univ \ {t}, (task u).refs i :=
    Finset.sum_congr rfl fun u hu ↦ by
      rw [update_of_ne (Finset.notMem_singleton.1 (Finset.mem_sdiff.1 hu).2)]
  rw [holders, holders, hsum, hsum fun u ↦ (task u).refs i, hrest, update_self]
  omega

omit [DecidableEq Tid] in
theorem refs_le_holders (task : Tid → Task) (t : Tid) (i : ℕ) :
    (task t).refs i ≤ holders task i :=
  Finset.single_le_sum (f := fun u ↦ (task u).refs i) (fun _ _ ↦ Nat.zero_le _)
    (Finset.mem_univ t)

/-! ### The bytes -/

/-- What a handler relies on when it is called. -/
def Session.Calls (s : Session) : Handler → Prop
  | .read ec n => ec = 0 → 0 < n ∧ n ≤ 1024 ∧ s.received = s.written ++ s.data.bytes.take n
  | .write ec => ec = 0 → s.written = s.received

/-- What has been read and not been written is in the buffer, and it is what is to be written. -/
def Session.Pending (s : Session) : Prop :=
  match s.op with
  | .idle => True
  | .read => s.written = s.received
  | .write n done => done < n ∧ n ≤ 1024 ∧
      s.received = s.written ++ (s.data.bytes.take n).drop done
  | .queued h => s.Calls h

/-- What is written has been received, and what is received has been sent, in order. -/
structure Session.Ok (s : Session) : Prop where
  written : s.written <+: s.received
  received : s.received <+: s.sent
  pending : s.Pending

/-- **The server.** -/
structure Inv (st : Server Tid) : Prop where
  refs : ∀ i, (st.session i).refs =
    (st.session i).op.refs + holders st.task i + st.accept.refs i
  fresh : ∀ i, st.size ≤ i → (st.session i).refs = 0
  ok : ∀ i, (st.session i).Ok
  called : ∀ t i h, st.task t = .called i h →
    (st.session i).op = .idle ∧ (st.session i).Calls h
  strand : ∀ t u i, (st.task t).strand = some i → (st.task u).strand = some i → t = u
  unstarted : ∀ i, st.accept.unstarted = some i →
    (st.session i).refs = 1 ∧ (st.session i).received = []
  fault : st.fault = false

variable {st st' : Server Tid} {t : Tid} {i : ℕ} {s : Session}

omit [DecidableEq Tid] in
/-- A session whose operation or handler has been started is no longer in the hands of `do_accept`
alone. -/
theorem Inv.ne_unstarted (h : Inv st)
    (hi : (st.session i).op.refs + holders st.task i ≠ 0) : st.accept.unstarted ≠ some i := by
  intro hun
  have hrefs := h.refs i
  rw [(h.unstarted i hun).1] at hrefs
  have haccept : st.accept.refs i = 1 := by
    generalize st.accept = a at hun
    rcases a with j | ⟨j, ec⟩ | ⟨j, ec⟩ | j <;> cases hun <;> exact if_pos rfl
  omega

omit [DecidableEq Tid] in
/-- **An event of a session**: its owners stay the same. -/
theorem Inv.session (h : Inv st) (hrefs : s.refs = (st.session i).refs)
    (hop : s.op.refs = (st.session i).op.refs) (hok : s.Ok)
    (hcalled : (st.session i).op = .idle → s.op = .idle ∧ s.received = (st.session i).received ∧
      ∀ hd, (st.session i).Calls hd → s.Calls hd) :
    Inv { st with session := update st.session i s } := by
  refine ⟨(forall_update_iff st.session fun j s ↦
      s.refs = s.op.refs + holders st.task j + st.accept.refs j).2 ⟨?_, fun j _ ↦ h.refs j⟩,
    (forall_update_iff st.session fun j s ↦ st.size ≤ j → s.refs = 0).2
      ⟨fun hi ↦ hrefs.trans (h.fresh i hi), fun j _ ↦ h.fresh j⟩,
    (forall_update_iff st.session fun _ s ↦ s.Ok).2 ⟨hok, fun j _ ↦ h.ok j⟩,
    fun u ↦ (forall_update_iff st.session fun j s ↦
      ∀ hd, st.task u = .called j hd → s.op = .idle ∧ s.Calls hd).2
        ⟨fun hd hu ↦ ?_, fun j _ ↦ h.called u j⟩,
    h.strand,
    (forall_update_iff st.session fun j s ↦
      st.accept.unstarted = some j → s.refs = 1 ∧ s.received = []).2
        ⟨fun hi ↦ ?_, fun j _ ↦ h.unstarted j⟩,
    h.fault⟩
  · rw [hrefs, hop]
    exact h.refs i
  · obtain ⟨hidle, hcalls⟩ := h.called u i hd hu
    obtain ⟨hop, -, hkeep⟩ := hcalled hidle
    exact ⟨hop, hkeep hd hcalls⟩
  · obtain ⟨hone, hnil⟩ := h.unstarted i hi
    have hidle : (st.session i).op = .idle := by
      by_contra hbusy
      exact h.ne_unstarted (i := i)
        (fun hzero ↦ hbusy (Op.refs_eq_zero.1 (Nat.add_eq_zero_iff.1 hzero).1)) hi
    rw [hrefs, (hcalled hidle).2.1]
    exact ⟨hone, hnil⟩

/-- A thread enters a strand in which there is no other one. -/
theorem Inv.strand_update (h : Inv st) {x : Task}
    (hx : ∀ j, x.strand = some j → ∀ u ≠ t, (st.task u).strand ≠ some j) (u v : Tid) (j : ℕ)
    (hu : (update st.task t x u).strand = some j) (hv : (update st.task t x v).strand = some j) :
    u = v := by
  rcases eq_or_ne u t with rfl | hut <;> rcases eq_or_ne v u with rfl | hvu
  · rfl
  · rw [update_self] at hu
    rw [update_of_ne hvu] at hv
    exact absurd hv (hx j hu v hvu)
  · rfl
  · rw [update_of_ne hut] at hu
    rcases eq_or_ne v t with rfl | hvt
    · rw [update_self] at hv
      exact absurd hu (hx j hv u hut)
    · rw [update_of_ne hvt] at hv
      exact h.strand u v j hu hv

/-- **A step of a thread**, from what it does to the owners of the session and to its bytes. -/
theorem Inv.goto (h : Inv st) {x : Task} {accept : Accept} (hi : i < st.size)
    (hrefs : s.refs + ((st.session i).op.refs + (st.task t).refs i + st.accept.refs i) =
      (st.session i).refs + (s.op.refs + x.refs i + accept.refs i))
    (hothers : ∀ j ≠ i, x.refs j + accept.refs j = (st.task t).refs j + st.accept.refs j)
    (hok : s.Ok) (hx : ∀ j hd, x = .called j hd → j = i ∧ s.op = .idle ∧ s.Calls hd)
    (hcalled : ∀ u hd, u ≠ t → st.task u = .called i hd → s.op = .idle ∧ s.Calls hd)
    (hstrand : ∀ j, x.strand = some j → ∀ u ≠ t, (st.task u).strand ≠ some j)
    (hunstarted : ∀ j, accept.unstarted = some j → st.accept.unstarted = some j ∧
      (j = i → s.refs = 1 ∧ s.received = [])) :
    Inv { st with
      session := update st.session i s, task := update st.task t x, accept := accept } := by
  have hbalance (j : ℕ) := holders_update st.task t x j
  refine ⟨(forall_update_iff st.session fun j s ↦
      s.refs = s.op.refs + holders (update st.task t x) j + accept.refs j).2
        ⟨?_, fun j hne ↦ ?_⟩,
    (forall_update_iff st.session fun j s ↦ st.size ≤ j → s.refs = 0).2
      ⟨fun hle ↦ absurd hi hle.not_gt, fun j _ ↦ h.fresh j⟩,
    (forall_update_iff st.session fun _ s ↦ s.Ok).2 ⟨hok, fun j _ ↦ h.ok j⟩,
    (forall_update_iff st.task fun _ y ↦
      ∀ j hd, y = .called j hd → (update st.session i s j).op = .idle ∧
        (update st.session i s j).Calls hd).2 ⟨fun j hd hj ↦ ?_, fun u hut ↦ ?_⟩,
    h.strand_update hstrand,
    (forall_update_iff st.session fun j s ↦
      accept.unstarted = some j → s.refs = 1 ∧ s.received = []).2
        ⟨fun hj ↦ (hunstarted i hj).2 rfl, fun j _ hj ↦ h.unstarted j (hunstarted j hj).1⟩,
    h.fault⟩
  · have := hbalance i
    have := h.refs i
    omega
  · have := hbalance j
    have := h.refs j
    have := hothers j hne
    omega
  · obtain ⟨rfl, hcalls⟩ := hx j hd hj
    rw [update_self]
    exact hcalls
  · exact (forall_update_iff st.session fun j s ↦
      ∀ hd, st.task u = .called j hd → s.op = .idle ∧ s.Calls hd).2
        ⟨fun hd ↦ hcalled u hd hut, fun j _ ↦ h.called u j⟩

/-- The same without a use of the session. -/
theorem Inv.goto' (h : Inv st) (x : Task) (accept : Accept)
    (hrefs : ∀ j, x.refs j + accept.refs j = (st.task t).refs j + st.accept.refs j)
    (hx : ∀ j hd, x ≠ .called j hd)
    (hstrand : ∀ j, x.strand = some j → (st.task t).strand = some j)
    (hunstarted : ∀ j, accept.unstarted = some j → st.accept.unstarted = some j) :
    Inv { st with task := update st.task t x, accept := accept } := by
  refine ⟨fun j ↦ ?_, h.fresh, h.ok,
    (forall_update_iff st.task fun _ y ↦
      ∀ j hd, y = .called j hd → (st.session j).op = .idle ∧ (st.session j).Calls hd).2
        ⟨fun j hd hj ↦ absurd hj (hx j hd), fun u _ ↦ h.called u⟩,
    h.strand_update fun j hj u hut hu ↦ hut (h.strand u t j hu (hstrand j hj)),
    fun j hj ↦ h.unstarted j (hunstarted j hj), h.fault⟩
  have := holders_update st.task t x j
  have := h.refs j
  have := hrefs j
  dsimp only
  omega

/-! ### The steps -/

omit [DecidableEq Tid] in
theorem Inv.refs_ne_zero (h : Inv st)
    (hi : (st.session i).op.refs + holders st.task i + st.accept.refs i ≠ 0) :
    (st.session i).refs ≠ 0 := (h.refs i).trans_ne hi

omit [DecidableEq Tid] in
theorem Inv.lt_size (h : Inv st) (hi : (st.session i).refs ≠ 0) : i < st.size :=
  Nat.lt_of_not_le fun hle ↦ hi (h.fresh i hle)

omit [DecidableEq Tid] [Fintype Tid] in
theorem use_eq (hi : (st.session i).refs ≠ 0) (s : Session) :
    st.use i s = { st with session := update st.session i s } := by
  have hfault : (st.fault || (st.session i).refs == 0) = st.fault := by
    rw [beq_false_of_ne hi, Bool.or_false]
  rw [Server.use, hfault]

theorem Session.Ok.readDone {n : ℕ} (h : s.Ok) (hop : s.op = .read) (hpos : 0 < n) (hle : n ≤ 1024)
    (hmore : s.received.length + n ≤ s.sent.length)
    (hfill : ((s.sent.drop s.received.length).take n).length ≤ 1024) :
    Session.Ok { s with
      data := s.data.fill ((s.sent.drop s.received.length).take n) hfill
      received := s.received ++ (s.sent.drop s.received.length).take n
      op := .queued (.read 0 n) } := by
  have hpending := h.pending
  rw [Session.Pending, hop] at hpending
  have hlength : ((s.sent.drop s.received.length).take n).length = n := by
    rw [List.length_take, List.length_drop]
    omega
  refine ⟨h.written.trans (List.prefix_append ..), ?_, fun _ ↦ ⟨hpos, hle, ?_⟩⟩
  · have htake := List.prefix_iff_eq_take.1 h.received
    show s.received ++ _ <+: s.sent
    rw [List.prefix_iff_eq_take, List.length_append, hlength, List.take_add, ← htake]
  · have hfilled := take_fill s.data hfill
    rw [hlength] at hfilled
    show s.received ++ _ = s.written ++ _
    rw [hpending, hfilled]

theorem Session.Ok.writeSome {len done n : ℕ} (h : s.Ok) (hop : s.op = .write len done)
    (hle : done + n ≤ len) :
    Session.Ok { s with
      written := s.written ++ ((s.data.bytes.take len).drop done).take n
      op := if done + n = len then .queued (.write 0) else .write len (done + n) } := by
  have hpending := h.pending
  rw [Session.Pending, hop] at hpending
  obtain ⟨-, hlen, hreceived⟩ := hpending
  have hsplit : s.received = s.written ++ ((s.data.bytes.take len).drop done).take n ++
      (s.data.bytes.take len).drop (done + n) := by
    rw [List.append_assoc, ← List.drop_drop, List.take_append_drop, hreceived]
  refine ⟨hsplit ▸ List.prefix_append .., h.received, ?_⟩
  rw [Session.Pending]
  dsimp only
  split
  next heq => split at heq <;> cases heq
  next heq => split at heq <;> cases heq
  next heq =>
    split at heq
    next => cases heq
    next hne =>
      cases heq
      exact ⟨by omega, hlen, hsplit⟩
  next heq =>
    split at heq
    next hend =>
      cases heq
      intro _
      have hnil : (s.data.bytes.take len).drop (done + n) = [] :=
        List.drop_eq_nil_of_le (by rw [List.length_take]; omega)
      rw [hnil, List.append_nil] at hsplit
      exact hsplit.symm
    next => cases heq

omit [DecidableEq Tid] [Fintype Tid] in
/-- What the kernel does for an operation. -/
theorem complete_eq_some {e : Event Tid} (h : st.complete i e = some s) :
    s.refs = (st.session i).refs ∧ (st.session i).op.refs = 1 ∧ s.op.refs = 1 ∧
      ((st.session i).Ok → s.Ok) := by
  rw [Server.complete.eq_def] at h
  split at h
  next n =>
    dsimp only at h
    split at h
    next hop =>
      split at h
      next hcond =>
        cases h
        exact ⟨rfl, by rw [hop]; rfl, rfl, fun hok ↦ hok.readDone hop hcond.1 hcond.2.1 hcond.2.2 _⟩
      next => cases h
    next => cases h
  next ec =>
    dsimp only at h
    split at h
    next hop =>
      split at h
      next hec =>
        cases h
        exact ⟨rfl, by rw [hop]; rfl, rfl, fun hok ↦
          ⟨hok.written, hok.received, fun hzero ↦ absurd hzero hec⟩⟩
      next => cases h
    next => cases h
  next n =>
    dsimp only at h
    split at h
    next len done hop =>
      split at h
      next hcond =>
        cases h
        refine ⟨rfl, by rw [hop]; rfl, ?_, fun hok ↦ hok.writeSome hop hcond.2⟩
        dsimp only
        split <;> rfl
      next => cases h
    next => cases h
  next ec =>
    dsimp only at h
    split at h
    next hop =>
      split at h
      next hec =>
        cases h
        exact ⟨rfl, by rw [hop]; rfl, rfl, fun hok ↦
          ⟨hok.written, hok.received, fun hzero ↦ absurd hzero hec⟩⟩
      next => cases h
    next => cases h
  next => cases h

omit [DecidableEq Tid] in
theorem Inv.complete (h : Inv st) {e : Event Tid} (hs : st.complete i e = some s) :
    Inv (st.use i s) := by
  obtain ⟨hrefs, hbusy, hbusy', hok⟩ := complete_eq_some hs
  rw [use_eq (h.refs_ne_zero (by omega))]
  refine h.session hrefs (hbusy'.trans hbusy.symm) (hok (h.ok i)) fun hidle ↦ ?_
  rw [hidle] at hbusy
  cases hbusy

theorem Inv.run (h : Inv st) {hd : Handler} (htask : st.task t = .idle)
    (hop : (st.session i).op = .queued hd) (hfree : ∀ u, (st.task u).strand ≠ some i) :
    Inv ((st.use i { st.session i with op := .idle }).goto t (.called i hd)) := by
  have hbusy : (st.session i).op.refs = 1 := by
    rw [hop]
    rfl
  have hlive := h.refs_ne_zero (i := i) (by omega)
  have hok := h.ok i
  have hcalls := hok.pending
  rw [Session.Pending, hop] at hcalls
  rw [use_eq hlive]
  refine h.goto (h.lt_size hlive) ?_ (fun j hne ↦ ?_) ⟨hok.written, hok.received, trivial⟩ ?_
    (fun u hd hu hcalled ↦ ?_) (fun j hj u _ ↦ ?_) fun j hj ↦ ⟨hj, ?_⟩
  · rw [hbusy, htask]
    show (st.session i).refs + (1 + 0 + st.accept.refs i) =
      (st.session i).refs + (0 + (if i = i then 1 else 0) + st.accept.refs i)
    rw [if_pos rfl]
  · rw [htask]
    show (if i = j then 1 else 0) + _ = 0 + _
    rw [if_neg hne.symm]
  · rintro j hd ⟨⟩
    exact ⟨rfl, rfl, hcalls⟩
  · exact absurd (by rw [hcalled]; rfl) (hfree u)
  · cases hj
    exact hfree u
  · rintro rfl
    exact absurd hj (h.ne_unstarted (by omega))

/-- The operations that a handler and `start` may begin. -/
theorem Inv.start (h : Inv st) (op : Op) (x : Task) (accept : Accept)
    (htask : (st.task t).refs i + st.accept.refs i ≠ 0)
    (hidle : (st.session i).op = .idle) (hop : op.refs = 1)
    (hok : Session.Ok { st.session i with op := op, refs := (st.session i).refs + 1 })
    (hrefs : ∀ j, x.refs j + accept.refs j = (st.task t).refs j + st.accept.refs j)
    (hx : ∀ j hd, x ≠ .called j hd)
    (hcalled : ∀ u hd, u ≠ t → st.task u ≠ .called i hd)
    (hstrand : ∀ j, x.strand = some j → (st.task t).strand = some j)
    (hunstarted : ∀ j, accept.unstarted = some j → st.accept.unstarted = some j ∧ j ≠ i) :
    Inv { st.start i op with task := update st.task t x, accept := accept } := by
  have hholds := refs_le_holders st.task t i
  have hlive := h.refs_ne_zero (i := i) (by omega)
  have hfree : (st.session i).op.refs = 0 := Op.refs_eq_zero.2 hidle
  rw [Server.start, use_eq hlive]
  refine h.goto (h.lt_size hlive) ?_ (fun j _ ↦ hrefs j) hok
    (fun j hd hj ↦ absurd hj (hx j hd)) (fun u hd hu hcall ↦ absurd hcall (hcalled u hd hu))
    (fun j hj u hut hu ↦ hut (h.strand u t j hu (hstrand j hj))) fun j hj ↦ ?_
  · have := hrefs i
    dsimp only
    omega
  · obtain ⟨hun, hne⟩ := hunstarted j hj
    exact ⟨hun, fun heq ↦ absurd heq hne⟩

/-- A closure is destroyed. -/
theorem Inv.release (h : Inv st)
    (htask : ∀ j, (st.task t).refs j = if i = j then 1 else 0) :
    Inv ((st.release i).goto t .idle) := by
  have hone : (st.task t).refs i = 1 := (htask i).trans (if_pos rfl)
  have hholds := refs_le_holders st.task t i
  have hlive := h.refs_ne_zero (i := i) (by omega)
  have hok := h.ok i
  rw [Server.release, use_eq hlive]
  refine h.goto (h.lt_size hlive) ?_ (fun j hne ↦ ?_) ⟨hok.written, hok.received, hok.pending⟩
    (fun j hd hj ↦ nomatch hj) (fun u hd _ hu ↦ h.called u i hd hu) (fun j hj ↦ nomatch hj)
    fun j hj ↦ ⟨hj, ?_⟩
  · show (st.session i).refs - 1 + ((st.session i).op.refs + (st.task t).refs i +
      st.accept.refs i) = (st.session i).refs + ((st.session i).op.refs + 0 + st.accept.refs i)
    omega
  · rw [htask, if_neg hne.symm]
    rfl
  · rintro rfl
    exact absurd hj (h.ne_unstarted (by omega))

omit [DecidableEq Tid] [Fintype Tid] in
/-- The operation that follows a handler goes on with what the handler was called with. -/
theorem next_pending {hd : Handler} (hgood : ¬ hd.failed) (h : s.Calls hd) {refs : ℕ} :
    Session.Pending { s with op := hd.next, refs := refs } := by
  rcases hd with ⟨ec, n⟩ | ec
  · exact h (not_not.1 fun hne ↦ hgood (decide_eq_true hne))
  · exact h (not_not.1 fun hne ↦ hgood (decide_eq_true hne))

theorem Inv.called_turn (h : Inv st) {hd : Handler} (htask : st.task t = .called i hd) :
    Inv (if hd.failed then st.goto t (.returning i)
      else (st.start i hd.next).goto t (.returning i)) := by
  obtain ⟨hidle, hcalls⟩ := h.called t i hd htask
  have hrefs (j : ℕ) : (Task.returning i).refs j = (st.task t).refs j := by
    rw [htask]
    rfl
  have hhold : (st.task t).refs i = 1 := by
    rw [htask]
    exact if_pos rfl
  have hstrand (j : ℕ) (hj : (Task.returning i).strand = some j) :
      (st.task t).strand = some j := by
    rw [htask]
    exact hj
  split
  next => exact h.goto' _ _ (fun j ↦ by rw [hrefs]) (fun _ _ ↦ nofun) hstrand fun _ hj ↦ hj
  next hgood =>
    have hholds := refs_le_holders st.task t i
    refine h.start _ _ _ (by omega) hidle ?_ ?_ (fun j ↦ by rw [hrefs]; rfl) (fun _ _ ↦ nofun) ?_
      hstrand fun j hj ↦ ⟨hj, ?_⟩
    · rcases hd with - | - <;> rfl
    · refine ⟨(h.ok i).written, (h.ok i).received, ?_⟩
      exact next_pending hgood hcalls
    · intro u hd' hut hu
      exact hut (h.strand u t i (by rw [hu]; rfl) (by rw [htask]; rfl))
    · rintro rfl
      exact absurd hj (h.ne_unstarted (by omega))

theorem Inv.accepting_turn (h : Inv st) {ec : ErrorCode} (htask : st.task t = .accepting)
    (haccept : st.accept = .called i ec) :
    Inv (if ec = 0 then { st.start i .read with accept := .next i }
      else { st with accept := .next i }) := by
  obtain ⟨hone, hnil⟩ := h.unstarted i (by rw [haccept]; rfl)
  have hself : update st.task t Task.accepting = st.task := by rw [← htask, update_eq_self]
  have hrefs (j : ℕ) : Task.accepting.refs j + (Accept.next i).refs j =
      (st.task t).refs j + st.accept.refs j := by
    rw [htask, haccept]
    rfl
  have hbalance := h.refs i
  have hhold : st.accept.refs i = 1 := by
    rw [haccept]
    exact if_pos rfl
  have hok := h.ok i
  split
  next =>
    have hinv := h.start (t := t) .read .accepting (.next i) (by omega)
      (Op.refs_eq_zero.1 (by omega)) rfl ⟨hok.written, hok.received, ?_⟩ hrefs (fun _ _ ↦ nofun) ?_
      (fun _ ↦ nofun) fun _ ↦ nofun
    · rw [hself] at hinv
      exact hinv
    · show (st.session i).written = (st.session i).received
      rw [hnil]
      exact List.prefix_nil.1 (hnil ▸ hok.written)
    · intro u hd hut hu
      have hholds := refs_le_holders st.task u i
      rw [hu] at hholds
      have hpos : (Task.called i hd).refs i = 1 := if_pos rfl
      omega
  next =>
    have hinv := h.goto' (t := t) .accepting (.next i) hrefs (fun _ _ ↦ nofun)
      (fun _ ↦ nofun) fun _ ↦ nofun
    rw [hself] at hinv
    exact hinv

/-- `do_accept` is called again. -/
theorem Inv.doAccept (h : Inv st) (data : Buffer) (htask : st.task t = .accepting)
    (haccept : st.accept = .next i) : Inv ((st.doAccept data).goto t (.acceptReturning i)) := by
  have hhold : st.accept.refs i = 1 := by
    rw [haccept]
    exact if_pos rfl
  have hlt := h.lt_size (h.refs_ne_zero (i := i) (by omega))
  have hunused := (h.refs st.size).symm.trans (h.fresh st.size le_rfl)
  have hnew (u : Tid) : (st.task u).refs st.size = 0 := by
    have := refs_le_holders st.task u st.size
    omega
  have hbalance (j : ℕ) := holders_update st.task t (.acceptReturning i) j
  refine ⟨(forall_update_iff st.session fun j s ↦
      s.refs = s.op.refs + holders (update st.task t (.acceptReturning i)) j +
        (Accept.waiting st.size).refs j).2 ⟨?_, fun j hne ↦ ?_⟩,
    (forall_update_iff st.session fun j s ↦ st.size + 1 ≤ j → s.refs = 0).2
      ⟨fun hle ↦ absurd hle (Nat.not_succ_le_self _), fun j _ hj ↦ h.fresh j (Nat.le_of_lt hj)⟩,
    (forall_update_iff st.session fun _ s ↦ s.Ok).2
      ⟨⟨List.prefix_rfl, List.prefix_rfl, trivial⟩, fun j _ ↦ h.ok j⟩,
    (forall_update_iff st.task fun _ y ↦
      ∀ j hd, y = .called j hd → (update st.session st.size (.new data) j).op = .idle ∧
        (update st.session st.size (.new data) j).Calls hd).2 ⟨fun _ _ ↦ nofun, fun u _ ↦ ?_⟩,
    h.strand_update fun _ ↦ nofun, fun j hj ↦ ?_, h.fault⟩
  · have hnone : (Task.acceptReturning i).refs st.size = 0 := if_neg hlt.ne
    have hbalance := hbalance st.size
    rw [htask, hnone, show Task.accepting.refs st.size = 0 from rfl] at hbalance
    rw [show (Accept.waiting st.size).refs st.size = 1 from if_pos rfl]
    show 1 = 0 + _ + 1
    omega
  · have hrefs := h.refs j
    have hbalance := hbalance j
    rw [haccept] at hrefs
    rw [htask, show Task.accepting.refs j = 0 from rfl,
      show (Task.acceptReturning i).refs j = (Accept.next i).refs j from rfl] at hbalance
    rw [show (Accept.waiting st.size).refs j = 0 from if_neg hne.symm]
    omega
  · refine (forall_update_iff st.session fun j s ↦
      ∀ hd, st.task u = .called j hd → s.op = .idle ∧ s.Calls hd).2
        ⟨fun hd hu ↦ ?_, fun j _ ↦ h.called u j⟩
    have hnone := hnew u
    rw [hu, show (Task.called st.size hd).refs st.size = 1 from if_pos rfl] at hnone
    cases hnone
  · cases hj
    show (update st.session st.size (.new data) st.size).refs = 1 ∧
      (update st.session st.size (.new data) st.size).received = []
    rw [update_self]
    exact ⟨rfl, rfl⟩

theorem Inv.turn (h : Inv st) {data : Buffer} (hturn : st.turn t data = some st') : Inv st' := by
  rw [Server.turn.eq_def] at hturn
  split at hturn
  next => cases hturn
  next i hd htask =>
    have hinv := h.called_turn htask
    split at hturn
    next hbad =>
      cases hturn
      rwa [if_pos hbad] at hinv
    next hgood =>
      cases hturn
      rwa [if_neg hgood] at hinv
  next i htask =>
    cases hturn
    exact h.release fun j ↦ by rw [htask]; rfl
  next i htask =>
    cases hturn
    exact h.release fun j ↦ by rw [htask]; rfl
  next htask =>
    split at hturn
    next i ec haccept =>
      have hinv := h.accepting_turn htask haccept
      split at hturn
      next hgood =>
        cases hturn
        rwa [if_pos hgood] at hinv
      next hbad =>
        cases hturn
        rwa [if_neg hbad] at hinv
    next i haccept =>
      cases hturn
      exact h.doAccept data htask haccept
    next => cases hturn

theorem Inv.step (h : Inv st) {e : Event Tid} (hstep : st.step e = some st') : Inv st' := by
  have hcomplete {i : ℕ} {e : Event Tid} (hs : (st.complete i e).map (st.use i) = some st') :
      Inv st' := by
    obtain ⟨s, hs', rfl⟩ := Option.map_eq_some_iff.1 hs
    exact h.complete hs'
  rcases e with ⟨i, bytes⟩ | ⟨i, n⟩ | ⟨i, ec⟩ | ⟨i, n⟩ | ⟨i, ec⟩ | ec | ⟨t, i⟩ | t | ⟨t, data⟩
  · rw [Server.step] at hstep
    split at hstep
    next =>
      cases hstep
      have hok := h.ok i
      exact h.session rfl rfl
        ⟨hok.written, hok.received.trans (List.prefix_append ..), hok.pending⟩
        fun hidle ↦ ⟨hidle, rfl, fun _ hcalls ↦ hcalls⟩
    next => cases hstep
  · exact hcomplete hstep
  · exact hcomplete hstep
  · exact hcomplete hstep
  · exact hcomplete hstep
  · rw [Server.step] at hstep
    split at hstep
    next i haccept =>
      cases hstep
      have hrefs := h.refs
      have hun := h.unstarted
      rw [haccept] at hrefs hun
      exact ⟨hrefs, h.fresh, h.ok, h.called, h.strand, hun, h.fault⟩
    next => cases hstep
  · rw [Server.step] at hstep
    split at hstep
    next hd htask hop =>
      split at hstep
      next hfree =>
        cases hstep
        exact h.run htask hop hfree
      next => cases hstep
    next => cases hstep
  · rw [Server.step] at hstep
    split at hstep
    next i ec htask haccept =>
      cases hstep
      refine h.goto' _ _ (fun j ↦ ?_) (fun _ _ ↦ nofun) (fun _ ↦ nofun) fun j hj ↦ ?_
      · rw [htask, haccept]
        rfl
      · rw [haccept]
        exact hj
    next => cases hstep
  · exact h.turn hstep

omit [DecidableEq Tid] in
theorem inv_initial (data : Buffer) : Inv (initial data : Server Tid) := by
  have hidle (j : ℕ) : ((initial data : Server Tid).session j).op = .idle ∧
      ((initial data : Server Tid).session j).received = [] ∧
      ((initial data : Server Tid).session j).written = [] ∧
      ((initial data : Server Tid).session j).refs = if 0 = j then 1 else 0 := by
    rcases eq_or_ne j 0 with rfl | hne
    · exact ⟨rfl, rfl, rfl, rfl⟩
    · rw [initial]
      dsimp only
      rw [update_of_ne hne, if_neg hne.symm]
      exact ⟨rfl, rfl, rfl, rfl⟩
  refine ⟨fun j ↦ ?_, fun j hj ↦ ?_, fun j ↦ ?_, fun _ _ _ ↦ nofun, fun _ _ _ ↦ nofun,
    fun j hj ↦ ?_, rfl⟩
  · obtain ⟨hop, -, -, hrefs⟩ := hidle j
    rw [hop, hrefs]
    show _ = 0 + ∑ _, 0 + if 0 = j then 1 else 0
    rw [Finset.sum_const_zero, Nat.zero_add, Nat.zero_add]
  · have hj : 0 < j := hj
    rw [(hidle j).2.2.2, if_neg hj.ne]
  · obtain ⟨hop, hreceived, hwritten, -⟩ := hidle j
    refine ⟨hwritten ▸ List.nil_prefix, hreceived ▸ List.nil_prefix, ?_⟩
    rw [Session.Pending, hop]
    trivial
  · cases hj
    exact ⟨rfl, rfl⟩

/-! ### The runs -/

/-- An array with zeros. -/
def zeros : Buffer := ⟨List.replicate 1024 0, List.length_replicate⟩

variable {data : Buffer} {es : List (Event Tid)}

theorem inv_of_exec (hexec : exec Server.step (initial data) es = some st) : Inv st :=
  exec_invariant' (fun _ _ _ h hstep ↦ h.step hstep) (inv_initial data) hexec

/-- **The lifetime** of a session: it is not used after its end, and it ends when it has no
operation and neither a thread nor `do_accept` has it. -/
theorem lifetime_of_exec (hexec : exec Server.step (initial data) es = some st) :
    st.fault = false ∧ ∀ i, (st.session i).refs = 0 ↔
      (st.session i).op = .idle ∧ (∀ t, (st.task t).refs i = 0) ∧ st.accept.refs i = 0 := by
  have h := inv_of_exec hexec
  refine ⟨h.fault, fun i ↦ ?_⟩
  rw [h.refs i, Nat.add_eq_zero_iff, Nat.add_eq_zero_iff, Op.refs_eq_zero, and_assoc, holders,
    Finset.sum_eq_zero_iff]
  exact and_congr_right fun _ ↦ and_congr_left fun _ ↦
    forall_congr' fun t ↦ forall_prop_of_true (Finset.mem_univ t)

/-- A client that sends two bytes, and two threads. -/
def twoBytes : List (Event Bool) :=
  [.acceptDone 0, .runAccept true, .turn true zeros, .send 0 [7, 8], .readDone 0 2, .run false 0,
    .turn true zeros, .turn false zeros, .writeSome 0 1, .turn false zeros, .writeSome 0 1,
    .run false 0, .turn false zeros]

/-- The client closes the connection. -/
def closing : List (Event Bool) :=
  [.turn true zeros, .turn false zeros, .readFail 0 2, .run true 0, .turn true zeros,
    .turn true zeros]

theorem lifetime_of_exec_closing : ∃ st,
    exec Server.step (initial zeros) (twoBytes ++ closing) = some st ∧ (st.session 0).refs = 0 := by
  have hexec : exec Server.step (initial zeros) (twoBytes ++ closing) = some _ := rfl
  exact ⟨_, hexec, ((lifetime_of_exec hexec).2 0).2 ⟨rfl, Bool.forall_bool.2 ⟨rfl, rfl⟩, rfl⟩⟩

/-- **The echo**: what has been written is the first part of what the client has sent, and it is all
that has been read when the session waits for more. -/
theorem echoed_of_exec (hexec : exec Server.step (initial data) es = some st) (i : ℕ) :
    (st.session i).written <+: (st.session i).received ∧
      (st.session i).received <+: (st.session i).sent ∧
      ((st.session i).op = .read → (st.session i).written = (st.session i).received) := by
  have h := (inv_of_exec hexec).ok i
  refine ⟨h.written, h.received, fun hop ↦ ?_⟩
  have hpending := h.pending
  rw [Session.Pending, hop] at hpending
  exact hpending

theorem echoed_of_exec_twoBytes : ∃ st, exec Server.step (initial zeros) twoBytes = some st ∧
    (st.session 0).received = [7, 8] ∧ (st.session 0).written = (st.session 0).received := by
  have hexec : exec Server.step (initial zeros) twoBytes = some _ := rfl
  exact ⟨_, hexec, rfl, (echoed_of_exec hexec 0).2.2 rfl⟩

end MultithreadEcho
