import Mathlib.Data.Int.Notation
import Mathlib.Data.List.TakeWhile
import Mathlib.Logic.Function.Basic
import Mathlib.Tactic.Common
import MiscCpp.Library.Machine

/-!
# Echo servers

The loops of `echoEpollServer` and `echoPollServer`, with whatever the kernel reports, accepts and
delivers; a `write` takes everything it is given.

Both answer a client by `write(connfd, buf, strlen(buf))`. What that does to the bytes of all the
connections is `Traffic`, and for the rest each server only decides which connection is accepted and
read when (`EpollServer.exec_handle`, `PollServer.exec_turn`). So one theorem about the traffic,
`echoes_iff`, serves both: what goes back is what has come as long as no chunk has a zero byte or
fills the buffer.
-/

open Function Machine

namespace Echo

/-! ### A reply -/

/-- What a successful `read` of at most 1024 bytes delivers. -/
structure Chunk where
  bytes : List UInt8
  pos : 0 < bytes.length
  le : bytes.length ≤ 1024

/-- `char buf[1024] = {0}` with the bytes that have been read. -/
def Chunk.buf (c : Chunk) : List UInt8 := c.bytes ++ List.replicate (1024 - c.bytes.length) 0

/-- `strlen(buf)`, undefined if there is no zero in the array. -/
def strlen (buf : List UInt8) : Option ℕ :=
  if 0 ∈ buf then some (buf.takeWhile (· ≠ 0)).length else none

/-- The bytes given to `write`. -/
def Chunk.reply (c : Chunk) : Option (List UInt8) := (strlen c.buf).map fun n ↦ c.buf.take n

/-- A chunk without a zero that leaves room for one. -/
def Chunk.Plain (c : Chunk) : Prop := 0 ∉ c.bytes ∧ c.bytes.length < 1024

/-! ### Traffic -/

/-- A connection: its descriptor, and how many connections have had that. -/
abbrev Connection := ℤ × ℕ

/-- How many connections each descriptor has had, the chunks read from each connection and the bytes
written to it. -/
structure Traffic where
  count : ℤ → ℕ
  received : Connection → List Chunk
  sent : Connection → List UInt8

namespace Traffic

variable (t : Traffic)

def initial : Traffic where
  count _ := 0
  received _ := []
  sent _ := []

def connection (fd : ℤ) : Connection := (fd, t.count fd)

def accept (fd : ℤ) : Traffic := { t with count := update t.count fd (t.count fd + 1) }

/-- `read`, `std::cout << buf` and `write`. -/
def echo (fd : ℤ) (c : Chunk) : Option Traffic :=
  c.reply.map fun bytes ↦
    { t with
      received := update t.received (t.connection fd) (t.received (t.connection fd) ++ [c])
      sent := update t.sent (t.connection fd) (t.sent (t.connection fd) ++ bytes) }

/-- To each client go the bytes it has sent, in order, and no others. -/
def Echoes : Prop := ∀ conn, t.sent conn = (t.received conn).flatMap Chunk.bytes

end Traffic

/-- What a server does to a client. -/
inductive Io where
  | accept (fd : ℤ)
  | echo (fd : ℤ) (c : Chunk)

/-- The data that a call echoes, if it does. -/
def Io.chunk? : Io → Option Chunk
  | accept _ => none
  | echo _ c => some c

/-- The traffic after one call of the server. -/
def Traffic.step (t : Traffic) : Io → Option Traffic
  | .accept fd => some (t.accept fd)
  | .echo fd c => t.echo fd c

/-! ### The server with `epoll` -/

/-- An event, with what `accept4` or `read` returns on its descriptor: none for `EMFILE`, and none
at the end of the stream. -/
structure EpollEvent where
  fd : ℤ
  epollin : Bool
  accepted : Option ℤ
  received : Option Chunk

/-- The state of the `epoll` server: its descriptors and the traffic so far. -/
structure EpollServer where
  listenfd : ℤ
  clients : List ℤ
  traffic : Traffic

namespace EpollServer

def initial (listenfd : ℤ) : EpollServer where
  listenfd := listenfd
  clients := []
  traffic := .initial

/-- A turn of the loop over `events`. -/
def handle (s : EpollServer) (e : EpollEvent) : Option EpollServer :=
  if e.fd = s.listenfd then
    match e.accepted with
    | some connfd =>
      some { s with clients := s.clients ++ [connfd], traffic := s.traffic.accept connfd }
    | none => some s
  else if e.epollin then
    if e.fd < 0 then some s
    else
      match e.received with
      | none => some { s with clients := s.clients.filter (· ≠ e.fd) }
      | some c => (s.traffic.echo e.fd c).map fun t ↦ { s with traffic := t }
  else some s

end EpollServer

/-- What the server with the socket `listenfd` does to a client at an event. -/
def EpollEvent.io (listenfd : ℤ) (e : EpollEvent) : Option Io :=
  if e.fd = listenfd then e.accepted.map .accept
  else if e.epollin ∧ 0 ≤ e.fd then e.received.map (.echo e.fd) else none

/-! ### The server with `poll` -/

/-- What `poll` reports: its result, whether `POLLIN` is set for the socket, and for the `i`th entry
behind that, if it is set, what `read` returns; and what `accept4` returns. -/
structure PollTurn where
  nready : ℕ
  listenIn : Bool
  accepted : Option ℤ
  revents : ℕ → Option (Option Chunk)

/-- The descriptors in `pollfds` behind the socket. -/
structure PollServer where
  fds : List ℤ
  traffic : Traffic

namespace PollServer

def initial : PollServer where
  fds := []
  traffic := .initial

/-- The loop over `pollfds`. `it = pollfds.erase(it); --it;` goes on with the entry behind. -/
def scan : List (ℤ × Option (Option Chunk)) → ℕ → Traffic → Option (List ℤ × Traffic)
  | [], _, t => some ([], t)
  | entries, 0, t => some (entries.map Prod.fst, t)
  | (fd, none) :: entries, nready + 1, t =>
    (scan entries (nready + 1) t).map fun (fds, t) ↦ (fd :: fds, t)
  | (_, some none) :: entries, nready + 1, t => scan entries nready t
  | (fd, some (some c)) :: entries, nready + 1, t =>
    (t.echo fd c).bind fun t ↦ (scan entries nready t).map fun (fds, t) ↦ (fd :: fds, t)

/-- A turn of `while (true)`. -/
def turn (s : PollServer) (p : PollTurn) : Option PollServer :=
  if p.nready = 0 then some s
  else
    let entries := s.fds.mapIdx fun i fd ↦ (fd, p.revents i)
    if p.listenIn then
      match p.accepted with
      | none => some s
      | some connfd =>
        let entries := entries ++ [(connfd, none)]
        let t := s.traffic.accept connfd
        if p.nready - 1 = 0 then some ⟨entries.map Prod.fst, t⟩
        else (scan entries (p.nready - 1) t).map fun (fds, t) ↦ ⟨fds, t⟩
    else (scan entries p.nready s.traffic).map fun (fds, t) ↦ ⟨fds, t⟩

end PollServer

/-- What the loop over `pollfds` does to the clients, and the descriptors it leaves. -/
def scanIo : List (ℤ × Option (Option Chunk)) → ℕ → List Io × List ℤ
  | [], _ => ([], [])
  | entries, 0 => ([], entries.map Prod.fst)
  | (fd, none) :: entries, nready + 1 =>
    ((scanIo entries (nready + 1)).1, fd :: (scanIo entries (nready + 1)).2)
  | (_, some none) :: entries, nready + 1 => scanIo entries nready
  | (fd, some (some c)) :: entries, nready + 1 =>
    (.echo fd c :: (scanIo entries nready).1, fd :: (scanIo entries nready).2)

/-- The same for a turn, with the descriptors before it. -/
def PollTurn.io (p : PollTurn) (fds : List ℤ) : List Io × List ℤ :=
  if p.nready = 0 then ([], fds)
  else
    let entries := fds.mapIdx fun i fd ↦ (fd, p.revents i)
    if p.listenIn then
      match p.accepted with
      | none => ([], fds)
      | some connfd =>
        let (ios, fds) := scanIo (entries ++ [(connfd, none)]) (p.nready - 1)
        (.accept connfd :: ios, fds)
    else scanIo entries p.nready

/-- The same for several turns. -/
def pollIo : List PollTurn → List ℤ → List Io
  | [], _ => []
  | p :: ps, fds => (p.io fds).1 ++ pollIo ps (p.io fds).2

/-! ### Which replies are right -/

variable {c : Chunk} {t t' : Traffic} {io : Io}

/-- The bytes before the first zero. -/
theorem takeWhile_ne_zero {xs : List UInt8} (hxs : 0 ∉ xs) (ys : List UInt8) :
    (xs ++ 0 :: ys).takeWhile (· ≠ 0) = xs := by
  have hne : ∀ b ∈ xs, decide (b ≠ 0) = true := by
    rintro b hb
    refine decide_eq_true ?_
    rintro rfl
    exact hxs hb
  rw [List.takeWhile_append_of_pos hne]
  simp

/-- What is behind the first zero of the buffer is not sent. -/
theorem reply_of_split {xs : List UInt8} (ys : List UInt8) (hbuf : c.buf = xs ++ 0 :: ys)
    (hxs : 0 ∉ xs) :
    c.reply = some xs := by
  rw [Chunk.reply, strlen, hbuf, if_pos (by simp), Option.map_some, takeWhile_ne_zero hxs,
    List.take_left]

theorem reply_of_plain (h : c.Plain) : c.reply = some c.bytes := by
  obtain ⟨hzero, hlt⟩ := h
  obtain ⟨n, hn⟩ : ∃ n, 1024 - c.bytes.length = n + 1 := ⟨1024 - c.bytes.length - 1, by omega⟩
  refine reply_of_split (List.replicate n 0) ?_ hzero
  rw [Chunk.buf, hn, List.replicate_succ]

/-- A reply to another chunk is too short. -/
theorem length_reply_lt (h : ¬ c.Plain) {bytes : List UInt8} (hreply : c.reply = some bytes) :
    bytes.length < c.bytes.length := by
  have hle := c.le
  have hzero : 0 ∈ c.bytes := by
    by_contra hnot
    -- without a zero the buffer is full
    have hfull : c.bytes.length = 1024 := by
      by_contra hne
      exact h ⟨hnot, by omega⟩
    have hbuf : c.buf = c.bytes := by
      rw [Chunk.buf, hfull, Nat.sub_self, List.replicate_zero, List.append_nil]
    rw [Chunk.reply, strlen, hbuf, if_neg hnot] at hreply
    cases hreply
  obtain ⟨xs, ys, hbytes, hxs⟩ := List.eq_append_cons_of_mem hzero
  have hbuf : c.buf = xs ++ 0 :: (ys ++ List.replicate (1024 - c.bytes.length) 0) := by
    rw [Chunk.buf, hbytes, List.append_assoc, List.cons_append]
  rw [reply_of_split _ hbuf hxs, Option.some.injEq] at hreply
  rw [← hreply, hbytes, List.length_append, List.length_cons]
  omega

theorem length_reply_le {bytes : List UInt8} (hreply : c.reply = some bytes) :
    bytes.length ≤ c.bytes.length := by
  by_cases h : c.Plain
  · rw [reply_of_plain h, Option.some.injEq] at hreply
    exact hreply ▸ le_rfl
  · exact (length_reply_lt h hreply).le

/-! ### Traffic -/

/-- An action without a reply, or with one to a plain chunk. -/
def Io.Plain (io : Io) : Prop := ∀ c, io.chunk? = some c → c.Plain

/-- Some client has got back less than it has sent. -/
def Traffic.Lags (t : Traffic) : Prop :=
  ∃ conn, (t.sent conn).length < ((t.received conn).flatMap Chunk.bytes).length

theorem Traffic.Lags.not_echoes (h : t.Lags) : ¬ t.Echoes := by
  obtain ⟨conn, hlt⟩ := h
  intro hechoes
  rw [hechoes conn] at hlt
  exact lt_irrefl _ hlt

theorem echo_eq_some {fd : ℤ} (h : t.echo fd c = some t') :
    ∃ bytes, c.reply = some bytes ∧ t'.received = update t.received (t.connection fd)
        (t.received (t.connection fd) ++ [c]) ∧
      t'.sent = update t.sent (t.connection fd) (t.sent (t.connection fd) ++ bytes) := by
  obtain ⟨bytes, hreply, rfl⟩ := Option.map_eq_some_iff.1 h
  exact ⟨bytes, hreply, rfl, rfl⟩

/-- What lags stays behind: no reply is longer than its chunk. -/
theorem Traffic.Lags.step (h : t.Lags) (hstep : t.step io = some t') : t'.Lags := by
  obtain ⟨conn, hlt⟩ := h
  refine ⟨conn, ?_⟩
  cases io with
  | accept fd => exact Option.some.inj hstep ▸ hlt
  | echo fd c =>
    obtain ⟨bytes, hreply, hreceived, hsent⟩ := echo_eq_some hstep
    have hle := length_reply_le hreply
    rw [hreceived, hsent]
    by_cases hconn : conn = t.connection fd
    · subst hconn
      simp only [update_self, List.flatMap_append, List.length_append, List.flatMap_singleton]
      omega
    · rwa [update_of_ne hconn, update_of_ne hconn]

/-- A plain action is defined and keeps the traffic as it should be. -/
theorem Traffic.Echoes.step (h : t.Echoes) (hplain : io.Plain) :
    ∃ t', t.step io = some t' ∧ t'.Echoes := by
  cases io with
  | accept fd => exact ⟨_, rfl, h⟩
  | echo fd c =>
    have hreply := reply_of_plain (hplain c rfl)
    refine ⟨_, by rw [Traffic.step, Traffic.echo, hreply, Option.map_some], fun conn ↦ ?_⟩
    by_cases hconn : conn = t.connection fd
    · subst hconn
      simp only [update_self, List.flatMap_append, List.flatMap_singleton]
      rw [h]
    · simp only [update_of_ne hconn]
      exact h conn

/-- Any other is undefined, or leaves a client with less than it has sent. -/
theorem Traffic.Echoes.step_lags (h : t.Echoes) (hplain : ¬ io.Plain)
    (hstep : t.step io = some t') : t'.Lags := by
  cases io with
  | accept fd => exact absurd (fun c hc ↦ by cases hc) hplain
  | echo fd c =>
    have hc : ¬ c.Plain := fun hc ↦ hplain fun c' hc' ↦ Option.some.inj hc' ▸ hc
    obtain ⟨bytes, hreply, hreceived, hsent⟩ := echo_eq_some hstep
    have hlt := length_reply_lt hc hreply
    refine ⟨t.connection fd, ?_⟩
    simp only [hreceived, hsent, update_self, List.flatMap_append, List.flatMap_singleton,
      List.length_append, h (t.connection fd)]
    omega

/-- **The traffic** is as it should be after actions that are all plain, and after no others. -/
theorem echoes_exec_iff (h : t.Echoes) (ios : List Io) :
    (∃ t', exec Traffic.step t ios = some t' ∧ t'.Echoes) ↔ ∀ io ∈ ios, io.Plain := by
  induction ios generalizing t with
  | nil => simpa using h
  | cons io ios ih =>
    rw [exec_cons, List.forall_mem_cons]
    by_cases hplain : io.Plain
    · obtain ⟨t', hstep, ht'⟩ := h.step hplain
      rw [hstep, Option.bind_some, ih ht']
      exact (and_iff_right hplain).symm
    · refine iff_of_false ?_ fun hall ↦ hplain hall.1
      rintro ⟨u, hu, hechoes⟩
      obtain ⟨t', hstep, hexec⟩ := Option.bind_eq_some_iff.1 hu
      have hlags := exec_invariant' (I := Traffic.Lags) (fun s io s' hs ↦ hs.step)
        (h.step_lags hplain hstep) hexec
      exact hlags.not_echoes hechoes

/-! ### The two servers -/

namespace EpollServer

/-- At an event the server does one thing to a client at most. -/
theorem handle_eq (s : EpollServer) (e : EpollEvent) :
    ((e.io s.listenfd).toList = [] ∧ ∃ clients, s.handle e = some { s with clients := clients }) ∨
      ∃ io, (e.io s.listenfd).toList = [io] ∧ ∃ clients,
        s.handle e = (s.traffic.step io).map fun t ↦
          { s with clients := clients, traffic := t } := by
  unfold EpollEvent.io handle
  split
  · cases e.accepted with
    | none => exact .inl ⟨rfl, s.clients, rfl⟩
    | some connfd => exact .inr ⟨.accept connfd, rfl, s.clients ++ [connfd], rfl⟩
  · by_cases hin : e.epollin ∧ 0 ≤ e.fd
    · rw [if_pos hin, if_pos hin.1, if_neg (Int.not_lt.2 hin.2)]
      cases e.received with
      | none => exact .inl ⟨rfl, s.clients.filter (· ≠ e.fd), rfl⟩
      | some c => exact .inr ⟨.echo e.fd c, rfl, s.clients, rfl⟩
    · rw [if_neg hin]
      refine .inl ⟨rfl, s.clients, ?_⟩
      split
      next hepollin => rw [if_pos (by_contra fun hfd ↦ hin ⟨hepollin, Int.not_lt.1 hfd⟩)]
      next => rfl

theorem exec_handle (s : EpollServer) (es : List EpollEvent) :
    (exec handle s es).map traffic =
      exec Traffic.step s.traffic (es.filterMap (EpollEvent.io s.listenfd)) := by
  induction es generalizing s with
  | nil => rfl
  | cons e es ih =>
    have hio : (e :: es).filterMap (EpollEvent.io s.listenfd) =
        (e.io s.listenfd).toList ++ es.filterMap (EpollEvent.io s.listenfd) := by
      rw [List.filterMap_cons]
      cases e.io s.listenfd <;> rfl
    rw [exec_cons, hio]
    rcases handle_eq s e with ⟨h, clients, hs⟩ | ⟨io, h, clients, hs⟩
    · rw [h, hs, Option.bind_some, ih, List.nil_append]
    · rw [h, hs, List.singleton_append, exec_cons]
      cases s.traffic.step io with
      | none => rfl
      | some t => exact ih _

end EpollServer

namespace PollServer

theorem scan_eq (entries : List (ℤ × Option (Option Chunk))) (nready : ℕ) (t : Traffic) :
    scan entries nready t =
      (exec Traffic.step t (scanIo entries nready).1).map ((scanIo entries nready).2, ·) := by
  induction entries generalizing nready t with
  | nil => rfl
  | cons entry entries ih =>
    obtain ⟨fd, revents⟩ := entry
    cases nready with
    | zero => rfl
    | succ nready =>
      match revents with
      | none =>
        simp only [scan, scanIo, ih, Option.map_map]
        rfl
      | some none => simp only [scan, scanIo, ih]
      | some (some c) =>
        simp only [scan, scanIo, ih, exec_cons, Option.map_map, Option.map_bind]
        rfl

theorem scanIo_zero (entries : List (ℤ × Option (Option Chunk))) :
    scanIo entries 0 = ([], entries.map Prod.fst) := by
  cases entries <;> rfl

theorem turn_eq (s : PollServer) (p : PollTurn) :
    s.turn p = (exec Traffic.step s.traffic (p.io s.fds).1).map (⟨(p.io s.fds).2, ·⟩) := by
  unfold turn PollTurn.io
  by_cases hready : p.nready = 0
  · rw [if_pos hready, if_pos hready]
    rfl
  rw [if_neg hready, if_neg hready]
  by_cases hlisten : p.listenIn
  · rw [if_pos hlisten, if_pos hlisten]
    cases p.accepted with
    | none => rfl
    | some connfd =>
      by_cases hone : p.nready - 1 = 0
      · simp only [hone, if_true, scanIo_zero]
        rfl
      · simp only [if_neg hone, scan_eq, Option.map_map]
        rfl
  · rw [if_neg hlisten, if_neg hlisten, scan_eq, Option.map_map]
    rfl

theorem exec_turn (s : PollServer) (ps : List PollTurn) :
    (exec turn s ps).map traffic = exec Traffic.step s.traffic (pollIo ps s.fds) := by
  induction ps generalizing s with
  | nil => rfl
  | cons p ps ih =>
    rw [exec_cons, turn_eq, pollIo, exec_append]
    cases exec Traffic.step s.traffic (p.io s.fds).1 with
    | none => rfl
    | some t => exact ih _

end PollServer

/-! ### Both servers -/

/-- The run of the server with `epoll` is defined, and every client gets back what it has sent. -/
def EpollEchoes (listenfd : ℤ) (es : List EpollEvent) : Prop :=
  ∃ s, exec EpollServer.handle (.initial listenfd) es = some s ∧ s.traffic.Echoes

/-- The `poll` server runs through these turns and echoes everything. -/
def PollEchoes (ps : List PollTurn) : Prop :=
  ∃ s, exec PollServer.turn .initial ps = some s ∧ s.traffic.Echoes

/-- The chunks that are read. -/
def epollChunks (listenfd : ℤ) (es : List EpollEvent) : List Chunk :=
  (es.filterMap (EpollEvent.io listenfd)).filterMap Io.chunk?

/-- The data that the turns of the `poll` server read. -/
def pollChunks (ps : List PollTurn) : List Chunk := (pollIo ps []).filterMap Io.chunk?

theorem echoes_initial : Traffic.initial.Echoes := fun _ ↦ rfl

theorem forall_plain_iff (ios : List Io) :
    (∀ io ∈ ios, io.Plain) ↔ ∀ c ∈ ios.filterMap Io.chunk?, c.Plain := by
  simp only [List.mem_filterMap, Io.Plain]
  exact ⟨fun h c ⟨io, hio, hc⟩ ↦ h io hio c hc, fun h io hio c hc ↦ h c ⟨io, hio, hc⟩⟩

/-- A run of a server whose traffic is that of the actions `ios`. -/
theorem run_iff {σ : Type*} {traffic : σ → Traffic} {run : Option σ} {ios : List Io}
    (h : run.map traffic = exec Traffic.step .initial ios) :
    (∃ s, run = some s ∧ (traffic s).Echoes) ↔ ∀ c ∈ ios.filterMap Io.chunk?, c.Plain := by
  rw [← forall_plain_iff, ← echoes_exec_iff echoes_initial, ← h]
  cases run with
  | none => simp
  | some s => simp

/-- **The echo servers** are right in exactly the runs in which all the chunks they read are without
a zero byte and shorter than the buffer. -/
theorem echoes_iff (listenfd : ℤ) (es : List EpollEvent) (ps : List PollTurn) :
    (EpollEchoes listenfd es ↔ ∀ c ∈ epollChunks listenfd es, c.Plain) ∧
      (PollEchoes ps ↔ ∀ c ∈ pollChunks ps, c.Plain) :=
  ⟨run_iff (EpollServer.exec_handle (.initial listenfd) es),
    run_iff (PollServer.exec_turn .initial ps)⟩

/-- Two letters with a zero byte between them. -/
def withZero : Chunk := ⟨[104, 0, 105], by decide, by decide⟩

/-- Only the first letter comes back. -/
theorem not_forall_echoes :
    ¬ (∀ listenfd es, EpollEchoes listenfd es) ∧ ¬ ∀ ps, PollEchoes ps := by
  have hzero : ¬ withZero.Plain := fun h ↦ h.1 (by decide)
  refine ⟨fun h ↦ ?_, fun h ↦ ?_⟩
  · have hplain := (run_iff (EpollServer.exec_handle (.initial 3) _)).1 (h 3
      [⟨3, true, some 5, none⟩, ⟨5, true, none, some withZero⟩])
    exact hzero (hplain withZero (List.mem_singleton_self _))
  · have hplain := (run_iff (PollServer.exec_turn .initial _)).1 (h
      [⟨1, true, some 5, fun _ ↦ none⟩, ⟨1, false, none, fun _ ↦ some (some withZero)⟩])
    exact hzero (hplain withZero (List.mem_singleton_self _))

end Echo
