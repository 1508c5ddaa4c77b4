import Mathlib.Data.Int.Notation
import MiscCpp.Library.Machine

/-!
# The echo coroutine

`Echo`, which waits in turn for `async_read_some` and `async_write_some`, and the sessions that
`Accept` starts, with whatever completes in whatever order.

While the session waits for a read, everything it has read has been written, and while it waits for
a write, all but what is offered (`Session.Inv`). A write that takes everything leads from the
second to the first. But `Echo` writes once for each read: a write that takes less loses the rest of
the buffer. So nothing is lost exactly in the runs without a short write (`losesNothing_iff`), and
for several sessions that are served by one `io_context` too (`server_losesNothing_iff`).
-/

open Machine

namespace AsioEcho

/-! ### The awaiters -/

/-- `std::error_code`, with 0 for none. -/
abbrev ErrorCode := ℤ

/-- `Result`, a variant of an error code and a value. -/
inductive Result (α : Type) where
  | error (ec : ErrorCode)
  | value (a : α)

/-- The result that `handle_done` stores. -/
def handleDone (ec : ErrorCode) (bytesTransferred : ℕ) : Result ℕ :=
  if ec ≠ 0 then .error ec else .value bytesTransferred

/-- `std::array<char, 1024>` -/
structure Buffer where
  bytes : List UInt8
  length_eq : bytes.length = 1024

/-- The bytes are put at the front. -/
def Buffer.fill (b : Buffer) (bs : List UInt8) (h : bs.length ≤ 1024) : Buffer where
  bytes := bs ++ b.bytes.drop bs.length
  length_eq := by
    rw [List.length_append, List.length_drop, b.length_eq]
    omega

/-! ### A session -/

/-- What the coroutine waits for; a write is offered the first `n` bytes of the buffer. -/
inductive Suspended where
  | read
  | write (n : ℕ)
  | final

/-- The frame of the coroutine, what it has read and what it has written. -/
structure Session where
  buffer : Buffer
  suspended : Suspended
  received : List UInt8
  written : List UInt8

/-- An operation that completes: with an error, or with the bytes read or the number written. -/
inductive Completion where
  | read (ec : ErrorCode) (bytes : List UInt8)
  | write (ec : ErrorCode) (n : ℕ)

namespace Session

variable (s : Session)

/-- A new session. The buffer is not initialized. -/
def start (buffer : Buffer) : Session where
  buffer := buffer
  suspended := .read
  received := []
  written := []

/-- From `co_await ReadAwaiter` to the next one. -/
def resumeRead : Result ℕ → Session
  | .error _ => { s with suspended := .final }
  | .value n => { s with suspended := .write n }

/-- From `co_await WriteAwaiter` to the next one. -/
def resumeWrite : Result ℕ → Session
  | .error _ => { s with suspended := .final }
  | .value _ => { s with suspended := .read }

/-- `async_read_some` transfers at most 1024 bytes and `async_write_some` at most those offered, and
each transfers at least one unless there is an error. -/
def complete : Completion → Option Session
  | .read ec bytes =>
    match s.suspended with
    | .read =>
      if h : bytes.length ≤ 1024 then
        if ec = 0 ∧ bytes = [] then none
        else
          some (resumeRead
            { s with buffer := s.buffer.fill bytes h, received := s.received ++ bytes }
            (handleDone ec bytes.length))
      else none
    | _ => none
  | .write ec n =>
    match s.suspended with
    | .write offered =>
      if n ≤ offered ∧ ¬ (ec = 0 ∧ n = 0) then
        some (resumeWrite
          { s with written := s.written ++ (s.buffer.bytes.take offered).take n }
          (handleDone ec n))
      else none
    | _ => none

/-- A write that succeeds and takes less than it is offered. -/
def Short (c : Completion) : Prop :=
  ∃ offered n, s.suspended = .write offered ∧ c = .write 0 n ∧ 0 < n ∧ n < offered

/-- When the session reads, it has written what it has read. -/
def Echoed : Prop := s.suspended = .read → s.written = s.received

/-- What has been read and not been written is what is offered. -/
def Inv : Prop :=
  match s.suspended with
  | .read => s.written = s.received
  | .write n => n ≤ 1024 ∧ s.received = s.written ++ s.buffer.bytes.take n
  | .final => True

end Session

/-! ### The steps -/

variable {s t : Session} {c : Completion}

theorem Session.Inv.echoed (h : s.Inv) : s.Echoed := fun hread ↦ by
  rw [Session.Inv, hread] at h
  exact h

theorem take_fill (b : Buffer) {bs : List UInt8} (h : bs.length ≤ 1024) :
    (b.fill bs h).bytes.take bs.length = bs := List.take_left

theorem handleDone_zero (n : ℕ) : handleDone 0 n = .value n := if_neg fun h ↦ h rfl

theorem handleDone_error {ec : ErrorCode} (h : ec ≠ 0) (n : ℕ) : handleDone ec n = .error ec :=
  if_pos h

/-- A read is followed by a write of what has been read, and a write by a read. -/
theorem complete_eq_some (h : s.complete c = some t) :
    (∃ ec bytes, ∃ hle : bytes.length ≤ 1024, c = .read ec bytes ∧ s.suspended = .read ∧
      t = Session.resumeRead
        { s with buffer := s.buffer.fill bytes hle, received := s.received ++ bytes }
        (handleDone ec bytes.length)) ∨
    ∃ ec n offered, c = .write ec n ∧ s.suspended = .write offered ∧ n ≤ offered ∧
      (ec = 0 → 0 < n) ∧
      t = Session.resumeWrite
        { s with written := s.written ++ (s.buffer.bytes.take offered).take n }
        (handleDone ec n) := by
  cases c with
  | read ec bytes =>
    cases hs : s.suspended with
    | read =>
      rw [Session.complete, hs] at h
      simp only at h
      split at h
      next hle =>
        split at h
        · cases h
        · exact .inl ⟨ec, bytes, hle, rfl, rfl, (Option.some.inj h).symm⟩
      next => cases h
    | write n => rw [Session.complete, hs] at h; cases h
    | final => rw [Session.complete, hs] at h; cases h
  | write ec n =>
    cases hs : s.suspended with
    | read => rw [Session.complete, hs] at h; cases h
    | write offered =>
      rw [Session.complete, hs] at h
      simp only at h
      split at h
      next hle =>
        refine .inr ⟨ec, n, offered, rfl, rfl, hle.1, fun hec ↦ ?_, (Option.some.inj h).symm⟩
        exact Nat.pos_of_ne_zero fun hn ↦ hle.2 ⟨hec, hn⟩
      next => cases h
    | final => rw [Session.complete, hs] at h; cases h

/-- **A completion** without a short write keeps the session as it should be. -/
theorem Session.Inv.complete (h : s.Inv) (hshort : ¬ s.Short c) (hstep : s.complete c = some t) :
    t.Inv := by
  obtain ⟨ec, bytes, hle, rfl, hs, rfl⟩ | ⟨ec, n, offered, rfl, hs, hle, hpos, rfl⟩ :=
    complete_eq_some hstep
  · have hwritten : s.written = s.received := h.echoed hs
    by_cases hec : ec = 0
    · rw [hec, handleDone_zero]
      refine ⟨hle, ?_⟩
      show s.received ++ bytes = s.written ++ (s.buffer.fill bytes hle).bytes.take bytes.length
      rw [take_fill, hwritten]
    · rw [handleDone_error hec]
      trivial
  · rw [Session.Inv, hs] at h
    by_cases hec : ec = 0
    · subst hec
      have hn : n = offered := Nat.le_antisymm hle (Nat.not_lt.1 fun hlt ↦
        hshort ⟨offered, n, hs, rfl, hpos rfl, hlt⟩)
      rw [handleDone_zero, hn, List.take_take, Nat.min_self]
      exact h.2.symm
    · rw [handleDone_error hec]
      trivial

theorem complete_write {ec : ErrorCode} {n offered : ℕ} (hs : s.suspended = .write offered)
    (hle : n ≤ offered) (hpos : 0 < n) :
    s.complete (.write ec n) = some (Session.resumeWrite
      { s with written := s.written ++ (s.buffer.bytes.take offered).take n }
      (handleDone ec n)) := by
  rw [Session.complete, hs]
  exact if_pos ⟨hle, fun h ↦ Nat.ne_of_gt hpos h.2⟩

/-- **A short write** is possible, and the next read finds the rest missing. -/
theorem Session.Inv.complete_short (h : s.Inv) (hshort : s.Short c) :
    ∃ t, s.complete c = some t ∧ ¬ t.Echoed := by
  obtain ⟨offered, n, hs, rfl, hpos, hlt⟩ := hshort
  rw [Session.Inv, hs] at h
  obtain ⟨hoffered, hreceived⟩ := h
  refine ⟨_, complete_write hs (Nat.le_of_lt hlt) hpos, fun hechoed ↦ ?_⟩
  rw [handleDone_zero] at hechoed
  have heq : s.written ++ (s.buffer.bytes.take offered).take n = s.received := hechoed rfl
  rw [hreceived] at heq
  have hcount := congrArg List.length (List.append_cancel_left heq)
  rw [List.length_take, List.length_take, s.buffer.length_eq] at hcount
  omega

/-! ### All runs -/

/-- In every state of the run, the session has written what it has read when it reads next. -/
def LosesNothing (buffer : Buffer) (cs : List Completion) : Prop :=
  ∀ bs t, bs <+: cs → exec Session.complete (Session.start buffer) bs = some t → t.Echoed

/-- **`Echo`** loses nothing in exactly the runs without a short write. -/
theorem losesNothing_iff (buffer : Buffer) (cs : List Completion) :
    LosesNothing buffer cs ↔
      Always Session.complete (fun s c ↦ ¬ s.Short c) (Session.start buffer) cs :=
  forall_prefix_iff (fun _ h ↦ Session.Inv.echoed h) (fun _ _ _ h hs hstep ↦ h.complete hs hstep)
    (fun _ _ h hs ↦ h.complete_short (not_not.1 hs)) rfl

/-- Two bytes are read and one is written. -/
theorem not_forall_losesNothing : ¬ ∀ buffer cs, LosesNothing buffer cs := by
  intro h
  have hechoed := h ⟨List.replicate 1024 0, List.length_replicate⟩
    [.read 0 [104, 105], .write 0 1] _ _ List.prefix_rfl rfl rfl
  exact absurd hechoed (by decide)

/-! ### The server -/

/-- Whether `Accept` waits for a connection, and the sessions it has started. -/
structure Server where
  accepting : Bool
  sessions : List Session

/-- What the `io_context` runs: a handler of `async_accept`, or of an operation of the session
`i`. -/
inductive Handler where
  | accept (ec : ErrorCode) (buffer : Buffer)
  | io (i : ℕ) (c : Completion)

namespace Server

variable (server : Server)

/-- The server after a handler is called. -/
def handle : Handler → Option Server
  | .accept ec buffer =>
    if server.accepting then
      if ec = 0 then some { server with sessions := server.sessions ++ [Session.start buffer] }
      else some { server with accepting := false }
    else none
  | .io i c => do
    let s ← server.sessions[i]?
    let s ← s.complete c
    some { server with sessions := server.sessions.set i s }

def Short : Handler → Prop
  | .accept _ _ => False
  | .io i c => ∃ s, server.sessions[i]? = some s ∧ s.Short c

def Echoed : Prop := ∀ s ∈ server.sessions, s.Echoed

def Inv : Prop := ∀ s ∈ server.sessions, s.Inv

end Server

variable {server server' : Server} {h : Handler}

theorem Server.Inv.handle (hinv : server.Inv) (hshort : ¬ server.Short h)
    (hhandle : server.handle h = some server') : server'.Inv := by
  cases h with
  | accept ec buffer =>
    rw [Server.handle] at hhandle
    split at hhandle
    · split at hhandle
      · obtain rfl := Option.some.inj hhandle
        intro s hs
        rcases List.mem_append.1 hs with hs | hs
        · exact hinv s hs
        · obtain rfl := List.mem_singleton.1 hs
          exact rfl
      · obtain rfl := Option.some.inj hhandle
        exact hinv
    · cases hhandle
  | io i c =>
    obtain ⟨s, hs, hhandle⟩ := Option.bind_eq_some_iff.1 hhandle
    obtain ⟨s', hs', hhandle⟩ := Option.bind_eq_some_iff.1 hhandle
    obtain rfl := Option.some.inj hhandle
    have hinv' : s'.Inv := (hinv s (List.mem_of_getElem? hs)).complete
      (fun hc ↦ hshort ⟨s, hs, hc⟩) hs'
    intro u hu
    rcases List.mem_or_eq_of_mem_set hu with hu | rfl
    · exact hinv u hu
    · exact hinv'

theorem Server.Inv.handle_short (hinv : server.Inv) (hshort : server.Short h) :
    ∃ server', server.handle h = some server' ∧ ¬ server'.Echoed := by
  cases h with
  | accept ec buffer => cases hshort
  | io i c =>
    obtain ⟨s, hs, hc⟩ := hshort
    obtain ⟨s', hs', hnot⟩ := (hinv s (List.mem_of_getElem? hs)).complete_short hc
    refine ⟨{ server with sessions := server.sessions.set i s' }, ?_, fun hall ↦ hnot ?_⟩
    · rw [Server.handle, hs, Option.bind_eq_bind, Option.bind_some, hs']
      rfl
    · exact hall s' (List.mem_set (List.getElem?_eq_some_iff.1 hs).1 s')

/-- **The server** loses nothing of any session in exactly the runs without a short write, however
the sessions are interleaved. -/
theorem server_losesNothing_iff (hs : List Handler) :
    (∀ bs t, bs <+: hs → exec Server.handle ⟨true, []⟩ bs = some t → t.Echoed) ↔
      Always Server.handle (fun server h ↦ ¬ server.Short h) ⟨true, []⟩ hs :=
  forall_prefix_iff (I := Server.Inv) (fun _ hinv s hs ↦ (hinv s hs).echoed)
    (fun _ _ _ hinv hshort hhandle ↦ hinv.handle hshort hhandle)
    (fun _ _ hinv hshort ↦ hinv.handle_short (not_not.1 hshort))
    (fun _ hs ↦ absurd hs List.not_mem_nil)

end AsioEcho
