import Mathlib.Algebra.Group.Int.Defs
import Mathlib.Data.Int.Notation
import Mathlib.Data.List.Infix
import Mathlib.Data.List.Nodup
import Mathlib.Tactic.Common
import MiscCpp.Library.Machine

/-!
# A connection of the reactor

`reactor_thread_func` for one descriptor: what it does with the results of `read`, level-triggered,
and with the results of `write`, in both modes.

A message that is read is put into the queue with the length of the buffer, whatever has been read;
and because of the precedence of `|` the end of the stream is not one of the conditions to close. So
nothing but an error at the very first `read` is treated as it should be (`readsRight_iff`).

A message that is to be written is taken from the queue first. What a short `write` leaves of it is
lost, and a message is put back as a whole, behind the others, if the last `write` has failed. The
bytes come in order as long as each `write` that accepts some comes in turn
(`writesRight_of_inTurn`).
-/

namespace Reactor

/-- A byte on the wire. -/
abbrev Byte := BitVec 8

def READ_LENGTH : ℕ := 1024
def EAGAIN : ℤ := 11
def EWOULDBLOCK : ℤ := EAGAIN

/-! ### `read` -/

/-- The results of `read`: some bytes, fewer than the buffer has, or none at the end of the stream,
or an error. -/
inductive ReadResult where
  | bytes (bs : List Byte) (h : 1 ≤ bs.length ∧ bs.length ≤ READ_LENGTH - 1)
  | endOfStream
  | error (errno : ℤ)

namespace ReadResult

/-- The bytes that a `read` brings. -/
def data : ReadResult → List Byte
  | bytes bs _ => bs
  | endOfStream | error _ => []

/-- The value that a `read` returns. -/
def nread : ReadResult → ℤ
  | bytes bs _ => bs.length
  | endOfStream => 0
  | error _ => -1

/-- It is looked at only if `nread` is `-1`. -/
def errno : ReadResult → ℤ
  | bytes _ _ | endOfStream => 0
  | error errno => errno

end ReadResult

/-- The strings that have been put on `read_queues_[fd]`, and whether the descriptor is closed and
removed from epoll. -/
structure ReadSide where
  readQueue : List (List Byte)
  closed : Bool

namespace ReadSide

def initial : ReadSide where
  readQueue := []
  closed := false

/-- A read event. `a | b` binds closer than `&&`. -/
def onReadable (s : ReadSide) (r : ReadResult) : Option ReadSide :=
  if s.closed then none
  else
    let msg : List Byte := List.replicate READ_LENGTH 0
    let msg := r.data ++ msg.drop r.data.length
    if r.nread = -1 ∧ r.errno ≠ EAGAIN ∧ (r.errno ≠ EWOULDBLOCK ∨ r.nread = 0) then
      some { s with closed := true }
    else some { s with readQueue := s.readQueue ++ [msg] }

end ReadSide

/-- The descriptor is to be closed. -/
def ReadResult.Closes (r : ReadResult) : Prop :=
  r.nread = 0 ∨ r.nread = -1 ∧ r.errno ≠ EAGAIN ∧ r.errno ≠ EWOULDBLOCK

/-- What is put is what is read, nothing is put for the other results, and the descriptor is closed
exactly when it is to be. -/
structure ReadsRight (rs : List ReadResult) : Prop where
  put : ∀ s, Machine.exec ReadSide.onReadable .initial rs = some s →
    s.readQueue.flatten = rs.flatMap ReadResult.data
  no_put : Machine.Always ReadSide.onReadable (fun s r ↦ r.nread ≤ 0 →
    ∀ s', s.onReadable r = some s' → s'.readQueue = s.readQueue) .initial rs
  closed : Machine.Always ReadSide.onReadable (fun s r ↦
    ∀ s', s.onReadable r = some s' → (s'.closed = true ↔ r.Closes)) .initial rs

/-- An error other than `EAGAIN` and `EWOULDBLOCK`. -/
def ReadResult.Fails (r : ReadResult) : Prop :=
  r.nread = -1 ∧ r.errno ≠ EAGAIN ∧ r.errno ≠ EWOULDBLOCK

section Read

variable {s s' : ReadSide} {r : ReadResult} {rs : List ReadResult}

theorem length_data_lt (r : ReadResult) : r.data.length < READ_LENGTH := by
  cases r with
  | bytes bs h => exact Nat.lt_of_le_of_lt h.2 (by decide)
  | endOfStream | error e => exact Nat.zero_lt_of_lt (show 0 < 1024 by decide)

/-- The message that is put has the length of the buffer. -/
theorem length_msg (r : ReadResult) :
    (r.data ++ (List.replicate READ_LENGTH (0 : Byte)).drop r.data.length).length =
      READ_LENGTH := by
  have hlt := length_data_lt r
  rw [List.length_append, List.length_drop, List.length_replicate]
  omega

/-- An error closes, and everything else is put. -/
theorem onReadable_cases (h : s.onReadable r = some s') : s.closed = false ∧
    (r.Fails ∧ s' = { s with closed := true } ∨
      ¬ r.Fails ∧ ∃ msg : List Byte, msg.length = READ_LENGTH ∧
        s' = { s with readQueue := s.readQueue ++ [msg] }) := by
  rw [ReadSide.onReadable] at h
  split at h
  next => cases h
  next hopen =>
    refine ⟨Bool.eq_false_iff.2 hopen, ?_⟩
    simp only at h
    split at h
    next hfails =>
      obtain rfl := Option.some.inj h
      refine .inl ⟨⟨hfails.1, hfails.2.1, hfails.2.2.resolve_right ?_⟩, rfl⟩
      rw [hfails.1]
      decide
    next hnot =>
      obtain rfl := Option.some.inj h
      exact .inr ⟨fun hf ↦ hnot ⟨hf.1, hf.2.1, .inl hf.2.2⟩, _, length_msg r, rfl⟩

theorem data_eq_nil_of_fails (h : r.Fails) : r.data = [] := by
  cases r with
  | bytes bs hbs =>
    have hneg : (bs.length : ℤ) = -1 := h.1
    omega
  | endOfStream | error e => rfl

/-- Not fewer bytes are put than read, and more if anything is put. -/
theorem length_onReadable (h : s.onReadable r = some s') :
    s.readQueue.flatten.length + r.data.length ≤ s'.readQueue.flatten.length ∧
      (¬ r.Fails → s.readQueue.flatten.length + r.data.length < s'.readQueue.flatten.length) := by
  obtain ⟨-, ⟨hfails, rfl⟩ | ⟨hnot, msg, hmsg, rfl⟩⟩ := onReadable_cases h
  · rw [data_eq_nil_of_fails hfails]
    exact ⟨Nat.le_refl _, fun hnot ↦ absurd hfails hnot⟩
  · have hlt := length_data_lt r
    have hlen : ((s.readQueue ++ [msg]).flatten).length =
        s.readQueue.flatten.length + READ_LENGTH := by
      rw [List.flatten_append, List.length_append, List.flatten_singleton, hmsg]
    show _ ≤ ((s.readQueue ++ [msg]).flatten).length ∧
      (_ → _ < ((s.readQueue ++ [msg]).flatten).length)
    rw [hlen]
    exact ⟨by omega, fun _ ↦ by omega⟩

/-- In a whole run as well. -/
theorem length_exec_onReadable (h : Machine.exec ReadSide.onReadable s rs = some s') :
    s.readQueue.flatten.length + (rs.flatMap ReadResult.data).length ≤
      s'.readQueue.flatten.length := by
  induction rs generalizing s with
  | nil =>
    obtain rfl := Option.some.inj h
    exact Nat.le_refl _
  | cons r rs ih =>
    obtain ⟨s₁, h₁, h⟩ := Option.bind_eq_some_iff.1 h
    rw [List.flatMap_cons, List.length_append, ← Nat.add_assoc]
    exact Nat.le_trans (Nat.add_le_add_right (length_onReadable h₁).1 _) (ih h)

/-- After an error there are no more events. -/
theorem eq_nil_of_closed (hclosed : s.closed = true)
    (h : Machine.exec ReadSide.onReadable s rs = some s') : rs = [] := by
  cases rs with
  | nil => rfl
  | cons r rs =>
    obtain ⟨s₁, h₁, -⟩ := Option.bind_eq_some_iff.1 h
    rw [ReadSide.onReadable, if_pos hclosed] at h₁
    cases h₁

/-- **Exactly when the read path is right**: nothing has been read yet, or the first `read` has
failed. -/
theorem readsRight_iff (h : Machine.exec ReadSide.onReadable .initial rs = some s) :
    ReadsRight rs ↔ ∀ r ∈ rs, r.Fails := by
  cases rs with
  | nil => exact iff_of_true ⟨fun s hs ↦ Option.some.inj hs ▸ rfl, trivial, trivial⟩ nofun
  | cons r rs =>
    obtain ⟨s₁, h₁, hrest⟩ := Option.bind_eq_some_iff.1 h
    constructor
    · intro hright
      by_contra hnot
      have hmore := length_exec_onReadable hrest
      have hput := congrArg List.length (hright.put s h)
      rw [List.flatMap_cons, List.length_append] at hput
      obtain ⟨-, ⟨hfails, rfl⟩ | ⟨hfails, -⟩⟩ := onReadable_cases h₁
      · obtain rfl := eq_nil_of_closed rfl hrest
        exact hnot fun r' hr' ↦ List.mem_singleton.1 hr' ▸ hfails
      · have hlt := (length_onReadable h₁).2 hfails
        omega
    · intro hfails
      have hr : r.Fails := hfails r List.mem_cons_self
      obtain ⟨-, ⟨-, rfl⟩ | ⟨hnot, -⟩⟩ := onReadable_cases h₁
      · obtain rfl := eq_nil_of_closed rfl hrest
        refine ⟨fun s' hs' ↦ ?_, ⟨fun _ s' hs' ↦ ?_, fun _ _ ↦ trivial⟩,
          ⟨fun s' hs' ↦ ?_, fun _ _ ↦ trivial⟩⟩
        · obtain rfl := Option.some.inj (h.symm.trans hs')
          obtain rfl := Option.some.inj hrest
          rw [List.flatMap_cons, data_eq_nil_of_fails hr]
          rfl
        · obtain rfl := Option.some.inj (h₁.symm.trans hs')
          rfl
        · obtain rfl := Option.some.inj (h₁.symm.trans hs')
          exact iff_of_true rfl (.inr hr)
      · exact absurd hr hnot

/-- The first `read` fails with `ECONNRESET`. -/
theorem readsRight_iff_reset : ReadsRight [.error 104] := by
  have h : Machine.exec ReadSide.onReadable .initial [.error 104] = some ⟨[], true⟩ := rfl
  refine (readsRight_iff h).2 fun r hr ↦ ?_
  obtain rfl := List.mem_singleton.1 hr
  exact ⟨rfl, by decide, by decide⟩

/-- One byte is read, and then the end of the stream. -/
theorem not_forall_readsRight : ¬ ∀ (rs : List ReadResult) (s : ReadSide),
    Machine.exec ReadSide.onReadable .initial rs = some s → ReadsRight rs := by
  intro hall
  have hright := hall [.bytes [65#8] (by decide), .endOfStream] _ rfl
  have hclosed := (hright.closed.2 _ rfl).1 _ rfl
  cases hclosed.2 (.inl rfl)

end Read

/-! ### `write` -/

/-- `_EPOLL_ET_MODE_` is not defined, or it is. -/
inductive Mode where
  | levelTriggered
  | edgeTriggered

/-- A string in `write_queues_[fd]`, with its number among those that have been put there. -/
structure Message where
  bytes : List Byte
  number : ℕ

/-- What one `write` of the kernel does. -/
inductive WriteResult where
  | wrote (k : ℕ)
  | failed

/-- As many bytes as `write` accepts at most. -/
def MAX_RW_COUNT : ℕ := 0x7ffff000

/-- Where the reactor is: in no write event, before a `write` of the last `n` bytes, or behind it.
-/
inductive WritePc where
  | waiting
  | writing (m : Message) (n : ℤ) (nwrite : Option ℤ)
  | written (m : Message) (nwrite : Option ℤ)

/-- The message that has been taken. -/
def WritePc.current : WritePc → List Message
  | waiting => []
  | writing m _ _ | written m _ => [m]

/-- The queue, whether `EPOLLOUT` is in the interest set, and the reactor, with a history: the
strings put, the bytes accepted, and those of the message that is being written; and whether a
message has been left in which it was neither accepted as a whole nor put back untouched. -/
structure WriteSide where
  writeQueue : List Message
  epollout : Bool
  pc : WritePc
  put : List (List Byte)
  accepted : List Byte
  taken : ℕ
  cut : Bool

/-- Other threads put strings and ask for `EPOLLOUT`; the reactor takes a message, writes, and ends
the event. A variable that has not been set has any value. -/
inductive WriteAction where
  | put (msg : List Byte)
  | mod
  | event
  | write (r : WriteResult)
  | finish (unset : ℤ)

namespace WriteSide

def initial : WriteSide where
  writeQueue := []
  epollout := false
  pc := .waiting
  put := []
  accepted := []
  taken := 0
  cut := false

/-- `int msg_write_size = msg_write.size()`. -/
def msgWriteSize (m : Message) : ℤ := (BitVec.ofNat 32 m.bytes.length).toInt

/-- `while (n > 0)`. -/
def loop (m : Message) (n : ℤ) (nwrite : Option ℤ) : WritePc :=
  if n > 0 then .writing m n nwrite else .written m nwrite

/-- Before the first `write`. -/
def enter (mode : Mode) (m : Message) : WritePc :=
  match mode with
  | .levelTriggered => .writing m (msgWriteSize m) none
  | .edgeTriggered => loop m (msgWriteSize m) none

/-- Behind a `write` that has accepted `k` bytes. -/
def next (mode : Mode) (m : Message) (n : ℤ) (k : ℕ) : WritePc :=
  match mode with
  | .levelTriggered => .written m (some k)
  | .edgeTriggered => loop m (n - k) (some k)

def step (mode : Mode) (s : WriteSide) : WriteAction → Option WriteSide
  | .put msg => some
    { s with
      writeQueue := s.writeQueue ++ [{ bytes := msg, number := s.put.length }]
      put := s.put ++ [msg] }
  | .mod => some { s with epollout := true }
  | .event =>
    match s.pc, s.writeQueue with
    | .waiting, m :: ms =>
      if s.epollout then some { s with writeQueue := ms, pc := enter mode m } else none
    | _, _ => none
  | .write r =>
    match s.pc with
    | .writing m n _ =>
      match r with
      | .wrote k =>
        -- the count is a `size_t`
        if k ≤ (n % 2 ^ 64).toNat ∧ k ≤ MAX_RW_COUNT then
          some
            { s with
              pc := next mode m n k
              accepted := s.accepted ++ (m.bytes.drop (msgWriteSize m - n).toNat).take k
              taken := s.taken + k }
        else none
      | .failed => some { s with pc := .written m (some (-1)) }
    | _ => none
  | .finish unset =>
    match s.pc with
    | .written m nwrite =>
      let nwrite := nwrite.getD unset
      some
        { s with
          writeQueue := if nwrite < 0 then s.writeQueue ++ [m] else s.writeQueue
          epollout := false
          pc := .waiting
          taken := 0
          cut := s.cut || !decide (s.taken = if nwrite < 0 then 0 else m.bytes.length) }
    | _ => none

end WriteSide

/-- What has been accepted is the beginning of what has been put. -/
def WritesRight (s : WriteSide) : Prop := s.accepted <+: s.put.flatten

/-- If `write` accepts bytes, then all messages before were accepted as a whole or put back
untouched, and none in the queue that has bytes was put before the one that is being written. -/
def InTurn (s : WriteSide) : WriteAction → Prop
  | .write (.wrote k) => 0 < k → s.cut = false ∧
    ∀ m ∈ s.pc.current, ∀ q ∈ s.writeQueue, q.bytes ≠ [] → m.number < q.number
  | _ => True

instance (s : WriteSide) : Decidable (WritesRight s) :=
  inferInstanceAs (Decidable (s.accepted <+: s.put.flatten))

instance (s : WriteSide) (act : WriteAction) : Decidable (InTurn s act) :=
  match act with
  | .write (.wrote _) => inferInstanceAs (Decidable (_ → _))
  | .write .failed | .put _ | .mod | .event | .finish _ => isTrue trivial

section Write

variable {s s' : WriteSide} {mode : Mode} {j : ℕ}

/-- Nothing has been cut: the strings before the `j`-th have been accepted, except empty ones, and
the others are in the queue or being written. -/
structure InOrder (s : WriteSide) (j : ℕ) : Prop where
  cut : s.cut = false
  accepted : s.accepted =
    (s.put.take j).flatten ++ (s.pc.current.flatMap Message.bytes).take s.taken
  le_put : j ≤ s.put.length
  put : ∀ m ∈ s.pc.current ++ s.writeQueue, s.put[m.number]? = some m.bytes
  nodup : ((s.pc.current ++ s.writeQueue).map Message.number).Nodup
  mem : ∀ i b, j ≤ i → s.put[i]? = some b → b ≠ [] →
    i ∈ (s.pc.current ++ s.writeQueue).map Message.number
  old : ∀ m ∈ s.pc.current ++ s.writeQueue, m.bytes ≠ [] → j ≤ m.number
  taken : 0 < s.taken → ∃ m, s.pc.current = [m] ∧ m.number = j
  position : ∀ m n nwrite, s.pc = .writing m n nwrite →
    WriteSide.msgWriteSize m - n = s.taken ∧ (0 < n ∨ s.taken = 0)

/-! ### The steps of a write event -/

theorem event_eq_some (h : s.step mode .event = some s') : ∃ m ms, s.pc = .waiting ∧
    s.writeQueue = m :: ms ∧ s' = { s with writeQueue := ms, pc := WriteSide.enter mode m } := by
  rw [WriteSide.step] at h
  split at h
  next m ms hpc hqueue =>
    obtain ⟨-, h⟩ := Option.ite_none_right_eq_some.1 h
    exact ⟨m, ms, hpc, hqueue, (Option.some.inj h).symm⟩
  next => cases h

theorem failed_eq_some (h : s.step mode (.write .failed) = some s') : ∃ m n nwrite,
    s.pc = .writing m n nwrite ∧ s' = { s with pc := .written m (some (-1)) } := by
  rw [WriteSide.step] at h
  split at h
  next m n nwrite hpc => exact ⟨m, n, nwrite, hpc, (Option.some.inj h).symm⟩
  next => cases h

/-- The bytes of a `write` that accepts `k` bytes. -/
theorem wrote_eq_some {k : ℕ} (h : s.step mode (.write (.wrote k)) = some s') :
    ∃ m n nwrite, s.pc = .writing m n nwrite ∧ k ≤ (n % 2 ^ 64).toNat ∧
      s' = { s with
        pc := WriteSide.next mode m n k
        accepted := s.accepted ++ (m.bytes.drop (WriteSide.msgWriteSize m - n).toNat).take k
        taken := s.taken + k } := by
  rw [WriteSide.step] at h
  split at h
  next m n nwrite hpc =>
    obtain ⟨hcount, h⟩ := Option.ite_none_right_eq_some.1 h
    exact ⟨m, n, nwrite, hpc, hcount.1, (Option.some.inj h).symm⟩
  next => cases h

theorem finish_eq_some {unset : ℤ} (h : s.step mode (.finish unset) = some s') : ∃ m nwrite,
    s.pc = .written m nwrite ∧ s' = { s with
      writeQueue := if nwrite.getD unset < 0 then s.writeQueue ++ [m] else s.writeQueue
      epollout := false
      pc := .waiting
      taken := 0
      cut := s.cut ||
        !decide (s.taken = if nwrite.getD unset < 0 then 0 else m.bytes.length) } := by
  rw [WriteSide.step] at h
  split at h
  next m nwrite hpc => exact ⟨m, nwrite, hpc, (Option.some.inj h).symm⟩
  next => cases h

theorem current_enter (mode : Mode) (m : Message) : (WriteSide.enter mode m).current = [m] := by
  cases mode with
  | levelTriggered => rfl
  | edgeTriggered =>
    rw [WriteSide.enter, WriteSide.loop]
    split <;> rfl

theorem current_next (mode : Mode) (m : Message) (n : ℤ) (k : ℕ) :
    (WriteSide.next mode m n k).current = [m] := by
  cases mode with
  | levelTriggered => rfl
  | edgeTriggered =>
    rw [WriteSide.next, WriteSide.loop]
    split <;> rfl

theorem enter_eq_writing {m m' : Message} {n : ℤ} {nwrite : Option ℤ}
    (h : WriteSide.enter mode m = .writing m' n nwrite) :
    m' = m ∧ n = WriteSide.msgWriteSize m := by
  cases mode with
  | levelTriggered =>
    cases h
    exact ⟨rfl, rfl⟩
  | edgeTriggered =>
    rw [WriteSide.enter, WriteSide.loop] at h
    split at h
    · cases h
      exact ⟨rfl, rfl⟩
    · cases h

theorem next_eq_writing {m m' : Message} {n n' : ℤ} {k : ℕ} {nwrite : Option ℤ}
    (h : WriteSide.next mode m n k = .writing m' n' nwrite) : m' = m ∧ n' = n - k ∧ 0 < n' := by
  cases mode with
  | levelTriggered => cases h
  | edgeTriggered =>
    rw [WriteSide.next, WriteSide.loop] at h
    split at h
    next hpos =>
      cases h
      exact ⟨rfl, rfl, hpos⟩
    next => cases h

/-- The strings up to the `j`-th, when the ones from there to the `k`-th are empty. -/
theorem flatten_take_eq {put : List (List Byte)} {k : ℕ} (hjk : j ≤ k)
    (hempty : ∀ i b, j ≤ i → i < k → put[i]? = some b → b = []) :
    (put.take k).flatten = (put.take j).flatten := by
  induction hjk with
  | refl => rfl
  | @step k hk ih =>
    rw [List.take_add_one, List.flatten_append,
      ih fun i b hi hlt ↦ hempty i b hi (Nat.lt_succ_of_lt hlt)]
    rcases hb : put[k]? with _ | b
    · exact List.append_nil _
    · rw [hempty k b hk (Nat.lt_succ_self k) hb]
      exact List.append_nil _

theorem flatten_take_succ {put : List (List Byte)} {b : List Byte} (h : put[j]? = some b) :
    (put.take (j + 1)).flatten = (put.take j).flatten ++ b := by
  rw [List.take_add_one, h, List.flatten_append]
  exact congrArg _ (List.append_nil b)

theorem prefix_flatten_take (put : List (List Byte)) (j : ℕ) :
    (put.take j).flatten <+: put.flatten :=
  ⟨(put.drop j).flatten, by rw [← List.flatten_append, List.take_append_drop]⟩

/-- In order, what has been accepted is the beginning of what has been put. -/
theorem InOrder.writesRight (I : InOrder s j) : WritesRight s := by
  rw [WritesRight, I.accepted]
  rcases Nat.eq_zero_or_pos s.taken with hzero | hpos
  · rw [hzero, List.take_zero, List.append_nil]
    exact prefix_flatten_take _ _
  · obtain ⟨m, hm, rfl⟩ := I.taken hpos
    have hput : s.put[m.number]? = some m.bytes := I.put m (by rw [hm]; exact List.mem_cons_self)
    have hbytes : s.pc.current.flatMap Message.bytes = m.bytes := by
      rw [hm]
      exact List.append_nil _
    rw [hbytes]
    refine List.IsPrefix.trans ?_ (prefix_flatten_take s.put (m.number + 1))
    rw [flatten_take_succ hput]
    exact (List.prefix_append_right_inj _).2 (List.take_prefix _ _)

theorem inOrder_initial : InOrder .initial 0 where
  cut := rfl
  accepted := rfl
  le_put := Nat.le_refl _
  put m hm := absurd hm List.not_mem_nil
  nodup := List.nodup_nil
  mem i b _ hb := by cases hb
  old m hm := absurd hm List.not_mem_nil
  taken h := absurd h (Nat.lt_irrefl 0)
  position m n nwrite h := by cases h

/-- Another string. -/
theorem InOrder.put_step (I : InOrder s j) {msg : List Byte}
    (h : s.step mode (.put msg) = some s') : InOrder s' j := by
  obtain rfl := Option.some.inj h
  have hlt : ∀ m ∈ s.pc.current ++ s.writeQueue, m.number < s.put.length := fun m hm ↦
    (List.getElem?_eq_some_iff.1 (I.put m hm)).1
  have hmem : ∀ m, m ∈ s.pc.current ++ (s.writeQueue ++ [⟨msg, s.put.length⟩]) ↔
      m ∈ s.pc.current ++ s.writeQueue ∨ m = ⟨msg, s.put.length⟩ := fun m ↦ by
    rw [← List.append_assoc, List.mem_append, List.mem_singleton]
  constructor
  case cut => exact I.cut
  case taken => exact I.taken
  case position => exact I.position
  case accepted =>
    show s.accepted = ((s.put ++ [msg]).take j).flatten ++ _
    rw [List.take_append_of_le_length I.le_put]
    exact I.accepted
  case le_put =>
    show j ≤ (s.put ++ [msg]).length
    rw [List.length_append]
    exact Nat.le_add_right_of_le I.le_put
  case put =>
    intro m hm
    show (s.put ++ [msg])[m.number]? = some m.bytes
    rcases (hmem m).1 hm with hm | rfl
    · rw [List.getElem?_append_left (hlt m hm)]
      exact I.put m hm
    · exact List.getElem?_concat_length
  case nodup =>
    show ((s.pc.current ++ (s.writeQueue ++ [(⟨msg, s.put.length⟩ : Message)])).map
      Message.number).Nodup
    rw [← List.append_assoc, List.map_append, List.map_singleton]
    refine I.nodup.append (List.nodup_singleton _) fun i hi hi' ↦ ?_
    obtain ⟨m, hm, rfl⟩ := List.mem_map.1 hi
    exact Nat.ne_of_lt (hlt m hm) (List.mem_singleton.1 hi')
  case mem =>
    intro i b hi hb hne
    refine List.mem_map.2 ?_
    rcases Nat.lt_or_ge i s.put.length with hlt' | hge
    · have hb : s.put[i]? = some b := (List.getElem?_append_left hlt').symm.trans hb
      obtain ⟨m, hm, heq⟩ := List.mem_map.1 (I.mem i b hi hb hne)
      exact ⟨m, (hmem m).2 (.inl hm), heq⟩
    · have hlen := (List.getElem?_eq_some_iff.1 hb).1
      refine ⟨_, (hmem _).2 (.inr rfl), Nat.le_antisymm hge ?_⟩
      have hlen : i < (s.put ++ [msg]).length := hlen
      rw [List.length_append] at hlen
      exact Nat.lt_succ_iff.1 hlen
  case old =>
    intro m hm hne
    rcases (hmem m).1 hm with hm | rfl
    · exact I.old m hm hne
    · exact I.le_put

/-- A message is taken. -/
theorem InOrder.event_step (I : InOrder s j) (h : s.step mode .event = some s') : InOrder s' j := by
  obtain ⟨m, ms, hpc, hqueue, rfl⟩ := event_eq_some h
  have hlist : s.pc.current ++ s.writeQueue = (WriteSide.enter mode m).current ++ ms := by
    rw [hpc, hqueue, current_enter]
    rfl
  have htaken : s.taken = 0 := by
    by_contra hne
    obtain ⟨m', hm', -⟩ := I.taken (Nat.pos_of_ne_zero hne)
    rw [hpc] at hm'
    cases hm'
  have I' := I.accepted
  rw [htaken, List.take_zero] at I'
  refine ⟨I.cut, ?_, I.le_put, hlist ▸ I.put, hlist ▸ I.nodup, hlist ▸ I.mem,
    hlist ▸ I.old, ?_, ?_⟩
  · show s.accepted = _ ++ (List.flatMap _ _).take s.taken
    rw [htaken, List.take_zero]
    exact I'
  · exact fun hpos ↦ absurd htaken (Nat.pos_iff_ne_zero.1 hpos)
  · intro m' n nwrite hwriting
    obtain ⟨rfl, rfl⟩ := enter_eq_writing hwriting
    refine ⟨?_, .inr htaken⟩
    show _ = ((s.taken : ℕ) : ℤ)
    rw [htaken]
    exact Int.sub_self _

/-- Where the reactor is does not matter, as long as it has the same message. -/
theorem InOrder.of_current (I : InOrder s j) {pc : WritePc} (hcur : pc.current = s.pc.current)
    (hpos : ∀ m n nwrite, pc = .writing m n nwrite →
      WriteSide.msgWriteSize m - n = s.taken ∧ (0 < n ∨ s.taken = 0)) :
    InOrder { s with pc := pc } j where
  cut := I.cut
  accepted := by
    show s.accepted = _ ++ (pc.current.flatMap _).take s.taken
    rw [hcur]
    exact I.accepted
  le_put := I.le_put
  put := by
    show ∀ m ∈ pc.current ++ s.writeQueue, _
    rw [hcur]
    exact I.put
  nodup := by
    show ((pc.current ++ s.writeQueue).map _).Nodup
    rw [hcur]
    exact I.nodup
  mem := by
    show ∀ i b, _ → _ → _ → i ∈ (pc.current ++ s.writeQueue).map _
    rw [hcur]
    exact I.mem
  old := by
    show ∀ m ∈ pc.current ++ s.writeQueue, _
    rw [hcur]
    exact I.old
  taken := by
    show 0 < s.taken → ∃ m, pc.current = [m] ∧ _
    rw [hcur]
    exact I.taken
  position := hpos

/-- A `write` that fails. -/
theorem InOrder.write_failed (I : InOrder s j) (h : s.step mode (.write .failed) = some s') :
    InOrder s' j := by
  obtain ⟨m, n, nwrite, hpc, rfl⟩ := failed_eq_some h
  exact I.of_current (by rw [hpc]; rfl) nofun

/-- A `write` that accepts nothing. -/
theorem InOrder.write_zero (I : InOrder s j) (h : s.step mode (.write (.wrote 0)) = some s') :
    InOrder s' j := by
  obtain ⟨m, n, nwrite, hpc, -, rfl⟩ := wrote_eq_some h
  rw [List.take_zero, List.append_nil]
  refine I.of_current (by rw [hpc, current_next]; rfl) fun m' n' nwrite' hwriting ↦ ?_
  obtain ⟨rfl, rfl, hpos⟩ := next_eq_writing hwriting
  have hold := (I.position _ _ _ hpc).1
  exact ⟨by omega, .inl hpos⟩

/-- A `write` that accepts bytes in turn: the message is the first that is not accepted. -/
theorem InOrder.write_step (I : InOrder s j) {k : ℕ} (hk : 0 < k)
    (hturn : ∀ m ∈ s.pc.current, ∀ q ∈ s.writeQueue, q.bytes ≠ [] → m.number < q.number)
    (h : s.step mode (.write (.wrote k)) = some s') : ∃ j', InOrder s' j' := by
  obtain ⟨m, n, nwrite, hpc, hcount, rfl⟩ := wrote_eq_some h
  have hcur : s.pc.current = [m] := by rw [hpc]; rfl
  have hm : m ∈ s.pc.current ++ s.writeQueue := by rw [hcur]; exact List.mem_cons_self
  obtain ⟨hpos, hn⟩ := I.position m n nwrite hpc
  have hnext : (WriteSide.next mode m n k).current ++ s.writeQueue =
      s.pc.current ++ s.writeQueue := by
    rw [current_next, hcur]
  -- the message has bytes, and no string between the `j`-th and it has any
  have hbytes : m.bytes ≠ [] := by
    intro hnil
    have hsize : WriteSide.msgWriteSize m = 0 := by
      rw [WriteSide.msgWriteSize, hnil]
      rfl
    have hzero : n = 0 := by omega
    rw [hzero] at hcount
    exact Nat.not_lt.2 hcount hk
  have hj : j ≤ m.number := I.old m hm hbytes
  have hempty : ∀ i b, j ≤ i → i < m.number → s.put[i]? = some b → b = [] := by
    intro i b hi hlt hb
    by_contra hne
    obtain ⟨q, hq, rfl⟩ := List.mem_map.1 (I.mem i b hi hb hne)
    rw [hcur] at hq
    rcases List.mem_cons.1 hq with rfl | hq
    · exact Nat.lt_irrefl _ hlt
    · have hqput := I.put q (List.mem_append_right _ hq)
      obtain rfl := Option.some.inj (hqput.symm.trans hb)
      exact Nat.lt_asymm hlt (hturn m (by rw [hcur]; exact List.mem_cons_self) q hq hne)
  have hflat (pc : WritePc) (hpc : pc.current = [m]) :
      pc.current.flatMap Message.bytes = m.bytes := by
    rw [hpc]
    exact List.append_nil _
  refine ⟨m.number, I.cut, ?_, ?_, hnext ▸ I.put, hnext ▸ I.nodup, ?_, ?_, ?_, ?_⟩
  · have haccepted := I.accepted
    rw [hflat _ hcur, ← flatten_take_eq hj hempty] at haccepted
    have hdrop : (WriteSide.msgWriteSize m - n).toNat = s.taken := by
      rw [hpos]
      exact Int.toNat_natCast _
    show s.accepted ++ _ = _ ++ (List.flatMap _ _).take (s.taken + k)
    rw [hflat _ (current_next mode m n k), hdrop, haccepted, List.take_add, List.append_assoc]
  · exact Nat.le_of_lt (List.getElem?_eq_some_iff.1 (I.put m hm)).1
  · show ∀ i b, _ → _ → _ → i ∈ (WritePc.current _ ++ s.writeQueue).map _
    rw [hnext]
    exact fun i b hi ↦ I.mem i b (Nat.le_trans hj hi)
  · show ∀ q ∈ WritePc.current _ ++ s.writeQueue, _
    rw [hnext, hcur]
    intro q hq hne
    rcases List.mem_cons.1 hq with rfl | hq
    · exact Nat.le_refl _
    · exact Nat.le_of_lt (hturn m (by rw [hcur]; exact List.mem_cons_self) q hq hne)
  · exact fun _ ↦ ⟨m, current_next .., rfl⟩
  · intro m' n' nwrite' hwriting
    obtain ⟨rfl, rfl, hpos'⟩ := next_eq_writing hwriting
    refine ⟨?_, .inl hpos'⟩
    show _ = ((s.taken + k : ℕ) : ℤ)
    omega

/-- A message that is put back untouched. -/
theorem InOrder.put_back (I : InOrder s j) {m : Message} (hcur : s.pc.current = [m])
    (htaken : s.taken = 0) :
    InOrder
      { s with
        writeQueue := s.writeQueue ++ [m]
        epollout := false
        pc := .waiting
        taken := 0 } j := by
  have hmem : ∀ q, q ∈ s.writeQueue ++ [m] ↔ q ∈ s.pc.current ++ s.writeQueue := fun q ↦ by
    rw [hcur, List.mem_append, List.mem_append, or_comm]
  constructor
  case cut => exact I.cut
  case le_put => exact I.le_put
  case taken => exact fun h ↦ absurd h (Nat.lt_irrefl 0)
  case position => exact nofun
  case accepted =>
    have haccepted := I.accepted
    rw [htaken, List.take_zero] at haccepted
    exact haccepted
  case put => exact fun q hq ↦ I.put q ((hmem q).1 hq)
  case old => exact fun q hq ↦ I.old q ((hmem q).1 hq)
  case nodup =>
    have hnodup := I.nodup
    rw [hcur] at hnodup
    show ((s.writeQueue ++ [m]).map Message.number).Nodup
    exact (List.perm_append_comm.map Message.number).nodup_iff.1 hnodup
  case mem =>
    intro i b hi hb hne
    obtain ⟨q, hq, heq⟩ := List.mem_map.1 (I.mem i b hi hb hne)
    exact List.mem_map.2 ⟨q, (hmem q).2 hq, heq⟩

/-- A message that has been accepted as a whole. -/
theorem InOrder.done (I : InOrder s j) {m : Message} (hcur : s.pc.current = [m])
    (htaken : s.taken = m.bytes.length) :
    ∃ j', InOrder { s with epollout := false, pc := .waiting, taken := 0 } j' := by
  have hput : s.put[m.number]? = some m.bytes := I.put m (by rw [hcur]; exact List.mem_cons_self)
  have hin : ∀ q ∈ s.writeQueue, q ∈ s.pc.current ++ s.writeQueue := fun q hq ↦
    List.mem_append_right _ hq
  have hnodup := I.nodup
  rw [hcur, List.singleton_append, List.map_cons, List.nodup_cons] at hnodup
  have hflat : (s.pc.current.flatMap Message.bytes).take s.taken = m.bytes := by
    rw [hcur, htaken]
    show (m.bytes ++ []).take m.bytes.length = m.bytes
    rw [List.append_nil, List.take_length]
  -- a string that is left is in the queue
  have hmem : ∀ i b, j ≤ i → s.put[i]? = some b → b ≠ [] → i ≠ m.number ∨ m.bytes = [] →
      i ∈ s.writeQueue.map Message.number := by
    intro i b hi hb hne hnot
    have hmem := I.mem i b hi hb hne
    rw [hcur, List.singleton_append, List.map_cons] at hmem
    refine (List.mem_cons.1 hmem).resolve_left fun heq ↦ ?_
    obtain hnot | hnil := hnot
    · exact hnot heq
    · exact hne ((Option.some.inj (hb.symm.trans (heq ▸ hput))).trans hnil)
  rcases eq_or_ne m.bytes [] with hnil | hbytes
  · refine ⟨j, I.cut, ?_, I.le_put, fun q hq ↦ I.put q (hin q hq), hnodup.2, fun i b hi hb hne ↦
      hmem i b hi hb hne (.inr hnil), fun q hq ↦ I.old q (hin q hq),
      fun h ↦ absurd h (Nat.lt_irrefl 0),
      nofun⟩
    have haccepted := I.accepted
    rw [hflat, hnil] at haccepted
    exact haccepted
  · have hj : m.number = j := by
      obtain ⟨m', hm', hj⟩ := I.taken (htaken ▸ List.length_pos_iff.2 hbytes)
      rw [hcur] at hm'
      obtain rfl := List.singleton_inj.1 hm'
      exact hj
    refine ⟨j + 1, I.cut, ?_, ?_, fun q hq ↦ I.put q (hin q hq), hnodup.2, fun i b hi hb hne ↦ ?_,
      fun q hq hne ↦ ?_, fun h ↦ absurd h (Nat.lt_irrefl 0), nofun⟩
    · show s.accepted = (s.put.take (j + 1)).flatten ++ []
      rw [I.accepted, hflat, flatten_take_succ (hj ▸ hput), List.append_nil]
    · exact hj ▸ (List.getElem?_eq_some_iff.1 hput).1
    · exact hmem i b (Nat.le_of_succ_le hi) hb hne (.inl fun heq ↦ by omega)
    · have hle := I.old q (hin q hq) hne
      have hnumber : q.number ≠ m.number := fun heq ↦ hnodup.1 (heq ▸ List.mem_map_of_mem hq)
      show j + 1 ≤ q.number
      omega

/-- The end of a write event that cuts nothing. -/
theorem InOrder.finish_step (I : InOrder s j) {unset : ℤ}
    (h : s.step mode (.finish unset) = some s') (hcut : s'.cut = false) : ∃ j', InOrder s' j' := by
  obtain ⟨m, nwrite, hpc, rfl⟩ := finish_eq_some h
  have hcur : s.pc.current = [m] := by rw [hpc]; rfl
  obtain ⟨-, hfine⟩ := Bool.or_eq_false_iff.1 hcut
  have hfine : s.taken = if nwrite.getD unset < 0 then 0 else m.bytes.length := by
    simpa using hfine
  have hcut : (s.cut || !decide (s.taken = if nwrite.getD unset < 0 then 0 else m.bytes.length)) =
      s.cut := by
    rw [decide_eq_true hfine]
    exact Bool.or_false _
  simp only [hcut]
  split
  next hneg =>
    rw [if_pos hneg] at hfine
    exact ⟨j, I.put_back hcur hfine⟩
  next hneg =>
    rw [if_neg hneg] at hfine
    exact I.done hcur hfine

/-! ### Runs of the write path -/

/-- In order, or with a message that has been cut; what has been accepted is right in any case. -/
def Orderly (s : WriteSide) : Prop :=
  (∃ j, InOrder s j) ∨ s.cut = true ∧ WritesRight s

theorem Orderly.writesRight (O : Orderly s) : WritesRight s := by
  obtain ⟨j, I⟩ | ⟨-, hright⟩ := O
  · exact I.writesRight
  · exact hright

/-- A step that is not a `write` that accepts bytes leaves the bytes alone; strings may come behind
those put, and what is cut stays so. -/
theorem history_step {act : WriteAction} (h : s.step mode act = some s') :
    (∃ k, 0 < k ∧ act = .write (.wrote k)) ∨
      s'.accepted = s.accepted ∧ s.put <+: s'.put ∧ (s.cut = true → s'.cut = true) := by
  cases act with
  | put msg =>
    obtain rfl := Option.some.inj h
    exact .inr ⟨rfl, List.prefix_append _ _, id⟩
  | mod =>
    obtain rfl := Option.some.inj h
    exact .inr ⟨rfl, List.prefix_rfl, id⟩
  | event =>
    obtain ⟨m, ms, -, -, rfl⟩ := event_eq_some h
    exact .inr ⟨rfl, List.prefix_rfl, id⟩
  | write r =>
    cases r with
    | wrote k =>
      rcases Nat.eq_zero_or_pos k with rfl | hk
      · obtain ⟨m, n, nwrite, -, -, rfl⟩ := wrote_eq_some h
        refine .inr ⟨?_, List.prefix_rfl, id⟩
        show s.accepted ++ List.take 0 _ = s.accepted
        rw [List.take_zero, List.append_nil]
      · exact .inl ⟨k, hk, rfl⟩
    | failed =>
      obtain ⟨m, n, nwrite, -, rfl⟩ := failed_eq_some h
      exact .inr ⟨rfl, List.prefix_rfl, id⟩
  | finish unset =>
    obtain ⟨m, nwrite, -, rfl⟩ := finish_eq_some h
    refine .inr ⟨rfl, List.prefix_rfl, fun hcut ↦ ?_⟩
    show (s.cut || _) = true
    rw [hcut, Bool.true_or]

theorem WritesRight.of_prefix (hright : WritesRight s) (haccepted : s'.accepted = s.accepted)
    (hput : s.put <+: s'.put) : WritesRight s' := by
  rw [WritesRight, haccepted]
  exact List.IsPrefix.trans hright hput.flatten

/-- After a message has been cut, nothing is accepted. -/
theorem writesRight_of_cut {act : WriteAction} (hcut : s.cut = true) (hright : WritesRight s)
    (hturn : InTurn s act) (h : s.step mode act = some s') : s'.cut = true ∧ WritesRight s' := by
  obtain ⟨k, hk, rfl⟩ | ⟨haccepted, hput, hkept⟩ := history_step h
  · rw [(hturn hk).1] at hcut
    cases hcut
  · exact ⟨hkept hcut, hright.of_prefix haccepted hput⟩

/-- **A step in turn.** -/
theorem Orderly.step {act : WriteAction} (O : Orderly s) (hturn : InTurn s act)
    (h : s.step mode act = some s') : Orderly s' := by
  obtain ⟨j, I⟩ | ⟨hcut, hright⟩ := O
  · cases act with
    | put msg => exact .inl ⟨j, I.put_step h⟩
    | mod =>
      obtain rfl := Option.some.inj h
      exact .inl ⟨j, I.cut, I.accepted, I.le_put, I.put, I.nodup, I.mem, I.old, I.taken, I.position⟩
    | event => exact .inl ⟨j, I.event_step h⟩
    | write r =>
      cases r with
      | wrote k =>
        rcases Nat.eq_zero_or_pos k with rfl | hk
        · exact .inl ⟨j, I.write_zero h⟩
        · exact .inl (I.write_step hk (hturn hk).2 h)
      | failed => exact .inl ⟨j, I.write_failed h⟩
    | finish unset =>
      rcases hcut : s'.cut with _ | _
      · exact .inl (I.finish_step h hcut)
      · obtain ⟨k, -, hk⟩ | ⟨haccepted, hput, -⟩ := history_step h
        · cases hk
        · exact .inr ⟨hcut, I.writesRight.of_prefix haccepted hput⟩
  · exact .inr (writesRight_of_cut hcut hright hturn h)

/-- **What the kernel accepts is the beginning of what has been put**, in both modes, in every run
in which each `write` that accepts bytes comes in turn. -/
theorem writesRight_of_inTurn {mode : Mode} {acts : List WriteAction}
    (hturn : Machine.Always (WriteSide.step mode) InTurn .initial acts)
    (h : Machine.exec (WriteSide.step mode) .initial acts = some s) : WritesRight s :=
  (Machine.exec_invariant (I := Orderly) (fun _ _ _ O ht hs ↦ O.step ht hs)
    (.inl ⟨0, inOrder_initial⟩) hturn h).writesRight

/-- Two messages, edge-triggered: the first is written in two parts, the second only fails. -/
theorem writesRight_twoParts : ∃ s,
    Machine.exec (WriteSide.step .edgeTriggered) .initial
      [.put [97, 98], .put [99], .mod, .event, .write (.wrote 1), .write (.wrote 1), .finish 0,
        .mod, .event, .write .failed, .finish 0] = some s ∧ WritesRight s := by
  obtain ⟨s, hs⟩ : ∃ s, Machine.exec (WriteSide.step .edgeTriggered) .initial
      [.put [97, 98], .put [99], .mod, .event, .write (.wrote 1), .write (.wrote 1), .finish 0,
        .mod, .event, .write .failed, .finish 0] = some s := ⟨_, rfl⟩
  exact ⟨s, hs, writesRight_of_inTurn (by decide) hs⟩

/-- Two messages, level-triggered: one byte of the first is accepted, and the other is lost. -/
theorem not_forall_writesRight : ¬ ∀ (mode : Mode) (acts : List WriteAction) (s : WriteSide),
    Machine.exec (WriteSide.step mode) .initial acts = some s → WritesRight s := by
  intro hall
  have hright := hall .levelTriggered [.put [97, 98], .put [99, 100], .mod, .event,
    .write (.wrote 1), .finish 0, .mod, .event, .write (.wrote 2)] _ rfl
  exact absurd hright (by decide)

end Write

end Reactor
