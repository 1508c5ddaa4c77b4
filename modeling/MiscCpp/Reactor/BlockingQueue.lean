import Mathlib.Data.List.Basic
import Mathlib.Tactic.Common
import MiscCpp.Library.Machine

/-!
# The blocking queue

`BlockingQueue`, used by any number of threads, each in calls of `put`, `take()` and `take(T&)`. The
two semaphores are counters, and `sem_wait` can be passed when its counter is not zero.

The counter `items_`, the takers between it and their `pop_front` and the putters between their
`emplace_back` and `sem_post(&items_)` together make up the length of the deque. So it is a first
in, first out queue, and nothing is taken from it when it is empty (`isFifo`).

`take(T&)` looks at the length and then calls `take()`, which waits for `items_`. Between the two
the counter may be zero: another thread has taken the element, or the thread that has put it has not
posted `items_` yet. `pollsRight_iff` says when that does not happen.
-/

namespace Reactor

/-- What a call has returned: of `put`, of `take()`, of `take(T&)` with its argument if it was
written. -/
inductive Ret (α : Type*) where
  | put
  | take (t : α)
  | poll (ret : Bool) (t : Option α)
  deriving DecidableEq

/-- Where a thread is. The takes know whether `take(T&)` has called them. -/
inductive Pc (α : Type*) where
  | returned (r : Ret α)
  | putWaitMutex (t : α)
  | putEmplaceBack (t : α)
  | putPostMutex
  | putPostItems
  | pollWaitMutex
  | pollSize
  | pollPostMutex (ret : Bool)
  | takeWaitItems (poll : Bool)
  | takeWaitMutex (poll : Bool)
  | takePopFront (poll : Bool)
  | takePostMutex (poll : Bool) (t : α)
  deriving DecidableEq

/-- The queue, its threads, and a history: the elements appended and removed. -/
structure BlockingQueue (α : Type*) where
  mutex : ℕ
  items : ℕ
  queue : List α
  pcs : List (Pc α)
  appended : List α
  removed : List α

/-- The calls of the queue. -/
inductive Call (α : Type*) where
  | put (t : α)
  | take
  | poll
  deriving DecidableEq

/-- A thread that is in no call starts one, or a thread takes a step of its call. -/
inductive QueueAction (α : Type*) where
  | call (i : ℕ) (c : Call α)
  | step (i : ℕ)

variable {α : Type*}

/-- `sem_wait`, which waits at 0. No signal handler interrupts it: `put` and `take` do not look at
its result. -/
def semWait (n : ℕ) : Option ℕ := if n = 0 then none else some (n - 1)

/-- Where a call begins. -/
def Call.start : Call α → Pc α
  | .put t => .putWaitMutex t
  | .take => .takeWaitItems false
  | .poll => .pollWaitMutex

namespace BlockingQueue

variable (s : BlockingQueue α)

/-- The threads, all of them without a call, and an empty queue. -/
def initial (α : Type*) (n : ℕ) : BlockingQueue α where
  mutex := 1
  items := 0
  queue := []
  pcs := List.replicate n (.returned .put)
  appended := []
  removed := []

/-- A step of a thread in a call. `front` and `pop_front` of an empty deque are undefined. -/
def stepPc : Pc α → Option (BlockingQueue α × Pc α)
  | .returned _ => none
  | .putWaitMutex t => (semWait s.mutex).map fun m ↦ ({ s with mutex := m }, .putEmplaceBack t)
  | .putEmplaceBack t =>
    some ({ s with queue := s.queue ++ [t], appended := s.appended ++ [t] }, .putPostMutex)
  | .putPostMutex => some ({ s with mutex := s.mutex + 1 }, .putPostItems)
  | .putPostItems => some ({ s with items := s.items + 1 }, .returned .put)
  | .pollWaitMutex => (semWait s.mutex).map fun m ↦ ({ s with mutex := m }, .pollSize)
  | .pollSize => some (s, .pollPostMutex (decide (s.queue.length > 0)))
  | .pollPostMutex true => some ({ s with mutex := s.mutex + 1 }, .takeWaitItems true)
  | .pollPostMutex false => some ({ s with mutex := s.mutex + 1 }, .returned (.poll false none))
  | .takeWaitItems poll =>
    (semWait s.items).map fun n ↦ ({ s with items := n }, .takeWaitMutex poll)
  | .takeWaitMutex poll => (semWait s.mutex).map fun m ↦ ({ s with mutex := m }, .takePopFront poll)
  | .takePopFront poll =>
    match s.queue with
    | [] => none
    | t :: ts => some ({ s with queue := ts, removed := s.removed ++ [t] }, .takePostMutex poll t)
  | .takePostMutex true t =>
    some ({ s with mutex := s.mutex + 1 }, .returned (.poll true (some t)))
  | .takePostMutex false t => some ({ s with mutex := s.mutex + 1 }, .returned (.take t))

/-- The queue after a call begins, or after one of its steps. -/
def step : QueueAction α → Option (BlockingQueue α)
  | .call i c =>
    match s.pcs[i]? with
    | some (.returned _) => some { s with pcs := s.pcs.set i c.start }
    | _ => none
  | .step i => (s.pcs[i]?).bind fun pc ↦ (s.stepPc pc).map fun (s', pc') ↦
    { s' with pcs := s.pcs.set i pc' }

end BlockingQueue

/-! ### What it is to do -/

namespace Pc

/-- In the critical section. -/
def inside : Pc α → Bool
  | .putEmplaceBack _ | .putPostMutex | .pollSize | .pollPostMutex _ | .takePopFront _
  | .takePostMutex .. => true
  | _ => false

/-- The taker has passed `items_`, and has not popped yet. -/
def passed : Pc α → Bool
  | .takeWaitMutex _ | .takePopFront _ => true
  | _ => false

/-- The putter has appended its element, and not posted `items_` yet. -/
def unposted : Pc α → Bool
  | .putPostMutex | .putPostItems => true
  | _ => false

end Pc

/-- A first in, first out queue. -/
structure IsFifo (s : BlockingQueue α) : Prop where
  items_le : s.items + s.pcs.countP Pc.passed ≤ s.queue.length
  one_inside : s.pcs.countP Pc.inside ≤ 1
  pop : ∀ poll, .takePopFront poll ∈ s.pcs → s.queue ≠ []
  prefix_appended : s.removed <+: s.appended

/-- The take that polls does not wait for `items_`; it removes an element, or returns false. -/
structure PollsRight (s : BlockingQueue α) : Prop where
  not_waiting : .takeWaitItems true ∈ s.pcs → 0 < s.items
  returned : ∀ ret t, .returned (.poll ret t) ∈ s.pcs →
    ret = t.isSome ∧ ∀ x, t = some x → x ∈ s.removed

/-- After the step, if it is possible, no take that polls waits. -/
def PollsRightAfter (s : BlockingQueue α) (act : QueueAction α) : Prop :=
  ∀ s', s.step act = some s' → PollsRight s'

/-- A take that polls and has seen an element finds `items_` posted when it gives up the mutex, and
no thread takes the last of `items_` while another take that polls is waiting for it. -/
def LeavesItems (s : BlockingQueue α) : QueueAction α → Prop
  | .call _ _ => True
  | .step i =>
    (s.pcs[i]? = some (.pollPostMutex true) → 0 < s.items) ∧
    ∀ poll, s.pcs[i]? = some (.takeWaitItems poll) → s.items = 1 →
      ∀ j, j ≠ i → s.pcs[j]? ≠ some (.takeWaitItems true)

/-! ### One step -/

variable {s s' : BlockingQueue α} {pc pc' : Pc α} {i j : ℕ}

theorem semWait_eq_some {n m : ℕ} (h : semWait n = some m) : n = m + 1 := by
  obtain ⟨hne, hm⟩ := Option.ite_none_left_eq_some.1 h
  obtain rfl := Option.some.inj hm
  exact (Nat.succ_pred_eq_of_ne_zero hne).symm

/-- A thread that is in no call starts one, or a thread takes a step of its call. -/
theorem step_eq_some {act : QueueAction α} (h : s.step act = some s') :
    (∃ i c r, act = .call i c ∧ s.pcs[i]? = some (.returned r) ∧
      s' = { s with pcs := s.pcs.set i c.start }) ∨
    ∃ i pc s₁ pc', act = .step i ∧ s.pcs[i]? = some pc ∧ s.stepPc pc = some (s₁, pc') ∧
      s' = { s₁ with pcs := s.pcs.set i pc' } := by
  cases act with
  | call i c =>
    rw [BlockingQueue.step] at h
    split at h
    next r hr => exact .inl ⟨i, c, r, rfl, hr, (Option.some.inj h).symm⟩
    next => cases h
  | step i =>
    obtain ⟨pc, hpc, h⟩ := Option.bind_eq_some_iff.1 h
    obtain ⟨⟨s₁, pc'⟩, h₁, rfl⟩ := Option.map_eq_some_iff.1 h
    exact .inr ⟨i, pc, s₁, pc', rfl, hpc, h₁, rfl⟩

/-- The count of the threads with a property, when one of them goes on. -/
theorem countP_set_add (p : Pc α → Bool) {pcs : List (Pc α)} (h : pcs[i]? = some pc)
    (pc' : Pc α) :
    (pcs.set i pc').countP p + (p pc).toNat = pcs.countP p + (p pc').toNat := by
  induction pcs generalizing i with
  | nil => cases h
  | cons a pcs ih =>
    cases i with
    | zero =>
      obtain rfl := Option.some.inj h
      rw [List.set_cons_zero, List.countP_cons, List.countP_cons]
      cases p a <;> cases p pc' <;> simp
    | succ i =>
      have hrest := ih (i := i) h
      rw [List.set_cons_succ, List.countP_cons, List.countP_cons]
      omega

/-- What a step does to the counters, the deque and the history, against where the thread is. -/
structure Balanced (s : BlockingQueue α) (pc : Pc α) (s' : BlockingQueue α) (pc' : Pc α) :
    Prop where
  items : s'.items + pc'.passed.toNat + pc'.unposted.toNat + s.queue.length =
    s.items + pc.passed.toNat + pc.unposted.toNat + s'.queue.length
  mutex : s'.mutex + pc'.inside.toNat = s.mutex + pc.inside.toNat
  history : s.appended = s.removed ++ s.queue → s'.appended = s'.removed ++ s'.queue

theorem balanced_stepPc (h : s.stepPc pc = some (s', pc')) : Balanced s pc s' pc' := by
  cases pc with
  | returned r => cases h
  | putWaitMutex t | pollWaitMutex | takeWaitMutex poll =>
    obtain ⟨m, hm, heq⟩ := Option.map_eq_some_iff.1 h
    obtain ⟨rfl, rfl⟩ := Prod.mk.inj heq
    exact ⟨rfl, (semWait_eq_some hm).symm, id⟩
  | takeWaitItems poll =>
    obtain ⟨n, hn, heq⟩ := Option.map_eq_some_iff.1 h
    obtain ⟨rfl, rfl⟩ := Prod.mk.inj heq
    refine ⟨?_, rfl, id⟩
    rw [semWait_eq_some hn]
    rfl
  | putEmplaceBack t =>
    obtain ⟨rfl, rfl⟩ := Prod.mk.inj (Option.some.inj h)
    refine ⟨?_, rfl, fun hist ↦ ?_⟩
    · show s.items + 0 + 1 + s.queue.length = s.items + 0 + 0 + (s.queue ++ [t]).length
      rw [List.length_append, List.length_singleton]
      omega
    · show s.appended ++ [t] = s.removed ++ (s.queue ++ [t])
      rw [hist, List.append_assoc]
  | takePopFront poll =>
    rw [BlockingQueue.stepPc] at h
    split at h
    next => cases h
    next t ts hqueue =>
      obtain ⟨rfl, rfl⟩ := Prod.mk.inj (Option.some.inj h)
      refine ⟨?_, rfl, fun hist ↦ ?_⟩
      · show s.items + 0 + 0 + s.queue.length = s.items + 1 + 0 + ts.length
        rw [hqueue, List.length_cons]
        omega
      · show s.appended = s.removed ++ [t] ++ ts
        rw [hist, hqueue, List.append_assoc, List.singleton_append]
  | pollPostMutex ret =>
    cases ret <;>
    · obtain ⟨rfl, rfl⟩ := Prod.mk.inj (Option.some.inj h)
      exact ⟨rfl, rfl, id⟩
  | takePostMutex poll t =>
    cases poll <;>
    · obtain ⟨rfl, rfl⟩ := Prod.mk.inj (Option.some.inj h)
      exact ⟨rfl, rfl, id⟩
  | putPostItems =>
    obtain ⟨rfl, rfl⟩ := Prod.mk.inj (Option.some.inj h)
    exact ⟨rfl, rfl, id⟩
  | putPostMutex | pollSize =>
    obtain ⟨rfl, rfl⟩ := Prod.mk.inj (Option.some.inj h)
    exact ⟨rfl, rfl, id⟩

/-! ### A first in, first out queue -/

/-- The counters are the threads on their way, and the history is the deque. -/
structure Counted (s : BlockingQueue α) : Prop where
  items : s.items + s.pcs.countP Pc.passed + s.pcs.countP Pc.unposted = s.queue.length
  mutex : s.mutex + s.pcs.countP Pc.inside = 1
  history : s.appended = s.removed ++ s.queue

theorem counted_initial (n : ℕ) : Counted (.initial α n) := by
  have hnone (p : Pc α → Bool) (h : p (.returned .put) = false) :
      (List.replicate n (Pc.returned .put)).countP p = 0 := by
    rw [List.countP_eq_zero]
    intro pc hpc
    rw [List.eq_of_mem_replicate hpc, h]
    exact Bool.false_ne_true
  constructor
  · show 0 + _ + _ = 0
    rw [BlockingQueue.initial, hnone _ rfl, hnone _ rfl]
  · show 1 + _ = 1
    rw [BlockingQueue.initial, hnone _ rfl]
  · rfl

/-- **A step** keeps the counts. -/
theorem Counted.step {act : QueueAction α} (C : Counted s) (h : s.step act = some s') :
    Counted s' := by
  obtain ⟨i, c, r, -, hr, rfl⟩ | ⟨i, pc, s₁, pc', -, hpc, h₁, rfl⟩ := step_eq_some h
  · have hcount (p : Pc α → Bool) (hr₀ : p (.returned r) = false) (hc : p c.start = false) :
        (s.pcs.set i c.start).countP p = s.pcs.countP p := by
      have hset := countP_set_add p hr c.start
      rwa [hr₀, hc] at hset
    refine ⟨?_, ?_, C.history⟩
    · show s.items + (s.pcs.set i c.start).countP _ + (s.pcs.set i c.start).countP _ =
        s.queue.length
      rw [hcount _ rfl (by cases c <;> rfl), hcount _ rfl (by cases c <;> rfl), C.items]
    · show s.mutex + (s.pcs.set i c.start).countP _ = 1
      rw [hcount _ rfl (by cases c <;> rfl), C.mutex]
  · have B := balanced_stepPc h₁
    have hpassed := countP_set_add Pc.passed hpc pc'
    have hunposted := countP_set_add Pc.unposted hpc pc'
    have hinside := countP_set_add Pc.inside hpc pc'
    have hitems := B.items
    have hmutex := B.mutex
    have hC := C.items
    have hM := C.mutex
    refine ⟨?_, ?_, B.history C.history⟩
    · show s₁.items + (s.pcs.set i pc').countP _ + (s.pcs.set i pc').countP _ = s₁.queue.length
      omega
    · show s₁.mutex + (s.pcs.set i pc').countP _ = 1
      omega

theorem Counted.toIsFifo (C : Counted s) : IsFifo s where
  items_le := by
    rw [← C.items]
    exact Nat.le_add_right _ _
  one_inside := by
    rw [← C.mutex]
    exact Nat.le_add_left _ _
  pop poll hpop hqueue := by
    have hpos : 0 < s.pcs.countP Pc.passed := List.countP_pos_iff.2 ⟨_, hpop, rfl⟩
    have hitems := C.items
    rw [hqueue, List.length_nil] at hitems
    omega
  prefix_appended := ⟨s.queue, C.history.symm⟩

/-- **The queue is first in, first out** in every state that any number of threads reach. -/
theorem isFifo {n : ℕ} {acts : List (QueueAction α)}
    (h : Machine.exec BlockingQueue.step (.initial α n) acts = some s) : IsFifo s :=
  (Machine.exec_invariant' (fun _ _ _ C hs ↦ C.step hs) (counted_initial n) h).toIsFifo

/-- A producer and two consumers, one of them polling. -/
theorem isFifo_producerConsumers : ∃ s,
    Machine.exec BlockingQueue.step (.initial ℕ 3)
      [.call 0 (.put 7), .call 1 .take, .call 2 .poll, .step 0, .step 0, .step 0, .step 2, .step 2,
        .step 0, .step 1, .step 2, .step 1] = some s ∧ IsFifo s := by
  obtain ⟨s, hs⟩ : ∃ s, Machine.exec BlockingQueue.step (.initial ℕ 3)
      [.call 0 (.put 7), .call 1 .take, .call 2 .poll, .step 0, .step 0, .step 0, .step 2, .step 2,
        .step 0, .step 1, .step 2, .step 1] = some s := ⟨_, rfl⟩
  exact ⟨s, hs, isFifo hs⟩

/-! ### The take that polls -/

/-- A step gets a take that polls to `items_`, or takes one of `items_`, or does neither. -/
theorem stepPc_items (h : s.stepPc pc = some (s', pc')) :
    pc = .pollPostMutex true ∧ pc' = .takeWaitItems true ∧ s'.items = s.items ∨
    (∃ poll, pc = .takeWaitItems poll) ∧ pc' ≠ .takeWaitItems true ∧ s.items = s'.items + 1 ∨
    (pc ≠ .pollPostMutex true ∧ ∀ poll, pc ≠ .takeWaitItems poll) ∧ pc' ≠ .takeWaitItems true ∧
      s.items ≤ s'.items := by
  cases pc with
  | returned r => cases h
  | putWaitMutex t | pollWaitMutex | takeWaitMutex poll =>
    obtain ⟨m, hm, heq⟩ := Option.map_eq_some_iff.1 h
    obtain ⟨rfl, rfl⟩ := Prod.mk.inj heq
    exact .inr (.inr ⟨⟨nofun, nofun⟩, nofun, Nat.le_refl _⟩)
  | takeWaitItems poll =>
    obtain ⟨n, hn, heq⟩ := Option.map_eq_some_iff.1 h
    obtain ⟨rfl, rfl⟩ := Prod.mk.inj heq
    exact .inr (.inl ⟨⟨poll, rfl⟩, nofun, semWait_eq_some hn⟩)
  | takePopFront poll =>
    rw [BlockingQueue.stepPc] at h
    split at h
    next => cases h
    next t ts hqueue =>
      obtain ⟨rfl, rfl⟩ := Prod.mk.inj (Option.some.inj h)
      exact .inr (.inr ⟨⟨nofun, nofun⟩, nofun, Nat.le_refl _⟩)
  | pollPostMutex ret =>
    cases ret with
    | true =>
      obtain ⟨rfl, rfl⟩ := Prod.mk.inj (Option.some.inj h)
      exact .inl ⟨rfl, rfl, rfl⟩
    | false =>
      obtain ⟨rfl, rfl⟩ := Prod.mk.inj (Option.some.inj h)
      exact .inr (.inr ⟨⟨nofun, nofun⟩, nofun, Nat.le_refl _⟩)
  | takePostMutex poll t =>
    cases poll <;>
    · obtain ⟨rfl, rfl⟩ := Prod.mk.inj (Option.some.inj h)
      exact .inr (.inr ⟨⟨nofun, nofun⟩, nofun, Nat.le_refl _⟩)
  | putPostItems =>
    obtain ⟨rfl, rfl⟩ := Prod.mk.inj (Option.some.inj h)
    exact .inr (.inr ⟨⟨nofun, nofun⟩, nofun, Nat.le_succ _⟩)
  | putEmplaceBack t | putPostMutex | pollSize =>
    obtain ⟨rfl, rfl⟩ := Prod.mk.inj (Option.some.inj h)
    exact .inr (.inr ⟨⟨nofun, nofun⟩, nofun, Nat.le_refl _⟩)

/-- The elements that the takes hold, or have returned, have been removed. -/
structure Returned (s : BlockingQueue α) : Prop where
  taken : ∀ poll t, .takePostMutex poll t ∈ s.pcs → t ∈ s.removed
  returned : ∀ ret t, .returned (.poll ret t) ∈ s.pcs →
    ret = t.isSome ∧ ∀ x, t = some x → x ∈ s.removed

theorem stepPc_returned (h : s.stepPc pc = some (s', pc')) :
    (∀ x ∈ s.removed, x ∈ s'.removed) ∧
    (∀ poll t, pc' = .takePostMutex poll t → t ∈ s'.removed) ∧
    ∀ ret t, pc' = .returned (.poll ret t) →
      ret = false ∧ t = none ∨ ∃ x, pc = .takePostMutex true x ∧ ret = true ∧ t = some x := by
  cases pc with
  | returned r => cases h
  | putWaitMutex t | pollWaitMutex | takeWaitItems poll | takeWaitMutex poll =>
    obtain ⟨m, hm, heq⟩ := Option.map_eq_some_iff.1 h
    obtain ⟨rfl, rfl⟩ := Prod.mk.inj heq
    exact ⟨fun _ hx ↦ hx, nofun, nofun⟩
  | takePopFront poll =>
    rw [BlockingQueue.stepPc] at h
    split at h
    next => cases h
    next t ts hqueue =>
      obtain ⟨rfl, rfl⟩ := Prod.mk.inj (Option.some.inj h)
      refine ⟨fun x hx ↦ List.mem_append_left _ hx, ?_, nofun⟩
      rintro _ _ ⟨⟩
      exact List.mem_append_right _ List.mem_cons_self
  | pollPostMutex ret =>
    cases ret with
    | true =>
      obtain ⟨rfl, rfl⟩ := Prod.mk.inj (Option.some.inj h)
      exact ⟨fun _ hx ↦ hx, nofun, nofun⟩
    | false =>
      obtain ⟨rfl, rfl⟩ := Prod.mk.inj (Option.some.inj h)
      refine ⟨fun _ hx ↦ hx, nofun, ?_⟩
      rintro _ _ ⟨⟩
      exact .inl ⟨rfl, rfl⟩
  | takePostMutex poll t =>
    cases poll with
    | true =>
      obtain ⟨rfl, rfl⟩ := Prod.mk.inj (Option.some.inj h)
      refine ⟨fun _ hx ↦ hx, nofun, ?_⟩
      rintro _ _ ⟨⟩
      exact .inr ⟨t, rfl, rfl, rfl⟩
    | false =>
      obtain ⟨rfl, rfl⟩ := Prod.mk.inj (Option.some.inj h)
      exact ⟨fun _ hx ↦ hx, nofun, nofun⟩
  | putEmplaceBack t | putPostMutex | putPostItems | pollSize =>
    obtain ⟨rfl, rfl⟩ := Prod.mk.inj (Option.some.inj h)
    exact ⟨fun _ hx ↦ hx, nofun, nofun⟩

/-- **A step** keeps what the takes have. -/
theorem Returned.step {act : QueueAction α} (R : Returned s) (h : s.step act = some s') :
    Returned s' := by
  obtain ⟨i, c, r, -, hr, rfl⟩ | ⟨i, pc, s₁, pc', -, hpc, h₁, rfl⟩ := step_eq_some h
  · constructor
    · intro poll t ht
      rcases List.mem_or_eq_of_mem_set ht with ht | heq
      · exact R.taken poll t ht
      · cases c <;> cases heq
    · intro ret t ht
      rcases List.mem_or_eq_of_mem_set ht with ht | heq
      · exact R.returned ret t ht
      · cases c <;> cases heq
  · obtain ⟨hremoved, htaken, hreturned⟩ := stepPc_returned h₁
    constructor
    · intro poll t ht
      rcases List.mem_or_eq_of_mem_set ht with ht | heq
      · exact hremoved t (R.taken poll t ht)
      · exact htaken poll t heq.symm
    · intro ret t ht
      rcases List.mem_or_eq_of_mem_set ht with ht | heq
      · obtain ⟨hret, hx⟩ := R.returned ret t ht
        exact ⟨hret, fun x h ↦ hremoved x (hx x h)⟩
      · obtain ⟨rfl, rfl⟩ | ⟨x, rfl, rfl, rfl⟩ := hreturned ret t heq.symm
        · exact ⟨rfl, nofun⟩
        · refine ⟨rfl, fun y hy ↦ hremoved y (R.taken true y ?_)⟩
          obtain rfl := Option.some.inj hy
          exact List.mem_of_getElem? hpc

theorem returned_initial (n : ℕ) : Returned (.initial α n) where
  taken poll t ht := by cases List.eq_of_mem_replicate ht
  returned ret t ht := by cases List.eq_of_mem_replicate ht

/-- **A step** leaves no take that polls waiting exactly if it leaves it one of `items_`. -/
theorem not_waiting_iff {act : QueueAction α} (hs : .takeWaitItems true ∈ s.pcs → 0 < s.items)
    (h : s.step act = some s') :
    (.takeWaitItems true ∈ s'.pcs → 0 < s'.items) ↔ LeavesItems s act := by
  obtain ⟨i, c, r, rfl, hr, rfl⟩ | ⟨i, pc, s₁, pc', rfl, hpc, h₁, rfl⟩ := step_eq_some h
  · refine iff_of_true (fun hmem ↦ ?_) trivial
    refine hs ((List.mem_or_eq_of_mem_set hmem).resolve_right fun heq ↦ ?_)
    cases c <;> cases heq
  · have hlt : i < s.pcs.length := (List.getElem?_eq_some_iff.1 hpc).1
    show (.takeWaitItems true ∈ s.pcs.set i pc' → 0 < s₁.items) ↔ _
    rw [LeavesItems, hpc]
    obtain ⟨rfl, rfl, hitems⟩ | ⟨⟨poll, rfl⟩, hne, hitems⟩ | ⟨⟨hpost, hwait⟩, hne, hitems⟩ :=
      stepPc_items h₁
    · rw [hitems]
      constructor
      · exact fun hpos ↦ ⟨fun _ ↦ hpos (List.mem_set hlt _), nofun⟩
      · exact fun hpos _ ↦ hpos.1 rfl
    · constructor
      · refine fun hpos ↦ ⟨nofun, fun poll' _ hone j hj hpoll ↦ ?_⟩
        have hmem : .takeWaitItems true ∈ s.pcs.set i pc' :=
          List.mem_of_getElem? ((List.getElem?_set_ne hj.symm).trans hpoll)
        have hleft := hpos hmem
        omega
      · intro hleaves hmem
        -- the thread that waits now is another one, and has waited before
        obtain ⟨j, hj⟩ := List.mem_iff_getElem?.1 hmem
        rcases eq_or_ne i j with rfl | hij
        · rw [List.getElem?_set_self hlt] at hj
          exact absurd (Option.some.inj hj) hne
        · rw [List.getElem?_set_ne hij] at hj
          have hone : s.items ≠ 1 := fun hone ↦ hleaves.2 poll rfl hone j hij.symm hj
          omega
    · refine iff_of_true (fun hmem ↦ ?_) ⟨fun h ↦ absurd (Option.some.inj h) hpost, fun poll h ↦
        absurd (Option.some.inj h) (hwait poll)⟩
      have hmem := (List.mem_or_eq_of_mem_set hmem).resolve_right hne.symm
      exact Nat.lt_of_lt_of_le (hs hmem) hitems

/-- The steps that the condition is about are possible. -/
theorem leavesItems_of_eq_none {act : QueueAction α} (h : s.step act = none) :
    LeavesItems s act := by
  cases act with
  | call i c => trivial
  | step i =>
    constructor
    · intro hpc
      rw [BlockingQueue.step, hpc] at h
      cases h
    · intro poll hpc hone
      rw [BlockingQueue.step, hpc, Option.bind_some, BlockingQueue.stepPc, hone] at h
      cases h

/-- **Exactly when the take that polls never waits for `items_`**: each one that has seen an element
still finds one of `items_`, and none is taken away from it. -/
theorem pollsRight_iff {n : ℕ} {acts : List (QueueAction α)} :
    Machine.Always BlockingQueue.step PollsRightAfter (.initial α n) acts ↔
      Machine.Always BlockingQueue.step LeavesItems (.initial α n) acts := by
  have hinit : (.takeWaitItems true ∈ (BlockingQueue.initial α n).pcs → 0 < 0) := fun h ↦ by
    cases List.eq_of_mem_replicate h
  refine Machine.always_congr_of_always (H := fun _ _ ↦ True)
    (I := fun s ↦ Returned s ∧ (.takeWaitItems true ∈ s.pcs → 0 < s.items))
    (fun s a s' I _ hright hs ↦ ⟨I.1.step hs, (hright s' hs).not_waiting⟩) (fun s a I _ ↦ ?_)
    ⟨returned_initial n, hinit⟩ (Machine.always_of_forall (fun _ _ ↦ trivial) _ _)
  constructor
  · intro hright
    rcases hs : s.step a with _ | s'
    · exact leavesItems_of_eq_none hs
    · exact (not_waiting_iff I.2 hs).1 (hright s' hs).not_waiting
  · intro hleaves s' hs
    exact ⟨(not_waiting_iff I.2 hs).2 hleaves, (I.1.step hs).returned⟩

/-- One element and two takes that poll: both see it, and the one that comes second waits for
`items_`. -/
theorem not_forall_pollsRight :
    ¬ ∀ (n : ℕ) (acts : List (QueueAction ℕ)),
      Machine.Always BlockingQueue.step PollsRightAfter (.initial ℕ n) acts := by
  intro hall
  have hrun := hall 3 ([.call 0 (.put 7), .step 0, .step 0, .step 0, .step 0] ++
    [.call 1 .poll, .step 1, .step 1, .step 1, .call 2 .poll, .step 2, .step 2, .step 2] ++
    .step 1 :: [])
  have hlast := Machine.always_step hrun rfl _ rfl
  exact absurd (hlast.not_waiting (by decide)) (by decide)

end Reactor
