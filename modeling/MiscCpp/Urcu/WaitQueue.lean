import Mathlib.Data.Nat.Notation
import Mathlib.Logic.Function.Basic
import Mathlib.Order.Nat
import Mathlib.Tactic.Common
import MiscCpp.Library.Machine

/-!
# The queue of the waiting writers

`synchronize_rcu` without readers, in any number of threads: `wait_queue_push` by an exchange of the
head and a later store of `node->next`, `wait_queue_move` by the first of the queue, its loop of
wake-ups, and `adaptative_busy_wait` in the others. The node of a call is on its stack, and the call
can return as soon as its node has `RCU_WAIT_TEARDOWN`.

The loop reads `it->next` after it has set that flag; it leaves out a waiter that runs already,
which then waits for ever; and it comes to an end at a node whose `next` is not stored yet. All of
that needs a node other than the leader's own. So the leader does what it is to do if it finds its
own node at the head, and in no other case, once it has returned (`wakesRight`).
-/

open Function

namespace Urcu

/-- The thread that has called `synchronize_rcu`, by its node on the queue. -/
abbrev NodeId := ℕ

def RCU_WAIT_WAITING : BitVec 32 := 0
def RCU_WAIT_WAKEUP : BitVec 32 := 1#32 <<< 0
def RCU_WAIT_RUNNING : BitVec 32 := 1#32 <<< 1
def RCU_WAIT_TEARDOWN : BitVec 32 := 1#32 <<< 2

/-- Where a call is: outside; behind the exchange; a waiter in `adaptative_busy_wait`; or the
leader, up to the move, and behind it at the node `it` of the loop. -/
inductive SyncPc where
  | outside
  | pushed (oldHead : Option NodeId)
  | busyWait
  | skipFutex
  | waitTeardown
  | setRunning
  | lockGp
  | move
  | unlock (it : Option NodeId)
  | loop (it : Option NodeId)
  | wakeStore (it : NodeId)
  | wakeLoad (it : NodeId)
  | wakeTeardown (it : NodeId)
  | advance (it : NodeId)
  | returned
  deriving DecidableEq

/-- `gp_waiters`, the nodes and the lock, with a history: how many exchanges there were, the number
of each node's, what it got, the first node of the queue that it went to, and the number of
exchanges before a leader's move. -/
structure GpWaiters where
  head : Option NodeId
  next : NodeId → Option NodeId
  state : NodeId → BitVec 32
  rcuGpLock : Bool
  pc : NodeId → SyncPc
  count : ℕ
  time : NodeId → Option ℕ
  oldHead : NodeId → Option NodeId
  first : NodeId → NodeId
  moved : NodeId → Option ℕ

/-- A step of a call, or the return of its `FUTEX_WAIT`, which need not have a reason. -/
inductive SyncAction where
  | step (node : NodeId)
  | wake (node : NodeId)

namespace GpWaiters

variable (s : GpWaiters)

def initial : GpWaiters where
  head := none
  next _ := none
  state _ := RCU_WAIT_WAITING
  rcuGpLock := false
  pc _ := .outside
  count := 0
  time _ := none
  oldHead _ := none
  first n := n
  moved _ := none

/-- The thread goes on. -/
def goto (node : NodeId) (pc : SyncPc) : GpWaiters := { s with pc := update s.pc node pc }

/-- Write the state word of a node. -/
def setState (node : NodeId) (v : BitVec 32) : GpWaiters :=
  { s with state := update s.state node v }

/-- The exchange of `wait_queue_push`. -/
def exchange (node : NodeId) : GpWaiters :=
  { s with
    head := some node
    count := s.count + 1
    time := update s.time node (some s.count)
    oldHead := update s.oldHead node s.head
    first := update s.first node (match s.head with | none => node | some h => s.first h) }

/-- `wait_queue_move`. -/
def waitQueueMove (node : NodeId) : GpWaiters :=
  { s with head := none, moved := update s.moved node (some s.count) }

/-- The next access of a thread. -/
def step : SyncAction → Option GpWaiters
  | .step node =>
    match s.pc node with
    | .outside => some ((s.exchange node).goto node (.pushed s.head))
    | .pushed oldHead =>
      some ({ s with next := update s.next node oldHead }.goto node
        (if oldHead.isSome then .busyWait else .setRunning))
    | .busyWait => if s.state node ≠ RCU_WAIT_WAITING then some (s.goto node .skipFutex) else none
    | .skipFutex =>
      some ((s.setState node (s.state node ||| RCU_WAIT_RUNNING)).goto node .waitTeardown)
    | .waitTeardown =>
      if s.state node &&& RCU_WAIT_TEARDOWN ≠ 0 then some (s.goto node .returned) else none
    | .setRunning => some ((s.setState node RCU_WAIT_RUNNING).goto node .lockGp)
    | .lockGp =>
      if s.rcuGpLock then none else some ({ s with rcuGpLock := true }.goto node .move)
    | .move => some ((s.waitQueueMove node).goto node (.unlock s.head))
    | .unlock it => some ({ s with rcuGpLock := false }.goto node (.loop it))
    | .loop none => some (s.goto node .returned)
    | .loop (some it) =>
      some (s.goto node
        (if s.state it &&& RCU_WAIT_RUNNING = 0 then .wakeStore it else .advance it))
    -- `adaptative_wake_up`
    | .wakeStore it => some ((s.setState it RCU_WAIT_WAKEUP).goto node (.wakeLoad it))
    | .wakeLoad it => some (s.goto node (.wakeTeardown it))
    | .wakeTeardown it =>
      some ((s.setState it (s.state it ||| RCU_WAIT_TEARDOWN)).goto node (.advance it))
    | .advance it => some (s.goto node (.loop (s.next it)))
    | .returned => none
  | .wake node => if s.pc node = .busyWait then some (s.goto node .skipFutex) else none

end GpWaiters

/-! ### What the leader is to do -/

/-- The owner can go on to return whatever the others do. -/
def Torn (s : GpWaiters) (n : NodeId) : Prop := s.state n &&& RCU_WAIT_TEARDOWN ≠ 0

/-- The node that the next step of the call reads. -/
def SyncPc.reads : SyncPc → Option NodeId
  | .loop it => it
  | .wakeLoad it | .wakeTeardown it | .advance it => some it
  | _ => none

/-- The leader reads no field of another node when its owner can have returned. -/
def ReadsLive (s : GpWaiters) : SyncAction → Prop
  | .step node => ∀ it, (s.pc node).reads = some it → it ≠ node → ¬ Torn s it ∧ s.pc it ≠ .returned
  | .wake _ => True

/-- When a leader has returned, the nodes of others that were pushed before its move are torn down,
if they are not leaders'. -/
def TornDown (s : GpWaiters) : Prop :=
  ∀ leader m, s.pc leader = .returned → s.moved leader = some m →
    ∀ n t, s.time n = some t → t < m → s.oldHead n ≠ none → Torn s n

/-- No leader reads a node that may be gone, and the nodes that it has moved are torn down. -/
def WakesRight (acts : List SyncAction) (s : GpWaiters) : Prop :=
  Machine.Always GpWaiters.step ReadsLive .initial acts ∧ TornDown s

/-- A leader that moves the queue finds its own node at the head. -/
def MovesAlone (s : GpWaiters) : SyncAction → Prop
  | .step node => s.pc node = .move → s.head = some node
  | .wake _ => True

instance (s : GpWaiters) (act : SyncAction) : Decidable (MovesAlone s act) :=
  match act with
  | .step node => inferInstanceAs (Decidable (s.pc node = .move → s.head = some node))
  | .wake _ => isTrue trivial

/-- Every leader that has moved the queue has returned. -/
def Complete (s : GpWaiters) : Prop := ∀ leader, s.moved leader ≠ none → s.pc leader = .returned

/-! ### The queue as the leaders see it -/

/-- A leader before its move. -/
def SyncPc.pending : SyncPc → Prop
  | .pushed none | .setRunning | .lockGp | .move => True
  | _ => False

/-- The node at which a leader is behind its move. -/
def SyncPc.cur : SyncPc → Option NodeId
  | .unlock it | .loop it => it
  | .wakeStore it | .wakeLoad it | .wakeTeardown it | .advance it => some it
  | _ => none

variable {s s' : GpWaiters} {n x : NodeId}

/-- The nodes come in queues, each with the leader as its first node. The head is the last node of
all, and belongs to the leader that has not moved its queue yet; the others are in their own queues,
whose nodes lead only to older ones. -/
structure Queued (s : GpWaiters) : Prop where
  outside : ∀ n, s.pc n = .outside → s.time n = none
  untouched : ∀ n, s.time n = none →
    s.pc n = .outside ∧ s.next n = none ∧ s.state n = RCU_WAIT_WAITING ∧ s.moved n = none
  lt : ∀ n t, s.time n = some t → t < s.count
  old : ∀ n m, s.oldHead n = some m →
    ∃ a b, s.time m = some a ∧ s.time n = some b ∧ a < b ∧ s.first m = s.first n
  first : ∀ n, s.oldHead n = none → s.first n = n
  first_lt : ∀ n, s.oldHead n ≠ none →
    ∃ a b, s.time (s.first n) = some a ∧ s.time n = some b ∧ a < b
  head : ∀ h, s.head = some h →
    (∃ c, s.time h = some c ∧ s.count = c + 1) ∧ s.moved (s.first h) = none
  pending : ∀ n, (s.pc n).pending → s.oldHead n = none ∧ ∃ h, s.head = some h ∧ s.first h = n
  stored : ∀ n old, s.pc n = .pushed old → s.oldHead n = old
  next : ∀ n, s.next n = none ∨ s.next n = s.oldHead n
  cur : ∀ n it, (s.pc n).cur = some it → s.first it = n ∧ s.time it ≠ none ∧ s.moved n ≠ none
  torn : ∀ n, Torn s n → s.moved (s.first n) ≠ none
  moved_le : ∀ n m, s.moved n = some m → m ≤ s.count

theorem not_torn_waiting (h : s.state n = RCU_WAIT_WAITING) : ¬ Torn s n := by
  rw [Torn, h]
  decide

theorem queued_initial : Queued .initial where
  outside _ _ := rfl
  untouched _ _ := ⟨rfl, rfl, rfl, rfl⟩
  lt _ _ h := by cases h
  old _ _ h := by cases h
  first _ _ := rfl
  first_lt _ h := absurd rfl h
  head _ h := by cases h
  pending _ h := h.elim
  stored _ _ h := by cases h
  next _ := .inl rfl
  cur _ _ h := by cases h
  torn _ h := absurd h (not_torn_waiting rfl)
  moved_le _ _ h := by cases h

/-- An exchange by `n`: what the others have stays, and `n` gets the place behind the head. -/
structure Exchanged (s : GpWaiters) (n : NodeId) (s' : GpWaiters) : Prop where
  head : s'.head = some n
  count : s'.count = s.count + 1
  next : s'.next = s.next
  state : s'.state = s.state
  moved : s'.moved = s.moved
  self : s'.pc n = .pushed s.head ∧ s'.time n = some s.count ∧ s'.oldHead n = s.head
  first_none : s.head = none → s'.first n = n
  first_some : ∀ h, s.head = some h → s'.first n = s.first h
  other : ∀ x, x ≠ n → s'.pc x = s.pc x ∧ s'.time x = s.time x ∧ s'.oldHead x = s.oldHead x ∧
    s'.first x = s.first x

theorem exchanged (s : GpWaiters) (n : NodeId) :
    Exchanged s n ((s.exchange n).goto n (.pushed s.head)) where
  head := rfl
  count := rfl
  next := rfl
  state := rfl
  moved := rfl
  self := ⟨update_self .., update_self .., update_self ..⟩
  first_none h := by
    show update s.first n _ n = n
    rw [update_self, h]
  first_some h hh := by
    show update s.first n _ n = s.first h
    rw [update_self, hh]
  other x hx := ⟨update_of_ne hx .., update_of_ne hx .., update_of_ne hx .., update_of_ne hx ..⟩

/-- The leader of a node has been pushed. -/
theorem Queued.exists_time_first (Q : Queued s) {t : ℕ} (h : s.time n = some t) :
    ∃ a, s.time (s.first n) = some a := by
  rcases hold : s.oldHead n with _ | m
  · exact ⟨t, by rw [Q.first n hold, h]⟩
  · obtain ⟨a, -, ha, -⟩ := Q.first_lt n (hold ▸ nofun)
    exact ⟨a, ha⟩

/-- The head and its leader have been pushed before the next push. -/
theorem Queued.time_head (Q : Queued s) {h : NodeId} (hh : s.head = some h) :
    (∃ a, s.time (s.first h) = some a ∧ a < s.count) ∧ ∃ c, s.time h = some c ∧ c < s.count := by
  obtain ⟨⟨c, hc, -⟩, -⟩ := Q.head h hh
  obtain ⟨a, ha⟩ := Q.exists_time_first hc
  exact ⟨⟨a, ha, Q.lt _ _ ha⟩, c, hc, Q.lt _ _ hc⟩

/-- **The exchange.** -/
theorem Queued.exchange (Q : Queued s) (hpc : s.pc n = .outside) (E : Exchanged s n s') :
    Queued s' := by
  have hnew := Q.outside n hpc
  obtain ⟨-, hnext, hstate, hmoved⟩ := Q.untouched n hnew
  -- the nodes that others know are not the new one
  have hne : ∀ x, s.time x ≠ none → x ≠ n := by
    rintro x hx rfl
    exact hx hnew
  have holdne : ∀ x m, s.oldHead x = some m → x ≠ n ∧ m ≠ n := fun x m h ↦ by
    obtain ⟨a, b, ha, hb, -⟩ := Q.old x m h
    exact ⟨hne x (hb ▸ nofun), hne m (ha ▸ nofun)⟩
  obtain ⟨hpcn, htimen, holdn⟩ := E.self
  constructor
  case outside =>
    intro x hx
    rcases eq_or_ne x n with rfl | hxn
    · rw [hpcn] at hx
      cases hx
    · obtain ⟨hpcx, htimex, -⟩ := E.other x hxn
      rw [htimex]
      exact Q.outside x (hpcx ▸ hx)
  case untouched =>
    intro x hx
    rcases eq_or_ne x n with rfl | hxn
    · rw [htimen] at hx
      cases hx
    · obtain ⟨hpcx, htimex, -⟩ := E.other x hxn
      rw [hpcx, E.next, E.state, E.moved]
      exact Q.untouched x (htimex ▸ hx)
  case lt =>
    intro x t hx
    rw [E.count]
    rcases eq_or_ne x n with rfl | hxn
    · obtain rfl := Option.some.inj (htimen.symm.trans hx)
      exact Nat.lt_succ_self _
    · exact Nat.lt_succ_of_lt (Q.lt x t ((E.other x hxn).2.1 ▸ hx))
  case old =>
    intro x m hx
    rcases eq_or_ne x n with rfl | hxn
    · rw [holdn] at hx
      obtain ⟨-, c, hc, hlt⟩ := Q.time_head hx
      have hm := hne m (Option.ne_none_iff_exists'.2 ⟨c, hc⟩)
      refine ⟨c, s.count, ?_, htimen, hlt, ?_⟩
      · rw [(E.other m hm).2.1, hc]
      · rw [(E.other m hm).2.2.2, E.first_some m hx]
    · rw [(E.other x hxn).2.2.1] at hx
      obtain ⟨a, b, ha, hb, hlt, hfirst⟩ := Q.old x m hx
      obtain ⟨-, htimem, -, hfirstm⟩ := E.other m (holdne x m hx).2
      exact ⟨a, b, htimem ▸ ha, (E.other x hxn).2.1 ▸ hb, hlt, by
        rw [hfirstm, (E.other x hxn).2.2.2, hfirst]⟩
  case first =>
    intro x hx
    rcases eq_or_ne x n with rfl | hxn
    · exact E.first_none (holdn ▸ hx)
    · rw [(E.other x hxn).2.2.1] at hx
      rw [(E.other x hxn).2.2.2]
      exact Q.first x hx
  case first_lt =>
    intro x hx
    rcases eq_or_ne x n with rfl | hxn
    · rw [holdn] at hx
      obtain ⟨h, hh⟩ := Option.ne_none_iff_exists'.1 hx
      obtain ⟨⟨a, ha, hlt⟩, -⟩ := Q.time_head hh
      have hfirst := hne (s.first h) (Option.ne_none_iff_exists'.2 ⟨a, ha⟩)
      refine ⟨a, s.count, ?_, htimen, hlt⟩
      rw [E.first_some h hh, (E.other _ hfirst).2.1, ha]
    · rw [(E.other x hxn).2.2.1] at hx
      obtain ⟨a, b, ha, hb, hlt⟩ := Q.first_lt x hx
      refine ⟨a, b, ?_, (E.other x hxn).2.1 ▸ hb, hlt⟩
      rw [(E.other x hxn).2.2.2, (E.other _ (hne _ (ha ▸ nofun))).2.1, ha]
  case head =>
    intro h hh
    obtain rfl := Option.some.inj (E.head.symm.trans hh)
    refine ⟨⟨s.count, htimen, E.count⟩, ?_⟩
    rw [E.moved]
    rcases hhead : s.head with _ | h
    · rw [E.first_none hhead, hmoved]
    · rw [E.first_some h hhead, (Q.head h hhead).2]
  case pending =>
    intro x hx
    rcases eq_or_ne x n with rfl | hxn
    · rw [hpcn] at hx
      rcases hhead : s.head with _ | h
      · exact ⟨holdn.trans hhead, _, E.head, E.first_none hhead⟩
      · rw [hhead] at hx
        exact hx.elim
    · obtain ⟨hpcx, -, holdx, -⟩ := E.other x hxn
      obtain ⟨hnone, h, hh, hfirst⟩ := Q.pending x (hpcx ▸ hx)
      exact ⟨holdx.trans hnone, n, E.head, (E.first_some h hh).trans hfirst⟩
  case stored =>
    intro x old hx
    rcases eq_or_ne x n with rfl | hxn
    · rw [holdn]
      exact SyncPc.pushed.inj (hpcn.symm.trans hx)
    · obtain ⟨hpcx, -, holdx, -⟩ := E.other x hxn
      rw [holdx]
      exact Q.stored x old (hpcx ▸ hx)
  case next =>
    intro x
    rw [E.next]
    rcases eq_or_ne x n with rfl | hxn
    · exact .inl hnext
    · rw [(E.other x hxn).2.2.1]
      exact Q.next x
  case cur =>
    intro x it hx
    rcases eq_or_ne x n with rfl | hxn
    · rw [hpcn] at hx
      cases hx
    · rw [(E.other x hxn).1] at hx
      obtain ⟨hfirst, htime, hmovedx⟩ := Q.cur x it hx
      obtain ⟨-, htimeit, -, hfirstit⟩ := E.other it (hne it htime)
      rw [hfirstit, htimeit, E.moved]
      exact ⟨hfirst, htime, hmovedx⟩
  case torn =>
    intro x hx
    rw [Torn, E.state] at hx
    rcases eq_or_ne x n with rfl | hxn
    · exact absurd hx (not_torn_waiting hstate)
    · rw [E.moved, (E.other x hxn).2.2.2]
      exact Q.torn x hx
  case moved_le =>
    intro x m hx
    rw [E.moved] at hx
    rw [E.count]
    exact Nat.le_succ_of_le (Q.moved_le x m hx)

/-- **The move** by the leader of the queue. -/
theorem Queued.move (Q : Queued s) (hpc : s.pc n = .move) :
    Queued ((s.waitQueueMove n).goto n (.unlock s.head)) := by
  obtain ⟨hleader, h, hh, hfirst⟩ := Q.pending n (by rw [hpc]; trivial)
  obtain ⟨⟨c, hc, hcount⟩, -⟩ := Q.head h hh
  have hpushed : s.time n ≠ none := fun hnone ↦ by
    rw [(Q.untouched n hnone).1] at hpc
    cases hpc
  have hpcx : ∀ x, x ≠ n → ((s.waitQueueMove n).goto n (.unlock s.head)).pc x = s.pc x := fun x hx ↦
    update_of_ne hx ..
  have hpcn : ((s.waitQueueMove n).goto n (.unlock s.head)).pc n = .unlock s.head := update_self ..
  have hmovedn : ((s.waitQueueMove n).goto n (.unlock s.head)).moved n = some s.count :=
    update_self ..
  have hmovedx : ∀ x, x ≠ n → ((s.waitQueueMove n).goto n (.unlock s.head)).moved x = s.moved x :=
    fun x hx ↦ update_of_ne hx ..
  have hmoved : ∀ x, s.moved x ≠ none →
      ((s.waitQueueMove n).goto n (.unlock s.head)).moved x ≠ none := by
    intro x hx
    rcases eq_or_ne x n with rfl | hxn
    · rw [hmovedn]
      exact nofun
    · rwa [hmovedx x hxn]
  constructor
  case lt => exact Q.lt
  case old => exact Q.old
  case first => exact Q.first
  case first_lt => exact Q.first_lt
  case next => exact Q.next
  case head => exact nofun
  case outside =>
    intro x hx
    rcases eq_or_ne x n with rfl | hxn
    · rw [hpcn] at hx
      cases hx
    · exact Q.outside x (hpcx x hxn ▸ hx)
  case untouched =>
    intro x hx
    have hxn : x ≠ n := by
      rintro rfl
      exact hpushed hx
    rw [hpcx x hxn, hmovedx x hxn]
    exact Q.untouched x hx
  case pending =>
    intro x hx
    rcases eq_or_ne x n with rfl | hxn
    · rw [hpcn] at hx
      exact hx.elim
    · rw [hpcx x hxn] at hx
      obtain ⟨-, h', hh', hfirst'⟩ := Q.pending x hx
      obtain rfl := Option.some.inj (hh.symm.trans hh')
      exact absurd (hfirst'.symm.trans hfirst) hxn
  case stored =>
    intro x old hx
    rcases eq_or_ne x n with rfl | hxn
    · rw [hpcn] at hx
      cases hx
    · exact Q.stored x old (hpcx x hxn ▸ hx)
  case cur =>
    intro x it hx
    rcases eq_or_ne x n with rfl | hxn
    · rw [hpcn] at hx
      obtain rfl := Option.some.inj (hh.symm.trans hx)
      have htime : s.time h ≠ none := hc ▸ nofun
      exact ⟨hfirst, htime, by rw [hmovedn]; exact nofun⟩
    · rw [hpcx x hxn] at hx
      obtain ⟨hfirstx, htime, hm⟩ := Q.cur x it hx
      exact ⟨hfirstx, htime, hmoved x hm⟩
  case torn => exact fun x hx ↦ hmoved _ (Q.torn x hx)
  case moved_le =>
    intro x m hx
    rcases eq_or_ne x n with rfl | hxn
    · obtain rfl := Option.some.inj (hmovedn.symm.trans hx)
      exact Nat.le_refl _
    · exact Q.moved_le x m (hmovedx x hxn ▸ hx)

/-- A step of `n` to `p` that leaves the queue alone: it goes on, stores its own `next`, or writes
the state of a node that has been pushed. -/
structure Quiet (s : GpWaiters) (n : NodeId) (p : SyncPc) (s' : GpWaiters) : Prop where
  head : s'.head = s.head
  count : s'.count = s.count
  time : s'.time = s.time
  oldHead : s'.oldHead = s.oldHead
  first : s'.first = s.first
  moved : s'.moved = s.moved
  pc : s'.pc = update s.pc n p
  next : s'.next = s.next ∨ s'.next = update s.next n (s.oldHead n)
  state : ∀ x, s.time x = none → s'.state x = s.state x
  torn : ∀ x, Torn s' x → Torn s x ∨ s.pc n = .wakeTeardown x ∧ p = .advance x
  kept : ∀ x, Torn s x → Torn s' x ∨ s.pc n = .wakeStore x ∨ s.pc n = .setRunning ∧ x = n

/-- Where a call goes on to behind its exchange. A leader stays at its node or goes on to the next.
-/
structure GoesOn (s : GpWaiters) (n : NodeId) (p : SyncPc) : Prop where
  outside : p ≠ .outside
  pushed : ∀ old, p ≠ .pushed old
  pending : p.pending → (s.pc n).pending
  cur : ∀ m, p.cur = some m →
    ∃ it, (s.pc n).cur = some it ∧ (m = it ∨ s.oldHead it = some m)

/-- **A step that leaves the queue alone.** -/
theorem Queued.quiet {p : SyncPc} (Q : Queued s) (hpushed : s.time n ≠ none) (K : Quiet s n p s')
    (G : GoesOn s n p) : Queued s' := by
  obtain ⟨head, count, time, oldHead, first, moved, pc, next, state, torn, -⟩ := K
  have hpcx : ∀ x, x ≠ n → s'.pc x = s.pc x := fun x hx ↦ by rw [pc, update_of_ne hx]
  have hpcn : s'.pc n = p := by rw [pc, update_self]
  constructor
  case outside =>
    intro x hx
    rw [time]
    rcases eq_or_ne x n with rfl | hxn
    · exact absurd (hpcn.symm.trans hx) G.outside
    · exact Q.outside x (hpcx x hxn ▸ hx)
  case untouched =>
    intro x hx
    rw [time] at hx
    have hxn : x ≠ n := by
      rintro rfl
      exact hpushed hx
    have hnext : s'.next x = s.next x := by
      rcases next with next | next
      · rw [next]
      · rw [next, update_of_ne hxn]
    rw [hpcx x hxn, hnext, state x hx, moved]
    exact Q.untouched x hx
  case lt =>
    rw [time, count]
    exact Q.lt
  case old =>
    rw [oldHead, time, first]
    exact Q.old
  case first =>
    rw [oldHead, first]
    exact Q.first
  case first_lt =>
    rw [oldHead, first, time]
    exact Q.first_lt
  case head =>
    rw [head, time, count, moved, first]
    exact Q.head
  case pending =>
    intro x hx
    rw [oldHead, head, first]
    rcases eq_or_ne x n with rfl | hxn
    · exact Q.pending x (G.pending (hpcn ▸ hx))
    · exact Q.pending x (hpcx x hxn ▸ hx)
  case stored =>
    intro x old hx
    rw [oldHead]
    rcases eq_or_ne x n with rfl | hxn
    · exact absurd (hpcn.symm.trans hx) (G.pushed old)
    · exact Q.stored x old (hpcx x hxn ▸ hx)
  case next =>
    intro x
    rw [oldHead]
    rcases next with next | next
    · rw [next]
      exact Q.next x
    · rw [next]
      rcases eq_or_ne x n with rfl | hxn
      · exact .inr (update_self ..)
      · rw [update_of_ne hxn]
        exact Q.next x
  case cur =>
    intro x it hx
    rw [first, time, moved]
    rcases eq_or_ne x n with rfl | hxn
    · obtain ⟨it', hit', rfl | hold⟩ := G.cur it (hpcn ▸ hx)
      · exact Q.cur x it hit'
      · obtain ⟨hfirst, -, hmoved⟩ := Q.cur x it' hit'
        obtain ⟨a, b, ha, -, -, hfirst'⟩ := Q.old it' it hold
        exact ⟨hfirst'.trans hfirst, ha ▸ nofun, hmoved⟩
    · exact Q.cur x it (hpcx x hxn ▸ hx)
  case torn =>
    intro x hx
    rw [moved, first]
    obtain hx | ⟨hpcw, -⟩ := torn x hx
    · exact Q.torn x hx
    · obtain ⟨hfirst, -, hmoved⟩ := Q.cur n x (by rw [hpcw]; rfl)
      rwa [hfirst]
  case moved_le =>
    rw [moved, count]
    exact Q.moved_le

theorem quiet_goto (s : GpWaiters) (n : NodeId) (p : SyncPc) (lock : Bool) :
    Quiet s n p ({ s with rcuGpLock := lock }.goto n p) :=
  ⟨rfl, rfl, rfl, rfl, rfl, rfl, rfl, .inl rfl, fun _ _ ↦ rfl, fun _ h ↦ .inl h, fun _ h ↦ .inl h⟩

/-- A step that writes the state of `x`. -/
theorem quiet_setState {v : BitVec 32} {p : SyncPc} (hx : s.time x ≠ none)
    (hv : v &&& RCU_WAIT_TEARDOWN ≠ 0 → Torn s x ∨ s.pc n = .wakeTeardown x ∧ p = .advance x)
    (hkept : Torn s x → v &&& RCU_WAIT_TEARDOWN ≠ 0 ∨ s.pc n = .wakeStore x ∨
      s.pc n = .setRunning ∧ x = n) :
    Quiet s n p ((s.setState x v).goto n p) := by
  refine ⟨rfl, rfl, rfl, rfl, rfl, rfl, rfl, .inl rfl, fun y hy ↦ ?_, fun y hy ↦ ?_, fun y hy ↦ ?_⟩
  · have hne : y ≠ x := by
      rintro rfl
      exact hx hy
    exact update_of_ne hne ..
  · replace hy : update s.state x v y &&& RCU_WAIT_TEARDOWN ≠ 0 := hy
    rcases eq_or_ne y x with rfl | hne
    · rw [update_self] at hy
      exact hv hy
    · rw [update_of_ne hne] at hy
      exact .inl hy
  · show update s.state x v y &&& RCU_WAIT_TEARDOWN ≠ 0 ∨ _
    rcases eq_or_ne y x with rfl | hne
    · rw [update_self]
      exact hkept hy
    · rw [update_of_ne hne]
      exact .inl hy

/-- A flag that is set does not clear the others. -/
theorem torn_or (v w : BitVec 32) :
    (v ||| w) &&& RCU_WAIT_TEARDOWN = v &&& RCU_WAIT_TEARDOWN ||| w &&& RCU_WAIT_TEARDOWN :=
  BitVec.and_or_distrib_right

theorem Queued.time_ne_none (Q : Queued s) (hpc : s.pc n ≠ .outside) : s.time n ≠ none :=
  fun h ↦ hpc (Q.untouched n h).1

theorem goesOn_of_cur {p : SyncPc} (hout : p ≠ .outside) (hpushed : ∀ old, p ≠ .pushed old)
    (hpending : p.pending → (s.pc n).pending) (hcur : p.cur = none ∨ p.cur = (s.pc n).cur) :
    GoesOn s n p := by
  refine ⟨hout, hpushed, hpending, fun m hm ↦ ⟨m, ?_, .inl rfl⟩⟩
  rcases hcur with hcur | hcur
  · cases hcur.symm.trans hm
  · exact hcur.symm.trans hm

/-- **The other steps** leave the queue alone. -/
theorem Queued.quiet_of_step (Q : Queued s) (h : s.step (.step n) = some s')
    (hout : s.pc n ≠ .outside) (hmove : s.pc n ≠ .move) : ∃ p, Quiet s n p s' ∧ GoesOn s n p := by
  have hpushed := Q.time_ne_none hout
  have hrunning : RCU_WAIT_RUNNING &&& RCU_WAIT_TEARDOWN = 0 := by decide
  have hwakeup : RCU_WAIT_WAKEUP &&& RCU_WAIT_TEARDOWN = 0 := by decide
  rw [GpWaiters.step] at h
  rcases hpc : s.pc n with _ | old | _ | _ | _ | _ | _ | _ | it | it | it | it | it | it | _ <;>
    simp only [hpc] at h
  case outside => exact absurd hpc hout
  case move => exact absurd hpc hmove
  case returned => cases h
  case pushed =>
    obtain rfl := Option.some.inj h
    obtain rfl := Q.stored n old hpc
    refine ⟨_, ⟨rfl, rfl, rfl, rfl, rfl, rfl, rfl, .inr rfl, fun _ _ ↦ rfl, fun _ h ↦ .inl h,
      fun _ h ↦ .inl h⟩, ?_⟩
    rcases hold : s.oldHead n with _ | m
    · exact goesOn_of_cur nofun nofun (fun _ ↦ by rw [hpc, hold]; trivial) (.inl rfl)
    · exact goesOn_of_cur nofun nofun (fun h ↦ h.elim) (.inl rfl)
  case busyWait =>
    obtain ⟨-, h⟩ := Option.ite_none_right_eq_some.1 h
    obtain rfl := Option.some.inj h
    exact ⟨_, quiet_goto s n _ s.rcuGpLock, goesOn_of_cur nofun nofun (fun h ↦ h.elim) (.inl rfl)⟩
  case skipFutex =>
    obtain rfl := Option.some.inj h
    have hor : (s.state n ||| RCU_WAIT_RUNNING) &&& RCU_WAIT_TEARDOWN =
        s.state n &&& RCU_WAIT_TEARDOWN :=
      (torn_or ..).trans ((congrArg _ hrunning).trans BitVec.or_zero)
    have htorn : Torn s n ↔ (s.state n ||| RCU_WAIT_RUNNING) &&& RCU_WAIT_TEARDOWN ≠ 0 := by
      rw [hor, Torn]
    exact ⟨_, quiet_setState hpushed (fun hv ↦ .inl (htorn.2 hv)) fun hv ↦ .inl (htorn.1 hv),
      goesOn_of_cur nofun nofun (fun h ↦ h.elim) (.inl rfl)⟩
  case waitTeardown =>
    obtain ⟨-, h⟩ := Option.ite_none_right_eq_some.1 h
    obtain rfl := Option.some.inj h
    exact ⟨_, quiet_goto s n _ s.rcuGpLock, goesOn_of_cur nofun nofun (fun h ↦ h.elim) (.inl rfl)⟩
  case setRunning =>
    obtain rfl := Option.some.inj h
    exact ⟨_, quiet_setState hpushed (fun hv ↦ absurd hrunning hv) fun _ ↦ .inr (.inr ⟨hpc, rfl⟩),
      goesOn_of_cur nofun nofun (fun _ ↦ by rw [hpc]; trivial) (.inl rfl)⟩
  case lockGp =>
    obtain ⟨-, h⟩ := Option.ite_none_left_eq_some.1 h
    obtain rfl := Option.some.inj h
    exact ⟨_, quiet_goto s n _ true, goesOn_of_cur nofun nofun (fun _ ↦ by rw [hpc]; trivial)
      (.inl rfl)⟩
  case unlock =>
    obtain rfl := Option.some.inj h
    exact ⟨_, quiet_goto s n _ false, goesOn_of_cur nofun nofun (fun h ↦ h.elim)
      (.inr (by rw [hpc]; rfl))⟩
  case loop =>
    cases it with
    | none =>
      obtain rfl := Option.some.inj h
      exact ⟨_, quiet_goto s n _ s.rcuGpLock, goesOn_of_cur nofun nofun (fun h ↦ h.elim) (.inl rfl)⟩
    | some it =>
      obtain rfl := Option.some.inj h
      refine ⟨_, quiet_goto s n _ s.rcuGpLock, ?_⟩
      split <;> exact goesOn_of_cur nofun nofun (fun h ↦ h.elim) (.inr (by rw [hpc]; rfl))
  case wakeStore =>
    obtain rfl := Option.some.inj h
    have hcur := Q.cur n it (by rw [hpc]; rfl)
    exact ⟨_, quiet_setState hcur.2.1 (fun hv ↦ absurd hwakeup hv) fun _ ↦ .inr (.inl hpc),
      goesOn_of_cur nofun nofun (fun h ↦ h.elim) (.inr (by rw [hpc]; rfl))⟩
  case wakeLoad =>
    obtain rfl := Option.some.inj h
    exact ⟨_, quiet_goto s n _ s.rcuGpLock, goesOn_of_cur nofun nofun (fun h ↦ h.elim)
      (.inr (by rw [hpc]; rfl))⟩
  case wakeTeardown =>
    obtain rfl := Option.some.inj h
    have hcur := Q.cur n it (by rw [hpc]; rfl)
    have htorn : (s.state it ||| RCU_WAIT_TEARDOWN) &&& RCU_WAIT_TEARDOWN ≠ 0 := by
      intro hzero
      have hboth := BitVec.or_eq_zero_iff.1 ((torn_or ..).symm.trans hzero)
      exact absurd hboth.2 (by decide)
    exact ⟨_, quiet_setState hcur.2.1 (fun _ ↦ .inr ⟨hpc, rfl⟩) fun _ ↦ .inl htorn,
      goesOn_of_cur nofun nofun (fun h ↦ h.elim) (.inr (by rw [hpc]; rfl))⟩
  case advance =>
    obtain rfl := Option.some.inj h
    refine ⟨_, quiet_goto s n _ s.rcuGpLock, nofun, nofun, fun h ↦ h.elim, fun m hm ↦ ?_⟩
    -- the next node, if it is stored, is the one that the exchange gave
    refine ⟨it, by rw [hpc]; rfl, .inr ?_⟩
    rcases Q.next it with hnone | hold
    · exact absurd (hnone.symm.trans hm) nofun
    · exact hold.symm.trans hm

/-- What a step is: the exchange, the move by the leader of the queue, or one that leaves the queue
alone. -/
theorem Queued.step_cases {act : SyncAction} (Q : Queued s) (h : s.step act = some s') :
    (∃ n, act = .step n ∧ s.pc n = .outside ∧ Exchanged s n s') ∨
    (∃ n, act = .step n ∧ s.pc n = .move ∧ s' = (s.waitQueueMove n).goto n (.unlock s.head)) ∨
    ∃ n p, (act = .step n ∨ s.pc n = .busyWait) ∧ s.time n ≠ none ∧ Quiet s n p s' ∧
      GoesOn s n p := by
  cases act with
  | wake n =>
    obtain ⟨hpc, h⟩ := Option.ite_none_right_eq_some.1 h
    obtain rfl := Option.some.inj h
    exact .inr (.inr ⟨n, _, .inr hpc, Q.time_ne_none (hpc ▸ nofun), quiet_goto s n _ s.rcuGpLock,
      goesOn_of_cur nofun nofun (fun h ↦ h.elim) (.inl rfl)⟩)
  | step n =>
    rcases eq_or_ne (s.pc n) .outside with hpc | hout
    · rw [GpWaiters.step] at h
      simp only [hpc] at h
      obtain rfl := Option.some.inj h
      exact .inl ⟨n, rfl, hpc, exchanged s n⟩
    · rcases eq_or_ne (s.pc n) .move with hpc | hmove
      · rw [GpWaiters.step] at h
        simp only [hpc] at h
        exact .inr (.inl ⟨n, rfl, hpc, (Option.some.inj h).symm⟩)
      · obtain ⟨p, K, G⟩ := Q.quiet_of_step h hout hmove
        exact .inr (.inr ⟨n, p, .inl rfl, Q.time_ne_none hout, K, G⟩)

/-- **A step** keeps the queues. -/
theorem Queued.step {act : SyncAction} (Q : Queued s) (h : s.step act = some s') : Queued s' := by
  obtain ⟨n, -, hpc, E⟩ | ⟨n, -, hpc, rfl⟩ | ⟨n, p, -, hpushed, K, G⟩ := Q.step_cases h
  · exact Q.exchange hpc E
  · exact Q.move hpc
  · exact Q.quiet hpushed K G

/-! ### Leaders that move their own node only -/

/-- All waiters are in the queue that has not been moved; none was pushed before a move. -/
structure Alone (s : GpWaiters) : Prop where
  queued : Queued s
  waiters : ∀ n, s.oldHead n ≠ none → ∃ h, s.head = some h ∧ s.first h = s.first n
  moved : ∀ leader m, s.moved leader = some m →
    ∀ n t, s.time n = some t → t < m → s.oldHead n = none

theorem alone_initial : Alone .initial where
  queued := queued_initial
  waiters _ h := absurd rfl h
  moved _ _ h := by cases h

/-- When the leader is at the head of its queue, there are no waiters. -/
theorem Alone.no_waiters (A : Alone s) (hpc : s.pc n = .move) (hhead : s.head = some n)
    (x : NodeId) : s.oldHead x = none := by
  by_contra hx
  obtain ⟨hleader, -⟩ := A.queued.pending n (by rw [hpc]; trivial)
  obtain ⟨h, hh, hfirst⟩ := A.waiters x hx
  obtain rfl := Option.some.inj (hhead.symm.trans hh)
  rw [A.queued.first n hleader] at hfirst
  obtain ⟨a, b, ha, hb, hlt⟩ := A.queued.first_lt x hx
  obtain ⟨⟨c, hc, hcount⟩, -⟩ := A.queued.head n hhead
  rw [← hfirst, hc] at ha
  obtain rfl := Option.some.inj ha
  have hb := A.queued.lt x b hb
  omega

/-- **A step** of a leader that finds its own node. -/
theorem Alone.step {act : SyncAction} (A : Alone s) (halone : MovesAlone s act)
    (h : s.step act = some s') : Alone s' := by
  refine ⟨A.queued.step h, ?_, ?_⟩
  · intro x hx
    obtain ⟨n, -, hpc, E⟩ | ⟨n, rfl, hpc, rfl⟩ | ⟨n, p, -, -, K, -⟩ := A.queued.step_cases h
    · refine ⟨n, E.head, ?_⟩
      rcases eq_or_ne x n with rfl | hxn
      · rfl
      · rw [(E.other x hxn).2.2.1] at hx
        obtain ⟨h, hh, hfirst⟩ := A.waiters x hx
        rw [E.first_some h hh, (E.other x hxn).2.2.2, hfirst]
    · exact absurd (A.no_waiters hpc (halone hpc) x) hx
    · rw [K.head, K.first]
      exact A.waiters x (K.oldHead ▸ hx)
  · intro leader m hm x t ht hlt
    obtain ⟨n, -, hpc, E⟩ | ⟨n, rfl, hpc, rfl⟩ | ⟨n, p, -, -, K, -⟩ := A.queued.step_cases h
    · rw [E.moved] at hm
      rcases eq_or_ne x n with rfl | hxn
      · obtain rfl := Option.some.inj (E.self.2.1.symm.trans ht)
        exact absurd (A.queued.moved_le leader m hm) (Nat.not_le.2 hlt)
      · rw [(E.other x hxn).2.2.1]
        exact A.moved leader m hm x t ((E.other x hxn).2.1 ▸ ht) hlt
    · exact A.no_waiters hpc (halone hpc) x
    · rw [K.oldHead]
      exact A.moved leader m (K.moved ▸ hm) x t (K.time ▸ ht) hlt

theorem cur_of_reads {p : SyncPc} (h : p.reads = some x) : p.cur = some x := by
  cases p <;> first | exact h | cases h

/-- Such a leader reads its own node only. -/
theorem Alone.readsLive (A : Alone s) (act : SyncAction) : ReadsLive s act := by
  cases act with
  | wake n => trivial
  | step n =>
    intro it hit hne
    obtain ⟨hfirst, -, hmoved⟩ := A.queued.cur n it (cur_of_reads hit)
    rcases hold : s.oldHead it with _ | m
    · exact absurd ((A.queued.first it hold).symm.trans hfirst) hne
    · obtain ⟨h, hh, hfirst'⟩ := A.waiters it (hold ▸ nofun)
      have hnone := (A.queued.head h hh).2
      rw [hfirst', hfirst] at hnone
      exact absurd hnone hmoved

theorem Alone.tornDown (A : Alone s) : TornDown s := fun leader m _ hm n t ht hlt hwaiter ↦
  absurd (A.moved leader m hm n t ht hlt) hwaiter

/-! ### A leader that finds another's node -/

/-- The leader has moved a queue whose head `w` is a waiter. It has torn it down and is going to
read its `next`; or `w` is not torn down, and the leader is not behind it any more. -/
structure Behind (s : GpWaiters) (leader w : NodeId) : Prop where
  first : s.first w = leader
  waiter : s.oldHead w ≠ none
  moved : ∃ m t, s.moved leader = some m ∧ s.time w = some t ∧ t < m
  stage : s.pc leader = .advance w ∧ Torn s w ∨
    ¬ Torn s w ∧ ∀ it a b, (s.pc leader).cur = some it → s.time it = some a →
      s.time w = some b → a ≤ b

variable {leader w : NodeId}

/-- **The move** of a queue that the leader is not the head of. -/
theorem Queued.behind (Q : Queued s) (hpc : s.pc leader = .move) (hne : s.head ≠ some leader) :
    ∃ w, Behind ((s.waitQueueMove leader).goto leader (.unlock s.head)) leader w := by
  obtain ⟨hleader, w, hw, hfirst⟩ := Q.pending leader (by rw [hpc]; trivial)
  obtain ⟨⟨c, hc, hcount⟩, hmoved⟩ := Q.head w hw
  refine ⟨w, hfirst, fun hnone ↦ ?_, ⟨s.count, c, update_self .., hc, by omega⟩, .inr ⟨?_, ?_⟩⟩
  · have hself := (Q.first w hnone).symm.trans hfirst
    exact hne (hself ▸ hw)
  · exact fun htorn ↦ Q.torn w htorn hmoved
  · intro it a b hit ha hb
    have hit : s.head = some it := by
      rw [show GpWaiters.pc _ leader = .unlock s.head from update_self ..] at hit
      exact hit
    obtain rfl := Option.some.inj (hw.symm.trans hit)
    exact Nat.le_of_eq (Option.some.inj (ha.symm.trans hb))

/-- The stage, when the node has the flags that it had and the leader is where it was. -/
theorem Behind.stage_of_eq (B : Behind s leader w) (hpc : s'.pc leader = s.pc leader)
    (htorn : Torn s' w ↔ Torn s w)
    (htime : ∀ it, s.time it ≠ none → s'.time it = s.time it) (Q : Queued s) :
    s'.pc leader = .advance w ∧ Torn s' w ∨ ¬ Torn s' w ∧ ∀ it a b,
      (s'.pc leader).cur = some it → s'.time it = some a → s'.time w = some b → a ≤ b := by
  rw [hpc, htorn]
  refine B.stage.imp_right (And.imp_right fun hcur it a b hit ha hb ↦ ?_)
  obtain ⟨m, t, -, ht, -⟩ := B.moved
  rw [htime it (Q.cur leader it hit).2.1] at ha
  rw [htime w (ht ▸ nofun)] at hb
  exact hcur it a b hit ha hb

/-- A step of the leader itself. -/
theorem Behind.stage_self {p : SyncPc} (B : Behind s leader w) (Q : Queued s)
    (hlive : ∀ it, (s.pc leader).reads = some it → it ≠ leader → ¬ Torn s it ∧ s.pc it ≠ .returned)
    (K : Quiet s leader p s') (G : GoesOn s leader p) :
    s'.pc leader = .advance w ∧ Torn s' w ∨ ¬ Torn s' w ∧ ∀ it a b,
      (s'.pc leader).cur = some it → s'.time it = some a → s'.time w = some b → a ≤ b := by
  have hpcl : s'.pc leader = p := by rw [K.pc, update_self]
  obtain ⟨hpc, htorn⟩ | ⟨hnot, hcur⟩ := B.stage
  · -- it would read the `next` of the node that it has torn down
    have hne : w ≠ leader := by
      intro heq
      obtain ⟨a, b, ha, hb, hlt⟩ := Q.first_lt w B.waiter
      rw [B.first, ← heq, hb] at ha
      obtain rfl := Option.some.inj ha
      exact Nat.lt_irrefl _ hlt
    exact absurd htorn (hlive w (by rw [hpc]; rfl) hne).1
  · rcases Classical.em (Torn s' w) with htorn | hnot'
    · obtain ⟨-, rfl⟩ := (K.torn w htorn).resolve_left hnot
      exact .inl ⟨hpcl, htorn⟩
    · refine .inr ⟨hnot', fun it a b hit ha hb ↦ ?_⟩
      rw [hpcl] at hit
      rw [K.time] at ha hb
      obtain ⟨it', hit', rfl | hold⟩ := G.cur it hit
      · exact hcur it a b hit' ha hb
      · obtain ⟨c, d, hc, hd, hlt, -⟩ := Q.old it' it hold
        obtain rfl := Option.some.inj (hc.symm.trans ha)
        exact Nat.le_trans (Nat.le_of_lt hlt) (hcur it' d b hit' hd hb)

/-- **A step** leaves the leader in this situation, as long as it reads no node that is torn down.
-/
theorem Behind.step {act : SyncAction} (B : Behind s leader w) (Q : Queued s)
    (hlive : ReadsLive s act) (h : s.step act = some s') : Behind s' leader w := by
  obtain ⟨m, t, hm, ht, hlt⟩ := B.moved
  have hw : s.time w ≠ none := ht ▸ nofun
  have hleader : s.time leader ≠ none := by
    obtain ⟨a, b, ha, -⟩ := Q.first_lt w B.waiter
    rw [← B.first, ha]
    exact nofun
  obtain ⟨n, -, hpc, E⟩ | ⟨n, -, hpc, rfl⟩ | ⟨n, p, hact, -, K, G⟩ := Q.step_cases h
  · have hnew : ∀ x, s.time x ≠ none → x ≠ n := by
      rintro x hx rfl
      exact hx (Q.outside x hpc)
    obtain ⟨-, htimew, holdw, hfirstw⟩ := E.other w (hnew w hw)
    refine ⟨hfirstw.trans B.first, by rw [holdw]; exact B.waiter,
      ⟨m, t, ?_, htimew.trans ht, hlt⟩, ?_⟩
    · rw [E.moved, hm]
    · refine B.stage_of_eq (E.other leader (hnew leader hleader)).1 ?_
        (fun it hit ↦ (E.other it (hnew it hit)).2.1) Q
      rw [Torn, E.state, Torn]
  · have hne : leader ≠ n := by
      rintro rfl
      obtain ⟨-, h, hh, hfirst⟩ := Q.pending leader (by rw [hpc]; trivial)
      have hnone := (Q.head h hh).2
      rw [hfirst, hm] at hnone
      cases hnone
    refine ⟨B.first, B.waiter, ⟨m, t, (update_of_ne hne ..).trans hm, ht, hlt⟩, ?_⟩
    exact B.stage_of_eq (update_of_ne hne ..) Iff.rfl (fun _ _ ↦ rfl) Q
  · refine ⟨by rw [K.first, B.first], by rw [K.oldHead]; exact B.waiter,
      ⟨m, t, by rw [K.moved, hm], by rw [K.time, ht], hlt⟩, ?_⟩
    rcases eq_or_ne n leader with rfl | hne
    · obtain rfl | hpc := hact
      · exact B.stage_self Q hlive K G
      · exact B.stage_self Q (fun it hit ↦ by rw [hpc] at hit; cases hit) K G
    · -- the flags of `w` are written by its leader, and by itself, which leaves the last one alone
      have hcur : ∀ it, (s.pc n).cur = some it → it ≠ w := by
        rintro it hit rfl
        exact hne ((Q.cur n it hit).1.symm.trans B.first)
      have htorn : Torn s' w ↔ Torn s w := by
        constructor
        · intro htorn
          exact (K.torn w htorn).resolve_right fun ⟨hpc, _⟩ ↦ hcur w (by rw [hpc]; rfl) rfl
        · intro htorn
          obtain htorn | hpc | ⟨hpc, rfl⟩ := K.kept w htorn
          · exact htorn
          · exact absurd rfl (hcur w (by rw [hpc]; rfl))
          · exact absurd (Q.pending w (by rw [hpc]; trivial)).1 B.waiter
      refine B.stage_of_eq ?_ htorn (fun it _ ↦ by rw [K.time]) Q
      rw [K.pc, update_of_ne hne.symm]

/-- When the leader has returned, the waiter is not torn down. -/
theorem Behind.not_tornDown (B : Behind s leader w) (hreturned : s.pc leader = .returned) :
    ¬ TornDown s := by
  intro htorn
  obtain ⟨m, t, hm, ht, hlt⟩ := B.moved
  have hw := htorn leader m hreturned hm w t ht hlt B.waiter
  obtain ⟨hpc, -⟩ | ⟨hnot, -⟩ := B.stage
  · rw [hreturned] at hpc
    cases hpc
  · exact hnot hw

/-! ### Runs -/

/-- **A run from such a move** goes wrong before its leaders have returned. -/
theorem Behind.exec {acts : List SyncAction} (B : Behind s leader w) (Q : Queued s)
    (hlive : Machine.Always GpWaiters.step ReadsLive s acts)
    (h : Machine.exec GpWaiters.step s acts = some s') : Behind s' leader w :=
  (Machine.exec_invariant (I := fun s ↦ Behind s leader w ∧ Queued s)
    (fun _ _ _ I hl hs ↦ ⟨I.1.step I.2 hl hs, I.2.step hs⟩) ⟨B, Q⟩ hlive h).1

/-- **A run that is right** and complete has only moves of a leader's own node. -/
theorem Queued.movesAlone {acts : List SyncAction} (Q : Queued s)
    (h : Machine.exec GpWaiters.step s acts = some s') (hcomplete : Complete s')
    (hlive : Machine.Always GpWaiters.step ReadsLive s acts) (htorn : TornDown s') :
    Machine.Always GpWaiters.step MovesAlone s acts := by
  induction acts generalizing s with
  | nil => trivial
  | cons act acts ih =>
    obtain ⟨s₁, h₁, h⟩ := Option.bind_eq_some_iff.1 h
    refine ⟨?_, fun t ht ↦ ?_⟩
    · cases act with
      | wake n => trivial
      | step n =>
        intro hpc
        by_contra hne
        obtain ⟨w, B⟩ := Q.behind hpc hne
        rw [GpWaiters.step] at h₁
        simp only [hpc] at h₁
        obtain rfl := Option.some.inj h₁
        have B' := B.exec (Q.move hpc) (hlive.2 _ (by rw [GpWaiters.step]; simp only [hpc])) h
        obtain ⟨m, t, hm, -⟩ := B'.moved
        exact B'.not_tornDown (hcomplete n (hm ▸ nofun)) htorn
    · obtain rfl := Option.some.inj (h₁.symm.trans ht)
      exact ih (Q.step h₁) h (hlive.2 _ h₁)

/-- **When the leaders do what they are to do**: in every run in which each leader that moves the
queue finds its own node at the head; and in no other, once the leaders that have moved it have
returned. -/
theorem wakesRight {acts : List SyncAction}
    (h : Machine.exec GpWaiters.step .initial acts = some s) :
    (Machine.Always GpWaiters.step MovesAlone .initial acts → WakesRight acts s) ∧
      (Complete s → WakesRight acts s →
        Machine.Always GpWaiters.step MovesAlone .initial acts) := by
  constructor
  · intro halone
    refine ⟨?_, ?_⟩
    · exact Machine.always_of_invariant (I := Alone) (fun _ _ _ A hm hs ↦ A.step hm hs)
        (fun s act A _ ↦ A.readsLive act) alone_initial halone
    · exact (Machine.exec_invariant (I := Alone) (fun _ _ _ A hm hs ↦ A.step hm hs) alone_initial
        halone h).tornDown
  · rintro hcomplete ⟨hlive, htorn⟩
    exact queued_initial.movesAlone h hcomplete hlive htorn

/-- Two calls, one after the other. -/
def twoAlone : List SyncAction :=
  List.replicate 9 (.step 3) ++ List.replicate 9 (.step 5)

theorem wakesRight_twoAlone : ∃ s, Machine.exec GpWaiters.step .initial twoAlone = some s ∧
    WakesRight twoAlone s := by
  obtain ⟨s, hs⟩ : ∃ s, Machine.exec GpWaiters.step .initial twoAlone = some s := ⟨_, rfl⟩
  exact ⟨s, hs, (wakesRight hs).1 (by decide +kernel)⟩

/-- The second waiter is stopped between its exchange and its store; the leader's loop ends there,
and the first waiter is not woken up. -/
def storedLate : List SyncAction :=
  [.step 0, .step 0, .step 1, .step 1, .step 2] ++ List.replicate 10 (.step 0)

theorem not_forall_wakesRight : ¬ ∀ (acts : List SyncAction) (s : GpWaiters),
    Machine.exec GpWaiters.step .initial acts = some s → WakesRight acts s := by
  intro hall
  have htorn := (hall storedLate _ rfl).2 0 3 rfl rfl 1 1 rfl (by decide) nofun
  exact absurd htorn (by rw [Torn]; decide)

end Urcu
