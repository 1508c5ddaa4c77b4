import Mathlib.Logic.Relation
import MiscCpp.Coroutine.EventLoop

/-!
# The life of an item

The event loop moves many items at once, but each item goes its own way: born by a call that waits,
in the wheel or in the list of a condition variable, on `active_list`, processed, freed. `View` is
what there is to say about one item, and `ItemStep` how it may change; both know nothing of the
other items. `LoopOk.step` connects the two levels: a step of the event loop takes the view of
**every** item along a path of item steps.

Two of the item steps are conditional. A waiting call that ends otherwise than by `OnProcessEvent`
of its item, and a call whose coroutine is released or reset, are excluded by `P`; an item that is
popped by a signal while it is marked as timed out before its time is excluded by `Q`. So a
statement about every run of the loop, under conditions on its steps, becomes an invariant of the
views.
-/

open Function

namespace CoRoutine

open CoRoutine.Runtime CoRoutine.CoEpoll

/-! ### One item -/

/-- What there is to say about an item: the list it is in, its place in a condition variable, its
expiry, whether it is a `CoPoll`'s, whether its coroutine is suspended in its call, and its
history. -/
@[ext] structure View where
  link : Option TimeoutLink
  cond : Option CondId
  expire : ℕ
  isTimeout : Bool
  poll : Bool
  waiting : Bool
  processed : ℕ
  freed : Bool
  signalled : Bool

/-- The view of the item `x`. -/
def view (s : EventLoop) (x : ItemId) : View where
  link := s.epoll.links.link x
  cond := s.conds.link x
  expire := (s.epoll.items x).expireTime
  isTimeout := (s.epoll.items x).isTimeout
  poll := (s.polls x).isSome
  waiting := decide (s.suspended (s.epoll.items x).args = some x)
  processed := s.processed x
  freed := s.freed x
  signalled := s.signalled x

/-- An item that has not been allocated. -/
structure View.Fresh (v : View) : Prop where
  link : v.link = none
  cond : v.cond = none
  waiting : v.waiting = false
  processed : v.processed = 0
  freed : v.freed = false
  signalled : v.signalled = false

/-- The item of a call that has just begun to wait: a `CoPoll`'s is in the wheel. -/
structure View.Begun (v : View) : Prop where
  link : v.link = none ∨ ∃ i, v.link = some (.slot i)
  isTimeout : v.isTimeout = false
  poll : v.poll = true → v.cond = none
  waiting : v.waiting = true
  processed : v.processed = 0
  freed : v.freed = false
  signalled : v.signalled = false

/-- The item of a call that could not wait. -/
structure View.Refused (v : View) : Prop where
  link : v.link = none
  cond : v.cond = none
  poll : v.poll = false
  waiting : v.waiting = false
  processed : v.processed = 0
  signalled : v.signalled = false

/-- The item after its coroutine has cleaned up. -/
def View.ended (v : View) : View :=
  { v with
    link := if v.poll then none else v.link
    cond := if v.poll then v.cond else none
    poll := false
    waiting := false
    freed := true }

/-- The item after it was popped from `active_list` for good, and its coroutine has cleaned up if it
was waiting. -/
def View.called (v : View) : View :=
  let v := { v with link := none, processed := v.processed + 1 }
  if v.waiting then v.ended else v

/-- How the view of an item may change, with the `now` of the drain in progress. -/
inductive ItemStep (P Q : Prop) : Option ℕ × View → Option ℕ × View → Prop
  | begun {d v v'} (hv : v.Fresh) (hv' : v'.Begun) : ItemStep P Q (d, v) (d, v')
  | refused {d v v'} (hv : v.Fresh) (hv' : v'.Refused) : ItemStep P Q (d, v) (d, v')
  | abandoned {d v} (hP : ¬ P) : ItemStep P Q (d, v) (d, { v with waiting := false })
  | resumed {d v} (hP : ¬ P) (hw : v.waiting = true) : ItemStep P Q (d, v) (d, v.ended)
  | woken {d v} (c : CondId) (hc : v.cond = some c) (hpoll : v.poll = false)
      (hQ : Q → v.isTimeout = true → ∀ now, d = some now → v.expire ≤ now) :
      ItemStep P Q (d, v)
        (d, { v with link := some .activeList, cond := none, signalled := true })
  | prepared {d v} (hpoll : v.poll = true) (hP : P → v.waiting = true) :
      ItemStep P Q (d, v) (d, { v with link := some .activeList })
  | stays {v} (now : ℕ) : ItemStep P Q (none, v) (some now, v)
  | taken {v} (now i : ℕ) (h : v.link = some (.slot i)) :
      ItemStep P Q (none, v) (some now, { v with link := some .activeList, isTimeout := true })
  | drained {v} (now : ℕ) (h : v.link ≠ some .activeList) :
      ItemStep P Q (some now, v) (none, v)
  | rearmed {v} (now i : ℕ) (h : v.link = some .activeList) (hto : v.isTimeout = true)
      (hearly : now < v.expire) :
      ItemStep P Q (some now, v)
        (some now, { v with link := some (.slot i), isTimeout := false })
  | called {v} (now : ℕ) (h : v.link = some .activeList) :
      ItemStep P Q (some now, v) (some now, v.called)

/-- A path of item steps. -/
abbrev ItemSteps (P Q : Prop) := Relation.ReflTransGen (ItemStep P Q)

variable {P Q : Prop}

/-- What every item step keeps, every path keeps. -/
theorem ItemSteps.invariant {I : Option ℕ × View → Prop}
    (hI : ∀ l l', I l → ItemStep P Q l l' → I l') {l l' : Option ℕ × View}
    (h : ItemSteps P Q l l') (hl : I l) : I l' := by
  induction h with
  | refl => exact hl
  | tail _ hstep ih => exact hI _ _ ih hstep

/-! ### States in order -/

/-- The runtime, the lists of the timeout items and those of the condition variables are in order. A
coroutine that is suspended in a call waits for an item of its own that has not been freed, a
registration in the interest set belongs to a `CoPoll` that has not cleaned up, and nothing is known
of items that have not been allocated. -/
structure LoopOk (s : EventLoop) : Prop where
  wf : ∃ active, Wf s.rt active
  listed : ∃ A, Listed s.epoll A ∧ A .timeoutList = []
  conds : ∃ B, s.conds.Represents B
  cond : ∀ x, s.conds.link x ≠ none → x < s.epoll.nextItem ∧ s.polls x = none
  suspended : ∀ co x, s.suspended co = some x →
    (s.epoll.items x).args = co ∧ x < s.epoll.nextItem ∧ s.freed x = false
  registered : ∀ fd x i, s.interest fd = some (x, i) →
    ∃ p, s.polls x = some p ∧ ∃ f ∈ p.fds, f.fd = fd ∧ fd > -1
  fresh : ∀ x, s.epoll.nextItem ≤ x → s.polls x = none ∧ s.processed x = 0 ∧
    s.freed x = false ∧ s.signalled x = false

variable {s s' : EventLoop} {x y : ItemId}

theorem Listed.link_eq_none {ep : CoEpoll} {A : TimeoutLink → List ItemId} (L : Listed ep A)
    (hx : ep.nextItem ≤ x) : ep.links.link x = none :=
  L.represents.link_eq_none.2 fun l hl ↦ Nat.not_lt.2 hx (L.lt_next l x hl)

theorem LoopOk.view_fresh (O : LoopOk s) (hx : s.epoll.nextItem ≤ x) : (view s x).Fresh := by
  obtain ⟨A, L, -⟩ := O.listed
  obtain ⟨-, hproc, hfreed, hsig⟩ := O.fresh x hx
  refine ⟨L.link_eq_none hx, ?_, ?_, hproc, hfreed, hsig⟩
  · by_contra hc
    exact absurd (O.cond x hc).1 (Nat.not_lt.2 hx)
  · refine decide_eq_false fun hw ↦ ?_
    exact absurd (O.suspended _ x hw).2.1 (Nat.not_lt.2 hx)

/-- The call of a suspended coroutine waits. -/
theorem LoopOk.waiting (O : LoopOk s) {co : CoId} (h : s.suspended co = some x) :
    (view s x).waiting = true := by
  rw [view, decide_eq_true_eq, (O.suspended co x h).1, h]

/-- From one state to another in order, along which every item goes by item steps and no drain
ends. -/
structure Moves (P Q : Prop) (s s' : EventLoop) : Prop where
  ok : LoopOk s'
  life : ∀ x, ItemSteps P Q (s.draining, view s x) (s'.draining, view s' x)
  draining : s.draining ≠ none → s'.draining = s.draining

theorem LoopOk.moves (O : LoopOk s) : Moves P Q s s := ⟨O, fun _ ↦ .refl, fun _ ↦ rfl⟩

theorem Moves.trans {s₁ s₂ s₃ : EventLoop} (h : Moves P Q s₁ s₂) (h' : Moves P Q s₂ s₃) :
    Moves P Q s₁ s₃ :=
  ⟨h'.ok, fun x ↦ (h.life x).trans (h'.life x), fun hdr ↦
    (h'.draining (h.draining hdr ▸ hdr)).trans (h.draining hdr)⟩

/-- A move of the item `x` only. -/
theorem Moves.of_item (O : LoopOk s') (x : ItemId)
    (hx : ItemSteps P Q (s.draining, view s x) (s'.draining, view s' x))
    (hdr : s'.draining = s.draining) (hother : ∀ y ≠ x, view s' y = view s y) :
    Moves P Q s s' := by
  refine ⟨O, fun y ↦ ?_, fun _ ↦ hdr⟩
  rcases eq_or_ne y x with rfl | hy
  · exact hx
  · rw [hdr, hother y hy]

/-! ### The pieces of a step -/

/-- The runtime moves on. -/
theorem LoopOk.setRt (O : LoopOk s) {rt : Runtime} (hwf : ∃ active, Wf rt active) :
    Moves P Q s { s with rt := rt } :=
  ⟨⟨hwf, O.listed, O.conds, O.cond, O.suspended, O.registered, O.fresh⟩, fun _ ↦ .refl, fun _ ↦ rfl⟩

/-- The items are moved and marked. -/
theorem LoopOk.setEpoll (O : LoopOk s) {ep : CoEpoll}
    (hlisted : ∃ A, Listed ep A ∧ A .timeoutList = []) (hnext : ep.nextItem = s.epoll.nextItem)
    (hargs : ∀ y, (ep.items y).args = (s.epoll.items y).args) (draining : Option ℕ) :
    LoopOk { s with epoll := ep, draining := draining } where
  wf := O.wf
  listed := hlisted
  conds := O.conds
  cond y hy := by
    change y < ep.nextItem ∧ _
    rw [hnext]
    exact O.cond y hy
  suspended co y hy := by
    change (ep.items y).args = co ∧ y < ep.nextItem ∧ _
    rw [hargs, hnext]
    exact O.suspended co y hy
  registered := O.registered
  fresh y hy := O.fresh y (hnext ▸ hy)

/-- A coroutine is released or reset: it gives up its call. -/
theorem LoopOk.abandon (O : LoopOk s) {rt : Runtime} (hwf : ∃ active, Wf rt active) {co : CoId}
    (hP : P → s.suspended co = none) :
    Moves P Q s { s with rt := rt, suspended := update s.suspended co none } := by
  have O' : LoopOk { s with rt := rt, suspended := update s.suspended co none } :=
    ⟨hwf, O.listed, O.conds, O.cond, fun d x hx ↦ by
      rcases eq_or_ne d co with rfl | hd
      · simp at hx
      · exact O.suspended d x (by simpa [hd] using hx), O.registered, O.fresh⟩
  refine ⟨O', fun x ↦ ?_, fun _ ↦ rfl⟩
  rcases eq_or_ne (s.epoll.items x).args co with hco | hco
  · by_cases hw : s.suspended co = some x
    · have hview : view { s with rt := rt, suspended := update s.suspended co none } x =
          { view s x with waiting := false } := by
        simp [view, hco]
      rw [hview]
      exact .single (.abandoned fun h ↦ by simp [hP h] at hw)
    · have hview : view { s with rt := rt, suspended := update s.suspended co none } x =
          view s x := by
        simp [view, hco, hw]
      rw [hview]
  · have hview : view { s with rt := rt, suspended := update s.suspended co none } x =
        view s x := by
      simp [view, hco]
    rw [hview]

/-- A waiting call is woken by its condition variable. -/
theorem LoopOk.wakeUp (O : LoopOk s) {c : CondId} (hhead : s.conds.head c = some x)
    (h : s.wakeUp c x = some s')
    (hQ : Q → (s.epoll.items x).isTimeout = true → ∀ now, s.draining = some now →
      (s.epoll.items x).expireTime ≤ now) : Moves P Q s s' := by
  obtain ⟨A, L, hnil⟩ := O.listed
  obtain ⟨B, R⟩ := O.conds
  have hlink : s.conds.link x = some c := by
    rw [R.link_iff]
    rw [R.head_eq] at hhead
    exact List.mem_of_head? hhead
  obtain ⟨hlt, hpolls⟩ := O.cond x (by rw [hlink]; simp)
  obtain ⟨links, hact, L'⟩ := activate_spec L hlt
  rw [EventLoop.wakeUp, hact, Option.map_some, Option.some.injEq] at h
  subst h
  have hlinks := activate_link hact
  have hconds := Links.headPop_link hhead
  have O' : LoopOk { s with
      epoll := { s.epoll with links := links }
      conds := s.conds.headPop c
      signalled := update s.signalled x true } := by
    refine ⟨O.wf, ⟨_, L', by simp [hnil]⟩, ⟨_, R.headPop c⟩, fun y hy ↦ ?_, O.suspended,
      O.registered, fun y hy ↦ ?_⟩
    · refine O.cond y fun hn ↦ hy ?_
      simp only [hconds]
      rcases eq_or_ne y x with rfl | hyx
      · simp
      · simp [hyx, hn]
    · have hyx : y ≠ x := fun e ↦ absurd hlt (Nat.not_lt.2 (e ▸ hy))
      simpa [hyx] using O.fresh y hy
  refine .of_item O' x ?_ rfl fun y hy ↦ ?_
  · have hview : view { s with
        epoll := { s.epoll with links := links }
        conds := s.conds.headPop c
        signalled := update s.signalled x true } x =
        { view s x with link := some .activeList, cond := none, signalled := true } := by
      simp [view, hlinks, hconds]
    rw [hview]
    exact .single (.woken c hlink (by simp [view, hpolls]) hQ)
  · simp [view, hlinks, hconds, hy]

/-- An event arrives for a `CoPoll` that is registered. -/
theorem LoopOk.onPollPrepare (O : LoopOk s) {i : ℕ} {events : BitVec 32}
    (h : s.onPollPrepare x i events = some s') (hP : P → (view s x).waiting = true) :
    Moves P Q s s' ∧ s'.interest = s.interest ∧ (∀ y, (view s' y).waiting = (view s y).waiting) ∧
      s'.suspended = s.suspended ∧ s'.rt = s.rt ∧ s'.draining = s.draining := by
  obtain ⟨p, hp, hcase⟩ := EventLoop.onPollPrepare_eq_some h
  have hlt : x < s.epoll.nextItem := by
    by_contra hge
    rw [(O.fresh x (Nat.le_of_not_lt hge)).1] at hp
    cases hp
  have hcond : ∀ y, s.conds.link y ≠ none → y < s.epoll.nextItem ∧
      update s.polls x (some (p.prepare i events)) y = none := fun y hy ↦ by
    obtain ⟨hylt, hypoll⟩ := O.cond y hy
    have hyx : y ≠ x := fun e ↦ by rw [e, hp] at hypoll; cases hypoll
    exact ⟨hylt, by rw [update_of_ne hyx, hypoll]⟩
  have hreg : ∀ fd y j, s.interest fd = some (y, j) →
      ∃ q, update s.polls x (some (p.prepare i events)) y = some q ∧
        ∃ f ∈ q.fds, f.fd = fd ∧ fd > -1 := fun fd y j hy ↦ by
    obtain ⟨q, hq, hf⟩ := O.registered fd y j hy
    rcases eq_or_ne y x with rfl | hyx
    · obtain rfl : p = q := Option.some.inj (hp.symm.trans hq)
      exact ⟨_, update_self .., hf⟩
    · exact ⟨q, by rw [update_of_ne hyx, hq], hf⟩
  have hfresh : ∀ y, s.epoll.nextItem ≤ y →
      update s.polls x (some (p.prepare i events)) y = none ∧ s.processed y = 0 ∧
        s.freed y = false ∧ s.signalled y = false := fun y hy ↦ by
    have hyx : y ≠ x := fun e ↦ absurd hlt (Nat.not_lt.2 (e ▸ hy))
    rw [update_of_ne hyx]
    exact O.fresh y hy
  have hpoll : (view s x).poll = true := by simp [view, hp]
  obtain rfl | ⟨ep, hep, rfl⟩ := hcase
  · -- A later event of the call leaves its item where it is.
    have hview : ∀ y, view { s with polls := update s.polls x (some (p.prepare i events)) } y =
        view s y := fun y ↦ by
      rcases eq_or_ne y x with rfl | hyx
      · simp [view, hp]
      · simp [view, hyx]
    refine ⟨.of_item ⟨O.wf, O.listed, O.conds, hcond, O.suspended, hreg, hfresh⟩ x ?_ rfl
      fun y _ ↦ hview y, rfl, fun y ↦ by rw [hview], rfl, rfl, rfl⟩
    rw [hview]
  · obtain ⟨A, L, hnil⟩ := O.listed
    obtain ⟨links, hact, L'⟩ := activate_spec L hlt
    obtain rfl := Option.some.inj (hact.symm.trans hep)
    have hlinks := activate_link hact
    refine ⟨.of_item ⟨O.wf, ⟨_, L', by simp [hnil]⟩, O.conds, hcond, O.suspended, hreg, hfresh⟩
      x ?_ rfl fun y hy ↦ ?_, rfl, fun y ↦ rfl, rfl, rfl, rfl⟩
    · have hview : view { s with
          epoll := { s.epoll with links := links }
          polls := update s.polls x (some (p.prepare i events)) } x =
          { view s x with link := some .activeList } := by
        simp [view, hlinks, hp]
      rw [hview]
      exact .single (.prepared hpoll hP)
    · simp [view, hlinks, hy]

/-- The events of an `epoll_wait`. -/
theorem LoopOk.prepareAll (O : LoopOk s) {events : List (ℤ × BitVec 32)}
    (h : EventLoop.prepareAll events s = some s')
    (hP : P → ∀ fd x i, s.interest fd = some (x, i) → (view s x).waiting = true) :
    Moves P Q s s' ∧ s'.suspended = s.suspended ∧ s'.rt = s.rt ∧ s'.draining = s.draining := by
  induction events generalizing s with
  | nil =>
    obtain rfl := Option.some.inj h
    exact ⟨O.moves, rfl, rfl, rfl⟩
  | cons e events ih =>
    obtain ⟨x, i, s₁, hx, h₁, h⟩ := EventLoop.prepareAll_cons_eq_some h
    obtain ⟨M, hint, hwait, hsusp, hrt, hdr⟩ := O.onPollPrepare h₁ fun p ↦ hP p e.1 x i hx
    obtain ⟨M', hsusp', hrt', hdr'⟩ := ih M.ok h fun p fd y j hy ↦ by
      rw [hwait]
      exact hP p fd y j (hint ▸ hy)
    exact ⟨M.trans M', hsusp'.trans hsusp, hrt'.trans hrt, hdr'.trans hdr⟩

/-- The timeouts are taken, and the drain begins. -/
theorem LoopOk.takeTimeouts (O : LoopOk s) (hdr : s.draining = none) {now : ℕ} {ep : CoEpoll}
    (h : s.epoll.takeTimeouts now = some ep) :
    Moves P Q s { s with epoll := ep, draining := some now } := by
  obtain ⟨A, L, hnil⟩ := O.listed
  obtain ⟨A', slots, taken, L', -, hnext, hnil', hact, htaken, hslot, hitems⟩ :=
    takeTimeouts_spec L hnil h
  have hargs : ∀ y, (ep.items y).args = (s.epoll.items y).args := fun y ↦ by
    rw [hitems]
    dsimp only
    split <;> rfl
  refine ⟨O.setEpoll ⟨A', L', hnil'⟩ hnext hargs (some now), fun y ↦ ?_, fun h ↦ absurd hdr h⟩
  rw [hdr]
  by_cases hy : y ∈ taken
  · obtain ⟨i, hi, hmem⟩ := (htaken y).1 hy
    have hlink : s.epoll.links.link y = some (.slot i) := (L.represents.link_iff ..).2 hmem
    have hlink' : ep.links.link y = some .activeList :=
      (L'.represents.link_iff ..).2 (hact ▸ List.mem_append_right _ hy)
    have hview : view { s with epoll := ep, draining := some now } y =
        { view s y with link := some .activeList, isTimeout := true } := by
      simp [view, hlink', hitems, hy]
    rw [hview]
    exact .single (.taken now i hlink)
  · have hlink : ep.links.link y = s.epoll.links.link y := by
      refine L.represents.link_congr L'.represents fun l ↦ ?_
      cases l with
      | slot i =>
        rw [hslot]
        exact and_iff_left_of_imp fun hm hi ↦ hy ((htaken y).2 ⟨i, hi, hm⟩)
      | timeoutList => rw [hnil, hnil']
      | activeList => simp [hact, hy]
    have hview : view { s with epoll := ep, draining := some now } y = view s y := by
      simp [view, hlink, hitems, hy]
    rw [hview]
    exact .single (.stays now)

/-- An iteration, up to the drain. -/
theorem LoopOk.iterate (O : LoopOk s) {events : List (ℤ × BitVec 32)} {now : ℕ}
    (h : s.iterate events now = some s')
    (hP : P → ∀ fd x i, s.interest fd = some (x, i) → (view s x).waiting = true) :
    Moves P Q s s' ∧ s'.suspended = s.suspended ∧ s'.rt = s.rt := by
  obtain ⟨hdr, s₁, ep, h₁, hep, rfl⟩ := EventLoop.iterate_eq_some h
  obtain ⟨A, L, hnil⟩ := O.listed
  rw [L.clearTimeoutList hnil] at h₁
  obtain ⟨M, hsusp, hrt, hdr₁⟩ := O.prepareAll h₁ hP
  exact ⟨M.trans (M.ok.takeTimeouts (hdr₁.trans hdr) hep), hsusp, hrt⟩

/-- The running coroutine cleans up after its call. -/
theorem LoopOk.endWait (O : LoopOk s) (hx : s.suspended s.rt.running = some x)
    (h : s.endWait x = some s') :
    LoopOk s' ∧ s'.draining = s.draining ∧ s'.rt = s.rt ∧ s'.suspended s.rt.running = none ∧
      view s' x = (view s x).ended ∧ ∀ y ≠ x, view s' y = view s y := by
  obtain ⟨hargs, hlt, -⟩ := O.suspended _ x hx
  have hsusp : ∀ co y, update s.suspended s.rt.running none co = some y →
      (s.epoll.items y).args = co ∧ y < s.epoll.nextItem ∧ update s.freed x true y = false :=
    fun co y hy ↦ by
      rcases eq_or_ne co s.rt.running with rfl | hco
      · simp at hy
      · rw [update_of_ne hco] at hy
        have hyx : y ≠ x := by
          rintro rfl
          exact hco ((O.suspended co y hy).1.symm.trans hargs)
        rw [update_of_ne hyx]
        exact O.suspended co y hy
  have hwait : ∀ y ≠ x, (update s.suspended s.rt.running none (s.epoll.items y).args = some y ↔
      s.suspended (s.epoll.items y).args = some y) := fun y hy ↦ by
    rcases eq_or_ne (s.epoll.items y).args s.rt.running with hco | hco
    · simp [hco, hx, hy.symm]
    · rw [update_of_ne hco]
  rw [EventLoop.endWait] at h
  split at h
  next p hp =>
    obtain ⟨A, L, hnil⟩ := O.listed
    obtain ⟨links, hrem, L'⟩ := timeoutRemoveFromLink_spec L x
    have hlinks := timeoutRemoveFromLink_link hrem
    rw [hrem, Option.map_some, Option.some.injEq] at h
    subst h
    refine ⟨⟨O.wf, ⟨_, L', by simp [hnil]⟩, O.conds, fun y hy ↦ ?_, hsusp, fun fd y i hy ↦ ?_,
      fun y hy ↦ ?_⟩, rfl, rfl, update_self .., ?_, fun y hy ↦ ?_⟩
    · obtain ⟨hylt, hypoll⟩ := O.cond y hy
      have hyx : y ≠ x := fun e ↦ by rw [e, hp] at hypoll; cases hypoll
      exact ⟨hylt, (update_of_ne hyx ..).trans hypoll⟩
    · change Interest.delAll p.fds s.interest fd = some (y, i) at hy
      rw [Interest.delAll_apply] at hy
      split at hy
      · cases hy
      next hdel =>
        obtain ⟨q, hq, f, hf, hfd, hpos⟩ := O.registered fd y i hy
        have hyx : y ≠ x := by
          rintro rfl
          obtain rfl : p = q := Option.some.inj (hp.symm.trans hq)
          exact hdel ⟨hpos, f, hf, hfd⟩
        exact ⟨q, (update_of_ne hyx ..).trans hq, f, hf, hfd, hpos⟩
    · have hyx : y ≠ x := fun e ↦ absurd hlt (Nat.not_lt.2 (e ▸ hy))
      simpa [hyx] using O.fresh y hy
    · simp [view, View.ended, hlinks, hargs, hp]
    · simp [view, hlinks, hy, hwait y hy]
  next hp =>
    obtain ⟨B, R⟩ := O.conds
    obtain ⟨conds, hrem, R'⟩ := R.removeFromLink x
    have hlinks := Links.removeFromLink_link hrem
    rw [hrem, Option.map_some, Option.some.injEq] at h
    subst h
    refine ⟨⟨O.wf, O.listed, ⟨_, R'⟩, fun y hy ↦ ?_, hsusp, O.registered, fun y hy ↦ ?_⟩, rfl, rfl,
      update_self .., ?_, fun y hy ↦ ?_⟩
    · refine O.cond y fun hn ↦ hy ?_
      simp only [hlinks]
      rcases eq_or_ne y x with rfl | hyx
      · simp
      · simp [hyx, hn]
    · have hyx : y ≠ x := fun e ↦ absurd hlt (Nat.not_lt.2 (e ▸ hy))
      simpa [hyx] using O.fresh y hy
    · simp [view, View.ended, hlinks, hargs, hp]
    · simp [view, hlinks, hy, hwait y hy]

/-- A coroutine that gets control goes on with the clean-up of the call it is suspended in. -/
theorem LoopOk.arrive (O : LoopOk s) (h : s.arrive = some s')
    (hP : P → s.suspended s.rt.running = none) :
    Moves P Q s s' ∧ s'.suspended s'.rt.running = none := by
  rw [EventLoop.arrive] at h
  split at h
  next hx =>
    obtain rfl := Option.some.inj h
    exact ⟨O.moves, hx⟩
  next x hx =>
    obtain ⟨O', hdr, hrt, hsusp, hview, hother⟩ := O.endWait hx h
    refine ⟨.of_item O' x ?_ hdr hother, hrt ▸ hsusp⟩
    rw [hdr, hview]
    exact .single (.resumed (fun p ↦ by simp [hP p] at hx) (O.waiting hx))

/-- The item was not marked as timed out by the drain in progress before its time. -/
def Due (s : EventLoop) (x : ItemId) : Prop :=
  (s.epoll.items x).isTimeout = true → ∀ now ∈ s.draining, (s.epoll.items x).expireTime ≤ now

instance (s : EventLoop) (x : ItemId) : Decidable (Due s x) :=
  inferInstanceAs (Decidable ((s.epoll.items x).isTimeout = true → ∀ now ∈ s.draining,
    (s.epoll.items x).expireTime ≤ now))

theorem LoopOk.broadcastLoop (O : LoopOk s) {c : CondId} {fuel : ℕ}
    (h : EventLoop.broadcastLoop c fuel s = some s')
    (hQ : Q → ∀ x, s.conds.link x = some c → Due s x) :
    Moves P Q s s' ∧ s'.suspended = s.suspended ∧ s'.rt = s.rt := by
  induction fuel generalizing s with
  | zero =>
    obtain rfl := Option.some.inj h
    exact ⟨O.moves, rfl, rfl⟩
  | succ fuel ih =>
    rw [EventLoop.broadcastLoop] at h
    split at h
    · obtain rfl := Option.some.inj h
      exact ⟨O.moves, rfl, rfl⟩
    next x hx =>
      obtain ⟨B, R⟩ := O.conds
      have hlink : s.conds.link x = some c := by
        rw [R.link_iff]
        rw [R.head_eq] at hx
        exact List.mem_of_head? hx
      obtain ⟨s₁, h₁, h⟩ := Option.bind_eq_some_iff.1 h
      have M := O.wakeUp hx h₁ (P := P) fun q ↦ hQ q x hlink
      obtain ⟨ep, hep, rfl⟩ := Option.map_eq_some_iff.1 h₁
      obtain ⟨M', hsusp, hrt⟩ := ih M.ok h fun q y hy ↦ by
        obtain ⟨links, hact, L'⟩ :=
          activate_spec O.listed.choose_spec.1 (O.cond x (by simp [hlink])).1
        obtain rfl : ep = _ := Option.some.inj (hep.symm.trans hact)
        refine hQ q y ?_
        rw [Links.headPop_link hx] at hy
        rcases eq_or_ne y x with rfl | hyx
        · simp at hy
        · rwa [update_of_ne hyx] at hy
      exact ⟨M.trans M', hsusp, hrt⟩

/-- The drain puts an item back into the wheel that is not due. -/
theorem LoopOk.rearm (O : LoopOk s) {A A' : TimeoutLink → List ItemId} {xs : List ItemId}
    {now i : ℕ} {ep : CoEpoll} (hnil : A .timeoutList = []) (hdr : s.draining = some now)
    (L : Listed s.epoll A) (hA : A .activeList = x :: xs)
    (hto : (s.epoll.items x).isTimeout = true) (hearly : now < (s.epoll.items x).expireTime)
    (hA' : A' = update (update A .activeList xs) (.slot i) (A (.slot i) ++ [x]))
    (L' : Listed ep A') (hnext : ep.nextItem = s.epoll.nextItem)
    (hitems : ep.items = update s.epoll.items x { s.epoll.items x with isTimeout := false }) :
    Moves P Q s { s with epoll := ep } := by
  subst hA'
  have hargs : ∀ y, (ep.items y).args = (s.epoll.items y).args := fun y ↦ by
    rcases eq_or_ne y x with rfl | hy
    · simp [hitems]
    · simp [hitems, hy]
  refine .of_item (O.setEpoll ⟨_, L', by simp [hnil]⟩ hnext hargs s.draining) x ?_ rfl fun y hy ↦ ?_
  · have hlink : s.epoll.links.link x = some .activeList :=
      (L.represents.link_iff ..).2 (hA ▸ List.mem_cons_self)
    have hlink' : ep.links.link x = some (.slot i) := by
      rw [L'.represents.link_iff]
      simp
    have hview : view { s with epoll := ep } x =
        { view s x with link := some (.slot i), isTimeout := false } := by
      simp [view, hlink', hitems]
    rw [hview]
    simp only [hdr]
    exact .single (.rearmed now _ hlink hto hearly)
  · have hlink' : ep.links.link y = s.epoll.links.link y := by
      refine L.represents.link_congr L'.represents fun l ↦ ?_
      rw [← mem_popped hA hy]
      rcases eq_or_ne l (.slot i) with rfl | hl
      · simp [hy]
      · simp [hl]
    simp [view, hlink', hitems, hy]

/-- The drain hands an item to its coroutine. -/
theorem LoopOk.handOver (O : LoopOk s) {A : TimeoutLink → List ItemId} {xs : List ItemId} {sp : ℕ}
    {ep : CoEpoll} (hnil : A .timeoutList = []) (L : Listed s.epoll A)
    (hA : A .activeList = x :: xs) (L' : Listed ep (update A .activeList xs))
    (hnext : ep.nextItem = s.epoll.nextItem) (hitems : ep.items = s.epoll.items)
    (h : EventLoop.onProcessEvent { s with epoll := ep } x sp = some s') :
    s'.draining = s.draining ∧ LoopOk s' ∧ s'.suspended = s.suspended ∧
      s'.rt.running = (s.epoll.items x).args ∧
      view s' x = { view s x with link := none, processed := (view s x).processed + 1 } ∧
      ∀ y ≠ x, view s' y = view s y := by
  dsimp only [EventLoop.onProcessEvent] at h
  split at h
  · cases h
  next hfreed =>
    obtain ⟨rt, hrt, rfl⟩ := Option.map_eq_some_iff.1 h
    obtain ⟨active, W⟩ := O.wf
    have W' := W.coResume hrt
    have hrun : rt.running = (ep.items x).args := (Option.some.inj W'.running_eq).symm
    have hlt := L.lt_next _ x (hA ▸ List.mem_cons_self)
    have O' := O.setEpoll ⟨_, L', by simp [hnil]⟩ hnext (fun y ↦ by rw [hitems]) s.draining
    refine ⟨rfl, ⟨⟨_, W'⟩, O'.listed, O'.conds, O'.cond, O'.suspended, O'.registered,
      fun y hy ↦ ?_⟩, rfl, by rw [hrun, hitems], ?_, fun y hy ↦ ?_⟩
    · change ep.nextItem ≤ y at hy
      rw [hnext] at hy
      have hyx : y ≠ x := fun e ↦ absurd hlt (Nat.not_lt.2 (e ▸ hy))
      simpa [hyx] using O.fresh y hy
    · have hlink' : ep.links.link x = none := by
        rw [L'.represents.link_eq_none]
        exact L.not_mem_popped hA
      simp [view, hlink', hitems]
    · have hlink' : ep.links.link y = s.epoll.links.link y :=
        L.represents.link_congr L'.represents (mem_popped hA hy)
      simp [view, hlink', hitems, hy]

/-- What a turn of the drain does, up to the point where a coroutine has control. -/
theorem LoopOk.drain (O : LoopOk s) {sp : ℕ} (h : s.drain sp = some s') :
    Moves P Q s s' ∧ s'.suspended = s.suspended ∧ s'.rt = s.rt ∨
    (s' = { s with draining := none } ∧ LoopOk s' ∧
      (∀ x, s.epoll.links.link x ≠ some .activeList) ∧
      ∀ x, ItemStep P Q (s.draining, view s x) (none, view s' x)) ∨
    ∃ x now, s.draining = some now ∧ s'.draining = some now ∧ LoopOk s' ∧
      s'.suspended = s.suspended ∧ s'.rt.running = (s.epoll.items x).args ∧
      s.epoll.links.link x = some .activeList ∧
      view s' x = { view s x with link := none, processed := (view s x).processed + 1 } ∧
      ∀ y ≠ x, view s' y = view s y := by
  obtain ⟨A, L, hnil⟩ := O.listed
  rw [EventLoop.drain] at h
  split at h
  · cases h
  next now hdr =>
    rcases drainTurn_spec L now with ⟨hA, hturn⟩ | ⟨x, xs, hA, hcase⟩
    · rw [hturn] at h
      obtain rfl := Option.some.inj h
      have hlink : ∀ y, s.epoll.links.link y ≠ some .activeList := fun y hl ↦ by
        have := (L.represents.link_iff ..).1 hl
        simp [hA] at this
      refine .inr (.inl ⟨rfl, O.setEpoll O.listed rfl (fun _ ↦ rfl) none, hlink, fun y ↦ ?_⟩)
      rw [hdr]
      exact .drained now (hlink y)
    rcases hcase with ⟨hto, hearly, -, ep, diff, hturn, -, L', -, hnext, hitems⟩ |
        ⟨-, ep, hturn, L', -, hnext, hitems⟩
    · rw [hturn] at h
      obtain rfl := Option.some.inj h
      exact .inl ⟨O.rearm hnil hdr L hA hto hearly rfl L' hnext hitems, rfl, rfl⟩
    · rw [hturn] at h
      have hlink : s.epoll.links.link x = some .activeList :=
        (L.represents.link_iff ..).2 (hA ▸ List.mem_cons_self)
      obtain ⟨hdr', O', hsusp, hrun, hview, hother⟩ := O.handOver hnil L hA L' hnext hitems h
      exact .inr (.inr ⟨x, now, hdr, hdr'.trans hdr, O', hsusp, hrun, hlink, hview, hother⟩)

/-! ### The beginning of a call -/

/-- A change that concerns the item `x` only. -/
structure OnlyItem (x : ItemId) (s s' : EventLoop) : Prop where
  ok : LoopOk s'
  draining : s'.draining = s.draining
  other : ∀ y ≠ x, view s' y = view s y

theorem OnlyItem.trans {s₁ s₂ s₃ : EventLoop} (h : OnlyItem x s₁ s₂) (h' : OnlyItem x s₂ s₃) :
    OnlyItem x s₁ s₃ :=
  ⟨h'.ok, h'.draining.trans h.draining, fun y hy ↦ (h'.other y hy).trans (h.other y hy)⟩

theorem OnlyItem.moves (h : OnlyItem x s s')
    (hx : ItemStep P Q (s.draining, view s x) (s.draining, view s' x)) : Moves P Q s s' :=
  .of_item h.ok x (h.draining.symm ▸ .single hx) h.draining h.other

/-- An item is allocated. -/
theorem LoopOk.alloc (O : LoopOk s) (expire self : ℕ) :
    OnlyItem s.epoll.nextItem s (s.alloc expire self) ∧
      view (s.alloc expire self) s.epoll.nextItem =
        { view s s.epoll.nextItem with expire := expire, isTimeout := false } := by
  obtain ⟨A, L, hnil⟩ := O.listed
  have hold : ∀ co y, s.suspended co = some y → y ≠ s.epoll.nextItem := fun co y hy ↦
    Nat.ne_of_lt (O.suspended co y hy).2.1
  refine ⟨⟨⟨O.wf, ⟨A, ⟨L.represents, fun l y hy ↦ ?_⟩, hnil⟩, O.conds, fun y hy ↦ ?_,
    fun co y hy ↦ ?_, O.registered, fun y hy ↦ ?_⟩, rfl, fun y hy ↦ ?_⟩, ?_⟩
  · exact Nat.lt_succ_of_lt (L.lt_next l y hy)
  · exact ⟨Nat.lt_succ_of_lt (O.cond y hy).1, (O.cond y hy).2⟩
  · obtain ⟨hargs, hlt, hfreed⟩ := O.suspended co y hy
    refine ⟨?_, Nat.lt_succ_of_lt hlt, hfreed⟩
    simp [EventLoop.alloc, CoEpoll.allocItem, hold co y hy, hargs]
  · exact O.fresh y (Nat.le_of_succ_le hy)
  · simp [view, EventLoop.alloc, CoEpoll.allocItem, hy]
  · have hw : ∀ co, s.suspended co ≠ some s.epoll.nextItem := fun co h ↦ hold co _ h rfl
    simp [view, EventLoop.alloc, CoEpoll.allocItem, hw]

/-- An item is put in the wheel, or refused. -/
theorem LoopOk.timerItemAdd (O : LoopOk s) (hx : x < s.epoll.nextItem)
    (hlink : s.epoll.links.link x = none) (now : ℕ) :
    OnlyItem x s { s with epoll := (s.epoll.timerItemAdd x now).1 } ∧
      (s.epoll.timerItemAdd x now).1.nextItem = s.epoll.nextItem ∧
      (s.epoll.timerItemAdd x now).1.items = s.epoll.items ∧
      ∃ l, (l = none ∨ ∃ i, l = some (.slot i)) ∧
        ((s.epoll.timerItemAdd x now).2 ≠ 0 → l = none) ∧
        view { s with epoll := (s.epoll.timerItemAdd x now).1 } x =
          { view s x with link := l } := by
  obtain ⟨A, L, hnil⟩ := O.listed
  rcases timerItemAdd_cases s.epoll x now with ⟨-, -, hep⟩ | ⟨hret, -, -, diff, -, hep⟩
  · rw [hep]
    refine ⟨⟨⟨O.wf, ⟨A, ⟨L.represents, L.lt_next⟩, hnil⟩, O.conds, O.cond, O.suspended,
      O.registered, O.fresh⟩, rfl, fun _ _ ↦ rfl⟩, rfl, rfl, none, .inl rfl, fun _ ↦ rfl, ?_⟩
    simp [view, hlink]
  · rw [hep]
    have R' := L.represents.tailAdd hlink (.slot ((s.epoll.timer.started now).slotOf diff))
    refine ⟨⟨⟨O.wf, ⟨_, ⟨R', fun l y hy ↦ ?_⟩, by simp [hnil]⟩, O.conds, O.cond, O.suspended,
      O.registered, O.fresh⟩, rfl, fun y hy ↦ ?_⟩, rfl, rfl,
      some (.slot ((s.epoll.timer.started now).slotOf diff)), .inr ⟨_, rfl⟩,
      fun h ↦ absurd hret h, ?_⟩
    · rcases eq_or_ne l (.slot ((s.epoll.timer.started now).slotOf diff)) with rfl | hl
      · rw [update_self, List.mem_append, List.mem_singleton] at hy
        exact hy.elim (L.lt_next _ y) fun e ↦ e ▸ hx
      · rw [update_of_ne hl] at hy
        exact L.lt_next l y hy
    · simp [view, Links.tailAdd_link hlink, hy]
    · simp [view, Links.tailAdd_link hlink]

/-- The running coroutine is in the call `x` from here on. -/
theorem LoopOk.suspend (O : LoopOk s) (hargs : (s.epoll.items x).args = s.rt.running)
    (hx : x < s.epoll.nextItem) (hfreed : s.freed x = false)
    (hrun : s.suspended s.rt.running = none) :
    OnlyItem x s (s.suspend x) ∧ view (s.suspend x) x = { view s x with waiting := true } := by
  refine ⟨⟨⟨O.wf, O.listed, O.conds, O.cond, fun co y hy ↦ ?_, O.registered, O.fresh⟩, rfl,
    fun y hy ↦ ?_⟩, ?_⟩
  · change update s.suspended s.rt.running (some x) co = some y at hy
    rcases eq_or_ne co s.rt.running with rfl | hco
    · rw [update_self, Option.some.injEq] at hy
      exact hy ▸ ⟨hargs, hx, hfreed⟩
    · rw [update_of_ne hco] at hy
      exact O.suspended co y hy
  · rcases eq_or_ne (s.epoll.items y).args s.rt.running with hco | hco
    · simp [view, EventLoop.suspend, hco, hrun, hy.symm]
    · simp [view, EventLoop.suspend, hco]
  · simp [view, EventLoop.suspend, hargs]

/-- The `CoPoll` of the item `x` has its record and registers its descriptors. -/
theorem LoopOk.register (O : LoopOk s) (hx : x < s.epoll.nextItem) (hcond : s.conds.link x = none)
    (hpoll : s.polls x = none) (fds : List PollFd) (ctl : ℤ → CtlResult) :
    OnlyItem x s { s with
        polls := update s.polls x (some (.new fds))
        interest := Interest.addAll ctl x 0 fds s.interest } ∧
      view { s with
        polls := update s.polls x (some (.new fds))
        interest := Interest.addAll ctl x 0 fds s.interest } x =
      { view s x with poll := true } := by
  refine ⟨⟨⟨O.wf, O.listed, O.conds, fun y hy ↦ ?_, O.suspended, fun fd y i hy ↦ ?_,
    fun y hy ↦ ?_⟩, rfl, fun y hy ↦ ?_⟩, ?_⟩
  · have hyx : y ≠ x := fun e ↦ hy (e ▸ hcond)
    exact ⟨(O.cond y hy).1, (update_of_ne hyx ..).trans (O.cond y hy).2⟩
  · rcases Interest.addAll_eq_some hy with hy | ⟨hfd, j, f, hf, rfl, hptr⟩
    · obtain ⟨q, hq, hreg⟩ := O.registered fd y i hy
      have hyx : y ≠ x := fun e ↦ by rw [e, hpoll] at hq; cases hq
      exact ⟨q, (update_of_ne hyx ..).trans hq, hreg⟩
    · obtain ⟨rfl, -⟩ := Prod.mk.inj hptr
      exact ⟨_, update_self .., f, List.mem_of_getElem? hf, rfl, hfd⟩
  · have hyx : y ≠ x := fun e ↦ absurd hx (Nat.not_lt.2 (e ▸ hy))
    simpa [hyx] using O.fresh y hy
  · simp [view, hy]
  · simp [view]

/-- The item goes to the end of the list of a condition variable. -/
theorem LoopOk.tailAddCond (O : LoopOk s) (hx : x < s.epoll.nextItem)
    (hcond : s.conds.link x = none) (hpoll : s.polls x = none) (c : CondId) :
    OnlyItem x s { s with conds := s.conds.tailAdd c x } ∧
      view { s with conds := s.conds.tailAdd c x } x = { view s x with cond := some c } := by
  obtain ⟨B, R⟩ := O.conds
  refine ⟨⟨⟨O.wf, O.listed, ⟨_, R.tailAdd hcond c⟩, fun y hy ↦ ?_, O.suspended, O.registered,
    O.fresh⟩, rfl, fun y hy ↦ ?_⟩, ?_⟩
  · rw [Links.tailAdd_link hcond] at hy
    rcases eq_or_ne y x with rfl | hyx
    · exact ⟨hx, hpoll⟩
    · rw [update_of_ne hyx] at hy
      exact O.cond y hy
  · simp [view, Links.tailAdd_link hcond, hy]
  · simp [view, Links.tailAdd_link hcond]

/-- A call that could not wait frees its item. -/
theorem LoopOk.refuse (O : LoopOk s) (hx : x < s.epoll.nextItem)
    (hw : ∀ co, s.suspended co ≠ some x) :
    OnlyItem x s { s with freed := update s.freed x true } ∧
      view { s with freed := update s.freed x true } x = { view s x with freed := true } := by
  refine ⟨⟨⟨O.wf, O.listed, O.conds, O.cond, fun co y hy ↦ ?_, O.registered, fun y hy ↦ ?_⟩, rfl,
    fun y hy ↦ ?_⟩, ?_⟩
  · have hyx : y ≠ x := fun e ↦ hw co (e ▸ hy)
    simpa [hyx] using O.suspended co y hy
  · have hyx : y ≠ x := fun e ↦ absurd hx (Nat.not_lt.2 (e ▸ hy))
    simpa [hyx] using O.fresh y hy
  · simp [view, hy]
  · simp [view]

/-- A `CoPoll` up to its `CoYield`. -/
theorem LoopOk.startPoll (O : LoopOk s) (self : CoId) (fds : List PollFd) (timeout : ℤ) (now : ℕ)
    (ctl : ℤ → CtlResult) {t : EventLoop} {ret : ℕ}
    (h : s.startPoll self fds timeout now ctl = (t, ret)) :
    OnlyItem s.epoll.nextItem s t ∧ t.rt = s.rt ∧ t.suspended = s.suspended ∧ t.freed = s.freed ∧
      t.epoll.nextItem = s.epoll.nextItem + 1 ∧ (t.epoll.items s.epoll.nextItem).args = self ∧
      ∃ l, (l = none ∨ ∃ i, l = some (.slot i)) ∧ (ret ≠ 0 → l = none) ∧
        view t s.epoll.nextItem =
          { view s s.epoll.nextItem with
            link := l
            expire := (now + pollTimeout timeout) % 2 ^ 64
            isTimeout := false
            poll := true } := by
  have F := O.view_fresh (Nat.le_refl _)
  have hpoll := (O.fresh s.epoll.nextItem (Nat.le_refl _)).1
  obtain ⟨C, hview⟩ := O.alloc ((now + pollTimeout timeout) % 2 ^ 64) self
  obtain ⟨C', hnext, hitems, l, hl, hret, hview'⟩ :=
    C.ok.timerItemAdd (x := s.epoll.nextItem) (Nat.lt_succ_self _) F.link now
  have hlt : s.epoll.nextItem < ((s.alloc ((now + pollTimeout timeout) % 2 ^ 64)
      self).epoll.timerItemAdd s.epoll.nextItem now).1.nextItem := by
    rw [hnext]
    exact Nat.lt_succ_self _
  obtain ⟨C'', hview''⟩ := C'.ok.register hlt F.cond hpoll fds ctl
  obtain ⟨rfl, rfl⟩ := Prod.mk.inj h
  refine ⟨(C.trans C').trans C'', rfl, rfl, rfl, hnext, ?_, l, hl, hret, ?_⟩
  · change ((CoEpoll.timerItemAdd _ _ _).1.items _).args = _
    rw [hitems]
    simp [EventLoop.alloc, CoEpoll.allocItem]
  · refine hview''.trans ?_
    rw [hview', hview]

/-- The `CoYield` of a call, whose item has been prepared from `s` to `s'`. -/
theorem OnlyItem.wait (C : OnlyItem x s s') (hrt : s'.rt = s.rt) (hlt : x < s'.epoll.nextItem)
    (hargs : (s'.epoll.items x).args = s.rt.running) (hfreed : s'.freed x = false)
    (hrun : s'.suspended s.rt.running = none) (hfresh : (view s x).Fresh)
    (hbegun : View.Begun { view s' x with waiting := true }) {t : EventLoop} {sp : ℕ}
    (h : s'.wait x sp = some t) :
    Moves P Q s t ∧ t.rt.env.callStackSize ≠ s.rt.env.callStackSize := by
  rw [← hrt] at hargs hrun
  obtain ⟨C', hview⟩ := C.ok.suspend hargs hlt hfreed hrun
  obtain ⟨rt, hy, rfl⟩ := Option.map_eq_some_iff.1 h
  rw [hrt] at hy
  obtain ⟨active, W⟩ : ∃ active, Wf s.rt active := hrt ▸ C.ok.wf
  have W' := W.coYield hy
  refine ⟨((C.trans C').moves ?_).trans (C'.ok.setRt ⟨_, W'⟩), fun hsize ↦ ?_⟩
  · rw [hview]
    exact .begun hfresh hbegun
  · obtain ⟨rest, hact⟩ := W.eq_cons
    change rt.env.callStackSize = _ at hsize
    rw [W'.size_eq, W.size_eq, hact] at hsize
    simp at hsize

/-- `CoPoll`: the call is left to the system, it waits, or `TimerItemAdd` refuses it. -/
theorem LoopOk.coPoll (O : LoopOk s) (hrun : s.suspended s.rt.running = none) {fds : List PollFd}
    {timeout : ℤ} {now sp : ℕ} {ctl : ℤ → CtlResult} {t : EventLoop}
    (h : s.coPoll fds timeout now ctl sp = some t) :
    Moves P Q s t ∧ (t.rt.env.callStackSize = s.rt.env.callStackSize →
        t.suspended t.rt.running = none) ∨
      OnlyItem s.epoll.nextItem s t ∧ t.rt = s.rt ∧
        t.suspended t.rt.running = some s.epoll.nextItem ∧
        (view s s.epoll.nextItem).Fresh ∧
        ∃ expire, view t s.epoll.nextItem =
          { view s s.epoll.nextItem with
            expire := expire, isTimeout := false, poll := true, waiting := true } := by
  have F := O.view_fresh (Nat.le_refl _)
  obtain ⟨active, W⟩ := O.wf
  rw [EventLoop.coPoll] at h
  split at h
  · obtain rfl := Option.some.inj h
    exact .inl ⟨O.moves, fun _ ↦ hrun⟩
  rw [EventLoop.coSelf, W.callAt_top] at h
  dsimp only at h
  split at h
  · obtain rfl := Option.some.inj h
    obtain ⟨C, hview⟩ := O.alloc 0 s.rt.running
    obtain ⟨C', hview'⟩ := C.ok.refuse (x := s.epoll.nextItem) (Nat.lt_succ_self _) fun co hco ↦
      absurd (O.suspended co _ hco).2.1 (Nat.lt_irrefl _)
    refine .inl ⟨(C.trans C').moves ?_, fun _ ↦ hrun⟩
    refine .refused F ?_
    rw [hview', hview]
    exact ⟨F.link, F.cond, by simp [view, (O.fresh _ (Nat.le_refl _)).1], F.waiting, F.processed,
      F.signalled⟩
  · split at h
    next s' heq =>
      obtain ⟨C, hrt, hsusp, hfreed, hnext, hargs, l, hl, -, hview⟩ := O.startPoll _ _ _ _ _ heq
      obtain ⟨M, hsize⟩ := C.wait (P := P) (Q := Q) hrt (hnext ▸ Nat.lt_succ_self _) hargs
        (hfreed ▸ F.freed) (hsusp ▸ hrun) F
        ⟨by simpa [hview] using hl, by rw [hview], fun _ ↦ by rw [hview]; exact F.cond, rfl,
          by rw [hview]; exact F.processed, by rw [hview]; exact F.freed,
          by rw [hview]; exact F.signalled⟩ h
      exact .inl ⟨M, fun hs ↦ absurd hs hsize⟩
    next s' n heq =>
      obtain ⟨C, hrt, hsusp, hfreed, hnext, hargs, l, -, hnone, hview⟩ := O.startPoll _ _ _ _ _ heq
      obtain rfl := Option.some.inj h
      rw [← hrt] at hargs
      obtain ⟨C', hview'⟩ := C.ok.suspend hargs (hnext ▸ Nat.lt_succ_self _) (hfreed ▸ F.freed)
        (by rw [hsusp, hrt]; exact hrun)
      refine .inr ⟨C.trans C', hrt, update_self .., F,
        (now + pollTimeout timeout) % 2 ^ 64, hview'.trans ?_⟩
      rw [hview, hnone (Nat.succ_ne_zero n), ← F.link]

/-- A `CoCondTimewait` up to the list of the condition variable. -/
theorem LoopOk.startTimewait (O : LoopOk s) (self : CoId) (timeout : ℤ) (now : ℕ) {t : EventLoop}
    {ret : ℕ} (h : s.startTimewait self timeout now = (t, ret)) :
    OnlyItem s.epoll.nextItem s t ∧ t.rt = s.rt ∧ t.suspended = s.suspended ∧ t.freed = s.freed ∧
      t.epoll.nextItem = s.epoll.nextItem + 1 ∧ (t.epoll.items s.epoll.nextItem).args = self ∧
      t.conds = s.conds ∧ t.polls = s.polls ∧
      ∃ expire l, (l = none ∨ ∃ i, l = some (.slot i)) ∧ (ret ≠ 0 → l = none) ∧
        view t s.epoll.nextItem =
          { view s s.epoll.nextItem with link := l, expire := expire, isTimeout := false } := by
  have F := O.view_fresh (Nat.le_refl _)
  rw [EventLoop.startTimewait] at h
  split at h
  · obtain ⟨C, hview⟩ := O.alloc ((now + timeout.toNat) % 2 ^ 64) self
    obtain ⟨C', hnext, hitems, l, hl, hret, hview'⟩ :=
      C.ok.timerItemAdd (x := s.epoll.nextItem) (Nat.lt_succ_self _) F.link now
    obtain ⟨rfl, rfl⟩ := Prod.mk.inj h
    refine ⟨C.trans C', rfl, rfl, rfl, hnext, ?_, rfl, rfl, (now + timeout.toNat) % 2 ^ 64, l, hl,
      hret, ?_⟩
    · change ((CoEpoll.timerItemAdd _ _ _).1.items _).args = _
      rw [hitems]
      simp [EventLoop.alloc, CoEpoll.allocItem]
    · rw [hview', hview]
  · obtain ⟨C, hview⟩ := O.alloc 0 self
    obtain ⟨rfl, rfl⟩ := Prod.mk.inj h
    refine ⟨C, rfl, rfl, rfl, rfl, ?_, rfl, rfl, 0, none, .inl rfl, fun _ ↦ rfl, ?_⟩
    · simp [EventLoop.alloc, CoEpoll.allocItem]
    · rw [hview, ← F.link]

/-- `CoCondTimewait`: the call waits, or `TimerItemAdd` refuses it. -/
theorem LoopOk.coCondTimewait (O : LoopOk s) (hrun : s.suspended s.rt.running = none) {c : CondId}
    {timeout : ℤ} {now sp : ℕ} {t : EventLoop} (h : s.coCondTimewait c timeout now sp = some t) :
    Moves P Q s t ∧ (t.rt.env.callStackSize = s.rt.env.callStackSize →
      t.suspended t.rt.running = none) := by
  have F := O.view_fresh (Nat.le_refl _)
  have hpoll := (O.fresh s.epoll.nextItem (Nat.le_refl _)).1
  obtain ⟨active, W⟩ := O.wf
  rw [EventLoop.coCondTimewait, EventLoop.coSelf, W.callAt_top] at h
  dsimp only at h
  split at h
  next s' heq =>
    obtain ⟨C, hrt, hsusp, hfreed, hnext, hargs, hconds, hpolls, expire, l, hl, -, hview⟩ :=
      O.startTimewait _ _ _ heq
    have hlt : s.epoll.nextItem < s'.epoll.nextItem := hnext ▸ Nat.lt_succ_self _
    obtain ⟨C', hview'⟩ :=
      C.ok.tailAddCond hlt (hconds ▸ F.cond) ((congrFun hpolls _).trans hpoll) c
    have hnone : (view s s.epoll.nextItem).poll = false := by simp [view, hpoll]
    obtain ⟨M, hsize⟩ := (C.trans C').wait (P := P) (Q := Q) hrt hlt hargs (hfreed ▸ F.freed)
      (hsusp ▸ hrun) F
      ⟨by simpa [hview', hview] using hl, by rw [hview', hview],
        fun h ↦ by simp [hview', hview, hnone] at h, rfl, by rw [hview', hview]; exact F.processed,
        by rw [hview', hview]; exact F.freed, by rw [hview', hview]; exact F.signalled⟩ h
    exact ⟨M, fun hs ↦ absurd hs hsize⟩
  next s' n heq =>
    obtain ⟨C, hrt, hsusp, hfreed, hnext, hargs, hconds, hpolls, expire, l, -, hret, hview⟩ :=
      O.startTimewait _ _ _ heq
    obtain rfl := Option.some.inj h
    obtain ⟨C', hview'⟩ := C.ok.refuse (x := s.epoll.nextItem) (hnext ▸ Nat.lt_succ_self _)
      fun co hco ↦ absurd (O.suspended co _ (hsusp ▸ hco)).2.1 (Nat.lt_irrefl _)
    refine ⟨(C.trans C').moves ?_, fun _ ↦ ?_⟩
    · refine .refused F ?_
      rw [hview', hview, hret (Nat.succ_ne_zero n)]
      exact ⟨rfl, F.cond, by simp [view, hpoll], F.waiting, F.processed, F.signalled⟩
    · change s'.suspended s'.rt.running = none
      rw [hsusp, hrt]
      exact hrun

/-! ### A step -/

/-- Only `OnProcessEvent` gives control to a coroutine that waits. -/
def OnlyProcessResumes (loopCo : CoId) (s : EventLoop) : LoopAction → Prop
  | .drain _ => True
  | a => ∀ t ∈ s.act loopCo a, t.rt.env.callStackSize ≠ s.rt.env.callStackSize →
      t.suspended t.rt.running = none

instance (loopCo : CoId) (s : EventLoop) (a : LoopAction) :
    Decidable (OnlyProcessResumes loopCo s a) :=
  match a with
  | .drain _ => isTrue trivial
  | .runtime _ | .poll _ _ _ _ _ | .timewait _ _ _ _ | .signal _ | .broadcast _ | .iterate _ _ =>
    inferInstanceAs (Decidable (∀ t ∈ s.act loopCo _,
      t.rt.env.callStackSize ≠ s.rt.env.callStackSize → t.suspended t.rt.running = none))

/-- No coroutine that waits is released or reset. -/
def SparesWaiting (s : EventLoop) : LoopAction → Prop
  | .runtime (.release co) | .runtime (.reset co) => s.suspended co = none
  | _ => True

instance (s : EventLoop) (a : LoopAction) : Decidable (SparesWaiting s a) :=
  match a with
  | .runtime (.release co) | .runtime (.reset co) =>
    inferInstanceAs (Decidable (s.suspended co = none))
  | .runtime (.create _ _) | .runtime (.resume _ _) | .runtime (.yield _) | .runtime (.finish _)
  | .runtime (.run _) | .poll _ _ _ _ _ | .timewait _ _ _ _ | .signal _ | .broadcast _
  | .iterate _ _ | .drain _ => isTrue trivial

/-- No waiter is popped from its condition variable while it is marked as timed out before its
time. -/
def OnTime (s : EventLoop) : LoopAction → Prop
  | .signal c => ∀ x ∈ s.conds.head c, Due s x
  | .broadcast c => ∀ x < s.epoll.nextItem, s.conds.link x = some c → Due s x
  | _ => True

instance (s : EventLoop) (a : LoopAction) : Decidable (OnTime s a) :=
  match a with
  | .signal c => inferInstanceAs (Decidable (∀ x ∈ s.conds.head c, Due s x))
  | .broadcast c => inferInstanceAs
      (Decidable (∀ x < s.epoll.nextItem, s.conds.link x = some c → Due s x))
  | .runtime _ | .poll _ _ _ _ _ | .timewait _ _ _ _ | .iterate _ _ | .drain _ => isTrue trivial

/-- A linked item, and one that is registered for events, belongs to a call that waits. -/
def LinkedWait (s : EventLoop) : Prop :=
  ∀ x, s.epoll.links.link x ≠ none ∨ (s.polls x).isSome → (view s x).waiting = true

theorem LoopOk.runtimeStep (O : LoopOk s) (hrun : s.suspended s.rt.running = none) {a : Action}
    {t : EventLoop} (h : s.runtimeStep a = some t) (hP : P → SparesWaiting s (.runtime a)) :
    Moves P Q s t ∧ (t.rt.env.callStackSize = s.rt.env.callStackSize →
      t.suspended t.rt.running = none) := by
  obtain ⟨active, W⟩ := O.wf
  cases a with
  | release co | reset co =>
    obtain ⟨hon, h⟩ := Option.ite_none_left_eq_some.1 h
    obtain ⟨rt, hrt, rfl⟩ := Option.map_eq_some_iff.1 h
    have hspare : co ∉ active := fun hmem ↦ hon (W.onCallStack_iff.2 hmem)
    refine ⟨O.abandon ⟨_, W.step (by exact hspare) hrt⟩ hP, fun hsize ↦ ?_⟩
    show update s.suspended co none rt.running = none
    rw [W.step_running (by exact hspare) hrt hsize, update_apply, hrun, ite_self]
  | create attr buffer | resume co sp | yield sp | finish sp | run bytes =>
    rw [EventLoop.runtimeStep] at h
    obtain ⟨rt, hrt, rfl⟩ := Option.map_eq_some_iff.1 h
    refine ⟨O.setRt ⟨_, W.step (by trivial) hrt⟩, fun hsize ↦ ?_⟩
    show s.suspended rt.running = none
    rw [W.step_running (by trivial) hrt hsize, hrun]

variable {loopCo : CoId} {a : LoopAction}

/-- Where control stays, the running coroutine is in no call; where it goes, it goes to a coroutine
that does not wait. -/
theorem not_suspended_of_switch {t : EventLoop} (ht : s.act loopCo a = some t)
    (hdrain : ∀ sp, a ≠ .drain sp) (h : OnlyProcessResumes loopCo s a)
    (hsame : t.rt.env.callStackSize = s.rt.env.callStackSize → t.suspended t.rt.running = none) :
    t.suspended t.rt.running = none := by
  rcases eq_or_ne t.rt.env.callStackSize s.rt.env.callStackSize with hsize | hsize
  · exact hsame hsize
  · cases a with
    | drain sp => exact absurd rfl (hdrain sp)
    | runtime a => exact h t ht hsize
    | poll fds timeout now ctl sp => exact h t ht hsize
    | timewait c timeout now sp => exact h t ht hsize
    | signal c => exact h t ht hsize
    | broadcast c => exact h t ht hsize
    | iterate events now => exact h t ht hsize

/-- What a step does: every item goes its own way, the running coroutine is in no call, and a drain
only ends when `active_list` is empty. -/
structure Advances (P Q : Prop) (s s' : EventLoop) : Prop where
  ok : LoopOk s'
  life : ∀ x, ItemSteps P Q (s.draining, view s x) (s'.draining, view s' x)
  draining : s.draining ≠ none → s'.draining = s.draining ∨
    s'.draining = none ∧ ∀ x, s'.epoll.links.link x ≠ some .activeList
  running : s'.suspended s'.rt.running = none

/-- The action has been taken, and the coroutine in control goes on. -/
theorem Moves.advances {t : EventLoop} (M : Moves P Q s t) (h : t.arrive = some s')
    (hP : P → t.suspended t.rt.running = none) : Advances P Q s s' := by
  obtain ⟨M', hrun⟩ := M.ok.arrive (Q := Q) h hP
  exact ⟨M'.ok, (M.trans M').life, fun hdr ↦ .inl ((M.trans M').draining hdr), hrun⟩

/-- The coroutine of the item `x`, popped from `active_list`, goes on. -/
theorem LoopOk.advances_of_process {t : EventLoop} (O : LoopOk s) (O' : LoopOk t) {now : ℕ}
    (hdr : s.draining = some now) (hdr' : t.draining = some now) (hsusp : t.suspended = s.suspended)
    (hrun : t.rt.running = (s.epoll.items x).args)
    (hlink : s.epoll.links.link x = some .activeList)
    (hview : view t x = { view s x with link := none, processed := (view s x).processed + 1 })
    (hother : ∀ y ≠ x, view t y = view s y) (hP : P → LinkedWait s) (h : t.arrive = some s') :
    Advances P Q s s' := by
  rw [EventLoop.arrive] at h
  split at h
  next hz =>
    -- The coroutine is in no call.
    obtain rfl := Option.some.inj h
    have hw : (view s x).waiting = false := by
      rw [hrun, hsusp] at hz
      simp [view, hz]
    refine ⟨O', fun y ↦ ?_, fun _ ↦ .inl (hdr'.trans hdr.symm), hz⟩
    rw [hdr, hdr']
    rcases eq_or_ne y x with rfl | hyx
    · rw [show view t y = (view s y).called by simp [View.called, hview, hw]]
      exact .single (.called now hlink)
    · rw [hother y hyx]
  next z hz =>
    obtain ⟨O'', hdr'', hrt'', hsusp'', hview', hother'⟩ := O'.endWait hz h
    refine ⟨O'', fun y ↦ ?_, fun _ ↦ .inl (hdr''.trans (hdr'.trans hdr.symm)),
      by rw [hrt'', hsusp'']⟩
    rw [hdr, hdr'', hdr']
    have hwz : (view s z).waiting = true := O.waiting (hsusp ▸ hz)
    rcases eq_or_ne z x with rfl | hzx
    · -- It is in the call of the item.
      rcases eq_or_ne y z with rfl | hyz
      · rw [show view s' y = (view s y).called by simp [View.called, hview', hview, hwz]]
        exact .single (.called now hlink)
      · rw [hother' y hyz, hother y hyz]
    · -- It is in another call.
      have hw : (view s x).waiting = false := by
        rw [hrun, hsusp] at hz
        simp [view, hz, hzx]
      have hP' : ¬ P := fun p ↦ by simp [hP p x (.inl (by simp [hlink]))] at hw
      rcases eq_or_ne y x with rfl | hyx
      · rw [hother' y hzx.symm, show view t y = (view s y).called by simp [View.called, hview, hw]]
        exact .single (.called now hlink)
      · rcases eq_or_ne y z with rfl | hyz
        · rw [hview', hother y hyx]
          exact .single (.resumed hP' hwz)
        · rw [hother' y hyz, hother y hyx]

/-- **A step takes every item along its own way.** -/
theorem LoopOk.step (O : LoopOk s) (hrun : s.suspended s.rt.running = none)
    (hP : P → OnlyProcessResumes loopCo s a ∧ SparesWaiting s a ∧ LinkedWait s)
    (hQ : Q → OnTime s a) (h : s.step loopCo a = some s') : Advances P Q s s' := by
  obtain ⟨t, ht, harr⟩ := Option.bind_eq_some_iff.1 h
  -- Where control stays, the running coroutine is in no call.
  have goOn (M : Moves P Q s t) (hdrain : ∀ sp, a ≠ .drain sp)
      (hsame : t.rt.env.callStackSize = s.rt.env.callStackSize →
        t.suspended t.rt.running = none) : Advances P Q s s' :=
    M.advances harr fun p ↦ not_suspended_of_switch ht hdrain (hP p).1 hsame
  cases a with
  | runtime a =>
    obtain ⟨M, hsame⟩ := O.runtimeStep hrun ht fun p ↦ (hP p).2.1
    exact goOn M (by simp) hsame
  | poll fds timeout now ctl sp =>
    rcases O.coPoll hrun ht with ⟨M, hsame⟩ | ⟨C, hrt, hsusp, F, expire, hview⟩
    · exact goOn M (by simp) hsame
    · -- `TimerItemAdd` refuses: the call cleans up at once.
      rw [EventLoop.arrive, hsusp] at harr
      obtain ⟨O', hdr, hrt', hsusp', hview', hother⟩ := C.ok.endWait hsusp harr
      have M : Moves P Q s s' := (C.trans ⟨O', hdr, hother⟩).moves (.refused F (by
        rw [hview', hview]
        exact ⟨rfl, F.cond, rfl, rfl, F.processed, F.signalled⟩))
      exact ⟨M.ok, M.life, fun hdr ↦ .inl (M.draining hdr), by rw [hrt', hsusp']⟩
  | timewait c timeout now sp =>
    obtain ⟨M, hsame⟩ := O.coCondTimewait hrun ht
    exact goOn M (by simp) hsame
  | signal c =>
    obtain rfl | ⟨x, hx, hwake⟩ := EventLoop.coCondSignal_eq_some ht
    · exact goOn O.moves (by simp) fun _ ↦ hrun
    · have M := O.wakeUp (P := P) (Q := Q) hx hwake fun q ↦ hQ q x hx
      refine goOn M (by simp) fun _ ↦ ?_
      obtain ⟨ep, -, rfl⟩ := Option.map_eq_some_iff.1 hwake
      exact hrun
  | broadcast c =>
    obtain ⟨M, hsusp, hrt⟩ := O.broadcastLoop (P := P) (Q := Q) ht fun q x hx ↦
      hQ q x (O.cond x (by simp [hx])).1 hx
    exact goOn M (by simp) fun _ ↦ by rw [hsusp, hrt, hrun]
  | iterate events now =>
    obtain ⟨-, hiterate⟩ := Option.ite_none_right_eq_some.1 ht
    obtain ⟨M, hsusp, hrt⟩ := O.iterate (P := P) (Q := Q) hiterate fun p fd x i hreg ↦ by
      obtain ⟨q, hq, -⟩ := O.registered fd x i hreg
      exact (hP p).2.2 x (.inr (by simp [hq]))
    exact goOn M (by simp) fun _ ↦ by rw [hsusp, hrt, hrun]
  | drain sp =>
    obtain ⟨-, hdrain⟩ := Option.ite_none_right_eq_some.1 ht
    rcases O.drain (P := P) (Q := Q) hdrain with ⟨M, hsusp, hrt⟩ | ⟨rfl, O', hempty, hlife⟩ |
        ⟨x, now, hdr, hdr', O', hsusp, hrun', hlink, hview, hother⟩
    · exact M.advances harr fun _ ↦ by rw [hsusp, hrt, hrun]
    · rw [EventLoop.arrive, hrun] at harr
      obtain rfl := Option.some.inj harr
      exact ⟨O', fun x ↦ .single (hlife x), fun _ ↦ .inr ⟨rfl, hempty⟩, hrun⟩
    · exact O.advances_of_process O' hdr hdr' hsusp hrun' hlink hview hother
        (fun p ↦ (hP p).2.2) harr

/-- Between the action and the clean-up, too, the state is in order. -/
theorem LoopOk.act (O : LoopOk s) (hrun : s.suspended s.rt.running = none)
    (h : s.act loopCo a = some s') : LoopOk s' := by
  cases a with
  | runtime a => exact (O.runtimeStep (P := False) (Q := False) hrun h False.elim).1.ok
  | poll fds timeout now ctl sp =>
    rcases O.coPoll (P := False) (Q := False) hrun h with ⟨M, -⟩ | ⟨C, -⟩
    · exact M.ok
    · exact C.ok
  | timewait c timeout now sp =>
    exact (O.coCondTimewait (P := False) (Q := False) hrun h).1.ok
  | signal c =>
    obtain rfl | ⟨x, hx, h⟩ := EventLoop.coCondSignal_eq_some h
    · exact O
    · exact (O.wakeUp (P := False) (Q := False) hx h False.elim).ok
  | broadcast c => exact (O.broadcastLoop (P := False) (Q := False) h False.elim).1.ok
  | iterate events now =>
    obtain ⟨-, h⟩ := Option.ite_none_right_eq_some.1 h
    exact (O.iterate (P := False) (Q := False) h False.elim).1.ok
  | drain sp =>
    obtain ⟨-, h⟩ := Option.ite_none_right_eq_some.1 h
    rcases O.drain (P := False) (Q := False) h with ⟨M, -⟩ | ⟨-, O', -⟩ | ⟨x, now, -, -, O', -⟩
    · exact M.ok
    · exact O'
    · exact O'

/-- The clean-up of a call is always defined. -/
theorem LoopOk.endWait_defined (O : LoopOk s) (x : ItemId) : ∃ s', s.endWait x = some s' := by
  obtain ⟨A, L, -⟩ := O.listed
  obtain ⟨B, R⟩ := O.conds
  obtain ⟨links, hlinks, -⟩ := timeoutRemoveFromLink_spec L x
  obtain ⟨conds, hconds, -⟩ := R.removeFromLink x
  rw [EventLoop.endWait]
  split
  · exact ⟨_, by rw [hlinks, Option.map_some]⟩
  · exact ⟨_, by rw [hconds, Option.map_some]⟩

/-! ### The initial state -/

/-- At first there are no items. -/
theorem loopOk_initial {rt : Runtime} {active : List CoId} (W : Wf rt active) (now : ℕ) :
    LoopOk (.initial rt now) where
  wf := ⟨active, W⟩
  listed := ⟨_, listed_epollAlloc 60000 now, rfl⟩
  conds := ⟨_, Links.represents_empty⟩
  cond x hx := absurd rfl hx
  suspended co x hx := by cases hx
  registered fd x i hx := by cases hx
  fresh x _ := ⟨rfl, rfl, rfl, rfl⟩

/-- Between two steps the state is in order, and the running coroutine is in no call. -/
structure InOrder (s : EventLoop) : Prop where
  ok : LoopOk s
  running : s.suspended s.rt.running = none

theorem inOrder_initial {rt : Runtime} {active : List CoId} (W : Wf rt active) (now : ℕ) :
    InOrder (.initial rt now) :=
  ⟨loopOk_initial W now, rfl⟩

theorem InOrder.step (I : InOrder s) (h : s.step loopCo a = some s') : InOrder s' := by
  have M := I.ok.step (P := False) (Q := False) I.running False.elim False.elim h
  exact ⟨M.ok, M.running⟩

end CoRoutine
