import MiscCpp.Coroutine.TimingWheel
import MiscCpp.Library.Machine

/-!
# Timers are neither early nor late

The event loop as far as timers go: iterations that take the timeouts of the wheel and then drain
`active_list`, and between the turns of the drain, or between iterations, whatever the `process_pfn`
of the items and the rest of the program do with timeout items: allocate and arm them, remove them
from their list, or move them to `active_list`.

The invariant (`TimerOk`) places each item of the wheel: its slot is some `off < slot_size` ahead of
`start_idx`, and the time of that slot, `start + off`, is not after its `expire_time`. An iteration
that takes a slot too early re-arms the item; one that takes place at or after the `expire_time`
takes the slot.
-/

open Function

namespace CoRoutine

open CoRoutine.CoEpoll

/-- The state of the loop. `draining` is the clock reading of the drain in progress; `processed` is
a history of the calls of `process_pfn`: the item, and the reading of the iteration. -/
structure TimerLoop where
  epoll : CoEpoll
  draining : Option ℕ
  processed : List (ItemId × ℕ)

/-- A step of the loop (`iterate`, `drain`), or of the code it runs. -/
inductive TimerAction where
  | alloc (expire args : ℕ)
  | arm (x : ItemId) (now : ℕ)
  | remove (x : ItemId)
  | activate (x : ItemId)
  | iterate (now : ℕ)
  | drain

namespace TimerLoop

/-- The loop before its first iteration, with the wheel of `TimerAlloc(size)` at `now`. -/
def initial (size now : ℕ) : TimerLoop where
  epoll := epollAlloc size now
  draining := none
  processed := []

def step (s : TimerLoop) : TimerAction → Option TimerLoop
  | .alloc expire args => some { s with epoll := s.epoll.allocItem expire args }
  | .arm x now =>
    if x < s.epoll.nextItem then some { s with epoll := (s.epoll.timerItemAdd x now).1 } else none
  | .remove x => (s.epoll.timeoutRemoveFromLink x).map fun ep ↦ { s with epoll := ep }
  | .activate x =>
    if x < s.epoll.nextItem then (s.epoll.activate x).map fun ep ↦ { s with epoll := ep }
    else none
  | .iterate now =>
    match s.draining with
    | none =>
      (s.epoll.clearTimeoutList.takeTimeouts now).map fun ep ↦
        { s with epoll := ep, draining := some now }
    | some _ => none
  | .drain =>
    match s.draining with
    | none => none
    | some now =>
      match s.epoll.drainTurn now with
      | .done => some { s with draining := none }
      | .rearmed ep => some { s with epoll := ep }
      | .process x ep => some { s with epoll := ep, processed := (x, now) :: s.processed }

theorem iterate_eq_some {s s' : TimerLoop} {now : ℕ} (h : s.step (.iterate now) = some s') :
    s.draining = none ∧ ∃ ep, s.epoll.clearTimeoutList.takeTimeouts now = some ep ∧
      s' = { s with epoll := ep, draining := some now } := by
  rw [step] at h
  split at h
  next hdr =>
    obtain ⟨ep, hep, rfl⟩ := Option.map_eq_some_iff.1 h
    exact ⟨hdr, ep, hep, rfl⟩
  next => cases h

end TimerLoop

/-- The clock readings of the iterations. -/
def readings (acts : List TimerAction) : List ℕ :=
  acts.filterMap fun a ↦ match a with | .iterate now => some now | _ => none

/-- The action is not one by which the program takes the item from the timer. -/
def Untouched (x : ItemId) : TimerAction → Prop
  | .arm y _ | .remove y | .activate y => y ≠ x
  | _ => True

/-! ### The wheel -/

/-- A wheel that runs: its size is a positive `int`, it has started, and `start_idx` counts no more
than the milliseconds that have passed. -/
structure WheelOk (w : TimingWheel) : Prop where
  size_pos : 0 < w.slotSize
  size_lt : w.slotSize < 2 ^ 31
  start_pos : 0 < w.start
  start_lt : w.start < 2 ^ 63
  idx : ∃ k : ℕ, w.startIdx = k ∧ k ≤ w.start

variable {w w' : TimingWheel} {now : ℕ}

theorem WheelOk.started (W : WheelOk w) (now : ℕ) : w.started now = w :=
  if_neg (Nat.ne_of_gt W.start_pos)

/-- `TimerItemAdd` picks the slot `diff` ahead: nothing overflows. -/
theorem WheelOk.slotOf (W : WheelOk w) {k : ℕ} (hk : w.startIdx = k) {diff : ℕ}
    (hdiff : diff < w.slotSize) : w.slotOf diff = (k + diff) % w.slotSize := by
  obtain ⟨k', hk', hle⟩ := W.idx
  have h₁ := W.size_lt
  have h₂ := W.start_lt
  have hmod : (w.startIdx + diff) % 2 ^ 64 = ((k + diff : ℕ) : ℤ) := by
    rw [hk] at hk' ⊢
    omega
  rw [TimingWheel.slotOf, hmod, Int.toNat_natCast]

/-- Where the clock has not gone back, the wheel turns to `now`. -/
theorem Takes.eq {slots : List ℕ} (T : Takes w now slots w') (W : WheelOk w)
    (hle : w.start ≤ now) (hlt : now - w.start < 2 ^ 31 - 1) {k : ℕ} (hk : w.startIdx = k) :
    slots = (List.range (min (now - w.start + 1) w.slotSize)).map
        (fun i ↦ (k + i) % w.slotSize) ∧
      w' = { w with
        start := now, startIdx := (k + (min (now - w.start + 1) w.slotSize - 1) : ℕ) } := by
  have hst := W.started now
  cases T with
  | early h =>
    rw [hst] at h
    omega
  | turn h hslots =>
    rw [hst] at h hslots ⊢
    have hfun : w.slotIdx = fun i ↦ pure ((k + i) % w.slotSize) := funext (slotIdx_eq hk)
    rw [turns_eq hle hlt, Int.toNat_natCast, hfun, List.mapM_pure] at hslots
    refine ⟨(Option.some.inj hslots).symm, ?_⟩
    have hpos := W.size_pos
    have hcast : (k : ℤ) + ((min (now - w.start + 1) w.slotSize : ℕ) - 1) =
        (k + (min (now - w.start + 1) w.slotSize - 1) : ℕ) := by omega
    rw [turns_eq hle hlt, hk, hcast]

/-! ### The invariant -/

/-- The place of an item in the wheel: the slot `i` is `off` ahead, and not after the item's
time. -/
def InPlace (w : TimingWheel) (expire i : ℕ) : Prop :=
  ∃ k off : ℕ, w.startIdx = k ∧ off < w.slotSize ∧ i = (k + off) % w.slotSize ∧
    w.start + off ≤ expire

/-- The lists are laid out, `timeout_list` is empty, every item of the wheel is in its place, and a
drain goes by the reading the wheel stands at. -/
structure TimerOk (s : TimerLoop) (A : TimeoutLink → List ItemId) : Prop where
  listed : Listed s.epoll A
  nil : A .timeoutList = []
  wheel : WheelOk s.epoll.timer
  inPlace : ∀ i, ∀ x ∈ A (.slot i), InPlace s.epoll.timer (s.epoll.items x).expireTime i
  draining : ∀ now, s.draining = some now → now = s.epoll.timer.start

/-- An item in its place stays there while its slot is not taken. -/
theorem InPlace.turn {expire i : ℕ} (h : InPlace w expire i)
    (hle : w.start ≤ now) {k : ℕ} (hk : w.startIdx = k)
    (hi : i ∉ (List.range (min (now - w.start + 1) w.slotSize)).map
      fun j ↦ (k + j) % w.slotSize) :
    now < expire ∧ InPlace { w with
      start := now, startIdx := (k + (min (now - w.start + 1) w.slotSize - 1) : ℕ) } expire i := by
  obtain ⟨k', off, hk', hoff, rfl, hexp⟩ := h
  obtain rfl : k = k' := by
    rw [hk] at hk'
    exact Int.ofNat.inj hk'
  -- The slot lies behind the turns that were made, so that all milliseconds were turned.
  have hmin : min (now - w.start + 1) w.slotSize ≤ off := by
    by_contra hlt
    exact hi (List.mem_map.2 ⟨off, List.mem_range.2 (Nat.lt_of_not_le hlt), rfl⟩)
  refine ⟨by omega, _, off - (now - w.start), rfl, ?_, ?_, ?_⟩
  · simp only
    omega
  · simp only
    congr 1
    omega
  · simp only
    omega

/-- The slot `TimerItemAdd` picks is the item's place. -/
theorem WheelOk.inPlace (W : WheelOk w) {expire diff : ℕ} (hle : w.start ≤ expire)
    (hdiff : diff = if expire - w.start ≥ w.slotSize then w.slotSize - 1 else expire - w.start) :
    InPlace w expire (w.slotOf diff) := by
  obtain ⟨k, hk, -⟩ := W.idx
  have hpos := W.size_pos
  have hlt : diff < w.slotSize := by
    rw [hdiff]
    split <;> omega
  refine ⟨k, diff, hk, hlt, W.slotOf hk hlt, ?_⟩
  rw [hdiff]
  split <;> omega

variable {s s' : TimerLoop} {A A' : TimeoutLink → List ItemId} {x y : ItemId}

/-! ### What the code between the turns does -/

/-- The action leaves the item `x` where it is, and changes nothing an iteration goes by. -/
structure LeavesItem (s : TimerLoop) (A : TimeoutLink → List ItemId) (s' : TimerLoop)
    (A' : TimeoutLink → List ItemId) (x : ItemId) : Prop where
  mem_iff : ∀ l, x ∈ A' l ↔ x ∈ A l
  item_eq : s'.epoll.items x = s.epoll.items x

theorem TimerOk.alloc (T : TimerOk s A) (expire args : ℕ) :
    TimerOk { s with epoll := s.epoll.allocItem expire args } A ∧
      ∀ x < s.epoll.nextItem,
        LeavesItem s A { s with epoll := s.epoll.allocItem expire args } A x := by
  have hitem : ∀ x < s.epoll.nextItem,
      (s.epoll.allocItem expire args).items x = s.epoll.items x := fun x hx ↦
    update_of_ne (Nat.ne_of_lt hx) ..
  refine ⟨⟨⟨T.listed.represents, fun l x hx ↦ Nat.lt_succ_of_lt (T.listed.lt_next l x hx)⟩, T.nil,
    T.wheel, fun i x hx ↦ ?_, T.draining⟩, fun x hx ↦ ⟨fun _ ↦ .rfl, hitem x hx⟩⟩
  change InPlace s.epoll.timer ((s.epoll.allocItem expire args).items x).expireTime i
  rw [hitem x (T.listed.lt_next _ x hx)]
  exact T.inPlace i x hx

/-- `TimerItemAdd` of an item that is in no list, where it succeeds, puts it in the wheel. -/
theorem TimerOk.arm (T : TimerOk s A) (hx : x < s.epoll.nextItem) (now : ℕ) :
    ∃ A', TimerOk { s with epoll := (s.epoll.timerItemAdd x now).1 } A' ∧
      (∀ y ≠ x, LeavesItem s A { s with epoll := (s.epoll.timerItemAdd x now).1 } A' y) ∧
      (s.epoll.timerItemAdd x now).1.items = s.epoll.items ∧
      (s.epoll.links.link x = none → (s.epoll.timerItemAdd x now).2 = 0 →
        now ≤ (s.epoll.items x).expireTime ∧ ∃ i, x ∈ A' (.slot i)) := by
  have hst := T.wheel.started now
  rcases timerItemAdd_cases s.epoll x now with ⟨hret, -, hep⟩ | ⟨hret, hle, hnow, diff, hdiff, hep⟩
  · rw [hep, hst]
    exact ⟨A, ⟨⟨T.listed.represents, T.listed.lt_next⟩, T.nil, T.wheel, T.inPlace, T.draining⟩,
      fun y _ ↦ ⟨fun _ ↦ .rfl, rfl⟩, rfl, fun _ h ↦ absurd h hret⟩
  · rw [hst] at hle hdiff
    rw [hep, hst]
    cases hlink : s.epoll.links.link x with
    | some l =>
      rw [Links.tailAdd_of_linked (by rw [hlink]; rfl)]
      exact ⟨A, ⟨⟨T.listed.represents, T.listed.lt_next⟩, T.nil, T.wheel, T.inPlace, T.draining⟩,
        fun y _ ↦ ⟨fun _ ↦ .rfl, rfl⟩, rfl, fun h ↦ by cases h⟩
    | none =>
      have R := T.listed.represents.tailAdd hlink (.slot (s.epoll.timer.slotOf diff))
      refine ⟨_, ⟨⟨R, fun l y hy ↦ ?_⟩, ?_, T.wheel, fun i y hy ↦ ?_, T.draining⟩,
        fun y hy ↦ ⟨fun l ↦ ?_, rfl⟩, rfl,
        fun _ _ ↦ ⟨hnow, s.epoll.timer.slotOf diff, ?_⟩⟩
      · rcases eq_or_ne l (.slot (s.epoll.timer.slotOf diff)) with rfl | hl
        · rw [update_self, List.mem_append, List.mem_singleton] at hy
          exact hy.elim (T.listed.lt_next _ y) fun e ↦ e ▸ hx
        · rw [update_of_ne hl] at hy
          exact T.listed.lt_next l y hy
      · rw [update_of_ne (by simp)]
        exact T.nil
      · rcases eq_or_ne i (s.epoll.timer.slotOf diff) with rfl | hi
        · rw [update_self, List.mem_append, List.mem_singleton] at hy
          rcases hy with hy | rfl
          · exact T.inPlace _ y hy
          · exact T.wheel.inPlace (Nat.le_trans hle hnow) hdiff
        · rw [update_of_ne (by simpa using hi)] at hy
          exact T.inPlace i y hy
      · rcases eq_or_ne l (.slot (s.epoll.timer.slotOf diff)) with rfl | hl
        · simp [hy]
        · rw [update_of_ne hl]
      · rw [update_self]
        simp

theorem TimerOk.remove (T : TimerOk s A) {ep : CoEpoll}
    (h : s.epoll.timeoutRemoveFromLink x = some ep) :
    ∃ A', TimerOk { s with epoll := ep } A' ∧
      ∀ y ≠ x, LeavesItem s A { s with epoll := ep } A' y := by
  obtain ⟨links, h', L⟩ := timeoutRemoveFromLink_spec T.listed x
  obtain rfl : _ = ep := Option.some.inj (h'.symm.trans h)
  exact ⟨_, ⟨L, by simp [T.nil], T.wheel,
    fun i y hy ↦ T.inPlace i y (List.mem_of_mem_erase hy), T.draining⟩,
    fun y hy ↦ ⟨fun l ↦ List.mem_erase_of_ne hy, rfl⟩⟩

theorem TimerOk.activate (T : TimerOk s A) (hx : x < s.epoll.nextItem) {ep : CoEpoll}
    (h : s.epoll.activate x = some ep) :
    ∃ A', TimerOk { s with epoll := ep } A' ∧
      ∀ y ≠ x, LeavesItem s A { s with epoll := ep } A' y := by
  obtain ⟨links, h', L⟩ := activate_spec T.listed hx
  obtain rfl : _ = ep := Option.some.inj (h'.symm.trans h)
  refine ⟨_, ⟨L, by simp [T.nil], T.wheel, fun i y hy ↦ T.inPlace i y ?_, T.draining⟩,
    fun y hy ↦ ⟨fun l ↦ ?_, rfl⟩⟩
  · rw [activated_slot] at hy
    exact List.mem_of_mem_erase hy
  · cases l <;> simp [List.mem_erase_of_ne hy, hy]

/-! ### What an iteration does -/

/-- The items of the wheel after an iteration has taken the timeouts: those that stay are not due,
and those that go are marked. -/
theorem TimerOk.iterate (T : TimerOk s A) (hle : s.epoll.timer.start ≤ now)
    (hlt : now - s.epoll.timer.start < 2 ^ 31 - 1) (hnow : now < 2 ^ 63) {ep : CoEpoll}
    (h : s.epoll.clearTimeoutList.takeTimeouts now = some ep) :
    ∃ A', TimerOk { s with epoll := ep, draining := some now } A' ∧
      ep.nextItem = s.epoll.nextItem ∧ ep.timer.start = now ∧
      (∀ x, (ep.items x).expireTime = (s.epoll.items x).expireTime) ∧
      (∀ i, ∀ x ∈ A (.slot i), now < (s.epoll.items x).expireTime ∧ x ∈ A' (.slot i) ∨
        x ∈ A' .activeList ∧ (ep.items x).isTimeout = true) ∧
      ∀ x, (∀ l, x ∉ A l) → ∀ l, x ∉ A' l := by
  rw [T.listed.clearTimeoutList T.nil] at h
  obtain ⟨A', slots, taken, L', htakes, hnext, hnil, hact, htaken, hslot, hitems⟩ :=
    takeTimeouts_spec T.listed T.nil h
  obtain ⟨k, hk, hkle⟩ := T.wheel.idx
  obtain ⟨hslots, htimer⟩ := htakes.eq T.wheel hle hlt hk
  have hexp : ∀ x, (ep.items x).expireTime = (s.epoll.items x).expireTime := fun x ↦ by
    rw [hitems]
    simp only
    split <;> rfl
  have hstart : ep.timer.start = now := by rw [htimer]
  refine ⟨A', ⟨L', hnil, ?_, fun i x hx ↦ ?_, fun t ht ↦ ?_⟩, hnext, hstart, hexp,
    fun i x hx ↦ ?_, fun x hx l hl ↦ ?_⟩
  · refine ⟨?_, ?_, ?_, ?_, ?_⟩ <;> rw [show CoEpoll.timer _ = ep.timer from rfl, htimer]
    · exact T.wheel.size_pos
    · exact T.wheel.size_lt
    · exact Nat.lt_of_lt_of_le T.wheel.start_pos hle
    · exact hnow
    · refine ⟨_, rfl, ?_⟩
      simp only
      omega
  · obtain ⟨hx', hi⟩ := (hslot i x).1 hx
    rw [hslots] at hi
    change InPlace ep.timer (ep.items x).expireTime i
    rw [htimer, hexp]
    exact ((T.inPlace i x hx').turn hle hk hi).2
  · exact (Option.some.inj ht).symm.trans hstart.symm
  · by_cases hi : i ∈ slots
    · refine .inr ⟨?_, ?_⟩
      · rw [hact]
        exact List.mem_append_right _ ((htaken x).2 ⟨i, hi, hx⟩)
      · rw [hitems]
        simp only
        rw [if_pos ((htaken x).2 ⟨i, hi, hx⟩)]
    · exact .inl ⟨((T.inPlace i x hx).turn hle hk (hslots ▸ hi)).1, (hslot i x).2 ⟨hx, hi⟩⟩
  · cases l with
    | slot i => exact hx _ ((hslot i x).1 hl).1
    | timeoutList => rw [hnil] at hl; exact absurd hl List.not_mem_nil
    | activeList =>
      rw [hact, List.mem_append] at hl
      rcases hl with hl | hl
      · exact hx _ hl
      · obtain ⟨i, -, hi⟩ := (htaken x).1 hl
        exact hx _ hi

/-- **A turn of the drain**, as far as the item `x` goes: it is left where it is, or it was the
first active item. Then it is re-armed before its time, or processed; a marked item is not processed
before its time. -/
theorem TimerOk.drain (T : TimerOk s A) (h : s.step .drain = some s') :
    ∃ A' t, TimerOk s' A' ∧ s.draining = some t ∧ s'.epoll.nextItem = s.epoll.nextItem ∧
      s'.epoll.timer = s.epoll.timer ∧
      (∀ x, (s'.epoll.items x).expireTime = (s.epoll.items x).expireTime) ∧
      ((A .activeList = [] ∧ A' = A ∧ s'.draining = none ∧ s'.epoll = s.epoll ∧
          s'.processed = s.processed) ∨
        s'.draining = some t ∧ ∃ y xs, A .activeList = y :: xs ∧
          (∀ x ≠ y, LeavesItem s A s' A' x) ∧
          (t < (s.epoll.items y).expireTime ∧ (∃ i, y ∈ A' (.slot i)) ∧
              s'.processed = s.processed ∨
            ((s.epoll.items y).isTimeout = true → (s.epoll.items y).expireTime ≤ t) ∧
              (∀ l, y ∉ A' l) ∧ s'.processed = (y, t) :: s.processed)) := by
  rw [TimerLoop.step] at h
  split at h
  · cases h
  next t ht =>
    have hstart := T.draining t ht
    have hst := T.wheel.started t
    rcases drainTurn_spec T.listed t with ⟨hnil, hturn⟩ | ⟨y, xs, hA, hcase⟩
    · rw [hturn] at h
      obtain rfl := Option.some.inj h
      exact ⟨A, t, ⟨T.listed, T.nil, T.wheel, T.inPlace, fun u hu ↦ by cases hu⟩, ht, rfl, rfl,
        fun _ ↦ rfl, .inl ⟨hnil, rfl, rfl, rfl, rfl⟩⟩
    · rw [hst] at hcase
      rcases hcase with ⟨-, hearly, hle, ep', diff, hturn, hdiff, L', htimer, hnext, hitems⟩ |
        ⟨hearly, ep', hturn, L', htimer, hnext, hitems⟩
      · -- The item is re-armed.
        rw [hturn] at h
        obtain rfl := Option.some.inj h
        have hexp : ∀ x, (ep'.items x).expireTime = (s.epoll.items x).expireTime := fun x ↦ by
          rw [hitems]
          rcases eq_or_ne x y with rfl | hx
          · simp
          · simp [hx]
        refine ⟨_, t, ⟨L', by simp [T.nil], ?_, fun i x hx ↦ ?_, ?_⟩, ht, hnext, htimer, hexp,
          .inr ⟨ht, y, xs, hA, fun x hx ↦ ⟨fun l ↦ ?_, ?_⟩, .inl ⟨hearly,
            ⟨s.epoll.timer.slotOf diff, ?_⟩, rfl⟩⟩⟩
        · exact htimer ▸ T.wheel
        · change InPlace ep'.timer (ep'.items x).expireTime i
          rw [htimer, hexp]
          rcases eq_or_ne i (s.epoll.timer.slotOf diff) with rfl | hi
          · rw [update_self, List.mem_append, List.mem_singleton] at hx
            rcases hx with hx | rfl
            · exact T.inPlace _ x hx
            · exact T.wheel.inPlace (Nat.le_trans hle (Nat.le_of_lt hearly)) hdiff
          · rw [update_of_ne (by simpa using hi), update_of_ne (by simp)] at hx
            exact T.inPlace i x hx
        · exact fun u hu ↦ (T.draining u hu).trans (congrArg TimingWheel.start htimer).symm
        · rcases eq_or_ne l (.slot (s.epoll.timer.slotOf diff)) with rfl | hl
          · simp [hx]
          · rw [update_of_ne hl, mem_popped hA hx]
        · rw [hitems, update_of_ne hx]
        · rw [update_self]
          simp
      · -- The item is processed.
        rw [hturn] at h
        obtain rfl := Option.some.inj h
        have htimer : ep'.timer = s.epoll.timer := htimer.elim id id
        refine ⟨_, t, ⟨L', by simp [T.nil], ?_, fun i x hx ↦ ?_, ?_⟩, ht, hnext, htimer,
          fun x ↦ by rw [hitems], .inr ⟨ht, y, xs, hA, fun x hx ↦ ⟨mem_popped hA hx, ?_⟩,
            .inr ⟨fun hto ↦ ?_, T.listed.not_mem_popped hA, rfl⟩⟩⟩
        · exact htimer ▸ T.wheel
        · change InPlace ep'.timer (ep'.items x).expireTime i
          rw [htimer, hitems]
          exact T.inPlace i x (by simpa using hx)
        · exact fun u hu ↦ (T.draining u hu).trans (congrArg TimingWheel.start htimer).symm
        · rw [hitems]
        · by_contra hlt
          exact absurd (hearly ⟨hto, Nat.lt_of_not_le hlt⟩) (Nat.not_lt.2 (hstart ▸ Nat.le_refl _))

/-! ### The fate of an armed item -/

/-- The next reading follows the one the wheel stands at. -/
def ClockStep (s : TimerLoop) : TimerAction → Prop
  | .iterate now =>
    s.epoll.timer.start ≤ now ∧ now - s.epoll.timer.start < 2 ^ 31 - 1 ∧ now < 2 ^ 63
  | _ => True

/-- What has become of the item `x` with the time `e`, after iterations with the readings `rs` and
the calls `new` of `process_pfn`: it waits in the wheel, it was taken by the iteration in progress,
or it was called by the first iteration at or after its time. -/
inductive Fate (x : ItemId) (e : ℕ) (rs : List ℕ) (new : List (ItemId × ℕ)) (s : TimerLoop)
    (A : TimeoutLink → List ItemId) : Prop
  | waits (i : ℕ) (hx : x ∈ A (.slot i)) (hrs : ∀ r ∈ rs, r < e)
  | taken (rs₀ : List ℕ) (t : ℕ) (hrs : rs = rs₀ ++ [t]) (hlt : ∀ r ∈ rs₀, r < e)
      (hdr : s.draining = some t) (hx : x ∈ A .activeList)
      (hto : (s.epoll.items x).isTimeout = true)
  | called (rs₀ : List ℕ) (t : ℕ) (rs₁ : List ℕ) (hrs : rs = rs₀ ++ t :: rs₁)
      (hlt : ∀ r ∈ rs₀, r < e) (hle : e ≤ t) (hnew : (x, t) ∈ new) (hx : ∀ l, x ∉ A l)

variable {e : ℕ} {rs : List ℕ} {new : List (ItemId × ℕ)}

/-- A step that leaves the item where it is does not change its fate. -/
theorem Fate.of_leaves (F : Fate x e rs new s A) (hl : LeavesItem s A s' A' x)
    (hdr : s'.draining = s.draining) : Fate x e rs new s' A' := by
  cases F with
  | waits i hx hrs => exact .waits i ((hl.mem_iff _).2 hx) hrs
  | taken rs₀ t hrs hlt hdr' hx hto =>
    exact .taken rs₀ t hrs hlt (hdr.trans hdr') ((hl.mem_iff _).2 hx) (hl.item_eq ▸ hto)
  | called rs₀ t rs₁ hrs hlt hle hnew hx =>
    exact .called rs₀ t rs₁ hrs hlt hle hnew fun l ↦ by rw [hl.mem_iff]; exact hx l

/-- The item is known to the loop, with the time `e`, and its fate is told by the readings `rs` and
the calls `new` since the state `s₀`. -/
structure Told (x : ItemId) (e : ℕ) (s₀ : TimerLoop) (rs : List ℕ) (s : TimerLoop) : Prop where
  lt_next : x < s.epoll.nextItem
  expire_eq : (s.epoll.items x).expireTime = e
  fate : ∃ A new, TimerOk s A ∧ Fate x e rs new s A ∧ s.processed = new ++ s₀.processed ∧
    ∀ t, (x, t) ∈ new → e ≤ t

variable {s₀ : TimerLoop} {a : TimerAction}

/-- An iteration begins: an item that is due is taken. -/
theorem Told.iterate (T : Told x e s₀ rs s) (hc : ClockStep s (.iterate now))
    (h : s.step (.iterate now) = some s') : Told x e s₀ (rs ++ [now]) s' := by
  obtain ⟨A, new, O, F, hproc, hnew⟩ := T.fate
  obtain ⟨hdr, ep, hep, rfl⟩ := TimerLoop.iterate_eq_some h
  obtain ⟨A', O', hnext, -, hexp, hslot, hnone⟩ := O.iterate hc.1 hc.2.1 hc.2.2 hep
  refine ⟨Nat.lt_of_lt_of_eq T.lt_next hnext.symm, (hexp x).trans T.expire_eq, A', new, O', ?_,
    hproc, hnew⟩
  cases F with
  | waits i hx hrs =>
    rcases hslot i x hx with ⟨hlt, hx'⟩ | ⟨hx', hto⟩
    · refine .waits i hx' fun r hr ↦ ?_
      rcases List.mem_append.1 hr with hr | hr
      · exact hrs r hr
      · exact List.mem_singleton.1 hr ▸ T.expire_eq ▸ hlt
    · exact .taken rs now rfl hrs rfl hx' hto
  | taken rs₀ t hrs hlt hdr' hx hto =>
    rw [hdr] at hdr'
    cases hdr'
  | called rs₀ t rs₁ hrs hlt hle hmem hx =>
    exact .called rs₀ t (rs₁ ++ [now]) (by simp [hrs]) hlt hle hmem (hnone x hx)

/-- A turn of the drain: an item that was taken is called if it is due, and re-armed if it is
not. -/
theorem Told.drain (T : Told x e s₀ rs s) (h : s.step .drain = some s') :
    Told x e s₀ rs s' := by
  obtain ⟨A, new, O, F, hproc, hnew⟩ := T.fate
  obtain ⟨A', t, O', hdr, hnext, -, hexp, hcase⟩ := O.drain h
  refine ⟨Nat.lt_of_lt_of_eq T.lt_next hnext.symm, (hexp x).trans T.expire_eq, ?_⟩
  rcases hcase with ⟨hnil, rfl, -, hep, hproc'⟩ | ⟨hdr', y, xs, hA, hleaves, hcase⟩
  · -- The drain is over, and so the item was not waiting for it.
    refine ⟨A', new, O', ?_, hproc'.trans hproc, hnew⟩
    cases F with
    | waits i hx hrs => exact .waits i hx hrs
    | taken rs₀ u hrs hlt hdr₂ hx hto =>
      rw [hnil] at hx
      exact absurd hx List.not_mem_nil
    | called rs₀ u rs₁ hrs hlt hle hmem hx => exact .called rs₀ u rs₁ hrs hlt hle hmem hx
  rcases eq_or_ne x y with rfl | hxy
  · cases F with
    | waits i hx hrs =>
      exact absurd (O.listed.represents.eq_of_mem hx (hA ▸ List.mem_cons_self)) (by simp)
    | called rs₀ u rs₁ hrs hlt hle hmem hx =>
      exact absurd (hA ▸ List.mem_cons_self) (hx .activeList)
    | taken rs₀ u hrs hlt hdr₂ hx hto =>
      obtain rfl : t = u := Option.some.inj (hdr.symm.trans hdr₂)
      rw [T.expire_eq] at hcase
      rcases hcase with ⟨hearly, ⟨i, hi⟩, hproc'⟩ | ⟨hle, hgone, hproc'⟩
      · refine ⟨A', new, O', .waits i hi fun r hr ↦ ?_, hproc'.trans hproc, hnew⟩
        rw [hrs] at hr
        rcases List.mem_append.1 hr with hr | hr
        · exact hlt r hr
        · exact List.mem_singleton.1 hr ▸ hearly
      · refine ⟨A', (x, t) :: new, O', .called rs₀ t [] hrs hlt (hle hto) List.mem_cons_self hgone,
          by rw [hproc', hproc]; rfl, fun u hu ↦ ?_⟩
        rcases List.mem_cons.1 hu with hu | hu
        · obtain rfl : u = t := congrArg Prod.snd hu
          exact hle hto
        · exact hnew u hu
  · have F' := F.of_leaves (hleaves x hxy) (hdr'.trans hdr.symm)
    rcases hcase with ⟨-, -, hproc'⟩ | ⟨-, -, hproc'⟩
    · exact ⟨A', new, O', F', hproc'.trans hproc, hnew⟩
    · refine ⟨A', (y, t) :: new, O', ?_, by rw [hproc', hproc]; rfl, fun u hu ↦ ?_⟩
      · cases F' with
        | waits i hx hrs => exact .waits i hx hrs
        | taken rs₀ u hrs hlt hdr₂ hx hto => exact .taken rs₀ u hrs hlt hdr₂ hx hto
        | called rs₀ u rs₁ hrs hlt hle hmem hx =>
          exact .called rs₀ u rs₁ hrs hlt hle (List.mem_cons_of_mem _ hmem) hx
      · rcases List.mem_cons.1 hu with hu | hu
        · exact absurd (congrArg Prod.fst hu) hxy
        · exact hnew u hu

/-- **One step**, of an iteration or of the code it runs, on an item that code leaves alone. -/
theorem Told.step (T : Told x e s₀ rs s) (hu : Untouched x a) (hc : ClockStep s a)
    (h : s.step a = some s') : Told x e s₀ (rs ++ readings [a]) s' := by
  have hquiet : ∀ {s'}, (∀ A, TimerOk s A → ∃ A', TimerOk s' A' ∧ LeavesItem s A s' A' x) →
      s'.draining = s.draining → s'.processed = s.processed →
      s.epoll.nextItem ≤ s'.epoll.nextItem → Told x e s₀ (rs ++ []) s' := by
    intro s' hleaves hdr hproc' hnext
    obtain ⟨A, new, O, F, hproc, hnew⟩ := T.fate
    obtain ⟨A', O', hl⟩ := hleaves A O
    rw [List.append_nil]
    exact ⟨Nat.lt_of_lt_of_le T.lt_next hnext,
      (congrArg TimeoutItem.expireTime hl.item_eq).trans T.expire_eq,
      A', new, O', F.of_leaves hl hdr, hproc'.trans hproc, hnew⟩
  cases a with
  | alloc expire args =>
    obtain rfl := Option.some.inj h
    refine hquiet (fun A O ↦ ?_) rfl rfl (Nat.le_succ _)
    exact ⟨A, (O.alloc expire args).1, (O.alloc expire args).2 x T.lt_next⟩
  | arm y t =>
    obtain ⟨hy, h⟩ := Option.ite_none_right_eq_some.1 h
    obtain rfl := Option.some.inj h
    refine hquiet (fun A O ↦ ?_) rfl rfl (Nat.le_of_eq (timerItemAdd_fst s.epoll y t).1.symm)
    obtain ⟨A', O', hl, -⟩ := O.arm hy t
    exact ⟨A', O', hl x (Ne.symm hu)⟩
  | remove y =>
    obtain ⟨ep, hep, rfl⟩ := Option.map_eq_some_iff.1 h
    refine hquiet (fun A O ↦ ?_) rfl rfl ?_
    · obtain ⟨A', O', hl⟩ := O.remove hep
      exact ⟨A', O', hl x (Ne.symm hu)⟩
    · obtain ⟨links, -, rfl⟩ := Option.map_eq_some_iff.1 hep
      exact Nat.le_refl _
  | activate y =>
    obtain ⟨hy, h⟩ := Option.ite_none_right_eq_some.1 h
    obtain ⟨ep, hep, rfl⟩ := Option.map_eq_some_iff.1 h
    refine hquiet (fun A O ↦ ?_) rfl rfl ?_
    · obtain ⟨A', O', hl⟩ := O.activate hy hep
      exact ⟨A', O', hl x (Ne.symm hu)⟩
    · obtain ⟨A, -, O, -⟩ := T.fate
      obtain ⟨links, hl, -⟩ := activate_spec O.listed hy
      exact Nat.le_of_eq (Option.some.inj (hep.symm.trans hl) ▸ rfl)
  | iterate now => exact T.iterate hc h
  | drain =>
    have := T.drain h
    rwa [← List.append_nil rs] at this

/-! ### Runs -/

/-- The reading the wheel stands at after an action. -/
def startAfter (start : ℕ) : TimerAction → ℕ
  | .iterate now => now
  | _ => start

/-- **Every step keeps the invariant**, if the clock does not go back or jump. -/
theorem TimerOk.step (T : TimerOk s A) (hc : ClockStep s a) (h : s.step a = some s') :
    (∃ A', TimerOk s' A') ∧ s'.epoll.timer.start = startAfter s.epoll.timer.start a := by
  cases a with
  | alloc expire args =>
    obtain rfl := Option.some.inj h
    exact ⟨⟨A, (T.alloc expire args).1⟩, rfl⟩
  | arm x t =>
    obtain ⟨hx, h⟩ := Option.ite_none_right_eq_some.1 h
    obtain rfl := Option.some.inj h
    obtain ⟨A', O', -⟩ := T.arm hx t
    have htimer := (timerItemAdd_fst s.epoll x t).2.trans (T.wheel.started t)
    exact ⟨⟨A', O'⟩, congrArg TimingWheel.start htimer⟩
  | remove x =>
    obtain ⟨ep, hep, rfl⟩ := Option.map_eq_some_iff.1 h
    obtain ⟨A', O', -⟩ := T.remove hep
    refine ⟨⟨A', O'⟩, ?_⟩
    obtain ⟨links, -, rfl⟩ := Option.map_eq_some_iff.1 hep
    rfl
  | activate x =>
    obtain ⟨hx, h⟩ := Option.ite_none_right_eq_some.1 h
    obtain ⟨ep, hep, rfl⟩ := Option.map_eq_some_iff.1 h
    obtain ⟨A', O', -⟩ := T.activate hx hep
    refine ⟨⟨A', O'⟩, ?_⟩
    obtain ⟨links, hl, -⟩ := activate_spec T.listed hx
    exact Option.some.inj (hep.symm.trans hl) ▸ rfl
  | iterate now =>
    obtain ⟨-, ep, hep, rfl⟩ := TimerLoop.iterate_eq_some h
    obtain ⟨A', O', -, hstart, -⟩ := T.iterate hc.1 hc.2.1 hc.2.2 hep
    exact ⟨⟨A', O'⟩, hstart⟩
  | drain =>
    obtain ⟨A', t, O', -, -, htimer, -⟩ := T.drain h
    exact ⟨⟨A', O'⟩, congrArg TimingWheel.start htimer⟩

theorem readings_cons (a : TimerAction) (acts : List TimerAction) :
    readings (a :: acts) = readings [a] ++ readings acts := by
  rw [← List.singleton_append, readings, List.filterMap_append]
  rfl

/-- A run keeps the invariant, and the wheel stands at one of the readings. -/
theorem TimerOk.exec (T : TimerOk s A) {acts : List TimerAction}
    (hc : Machine.Always TimerLoop.step ClockStep s acts)
    (h : Machine.exec TimerLoop.step s acts = some s') :
    (∃ A', TimerOk s' A') ∧
      s'.epoll.timer.start ∈ s.epoll.timer.start :: readings acts := by
  induction acts generalizing s A with
  | nil => exact ⟨⟨A, Option.some.inj h ▸ T⟩, Option.some.inj h ▸ List.mem_cons_self⟩
  | cons a acts ih =>
    rw [Machine.exec_cons, Option.bind_eq_some_iff] at h
    obtain ⟨s₁, h₁, h⟩ := h
    obtain ⟨⟨A', O'⟩, hstart⟩ := T.step hc.1 h₁
    obtain ⟨hok, hmem⟩ := ih O' (hc.2 s₁ h₁) h
    refine ⟨hok, ?_⟩
    rw [hstart] at hmem
    cases a with
    | iterate now => exact List.mem_cons_of_mem _ hmem
    | alloc | arm | remove | activate | drain => exact hmem

/-- A run that leaves an armed item alone tells its fate. -/
theorem Told.exec (T : Told x e s₀ rs s) {acts : List TimerAction}
    (hu : ∀ a ∈ acts, Untouched x a) (hc : Machine.Always TimerLoop.step ClockStep s acts)
    (h : Machine.exec TimerLoop.step s acts = some s') :
    Told x e s₀ (rs ++ readings acts) s' := by
  induction acts generalizing s rs with
  | nil =>
    obtain rfl := Option.some.inj h
    rwa [readings, List.filterMap_nil, List.append_nil]
  | cons a acts ih =>
    rw [Machine.exec_cons, Option.bind_eq_some_iff] at h
    obtain ⟨s₁, h₁, h⟩ := h
    have T₁ := T.step (hu a List.mem_cons_self) hc.1 h₁
    rw [readings_cons, ← List.append_assoc]
    exact ih T₁ (fun b hb ↦ hu b (List.mem_cons_of_mem a hb)) (hc.2 s₁ h₁) h

end CoRoutine
