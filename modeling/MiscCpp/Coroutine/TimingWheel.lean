import Mathlib.Algebra.Group.Int.Defs
import Mathlib.Algebra.Group.Nat.Defs
import Mathlib.Data.Int.Notation
import Mathlib.Data.List.Perm.Subperm
import MiscCpp.Coroutine.IntrusiveList

/-!
# The timing wheel

`TimerItemAdd` and `TimeoutLinkAllTake`, with the part of `CoEventloop` that moves what the wheel
gives up to `active_list`. The wheel is `slot_size` lists; `start_idx` is the slot of the time
`start`, and a timeout item waits in the slot of its `expire_time`, or in the last slot if that time
is further ahead.

Readings of the clock are `unsigned long long`, so the arithmetic of `TimerItemAdd` is modulo
`2 ^ 64`; the turns of `TimeoutLinkAllTake` are counted in an `int`, and the index of a slot there
is computed by a signed remainder. A slot index outside the array is undefined.

What the operations do to the lists of the timeout items is said with `Links.Represents`, for one
operation at a time (`timerItemAdd_cases`, `timeoutLinkAllTake_spec`, `takeTimeouts_spec`).
-/

open Function

namespace CoRoutine

/-- Timeout items, in the order of their allocation. -/
abbrev ItemId := ℕ

/-- The lists of timeout items: the slots of the wheel, and two lists of the event loop. -/
inductive TimeoutLink where
  | slot (i : ℕ)
  | timeoutList
  | activeList
  deriving DecidableEq, Repr

/-- `timeout_item_t`, without its list pointers. `args` is the coroutine that waits. -/
structure TimeoutItem where
  expireTime : ℕ
  args : ℕ
  isTimeout : Bool

/-- `timing_wheel_t`, without its lists. -/
structure TimingWheel where
  slotSize : ℕ
  start : ℕ
  startIdx : ℤ
  deriving DecidableEq

/-- `co_epoll_t`, without the kernel's part. `nextItem` counts the items allocated so far. -/
structure CoEpoll where
  links : Links TimeoutLink ItemId
  timer : TimingWheel
  items : ItemId → TimeoutItem
  nextItem : ℕ

/-- `EpollAlloc` with `TimerAlloc(size)`, at the reading `now` of the clock. -/
def epollAlloc (size now : ℕ) : CoEpoll where
  links := .empty
  timer := { slotSize := size, start := now, startIdx := 0 }
  items _ := { expireTime := 0, args := 0, isTimeout := false }
  nextItem := 0

/-! ### The operations -/

namespace TimingWheel

/-- A wheel that has not started starts now. -/
def started (w : TimingWheel) (now : ℕ) : TimingWheel :=
  if w.start = 0 then { w with start := now, startIdx := 0 } else w

/-- The slot `TimerItemAdd` picks, `diff` milliseconds ahead. -/
def slotOf (w : TimingWheel) (diff : ℕ) : ℕ :=
  ((w.startIdx + diff) % 2 ^ 64).toNat % w.slotSize

/-- The slot of turn `i` in `TimeoutLinkAllTake`. The remainder has the sign of the dividend. -/
def slotIdx (w : TimingWheel) (i : ℕ) : Option ℕ :=
  let idx := (w.startIdx + i).tmod w.slotSize
  if 0 ≤ idx then some idx.toNat else none

/-- The number of turns, an `int`. -/
def turns (w : TimingWheel) (now : ℕ) : ℤ :=
  let cnt := ((now : ℤ) - w.start + 1).bmod (2 ^ 32)
  if cnt > w.slotSize then w.slotSize else cnt

end TimingWheel

namespace CoEpoll

variable (ep : CoEpoll)

/-- The items from `x` on get `is_timeout`. -/
def markTimeout (next : ItemId → Option ItemId) :
    ℕ → Option ItemId → (ItemId → TimeoutItem) → ItemId → TimeoutItem
  | 0, _, items => items
  | _ + 1, none, items => items
  | fuel + 1, some x, items =>
    markTimeout next fuel (next x) (update items x { items x with isTimeout := true })

/-- `TimerItemAdd`, with its return value: `0`, or the line of the check that failed. -/
def timerItemAdd (x : ItemId) (now : ℕ) : CoEpoll × ℕ :=
  let w := ep.timer.started now
  let ep := { ep with timer := w }
  let expire := (ep.items x).expireTime
  if now < w.start then (ep, 331)
  else if expire < now then (ep, 332)
  else
    let diff := expire - w.start
    let diff := if diff ≥ w.slotSize then w.slotSize - 1 else diff
    ({ ep with links := ep.links.tailAdd (.slot (w.slotOf diff)) x }, 0)

/-- The loop of `TimeoutLinkAllTake` over the slots it takes. -/
def takeSlots (fuel : ℕ) (links : Links TimeoutLink ItemId) (slots : List ℕ) :
    Links TimeoutLink ItemId :=
  slots.foldl (fun h i ↦ h.linkAppend fuel .timeoutList (.slot i)) links

/-- `TimeoutLinkAllTake` into `timeout_list`. -/
def timeoutLinkAllTake (now : ℕ) : Option CoEpoll :=
  let w := ep.timer.started now
  if now < w.start then some { ep with timer := w }
  else
    let cnt := w.turns now
    ((List.range cnt.toNat).mapM w.slotIdx).map fun slots ↦
      { ep with
        links := takeSlots ep.nextItem ep.links slots
        timer := { w with start := now, startIdx := w.startIdx + (cnt - 1) } }

/-- `memset(epoll->timeout_list, 0, …)`. -/
def clearTimeoutList : CoEpoll :=
  { ep with links :=
    { ep.links with
      head := update ep.links.head .timeoutList none
      tail := update ep.links.tail .timeoutList none } }

/-- What an iteration of `CoEventloop` does with the timeouts: it takes them, marks them and puts
them behind the active items. -/
def takeTimeouts (now : ℕ) : Option CoEpoll :=
  (ep.timeoutLinkAllTake now).map fun ep ↦
    { ep with
      items := markTimeout ep.links.next ep.nextItem (ep.links.head .timeoutList) ep.items
      links := ep.links.linkAppend ep.nextItem .activeList .timeoutList }

/-- `calloc` of an item, with its fields. -/
def allocItem (expire args : ℕ) : CoEpoll :=
  { ep with
    items := update ep.items ep.nextItem
      { expireTime := expire, args := args, isTimeout := false }
    nextItem := ep.nextItem + 1 }

/-- `TimeoutRemoveFromLink`. -/
def timeoutRemoveFromLink (x : ItemId) : Option CoEpoll :=
  (ep.links.removeFromLink x).map fun links ↦ { ep with links := links }

/-- An item is moved to the end of `active_list`: by `OnPollPrepare`, `CoCondSignal` and
`CoCondBroadcast`. -/
def activate (x : ItemId) : Option CoEpoll :=
  (ep.timeoutRemoveFromLink x).map fun ep ↦
    { ep with links := ep.links.tailAdd .activeList x }

/-- What a turn of the inner loop of `CoEventloop` comes to: `active_list` is empty, the item it
popped waits again, or the item is to be processed. -/
inductive Turn where
  | done
  | rearmed (ep : CoEpoll)
  | process (x : ItemId) (ep : CoEpoll)

/-- A turn of the inner loop: the first active item is popped, and re-armed if the wheel gave it up
before its time. -/
def drainTurn (now : ℕ) : Turn :=
  match ep.links.head .activeList with
  | none => .done
  | some x =>
    let ep := { ep with links := ep.links.headPop .activeList }
    if (ep.items x).isTimeout ∧ now < (ep.items x).expireTime then
      match ep.timerItemAdd x now with
      | (ep, 0) =>
        .rearmed { ep with items := update ep.items x { ep.items x with isTimeout := false } }
      | (ep, _ + 1) => .process x ep
    else .process x ep

end CoEpoll

/-! ### What the operations do to the lists -/

open CoEpoll

/-- The pointers lay out the lists `A` of items that have been allocated. -/
structure Listed (ep : CoEpoll) (A : TimeoutLink → List ItemId) : Prop where
  represents : ep.links.Represents A
  lt_next : ∀ l, ∀ x ∈ A l, x < ep.nextItem

variable {ep ep' : CoEpoll} {A : TimeoutLink → List ItemId} {x y : ItemId} {now : ℕ}

/-- There are turns enough in every loop over a list. -/
theorem Listed.length_le (L : Listed ep A) (l : TimeoutLink) : (A l).length ≤ ep.nextItem := by
  have hsub : A l ⊆ List.range ep.nextItem := fun y hy ↦ List.mem_range.2 (L.lt_next l y hy)
  simpa using ((L.represents.nodup l).subperm hsub).length_le

theorem listed_epollAlloc (size now : ℕ) : Listed (epollAlloc size now) fun _ ↦ [] :=
  ⟨Links.represents_empty, fun _ _ h ↦ absurd h List.not_mem_nil⟩

variable {w : TimingWheel}

/-- `TimeoutLinkAllTake` takes the slots up to `now`, or all of them. -/
theorem turns_eq (hle : w.start ≤ now) (hlt : now - w.start < 2 ^ 31 - 1) :
    w.turns now = (min (now - w.start + 1) w.slotSize : ℕ) := by
  have hbmod : ((now : ℤ) - w.start + 1).bmod (2 ^ 32) = (now : ℤ) - w.start + 1 :=
    Int.bmod_eq_of_le (by omega) (by omega)
  rw [TimingWheel.turns, hbmod]
  split <;> omega

theorem slotIdx_eq {k : ℕ} (hk : w.startIdx = k) (i : ℕ) :
    w.slotIdx i = some ((k + i) % w.slotSize) := by
  have htmod : (w.startIdx + i).tmod w.slotSize = ((k + i) % w.slotSize : ℕ) := by
    rw [hk, Int.ofNat_tmod]
    rfl
  rw [TimingWheel.slotIdx, htmod]
  exact (if_pos (Int.natCast_nonneg _)).trans (by rw [Int.toNat_natCast])

/-- `TimerItemAdd` fails and leaves the lists, or puts the item in a slot. -/
theorem timerItemAdd_cases (ep : CoEpoll) (x : ItemId) (now : ℕ) :
    (ep.timerItemAdd x now).2 ≠ 0 ∧
        (now < (ep.timer.started now).start ∨ (ep.items x).expireTime < now) ∧
        (ep.timerItemAdd x now).1 = { ep with timer := ep.timer.started now } ∨
      (ep.timerItemAdd x now).2 = 0 ∧ (ep.timer.started now).start ≤ now ∧
        now ≤ (ep.items x).expireTime ∧ ∃ diff,
          diff = (if (ep.items x).expireTime - (ep.timer.started now).start ≥ ep.timer.slotSize
            then ep.timer.slotSize - 1
            else (ep.items x).expireTime - (ep.timer.started now).start) ∧
          (ep.timerItemAdd x now).1 =
            { ep with
              timer := ep.timer.started now
              links := ep.links.tailAdd (.slot ((ep.timer.started now).slotOf diff)) x } := by
  have hsize : (ep.timer.started now).slotSize = ep.timer.slotSize := by
    rw [TimingWheel.started]
    split <;> rfl
  rw [timerItemAdd]
  split
  next h => exact .inl ⟨by simp, .inl h, rfl⟩
  next h =>
    split
    next h' => exact .inl ⟨by simp, .inr h', rfl⟩
    next h' =>
      exact .inr ⟨rfl, Nat.le_of_not_lt h, Nat.le_of_not_lt h', _, by rw [hsize], rfl⟩

theorem timerItemAdd_fst (ep : CoEpoll) (x : ItemId) (now : ℕ) :
    (ep.timerItemAdd x now).1.nextItem = ep.nextItem ∧
      (ep.timerItemAdd x now).1.timer = ep.timer.started now := by
  rcases timerItemAdd_cases ep x now with ⟨-, -, hep⟩ | ⟨-, -, -, diff, -, hep⟩
  · rw [hep]
    exact ⟨rfl, rfl⟩
  · rw [hep]
    exact ⟨rfl, rfl⟩

/-- The slots taken, one after the other, go to `timeout_list`. -/
theorem takeSlots_spec {h : Links TimeoutLink ItemId} (R : h.Represents A) {fuel : ℕ}
    (hfuel : ∀ i, (A (.slot i)).length ≤ fuel) (slots : List ℕ) :
    ∃ A', (takeSlots fuel h slots).Represents A' ∧ A' .activeList = A .activeList ∧
      (∀ i x, x ∈ A' (.slot i) ↔ x ∈ A (.slot i) ∧ i ∉ slots) ∧
      ∀ x, x ∈ A' .timeoutList ↔ x ∈ A .timeoutList ∨ ∃ i ∈ slots, x ∈ A (.slot i) := by
  induction slots generalizing h A with
  | nil => exact ⟨A, R, rfl, by simp, by simp⟩
  | cons j slots ih =>
    have R' := R.linkAppend (show .timeoutList ≠ TimeoutLink.slot j by simp) (hfuel j)
    obtain ⟨A', hR, hact, hslot, hlist⟩ := ih R' fun i ↦ by
      by_cases hi : i = j
      · simp [hi]
      · simpa [hi] using hfuel i
    refine ⟨A', hR, by simp [hact], fun i x ↦ ?_, fun x ↦ ?_⟩
    · rw [hslot]
      by_cases hi : i = j <;> simp [hi]
    · rw [hlist]
      -- The slot `j` has just been emptied.
      have hj : ∀ i, (i ∈ slots ∧ x ∈ update (update A .timeoutList (A .timeoutList ++ A (.slot j)))
          (.slot j) [] (.slot i)) ↔ i ∈ slots ∧ i ≠ j ∧ x ∈ A (.slot i) := fun i ↦ by
        by_cases hi : i = j <;> simp [hi]
      simp only [hj]
      simp only [ne_eq, reduceCtorEq, not_false_eq_true, update_of_ne, update_self,
        List.mem_append, List.mem_cons, exists_eq_or_imp]
      constructor
      · rintro ((h | h) | ⟨i, hi, -, h⟩)
        · exact .inl h
        · exact .inr (.inl h)
        · exact .inr (.inr ⟨i, hi, h⟩)
      · rintro (h | h | ⟨i, hi, h⟩)
        · exact .inl (.inl h)
        · exact .inl (.inr h)
        · by_cases hij : i = j
          · exact .inl (.inr (hij ▸ h))
          · exact .inr ⟨i, hi, hij, h⟩

/-- Given a turn for each item, the loop over `timeout_list` marks the whole list. -/
theorem markTimeout_eq {prev next : ItemId → Option ItemId} {p : Option ItemId}
    {xs : List ItemId} (hxs : DoublyLinked.Linked prev next p xs none) (hnodup : xs.Nodup)
    {fuel : ℕ} (hfuel : xs.length ≤ fuel) (items : ItemId → TimeoutItem) :
    markTimeout next fuel xs.head? items = fun y ↦
      if y ∈ xs then { items y with isTimeout := true } else items y := by
  induction xs generalizing p fuel items with
  | nil => cases fuel <;> simp [markTimeout]
  | cons x xs ih =>
    obtain ⟨fuel, rfl⟩ : ∃ k, fuel = k + 1 := ⟨fuel - 1, by simp at hfuel; omega⟩
    obtain ⟨-, hnext, hxs⟩ := hxs
    rw [Option.or_none] at hnext
    obtain ⟨hx, hnodup⟩ := List.nodup_cons.1 hnodup
    rw [List.head?_cons, markTimeout, hnext, ih hxs hnodup (by simpa using hfuel)]
    funext y
    rcases eq_or_ne y x with rfl | hy
    · simp [hx]
    · simp [hy]

/-- How `TimeoutLinkAllTake` moves the wheel on, and which slots it takes. -/
inductive Takes (w : TimingWheel) (now : ℕ) : List ℕ → TimingWheel → Prop
  | early (h : now < (w.started now).start) : Takes w now [] (w.started now)
  | turn {slots : List ℕ} (h : (w.started now).start ≤ now)
      (hslots : (List.range ((w.started now).turns now).toNat).mapM (w.started now).slotIdx =
        some slots) :
      Takes w now slots
        { w.started now with
          start := now
          startIdx := (w.started now).startIdx + ((w.started now).turns now - 1) }

/-- What `TimeoutLinkAllTake` does to the lists. -/
theorem timeoutLinkAllTake_spec (L : Listed ep A) (h : ep.timeoutLinkAllTake now = some ep') :
    ∃ A' slots, Listed ep' A' ∧ Takes ep.timer now slots ep'.timer ∧
      ep'.items = ep.items ∧ ep'.nextItem = ep.nextItem ∧
      A' .activeList = A .activeList ∧
      (∀ i x, x ∈ A' (.slot i) ↔ x ∈ A (.slot i) ∧ i ∉ slots) ∧
      ∀ x, x ∈ A' .timeoutList ↔ x ∈ A .timeoutList ∨ ∃ i ∈ slots, x ∈ A (.slot i) := by
  rw [timeoutLinkAllTake] at h
  split at h
  next hlt =>
    obtain rfl := Option.some.inj h
    exact ⟨A, [], ⟨L.represents, L.lt_next⟩, .early hlt, rfl, rfl, rfl, by simp, by simp⟩
  next hlt =>
    obtain ⟨slots, hslots, rfl⟩ := Option.map_eq_some_iff.1 h
    obtain ⟨A', R', hact, hslot, hlist⟩ :=
      takeSlots_spec L.represents (fun i ↦ L.length_le (.slot i)) slots
    refine ⟨A', slots, ⟨R', fun l y hy ↦ ?_⟩, .turn (Nat.le_of_not_lt hlt) hslots, rfl, rfl, hact,
      hslot, hlist⟩
    cases l with
    | slot i => exact L.lt_next (.slot i) y ((hslot i y).1 hy).1
    | timeoutList =>
      rcases (hlist y).1 hy with hy | ⟨i, -, hy⟩
      · exact L.lt_next _ y hy
      · exact L.lt_next _ y hy
    | activeList => exact L.lt_next .activeList y (hact ▸ hy)

/-- **What an iteration does with the timeouts**: the items `taken` from the slots of the wheel are
marked and go behind the active items. -/
theorem takeTimeouts_spec (L : Listed ep A) (hnil : A .timeoutList = [])
    (h : ep.takeTimeouts now = some ep') :
    ∃ A' slots taken, Listed ep' A' ∧ Takes ep.timer now slots ep'.timer ∧
      ep'.nextItem = ep.nextItem ∧ A' .timeoutList = [] ∧
      A' .activeList = A .activeList ++ taken ∧
      (∀ x, x ∈ taken ↔ ∃ i ∈ slots, x ∈ A (.slot i)) ∧
      (∀ i x, x ∈ A' (.slot i) ↔ x ∈ A (.slot i) ∧ i ∉ slots) ∧
      ep'.items = fun y ↦
        if y ∈ taken then { ep.items y with isTimeout := true } else ep.items y := by
  rw [takeTimeouts, Option.map_eq_some_iff] at h
  obtain ⟨ep₁, h₁, rfl⟩ := h
  obtain ⟨A₁, slots, L₁, htakes, hitems, hnext, hact, hslot, hlist⟩ := timeoutLinkAllTake_spec L h₁
  have R₁ := L₁.represents
  have hlen := L₁.length_le .timeoutList
  refine ⟨_, slots, A₁ .timeoutList,
    ⟨R₁.linkAppend (show .activeList ≠ TimeoutLink.timeoutList by simp) hlen, fun l y hy ↦ ?_⟩,
    htakes, hnext, by simp, by simp [hact], fun x ↦ ?_, fun i x ↦ by simp [hslot], ?_⟩
  · cases l with
    | slot i => exact L₁.lt_next (.slot i) y (by simpa using hy)
    | timeoutList => simp at hy
    | activeList =>
      rcases List.mem_append.1 (by simpa using hy) with hy | hy
      · exact L₁.lt_next _ y hy
      · exact L₁.lt_next _ y hy
  · rw [hlist, hnil]
    simp
  · simp only [R₁.head_eq, hitems]
    exact markTimeout_eq (R₁.linked .timeoutList) (R₁.nodup .timeoutList) hlen ep.items

/-- `TimeoutRemoveFromLink` takes the item out of its list. -/
theorem timeoutRemoveFromLink_spec (L : Listed ep A) (x : ItemId) :
    ∃ links, ep.timeoutRemoveFromLink x = some { ep with links := links } ∧
      Listed { ep with links := links } fun l ↦ (A l).erase x := by
  obtain ⟨h', hh', R'⟩ := L.represents.removeFromLink x
  exact ⟨h', by rw [timeoutRemoveFromLink, hh']; rfl, R',
    fun l y hy ↦ L.lt_next l y (List.mem_of_mem_erase hy)⟩

theorem timeoutRemoveFromLink_link {links : Links TimeoutLink ItemId}
    (h : ep.timeoutRemoveFromLink x = some { ep with links := links }) :
    links.link = update ep.links.link x none := by
  obtain ⟨h', hh', heq⟩ := Option.map_eq_some_iff.1 h
  obtain rfl : h' = links := congrArg CoEpoll.links heq
  exact Links.removeFromLink_link hh'

theorem activate_link {links : Links TimeoutLink ItemId}
    (h : ep.activate x = some { ep with links := links }) :
    links.link = update ep.links.link x (some .activeList) := by
  obtain ⟨ep₁, h₁, heq⟩ := Option.map_eq_some_iff.1 h
  obtain ⟨h', hh', rfl⟩ := Option.map_eq_some_iff.1 h₁
  obtain rfl : h'.tailAdd .activeList x = links := congrArg CoEpoll.links heq
  have hlink := Links.removeFromLink_link hh'
  rw [Links.tailAdd_link (by simp [hlink]), hlink, update_idem]

/-- The lists after an item has moved to the end of `active_list`. -/
def activated (A : TimeoutLink → List ItemId) (x : ItemId) : TimeoutLink → List ItemId :=
  update (fun l ↦ (A l).erase x) .activeList ((A .activeList).erase x ++ [x])

@[simp] theorem activated_activeList (A : TimeoutLink → List ItemId) (x : ItemId) :
    activated A x .activeList = (A .activeList).erase x ++ [x] :=
  update_self ..

@[simp] theorem activated_slot (A : TimeoutLink → List ItemId) (x : ItemId) (i : ℕ) :
    activated A x (.slot i) = (A (.slot i)).erase x :=
  update_of_ne (by simp) ..

@[simp] theorem activated_timeoutList (A : TimeoutLink → List ItemId) (x : ItemId) :
    activated A x .timeoutList = (A .timeoutList).erase x :=
  update_of_ne (by simp) ..

theorem mem_activated {l : TimeoutLink} (h : y ∈ activated A x l) :
    y = x ∧ l = .activeList ∨ y ∈ A l := by
  cases l with
  | slot i => exact .inr (List.mem_of_mem_erase (activated_slot A x i ▸ h))
  | timeoutList => exact .inr (List.mem_of_mem_erase (activated_timeoutList A x ▸ h))
  | activeList =>
    rw [activated_activeList, List.mem_append, List.mem_singleton] at h
    exact h.symm.imp (fun h ↦ ⟨h, rfl⟩) List.mem_of_mem_erase

theorem activate_spec (L : Listed ep A) (hx : x < ep.nextItem) :
    ∃ links, ep.activate x = some { ep with links := links } ∧
      Listed { ep with links := links } (activated A x) := by
  obtain ⟨h', hh', L'⟩ := timeoutRemoveFromLink_spec L x
  have hlink : h'.link x = none := L'.represents.link_eq_none.2 fun l ↦
    (L.represents.nodup l).not_mem_erase
  refine ⟨_, by rw [activate, hh']; rfl, L'.represents.tailAdd hlink _, fun l y hy ↦ ?_⟩
  rcases mem_activated hy with ⟨rfl, -⟩ | hy
  · exact hx
  · exact L.lt_next l y hy

/-- Between two iterations `timeout_list` is empty anyway. -/
theorem Listed.clearTimeoutList {ep : CoEpoll} (L : Listed ep A) (hnil : A .timeoutList = []) :
    ep.clearTimeoutList = ep := by
  have hhead : update ep.links.head .timeoutList none = ep.links.head := by
    rw [update_eq_self_iff, L.represents.head_eq, hnil, List.head?_nil]
  have htail : update ep.links.tail .timeoutList none = ep.links.tail := by
    rw [update_eq_self_iff, L.represents.tail_eq, hnil, List.getLast?_nil]
  rw [CoEpoll.clearTimeoutList, hhead, htail]

/-- The lists after the first active item has been popped. -/
theorem mem_popped {xs : List ItemId} (hA : A .activeList = x :: xs) (hy : y ≠ x)
    (l : TimeoutLink) : y ∈ update A .activeList xs l ↔ y ∈ A l := by
  rcases eq_or_ne l .activeList with rfl | hl
  · simp [hA, hy]
  · simp [hl]

theorem Listed.not_mem_popped {ep : CoEpoll} {xs : List ItemId} (L : Listed ep A)
    (hA : A .activeList = x :: xs) (l : TimeoutLink) : x ∉ update A .activeList xs l := by
  rcases eq_or_ne l .activeList with rfl | hl
  · rw [update_self]
    exact (List.nodup_cons.1 (hA ▸ L.represents.nodup .activeList)).1
  · rw [update_of_ne hl]
    exact fun hm ↦ hl (L.represents.eq_of_mem hm (hA ▸ List.mem_cons_self))

/-- **A turn of the inner loop**: the first active item is popped. It is re-armed where the wheel
gave it up before its time and `TimerItemAdd` accepts it, and processed otherwise. -/
theorem drainTurn_spec (L : Listed ep A) (now : ℕ) :
    A .activeList = [] ∧ ep.drainTurn now = .done ∨
    ∃ x xs, A .activeList = x :: xs ∧
      ((ep.items x).isTimeout = true ∧ now < (ep.items x).expireTime ∧
          (ep.timer.started now).start ≤ now ∧
          (∃ ep' diff, ep.drainTurn now = .rearmed ep' ∧
            diff = (if (ep.items x).expireTime - (ep.timer.started now).start ≥ ep.timer.slotSize
              then ep.timer.slotSize - 1
              else (ep.items x).expireTime - (ep.timer.started now).start) ∧
            Listed ep' (update (update A .activeList xs)
              (.slot ((ep.timer.started now).slotOf diff))
              (A (.slot ((ep.timer.started now).slotOf diff)) ++ [x])) ∧
            ep'.timer = ep.timer.started now ∧ ep'.nextItem = ep.nextItem ∧
            ep'.items = update ep.items x { ep.items x with isTimeout := false }) ∨
        (((ep.items x).isTimeout = true ∧ now < (ep.items x).expireTime) →
            now < (ep.timer.started now).start) ∧
          ∃ ep', ep.drainTurn now = .process x ep' ∧ Listed ep' (update A .activeList xs) ∧
            (ep'.timer = ep.timer ∨ ep'.timer = ep.timer.started now) ∧
            ep'.nextItem = ep.nextItem ∧ ep'.items = ep.items) := by
  cases hA : A .activeList with
  | nil =>
    refine .inl ⟨rfl, ?_⟩
    rw [drainTurn, L.represents.head_eq_none.2 hA]
  | cons x xs =>
    refine .inr ⟨x, xs, rfl, ?_⟩
    have hhead : ep.links.head .activeList = some x := by
      rw [L.represents.head_eq, hA, List.head?_cons]
    have hx := (List.nodup_cons.1 (hA ▸ L.represents.nodup .activeList)).1
    have hmem : x ∈ A .activeList := hA ▸ List.mem_cons_self
    have hlt := L.lt_next _ x hmem
    -- The popped item is in no list.
    have R' := L.represents.headPop .activeList
    rw [hA, List.tail_cons] at R'
    have L' : Listed { ep with links := ep.links.headPop .activeList }
        (update A .activeList xs) := ⟨R', fun l y hy ↦ by
      rcases eq_or_ne l .activeList with rfl | hl
      · exact L.lt_next .activeList y (hA ▸ List.mem_cons_of_mem x (by simpa using hy))
      · exact L.lt_next l y (by simpa [hl] using hy)⟩
    have hlink : (ep.links.headPop .activeList).link x = none := R'.link_eq_none.2 fun l ↦ by
      rcases eq_or_ne l .activeList with rfl | hl
      · simpa using hx
      · rw [update_of_ne hl]
        exact fun hm ↦ hl (L.represents.eq_of_mem hm hmem)
    simp only [drainTurn, hhead]
    split
    next hearly =>
      rcases timerItemAdd_cases { ep with links := ep.links.headPop .activeList } x now with
        ⟨hret, hwhy, hep⟩ | ⟨hret, hle, hnow, diff, hdiff, hep⟩
      · refine .inr ⟨fun _ ↦ hwhy.resolve_right (Nat.not_lt.2 (Nat.le_of_lt hearly.2)), ?_⟩
        split
        next ep₁ heq =>
          rw [heq] at hret
          exact absurd rfl hret
        next ep₁ n heq =>
          rw [heq] at hep
          obtain rfl : ep₁ = _ := hep
          exact ⟨_, rfl, ⟨L'.represents, L'.lt_next⟩, .inr rfl, rfl, rfl⟩
      · refine .inl ⟨hearly.1, hearly.2, hle, ?_⟩
        split
        next ep₁ heq =>
          rw [heq] at hep
          obtain rfl : ep₁ = _ := hep
          refine ⟨_, diff, rfl, hdiff, ⟨?_, fun l y hy ↦ ?_⟩, rfl, rfl, rfl⟩
          · have := R'.tailAdd hlink (.slot ((ep.timer.started now).slotOf diff))
            rwa [update_of_ne (by simp)] at this
          · rcases eq_or_ne l (.slot ((ep.timer.started now).slotOf diff)) with rfl | hl
            · rw [update_self, List.mem_append, List.mem_singleton] at hy
              exact hy.elim (L.lt_next _ y) fun e ↦ e ▸ hlt
            · rw [update_of_ne hl] at hy
              exact L'.lt_next l y hy
        next ep₁ n heq =>
          rw [heq] at hret
          cases hret
    next hearly => exact .inr ⟨fun h ↦ absurd h hearly, _, rfl, L', .inl rfl, rfl, rfl⟩

end CoRoutine
