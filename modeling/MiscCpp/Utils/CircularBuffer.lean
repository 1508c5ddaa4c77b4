import MiscCpp.Library.Machine
import MiscCpp.Library.Ring

/-!
# The circular buffer

`CircularBuffer` against a queue that holds at most `capacity` items and drops its oldest item when
an item is pushed while it is full.

The buffer starts with `head_ = 1` and `tail_ = 0`, and `head_` is the position of the first item.
From capacity 2 on the items are in the ring of slots that starts at `head_` (`Represents`). With
capacity 1, the default, `head_` is outside the array: `front` and `pop_front` access `array_[1]`.
So the buffer is such a queue exactly if its capacity is at least 2 (`refinesQueue_iff`).
-/

open Ring

namespace Utils

/-- The arithmetic of `size_t`. -/
def sizeT (n : ℕ) : ℕ := n % 2 ^ 64

/-- A slot is `none` where there is no item constructed. -/
structure CircularBuffer (α : Type*) where
  capacity : ℕ
  array : List (Option α)
  head : ℕ
  tail : ℕ
  contentsSize : ℕ

namespace CircularBuffer

variable {α : Type*} (b : CircularBuffer α)

/-- `CircularBuffer(capacity)`. `std::allocator` does not allocate `2 ^ 63` bytes or more. -/
def construct (α : Type*) (capacity : ℕ) : Option (CircularBuffer α) :=
  if capacity < 2 ^ 63 then
    some
      { capacity := capacity
        array := List.replicate capacity none
        head := 1
        tail := 0
        contentsSize := 0 }
  else none

/-- `array_[pos]`, undefined outside the array and where no item is. -/
def at? (pos : ℕ) : Option α := (b.array[pos]?).join

/-- The position behind `pos`. -/
def increment (pos : ℕ) : ℕ := if sizeT (pos + 1) = b.capacity then 0 else sizeT (pos + 1)

/-- `increment_head()` -/
def incrementHead : CircularBuffer α :=
  { b with contentsSize := sizeT (b.contentsSize + (2 ^ 64 - 1)), head := b.increment b.head }

/-- `increment_tail()` -/
def incrementTail : CircularBuffer α :=
  { b with contentsSize := sizeT (b.contentsSize + 1), tail := b.increment b.tail }

/-- An item is assigned to an item, and constructed anywhere in the array. -/
def pushBack (item : α) : Option (CircularBuffer α) :=
  let next := b.increment b.tail
  if b.contentsSize = b.capacity then
    if (b.at? next).isSome then
      some ({ b with array := b.array.set next (some item) }.incrementHead.incrementTail)
    else none
  else if next < b.array.length then
    some ({ b with array := b.array.set next (some item) }.incrementTail)
  else none

/-- `traits_type::destroy`. -/
def destroy (pos : ℕ) : Option (CircularBuffer α) :=
  if (b.at? pos).isSome then some { b with array := b.array.set pos none } else none

/-- `pop_front()`: the head moves on, and the element that it left is destroyed. -/
def popFront : Option (CircularBuffer α) :=
  let pos := b.head
  b.incrementHead.destroy pos

/-- The loop of `clear`, with `k` items to go. -/
def destroyFrom (n : ℕ) : ℕ → CircularBuffer α → Option (CircularBuffer α)
  | 0, b => some b
  | k + 1, b => (b.destroy (sizeT (n + b.head) % b.capacity)).bind (destroyFrom (n + 1) k)

/-- `clear()`: destroy the elements and begin anew. -/
def clear : Option (CircularBuffer α) :=
  (destroyFrom 0 b.contentsSize b).map fun b ↦ { b with head := 1, tail := 0, contentsSize := 0 }

/-- `front()` -/
def front : Option α := b.at? b.head

/-- `back()` -/
def back : Option α := b.at? b.tail

/-- `operator[]`, and the dereferenced iterator at `n`. -/
def get (n : ℕ) : Option α := b.at? (sizeT (n + b.head) % b.capacity)

/-- `size()` -/
def size : ℕ := b.contentsSize

/-- From `begin()` to `end()`. -/
def iterate : Option (List α) := (List.range b.contentsSize).mapM b.get

/-- The copy constructor. -/
def copy : Option (CircularBuffer α) := do
  let items ← b.iterate
  let that ← construct α b.capacity
  items.foldlM pushBack that

end CircularBuffer

/-! ### A queue of at most `capacity` items -/

/-- The operations that change a buffer. -/
inductive BufferOp (α : Type*) where
  | pushBack (item : α)
  | popFront
  | clear

variable {α : Type*}

/-- The buffer after one operation. -/
def CircularBuffer.step (b : CircularBuffer α) : BufferOp α → Option (CircularBuffer α)
  | .pushBack item => b.pushBack item
  | .popFront => b.popFront
  | .clear => b.clear

/-- The queue. There is no `pop_front` of the empty one. -/
def queueStep (capacity : ℕ) (xs : List α) : BufferOp α → Option (List α)
  | .pushBack item => some (if xs.length = capacity then xs.tail ++ [item] else xs ++ [item])
  | .popFront => if xs = [] then none else some xs.tail
  | .clear => some []

/-- The buffer shows the items `xs`. -/
structure Shows (b : CircularBuffer α) (xs : List α) : Prop where
  size : b.size = xs.length
  get : ∀ n, n < xs.length → b.get n = xs[n]?
  iterate : b.iterate = some xs
  front : xs ≠ [] → b.front = xs.head?
  back : xs ≠ [] → b.back = xs.getLast?

/-- After every sequence of operations that the queue has, a new buffer and its copy show the queue.
-/
def RefinesQueue (α : Type*) (capacity : ℕ) : Prop :=
  ∀ b₀, CircularBuffer.construct α capacity = some b₀ → ∀ (ops : List (BufferOp α)) (xs : List α),
    Machine.exec (queueStep capacity) [] ops = some xs →
    ∃ b, Machine.exec CircularBuffer.step b₀ ops = some b ∧ Shows b xs ∧
      ∃ c, b.copy = some c ∧ Shows c xs

/-! ### One operation -/

variable {b b' : CircularBuffer α} {capacity n k pos : ℕ} {xs ys : List α} {item : α}

/-- The items are in the ring from `head_` on, and `tail_` is the position of the last one. -/
structure Represents (capacity : ℕ) (b : CircularBuffer α) (xs : List α) : Prop where
  capacity_eq : b.capacity = capacity
  length : b.array.length = capacity
  size : b.contentsSize = xs.length
  le : xs.length ≤ capacity
  head : b.head < capacity
  tail : b.tail < capacity
  next : slot capacity b.tail 1 = slot capacity b.head xs.length
  holds : Holds b.array b.head xs

theorem sizeT_of_lt (h : n < 2 ^ 64) : sizeT n = n := Nat.mod_eq_of_lt h

/-- In the array, the increment is that of the ring. -/
theorem increment_eq (hcap : b.capacity < 2 ^ 63) (h : pos < b.capacity) :
    b.increment pos = slot b.capacity pos 1 := by
  have hsize : sizeT (pos + 1) = pos + 1 := sizeT_of_lt (by omega)
  rw [CircularBuffer.increment, hsize, slot_one h]

/-- The item at a position of the queue. -/
theorem Represents.at?_slot (R : Represents capacity b xs) (hn : n < xs.length) :
    b.at? (slot capacity b.head n) = xs[n]? := by
  rw [CircularBuffer.at?, ← R.length, R.holds n hn]
  rfl

/-- **`push_back`** while there is room. -/
theorem Represents.pushBack_of_lt (R : Represents capacity b xs) (hcap : capacity < 2 ^ 63)
    (hlt : xs.length < capacity) (item : α) :
    ∃ b', b.pushBack item = some b' ∧ Represents capacity b' (xs ++ [item]) := by
  have hpos : 0 < capacity := Nat.zero_lt_of_lt hlt
  have hnext : b.increment b.tail = slot capacity b.head xs.length := by
    rw [increment_eq (R.capacity_eq ▸ hcap) (R.capacity_eq ▸ R.tail), R.capacity_eq, R.next]
  have hsize : sizeT (b.contentsSize + 1) = xs.length + 1 := by
    rw [R.size, sizeT_of_lt (by omega)]
  refine ⟨{ b with
    array := b.array.set (slot capacity b.head xs.length) (some item)
    tail := slot capacity b.head xs.length
    contentsSize := xs.length + 1 }, ?_, ?_⟩
  · have hne : ¬ b.contentsSize = b.capacity := by
      rw [R.size, R.capacity_eq]
      exact Nat.ne_of_lt hlt
    have hin : slot capacity b.head xs.length < b.array.length := by
      rw [R.length]
      exact slot_lt hpos ..
    simp only [CircularBuffer.pushBack, hnext, if_neg hne, if_pos hin]
    rw [CircularBuffer.incrementTail]
    exact congrArg some (by rw [CircularBuffer.mk.injEq]; exact ⟨rfl, rfl, rfl, hnext, hsize⟩)
  · have hlen : (xs ++ [item]).length = xs.length + 1 := List.length_append
    refine ⟨R.capacity_eq, (List.length_set ..).trans R.length, hlen.symm, hlen ▸ hlt, R.head,
      slot_lt hpos .., ?_, ?_⟩
    · show slot capacity (slot capacity b.head xs.length) 1 =
        slot capacity b.head (xs ++ [item]).length
      rw [slot_slot, hlen]
    · have hholds := R.holds.push (x := item) (R.length.symm ▸ hlt)
      rwa [R.length] at hholds

/-- **`push_back`** on the full buffer: the new item is where the oldest was. -/
theorem Represents.pushBack_full {x : α} (R : Represents capacity b (x :: xs))
    (hcap : capacity < 2 ^ 63) (hfull : (x :: xs).length = capacity) (item : α) :
    ∃ b', b.pushBack item = some b' ∧ Represents capacity b' (xs ++ [item]) := by
  have hpos : 0 < capacity := hfull ▸ Nat.succ_pos _
  have hnext : b.increment b.tail = b.head := by
    rw [increment_eq (R.capacity_eq ▸ hcap) (R.capacity_eq ▸ R.tail), R.capacity_eq, R.next, hfull,
      slot_self R.head]
  have hinc : b.increment b.head = slot capacity b.head 1 := by
    rw [increment_eq (R.capacity_eq ▸ hcap) (R.capacity_eq ▸ R.head), R.capacity_eq]
  have hsize : sizeT (sizeT (b.contentsSize + (2 ^ 64 - 1)) + 1) = (x :: xs).length := by
    rw [R.size, hfull, sizeT, sizeT]
    omega
  refine ⟨{ b with
    array := b.array.set b.head (some item)
    head := slot capacity b.head 1
    tail := b.head
    contentsSize := (x :: xs).length }, ?_, ?_⟩
  · have heq : b.contentsSize = b.capacity := by rw [R.size, R.capacity_eq, hfull]
    have hsome : (b.at? b.head).isSome := by
      have hat := R.at?_slot (n := 0) (Nat.succ_pos _)
      rw [slot_zero R.head] at hat
      rw [hat]
      rfl
    simp only [CircularBuffer.pushBack, hnext, if_pos heq, if_pos hsome]
    rw [CircularBuffer.incrementTail, CircularBuffer.incrementHead]
    exact congrArg some (by rw [CircularBuffer.mk.injEq]; exact ⟨rfl, rfl, hinc, hnext, hsize⟩)
  · have hlen : (xs ++ [item]).length = (x :: xs).length := List.length_append
    have hslot : slot capacity (slot capacity b.head 1) xs.length = b.head := by
      rw [slot_slot, Nat.add_comm, ← List.length_cons (a := x), hfull, slot_self R.head]
    refine ⟨R.capacity_eq, (List.length_set ..).trans R.length, hlen.symm, hlen ▸ R.le,
      slot_lt hpos .., R.head, ?_, ?_⟩
    · show slot capacity b.head 1 = slot capacity (slot capacity b.head 1) (xs ++ [item]).length
      rw [hlen, hfull, slot_self (slot_lt hpos ..)]
    · -- the first item is taken away, and the new one put behind the last
      have hpop := R.holds.pop (R.length.symm ▸ R.head) (R.length.symm ▸ R.le)
      rw [R.length] at hpop
      have hlt : xs.length < (b.array.set b.head none).length := by
        rw [List.length_set, R.length, ← hfull]
        exact Nat.lt_succ_self _
      have hpush := hpop.push (x := item) hlt
      rwa [List.length_set, R.length, hslot, List.set_set] at hpush

/-- **`push_back`** -/
theorem Represents.pushBack (R : Represents capacity b xs) (hpos : 0 < capacity)
    (hcap : capacity < 2 ^ 63) (item : α) :
    ∃ b', b.pushBack item = some b' ∧
      Represents capacity b'
        (if xs.length = capacity then xs.tail ++ [item] else xs ++ [item]) := by
  split
  next hfull =>
    cases xs with
    | nil => exact absurd hfull (Nat.ne_of_lt hpos)
    | cons x xs => exact R.pushBack_full hcap hfull item
  next hne => exact R.pushBack_of_lt hcap (Nat.lt_of_le_of_ne R.le hne) item

/-- **`pop_front`** -/
theorem Represents.popFront (R : Represents capacity b (item :: xs)) (hcap : capacity < 2 ^ 63) :
    ∃ b', b.popFront = some b' ∧ Represents capacity b' xs := by
  have hinc : b.increment b.head = slot capacity b.head 1 := by
    rw [increment_eq (R.capacity_eq ▸ hcap) (R.capacity_eq ▸ R.head), R.capacity_eq]
  have hsize : sizeT (b.contentsSize + (2 ^ 64 - 1)) = xs.length := by
    have hle := R.le
    rw [R.size, sizeT, List.length_cons] at *
    omega
  have hpos : 0 < capacity := Nat.zero_lt_of_lt R.head
  refine ⟨{ b with
    array := b.array.set b.head none
    head := slot capacity b.head 1
    contentsSize := xs.length }, ?_, ?_⟩
  · have hsome : (b.at? b.head).isSome := by
      have hat := R.at?_slot (n := 0) (Nat.succ_pos _)
      rw [slot_zero R.head] at hat
      rw [hat]
      rfl
    have hdestroy : b.popFront = some { b.incrementHead with array := b.array.set b.head none } :=
      if_pos hsome
    rw [hdestroy, CircularBuffer.incrementHead]
    exact congrArg some (by rw [CircularBuffer.mk.injEq]; exact ⟨rfl, rfl, hinc, rfl, hsize⟩)
  · refine ⟨R.capacity_eq, (List.length_set ..).trans R.length, rfl, Nat.le_of_succ_le R.le,
      slot_lt hpos .., R.tail, ?_, ?_⟩
    · show slot capacity b.tail 1 = slot capacity (slot capacity b.head 1) xs.length
      rw [R.next, slot_slot, List.length_cons, Nat.add_comm]
    · have hpop := R.holds.pop (R.length.symm ▸ R.head) (R.length.symm ▸ R.le)
      rwa [R.length] at hpop

/-- The loop of `clear` finds an item at each position. -/
theorem destroyFrom_isSome (hcap : capacity < 2 ^ 63) (hb : b.capacity = capacity)
    (hlen : b.array.length = capacity) (hhead : b.head < capacity) (hle : n + k ≤ capacity)
    (hitems : ∀ i, n ≤ i → i < n + k → (b.at? (slot capacity b.head i)).isSome) :
    ∃ b', CircularBuffer.destroyFrom n k b = some b' ∧ b'.capacity = capacity ∧
      b'.array.length = capacity := by
  induction k generalizing b n with
  | zero => exact ⟨b, rfl, hb, hlen⟩
  | succ k ih =>
    have hpos : sizeT (n + b.head) % b.capacity = slot capacity b.head n := by
      rw [sizeT_of_lt (by omega), hb, slot, Nat.add_comm]
    have hdestroy : b.destroy (slot capacity b.head n) =
        some { b with array := b.array.set (slot capacity b.head n) none } :=
      if_pos (hitems n (Nat.le_refl n) (by omega))
    rw [CircularBuffer.destroyFrom, hpos, hdestroy, Option.bind_some]
    refine ih (b := { b with array := b.array.set (slot capacity b.head n) none }) hb
      ((List.length_set ..).trans hlen) hhead (by omega) fun i hi hlt ↦ ?_
    have hne : slot capacity b.head n ≠ slot capacity b.head i :=
      slot_ne (by omega) (by omega) (by omega)
    show ((b.array.set _ none)[slot capacity b.head i]?).join.isSome
    rw [List.getElem?_set_ne hne]
    exact hitems i (by omega) (by omega)

/-- **`clear`** -/
theorem Represents.clear (R : Represents capacity b xs) (htwo : 2 ≤ capacity)
    (hcap : capacity < 2 ^ 63) : ∃ b', b.clear = some b' ∧ Represents capacity b' [] := by
  obtain ⟨b', hb', hcapacity, hlen⟩ := destroyFrom_isSome (n := 0) (k := xs.length) hcap
    R.capacity_eq R.length R.head (by rw [Nat.zero_add]; exact R.le) fun i _ hi ↦ by
      rw [Nat.zero_add] at hi
      rw [R.at?_slot hi, List.getElem?_eq_getElem hi]
      rfl
  refine ⟨{ b' with head := 1, tail := 0, contentsSize := 0 }, ?_, hcapacity, hlen, rfl,
    Nat.zero_le _, htwo, Nat.lt_of_lt_of_le Nat.zero_lt_two htwo, rfl, Holds.nil _ _⟩
  rw [CircularBuffer.clear, R.size, hb', Option.map_some]

/-! ### What is shown -/

theorem mapM_range {f : ℕ → Option α} (xs : List α) (h : ∀ n, n < xs.length → f n = xs[n]?) :
    (List.range xs.length).mapM f = some xs := by
  induction xs generalizing f with
  | nil => rfl
  | cons x xs ih =>
    have htail : (List.range xs.length).mapM (f ∘ Nat.succ) = some xs :=
      ih fun n hn ↦ h (n + 1) (Nat.succ_lt_succ hn)
    rw [List.length_cons, List.range_succ_eq_map, List.mapM_cons, h 0 (Nat.succ_pos _),
      List.mapM_map]
    show (List.range xs.length).mapM (f ∘ Nat.succ) >>= _ = _
    rw [htail]
    rfl

theorem Represents.shows (R : Represents capacity b xs) (hcap : capacity < 2 ^ 63) :
    Shows b xs := by
  have hget : ∀ n, n < xs.length → b.get n = xs[n]? := fun n hn ↦ by
    have hle := R.le
    have hhead := R.head
    have hpos : sizeT (n + b.head) % b.capacity = slot capacity b.head n := by
      rw [sizeT_of_lt (by omega), R.capacity_eq, slot, Nat.add_comm]
    rw [CircularBuffer.get, hpos, R.at?_slot hn]
  refine ⟨R.size, hget, ?_, fun hne ↦ ?_, fun hne ↦ ?_⟩
  · rw [CircularBuffer.iterate, R.size]
    exact mapM_range xs hget
  · have hat := R.at?_slot (n := 0) (List.length_pos_iff.2 hne)
    rwa [slot_zero R.head, ← List.head?_eq_getElem?] at hat
  · have hpos := List.length_pos_iff.2 hne
    have hlast : b.tail = slot capacity b.head (xs.length - 1) := by
      refine slot_cancel R.tail ?_
      rw [R.next, Nat.sub_add_cancel hpos]
    rw [CircularBuffer.back, hlast, R.at?_slot (Nat.sub_lt hpos Nat.one_pos),
      List.getLast?_eq_getElem?]

theorem lt_of_construct (h : CircularBuffer.construct α capacity = some b) : capacity < 2 ^ 63 :=
  (Option.ite_none_right_eq_some.1 h).1

theorem represents_construct (htwo : 2 ≤ capacity) (hcap : capacity < 2 ^ 63) :
    ∃ b, CircularBuffer.construct α capacity = some b ∧ Represents capacity b [] :=
  ⟨_, if_pos hcap, rfl, List.length_replicate, rfl, Nat.zero_le _, htwo,
    Nat.lt_of_lt_of_le Nat.zero_lt_two htwo, rfl, Holds.nil _ _⟩

/-- The loop of the copy constructor. -/
theorem Represents.pushAll (R : Represents capacity b ys) (hcap : capacity < 2 ^ 63)
    (hle : (ys ++ xs).length ≤ capacity) :
    ∃ c, xs.foldlM CircularBuffer.pushBack b = some c ∧ Represents capacity c (ys ++ xs) := by
  induction xs generalizing b ys with
  | nil => exact ⟨b, rfl, by rwa [List.append_nil]⟩
  | cons x xs ih =>
    have hlen : (ys ++ x :: xs).length = ys.length + (xs.length + 1) := List.length_append
    obtain ⟨b', hb', R'⟩ := R.pushBack_of_lt hcap (by omega) x
    rw [List.append_cons] at hle ⊢
    obtain ⟨c, hc, R''⟩ := ih R' hle
    refine ⟨c, ?_, R''⟩
    rw [List.foldlM_cons, hb']
    exact hc

theorem Represents.copy (R : Represents capacity b xs) (htwo : 2 ≤ capacity)
    (hcap : capacity < 2 ^ 63) : ∃ c, b.copy = some c ∧ Represents capacity c xs := by
  obtain ⟨b₀, hb₀, R₀⟩ := represents_construct (α := α) htwo hcap
  obtain ⟨c, hc, Rc⟩ : ∃ c, xs.foldlM CircularBuffer.pushBack b₀ = some c ∧
      Represents capacity c ([] ++ xs) := R₀.pushAll hcap R.le
  refine ⟨c, ?_, Rc⟩
  rw [CircularBuffer.copy, (R.shows hcap).iterate, R.capacity_eq, hb₀]
  exact hc

/-! ### Sequences of operations -/

/-- **A step** of the buffer is the one of the queue. -/
theorem Represents.step {op : BufferOp α} (R : Represents capacity b xs) (htwo : 2 ≤ capacity)
    (hcap : capacity < 2 ^ 63) (h : queueStep capacity xs op = some ys) :
    ∃ b', b.step op = some b' ∧ Represents capacity b' ys := by
  cases op with
  | pushBack item =>
    obtain rfl := Option.some.inj h
    exact R.pushBack (Nat.lt_of_lt_of_le Nat.zero_lt_two htwo) hcap item
  | popFront =>
    obtain ⟨hne, h⟩ := Option.ite_none_left_eq_some.1 h
    obtain rfl := Option.some.inj h
    obtain ⟨x, xs, rfl⟩ := List.exists_cons_of_ne_nil hne
    exact R.popFront hcap
  | clear =>
    obtain rfl := Option.some.inj h
    exact R.clear htwo hcap

theorem Represents.exec {ops : List (BufferOp α)} (R : Represents capacity b xs)
    (htwo : 2 ≤ capacity)
    (hcap : capacity < 2 ^ 63) (h : Machine.exec (queueStep capacity) xs ops = some ys) :
    ∃ b', Machine.exec CircularBuffer.step b ops = some b' ∧ Represents capacity b' ys := by
  induction ops generalizing b xs with
  | nil => exact ⟨b, rfl, Option.some.inj h ▸ R⟩
  | cons op ops ih =>
    obtain ⟨xs₁, h₁, h⟩ := Option.bind_eq_some_iff.1 h
    obtain ⟨b₁, hb₁, R₁⟩ := R.step htwo hcap h₁
    obtain ⟨b', hb', R'⟩ := ih R₁ h
    exact ⟨b', Option.bind_eq_some_iff.2 ⟨b₁, hb₁, hb'⟩, R'⟩

/-- With capacity 1, `front` is outside the array. -/
theorem not_refinesQueue_one (item : α) : ¬ RefinesQueue α 1 := by
  intro hrefines
  obtain ⟨b, hb, hshows, -⟩ := hrefines _ rfl [.pushBack item] [item] rfl
  obtain rfl := Option.some.inj hb
  cases hshows.front (List.cons_ne_nil _ _)

/-- **Exactly when the buffer is a queue of at most `capacity` items**: from capacity 2 on. -/
theorem refinesQueue_iff [Inhabited α] (hpos : 1 ≤ capacity) :
    RefinesQueue α capacity ↔ 2 ≤ capacity := by
  constructor
  · intro hrefines
    by_contra hlt
    obtain rfl : capacity = 1 := by omega
    exact not_refinesQueue_one default hrefines
  · intro htwo b₀ hb₀ ops xs h
    have hcap := lt_of_construct hb₀
    obtain ⟨b₁, hb₁, R₀⟩ := represents_construct (α := α) htwo hcap
    obtain rfl := Option.some.inj (hb₀.symm.trans hb₁)
    obtain ⟨b, hb, R⟩ := R₀.exec htwo hcap h
    obtain ⟨c, hc, Rc⟩ := R.copy htwo hcap
    exact ⟨b, hb, R.shows hcap, c, hc, Rc.shows hcap⟩

/-- A buffer of three. -/
theorem refinesQueue_three : RefinesQueue ℕ 3 := (refinesQueue_iff (by decide)).2 (by decide)

/-- The default capacity is none for which it is. -/
theorem not_forall_refinesQueue : ¬ ∀ capacity, 1 ≤ capacity → RefinesQueue ℕ capacity :=
  fun hall ↦ not_refinesQueue_one 7 (hall 1 (Nat.le_refl 1))

end Utils
