import Mathlib.Algebra.Group.Int.Defs
import Mathlib.Algebra.Group.Nat.Defs
import Mathlib.Data.Int.Order.Basic
import Mathlib.Data.Multiset.AddSub
import MiscCpp.Library.HeapOrder

/-!
# The minimum heap

`MinHeap` against a bag of integers from which a smallest one is taken.

`Push` and `Pop` keep the order of the heap. So does the constructor as far as its loop gets: the
loop counts down with an `int` that starts at `data_.size() - 1`, and from `2 ^ 31 + 1` elements on
this is another number. What lies below the indices it starts from is then in order only if it has
been before (`heapRight_iff`).
-/

open HeapOrder

namespace Struct

/-! ### The operations -/

/-- `heapifyUp(index)`: exchange with the parent while that is greater. -/
def heapifyUp (data : Array ℤ) (index : ℕ) (h : index < data.size) : Array ℤ :=
  if index = 0 then data
  else
    let parentIndex := (index - 1) / 2
    if data[parentIndex] ≤ data[index] then data
    else heapifyUp (data.swap parentIndex index) parentIndex (by rw [Array.size_swap]; omega)
termination_by index
decreasing_by omega

/-- The smaller child, the left one if there is no right one or they are equal. -/
def minChildIndex (data : Array ℤ) (index : ℕ) (h : index * 2 + 1 < data.size) : ℕ :=
  let leftChildIndex := index * 2 + 1
  let rightChildIndex := index * 2 + 2
  if hr : rightChildIndex < data.size then
    if data[rightChildIndex] < data[leftChildIndex] then rightChildIndex else leftChildIndex
  else leftChildIndex

/-- The smaller child is one of the two. -/
theorem minChildIndex_cases (data : Array ℤ) (index : ℕ) (h : index * 2 + 1 < data.size) :
    minChildIndex data index h = index * 2 + 1 ∨
      minChildIndex data index h = index * 2 + 2 ∧ index * 2 + 2 < data.size := by
  rw [minChildIndex]
  split
  next hr =>
    split
    · exact .inr ⟨rfl, hr⟩
    · exact .inl rfl
  next => exact .inl rfl

theorem minChildIndex_lt (data : Array ℤ) (index : ℕ) (h : index * 2 + 1 < data.size) :
    minChildIndex data index h < data.size := by
  rcases minChildIndex_cases data index h with heq | ⟨heq, hlt⟩
  · rwa [heq]
  · rwa [heq]

theorem lt_minChildIndex (data : Array ℤ) (index : ℕ) (h : index * 2 + 1 < data.size) :
    index < minChildIndex data index h := by
  rcases minChildIndex_cases data index h with heq | ⟨heq, -⟩ <;> omega

/-- `heapifyDown(index)`: exchange with the smaller child while that is smaller. -/
def heapifyDown (data : Array ℤ) (index : ℕ) : Array ℤ :=
  if h : index * 2 + 1 < data.size then
    have hlt := minChildIndex_lt data index h
    if data[index] ≤ data[minChildIndex data index h] then data
    else heapifyDown (data.swap index (minChildIndex data index h)) (minChildIndex data index h)
  else data
termination_by data.size - index
decreasing_by
  have := lt_minChildIndex data index h
  rw [Array.size_swap]
  omega

/-- The heap in its vector. -/
structure MinHeap where
  data : Array ℤ

/-- `int i = data_.size() - 1`: the counter the constructor starts from. -/
def startIndex (size : ℕ) : ℤ := ((size : ℤ) - 1).bmod (2 ^ 32)

/-- `HeapifyDown` of the indices below `k`, from the last to the first. -/
def heapifyBelow : ℕ → Array ℤ → Array ℤ
  | 0, data => data
  | k + 1, data => heapifyBelow k (heapifyDown data k)

namespace MinHeap

/-- `MinHeap(data)` -/
def construct (data : Array ℤ) : MinHeap where
  data := heapifyBelow (startIndex data.size + 1).toNat data

/-- `peek()`, which is 0 for an empty heap. -/
def peek (h : MinHeap) : ℤ := if h0 : 0 < h.data.size then h.data[0] else 0

/-- `pop()`: the last element takes the place of the first one and goes down. -/
def pop (h : MinHeap) : ℤ × MinHeap :=
  if h0 : 0 < h.data.size then
    let minimum := h.data[0]
    let data := h.data.swap (h.data.size - 1) 0
    (minimum, { data := heapifyDown data.pop 0 })
  else (0, h)

/-- `push(value)`: the new element goes up from the end. -/
def push (h : MinHeap) (value : ℤ) : MinHeap where
  data := heapifyUp (h.data.push value) h.data.size (by rw [Array.size_push]; omega)

/-- The loop of `k` calls of `Pop` on a heap of at least `k` elements. -/
def drain : ℕ → MinHeap → List ℤ
  | 0, _ => []
  | k + 1, h => h.pop.1 :: drain k h.pop.2

end MinHeap

/-! ### A bag -/

/-- The operations that change a heap. -/
inductive HeapOp where
  | push (value : ℤ)
  | pop

/-- An operation on the heap, and on the bag of what has been added and not removed. -/
def HeapOp.step : MinHeap × Multiset ℤ → HeapOp → MinHeap × Multiset ℤ
  | (h, bag), .push value => (h.push value, value ::ₘ bag)
  | (h, bag), .pop => (h.pop.2, bag.erase h.pop.1)

/-- `data_[i]` -/
def element (data : Array ℤ) (i : ℕ) : ℤ := data[i]?.getD 0

/-- The heap holds the bag: it is in order, `Pop` returns a smallest element, and a drain all of
them in order. -/
structure Keeps (h : MinHeap) (bag : Multiset ℤ) : Prop where
  ordered : Ordered h.data.size (element h.data)
  contents : (h.data.toList : Multiset ℤ) = bag
  pop : bag ≠ 0 → h.pop.1 ∈ bag ∧ ∀ x ∈ bag, h.pop.1 ≤ x
  drain_sorted : (h.drain h.data.size).Pairwise (· ≤ ·)
  drain_contents : (h.drain h.data.size : Multiset ℤ) = bag

/-- After every sequence of operations on the heap of `data`, it holds what has been added and not
removed. -/
def HeapRight (data : Array ℤ) : Prop :=
  ∀ ops : List HeapOp, let s := ops.foldl HeapOp.step (.construct data, data.toList)
    Keeps s.1 s.2

/-! ### What the operations do to the order -/

variable {data : Array ℤ} {h : MinHeap} {bag : Multiset ℤ} {i j k lo : ℕ}

theorem element_eq (hi : i < data.size) : element data i = data[i] := by
  rw [element, Array.getElem?_eq_getElem hi, Option.getD_some]

theorem element_swap (hi : i < data.size) (hj : j < data.size) :
    element (data.swap i j) = exchange (element data) i j := by
  funext k
  rw [element, Array.getElem?_swap]
  rcases eq_or_ne k j with rfl | hkj
  · rw [if_pos rfl, exchange_right, element_eq hi, Option.getD_some]
  · rw [if_neg hkj.symm]
    rcases eq_or_ne k i with rfl | hki
    · rw [if_pos rfl, exchange_left, element_eq hj, Option.getD_some]
    · rw [if_neg hki.symm, exchange_of_ne hki hkj, element]

/-- The children of an index are the two that `HeapifyDown` looks at. -/
theorem eq_child {c : ℕ} (hc : 0 < c) (hpar : parent c = i) :
    c = i * 2 + 1 ∨ c = i * 2 + 2 := by
  rw [parent] at hpar
  omega

theorem parent_minChildIndex (hi : i * 2 + 1 < data.size) :
    parent (minChildIndex data i hi) = i := by
  rw [parent]
  rcases minChildIndex_cases data i hi with heq | ⟨heq, -⟩ <;> omega

/-- No child is less than the smaller one. -/
theorem minChildIndex_le (hi : i * 2 + 1 < data.size) {c : ℕ} (hc : 0 < c) (hcn : c < data.size)
    (hpar : parent c = i) : element data (minChildIndex data i hi) ≤ element data c := by
  rw [minChildIndex]
  split
  next hr =>
    have hcases := eq_child hc hpar
    split
    next hlt =>
      rw [← element_eq hr, ← element_eq hi] at hlt
      rcases hcases with rfl | rfl
      · exact hlt.le
      · exact le_refl _
    next hge =>
      rw [← element_eq hr, ← element_eq hi, not_lt] at hge
      rcases hcases with rfl | rfl
      · exact le_refl _
      · exact hge
  next hr =>
    rcases eq_child hc hpar with rfl | rfl
    · exact le_refl _
    · exact absurd hcn hr

/-- Going down keeps the elements. -/
theorem heapifyDown_perm (data : Array ℤ) (index : ℕ) : (heapifyDown data index).Perm data := by
  induction data, index using heapifyDown.induct with
  | case1 data index h hlt hle =>
    rw [heapifyDown, dif_pos h, if_pos hle]
  | case2 data index h hlt hgt ih =>
    rw [heapifyDown, dif_pos h, if_neg hgt]
    exact ih.trans (Array.swap_perm _ _)
  | case3 data index h =>
    rw [heapifyDown, dif_neg h]

theorem size_heapifyDown (data : Array ℤ) (index : ℕ) :
    (heapifyDown data index).size = data.size :=
  (heapifyDown_perm data index).size_eq

/-- **`HeapifyDown`** leaves an order exactly where nothing but its index was out of order. -/
theorem orderedFrom_heapifyDown (hlo : lo ≤ i) :
    OrderedFrom data.size lo (element (heapifyDown data i)) ↔
      SiftDown data.size lo (element data) i := by
  induction data, i using heapifyDown.induct with
  | case1 data i hi hlt hle =>
    rw [heapifyDown, dif_pos hi, if_pos hle]
    refine (siftDown_iff_of_le fun c hc hcn hpar ↦ ?_).symm
    rw [← element_eq hlt, ← element_eq (Nat.lt_trans (lt_minChildIndex data i hi) hlt)] at hle
    exact hle.trans (minChildIndex_le hi hc hcn hpar)
  | case2 data i hi hlt hgt ih =>
    have him := lt_minChildIndex data i hi
    have hin := Nat.lt_trans him hlt
    rw [heapifyDown, dif_pos hi, if_neg hgt]
    rw [Array.size_swap, element_swap hin hlt] at ih
    rw [ih (Nat.le_trans hlo him.le)]
    rw [← element_eq hlt, ← element_eq hin, not_le] at hgt
    exact siftDown_exchange_iff hlo (Nat.zero_lt_of_lt him) hlt (parent_minChildIndex hi)
      (fun c hc hcn hpar ↦ minChildIndex_le hi hc hcn hpar) hgt
  | case3 data i hi =>
    rw [heapifyDown, dif_neg hi]
    refine (siftDown_iff_of_le fun c hc hcn hpar ↦ ?_).symm
    have hcases := eq_child hc hpar
    omega

/-- Going up keeps the elements. -/
theorem heapifyUp_perm (data : Array ℤ) (index : ℕ) (hi : index < data.size) :
    (heapifyUp data index hi).Perm data := by
  induction data, index, hi using heapifyUp.induct with
  | case1 data hi => rw [heapifyUp, if_pos rfl]
  | case2 data index hi hne parentIndex hle => rw [heapifyUp, if_neg hne, if_pos hle]
  | case3 data index hi hne parentIndex hgt ih =>
    rw [heapifyUp, if_neg hne, if_neg hgt]
    exact ih.trans (Array.swap_perm _ _)

/-- **`HeapifyUp`** orders an array that is in order but for its index. -/
theorem ordered_heapifyUp (hi : i < data.size) (hup : SiftUp data.size (element data) i) :
    Ordered data.size (element (heapifyUp data i hi)) := by
  induction data, i, hi using heapifyUp.induct with
  | case1 data hi =>
    rw [heapifyUp, if_pos rfl]
    exact hup.ordered fun hpos ↦ absurd hpos (Nat.lt_irrefl 0)
  | case2 data i hi hne parentIndex hle =>
    rw [heapifyUp, if_neg hne, if_pos hle]
    refine hup.ordered fun hpos ↦ ?_
    rwa [← element_eq, ← element_eq] at hle
  | case3 data i hi hne parentIndex hgt ih =>
    have hpos := Nat.pos_of_ne_zero hne
    have hpi : parent i < data.size := Nat.lt_trans (parent_lt hpos) hi
    rw [heapifyUp, if_neg hne, if_neg hgt]
    rw [Array.size_swap, element_swap (show parentIndex < data.size from hpi) hi] at ih
    rw [← element_eq, ← element_eq, not_le] at hgt
    exact ih (hup.exchange hpos hi hgt)

/-! ### The constructor -/

theorem heapifyBelow_perm (k : ℕ) (data : Array ℤ) : (heapifyBelow k data).Perm data := by
  induction k generalizing data with
  | zero => exact .refl _
  | succ k ih => exact (ih _).trans (heapifyDown_perm data k)

/-- Going down from all parents, the last one first, sets the whole heap in order. -/
theorem ordered_heapifyBelow (k : ℕ) (data : Array ℤ) :
    Ordered data.size (element (heapifyBelow k data)) ↔
      OrderedFrom data.size k (element data) := by
  induction k generalizing data with
  | zero => exact orderedFrom_zero.symm
  | succ k ih =>
    have hdown := ih (heapifyDown data k)
    rw [size_heapifyDown] at hdown
    rw [heapifyBelow, hdown, orderedFrom_heapifyDown (Nat.le_refl k), siftDown_self]

theorem size_construct (data : Array ℤ) : (MinHeap.construct data).data.size = data.size :=
  (heapifyBelow_perm _ data).size_eq

/-- **The constructor** makes a heap exactly if what its loop does not reach is in order. -/
theorem ordered_construct :
    Ordered data.size (element (MinHeap.construct data).data) ↔
      OrderedFrom data.size (startIndex data.size + 1).toNat (element data) :=
  ordered_heapifyBelow _ _

/-! ### The operations on a heap -/

/-- A push keeps the order. -/
theorem ordered_push (h : MinHeap) (value : ℤ) (hord : Ordered h.data.size (element h.data)) :
    Ordered (h.push value).data.size (element (h.push value).data) := by
  have hsize : h.data.size < (h.data.push value).size := by
    rw [Array.size_push]
    exact Nat.lt_succ_self _
  have hpush : Ordered h.data.size (element (h.data.push value)) := by
    refine orderedFrom_zero.1 ((orderedFrom_zero.2 hord).congr fun c _ hc ↦ ?_)
    rw [element, Array.getElem?_push_lt hc, Option.getD_some, element_eq hc]
  have hup := SiftUp.of_ordered hpush
  have hlen : (h.data.push value).size = h.data.size + 1 := Array.size_push ..
  rw [← hlen] at hup
  have hperm := (heapifyUp_perm _ _ hsize).size_eq
  have hord' := ordered_heapifyUp hsize hup
  rw [← hperm] at hord'
  exact hord'

/-- A push adds its value. -/
theorem contents_push (h : MinHeap) (value : ℤ) :
    ((h.push value).data.toList : Multiset ℤ) = value ::ₘ h.data.toList := by
  have hsize : h.data.size < (h.data.push value).size := by
    rw [Array.size_push]
    exact Nat.lt_succ_self _
  have hperm := Array.perm_iff_toList_perm.1 (heapifyUp_perm (h.data.push value) h.data.size hsize)
  rw [Array.toList_push] at hperm
  exact Multiset.coe_eq_coe.2 (hperm.trans (List.perm_append_singleton value _))

theorem pop_eq (hpos : 0 < h.data.size) : h.pop =
    (h.data[0], { data := heapifyDown (h.data.swap (h.data.size - 1) 0).pop 0 }) :=
  dif_pos hpos

/-- `Peek` returns what `Pop` takes. -/
theorem peek_eq (h : MinHeap) : h.peek = h.pop.1 := by
  rcases Nat.eq_zero_or_pos h.data.size with hzero | hpos
  · rw [MinHeap.peek, MinHeap.pop, dif_neg (by omega), dif_neg (by omega)]
  · rw [MinHeap.peek, pop_eq hpos, dif_pos hpos]

/-- A pop keeps the order. -/
theorem ordered_pop (h : MinHeap) (hord : Ordered h.data.size (element h.data)) :
    Ordered h.pop.2.data.size (element h.pop.2.data) := by
  rcases Nat.eq_zero_or_pos h.data.size with hzero | hpos
  · rwa [MinHeap.pop, dif_neg (by omega)]
  · rw [pop_eq hpos, size_heapifyDown, ← orderedFrom_zero,
      orderedFrom_heapifyDown (Nat.le_refl 0), siftDown_self]
    have hsize : (h.data.swap (h.data.size - 1) 0).pop.size = h.data.size - 1 := by
      rw [Array.size_pop, Array.size_swap]
    intro c hc hcn hle
    have hcp := parent_lt hc
    rw [hsize] at hcn
    -- neither of the two positions is among the children in question or their parents
    have helement : ∀ i, 0 < i → i < h.data.size - 1 →
        element (h.data.swap (h.data.size - 1) 0).pop i = element h.data i := fun i hi hin ↦ by
      rw [element, Array.getElem?_pop, Array.size_swap, if_pos hin, ← element,
        element_swap, exchange_of_ne (Nat.ne_of_lt hin) (Nat.ne_of_gt hi)]
    rw [helement c hc hcn, helement _ hle (Nat.lt_trans hcp hcn)]
    exact hord c hc (by omega)

/-- The first element is taken away. -/
theorem contents_pop (hpos : 0 < h.data.size) :
    (h.data.toList : Multiset ℤ) = h.pop.1 ::ₘ h.pop.2.data.toList := by
  have hperm := Array.perm_iff_toList_perm.1
    (heapifyDown_perm (h.data.swap (h.data.size - 1) 0).pop 0)
  rw [pop_eq hpos, Multiset.cons_coe, Multiset.coe_eq_coe]
  have hlast : h.data.size - 1 < h.data.size := by omega
  have hswap := Array.perm_iff_toList_perm.1 (Array.swap_perm hlast hpos)
  refine hswap.symm.trans ?_
  have hne : (h.data.swap (h.data.size - 1) 0).size ≠ 0 := by
    rw [Array.size_swap]
    exact hpos.ne'
  have hback : (h.data.swap (h.data.size - 1) 0).back! = h.data[0] := by
    have hget : (h.data.swap (h.data.size - 1) 0)[h.data.size - 1]? = some h.data[0] :=
      Array.getElem?_eq_some_iff.2
        ⟨by rw [Array.size_swap]; omega, Array.getElem_swap_left⟩
    rw [Array.back!_eq_back?, Array.back?_eq_getElem?, Array.size_swap, hget]
    rfl
  rw [Array.eq_push_pop_back!_of_size_ne_zero hne, hback, Array.toList_push, Array.pop_push]
  exact (List.perm_append_singleton _ _).trans ((hperm.symm).cons _)

theorem size_pop (hpos : 0 < h.data.size) : h.pop.2.data.size + 1 = h.data.size := by
  have hcard := congrArg Multiset.card (contents_pop hpos)
  rw [Multiset.card_cons, Multiset.coe_card, Multiset.coe_card] at hcard
  exact hcard.symm

/-- The first element of a heap is a smallest. -/
theorem pop_le (hord : Ordered h.data.size (element h.data)) {x : ℤ} (hx : x ∈ h.data.toList) :
    h.pop.1 ≤ x := by
  obtain ⟨i, hi, rfl⟩ := List.mem_iff_getElem.1 hx
  have hi' : i < h.data.size := hi
  have hpos : 0 < h.data.size := Nat.zero_lt_of_lt hi'
  have hle := hord.le hi'
  rw [element_eq hi', element_eq hpos] at hle
  rwa [pop_eq hpos]

/-- Popping everything gives the elements in ascending order. -/
theorem drain_spec (hord : Ordered h.data.size (element h.data)) (hk : h.data.size = k) :
    (h.drain k).Pairwise (· ≤ ·) ∧ (h.drain k : Multiset ℤ) = h.data.toList := by
  induction k generalizing h with
  | zero => exact ⟨.nil, by rw [MinHeap.drain, Array.eq_empty_of_size_eq_zero hk]⟩
  | succ k ih =>
    have hpos : 0 < h.data.size := hk ▸ Nat.succ_pos k
    have hsize := size_pop hpos
    obtain ⟨hsorted, hcontents⟩ := ih (ordered_pop h hord) (by omega)
    rw [MinHeap.drain, List.pairwise_cons, contents_pop hpos, ← hcontents]
    refine ⟨⟨fun x hx ↦ pop_le hord ?_, hsorted⟩, rfl⟩
    rw [← Multiset.mem_coe, contents_pop hpos, ← hcontents]
    exact Multiset.mem_cons_of_mem hx

/-- A heap in order keeps its elements. -/
theorem keeps_of_ordered (hord : Ordered h.data.size (element h.data))
    (hbag : (h.data.toList : Multiset ℤ) = bag) : Keeps h bag where
  ordered := hord
  contents := hbag
  pop hne := by
    have hpos : 0 < h.data.size := by
      rw [Nat.pos_iff_ne_zero]
      intro hzero
      rw [← hbag, Array.eq_empty_of_size_eq_zero hzero] at hne
      exact hne rfl
    refine ⟨?_, fun x hx ↦ pop_le hord (by rwa [← hbag] at hx)⟩
    rw [← hbag, contents_pop hpos]
    exact Multiset.mem_cons_self _ _
  drain_sorted := (drain_spec hord rfl).1
  drain_contents := (drain_spec hord rfl).2.trans hbag

/-- **An operation** keeps a heap that holds the bag. -/
theorem Keeps.step (hk : Keeps h bag) (op : HeapOp) :
    Keeps (HeapOp.step (h, bag) op).1 (HeapOp.step (h, bag) op).2 := by
  cases op with
  | push value =>
    exact keeps_of_ordered (ordered_push h value hk.ordered)
      ((contents_push h value).trans (congrArg _ hk.contents))
  | pop =>
    refine keeps_of_ordered (ordered_pop h hk.ordered) ?_
    show (h.pop.2.data.toList : Multiset ℤ) = bag.erase h.pop.1
    rw [← hk.contents]
    rcases Nat.eq_zero_or_pos h.data.size with hzero | hpos
    · rw [MinHeap.pop, dif_neg (by omega), Array.eq_empty_of_size_eq_zero hzero]
      rfl
    · rw [contents_pop hpos, Multiset.erase_cons_head]

/-- A run of operations keeps the elements. -/
theorem Keeps.foldl (hk : Keeps h bag) (ops : List HeapOp) :
    Keeps (ops.foldl HeapOp.step (h, bag)).1 (ops.foldl HeapOp.step (h, bag)).2 := by
  induction ops generalizing h bag with
  | nil => exact hk
  | cons op ops ih => exact ih (hk.step op)

/-- A heap whose constructor has nothing to do below the indices it starts from. -/
theorem heapRight_of_orderedFrom
    (h : OrderedFrom data.size (startIndex data.size + 1).toNat (element data)) :
    HeapRight data := fun ops ↦ by
  rw [← ordered_construct] at h
  refine Keeps.foldl (keeps_of_ordered ?_ ?_) ops
  · rwa [size_construct]
  · exact Multiset.coe_eq_coe.2 (Array.perm_iff_toList_perm.1 (heapifyBelow_perm _ data))

/-- **Exactly when the heap is right**: what is below the indices the constructor starts from is in
order. -/
theorem heapRight_iff (data : Array ℤ) :
    HeapRight data ↔ ∀ c, 0 < c → c < data.size → startIndex data.size < parent c →
      element data (parent c) ≤ element data c := by
  have hfrom : OrderedFrom data.size (startIndex data.size + 1).toNat (element data) ↔
      ∀ c, 0 < c → c < data.size → startIndex data.size < parent c →
        element data (parent c) ≤ element data c := by
    refine forall₃_congr fun c _ _ ↦ imp_congr_left ?_
    omega
  rw [← hfrom]
  refine ⟨fun hright ↦ ?_, heapRight_of_orderedFrom⟩
  rw [← ordered_construct]
  have hord := (hright []).ordered
  rwa [List.foldl_nil, size_construct] at hord

/-- Up to `2 ^ 31` elements every heap is right. -/
theorem heapRight_of_size_le (hsize : data.size ≤ 2 ^ 31) : HeapRight data := by
  refine heapRight_of_orderedFrom fun c hpos hc hle ↦ absurd hle ?_
  have hpar := parent_lt hpos
  have hstart : startIndex data.size = (data.size : ℤ) - 1 :=
    Int.bmod_eq_of_le (by omega) (by omega)
  omega

/-- The vector of a one and `2 ^ 31` zeros is not made a heap. -/
theorem not_forall_heapRight : ¬ ∀ data, HeapRight data := by
  intro hall
  have hsize : (#[1] ++ Array.replicate (2 ^ 31) 0 : Array ℤ).size = 2 ^ 31 + 1 := by
    rw [Array.size_append, Array.size_replicate]
    rfl
  have hord := (hall (#[1] ++ Array.replicate (2 ^ 31) 0) []).ordered
  rw [List.foldl_nil, size_construct, ordered_construct, hsize] at hord
  have hfirst : element (#[1] ++ Array.replicate (2 ^ 31) 0) 0 = 1 := by
    rw [element, Array.getElem?_append_left Nat.one_pos]
    rfl
  have hsecond : element (#[1] ++ Array.replicate (2 ^ 31) 0) 1 = 0 := by
    rw [element, Array.getElem?_append_right (Nat.le_refl 1), Array.getElem?_replicate]
    rfl
  have hle := hord 1 Nat.one_pos (by decide) (by decide)
  rw [show parent 1 = 0 from rfl, hfirst, hsecond] at hle
  exact absurd hle (by decide)

end Struct
