import Mathlib.Data.List.Sort
import MiscCpp.Library.Access
import MiscCpp.Library.Counters
import MiscCpp.Library.Machine
import MiscCpp.Library.MonotonicDeque

/-!
# The maximum of a sliding window

The four functions of `leetcode/other/slidingWindowMaximum.cc`. Iterators are positions in the
vector, a `multiset` is the ascending list of its elements, and a `deque` is a list with its back
first.

Behind turn `i` the deque of the third function has the values of the indices in the window that
have no greater value behind them, and that of the fourth function the indices without a value
behind them that is as great (`turn3_spec`, `turn4_spec`). The first index of the window leaves
either deque exactly if it is the first one there. All functions count with an `int` and need a
vector whose size is one (`maxSlidingWindow_iff`).
-/

open Access CInt Machine MonotonicDeque

namespace SlidingWindowMaximum

/-! ### The program -/

/-- The values of `i` in `for (int i = first; i < n; ++i)`, where `n` is a `size_t`: no turn if
`first` is negative. -/
def counterFrom (first : ℤ) (n : ℕ) : Option (List ℕ) :=
  if first < 0 then some [] else do some ((← counter n).drop first.toNat)

/-- The body of the loop of `maxSlidingWindow`: `*std::max_element` is undefined in an empty range.
The ends of the range are checked. The iterator `nums.begin() + i - k`, from which the first one is
computed, is not, although it is in front of the vector for `i = k - 1`. -/
def turn (nums : List CInt) (k : ℤ) (res : List CInt) (i : ℕ) : Option (List CInt) := do
  some (res ++ [← (← range nums (i - k + 1) (i + 1)).max?])

/-- The maximum of each window, searched anew. -/
def maxSlidingWindow (nums : List CInt) (k : CInt) : Option (List CInt) := do
  exec (turn nums k.1) [] (← counterFrom (← fit (k.1 - 1)) nums.length)

/-- `window.erase(window.equal_range(x).first)`, undefined at the end. -/
def eraseFirst (window : List CInt) (x : CInt) : Option (List CInt) :=
  let first := window.findIdx fun y ↦ ¬ y < x
  if first < window.length then some (window.eraseIdx first) else none

/-- The body of the loop of `maxSlidingWindow2`, with `window` and `res`. -/
def turn2 (nums : List CInt) (k : ℤ) (s : List CInt × List CInt) (i : ℕ) :
    Option (List CInt × List CInt) := do
  let window := s.1.orderedInsert (· ≤ ·) (← get nums i)
  let res := s.2 ++ [← window.getLast?]
  some (← eraseFirst window (← get nums (← fit ((← fit (i - k)) + 1))), res)

/-- The windows in a `multiset`. -/
def maxSlidingWindow2 (nums : List CInt) (k : CInt) : Option (List CInt) :=
  if nums = [] then some []
  else do
    let window := (← range nums 0 (k.1 - 1)).insertionSort (· ≤ ·)
    let (_, res) ← exec (turn2 nums k.1) (window, [])
      (← counterFrom (← fit (k.1 - 1)) nums.length)
    some res

/-- `data_`, its back first. -/
abbrev MonotonicQueue := List CInt

/-- A value drives out the lesser ones before it. -/
def MonotonicQueue.push (q : MonotonicQueue) (e : CInt) : MonotonicQueue :=
  e :: q.dropWhile (· < e)

/-- Undefined if `data_` is empty. -/
def MonotonicQueue.pop (q : MonotonicQueue) : Option MonotonicQueue :=
  if q = [] then none else some q.dropLast

/-- Undefined if `data_` is empty. -/
def MonotonicQueue.max (q : MonotonicQueue) : Option CInt := q.getLast?

/-- The body of the loop of `maxSlidingWindow3`, with `q` and `res`. -/
def turn3 (nums : List CInt) (k : ℤ) (s : MonotonicQueue × List CInt) (i : ℕ) :
    Option (MonotonicQueue × List CInt) := do
  let q := MonotonicQueue.push s.1 (← get nums i)
  let left ← fit ((← fit (i - k)) + 1)
  if 0 ≤ left then
    let res := s.2 ++ [← MonotonicQueue.max q]
    if (← get nums left) = (← MonotonicQueue.max q) then some (← MonotonicQueue.pop q, res)
    else some (q, res)
  else some (q, s.2)

/-- The windows in a monotonic queue of values. -/
def maxSlidingWindow3 (nums : List CInt) (k : CInt) : Option (List CInt) := do
  let (_, res) ← exec (turn3 nums k.1) ([], []) (← counter nums.length)
  some res

/-- `while (!index.empty() && nums[i] >= nums[index.back()])` -/
def popLoop (nums : List CInt) (i : ℕ) : List ℕ → Option (List ℕ)
  | [] => some []
  | j :: index => do
    if (← get nums i) ≥ (← get nums j) then popLoop nums i index else some (j :: index)

/-- The body of the loop of `maxSlidingWindow4`, with `index` and `res`. -/
def turn4 (nums : List CInt) (k : ℤ) (s : List ℕ × List CInt) (i : ℕ) :
    Option (List ℕ × List CInt) := do
  let index := i :: (← popLoop nums i s.1)
  let left ← fit ((← fit (i - k)) + 1)
  let res ← if 0 ≤ left then do some (s.2 ++ [← get nums (← index.getLast?)]) else some s.2
  if left ≥ (← index.getLast?) then some (index.dropLast, res) else some (index, res)

/-- The windows in a monotonic queue of indices. -/
def maxSlidingWindow4 (nums : List CInt) (k : CInt) : Option (List CInt) := do
  let (_, res) ← exec (turn4 nums k.1) ([], []) (← counter nums.length)
  some res

example : maxSlidingWindow3 ([1, 3, -1, -3, 5, 3, 6, 7].map wrap) (wrap 3) =
    some ([3, 3, 5, 5, 6, 7].map wrap) := by decide

/-! ### Maxima of windows -/

variable {nums res window : List CInt} {k : CInt} {K i j lo hi : ℕ} {x : CInt} {q : MonotonicQueue}
  {index : List ℕ}

/-- The greatest elements of the windows of length `K` in the first `i` elements, from left to
right. -/
structure Maxima (nums : List CInt) (K i : ℕ) (res : List CInt) : Prop where
  length : res.length = i + 1 - K
  greatest : ∀ j x, res[j]? = some x → IsGreatest {y | y ∈ (nums.take (j + K)).drop j} x

/-- All four functions return the maxima of the windows. -/
def ReturnsMaxima (nums : List CInt) (k : CInt) : Prop :=
  ∃ res, Maxima nums k.1.toNat nums.length res ∧ maxSlidingWindow nums k = some res ∧
    maxSlidingWindow2 nums k = some res ∧ maxSlidingWindow3 nums k = some res ∧
    maxSlidingWindow4 nums k = some res

theorem Maxima.unique {res' : List CInt} (h : Maxima nums K i res) (h' : Maxima nums K i res') :
    res = res' := by
  refine List.ext_getElem (h.length.trans h'.length.symm) fun j hj hj' ↦ ?_
  exact (h.greatest j _ (List.getElem?_eq_getElem hj)).unique
    (h'.greatest j _ (List.getElem?_eq_getElem hj'))

theorem maxima_nil (nums : List CInt) (hi : i + 1 ≤ K) : Maxima nums K i [] where
  length := (Nat.sub_eq_zero_of_le hi).symm
  greatest j x hx := by cases hx

theorem Maxima.concat (h : Maxima nums K i res) (hK : K ≤ i + 1)
    (hx : IsGreatest {y | y ∈ (nums.take (i + 1)).drop (i + 1 - K)} x) :
    Maxima nums K (i + 1) (res ++ [x]) where
  length := by
    rw [List.length_append, List.length_singleton, h.length]
    omega
  greatest j y hy := by
    rcases lt_or_ge j res.length with hlt | hge
    · rw [List.getElem?_append_left hlt] at hy
      exact h.greatest j y hy
    · rw [List.getElem?_append_right hge, List.getElem?_singleton] at hy
      split at hy
      next heq =>
        obtain rfl := Option.some.inj hy
        have hlen := h.length
        obtain rfl : j = i + 1 - K := by omega
        rwa [Nat.sub_add_cancel hK]
      next => cases hy

/-- The values of a sequence in a window are the elements of a part of the vector. -/
theorem window_eq (hhi : hi ≤ nums.length) :
    MonotonicDeque.window (fun j ↦ nums.getD j (wrap 0)) lo hi =
      {y | y ∈ (nums.take hi).drop lo} := by
  ext y
  show (∃ j, lo ≤ j ∧ j < hi ∧ nums.getD j (wrap 0) = y) ↔ y ∈ (nums.take hi).drop lo
  rw [List.mem_drop_iff_getElem]
  have hlen : (nums.take hi).length = hi := List.length_take_of_le hhi
  constructor
  · rintro ⟨j, hlo, hlt, rfl⟩
    have hj : j < nums.length := hlt.trans_le hhi
    refine ⟨j - lo, by omega, ?_⟩
    rw [List.getElem_take, List.getD_eq_getElem _ _ hj]
    congr 1
    omega
  · rintro ⟨d, hd, rfl⟩
    have hj : d + lo < nums.length := by omega
    refine ⟨lo + d, Nat.le_add_right lo d, by omega, ?_⟩
    rw [List.getElem_take, List.getD_eq_getElem _ _ (by omega)]

theorem counterFrom_eq (hpos : 1 ≤ K) (hlt : nums.length < 2 ^ 31) :
    counterFrom (K - 1) nums.length = some ((List.range nums.length).drop (K - 1)) := by
  have hcount : ((K : ℤ) - 1).toNat = K - 1 := by omega
  rw [counterFrom, if_neg (by omega), counter, if_pos hlt, hcount]
  rfl

/-! ### The functions that look at the whole window -/

/-- The elements of the window that ends with index `i`. -/
theorem range_window (hpos : 1 ≤ K) (hK : K ≤ i + 1) (hi : i < nums.length) :
    range nums (i - K + 1) (i + 1) = some ((nums.take (i + 1)).drop (i + 1 - K)) := by
  have hfirst : (i : ℤ) - K + 1 = (i + 1 - K : ℕ) := by omega
  have hlast : (i : ℤ) + 1 = (i + 1 : ℕ) := by omega
  rw [hfirst, hlast, range_eq (by omega) hi]

theorem turn_spec (hpos : 1 ≤ K) (hK : K ≤ i + 1) (hi : i < nums.length)
    (h : Maxima nums K i res) :
    ∃ res', turn nums K res i = some res' ∧ Maxima nums K (i + 1) res' := by
  have hne : (nums.take (i + 1)).drop (i + 1 - K) ≠ [] := by
    refine List.ne_nil_of_length_pos ?_
    rw [List.length_drop, List.length_take_of_le hi]
    omega
  obtain ⟨x, hx⟩ := Option.isSome_iff_exists.1 (List.isSome_max?_of_ne_nil hne)
  refine ⟨res ++ [x], ?_, h.concat hK (List.max?_eq_some_iff.1 hx)⟩
  rw [turn, range_window hpos hK hi, Option.bind_eq_bind, Option.bind_some, hx]
  rfl

theorem maxSlidingWindow_spec (hk : k.1 = K) (hpos : 1 ≤ K) (hK : K ≤ nums.length)
    (hlt : nums.length < 2 ^ 31) :
    ∃ res, maxSlidingWindow nums k = some res ∧ Maxima nums K nums.length res := by
  obtain ⟨res, hres, h⟩ := exists_exec_drop_range (n := nums.length) (by omega)
    (fun i res hle hi h ↦ turn_spec hpos (by omega) hi h)
    (maxima_nil nums (Nat.sub_add_cancel hpos).le)
  refine ⟨res, ?_, h⟩
  rw [maxSlidingWindow, hk, fit_eq (by omega), Option.bind_eq_bind, Option.bind_some,
    counterFrom_eq hpos hlt, Option.bind_eq_bind, Option.bind_some]
  exact hres

theorem part_concat (hx : nums[i]? = some x) (hlo : lo ≤ i) :
    (nums.take (i + 1)).drop lo = (nums.take i).drop lo ++ [x] := by
  obtain ⟨hi, rfl⟩ := List.getElem?_eq_some_iff.1 hx
  rw [List.take_succ_eq_append_getElem hi, List.drop_append_of_le_length]
  rwa [List.length_take_of_le hi.le]

theorem part_cons (hx : nums[lo]? = some x) (hlo : lo < hi) :
    (nums.take hi).drop lo = x :: (nums.take hi).drop (lo + 1) := by
  obtain ⟨hlt, rfl⟩ := List.getElem?_eq_some_iff.1 hx
  have hlt' : lo < (nums.take hi).length := by
    rw [List.length_take]
    omega
  rw [List.drop_eq_getElem_cons hlt', List.getElem_take]

/-- Erasing by position is erasing the value. -/
theorem eraseFirst_eq (hsorted : window.Pairwise (· ≤ ·)) (hx : x ∈ window) :
    eraseFirst window x = some (window.erase x) := by
  have hlt := List.idxOf_lt_length_iff.2 hx
  have hfirst : window.findIdx (fun y ↦ ¬ y < x) = window.idxOf x := by
    refine (List.findIdx_eq hlt).2 ⟨?_, fun j hj ↦ ?_⟩
    · rw [List.getElem_idxOf hlt]
      exact decide_eq_true (lt_irrefl x)
    · have hle := List.pairwise_iff_getElem.1 hsorted j _ (hj.trans hlt) hlt hj
      rw [List.getElem_idxOf hlt] at hle
      have hne := List.not_of_lt_findIdx hj
      rw [beq_eq_false_iff_ne] at hne
      rw [decide_eq_false_iff_not, not_not]
      exact hle.lt_of_ne hne
  rw [eraseFirst, hfirst, if_pos hlt, List.erase_eq_eraseIdx_of_idxOf rfl]

/-- **The multiset** has the window without its last element before the turn. -/
structure Holds2 (nums : List CInt) (K i : ℕ) (s : List CInt × List CInt) : Prop where
  sorted : s.1.Pairwise (· ≤ ·)
  perm : s.1.Perm ((nums.take i).drop (i + 1 - K))
  maxima : Maxima nums K i s.2

theorem turn2_spec {s : List CInt × List CInt} (hpos : 1 ≤ K) (hK : K ≤ i + 1)
    (hi : i < nums.length) (hint : nums.length < 2 ^ 31) (h : Holds2 nums K i s) :
    ∃ s', turn2 nums K s i = some s' ∧ Holds2 nums K (i + 1) s' := by
  obtain ⟨x, hx⟩ : ∃ x, nums[i]? = some x := ⟨_, List.getElem?_eq_getElem hi⟩
  obtain ⟨z, hz⟩ : ∃ z, nums[i + 1 - K]? = some z :=
    ⟨_, List.getElem?_eq_getElem (by omega)⟩
  have hsorted := h.sorted.orderedInsert x _
  have hperm : (s.1.orderedInsert (· ≤ ·) x).Perm ((nums.take (i + 1)).drop (i + 1 - K)) := by
    rw [part_concat hx (by omega)]
    exact (List.perm_orderedInsert _ x s.1).trans
      ((h.perm.cons x).trans (List.perm_append_singleton x _).symm)
  have hmem : z ∈ s.1.orderedInsert (· ≤ ·) x := by
    rw [hperm.mem_iff, part_cons hz (by omega)]
    exact List.mem_cons_self
  obtain ⟨y, hy⟩ := Option.isSome_iff_exists.1 (List.getLast?_isSome.2 (List.ne_nil_of_mem hmem))
  have hgreatest : IsGreatest {y | y ∈ (nums.take (i + 1)).drop (i + 1 - K)} y := by
    refine ⟨hperm.mem_iff.1 (List.mem_of_getLast? hy), fun w hw ↦ ?_⟩
    obtain ⟨front, hfront⟩ := List.getLast?_eq_some_iff.1 hy
    have hw' := hperm.mem_iff.2 hw
    rw [hfront] at hw' hsorted
    rcases List.mem_append.1 hw' with hw' | hw'
    · exact (List.pairwise_append.1 hsorted).2.2 w hw' y (List.mem_singleton_self y)
    · exact (List.mem_singleton.1 hw').le
  have hleft : (i : ℤ) - K + 1 = (i + 1 - K : ℕ) := by omega
  refine ⟨((s.1.orderedInsert (· ≤ ·) x).erase z, s.2 ++ [y]), ?_,
    hsorted.sublist List.erase_sublist, ?_, h.maxima.concat hK hgreatest⟩
  · rw [turn2, get_natCast, hx, fit_eq (by omega)]
    simp only [Option.bind_eq_bind, Option.bind_some]
    rw [hy, fit_eq (by omega), hleft]
    simp only [Option.bind_some]
    rw [get_natCast, hz, Option.bind_some, eraseFirst_eq hsorted hmem]
    rfl
  · have herase := hperm.erase z
    rw [part_cons hz (by omega), List.erase_cons_head, ← Nat.sub_add_comm hK] at herase
    exact herase

theorem maxSlidingWindow2_spec (hk : k.1 = K) (hpos : 1 ≤ K) (hK : K ≤ nums.length)
    (hlt : nums.length < 2 ^ 31) :
    ∃ res, maxSlidingWindow2 nums k = some res ∧ Maxima nums K nums.length res := by
  have hstart : Holds2 nums K (K - 1) ((nums.take (K - 1)).insertionSort (· ≤ ·), []) := by
    refine ⟨List.pairwise_insertionSort _ _, ?_, maxima_nil nums (Nat.sub_add_cancel hpos).le⟩
    rw [Nat.sub_add_cancel hpos, Nat.sub_self, List.drop_zero]
    exact List.perm_insertionSort _ _
  obtain ⟨s, hs, h⟩ := exists_exec_drop_range (n := nums.length) (by omega)
    (fun i s hle hi h ↦ turn2_spec hpos (by omega) hi hlt h) hstart
  have hrange : range nums 0 (K - 1) = some (nums.take (K - 1)) := by
    have hlast : (K : ℤ) - 1 = (K - 1 : ℕ) := by omega
    rw [hlast]
    exact range_eq (Nat.zero_le _) (by omega)
  refine ⟨s.2, ?_, h.maxima⟩
  rw [maxSlidingWindow2, if_neg (List.ne_nil_of_length_pos (by omega)), hk, fit_eq (by omega)]
  simp only [Option.bind_eq_bind, Option.bind_some]
  rw [hrange, counterFrom_eq hpos hlt]
  simp only [Option.bind_some]
  rw [hs, Option.bind_some]

/-! ### The functions with a deque -/

/-- The next result, if the window is complete. -/
theorem Maxima.next {R : CInt → CInt → Prop} (hR : Lawful R) (h : Maxima nums K i res)
    (hK : K ≤ i + 1) (hi : i < nums.length)
    (hcand : Candidates R (element nums) (i + 1 - K) (i + 1) index)
    (hj : index.getLast? = some j) : Maxima nums K (i + 1) (res ++ [element nums j]) :=
  h.concat hK (window_eq hi ▸ hcand.isGreatest hR hj)

/-- No result, if it is not. -/
theorem Maxima.skip (h : Maxima nums K i res) (hK : i + 1 < K) : Maxima nums K (i + 1) res where
  length := by
    rw [h.length]
    omega
  greatest := h.greatest

/-- **The deque of values** before the turn. -/
structure Holds3 (nums : List CInt) (K i : ℕ) (s : MonotonicQueue × List CInt) : Prop where
  queue : ∃ index, Candidates (· ≤ ·) (element nums) (i + 1 - K) i index ∧
    s.1 = index.map (element nums)
  maxima : Maxima nums K i s.2

theorem push_map (nums : List CInt) (i : ℕ) (index : List ℕ) :
    MonotonicQueue.push (index.map (element nums)) (element nums i) =
      (i :: index.dropWhile fun j ↦ !decide (element nums i ≤ element nums j)).map
        (element nums) := by
  have hpred : ((fun y ↦ decide (y < element nums i)) ∘ element nums) =
      fun j ↦ !decide (element nums i ≤ element nums j) := by
    funext j
    rw [Function.comp_apply, ← decide_not]
    exact decide_eq_decide.2 not_le.symm
  rw [MonotonicQueue.push, List.dropWhile_map, hpred, List.map_cons]

theorem turn3_spec {s : MonotonicQueue × List CInt} (hpos : 1 ≤ K) (hKint : K < 2 ^ 31)
    (hi : i < nums.length) (hint : nums.length < 2 ^ 31) (h : Holds3 nums K i s) :
    ∃ s', turn3 nums K s i = some s' ∧ Holds3 nums K (i + 1) s' := by
  obtain ⟨index, hcand, hq⟩ := h.queue
  have hpush := hcand.push lawful_le (by omega)
  have hmap := push_map nums i index
  generalize (i :: index.dropWhile fun j ↦ !decide (element nums i ≤ element nums j)) = index'
    at hpush hmap
  simp only [turn3, get_element hi, hq, fit_eq (n := (i : ℤ) - K) (by omega),
    fit_eq (n := (i : ℤ) - K + 1) (by omega), hmap, Option.bind_eq_bind, Option.bind_some]
  by_cases hK : K ≤ i + 1
  · have hleft : (i : ℤ) - K + 1 = (i + 1 - K : ℕ) := by omega
    have hlo : i + 1 - K + 1 = i + 1 + 1 - K := (Nat.sub_add_comm hK).symm
    obtain ⟨j, hj, -⟩ := hpush.exists_front (by omega)
    have hmax : MonotonicQueue.max (index'.map (element nums)) = some (element nums j) := by
      rw [MonotonicQueue.max, List.getLast?_map, hj, Option.map_some]
    have hleave := hlo ▸ hpush.leave hj
    have hfront := hpush.front_eq_iff hj
    have hnext := h.maxima.next lawful_le hK hi hpush hj
    have hne : index'.map (element nums) ≠ [] := by
      rintro hnil
      rw [hnil] at hmax
      cases hmax
    rw [if_pos (by omega), hleft, get_element (by omega), hmax]
    simp only [Option.bind_some]
    by_cases heq : element nums (i + 1 - K) = element nums j
    · rw [if_pos (hfront.1 heq)] at hleave
      rw [if_pos heq, MonotonicQueue.pop, if_neg hne, ← List.map_dropLast]
      exact ⟨_, rfl, ⟨_, hleave, rfl⟩, hnext⟩
    · rw [if_neg (mt hfront.2 heq)] at hleave
      rw [if_neg heq]
      exact ⟨_, rfl, ⟨_, hleave, rfl⟩, hnext⟩
  · have hlo : i + 1 - K = i + 1 + 1 - K := by omega
    rw [if_neg (by omega)]
    exact ⟨_, rfl, ⟨_, hlo ▸ hpush, rfl⟩, h.maxima.skip (by omega)⟩

theorem maxSlidingWindow3_spec (hk : k.1 = K) (hpos : 1 ≤ K) (hlt : nums.length < 2 ^ 31) :
    ∃ res, maxSlidingWindow3 nums k = some res ∧ Maxima nums K nums.length res := by
  have hKint : K < 2 ^ 31 := by
    have := k.2.2
    omega
  have hstart : Holds3 nums K 0 ([], []) := by
    refine ⟨⟨[], ?_, rfl⟩, maxima_nil nums (by omega)⟩
    rw [Nat.sub_eq_zero_of_le (by omega)]
    exact candidates_nil _ _ 0
  obtain ⟨s, hs, h⟩ := exists_exec_range
    (fun i s hi h ↦ turn3_spec hpos hKint hi hlt h) hstart
  refine ⟨s.2, ?_, h.maxima⟩
  rw [maxSlidingWindow3, counter, if_pos hlt, hk]
  simp only [Option.bind_eq_bind, Option.bind_some]
  rw [hs, Option.bind_some]

/-- **The deque of indices** before the turn. -/
structure Holds4 (nums : List CInt) (K i : ℕ) (s : List ℕ × List CInt) : Prop where
  index : Candidates (· < ·) (element nums) (i + 1 - K) i s.1
  maxima : Maxima nums K i s.2

theorem popLoop_eq (hi : i < nums.length) (hindex : ∀ j ∈ index, j < nums.length) :
    popLoop nums i index =
      some (index.dropWhile fun j ↦ !decide (element nums i < element nums j)) := by
  induction index with
  | nil => rfl
  | cons j index ih =>
    have hj := hindex j List.mem_cons_self
    rw [popLoop, get_element hi, get_element hj]
    simp only [Option.bind_eq_bind, Option.bind_some]
    by_cases hle : element nums j ≤ element nums i
    · rw [if_pos hle, ih fun l hl ↦ hindex l (List.mem_cons_of_mem j hl),
        List.dropWhile_cons_of_pos]
      rw [decide_eq_false (not_lt.2 hle)]
      rfl
    · rw [if_neg hle, List.dropWhile_cons_of_neg]
      rw [decide_eq_true (not_le.1 hle)]
      exact Bool.false_ne_true

theorem turn4_spec {s : List ℕ × List CInt} (hpos : 1 ≤ K) (hKint : K < 2 ^ 31)
    (hi : i < nums.length) (hint : nums.length < 2 ^ 31) (h : Holds4 nums K i s) :
    ∃ s', turn4 nums K s i = some s' ∧ Holds4 nums K (i + 1) s' := by
  have hpush := h.index.push lawful_lt (by omega)
  have hpop := popLoop_eq hi fun j hj ↦ (((h.index.mem_iff j).1 hj).2.1).trans hi
  generalize s.1.dropWhile (fun j ↦ !decide (element nums i < element nums j)) = rest
    at hpush hpop
  obtain ⟨j, hj, hlo, hjlt, -⟩ := hpush.exists_front (by omega)
  have hleave := hpush.leave hj
  simp only [turn4, hpop, fit_eq (n := (i : ℤ) - K) (by omega),
    fit_eq (n := (i : ℤ) - K + 1) (by omega), hj, get_element (hjlt.trans_le hi),
    Option.bind_eq_bind, Option.bind_some]
  by_cases hK : K ≤ i + 1
  · have hlo' : i + 1 - K + 1 = i + 1 + 1 - K := (Nat.sub_add_comm hK).symm
    have hnext := h.maxima.next lawful_lt hK hi hpush hj
    rw [hlo'] at hleave
    rw [if_pos (by omega)]
    split
    next hge =>
      rw [if_pos (by omega)] at hleave
      exact ⟨_, rfl, hleave, hnext⟩
    next hlt =>
      rw [if_neg (by omega)] at hleave
      exact ⟨_, rfl, hleave, hnext⟩
  · have hlo' : i + 1 - K = i + 1 + 1 - K := by omega
    rw [if_neg (by omega), if_neg (by omega)]
    exact ⟨_, rfl, hlo' ▸ hpush, h.maxima.skip (by omega)⟩

theorem maxSlidingWindow4_spec (hk : k.1 = K) (hpos : 1 ≤ K) (hlt : nums.length < 2 ^ 31) :
    ∃ res, maxSlidingWindow4 nums k = some res ∧ Maxima nums K nums.length res := by
  have hKint : K < 2 ^ 31 := by
    have := k.2.2
    omega
  have hstart : Holds4 nums K 0 ([], []) := by
    refine ⟨?_, maxima_nil nums (by omega)⟩
    rw [Nat.sub_eq_zero_of_le (by omega)]
    exact candidates_nil _ _ 0
  obtain ⟨s, hs, h⟩ := exists_exec_range
    (fun i s hi h ↦ turn4_spec hpos hKint hi hlt h) hstart
  refine ⟨s.2, ?_, h.maxima⟩
  rw [maxSlidingWindow4, counter, if_pos hlt, hk]
  simp only [Option.bind_eq_bind, Option.bind_some]
  rw [hs, Option.bind_some]

/-! ### All functions -/

/-- **The functions agree** exactly if the size of the vector is an `int`. -/
theorem maxSlidingWindow_iff (nums : List CInt) (k : CInt) (hpos : 1 ≤ k.1)
    (hle : k.1 ≤ nums.length) : ReturnsMaxima nums k ↔ nums.length < 2 ^ 31 := by
  constructor
  · rintro ⟨res, -, -, -, h3, -⟩
    obtain ⟨is, his, -⟩ := Option.bind_eq_some_iff.1 h3
    exact lt_of_counter his
  · intro hlt
    have hk : k.1 = k.1.toNat := (Int.toNat_of_nonneg (by omega)).symm
    have hpos' : 1 ≤ k.1.toNat := by omega
    have hle' : k.1.toNat ≤ nums.length := by omega
    obtain ⟨res, h1, hres⟩ := maxSlidingWindow_spec hk hpos' hle' hlt
    obtain ⟨res2, h2, hres2⟩ := maxSlidingWindow2_spec hk hpos' hle' hlt
    obtain ⟨res3, h3, hres3⟩ := maxSlidingWindow3_spec hk hpos' hlt
    obtain ⟨res4, h4, hres4⟩ := maxSlidingWindow4_spec hk hpos' hlt
    obtain rfl := hres.unique hres2
    obtain rfl := hres.unique hres3
    obtain rfl := hres.unique hres4
    exact ⟨res, hres, h1, h2, h3, h4⟩

/-- The vector of `main`. -/
theorem maxSlidingWindow_iff_eight :
    ReturnsMaxima ([1, 3, -1, -3, 5, 3, 6, 7].map wrap) (wrap 3) ↔ 8 < 2 ^ 31 :=
  maxSlidingWindow_iff ([1, 3, -1, -3, 5, 3, 6, 7].map wrap) (wrap 3) (by decide) (by decide)

/-- `2 ^ 31` zeros and windows of length 1. -/
theorem not_forall_returnsMaxima :
    ¬ ∀ (nums : List CInt) (k : CInt), 1 ≤ k.1 → k.1 ≤ nums.length → ReturnsMaxima nums k := by
  intro h
  obtain ⟨nums, hnums⟩ : ∃ nums, List.replicate (2 ^ 31) (wrap 0) = nums := ⟨_, rfl⟩
  have hlen : nums.length = 2 ^ 31 := by rw [← hnums, List.length_replicate]
  have hone : (wrap 1).1 = 1 := rfl
  obtain ⟨res, -, -, -, h3, -⟩ := h nums (wrap 1) hone.ge (by omega)
  obtain ⟨is, his, -⟩ := Option.bind_eq_some_iff.1 h3
  have hlt := lt_of_counter his
  omega

end SlidingWindowMaximum
