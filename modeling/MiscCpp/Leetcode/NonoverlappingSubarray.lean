import Mathlib.Algebra.Ring.Int.Defs
import MiscCpp.Library.Counters
import MiscCpp.Library.Machine
import MiscCpp.Library.ShortestSpans

/-!
# Two disjoint subarrays with a given sum

`minSumOfLengths` of `leetcode/DP/nonoverlappingSubarrayWithTargetSum.cc`, with the conversions
between `int` and `size_t`. The sums are exact.

The map has the last position of each sum so far (`Recorded`), so for each end the latest start of
a subarray, which gives the shortest one with the most room in front. The value `n + 1` in the
table and in `res` stands for there being none; converted to `int` it can be the least value
instead, and then no subarray is found (`minSumOfLengths_spec`).
-/

open Access CInt Machine ShortestSpans

namespace NonoverlappingSubarray

/-! ### The program -/

/-- The function before the turn for `i`; `cnt` is an `unordered_map`. -/
structure State where
  sum : ℤ
  cnt : ℤ → Option ℤ
  dp : List ℤ
  res : ℤ

/-- `x > n` for an `int` and a `size_t`. -/
def exceeds (x : ℤ) (n : ℕ) : Bool := n < x % 2 ^ 64

/-- `if (last >= 0 && dp[last] <= n) res = std::min(i - last + dp[last], res);` -/
def join (n : ℕ) (dp : List ℤ) (i last res : ℤ) : Option ℤ :=
  if 0 ≤ last then do
    let before ← get dp last
    if exceeds before n then some res
    else some (min (← fit ((← fit (i - last)) + before)) res)
  else some res

/-- `if (i > 0) dp[i] = dp[i - 1];` -/
def carry (dp : List ℤ) (i : ℕ) : Option (List ℤ) :=
  if 0 < i then do put dp i (← get dp (i - 1)) else some dp

/-- The body of the loop. -/
def turn (nums : List CInt) (target : CInt) (s : State) (i : ℕ) : Option State := do
  let sum := s.sum + (← get nums i).1
  let cnt := Function.update s.cnt sum (some ↑i)
  let dp ← carry s.dp i
  match cnt (sum - target.1) with
  | none => some ⟨sum, cnt, dp, s.res⟩
  | some last =>
    let res ← join nums.length dp i last s.res
    let dp ← put dp i (min (← get dp i) (← fit (i - last)))
    some ⟨sum, cnt, dp, res⟩

/-- `n + 1` as an `int`. -/
def unset (n : ℕ) : ℤ := (wrap (n + 1)).1

def minSumOfLengths (nums : List CInt) (target : CInt) : Option ℤ := do
  let n := nums.length
  let start : State :=
    ⟨0, Function.update (fun _ ↦ none) 0 (some (-1)), List.replicate n (unset n), unset n⟩
  let s ← exec (turn nums target) start (← counter n)
  some (if exceeds s.res n then -1 else s.res)

example : minSumOfLengths ([3, 1, 1, 1, 5, 1, 2, 1].map wrap) (wrap 3) = some 3 := by
  decide +kernel
/-! ### What has been recorded -/

variable {nums : List CInt} {target : CInt} {s : State} {k n : ℕ} {dp : List ℤ} {i last x r : ℤ}

/-- The sum of the first `k` elements. -/
def total (nums : List CInt) (k : ℕ) : ℤ := ((nums.take k).map Subtype.val).sum

/-- The elements from `i` on up to `j` have the sum `target`. -/
def Sums (nums : List CInt) (target : CInt) (i j : ℕ) : Prop :=
  (((nums.take j).drop i).map Subtype.val).sum = target.1

theorem total_succ (hk : k < nums.length) : total nums (k + 1) = total nums k + nums[k].1 := by
  rw [total, List.take_succ_eq_append_getElem hk, List.map_append, List.sum_append,
    List.map_singleton, List.sum_singleton]
  rfl

theorem sums_iff {i j : ℕ} (hij : i ≤ j) :
    Sums nums target i j ↔ total nums i = total nums j - target.1 := by
  have htake : nums.take i = (nums.take j).take i := by rw [List.take_take, Nat.min_eq_left hij]
  have hsplit : total nums j = total nums i + (((nums.take j).drop i).map Subtype.val).sum := by
    rw [total, total, htake, ← List.sum_append, ← List.map_append, List.take_append_drop]
  rw [Sums, hsplit]
  omega

/-- `sum` and `cnt` after `k` elements: `cnt` has the last index with each sum, and `-1` for the sum
of no elements. -/
structure Recorded (nums : List CInt) (k : ℕ) (sum : ℤ) (cnt : ℤ → Option ℤ) : Prop where
  sum_eq : sum = total nums k
  last : ∀ v p, cnt v = some p → ∃ j : ℕ, p = j - 1 ∧ IsGreatest {j | j ≤ k ∧ total nums j = v} j
  not_of_none : ∀ v, cnt v = none → ∀ j ≤ k, total nums j ≠ v

theorem recorded_zero (nums : List CInt) :
    Recorded nums 0 0 (Function.update (fun _ ↦ none) 0 (some (-1))) where
  sum_eq := rfl
  last v p hp := by
    rcases eq_or_ne v 0 with rfl | hne
    · rw [Function.update_self] at hp
      exact ⟨0, (Option.some.inj hp).symm, ⟨le_rfl, rfl⟩, fun j hj ↦ hj.1⟩
    · rw [Function.update_of_ne hne] at hp
      cases hp
  not_of_none v hv j hj := by
    rcases eq_or_ne v 0 with rfl | hne
    · rw [Function.update_self] at hv
      cases hv
    · obtain rfl : j = 0 := by omega
      exact hne.symm

theorem Recorded.next {sum : ℤ} {cnt : ℤ → Option ℤ} (h : Recorded nums k sum cnt)
    (hk : k < nums.length) :
    Recorded nums (k + 1) (sum + nums[k].1)
      (Function.update cnt (sum + nums[k].1) (some ↑k)) := by
  have hsum : sum + nums[k].1 = total nums (k + 1) := by rw [total_succ hk, h.sum_eq]
  rw [hsum]
  refine ⟨rfl, fun v p hp ↦ ?_, fun v hv j hj ↦ ?_⟩
  · rcases eq_or_ne v (total nums (k + 1)) with rfl | hne
    · rw [Function.update_self] at hp
      exact ⟨k + 1, by rw [← Option.some.inj hp]; omega, ⟨le_rfl, rfl⟩, fun j hj ↦ hj.1⟩
    · rw [Function.update_of_ne hne] at hp
      obtain ⟨j, rfl, ⟨hj, hval⟩, hgreatest⟩ := h.last v p hp
      refine ⟨j, rfl, ⟨by omega, hval⟩, fun j' ⟨hj', hval'⟩ ↦ hgreatest ⟨?_, hval'⟩⟩
      rcases hj'.lt_or_eq with hlt | rfl
      · omega
      · exact absurd hval'.symm hne
  · rcases eq_or_ne v (total nums (k + 1)) with rfl | hne
    · rw [Function.update_self] at hv
      cases hv
    · rw [Function.update_of_ne hne] at hv
      rcases hj.lt_or_eq with hlt | rfl
      · exact h.not_of_none v hv j (by omega)
      · exact hne.symm

/-- The last index with the sum in front is the latest start. -/
theorem Recorded.isLatest {cnt : ℤ → Option ℤ} (h : Recorded nums (k + 1) x cnt)
    (htarget : target.1 ≠ 0) (hlast : cnt (x - target.1) = some last) :
    ∃ j : ℕ, last = j - 1 ∧ IsLatest (Sums nums target) (k + 1) j := by
  obtain ⟨j, hj, ⟨hle, hval⟩, hgreatest⟩ := h.last _ _ hlast
  rw [h.sum_eq] at hval hgreatest
  have hne : j ≠ k + 1 := by
    rintro rfl
    omega
  exact ⟨j, hj, ⟨by omega, (sums_iff hle).2 hval⟩,
    fun i hi ↦ hgreatest ⟨hi.1.le, (sums_iff hi.1.le).1 hi.2⟩⟩

theorem Recorded.not_sums {cnt : ℤ → Option ℤ} (h : Recorded nums (k + 1) x cnt)
    (hnone : cnt (x - target.1) = none) : ∀ i < k + 1, ¬ Sums nums target i (k + 1) := by
  intro i hi hsums
  refine h.not_of_none _ hnone i hi.le ?_
  rw [h.sum_eq]
  exact (sums_iff hi.le).1 hsums

/-! ### The loop -/

theorem unset_eq (hn : n < 2 ^ 31) :
    n < 2 ^ 31 - 1 ∧ unset n = n + 1 ∨ n = 2 ^ 31 - 1 ∧ unset n = -2 ^ 31 := by
  have hmod := wrap_mod (n + 1)
  have hbounds := (wrap (n + 1)).2
  rw [unset]
  omega

/-- The comparison finds out whether a value has been set. -/
theorem exceeds_eq (hn : n < 2 ^ 31) (hx : x = unset n ∨ 0 ≤ x ∧ x ≤ n) :
    exceeds x n = decide (x = unset n) := by
  have hunset := unset_eq hn
  rw [exceeds, decide_eq_decide]
  omega

/-- What an element of `dp` has been set to. -/
def Shortest (nums : List CInt) (target : CInt) (i x : ℤ) : Prop :=
  IsLeast (insert (unset nums.length) (lengths (Sums nums target) (i + 1).toNat)) x

/-- What the other elements of `dp` have. -/
def Initial (n : ℕ) (i x : ℤ) : Prop := i = 0 → x = unset n

structure Holds (nums : List CInt) (target : CInt) (k : ℕ) (s : State) : Prop where
  recorded : Recorded nums k s.sum s.cnt
  dp : Entries nums.length (Split k (Shortest nums target) (Initial nums.length)) s.dp
  res : IsLeast (insert (unset nums.length) (pairs (Sums nums target) k)) s.res

theorem holds_zero (nums : List CInt) (target : CInt) :
    Holds nums target 0 ⟨0, Function.update (fun _ ↦ none) 0 (some (-1)),
      List.replicate nums.length (unset nums.length), unset nums.length⟩ where
  recorded := recorded_zero nums
  dp := entries_split_zero_iff.2 (entries_replicate fun _ _ _ _ ↦ rfl)
  res := by
    dsimp only
    rw [pairs_zero, insert_empty_eq]
    exact isLeast_singleton

theorem carry_spec (h : Holds nums target k s) (hk : k < nums.length) :
    ∃ dp, carry s.dp k = some dp ∧
      Entries nums.length (Split k (Shortest nums target) (Initial nums.length)) dp ∧
      ∃ x, get dp k = some x ∧
        IsLeast (insert (unset nums.length) (lengths (Sums nums target) k)) x := by
  rcases k.eq_zero_or_pos with rfl | hpos
  · obtain ⟨x, hx, hprop⟩ := h.dp.exists_get le_rfl (by omega)
    refine ⟨s.dp, if_neg (Nat.lt_irrefl 0), h.dp, x, hx, ?_⟩
    rw [lengths_zero, insert_empty_eq, hprop.2 le_rfl rfl]
    exact isLeast_singleton
  · obtain ⟨x, hx, hprop⟩ := h.dp.exists_get (i := k - 1) (by omega) (by omega)
    have hleast := hprop.1 (by omega)
    have hindex : ((k : ℤ) - 1 + 1).toNat = k := by omega
    rw [Shortest, hindex] at hleast
    obtain ⟨dp, hput, hdp⟩ := h.dp.put (i := k) (b := x) (Q := Split k (Shortest nums target)
      (Initial nums.length)) (by omega) (by omega)
      ⟨fun hlt ↦ by omega, fun _ hzero ↦ by omega⟩ fun _ _ _ hy ↦ hy
    obtain ⟨⟨y, hy⟩, rfl⟩ := put_eq_some hput
    refine ⟨_, ?_, hdp, x, get_set_self hy x, hleast⟩
    rw [carry, if_pos hpos, hx, Option.bind_eq_bind, Option.bind_some, hput]

/-- Two subarrays, of which the second one has the latest start. -/
theorem join_spec (hk : k < nums.length) (hn : nums.length < 2 ^ 31)
    (hdp : Entries nums.length (Split k (Shortest nums target) (Initial nums.length)) dp)
    (hres : IsLeast (insert (unset nums.length) (pairs (Sums nums target) k)) r) {j : ℕ}
    (hj : IsLatest (Sums nums target) (k + 1) j) :
    ∃ r', join nums.length dp k (j - 1) r = some r' ∧
      IsLeast (insert (unset nums.length) (pairs (Sums nums target) (k + 1))) r' := by
  have hjk : j < k + 1 := hj.1.1
  rcases j.eq_zero_or_pos with rfl | hpos
  · refine ⟨r, if_neg (by omega), isLeast_pairs_succ_of_eq hres hj ?_⟩
    rw [lengths_zero, insert_empty_eq]
    exact isLeast_singleton
  · obtain ⟨x, hx, hprop⟩ := hdp.exists_get (i := j - 1) (by omega) (by omega)
    have hleast := hprop.1 (by omega)
    have hindex : ((j : ℤ) - 1 + 1).toNat = j := by omega
    rw [Shortest, hindex] at hleast
    have hjoin : join nums.length dp k (j - 1) r = (if exceeds x nums.length then some r else
        (fit (k - (j - 1))).bind fun d ↦ (fit (d + x)).bind fun d ↦ some (min d r)) := by
      rw [join, if_pos (by omega), hx]
      rfl
    rw [hjoin]
    by_cases hunset : x = unset nums.length
    · rw [exceeds_eq hn (Or.inl hunset), decide_eq_true hunset, if_pos rfl]
      rw [hunset] at hleast
      exact ⟨r, rfl, isLeast_pairs_succ_of_eq hres hj hleast⟩
    · have hbounds := lengths_bounds (hleast.1.resolve_left hunset)
      rw [exceeds_eq hn (Or.inr (by omega)), decide_eq_false hunset, if_neg (by decide),
        fit_eq (by omega), Option.bind_some, fit_eq (by omega), Option.bind_some]
      refine ⟨_, rfl, ?_⟩
      have hlen : (k : ℤ) - (j - 1) = (k + 1 : ℕ) - j := by omega
      rw [hlen]
      exact isLeast_pairs_succ hres hj hleast hunset

theorem turn_spec (htarget : target.1 ≠ 0) (hn : nums.length < 2 ^ 31) (hk : k < nums.length)
    (h : Holds nums target k s) :
    ∃ s', turn nums target s k = some s' ∧ Holds nums target (k + 1) s' := by
  obtain ⟨dp, hcarry, hdp, x, hx, hleast⟩ := carry_spec h hk
  have hrecorded := h.recorded.next hk
  have hget : get nums k = some nums[k] := by rw [get_natCast, List.getElem?_eq_getElem]
  have hindex : ((k : ℤ) + 1).toNat = k + 1 := by omega
  obtain ⟨cnt, hcnt⟩ : ∃ cnt, Function.update s.cnt (s.sum + nums[k].1) (some ↑k) = cnt :=
    ⟨_, rfl⟩
  rw [hcnt] at hrecorded
  simp only [turn, Option.bind_eq_bind, hget, Option.bind_some, hcarry, hcnt]
  cases hlast : cnt (s.sum + nums[k].1 - target.1) with
  | none =>
    have hnot := hrecorded.not_sums hlast
    refine ⟨⟨s.sum + nums[k].1, cnt, dp, s.res⟩, rfl, hrecorded, hdp.keep hx ?_, ?_⟩
    · rwa [Shortest, hindex, lengths_succ_of_not hnot]
    · rw [pairs_succ_of_not hnot]
      exact h.res
  | some last =>
    obtain ⟨j, rfl, hj⟩ := hrecorded.isLatest htarget hlast
    obtain ⟨r, hjoin, hr⟩ := join_spec hk hn hdp h.res hj
    have hlen : (k : ℤ) - (j - 1) = (k + 1 : ℕ) - j := by omega
    have hjk : j < k + 1 := hj.1.1
    have hfit : fit (k - (j - 1)) = some ((k + 1 : ℕ) - j : ℤ) := by
      rw [hlen]
      exact fit_eq (by omega)
    have hmin : Shortest nums target k (min x ((k + 1 : ℕ) - j)) := by
      rw [Shortest, hindex]
      exact isLeast_lengths_succ hleast hj
    obtain ⟨dp', hput, hdp'⟩ := hdp.put_up (Int.natCast_nonneg k) (by omega) hmin
    refine ⟨⟨s.sum + nums[k].1, cnt, dp', r⟩, ?_, hrecorded, hdp', hr⟩
    simp only [hjoin, Option.bind_some, hx, hfit, hput]

/-! ### The function -/

/-- The least total length of two disjoint subarrays with the sum `target` is returned, and `-1` if
there are none. -/
def FindsSum (nums : List CInt) (target : CInt) : Prop :=
  (∃ d, minSumOfLengths nums target = some d ∧
      IsLeast (pairs (Sums nums target) nums.length) d) ∨
    pairs (Sums nums target) nums.length = ∅ ∧ minSumOfLengths nums target = some (-1)

theorem lt_of_minSumOfLengths (h : minSumOfLengths nums target = some r) :
    nums.length < 2 ^ 31 := by
  obtain ⟨is, his, -⟩ := Option.bind_eq_some_iff.1 h
  exact lt_of_counter his

/-- The least total length, also if it is compared with the least `int`. -/
theorem minSumOfLengths_spec (htarget : target.1 ≠ 0) (hn : nums.length < 2 ^ 31) :
    ∃ r, IsLeast (insert (unset nums.length) (pairs (Sums nums target) nums.length)) r ∧
      minSumOfLengths nums target = some (if r = unset nums.length then -1 else r) := by
  obtain ⟨s, hrun, h⟩ := exists_exec_range (I := Holds nums target)
    (fun k s hk ↦ turn_spec htarget hn hk) (holds_zero nums target)
  have hexceeds : exceeds s.res nums.length = decide (s.res = unset nums.length) := by
    refine exceeds_eq hn (h.res.1.imp_right fun hmem ↦ ?_)
    have hbounds := pairs_bounds hmem
    omega
  refine ⟨s.res, h.res, ?_⟩
  simp only [minSumOfLengths, counter, if_pos hn, Option.bind_eq_bind, Option.bind_some, hrun,
    hexceeds, decide_eq_true_iff]

/-- **`minSumOfLengths`** finds the least total length exactly if `n + 1` is an `int`, or there is
nothing to find. -/
theorem minSumOfLengths_iff (nums : List CInt) (target : CInt) (htarget : target.1 ≠ 0) :
    FindsSum nums target ↔ nums.length < 2 ^ 31 - 1 ∨
      nums.length = 2 ^ 31 - 1 ∧ pairs (Sums nums target) nums.length = ∅ := by
  constructor
  · intro h
    have hn : nums.length < 2 ^ 31 := by
      rcases h with ⟨d, hrun, -⟩ | ⟨-, hrun⟩ <;> exact lt_of_minSumOfLengths hrun
    obtain ⟨r, hleast, hrun⟩ := minSumOfLengths_spec htarget hn
    refine or_iff_not_imp_left.2 fun hlt ↦ ⟨by omega, ?_⟩
    rcases h with ⟨d, hrun', hd⟩ | ⟨hempty, -⟩
    · have hunset := ((unset_eq hn).resolve_left fun h ↦ hlt h.1).2
      have hr : r = unset nums.length := by
        refine hleast.1.resolve_right fun hmem ↦ ?_
        have hle := hleast.2 (Or.inl rfl)
        have hbounds := pairs_bounds hmem
        omega
      rw [hrun, if_pos hr] at hrun'
      have hbounds := pairs_bounds hd.1
      have hval : d = -1 := (Option.some.inj hrun').symm
      omega
    · exact hempty
  · intro h
    have hn : nums.length < 2 ^ 31 := by omega
    obtain ⟨r, hleast, hrun⟩ := minSumOfLengths_spec htarget hn
    by_cases hempty : pairs (Sums nums target) nums.length = ∅
    · have hr : r = unset nums.length := by
        have hmem := hleast.1
        rwa [hempty, insert_empty_eq] at hmem
      rw [if_pos hr] at hrun
      exact Or.inr ⟨hempty, hrun⟩
    · obtain ⟨d, hd⟩ := Set.nonempty_iff_ne_empty.2 hempty
      have hunset := unset_eq hn
      have hbounds := pairs_bounds hd
      have hle := hleast.2 (Or.inr hd)
      have hr : r ≠ unset nums.length := by
        have hlt := h.resolve_right fun h ↦ hempty h.2
        omega
      rw [if_neg hr] at hrun
      exact Or.inl ⟨r, hrun, hleast.1.resolve_left hr, fun d hd ↦ hleast.2 (Or.inr hd)⟩

theorem minSumOfLengths_iff_three : FindsSum ([3, 1, 1, 1, 5, 1, 2, 1].map wrap) (wrap 3) :=
  (minSumOfLengths_iff _ _ (by decide)).2 (Or.inl (by decide))

/-- A vector of `2 ^ 31` zeros. -/
theorem not_forall_findsSum : ¬ ∀ nums target, target.1 ≠ 0 → FindsSum nums target := by
  intro h
  have hlen : (List.replicate (2 ^ 31) (wrap 0)).length = 2 ^ 31 := List.length_replicate
  have hnone (r : ℤ) : minSumOfLengths (List.replicate (2 ^ 31) (wrap 0)) (wrap 1) ≠ some r := by
    intro hrun
    have hlt := lt_of_minSumOfLengths hrun
    rw [hlen] at hlt
    exact Nat.lt_irrefl _ hlt
  rcases h (List.replicate (2 ^ 31) (wrap 0)) (wrap 1) (by decide) with ⟨d, hrun, -⟩ | ⟨-, hrun⟩
  · exact hnone d hrun
  · exact hnone (-1) hrun

end NonoverlappingSubarray
