import MiscCpp.Library.Access
import MiscCpp.Library.Counters
import MiscCpp.Library.IncreasingSubsequence
import MiscCpp.Library.Machine

/-!
# The longest increasing subsequence

`lengthOfLIS` and `lengthOfLIS2` of `leetcode/DP/longestIncSubseq.cc`, with the conversion of the
size to `int`.

The table of the first function has the greatest length for each last element (`fillTable_spec`),
the array of the second one the smallest last element for each length (`placeAll_spec`). Both look
only at as many elements as the converted size says (`lengths_iff`).
-/

open Access CInt IncreasingSubsequence Machine

namespace LongestIncSubseq

/-! ### The program -/

/-- `std::vector<int> dp(n, 1)`: none for the exception `length_error`. -/
def newTable (n : CInt) : Option (List CInt) :=
  if 0 ≤ n.1 then some (List.replicate n.1.toNat 1) else none

/-- `if (nums[j] < nums[i]) dp[i] = std::max(dp[i], dp[j] + 1)` -/
def extend (nums : List CInt) (i : ℕ) (dp : List CInt) (j : ℕ) : Option (List CInt) := do
  if (← get nums j) < (← get nums i) then
    let longer ← (← get dp j).incr
    put dp i (max (← get dp i) longer)
  else some dp

/-- The loops of the first function: `i` is the counter plus 1. -/
def fillTable (nums dp : List CInt) (n : CInt) : Option (List CInt) :=
  exec (fun dp k ↦ exec (extend nums (k + 1)) dp (List.range (k + 1))) dp
    (List.range (n.1 - 1).toNat)

/-- `*std::max_element(dp.begin(), dp.end())` is undefined for an empty vector. -/
def lengthOfLIS (nums : List CInt) : Option CInt := do
  let n := wrap nums.length
  let dp ← newTable n
  let dp ← fillTable nums dp n
  dp.max?

/-- `std::lower_bound`, undefined if the elements less than `x` are not in front of the others. -/
def lowerBound (dp : List CInt) (x : CInt) : Option ℕ :=
  if dp.Pairwise fun a b ↦ b < x → a < x then some (dp.findIdx fun a ↦ ¬ a < x) else none

/-- The body of the loop of the second function. -/
def placeNext (nums : List CInt) (dp : List CInt) (i : ℕ) : Option (List CInt) := do
  let x ← get nums i
  let it ← lowerBound dp x
  if it = dp.length then some (dp ++ [x]) else put dp it x

def lengthOfLIS2 (nums : List CInt) : Option CInt := do
  let n := wrap nums.length
  let dp ← exec (placeNext nums) [] (List.range n.1.toNat)
  some (wrap dp.length)

example : (lengthOfLIS ([10, 9, 2, 5, 3, 7, 101, 18].map wrap)).map (·.1) = some 4 := by
  decide +kernel

example : (lengthOfLIS2 ([10, 9, 2, 5, 3, 7, 101, 18].map wrap)).map (·.1) = some 4 := by
  decide +kernel

/-! ### The table -/

variable {nums dp : List CInt} {n i j : ℕ} {x y : CInt} {f : ℕ → ℕ}

theorem endings_le {xs : List CInt} {x : CInt} {k : ℕ} (h : k ∈ endings xs x) :
    k ≤ xs.length + 1 := by
  obtain ⟨l, hsub, -, rfl⟩ := h
  exact Nat.succ_le_succ hsub.length_le

/-- One turn of the inner loop. -/
theorem extend_spec (hdp : Counts n dp f) (hi : i < n) (hji : j < i)
    (hx : get nums i = some x) (hy : get nums j = some y) (hlt : f j + 1 < 2 ^ 31) :
    ∃ dp', extend nums i dp j = some dp' ∧
      Counts n dp' (Function.update f i (if y < x then max (f i) (f j + 1) else f i)) := by
  by_cases hyx : y < x
  · obtain ⟨c, hc, hcval⟩ := hdp.value i hi
    obtain ⟨d, hd, hdval⟩ := hdp.value j (hji.trans hi)
    obtain ⟨e, he, heval⟩ := exists_checked_natCast hlt
    have hincr : d.incr = some e := by
      rw [incr_eq, hdval]
      exact he
    rw [← get_natCast] at hc hd
    have hmax : (max c e).1 = (max (f i) (f j + 1) : ℕ) := by
      rw [coe_max, hcval, heval]
      omega
    refine ⟨dp.set i (max c e), ?_, ?_⟩
    · simp only [extend, Option.bind_eq_bind, hx, hy, Option.bind_some, if_pos hyx, hd, hincr, hc,
        put_eq hc, Int.toNat_natCast]
    · rw [if_pos hyx]
      exact hdp.set hmax i
  · refine ⟨dp, ?_, ?_⟩
    · simp only [extend, Option.bind_eq_bind, hx, hy, Option.bind_some, if_neg hyx]
    · rwa [if_neg hyx, Function.update_eq_self]

/-- What is in the table after the turns for less than `i`: for these elements, the greatest length
of an increasing subsequence that ends with them. -/
structure Filled (nums : List CInt) (n i : ℕ) (dp : List CInt) (f : ℕ → ℕ) : Prop where
  counts : Counts n dp f
  done : ∀ j < i, ∀ x, get nums j = some x → IsGreatest (endings (nums.take j) x) (f j)
  rest : ∀ j ≥ i, f j = 1

/-- The turn for `i`. -/
theorem Filled.next (h : Filled nums n i dp f) (hi : i < n) (hn : n ≤ nums.length)
    (hlt : n < 2 ^ 31) :
    ∃ dp', exec (extend nums i) dp (List.range i) = some dp' ∧
      ∃ g, Filled nums n (i + 1) dp' g := by
  obtain ⟨x, hx⟩ := exists_get (m := nums) (i := i) (by omega) (by omega)
  have hrest := h.rest i (Nat.le_refl i)
  obtain ⟨dp', hrun, a, hcounts, hgreatest⟩ : ∃ dp',
      exec (extend nums i) dp (List.range i) = some dp' ∧
        ∃ a, Counts n dp' (Function.update f i a) ∧
          IsGreatest (endings (nums.take i) x) a := by
    refine exists_exec_range (I := fun j dp ↦ ∃ a, Counts n dp (Function.update f i a) ∧
      IsGreatest (endings (nums.take j) x) a) (fun j dp hj ⟨a, hcounts, hgreatest⟩ ↦ ?_)
      ⟨f i, by rw [Function.update_eq_self]; exact h.counts, hrest ▸ isGreatest_endings_nil x⟩
    obtain ⟨y, hy⟩ := exists_get (m := nums) (i := j) (by omega) (by omega)
    have hdone := h.done j hj y hy
    have hle := endings_le hdone.1
    have hother : Function.update f i a j = f j := Function.update_of_ne hj.ne a f
    rw [List.length_take] at hle
    obtain ⟨dp', hrun, hcounts'⟩ := extend_spec hcounts hi hj hx hy (by omega)
    refine ⟨dp', hrun, _, by rwa [Function.update_idem] at hcounts', ?_⟩
    rw [hother, Function.update_self]
    have hget : nums[j] = y := by
      rw [get_natCast, List.getElem?_eq_getElem (by omega)] at hy
      exact Option.some.inj hy
    rw [List.take_succ_eq_append_getElem (by omega), hget]
    exact isGreatest_endings_concat hgreatest hdone
  refine ⟨dp', hrun, Function.update f i a, hcounts, fun j hj z hz ↦ ?_, fun j hj ↦ ?_⟩
  · rcases Nat.lt_succ_iff_lt_or_eq.1 hj with hlt | rfl
    · rw [Function.update_of_ne hlt.ne]
      exact h.done j hlt z hz
    · rw [Function.update_self, ← Option.some.inj (hx.symm.trans hz)]
      exact hgreatest
  · rw [Function.update_of_ne (by omega)]
    exact h.rest j (by omega)

theorem fillTable_spec {size : CInt} (hsize : size.1 = n) (hpos : 0 < n) (hn : n ≤ nums.length) :
    ∃ dp, fillTable nums (List.replicate n 1) size = some dp ∧ ∃ f, Filled nums n n dp f := by
  have hlt := size.2.2
  have hfirst : Filled nums n 1 (List.replicate n 1) fun _ ↦ 1 := by
    refine ⟨⟨List.length_replicate, fun v hv ↦ ⟨1, ?_, rfl⟩⟩, fun j hj x _ ↦ ?_, fun _ _ ↦ rfl⟩
    · rw [List.getElem?_replicate, if_pos hv]
    · obtain rfl : j = 0 := by omega
      exact isGreatest_endings_nil x
  obtain ⟨m, rfl⟩ : ∃ m, n = m + 1 := ⟨n - 1, by omega⟩
  have hturns : (size.1 - 1).toNat = m := by omega
  rw [fillTable, hturns]
  exact exists_exec_range (I := fun k dp ↦ ∃ f, Filled nums (m + 1) (k + 1) dp f)
    (fun k dp hk ⟨f, hdone⟩ ↦ hdone.next (by omega) hn (by omega)) ⟨_, hfirst⟩

/-- **The first function** finds the largest length among the first `n` elements. -/
theorem lengthOfLIS_spec {size : CInt} (hwrap : wrap nums.length = size) (hsize : size.1 = n)
    (hpos : 0 < n) (hn : n ≤ nums.length) :
    ∃ r k, lengthOfLIS nums = some r ∧ IsGreatest (lengths (nums.take n)) k ∧ r.1 = (k : ℕ) := by
  obtain ⟨dp, hrun, f, hdone⟩ := fillTable_spec hsize hpos hn
  have hne : dp ≠ [] := List.ne_nil_of_length_pos (hdone.counts.length ▸ hpos)
  obtain ⟨r, hr⟩ := Option.isSome_iff_exists.1 (List.isSome_max?_of_ne_nil hne)
  have hmax := List.max?_eq_some_iff.1 hr
  obtain ⟨i, hi, hget⟩ := List.mem_iff_getElem.1 hmax.1
  have hlen := hdone.counts.length
  obtain ⟨c, hc, hcval⟩ := hdone.counts.value i (hlen ▸ hi)
  rw [List.getElem?_eq_getElem hi, hget] at hc
  have hval : r.1 = f i := by rw [Option.some.inj hc, hcval]
  refine ⟨r, f i, ?_, isGreatest_lengths (f := f) (fun j x hx ↦ ?_) ⟨⟨i, ?_, rfl⟩, ?_⟩, hval⟩
  · have hnew : newTable size = some (List.replicate n 1) := by
      rw [newTable, hsize, if_pos (Int.natCast_nonneg n), Int.toNat_natCast]
    simp only [lengthOfLIS, hwrap, hnew, Option.bind_eq_bind, Option.bind_some, hrun, hr]
  · obtain ⟨hj, rfl⟩ := List.getElem?_eq_some_iff.1 hx
    rw [List.length_take] at hj
    rw [List.take_take, Nat.min_eq_left (by omega), List.getElem_take]
    exact hdone.done j (by omega) _ (by rw [get_natCast, List.getElem?_eq_getElem])
  · rw [List.length_take]
    omega
  · rintro k ⟨j, hj, rfl⟩
    rw [List.length_take] at hj
    obtain ⟨d, hd, hdval⟩ := hdone.counts.value j (by omega)
    have hle : d.1 ≤ r.1 := hmax.2 d (List.mem_of_getElem? hd)
    omega

/-! ### The smallest last elements -/

theorem lowerBound_spec (hdp : dp.Pairwise (· < ·)) (x : CInt) :
    ∃ p, lowerBound dp x = some p ∧ p ≤ dp.length ∧ (∀ k < p, ∀ a, dp[k]? = some a → a < x) ∧
      ∀ k ≥ p, ∀ a, dp[k]? = some a → x ≤ a := by
  refine ⟨dp.findIdx fun a ↦ ¬ a < x, if_pos (hdp.imp fun hab hb ↦ hab.trans hb),
    List.findIdx_le_length, fun k hk a ha ↦ ?_, fun k hk a ha ↦ ?_⟩
  · have hnot := List.not_of_lt_findIdx hk
    obtain ⟨hlt, rfl⟩ := List.getElem?_eq_some_iff.1 ha
    simpa using hnot
  · obtain ⟨hlt, rfl⟩ := List.getElem?_eq_some_iff.1 ha
    have hfirst := List.findIdx_getElem (w := Nat.lt_of_le_of_lt hk hlt)
    rw [decide_eq_true_iff, not_lt] at hfirst
    rcases hk.lt_or_eq with hlt' | heq
    · exact hfirst.trans (List.pairwise_iff_getElem.1 hdp _ _ _ hlt hlt').le
    · simpa only [heq] using hfirst

/-- The turn for `i` of the second function. -/
theorem placeNext_spec (h : IsTails (nums.take i) dp) (hi : i < nums.length) :
    ∃ dp', placeNext nums dp i = some dp' ∧ IsTails (nums.take (i + 1)) dp' := by
  obtain ⟨p, hlower, hp, hlt, hge⟩ := lowerBound_spec h.strictAsc nums[i]
  have hget : get nums i = some nums[i] := by
    rw [get_natCast, List.getElem?_eq_getElem]
  refine ⟨place dp p nums[i], ?_, ?_⟩
  · rw [placeNext, hget]
    simp only [Option.bind_eq_bind, Option.bind_some, hlower, place]
    rcases hp.lt_or_eq with hp | rfl
    · rw [if_neg hp.ne, if_pos hp]
      exact if_pos ⟨Int.natCast_nonneg p, by rwa [Int.toNat_natCast]⟩
    · rw [if_pos rfl, if_neg (Nat.lt_irrefl _)]
  · rw [List.take_succ_eq_append_getElem hi]
    exact h.place hp hlt hge

/-- **The second function** finds the same length, also if there are no such elements. -/
theorem lengthOfLIS2_spec {size : CInt} (hwrap : wrap nums.length = size) (hsize : size.1 = n)
    (hn : n ≤ nums.length) :
    ∃ r k, lengthOfLIS2 nums = some r ∧ IsGreatest (lengths (nums.take n)) k ∧ r.1 = (k : ℕ) := by
  obtain ⟨dp, hrun, hdp⟩ := exists_exec_range (I := fun i dp ↦ IsTails (nums.take i) dp)
    (fun i dp hi h ↦ placeNext_spec h (Nat.lt_of_lt_of_le hi hn)) isTails_nil
  have hgreatest := hdp.isGreatest
  obtain ⟨l, hl, hlen⟩ := hgreatest.1
  have hle := hl.sublist.length_le
  have hlt := size.2.2
  rw [List.length_take] at hle
  refine ⟨wrap dp.length, dp.length, ?_, hgreatest, wrap_of_lt (by omega) (by omega)⟩
  have hturns : size.1.toNat = n := by omega
  simp only [lengthOfLIS2, hwrap, hturns, hrun, Option.bind_eq_bind, Option.bind_some]

/-! ### Both functions -/

/-- Both functions return the largest length of a strictly increasing subsequence. -/
def FindLength (nums : List CInt) : Prop :=
  ∃ r k, lengthOfLIS nums = some r ∧ lengthOfLIS2 nums = some r ∧
    IsGreatest (lengths nums) k ∧ r.1 = (k : ℕ)

theorem pos_of_lengthOfLIS {size r : CInt} (hwrap : wrap nums.length = size)
    (h : lengthOfLIS nums = some r) : 0 < size.1 := by
  by_contra hle
  simp only [lengthOfLIS, hwrap, newTable, Option.bind_eq_bind] at h
  by_cases hsize : 0 ≤ size.1
  · have hzero : size.1 = 0 := by omega
    rw [if_pos hsize, hzero] at h
    have hturns : (size.1 - 1).toNat = 0 := by omega
    simp [fillTable, hturns] at h
  · rw [if_neg hsize] at h
    cases h

/-- **Both functions find the largest length** exactly if there is a longest increasing subsequence
among the elements that they look at. -/
theorem findLength_iff (nums : List CInt) :
    FindLength nums ↔ 0 < (wrap nums.length).1 ∧
      ∃ l, Increasing l (nums.take (wrap nums.length).1.toNat) ∧
        ∀ l', Increasing l' nums → l'.length ≤ l.length := by
  obtain ⟨size, hwrap⟩ : ∃ size, wrap nums.length = size := ⟨_, rfl⟩
  have hsize := wrap_le (n := nums.length) (Int.natCast_nonneg _)
  rw [hwrap] at hsize ⊢
  constructor
  · rintro ⟨r, k, hrun, -, hgreatest, hval⟩
    have hpos := pos_of_lengthOfLIS hwrap hrun
    obtain ⟨n, hn⟩ := Int.eq_ofNat_of_zero_le hpos.le
    obtain ⟨r', k', hrun', hgreatest', hval'⟩ :=
      lengthOfLIS_spec hwrap hn (by omega) (by omega)
    obtain rfl := Option.some.inj (hrun.symm.trans hrun')
    obtain rfl : k = k' := by omega
    obtain ⟨l, hl, rfl⟩ := hgreatest'.1
    rw [hn, Int.toNat_natCast]
    exact ⟨by omega, l, hl, fun l' hl' ↦ hgreatest.2 ⟨l', hl', rfl⟩⟩
  · rintro ⟨hpos, l, hl, hlongest⟩
    obtain ⟨n, hn⟩ := Int.eq_ofNat_of_zero_le hpos.le
    obtain ⟨r, k, hrun, hgreatest, hval⟩ := lengthOfLIS_spec hwrap hn (by omega) (by omega)
    obtain ⟨r', k', hrun', hgreatest', hval'⟩ := lengthOfLIS2_spec hwrap hn (by omega)
    obtain rfl : k = k' := hgreatest.unique hgreatest'
    obtain rfl : r = r' := Subtype.ext (hval.trans hval'.symm)
    rw [hn, Int.toNat_natCast] at hl
    have hle : l.length ≤ k := hgreatest.2 ⟨l, hl, rfl⟩
    obtain ⟨l', hl', rfl⟩ := hgreatest.1
    exact ⟨r, l'.length, hrun, hrun',
      ⟨⟨l', ⟨hl'.sublist.trans (List.take_sublist _ _), hl'.pairwise⟩, rfl⟩,
        fun m ⟨l₁, hl₁, hm⟩ ↦ hm ▸ (hlongest l₁ hl₁).trans hle⟩, hval⟩

/-- A vector of `2 ^ 31` zeros. -/
theorem not_forall_findLength : ¬ ∀ nums, nums ≠ [] → FindLength nums := by
  intro h
  have hsize : (List.replicate (2 ^ 31) (wrap 0)).length = 2 ^ 31 := List.length_replicate
  obtain ⟨r, k, hrun, -⟩ := h (List.replicate (2 ^ 31) (wrap 0)) (by
    rw [← List.length_pos_iff_ne_nil, hsize]
    decide)
  have hwrap : wrap (List.replicate (2 ^ 31) (wrap 0)).length = INT_MIN := by
    rw [hsize]
    decide
  exact absurd (pos_of_lengthOfLIS hwrap hrun) (by decide)

end LongestIncSubseq
