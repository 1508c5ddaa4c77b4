import MiscCpp.Library.Counters
import MiscCpp.Library.ShortestRemoval
import MiscCpp.Library.WhileLoop

/-!
# The shortest subarray to remove

`findLengthOfShortestSubarray` of `leetcode/other/shortestSubarrayToRemove.cc`, with the conversion
of the size to `int`.

The first loop finds where the longest sorted end begins (`walk_spec`), the second one takes one
element after the other in front, for which the end begins later and later (`scan_spec`). Only the
elements are looked at whose number is left by the conversion (`findLengthOfShortestSubarray_iff`).
-/

open Access CInt ShortestRemoval WhileLoop

namespace ShortestSubarrayToRemove

/-! ### The program -/

/-- `j > 0 && nums[j - 1] <= nums[j]` -/
def ascends (nums : List CInt) (j : ℤ) : Option Bool :=
  if 0 < j then do some (decide ((← get nums (← fit (j - 1))) ≤ (← get nums j))) else some false

/-- `i > 0 && nums[i - 1] > nums[i]` -/
def descends (nums : List CInt) (i : ℤ) : Option Bool :=
  if 0 < i then do some (decide ((← get nums i) < (← get nums (← fit (i - 1))))) else some false

/-- `j < n && nums[i] > nums[j]` -/
def lower (nums : List CInt) (n i j : ℤ) : Option Bool :=
  if j < n then do some (decide ((← get nums j) < (← get nums i))) else some false

/-- The second loop. -/
def scan (nums : List CInt) (n : ℤ) (fuel : ℕ) : List ℕ → ℤ → ℤ → Option ℤ
  | [], _, res => some res
  | i :: is, j, res => do
    if ← descends nums i then some res
    else
      let j ← run (lower nums n i) (fun j ↦ fit (j + 1)) fuel j
      scan nums n fuel is j (min res (← fit ((← fit (j - i)) - 1)))

def findLengthOfShortestSubarray (fuel : ℕ) (nums : List CInt) : Option ℤ := do
  let n := (wrap nums.length).1
  let j ← run (ascends nums) (fun j ↦ fit (j - 1)) fuel (← fit (n - 1))
  if j = 0 then some 0 else scan nums n fuel (List.range n.toNat) j j

example : findLengthOfShortestSubarray 10 ([1, 2, 3, 10, 4, 2, 3, 5].map wrap) = some 3 := by
  decide +kernel

/-! ### The parts -/

/-- The lengths of the parts without which the elements do not decrease. -/
def removals (nums : List CInt) : Set ℕ :=
  {k | ∃ p q, p ≤ q ∧ q ≤ nums.length ∧ (nums.take p ++ nums.drop q).Pairwise (· ≤ ·) ∧ k = q - p}

variable {nums : List CInt} {n s i p q r fuel : ℕ} {j : ℤ}

/-- The elements as a sequence. -/
def values (nums : List CInt) (i : ℕ) : ℤ := valueAt nums i

theorem getElem_le_iff {i j : ℕ} (hi : i < nums.length) (hj : j < nums.length) :
    nums[i] ≤ nums[j] ↔ values nums i ≤ values nums j := by
  rw [values, values, valueAt_getElem hi, valueAt_getElem hj]
  exact Iff.rfl

theorem pairwise_take_iff (hp : p ≤ nums.length) :
    (nums.take p).Pairwise (· ≤ ·) ↔ Climbs (values nums) 0 p := by
  rw [List.pairwise_iff_getElem]
  constructor
  · intro h i j _ hij hj
    rcases hij.lt_or_eq with hlt | rfl
    · have hle := h i j (by rw [List.length_take]; omega) (by rw [List.length_take]; omega) hlt
      rw [List.getElem_take, List.getElem_take] at hle
      exact (getElem_le_iff (by omega) (by omega)).1 hle
    · exact le_rfl
  · intro h i j hi hj hij
    rw [List.length_take] at hi hj
    rw [List.getElem_take, List.getElem_take]
    exact (getElem_le_iff (by omega) (by omega)).2 (h i j (Nat.zero_le i) hij.le (by omega))

theorem pairwise_drop_iff :
    (nums.drop q).Pairwise (· ≤ ·) ↔ Climbs (values nums) q nums.length := by
  rw [List.pairwise_iff_getElem]
  constructor
  · intro h i j hi hij hj
    rcases hij.lt_or_eq with hlt | rfl
    · obtain ⟨i, rfl⟩ := Nat.exists_eq_add_of_le hi
      obtain ⟨j, rfl⟩ := Nat.exists_eq_add_of_le (hi.trans hij)
      have hle := h i j (by rw [List.length_drop]; omega) (by rw [List.length_drop]; omega)
        (by omega)
      rw [List.getElem_drop, List.getElem_drop] at hle
      exact (getElem_le_iff _ _).1 hle
    · exact le_rfl
  · intro h i j hi hj hij
    rw [List.length_drop] at hi hj
    rw [List.getElem_drop, List.getElem_drop]
    exact (getElem_le_iff _ _).2 (h _ _ (by omega) (by omega) (by omega))

theorem pairwise_append_iff (hpq : p ≤ q) (hq : q ≤ nums.length) :
    (nums.take p ++ nums.drop q).Pairwise (· ≤ ·) ↔ Leaves (values nums) nums.length p q := by
  rw [List.pairwise_append, pairwise_take_iff (hpq.trans hq), pairwise_drop_iff]
  constructor
  · rintro ⟨hfront, hback, hseam⟩
    refine ⟨hpq, hq, hfront, hback, fun i hi j hj hjn ↦ ?_⟩
    obtain ⟨k, rfl⟩ := Nat.exists_eq_add_of_le hj
    exact (getElem_le_iff (by omega) hjn).1
      (hseam _ (List.mem_take_iff_getElem.2 ⟨i, by omega, rfl⟩) _
        (List.mem_drop_iff_getElem.2 ⟨k, by omega, rfl⟩))
  · intro h
    refine ⟨h.front, h.back, fun x hx y hy ↦ ?_⟩
    obtain ⟨i, hi, rfl⟩ := List.mem_take_iff_getElem.1 hx
    obtain ⟨k, hk, rfl⟩ := List.mem_drop_iff_getElem.1 hy
    exact (getElem_le_iff _ _).2 (h.seam i (by omega) _ (by omega) (by omega))

theorem removals_eq (nums : List CInt) :
    removals nums = lengths (values nums) nums.length nums.length := by
  ext k
  constructor
  · rintro ⟨p, q, hpq, hq, hpair, hk⟩
    exact ⟨p, hpq.trans hq, q, (pairwise_append_iff hpq hq).1 hpair, hk⟩
  · rintro ⟨p, -, q, hleaves, hk⟩
    exact ⟨p, q, hleaves.le, hleaves.le_length,
      (pairwise_append_iff hleaves.le hleaves.le_length).2 hleaves, hk⟩

theorem removals_take (hn : n ≤ nums.length) :
    removals (nums.take n) = lengths (values nums) n n := by
  rw [removals_eq, List.length_take_of_le hn]
  exact lengths_congr fun i hi ↦ valueAt_take (Int.natCast_nonneg i) (by omega)

/-! ### The loops -/

theorem exists_get_values (hi : i < nums.length) :
    ∃ x, get nums i = some x ∧ x.1 = values nums i := by
  obtain ⟨x, hx, hval⟩ := exists_valueAt (s := nums) (Int.natCast_nonneg i) (by omega)
  exact ⟨x, hx, hval.symm⟩

theorem ascends_eq (hi : i < nums.length) (hint : i < 2 ^ 31) :
    ascends nums i = some (decide (0 < i ∧ values nums (i - 1) ≤ values nums i)) := by
  obtain ⟨x, hx, hxval⟩ := exists_get_values hi
  rw [ascends]
  by_cases hpos : 0 < i
  · have hlt : i - 1 < nums.length := by omega
    obtain ⟨y, hy, hyval⟩ := exists_get_values hlt
    have hpred : ((i - 1 : ℕ) : ℤ) = i - 1 := by omega
    rw [hpred] at hy
    rw [if_pos (by omega), fit_eq (by omega)]
    simp only [Option.bind_eq_bind, Option.bind_some, hx, hy, hpos, true_and, ← hxval, ← hyval]
    rfl
  · rw [if_neg (by omega)]
    simp only [hpos, false_and, decide_false]

/-- **The first loop** ends where the longest sorted end begins. -/
theorem walk_spec (hpos : 0 < n) (hn : n ≤ nums.length) (hint : n < 2 ^ 31) (hfuel : n ≤ fuel) :
    ∃ s : ℕ, run (ascends nums) (fun j ↦ fit (j - 1)) fuel (n - 1) = some ↑s ∧
      (s = 0 ∧ Climbs (values nums) 0 n ∨ End (values nums) n s) := by
  have hcond (s : ℕ) (j : ℤ) (hj : j = s ∧ s < n ∧ Climbs (values nums) s n) :
      ascends nums j = some (decide (0 < s ∧ values nums (s - 1) ≤ values nums s)) := by
    rw [hj.1, ascends_eq (by omega) (by omega)]
  have hstep (s : ℕ) (j : ℤ) (hj : j = s ∧ s < n ∧ Climbs (values nums) s n)
      (hasc : 0 < s ∧ values nums (s - 1) ≤ values nums s) :
      ∃ (s' : ℕ) (j' : ℤ), fit (j - 1) = some j' ∧
        (j' = s' ∧ s' < n ∧ Climbs (values nums) s' n) ∧ j'.toNat < j.toNat := by
    obtain ⟨rfl, hs, hclimbs⟩ := hj
    exact ⟨s - 1, s - 1, fit_eq (by omega),
      ⟨by omega, by omega, climbs_pred hasc.1 hclimbs fun _ ↦ hasc.2⟩, by omega⟩
  have hlast : Climbs (values nums) (n - 1) n := fun i j hi hij hj ↦ by
    rw [show i = j by omega]
  obtain ⟨s, j, hrun, ⟨rfl, hs, hclimbs⟩, hcond⟩ := exists_run_index Int.toNat hcond hstep
    (k := n - 1) ⟨by omega, by omega, hlast⟩ (show ((n : ℤ) - 1).toNat < fuel by omega)
  refine ⟨s, hrun, ?_⟩
  rcases s.eq_zero_or_pos with rfl | hs'
  · exact Or.inl ⟨rfl, hclimbs⟩
  · exact Or.inr ⟨hs', hs, hclimbs, not_le.1 fun hle ↦ hcond ⟨hs', hle⟩⟩

theorem descends_eq (hi : i < nums.length) (hint : i < 2 ^ 31) :
    descends nums i = some (decide (¬ (0 < i → values nums (i - 1) ≤ values nums i))) := by
  obtain ⟨x, hx, hxval⟩ := exists_get_values hi
  rw [descends]
  by_cases hpos : 0 < i
  · have hlt : i - 1 < nums.length := by omega
    obtain ⟨y, hy, hyval⟩ := exists_get_values hlt
    have hpred : ((i - 1 : ℕ) : ℤ) = i - 1 := by omega
    rw [hpred] at hy
    rw [if_pos (by omega), fit_eq (by omega)]
    simp only [Option.bind_eq_bind, Option.bind_some, hx, hy, hpos, true_imp_iff, ← hxval, ← hyval,
      not_le]
    rfl
  · rw [if_neg (by omega)]
    simp only [hpos, false_imp_iff, not_true_eq_false, decide_false]

theorem lower_eq (hi : i < nums.length) (hs : s ≤ n) (hn : n ≤ nums.length) :
    lower nums n i s = some (decide (s < n ∧ values nums s < values nums i)) := by
  obtain ⟨x, hx, hxval⟩ := exists_get_values hi
  rw [lower]
  by_cases hlt : s < n
  · obtain ⟨y, hy, hyval⟩ := exists_get_values (hlt.trans_le hn)
    rw [if_pos (by omega)]
    simp only [Option.bind_eq_bind, Option.bind_some, hx, hy, hlt, true_and, ← hxval, ← hyval]
    rfl
  · rw [if_neg (by omega)]
    simp only [hlt, false_and, decide_false]

/-- **The inner loop** passes the elements that are less than the last one in front. -/
theorem exists_partner (hi : i < nums.length) (hn : n ≤ nums.length) (hint : n < 2 ^ 31)
    (hfuel : n < fuel) (hsp : s ≤ p) (hp : p ≤ n)
    (hpassed : ∀ q, s ≤ q → q < p → values nums q < values nums i) :
    ∃ q : ℕ, run (lower nums n i) (fun j ↦ fit (j + 1)) fuel p = some ↑q ∧
      Partner (values nums) n s i q := by
  have hcond (q : ℕ) (j : ℤ) (hj : j = q ∧ s ≤ q ∧ q ≤ n ∧
      ∀ p, s ≤ p → p < q → values nums p < values nums i) :
      lower nums n i j = some (decide (q < n ∧ values nums q < values nums i)) := by
    rw [hj.1, lower_eq hi hj.2.2.1 hn]
  have hstep (q : ℕ) (j : ℤ) (hj : j = q ∧ s ≤ q ∧ q ≤ n ∧
      ∀ p, s ≤ p → p < q → values nums p < values nums i)
      (hlow : q < n ∧ values nums q < values nums i) :
      ∃ (q' : ℕ) (j' : ℤ), fit (j + 1) = some j' ∧ (j' = q' ∧ s ≤ q' ∧ q' ≤ n ∧
        ∀ p, s ≤ p → p < q' → values nums p < values nums i) ∧
        (n - j').toNat < (n - j).toNat := by
    obtain ⟨rfl, hsq, hq, hpassed⟩ := hj
    refine ⟨q + 1, q + 1, fit_eq (by omega), ⟨rfl, by omega, hlow.1, fun p hp hpq ↦ ?_⟩, by omega⟩
    rcases (Nat.lt_succ_iff.1 hpq).lt_or_eq with hlt | rfl
    · exact hpassed p hp hlt
    · exact hlow.2
  obtain ⟨q, j, hrun, ⟨rfl, hsq, hq, hpassed⟩, hend⟩ := exists_run_index
    (fun j : ℤ ↦ (n - j).toNat) hcond hstep ⟨rfl, hsp, hp, hpassed⟩
    (show ((n : ℤ) - p).toNat < fuel by omega)
  exact ⟨q, hrun, hsq, hq, hpassed, fun hlt ↦ not_lt.1 fun hlow ↦ hend ⟨hlt, hlow⟩⟩

/-- **The second loop** from the index `i` on. -/
theorem scan_spec (hs : End (values nums) n s) (hn : n ≤ nums.length) (hint : n < 2 ^ 31)
    (hfuel : n < fuel) (k : ℕ) (hk : i + k = n) (hfront : Climbs (values nums) 0 i) (hsp : s ≤ p)
    (hp : p ≤ n) (hpassed : ∀ q, s ≤ q → q < p → 0 < i ∧ values nums q < values nums (i - 1))
    (hr : IsLeast (lengths (values nums) n i) r) :
    ∃ r' : ℕ, scan nums n fuel (List.range' i k) p r = some ↑r' ∧
      IsLeast (lengths (values nums) n n) r' := by
  -- On the indices that are left; `r` is the least length with at most `i` elements in front.
  induction k generalizing i p r with
  | zero =>
    obtain rfl : i = n := hk
    exact ⟨r, rfl, hr⟩
  | succ k ih =>
    rw [List.range'_succ, scan, descends_eq (by omega) (by omega)]
    by_cases hasc : 0 < i → values nums (i - 1) ≤ values nums i
    · have hfront' := climbs_succ_iff.2 ⟨hfront, hasc⟩
      obtain ⟨q, hrun, hpartner⟩ := exists_partner (i := i) (by omega) hn hint hfuel hsp hp
        fun q hsq hqp ↦ (hpassed q hsq hqp).2.trans_le (hasc (hpassed q hsq hqp).1)
      have hiq := (hpartner.leaves hs hfront').le
      have hqn := hpartner.le_length
      obtain ⟨r', hscan, hleast⟩ := ih (by omega) hfront' hpartner.le hqn
        (fun q' hsq hq' ↦ ⟨Nat.succ_pos i, hpartner.passed q' hsq hq'⟩)
        (hpartner.isLeast_lengths_succ hs hfront' hr)
      refine ⟨r', ?_, hleast⟩
      have hmin : ((min r (q - (i + 1)) : ℕ) : ℤ) = min (r : ℤ) (q - i - 1) := by omega
      rw [hmin] at hscan
      simp only [Option.bind_eq_bind, Option.bind_some, decide_eq_true_eq, if_neg (not_not.2 hasc),
        hrun, fit_eq (n := (q : ℤ) - i) (by omega), fit_eq (n := (q : ℤ) - i - 1) (by omega), hscan]
    · refine ⟨r, ?_, ?_⟩
      · simp only [Option.bind_eq_bind, Option.bind_some, decide_eq_true_eq, if_pos hasc]
      · rwa [← lengths_eq_of_not (by omega) fun _ h ↦ hasc (climbs_succ_iff.1 h).2]

/-! ### The function -/

/-- The least length of a part is returned. -/
def FindsLength (nums : List CInt) : Prop :=
  ∃ n, ∀ fuel ≥ n, ∃ k : ℕ, findLengthOfShortestSubarray fuel nums = some ↑k ∧
    IsLeast (removals nums) k

theorem findLengthOfShortestSubarray_spec (hpos : 0 < n) (hn : (wrap nums.length).1 = n)
    (hfuel : n < fuel) :
    ∃ k : ℕ, findLengthOfShortestSubarray fuel nums = some ↑k ∧
      IsLeast (removals (nums.take n)) k := by
  have hle : n ≤ nums.length := by
    have hwrap := wrap_le (Int.natCast_nonneg nums.length)
    omega
  have hint : n < 2 ^ 31 := by
    have hlt := (wrap nums.length).2.2
    omega
  obtain ⟨s, hrun, hs⟩ := walk_spec hpos hle hint hfuel.le
  rw [removals_take hle]
  have hfind : findLengthOfShortestSubarray fuel nums =
      if (s : ℤ) = 0 then some 0 else scan nums n fuel (List.range n) s s := by
    simp only [findLengthOfShortestSubarray, hn, fit_eq (n := (n : ℤ) - 1) (by omega), hrun,
      Option.bind_eq_bind, Option.bind_some, Int.toNat_natCast]
  rw [hfind]
  rcases hs with ⟨rfl, hclimbs⟩ | hs
  · exact ⟨0, if_pos rfl, isLeast_lengths_of_climbs hclimbs⟩
  · have hs' := hs.pos
    rw [if_neg (by omega), List.range_eq_range']
    exact scan_spec hs hle hint hfuel n (Nat.zero_add n) climbs_zero le_rfl hs.lt.le
      (fun q hq hqs ↦ absurd hqs (not_lt.2 hq)) hs.isLeast_lengths_zero

/-- Without elements to look at, the result is no length. -/
theorem findLengthOfShortestSubarray_of_nonpos (hn : (wrap nums.length).1 ≤ 0) {x : ℤ}
    (h : findLengthOfShortestSubarray fuel nums = some x) : x < 0 := by
  rw [findLengthOfShortestSubarray] at h
  obtain ⟨n, hn'⟩ : ∃ n, (wrap nums.length).1 = n := ⟨_, rfl⟩
  simp only [hn', Option.bind_eq_bind] at h hn
  obtain ⟨y, hy, h⟩ := Option.bind_eq_some_iff.1 h
  obtain ⟨j, hj, h⟩ := Option.bind_eq_some_iff.1 h
  obtain ⟨rfl, -⟩ := fit_eq_some hy
  cases fuel with
  | zero => cases hj
  | succ fuel =>
    rw [run, ascends, if_neg (by omega)] at hj
    obtain rfl := Option.some.inj hj
    rw [if_neg (by omega), Int.toNat_of_nonpos hn] at h
    obtain rfl := Option.some.inj h
    omega

/-- **`findLengthOfShortestSubarray`** finds the least length exactly if it is the one for the
elements that are left by the conversion of the size, of which there are some. -/
theorem findLengthOfShortestSubarray_iff (nums : List CInt) :
    FindsLength nums ↔ 0 < (wrap nums.length).1 ∧
      ∃ k, IsLeast (removals (nums.take (wrap nums.length).1.toNat)) k ∧
        IsLeast (removals nums) k := by
  constructor
  · rintro ⟨m, h⟩
    obtain ⟨n, hn⟩ : ∃ n, (wrap nums.length).1.toNat = n := ⟨_, rfl⟩
    obtain ⟨k, hrun, hleast⟩ := h (max m (n + 1)) (Nat.le_max_left _ _)
    have hpos : 0 < (wrap nums.length).1 := by
      by_contra hle
      have hneg := findLengthOfShortestSubarray_of_nonpos (by omega) hrun
      omega
    obtain ⟨k', hrun', hleast'⟩ := findLengthOfShortestSubarray_spec
      (show 0 < n by omega) (show (wrap nums.length).1 = n by omega) (Nat.le_max_right m (n + 1))
    obtain rfl : k = k' := by
      have heq := Option.some.inj (hrun.symm.trans hrun')
      omega
    exact ⟨hpos, k, hn ▸ hleast', hleast⟩
  · rintro ⟨hpos, k, hk, hleast⟩
    obtain ⟨n, hn⟩ := Int.eq_ofNat_of_zero_le hpos.le
    rw [hn, Int.toNat_natCast] at hk
    refine ⟨n + 1, fun fuel hfuel ↦ ?_⟩
    obtain ⟨k', hrun, hleast'⟩ := findLengthOfShortestSubarray_spec (by omega) hn hfuel
    exact ⟨k', hrun, hleast'.unique hk ▸ hleast⟩

/-- A vector of `2 ^ 31` zeros. -/
theorem not_forall_findsLength : ¬ ∀ nums : List CInt, nums ≠ [] → FindsLength nums := by
  intro h
  obtain ⟨s, hs⟩ : ∃ s, List.replicate (2 ^ 31) (wrap 0) = s := ⟨_, rfl⟩
  have hlen : s.length = 2 ^ 31 := by rw [← hs, List.length_replicate]
  have hne : s ≠ [] := List.ne_nil_of_length_pos (by omega)
  have hle : (wrap s.length).1 ≤ 0 := by
    rw [hlen]
    decide
  obtain ⟨m, hm⟩ := h s hne
  obtain ⟨k, hrun, -⟩ := hm m le_rfl
  exact absurd (findLengthOfShortestSubarray_of_nonpos hle hrun) (not_lt.2 (Int.natCast_nonneg k))

end ShortestSubarrayToRemove
