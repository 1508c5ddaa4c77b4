import MiscCpp.Library.CInt
import MiscCpp.Library.GreedyGains
import MiscCpp.Library.Machine
import Mathlib.Algebra.Order.Ring.Int
import Mathlib.Data.List.Sort

/-!
# Equal sums of two vectors of dice

`minOperations` of `leetcode/other/equalSumArraysMinOperations.cc`, for vectors of the values 1 to 6
and with the overflow of their sums.

What an element can add is its gain, and the largest gains are taken first. The test of the sizes
says whether the gains are enough (`le_sum_gains`), and if it is negative, no replacement makes the
sums equal (`replacements_eq_empty`).
-/

open CInt GreedyGains Machine

namespace EqualSumArraysMinOperations

/-- The values 1 to 6. -/
abbrev Die := {x : ℤ // 1 ≤ x ∧ x ≤ 6}

/-! ### The program -/

/-- `std::accumulate(nums.begin(), nums.end(), 0)` -/
def accumulate (nums : List Die) : Option ℤ := exec (fun sum x ↦ fit (sum + x.1)) 0 nums

/-- The last loop, with `interval` from its back on. -/
def drain : List ℤ → ℤ → ℤ → Option ℤ
  | [], diff, res => if 0 < diff then none else some res
  | x :: interval, diff, res =>
    if 0 < diff then do drain interval (← fit (diff - x)) (← fit (res + 1)) else some res

/-- The elements of `interval`, before they are sorted. -/
def gains (bigger smaller : List Die) : List ℤ :=
  bigger.map (fun i ↦ i.1 - 1) ++ smaller.map fun i ↦ 6 - i.1

/-- `minOperations(nums1, nums2)`, by the greatest gains. -/
def minOperations (nums1 nums2 : List Die) : Option ℤ := do
  let s1 := nums1.length
  let s2 := nums2.length
  if min s1 s2 * 6 < max s1 s2 then some (-1)
  else
    let sum1 ← accumulate nums1
    let sum2 ← accumulate nums2
    let difference ← fit (sum1 - sum2)
    let diff ← fit difference.natAbs
    let bigger := if sum2 < sum1 then nums1 else nums2
    let smaller := if sum2 < sum1 then nums2 else nums1
    let interval := (gains bigger smaller).insertionSort (· ≤ ·)
    drain interval.reverse diff 0

example : minOperations [⟨6, by decide⟩, ⟨6, by decide⟩] [⟨1, by decide⟩] = some 3 := by decide

/-! ### Replacements -/

/-- The sum of the values. -/
def total (nums : List Die) : ℤ := (nums.map Subtype.val).sum

/-- The number of elements that are not the same. -/
def changed (nums nums' : List Die) : ℕ := (nums.zip nums').countP fun p ↦ p.1 ≠ p.2

/-- The numbers of elements whose replacement makes the sums equal. -/
def replacements (nums1 nums2 : List Die) : Set ℕ :=
  {k | ∃ nums1' nums2', nums1'.length = nums1.length ∧ nums2'.length = nums2.length ∧
    total nums1' = total nums2' ∧ k = changed nums1 nums1' + changed nums2 nums2'}

variable {nums nums' nums1 nums2 a b : List Die} {c l : List ℤ} {diff res : ℤ}

/-- The two vectors may be exchanged. -/
theorem replacements_comm (nums1 nums2 : List Die) :
    replacements nums1 nums2 = replacements nums2 nums1 := by
  ext k
  constructor <;> rintro ⟨nums1', nums2', h₁, h₂, hsum, rfl⟩ <;>
    exact ⟨nums2', nums1', h₂, h₁, hsum.symm, Nat.add_comm _ _⟩

/-- The sum of dice is between one and six for each. -/
theorem total_bounds (nums : List Die) :
    nums.length ≤ total nums ∧ total nums ≤ 6 * nums.length := by
  induction nums with
  | nil => exact ⟨le_rfl, le_rfl⟩
  | cons x nums ih =>
    have hx := x.2
    rw [total, List.map_cons, List.sum_cons, ← total, List.length_cons]
    omega

/-- If one vector is more than six times as long, its sum is always the greater one. -/
theorem replacements_eq_empty
    (h : min nums1.length nums2.length * 6 < max nums1.length nums2.length) :
    replacements nums1 nums2 = ∅ := by
  refine Set.eq_empty_iff_forall_notMem.2 ?_
  rintro k ⟨nums1', nums2', h₁, h₂, hsum, -⟩
  have hbounds₁ := total_bounds nums1'
  have hbounds₂ := total_bounds nums2'
  omega

/-! ### Amounts -/

/-- No gain is negative. -/
theorem gains_nonneg (a b : List Die) : ∀ x ∈ gains a b, 0 ≤ x := by
  intro x hx
  rcases List.mem_append.1 hx with hx | hx
  · obtain ⟨y, -, rfl⟩ := List.mem_map.1 hx
    exact sub_nonneg.2 y.2.1
  · obtain ⟨y, -, rfl⟩ := List.mem_map.1 hx
    exact sub_nonneg.2 y.2.2

/-- All gains together are what the sums can change by. -/
theorem sum_gains (a b : List Die) :
    (gains a b).sum = (total a - a.length) + (6 * b.length - total b) := by
  have ha : (a.map fun i ↦ i.1 - 1).sum = total a - a.length := by
    induction a with
    | nil => rfl
    | cons x a ih =>
      rw [total, List.map_cons, List.map_cons, List.sum_cons, List.sum_cons, ih, ← total,
        List.length_cons]
      omega
  have hb : (b.map fun i ↦ 6 - i.1).sum = 6 * b.length - total b := by
    induction b with
    | nil => rfl
    | cons x b ih =>
      rw [total, List.map_cons, List.map_cons, List.sum_cons, List.sum_cons, ih, ← total,
        List.length_cons]
      omega
  rw [gains, List.sum_append, ha, hb]

/-- The gains are enough unless one vector is too long. -/
theorem le_sum_gains (h : ¬ min a.length b.length * 6 < max a.length b.length) :
    total a - total b ≤ (gains a b).sum := by
  rw [sum_gains]
  omega

/-- What an element of the greater vector loses, and what one of the other vector gains. -/
def decrease (x x' : Die) : ℤ := x.1 - x'.1

def increase (x x' : Die) : ℤ := x'.1 - x.1

section Step

variable {step : Die → Die → ℤ} {gain : Die → ℤ}

theorem forall₂_zipWith (hle : ∀ x x', step x x' ≤ gain x) (hlen : nums'.length = nums.length) :
    List.Forall₂ (· ≤ ·) (nums.zipWith step nums') (nums.map gain) := by
  induction nums generalizing nums' with
  | nil => exact .nil
  | cons x nums ih =>
    obtain ⟨x', nums', rfl⟩ := List.exists_cons_of_length_eq_add_one hlen
    exact .cons (hle x x') (ih (Nat.succ.inj hlen))

theorem countP_zipWith (hne : ∀ x x', step x x' ≠ 0 ↔ x ≠ x') (nums nums' : List Die) :
    (nums.zipWith step nums').countP (· ≠ 0) = changed nums nums' := by
  induction nums generalizing nums' with
  | nil => rfl
  | cons x nums ih =>
    cases nums' with
    | nil => rfl
    | cons x' nums' =>
      rw [List.zipWith_cons_cons, List.countP_cons, changed, List.zip_cons_cons, List.countP_cons,
        ih, changed]
      simp only [hne]

variable (step) in
/-- Replacements with given amounts. -/
theorem exists_zipWith (hstep : ∀ x d, 0 ≤ d → d ≤ gain x → ∃ x', step x x' = d)
    (h : List.Forall₂ (fun d g ↦ 0 ≤ d ∧ d ≤ g) c (nums.map gain)) :
    ∃ nums' : List Die, nums'.length = nums.length ∧ nums.zipWith step nums' = c := by
  induction nums generalizing c with
  | nil =>
    cases h
    exact ⟨[], rfl, rfl⟩
  | cons x nums ih =>
    cases h with
    | cons hd htail =>
      obtain ⟨nums', hlen, rfl⟩ := ih htail
      obtain ⟨x', rfl⟩ := hstep x _ hd.1 hd.2
      exact ⟨x' :: nums', congrArg Nat.succ hlen, rfl⟩

end Step

/-- What single dice lose, the sum loses. -/
theorem sum_decrease (hlen : nums'.length = nums.length) :
    (nums.zipWith decrease nums').sum = total nums - total nums' := by
  induction nums generalizing nums' with
  | nil =>
    rw [List.eq_nil_of_length_eq_zero hlen]
    rfl
  | cons x nums ih =>
    obtain ⟨x', nums', rfl⟩ := List.exists_cons_of_length_eq_add_one hlen
    rw [List.zipWith_cons_cons, List.sum_cons, ih (Nat.succ.inj hlen), decrease]
    simp only [total, List.map_cons, List.sum_cons]
    omega

/-- What single dice gain, the sum gains. -/
theorem sum_increase (hlen : nums'.length = nums.length) :
    (nums.zipWith increase nums').sum = total nums' - total nums := by
  -- The increase is the decrease back.
  rw [List.zipWith_comm]
  exact sum_decrease hlen.symm

theorem decrease_ne_zero (x x' : Die) : decrease x x' ≠ 0 ↔ x ≠ x' := by
  rw [decrease, sub_ne_zero, Subtype.coe_ne_coe]

theorem increase_ne_zero (x x' : Die) : increase x x' ≠ 0 ↔ x ≠ x' := by
  rw [increase, sub_ne_zero, Subtype.coe_ne_coe, ne_comm]

/-- **The least number of replacements**, for the first sum not less than the second one. -/
theorem isLeast_replacements (hperm : l.Perm (gains a b)) (hl : l.Pairwise (· ≥ ·))
    (hd : total b ≤ total a) (hsum : total a - total b ≤ (gains a b).sum) :
    IsLeast (replacements a b) (greedy l (total a - total b)) := by
  have hlower : ∀ k ∈ replacements a b, greedy l (total a - total b) ≤ k := by
    rintro k ⟨a', b', ha, hb, heq, rfl⟩
    have hc : List.Forall₂ (· ≤ ·) (a.zipWith decrease a' ++ b.zipWith increase b')
        (gains a b) := by
      refine List.rel_append (forall₂_zipWith (fun x x' ↦ ?_) ha)
        (forall₂_zipWith (fun x x' ↦ ?_) hb)
      · have hx := x'.2.1
        rw [decrease]
        omega
      · have hx := x'.2.2
        rw [increase]
        omega
    have hle := greedy_le_countP hl hperm (gains_nonneg a b) hc
    rw [List.sum_append, sum_decrease ha, sum_increase hb, List.countP_append,
      countP_zipWith decrease_ne_zero, countP_zipWith increase_ne_zero] at hle
    rwa [show total a - total b = total a - total a' + (total b' - total b) by omega]
  obtain ⟨c, hc, hcsum, hcount⟩ := exists_amounts_greedy hperm (gains_nonneg a b)
    (sub_nonneg.2 hd) (hperm.sum_eq ▸ hsum)
  obtain ⟨ca, cb, rfl, hca, hcb⟩ : ∃ ca cb, c = ca ++ cb ∧
      List.Forall₂ (fun d g ↦ 0 ≤ d ∧ d ≤ g) ca (a.map fun i : Die ↦ i.1 - 1) ∧
      List.Forall₂ (fun d g ↦ 0 ≤ d ∧ d ≤ g) cb (b.map fun i : Die ↦ 6 - i.1) := by
    rw [gains] at hc
    exact ⟨_, _, (List.take_append_drop _ c).symm, List.forall₂_take_append _ _ _ hc,
      List.forall₂_drop_append _ _ _ hc⟩
  obtain ⟨a', ha, rfl⟩ := exists_zipWith decrease
    (fun x d h0 hle ↦ ⟨⟨x.1 - d, by have := x.2; omega⟩, sub_sub_cancel _ _⟩) hca
  obtain ⟨b', hb, rfl⟩ := exists_zipWith increase
    (fun x d h0 hle ↦ ⟨⟨x.1 + d, by have := x.2; omega⟩, add_sub_cancel_left _ _⟩) hcb
  rw [List.sum_append, sum_decrease ha, sum_increase hb] at hcsum
  rw [List.countP_append, countP_zipWith decrease_ne_zero, countP_zipWith increase_ne_zero]
    at hcount
  have hmem : changed a a' + changed b b' ∈ replacements a b :=
    ⟨a', b', ha, hb, by omega, rfl⟩
  exact ⟨(le_antisymm (hlower _ hmem) hcount) ▸ hmem, hlower⟩

/-! ### The function -/

theorem accumulate_add (hres : 0 ≤ res) (hlt : res < 2 ^ 31) (nums : List Die) :
    exec (fun sum (x : Die) ↦ fit (sum + x.1)) res nums =
      if res + total nums < 2 ^ 31 then some (res + total nums) else none := by
  induction nums generalizing res with
  | nil => rw [exec_nil, total, List.map_nil, List.sum_nil, add_zero, if_pos hlt]
  | cons x nums ih =>
    have hx := x.2
    have hnonneg := (total_bounds nums).1
    rw [exec_cons, total, List.map_cons, List.sum_cons, ← total, ← add_assoc]
    by_cases h : res + x.1 < 2 ^ 31
    · rw [fit_eq (by omega), Option.bind_some, ih (by omega) h]
    · rw [fit_eq_none (by omega), if_neg (by omega)]
      rfl

/-- The sum is undefined if it is no `int`. -/
theorem accumulate_eq (nums : List Die) :
    accumulate nums = if total nums < 2 ^ 31 then some (total nums) else none := by
  rw [accumulate, accumulate_add le_rfl (by decide), zero_add]

/-- **The last loop** counts the largest gains, and there is one left in each turn. -/
theorem drain_eq (hl : l.Pairwise (· ≥ ·)) (hbounds : ∀ x ∈ l, 0 ≤ x ∧ x ≤ 5)
    (hsum : diff ≤ l.sum) (hdiff : -5 ≤ diff) (hres : 0 ≤ res) (hlt : diff + res < 2 ^ 31) :
    drain l diff res = some (res + greedy l diff) := by
  induction l generalizing diff res with
  | nil =>
    rw [List.sum_nil] at hsum
    rw [drain, if_neg (by omega), greedy, Nat.cast_zero, add_zero]
  | cons x l ih =>
    obtain ⟨hx, hl⟩ := List.pairwise_cons.1 hl
    have hxbounds := hbounds x List.mem_cons_self
    rw [drain, greedy]
    split
    next hpos =>
      -- The gains are ordered, so a largest one that is not positive leaves nothing to gain.
      have hxpos : 0 < x := by
        by_contra hneg
        have hrest : l.sum ≤ 0 := by
          rw [← nsmul_zero l.length]
          exact List.sum_le_card_nsmul l 0 fun y hy ↦ (hx y hy).trans (not_lt.1 hneg)
        rw [List.sum_cons] at hsum
        omega
      rw [List.sum_cons] at hsum
      simp only [fit_eq (show -2 ^ 31 ≤ diff - x ∧ diff - x < 2 ^ 31 by omega),
        fit_eq (show -2 ^ 31 ≤ res + 1 ∧ res + 1 < 2 ^ 31 by omega), Option.bind_eq_bind,
        Option.bind_some]
      rw [ih hl (fun y hy ↦ hbounds y (List.mem_cons_of_mem x hy)) (by omega) (by omega)
        (by omega) (by omega), Option.some_inj]
      omega
    next => rw [Nat.cast_zero, add_zero]

theorem gains_le (a b : List Die) : ∀ x ∈ gains a b, 0 ≤ x ∧ x ≤ 5 := by
  intro x hx
  refine ⟨gains_nonneg a b x hx, ?_⟩
  rcases List.mem_append.1 hx with hx | hx
  · obtain ⟨y, -, rfl⟩ := List.mem_map.1 hx
    have hy := y.2
    omega
  · obtain ⟨y, -, rfl⟩ := List.mem_map.1 hx
    have hy := y.2
    omega

/-- The result for the vectors in the order of their sums. -/
theorem exists_drain (hd : total b ≤ total a) (hlt : total a < 2 ^ 31)
    (h : ¬ min a.length b.length * 6 < max a.length b.length) :
    ∃ k : ℕ, drain ((gains a b).insertionSort (· ≤ ·)).reverse (total a - total b) 0 = some ↑k ∧
      IsLeast (replacements a b) k := by
  have hperm := (List.reverse_perm _).trans (List.perm_insertionSort (· ≤ ·) (gains a b))
  have hl : ((gains a b).insertionSort (· ≤ ·)).reverse.Pairwise (· ≥ ·) :=
    List.pairwise_reverse.2 (List.pairwise_insertionSort (· ≤ ·) (gains a b))
  have hsum := le_sum_gains h
  have hnonneg := (total_bounds b).1
  refine ⟨_, ?_, isLeast_replacements hperm hl hd hsum⟩
  rw [drain_eq hl (fun x hx ↦ gains_le a b x (hperm.subset hx)) (hperm.sum_eq ▸ hsum)
    (by omega) le_rfl (by omega), zero_add]

/-- The least number of replacements is returned, and -1 if there are none. -/
def FindsMin (nums1 nums2 : List Die) : Prop :=
  (∃ k : ℕ, minOperations nums1 nums2 = some ↑k ∧ IsLeast (replacements nums1 nums2) k) ∨
    replacements nums1 nums2 = ∅ ∧ minOperations nums1 nums2 = some (-1)

/-- **The least number of operations**, where the sums are `int`s. -/
theorem minOperations_spec
    (h : ¬ min nums1.length nums2.length * 6 < max nums1.length nums2.length)
    (hlt₁ : total nums1 < 2 ^ 31) (hlt₂ : total nums2 < 2 ^ 31) :
    ∃ k : ℕ, minOperations nums1 nums2 = some ↑k ∧ IsLeast (replacements nums1 nums2) k := by
  have hnonneg₁ := (total_bounds nums1).1
  have hnonneg₂ := (total_bounds nums2).1
  have hdiff : fit (total nums1 - total nums2) = some (total nums1 - total nums2) :=
    fit_eq (by omega)
  have habs : fit (total nums1 - total nums2).natAbs = some ↑(total nums1 - total nums2).natAbs :=
    fit_eq (by omega)
  have hacc₁ : accumulate nums1 = some (total nums1) := by rw [accumulate_eq, if_pos hlt₁]
  have hacc₂ : accumulate nums2 = some (total nums2) := by rw [accumulate_eq, if_pos hlt₂]
  rw [minOperations, if_neg h, hacc₁, hacc₂, Option.bind_eq_bind, Option.bind_some,
    Option.bind_some, hdiff, Option.bind_some, habs, Option.bind_some]
  by_cases hgt : total nums2 < total nums1
  · rw [if_pos hgt, if_pos hgt, show ((total nums1 - total nums2).natAbs : ℤ) =
      total nums1 - total nums2 by omega]
    exact exists_drain hgt.le hlt₁ h
  · rw [if_neg hgt, if_neg hgt, show ((total nums1 - total nums2).natAbs : ℤ) =
      total nums2 - total nums1 by omega, replacements_comm]
    rw [min_comm, max_comm] at h
    exact exists_drain (not_lt.1 hgt) hlt₂ h

/-- What is added does not overflow, if anything is returned. -/
theorem total_lt_of_minOperations_eq_some
    (h : ¬ min nums1.length nums2.length * 6 < max nums1.length nums2.length) {k : ℤ}
    (hk : minOperations nums1 nums2 = some k) : total nums1 < 2 ^ 31 ∧ total nums2 < 2 ^ 31 := by
  rw [minOperations] at hk
  simp only [if_neg h, accumulate_eq, Option.bind_eq_bind] at hk
  constructor
  · by_contra hge
    rw [if_neg hge] at hk
    cases hk
  · by_contra hge
    rw [if_neg hge] at hk
    split at hk
    next => cases hk
    next => cases hk

theorem FindsMin.exists_eq_some (h : FindsMin nums1 nums2) :
    ∃ k, minOperations nums1 nums2 = some k := by
  rcases h with ⟨k, hk, -⟩ | ⟨-, hk⟩
  · exact ⟨k, hk⟩
  · exact ⟨-1, hk⟩

/-- **`minOperations`** returns the number exactly if it does not add or the sums are values of an
`int`. -/
theorem minOperations_iff (nums1 nums2 : List Die) :
    FindsMin nums1 nums2 ↔ min nums1.length nums2.length * 6 < max nums1.length nums2.length ∨
      total nums1 < 2 ^ 31 ∧ total nums2 < 2 ^ 31 := by
  constructor
  · intro hfinds
    obtain ⟨k, hk⟩ := hfinds.exists_eq_some
    exact or_iff_not_imp_left.2 fun h ↦ total_lt_of_minOperations_eq_some h hk
  · rintro (h | ⟨hlt₁, hlt₂⟩)
    · exact Or.inr ⟨replacements_eq_empty h, if_pos h⟩
    · by_cases h : min nums1.length nums2.length * 6 < max nums1.length nums2.length
      · exact Or.inr ⟨replacements_eq_empty h, if_pos h⟩
      · exact Or.inl (minOperations_spec h hlt₁ hlt₂)

theorem total_replicate (n : ℕ) (x : Die) : total (List.replicate n x) = n * x.1 := by
  rw [total, List.map_replicate, List.sum_replicate, nsmul_eq_mul]

/-- Two vectors of `2 ^ 29` elements of the value 6. -/
theorem not_forall_findsMin : ¬ ∀ nums1 nums2 : List Die, FindsMin nums1 nums2 := by
  intro h
  obtain ⟨x, hx⟩ : ∃ x : Die, x.1 = 6 := ⟨⟨6, by decide⟩, rfl⟩
  obtain ⟨k, hk⟩ := (h (List.replicate (2 ^ 29) x) (List.replicate (2 ^ 29) x)).exists_eq_some
  have hlt := (total_lt_of_minOperations_eq_some (by rw [List.length_replicate]; omega) hk).1
  rw [total_replicate, hx] at hlt
  omega

end EqualSumArraysMinOperations
