import Mathlib.Data.Finset.Range
import Mathlib.Data.Finset.Card
import Mathlib.Data.Finset.Filter
import MiscCpp.Library.Access
import MiscCpp.Library.Counters
import MiscCpp.Library.Machine

/-!
# The first missing positive number

`firstMissingPositive` of `leetcode/other/firstMissingPositive.cc`, with its index an `int` and the
number of elements a `size_t`.

The place of a number from `1` to the number of elements is the index before it. An exchange brings
a number to its place and takes none from there (`Moved`), so the inner loop ends
(`placeLoop_spec`); after the outer one each number that has a place is there (`settle_spec`), and
the second loop stops at the first one that is missing. The index overflows from `2 ^ 31` elements
on; with one less the result is that number if none of them is missing, which is converted to an
`int` (`firstMissingPositive_iff`).
-/

open Access CInt Machine

namespace FirstMissingPositive

/-! ### The program -/

/-- `nums[i] > 0 && nums[i] <= n && nums[i] != nums[nums[i] - 1]` -/
def misplaced (nums : List CInt) (i : ℕ) : Option Bool := do
  let x ← get nums i
  if 0 < x.1 ∧ x.1 ≤ nums.length then
    let y ← get nums (x.1 - 1)
    some (x ≠ y)
  else some false

/-- The inner loop, with less than `fuel` turns. -/
def placeLoop (i : ℕ) : ℕ → List CInt → Option (List CInt)
  | 0, _ => none
  | fuel + 1, nums => do
    if ← misplaced nums i then
      let x ← get nums i
      placeLoop i fuel (← swap nums i (x.1 - 1))
    else some nums

/-- The second loop over what is left of its indices. -/
def scan (nums : List CInt) : List ℕ → Option CInt
  | [] => some (wrap (nums.length + 1))
  | i :: is => do
    let x ← get nums i
    let next ← checked (i + 1)
    if x ≠ next then some next else scan nums is

/-- What is returned, and the vector afterwards. -/
def firstMissingPositive (fuel : ℕ) (nums : List CInt) : Option (CInt × List CInt) := do
  let is ← counter nums.length
  let nums ← exec (fun nums i ↦ placeLoop i fuel nums) nums is
  let missing ← scan nums is
  some (missing, nums)

/-! ### Numbers at their places -/

/-- The number `v` is at its place. -/
def AtHome (nums : List CInt) (v : ℤ) : Prop := (get nums (v - 1)).map (·.1) = some v

instance (nums : List CInt) (v : ℤ) : Decidable (AtHome nums v) :=
  inferInstanceAs (Decidable (_ = _))

/-- If what is at `i` has a place, it is at its place as well. -/
def Settled (nums : List CInt) (i : ℕ) : Prop :=
  ∀ x, get nums i = some x → 0 < x.1 → x.1 ≤ nums.length → AtHome nums x.1

/-- The places whose numbers are not there. -/
def away (nums : List CInt) : Finset ℕ :=
  (Finset.range nums.length).filter fun k ↦ ¬ AtHome nums (k + 1)

variable {nums nums' : List CInt} {i : ℕ} {x y : CInt} {v : ℤ}

theorem atHome_iff : AtHome nums v ↔ ∃ x, get nums (v - 1) = some x ∧ x.1 = v := by
  rw [AtHome, Option.map_eq_some_iff]

/-- What the exchanges in the turns for `i` do. -/
structure Moved (i : ℕ) (nums nums' : List CInt) : Prop where
  perm : nums'.Perm nums
  atHome : ∀ v, AtHome nums v → AtHome nums' v
  settled : ∀ j, j ≠ i → Settled nums j → Settled nums' j

theorem Moved.refl (i : ℕ) (nums : List CInt) : Moved i nums nums :=
  ⟨.refl nums, fun _ h ↦ h, fun _ _ h ↦ h⟩

theorem Moved.trans {nums'' : List CInt} (h : Moved i nums nums') (h' : Moved i nums' nums'') :
    Moved i nums nums'' where
  perm := h'.perm.trans h.perm
  atHome v hv := h'.atHome v (h.atHome v hv)
  settled j hj hs := h'.settled j hj (h.settled j hj hs)

/-- **An exchange** brings one more number to its place. -/
theorem swap_spec (hx : get nums i = some x) (hy : get nums (x.1 - 1) = some y) (hne : x ≠ y) :
    ∃ nums', swap nums i (x.1 - 1) = some nums' ∧ Moved i nums nums' ∧ AtHome nums' x.1 ∧
      ¬ AtHome nums x.1 := by
  have hget := get_swap hx hy
  have hlen : ((nums.set i y).set (x.1 - 1).toNat x).length = nums.length := by
    rw [List.length_set, List.length_set]
  rw [Int.toNat_natCast] at hget
  have hhome : AtHome ((nums.set i y).set (x.1 - 1).toNat x) x.1 :=
    atHome_iff.2 ⟨x, by rw [hget, if_pos rfl], rfl⟩
  have hnot : ¬ AtHome nums x.1 := by
    rw [atHome_iff, hy]
    rintro ⟨z, hz, hval⟩
    exact hne (Subtype.ext (by rw [← hval, Option.some.inj hz]))
  have hkeep (v : ℤ) (hv : AtHome nums v) :
      AtHome ((nums.set i y).set (x.1 - 1).toNat x) v := by
    obtain ⟨z, hz, rfl⟩ := atHome_iff.1 hv
    have hzx : z.1 ≠ x.1 := fun heq ↦ hnot (heq ▸ hv)
    have hzi : z.1 - 1 ≠ i := by
      intro heq
      rw [heq, hx] at hz
      exact hzx (congrArg Subtype.val (Option.some.inj hz)).symm
    exact atHome_iff.2 ⟨z, by rw [hget, if_neg (by omega), if_neg hzi, hz], rfl⟩
  refine ⟨_, swap_eq hx hy, ⟨perm_swap hx hy, hkeep, fun j hj hs z hz hpos hle ↦ ?_⟩, hhome, hnot⟩
  rw [Int.toNat_natCast] at hz hle ⊢
  rw [hlen] at hle
  rw [hget, if_neg (Int.natCast_inj.not.2 hj)] at hz
  split at hz
  next => exact Option.some.inj hz ▸ hhome
  next => exact hkeep z.1 (hs z hz hpos hle)

theorem away_card_lt (h : Moved i nums nums') (hpos : 0 < v) (hle : v ≤ nums.length)
    (hv : AtHome nums' v) (hnot : ¬ AtHome nums v) : (away nums').card < (away nums).card := by
  obtain ⟨k, rfl⟩ : ∃ k : ℕ, v = k + 1 := ⟨(v - 1).toNat, by omega⟩
  refine Finset.card_lt_card (Finset.ssubset_iff_of_subset ?_ |>.2 ⟨k, ?_, ?_⟩)
  · intro w hw
    rw [away, Finset.mem_filter, h.perm.length_eq] at hw
    exact Finset.mem_filter.2 ⟨hw.1, fun hw' ↦ hw.2 (h.atHome _ hw')⟩
  · exact Finset.mem_filter.2 ⟨Finset.mem_range.2 (by omega), hnot⟩
  · exact fun hw ↦ (Finset.mem_filter.1 hw).2 hv

/-- The test of the inner loop. -/
theorem misplaced_spec (hi : i < nums.length) :
    ∃ x, get nums i = some x ∧ ((misplaced nums i = some false ∧ Settled nums i) ∨
      0 < x.1 ∧ x.1 ≤ nums.length ∧
        ∃ y, get nums (x.1 - 1) = some y ∧ x ≠ y ∧ misplaced nums i = some true) := by
  obtain ⟨x, hx⟩ := exists_get (m := nums) (i := i) (by omega) (by omega)
  refine ⟨x, hx, ?_⟩
  by_cases hplace : 0 < x.1 ∧ x.1 ≤ nums.length
  · obtain ⟨y, hy⟩ := exists_get (m := nums) (i := x.1 - 1) (by omega) (by omega)
    have htest : misplaced nums i = some (decide (x ≠ y)) := by
      simp [misplaced, hx, hplace, hy]
    by_cases hxy : x = y
    · refine Or.inl ⟨by rw [htest, hxy]; simp, fun z hz _ _ ↦ ?_⟩
      obtain rfl := Option.some.inj (hx.symm.trans hz)
      exact atHome_iff.2 ⟨y, hy, by rw [hxy]⟩
    · exact Or.inr ⟨hplace.1, hplace.2, y, hy, hxy, by rw [htest, decide_eq_true hxy]⟩
  · refine Or.inl ⟨by simp [misplaced, hx, hplace], fun z hz hpos hle ↦ ?_⟩
    obtain rfl := Option.some.inj (hx.symm.trans hz)
    exact absurd ⟨hpos, hle⟩ hplace

/-- **The inner loop ends**, as there are less and less numbers that are not at their places. -/
theorem placeLoop_spec {fuel : ℕ} (hi : i < nums.length) (hfuel : (away nums).card < fuel) :
    ∃ nums', placeLoop i fuel nums = some nums' ∧ Moved i nums nums' ∧ Settled nums' i := by
  induction fuel generalizing nums with
  | zero => omega
  | succ fuel ih =>
    obtain ⟨x, hx, ⟨htest, hs⟩ | ⟨hpos, hle, y, hy, hxy, htest⟩⟩ := misplaced_spec hi
    · exact ⟨nums, by simp [placeLoop, htest], .refl i nums, hs⟩
    · obtain ⟨nums₁, hswap, hmoved, hhome, hnot⟩ := swap_spec hx hy hxy
      have hlt := away_card_lt hmoved hpos hle hhome hnot
      obtain ⟨nums₂, hrun, hmoved', hs⟩ :=
        ih (by rw [hmoved.perm.length_eq]; exact hi) (by omega)
      exact ⟨nums₂, by simp [placeLoop, htest, hx, hswap, hrun], hmoved.trans hmoved', hs⟩

theorem away_card_le (nums : List CInt) : (away nums).card ≤ nums.length := by
  refine (Finset.card_filter_le _ _).trans ?_
  rw [Finset.card_range]

/-- **The first loop.** -/
theorem settle_spec (nums : List CInt) {fuel : ℕ} (hfuel : nums.length < fuel) :
    ∃ nums', exec (fun nums i ↦ placeLoop i fuel nums) nums (List.range nums.length) = some nums' ∧
      nums'.Perm nums ∧ ∀ j < nums.length, Settled nums' j := by
  refine exists_exec_range (I := fun i nums' ↦ nums'.Perm nums ∧ ∀ j < i, Settled nums' j)
    (fun i nums₁ hi ⟨hperm, hs⟩ ↦ ?_) ⟨.refl nums, fun j hj ↦ absurd hj (Nat.not_lt_zero j)⟩
  have hlen := hperm.length_eq
  have hcard : (away nums₁).card < fuel := (away_card_le nums₁).trans_lt (hlen ▸ hfuel)
  obtain ⟨nums₂, hrun, hmoved, hs'⟩ := placeLoop_spec (hlen ▸ hi) hcard
  refine ⟨nums₂, hrun, hmoved.perm.trans hperm, fun j hj ↦ ?_⟩
  rcases Nat.lt_succ_iff_lt_or_eq.1 hj with hlt | rfl
  · exact hmoved.settled j (by omega) (hs j hlt)
  · exact hs'

/-! ### The first one that is missing -/

/-- The positive numbers that do not occur. -/
def Missing (nums : List CInt) : Set ℤ := {v | 0 < v ∧ ∀ x ∈ nums, x.1 ≠ v}

theorem mem_of_atHome (h : AtHome nums v) : ∃ x ∈ nums, x.1 = v := by
  obtain ⟨x, hx, hv⟩ := atHome_iff.1 h
  rw [Access.get, if_pos (get_bounds hx).1] at hx
  exact ⟨x, List.mem_of_getElem? hx, hv⟩

theorem exists_get_of_mem (h : x ∈ nums) : ∃ j < nums.length, get nums j = some x := by
  obtain ⟨j, hj, rfl⟩ := List.mem_iff_getElem.1 h
  exact ⟨j, hj, by rw [get_natCast, List.getElem?_eq_getElem hj]⟩

theorem isLeast_missing {j : ℕ} (hj : j ≤ nums.length) (hs : ∀ i < nums.length, Settled nums i)
    (hhome : ∀ v : ℤ, 0 < v → v ≤ j → AtHome nums v)
    (hnot : j < nums.length → ¬ AtHome nums (j + 1)) : IsLeast (Missing nums) (j + 1) := by
  refine ⟨⟨by omega, fun x hx hval ↦ ?_⟩, fun v ⟨hpos, hv⟩ ↦ ?_⟩
  · obtain ⟨i, hi, hget⟩ := exists_get_of_mem hx
    rcases hj.lt_or_eq with hlt | rfl
    · exact hnot hlt (hval ▸ hs i hi x hget (by omega) (by omega))
    · -- All the places are taken by their own numbers.
      obtain ⟨y, hy, hyval⟩ := atHome_iff.1 (hhome (i + 1) (by omega) (by omega))
      rw [add_sub_cancel_right, hget] at hy
      rw [← Option.some.inj hy] at hyval
      omega
  · by_contra hlt
    obtain ⟨x, hx, hval⟩ := mem_of_atHome (hhome v hpos (by omega))
    exact hv x hx hval

/-- The second loop from the index `i` on. -/
theorem scan_spec (hlen : nums.length < 2 ^ 31) (k : ℕ) (hk : i + k = nums.length)
    (hhome : ∀ v : ℤ, 0 < v → v ≤ i → AtHome nums v) :
    ∃ j : ℕ, j ≤ nums.length ∧ scan nums (List.range' i k) = some (wrap (j + 1)) ∧
      (∀ v : ℤ, 0 < v → v ≤ j → AtHome nums v) ∧ (j < nums.length → ¬ AtHome nums (j + 1)) := by
  induction k generalizing i with
  | zero =>
    obtain rfl : i = nums.length := hk
    exact ⟨nums.length, Nat.le_refl _, rfl, hhome, fun h ↦ absurd h (Nat.lt_irrefl _)⟩
  | succ k ih =>
    obtain ⟨x, hx⟩ := exists_get (m := nums) (i := i) (by omega) (by omega)
    have hnext : checked (i + 1 : ℤ) = some (wrap (i + 1)) := by
      have hval := wrap_of_lt (n := (i : ℤ) + 1) (by omega) (by omega)
      rw [← hval, checked_coe, hval]
    have hatHome : AtHome nums (i + 1) ↔ x = wrap (i + 1) := by
      rw [AtHome, add_sub_cancel_right, hx, Option.map_some, Option.some_inj, Subtype.ext_iff,
        wrap_of_lt (by omega) (by omega)]
    have hscan : scan nums (List.range' i (k + 1)) =
        if x ≠ wrap (i + 1) then some (wrap (i + 1)) else scan nums (List.range' (i + 1) k) := by
      rw [List.range'_succ, scan, hx, Option.bind_eq_bind, Option.bind_some, hnext]
      rfl
    by_cases hxi : x = wrap (i + 1)
    · obtain ⟨j, hj, hrun, hrest⟩ := ih (i := i + 1) (by omega) fun v hpos hle ↦ by
        rcases (show v ≤ i ∨ v = i + 1 by omega) with hlt | rfl
        · exact hhome v hpos hlt
        · exact hatHome.2 hxi
      exact ⟨j, hj, by rw [hscan, if_neg (not_not.2 hxi), hrun], hrest⟩
    · exact ⟨i, by omega, by rw [hscan, if_pos hxi], hhome, fun _ ↦ hatHome.not.2 hxi⟩

/-- The run on a vector whose indices do not overflow. -/
theorem firstMissingPositive_spec (hlen : nums.length < 2 ^ 31) {fuel : ℕ}
    (hfuel : nums.length < fuel) :
    ∃ nums' j, firstMissingPositive fuel nums = some (wrap (j + 1), nums') ∧ nums'.Perm nums ∧
      IsLeast (Missing nums) (j + 1) ∧ 0 ≤ j ∧ j ≤ nums.length := by
  obtain ⟨nums', hrun, hperm, hs⟩ := settle_spec nums hfuel
  have hlen' := hperm.length_eq
  obtain ⟨j, hj, hscan, hhome, hnot⟩ := scan_spec (i := 0) (hlen' ▸ hlen) nums'.length
    (Nat.zero_add nums'.length) fun v hpos hle ↦ by omega
  refine ⟨nums', j, ?_, hperm, ?_, by omega, by omega⟩
  · rw [hlen', ← List.range_eq_range'] at hscan
    rw [firstMissingPositive, counter, if_pos hlen]
    simp only [Option.bind_eq_bind, Option.bind_some, hrun, hscan]
  · have hmissing : Missing nums' = Missing nums := by
      simp only [Missing, hperm.mem_iff]
    rw [← hmissing]
    exact isLeast_missing hj (fun i hi ↦ hs i (hlen' ▸ hi)) hhome hnot

theorem firstMissingPositive_of_le (hlen : 2 ^ 31 ≤ nums.length) (fuel : ℕ) :
    firstMissingPositive fuel nums = none := by
  rw [firstMissingPositive, counter, if_neg (by omega)]
  rfl

/-- With enough turns, the function ends without an access outside the vector, leaves a permutation
of it and returns the smallest positive number that does not occur. -/
def FindsMissing (nums : List CInt) : Prop :=
  ∃ n, ∀ fuel ≥ n, ∃ missing nums', firstMissingPositive fuel nums = some (missing, nums') ∧
    nums'.Perm nums ∧ IsLeast (Missing nums) missing.1

/-- **`firstMissingPositive`** does what it is for exactly if its index does not overflow and the
number is one of an `int`. -/
theorem firstMissingPositive_iff (nums : List CInt) :
    FindsMissing nums ↔ nums.length < 2 ^ 31 ∧ ∃ v : CInt, 0 < v.1 ∧ v ∉ nums := by
  constructor
  · rintro ⟨n, h⟩
    obtain ⟨missing, nums', hrun, -, hleast⟩ := h n (Nat.le_refl n)
    refine ⟨?_, missing, hleast.1.1, fun hmem ↦ hleast.1.2 missing hmem rfl⟩
    by_contra hlen
    rw [firstMissingPositive_of_le (by omega)] at hrun
    cases hrun
  · rintro ⟨hlen, v, hpos, hv⟩
    refine ⟨nums.length + 1, fun fuel hfuel ↦ ?_⟩
    obtain ⟨nums', j, hrun, hperm, hleast, hnonneg, hj⟩ := firstMissingPositive_spec hlen hfuel
    have hle : j + 1 ≤ v.1 := hleast.2 ⟨hpos, fun x hx hval ↦ hv (Subtype.ext hval ▸ hx)⟩
    have hval := wrap_of_lt (n := j + 1) (by omega) (hle.trans_lt v.2.2)
    exact ⟨wrap (j + 1), nums', hrun, hperm, hval.symm ▸ hleast⟩

/-- A vector of `2 ^ 31` zeros. -/
theorem not_forall_firstMissingPositive : ¬ ∀ nums, FindsMissing nums := by
  intro h
  obtain ⟨n, hn⟩ := h (List.replicate (2 ^ 31) (wrap 0))
  obtain ⟨missing, nums', hrun, -⟩ := hn n (Nat.le_refl n)
  rw [firstMissingPositive_of_le (by rw [List.length_replicate])] at hrun
  cases hrun

end FirstMissingPositive
