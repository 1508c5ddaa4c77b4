import MiscCpp.Library.CInt
import MiscCpp.Library.StepCount

/-!
# The fewest days to eat `n` oranges

`minDays` of `leetcode/DP/minDaysEatNOranges.cc`, with the cache that its calls share. The two calls
in the arguments of `std::min` may be made in both orders.

The recursion without the cache is `days`. One orange more is at most one day more
(`days_succ_le`), so no step lowers `days` by more than 1, also those that the recursion does not
look at, and `days` is attained (`takes_days`).
-/

open CInt StepCount

namespace MinDays

/-- `unordered_map<int, int> cache` -/
abbrev Cache := CInt → Option CInt

/-- `n % k + dp(n / k)` -/
def eatRest (dp : CInt → Cache → Option (CInt × Cache)) (k : ℤ) (n : CInt) (cache : Cache) :
    Option (CInt × Cache) := do
  let (days, cache) ← dp (← checked (n.1.tdiv k)) cache
  some (← checked (n.1.tmod k + days.1), cache)

/-- The two arguments of `std::min`, of which either may be evaluated first. -/
def minArgs (dp : CInt → Cache → Option (CInt × Cache)) (thirdFirst : Bool) (n : CInt)
    (cache : Cache) : Option ((CInt × CInt) × Cache) := do
  if thirdFirst then
    let (third, cache) ← eatRest dp 3 n cache
    let (half, cache) ← eatRest dp 2 n cache
    some ((half, third), cache)
  else
    let (half, cache) ← eatRest dp 2 n cache
    let (third, cache) ← eatRest dp 3 n cache
    some ((half, third), cache)

/-- The function `dp`. The argument `thirdFirst` says for which `n` the second argument of
`std::min` is evaluated first, and the calls nest less deeply than `fuel`. -/
def dp (thirdFirst : CInt → Bool) : ℕ → CInt → Cache → Option (CInt × Cache)
  | 0, _, _ => none
  | fuel + 1, n, cache =>
    if n.1 ≤ 1 then some (n, cache)
    else
      match cache n with
      | some days => some (days, cache)
      | none => do
        let ((half, third), cache) ← minArgs (dp thirdFirst fuel) (thirdFirst n) n cache
        let days ← checked (1 + min half.1 third.1)
        some (days, Function.update cache n (some days))

def minDays (thirdFirst : CInt → Bool) (fuel : ℕ) (n : CInt) : Option CInt :=
  (dp thirdFirst fuel n fun _ ↦ none).map (·.1)

/-! ### Plans -/

/-- What can be done on one day with `n` oranges left. -/
inductive Eat : ℕ → ℕ → Prop
  | one (n : ℕ) : Eat (n + 1) n
  | half (n : ℕ) : Eat (2 * n) n
  | twoThirds (n : ℕ) : Eat (3 * n) n

/-- The recursion of `dp` without its cache. -/
def days (n : ℕ) : ℕ :=
  if n ≤ 1 then n else 1 + min (n % 2 + days (n / 2)) (n % 3 + days (n / 3))

variable {n : ℕ}

theorem days_of_le (h : n ≤ 1) : days n = n := by
  rw [days, if_pos h]

theorem days_of_lt (h : 1 < n) :
    days n = 1 + min (n % 2 + days (n / 2)) (n % 3 + days (n / 3)) := by
  rw [days, if_neg (by omega)]

/-- One orange more for the rest and the quotient of a division. -/
theorem rest_succ_le {k : ℕ} (hquot : days (n / k + 1) ≤ days (n / k) + 1) :
    (n + 1) % k + days ((n + 1) / k) ≤ n % k + days (n / k) + 1 := by
  have hn := Nat.div_add_mod n k
  have hn' := Nat.div_add_mod (n + 1) k
  by_cases hdvd : k ∣ n + 1
  · rw [Nat.succ_div_of_dvd hdvd, Nat.mod_eq_zero_of_dvd hdvd]
    omega
  · rw [Nat.succ_div_of_not_dvd hdvd] at hn' ⊢
    omega

/-- **One orange more** is at most one day more. -/
theorem days_succ_le (n : ℕ) : days (n + 1) ≤ days n + 1 := by
  induction n using Nat.strong_induction_on with
  | h n ih =>
    have hone : days 1 = 1 := days_of_le (Nat.le_refl 1)
    have hzero : days 0 = 0 := days_of_le (Nat.zero_le 1)
    rcases Nat.lt_or_ge 1 n with hn | hn
    · have htwo := rest_succ_le (ih (n / 2) (by omega))
      have hthree := rest_succ_le (ih (n / 3) (by omega))
      rw [days_of_lt hn, days_of_lt (by omega)]
      omega
    · obtain rfl | rfl : n = 0 ∨ n = 1 := by omega
      · exact (days_of_le (Nat.le_refl 1)).le.trans (Nat.le_add_left 1 _)
      · show days 2 ≤ days 1 + 1
        rw [days_of_lt (by decide), hone]
        simp only [Nat.reduceMod, Nat.reduceDiv, hzero]
        decide

theorem days_le (n : ℕ) : days n ≤ n := by
  induction n with
  | zero => exact (days_of_le (Nat.zero_le 1)).le
  | succ n ih => exact (days_succ_le n).trans (Nat.succ_le_succ ih)

theorem days_step_le {m n : ℕ} (h : Eat m n) : days m ≤ days n + 1 := by
  cases h with
  | one => exact days_succ_le n
  | half =>
    rcases Nat.eq_zero_or_pos n with rfl | hn
    · exact Nat.le_succ _
    · rw [days_of_lt (by omega), Nat.mul_mod_right, Nat.mul_div_cancel_left n (by decide)]
      omega
  | twoThirds =>
    rcases Nat.eq_zero_or_pos n with rfl | hn
    · exact Nat.le_succ _
    · rw [days_of_lt (by omega), Nat.mul_mod_right, Nat.mul_div_cancel_left n (by decide)]
      omega

theorem takes_one (k n : ℕ) : Takes Eat k (n + k) n := by
  induction k with
  | zero => exact .refl n
  | succ k ih => exact .head (.one (n + k)) ih

/-- First the rest one by one, then a division. -/
theorem takes_rest {k : ℕ} (hk : ∀ m, Eat (k * m) m) (h : Takes Eat (days (n / k)) (n / k) 0) :
    Takes Eat (1 + (n % k + days (n / k))) n 0 := by
  have hrest := takes_one (n % k) (k * (n / k))
  rw [Nat.div_add_mod] at hrest
  have hall := hrest.trans ((Takes.one (hk (n / k))).trans h)
  rwa [Nat.add_left_comm] at hall

theorem takes_days (n : ℕ) : Takes Eat (days n) n 0 := by
  induction n using Nat.strong_induction_on with
  | h n ih =>
    rcases Nat.lt_or_ge 1 n with hn | hn
    · rw [days_of_lt hn]
      rcases Nat.le_total (n % 2 + days (n / 2)) (n % 3 + days (n / 3)) with hle | hle
      · rw [Nat.min_eq_left hle]
        exact takes_rest .half (ih (n / 2) (by omega))
      · rw [Nat.min_eq_right hle]
        exact takes_rest .twoThirds (ih (n / 3) (by omega))
    · rw [days_of_le hn]
      have h := takes_one n 0
      rwa [Nat.zero_add] at h

/-- **The plans that the recursion looks at** are enough. -/
theorem isLeast_days (n : ℕ) : IsLeast {k | Takes Eat k n 0} (days n) :=
  isLeast_of_bound (fun _ _ ↦ days_step_le) (days_of_le (Nat.zero_le 1)) (takes_days n)

/-! ### The cache -/

/-- What is in the cache is right. -/
def Right (cache : Cache) : Prop := ∀ n d, cache n = some d → d.1 = days n.1.toNat

variable {cache : Cache}

theorem Right.update (h : Right cache) {n d : CInt} (hd : d.1 = days n.1.toNat) :
    Right (Function.update cache n (some d)) := by
  intro m e hm
  by_cases heq : m = n
  · rw [heq, Function.update_self] at hm
    rw [heq, ← hd, Option.some.inj hm]
  · rw [Function.update_of_ne heq] at hm
    exact h m e hm

/-- What a call for `n` is to do. -/
def CallRight (f : CInt → Cache → Option (CInt × Cache)) (n : CInt) : Prop :=
  ∀ cache, Right cache →
    ∃ d cache', f n cache = some (d, cache') ∧ d.1 = days n.1.toNat ∧ Right cache'

theorem eatRest_spec {f : CInt → Cache → Option (CInt × Cache)} {k : ℕ} {n : CInt} (hk : 1 < k)
    (hn : 0 < n.1) (hf : ∀ m : CInt, 0 ≤ m.1 → m.1 < n.1 → CallRight f m) (cache : Cache)
    (hcache : Right cache) :
    ∃ d cache', eatRest f k n cache = some (d, cache') ∧
      d.1 = (n.1.toNat % k + days (n.1.toNat / k) : ℕ) ∧ Right cache' := by
  obtain ⟨m, hm⟩ := Int.eq_ofNat_of_zero_le hn.le
  obtain ⟨p, hp⟩ : ∃ p, m / k = p := ⟨_, rfl⟩
  obtain ⟨r, hr⟩ : ∃ r, m % k = r := ⟨_, rfl⟩
  have hlt := n.2.2
  have hdiv : p < m := hp ▸ Nat.div_lt_self (by omega) hk
  have hsum : r + days p ≤ m := by
    have hle := days_le p
    have heq := Nat.mod_add_div m k
    have hmul : p ≤ k * p := Nat.le_mul_of_pos_left _ (by omega)
    rw [hp, hr] at heq
    omega
  obtain ⟨q, hq, hqval⟩ := exists_checked_natCast (n := p) (by omega)
  obtain ⟨d, cache', hcall, hd, hcache'⟩ := hf q (by omega) (by omega) cache hcache
  obtain ⟨e, he, heval⟩ := exists_checked_natCast (n := r + days p) (by omega)
  rw [hqval, Int.toNat_natCast] at hd
  refine ⟨e, cache', ?_, by rw [heval, hm, Int.toNat_natCast, hp, hr], hcache'⟩
  rw [eatRest, hm, ← Int.ofNat_tdiv, ← Int.ofNat_tmod, hp, hr, hq]
  simp only [Option.bind_eq_bind, Option.bind_some, hcall, hd, ← Int.natCast_add, he]

/-- In both orders the second call gets the cache of the first one. -/
theorem minArgs_spec {f : CInt → Cache → Option (CInt × Cache)} {n : CInt} (thirdFirst : Bool)
    (hn : 0 < n.1) (hf : ∀ m : CInt, 0 ≤ m.1 → m.1 < n.1 → CallRight f m) (hcache : Right cache) :
    ∃ half third cache', minArgs f thirdFirst n cache = some ((half, third), cache') ∧
      half.1 = (n.1.toNat % 2 + days (n.1.toNat / 2) : ℕ) ∧
      third.1 = (n.1.toNat % 3 + days (n.1.toNat / 3) : ℕ) ∧ Right cache' := by
  have htwo := eatRest_spec (k := 2) (by decide) hn hf
  have hthree := eatRest_spec (k := 3) (by decide) hn hf
  cases thirdFirst with
  | true =>
    obtain ⟨third, cache₁, hrun, hthird, hcache⟩ := hthree cache hcache
    obtain ⟨half, cache₂, hrun', hhalf, hcache⟩ := htwo cache₁ hcache
    exact ⟨half, third, cache₂, by simp_all [minArgs], hhalf, hthird, hcache⟩
  | false =>
    obtain ⟨half, cache₁, hrun, hhalf, hcache⟩ := htwo cache hcache
    obtain ⟨third, cache₂, hrun', hthird, hcache⟩ := hthree cache₁ hcache
    exact ⟨half, third, cache₂, by simp_all [minArgs], hhalf, hthird, hcache⟩

theorem dp_spec (thirdFirst : CInt → Bool) (fuel : ℕ) {n : CInt} (hn : 0 ≤ n.1)
    (hfuel : n.1.toNat < fuel) : CallRight (dp thirdFirst fuel) n := by
  induction fuel generalizing n with
  | zero => omega
  | succ fuel ih =>
    intro cache hcache
    rw [dp]
    split
    next hle => exact ⟨n, cache, rfl, by rw [days_of_le (by omega)]; omega, hcache⟩
    next hgt =>
      split
      next d hget => exact ⟨d, cache, rfl, hcache n d hget, hcache⟩
      next =>
        obtain ⟨half, third, cache', hargs, hhalf, hthird, hcache'⟩ :=
          minArgs_spec (n := n) (thirdFirst n) (by omega) (fun m hm hlt ↦ ih hm (by omega)) hcache
        have hvalue := days_of_lt (n := n.1.toNat) (by omega)
        have hdays := days_le n.1.toNat
        obtain ⟨d, hd, hdval⟩ := exists_checked (n := 1 + min half.1 third.1) (by omega)
        have hright : d.1 = days n.1.toNat := by omega
        refine ⟨d, Function.update cache' n (some d), ?_, hright, hcache'.update hright⟩
        simp only [Option.bind_eq_bind, hargs, Option.bind_some, hd]

/-- **`minDays`** is the smallest number of steps, in both orders of evaluation. -/
theorem minDays_spec (thirdFirst : CInt → Bool) (n : CInt) (hn : 0 ≤ n.1) (fuel : ℕ)
    (hfuel : n.1.toNat < fuel) :
    ∃ k d, minDays thirdFirst fuel n = some d ∧ d.1 = (k : ℕ) ∧
      IsLeast {k | Takes Eat k n.1.toNat 0} k := by
  have hempty : Right fun _ ↦ none := fun n d h ↦ by cases h
  obtain ⟨d, cache, hrun, hd, -⟩ := dp_spec thirdFirst fuel hn hfuel _ hempty
  exact ⟨days n.1.toNat, d, by rw [minDays, hrun, Option.map_some], hd, isLeast_days _⟩

theorem minDays_spec_ten : ∃ d, minDays (fun _ ↦ false) 11 (wrap 10) = some d ∧ d.1 = 4 ∧
    IsLeast {k | Takes Eat k 10 0} 4 := by
  obtain ⟨k, d, hrun, hd, hleast⟩ :=
    minDays_spec (fun _ ↦ false) (wrap 10) (by decide) 11 (by decide)
  have hfour : minDays (fun _ ↦ false) 11 (wrap 10) = some (wrap 4) := by decide +kernel
  obtain rfl := Option.some.inj (hrun.symm.trans hfour)
  have hk : 4 = k := Int.natCast_inj.1 hd
  exact ⟨wrap 4, hfour, rfl, hk ▸ hleast⟩

end MinDays
