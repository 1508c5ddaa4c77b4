import Mathlib.Algebra.Order.Floor.Semifield
import Mathlib.Analysis.Real.OfDigits
import Mathlib.Data.Fintype.Card
import Mathlib.Data.Nat.GCD.Basic
import Mathlib.Data.Nat.ModEq

/-!
# Long division

The division of `n` by `d` in base `b` goes on behind the point with one digit for each remainder.
These digits are the expansion of the fractional part (`ofDigits_digit`).

There are less than `d` remainders, so one of them occurs again, and all have occurred before that
(`exists_remainder_eq_of_lt`). Exactly if a remainder occurs again, the digits since then can be
repeated for ever (`ofDigits_cycle_eq_iff`).
-/

namespace LongDivision

variable {b n d i j k t : ℕ}

/-! ### Remainders -/

/-- The remainder after `k` digits behind the point. -/
def remainder (b n d k : ℕ) : ℕ := n * b ^ k % d

theorem remainder_zero : remainder b n d 0 = n % d := by rw [remainder, pow_zero, mul_one]

theorem remainder_succ : remainder b n d (k + 1) = remainder b n d k * b % d := by
  rw [remainder, remainder, pow_succ, ← mul_assoc, Nat.mod_mul_mod]

theorem remainder_lt (hd : 0 < d) : remainder b n d k < d := Nat.mod_lt _ hd

/-- Dividing on from a remainder gives the later remainders. -/
theorem remainder_add : remainder b n d (j + i) = remainder b (remainder b n d j) d i := by
  rw [remainder, remainder, remainder, pow_add, ← mul_assoc, Nat.mod_mul_mod]

/-- The division ends with the digit from which on the divisor divides. -/
theorem remainder_eq_zero_iff : remainder b n d k = 0 ↔ d ∣ n * b ^ k :=
  (Nat.dvd_iff_mod_eq_zero ..).symm

/-- A division that has ended stays at zero. -/
theorem remainder_eq_zero_of_le (h : remainder b n d j = 0) (hjk : j ≤ k) :
    remainder b n d k = 0 := by
  rw [remainder_eq_zero_iff] at h ⊢
  exact h.trans (Nat.mul_dvd_mul_left n (pow_dvd_pow b hjk))

/-- Behind equal remainders the division goes on alike. -/
theorem remainder_add_congr (h : remainder b n d j = remainder b n d k) (i : ℕ) :
    remainder b n d (j + i) = remainder b n d (k + i) := by
  rw [remainder_add, h, ← remainder_add]

/-- Some remainder occurs twice, since there are fewer than the divisor. -/
theorem exists_remainder_eq (b n : ℕ) (hd : 0 < d) :
    ∃ j k, j < k ∧ remainder b n d j = remainder b n d k := by
  obtain ⟨j, k, hne, heq⟩ := Finite.exists_ne_map_eq_of_infinite
    fun k : ℕ ↦ (⟨remainder b n d k, remainder_lt hd⟩ : Fin d)
  have hrem : remainder b n d j = remainder b n d k := congrArg Fin.val heq
  rcases Nat.lt_or_gt_of_ne hne with hlt | hgt
  · exact ⟨j, k, hlt, hrem⟩
  · exact ⟨k, j, hgt, hrem.symm⟩

/-- Once a remainder occurs again, all have occurred. -/
theorem exists_remainder_eq_of_lt (hjk : j < k) (h : remainder b n d j = remainder b n d k)
    (i : ℕ) : ∃ l < k, remainder b n d l = remainder b n d i := by
  induction i using Nat.strong_induction_on with
  | _ i ih =>
    rcases Nat.lt_or_ge i k with hlt | hge
    · exact ⟨i, hlt, rfl⟩
    · obtain ⟨l, hl, heq⟩ := ih (j + (i - k)) (by omega)
      refine ⟨l, hl, heq.trans ?_⟩
      rw [remainder_add_congr h, Nat.add_sub_cancel' hge]

/-- A divisor below `2 ^ j` needs at most `j` factors of the base. -/
theorem dvd_mul_pow_of_dvd_mul_pow_succ (hd : 0 < d) (hlt : d < 2 ^ j) (h : d ∣ t * b ^ (j + 1)) :
    d ∣ t * b ^ j := by
  induction j generalizing d t with
  | zero => exact absurd hd (by omega)
  | succ j ih =>
    rcases Nat.eq_zero_or_pos (d.gcd b) with hzero | hpos
    · exact absurd (Nat.eq_zero_of_gcd_eq_zero_left hzero) hd.ne'
    rcases Nat.lt_or_ge 1 (d.gcd b) with hgt | hle
    · -- A common divisor `g` is divided out of `d` and of one factor `b`.
      obtain ⟨d', hd'⟩ := Nat.gcd_dvd_left d b
      obtain ⟨b', hb'⟩ := Nat.gcd_dvd_right d b
      generalize d.gcd b = g at hd' hb' hpos hgt
      have hpos' : 0 < d' := Nat.pos_of_ne_zero fun hzero ↦ by
        rw [hd', hzero] at hd
        exact absurd hd (Nat.lt_irrefl 0)
      have hhalf : 2 * d' ≤ d := hd' ▸ Nat.mul_le_mul_right d' hgt
      have hdvd : g * d' ∣ g * (t * b' * b ^ (j + 1)) := by
        have hsplit : t * b ^ (j + 1 + 1) = g * (t * b' * b ^ (j + 1)) := by
          rw [pow_succ b (j + 1)]
          nth_rewrite 2 [hb']
          ring
        rwa [← hsplit, ← hd']
      rw [pow_succ] at hlt
      have hdvd' := ih hpos' (by omega) (Nat.dvd_of_mul_dvd_mul_left hpos hdvd)
      have hback : t * b ^ (j + 1) = g * (t * b' * b ^ j) := by
        rw [pow_succ]
        nth_rewrite 2 [hb']
        ring
      rw [hback, hd']
      exact Nat.mul_dvd_mul_left g hdvd'
    · have hcop : d.Coprime b := le_antisymm hle hpos
      exact ((hcop.pow_right _).dvd_of_dvd_mul_right h).mul_right _

/-- From the number of bits of `d` on, what is in front of equal remainders is equal. -/
theorem remainder_eq_of_succ (hb : 0 < b) (hd : 0 < d) (hlt : d < 2 ^ j) (hjk : j ≤ k)
    (h : remainder b n d (j + 1) = remainder b n d (k + 1)) :
    remainder b n d j = remainder b n d k := by
  have hdiff : ∀ j k, j ≤ k → (remainder b n d j = remainder b n d k ↔
      d ∣ n * (b ^ (k - j) - 1) * b ^ j) := by
    intro j k hjk
    have hle : n * b ^ j ≤ n * b ^ k := Nat.mul_le_mul_left n (Nat.pow_le_pow_right hb hjk)
    have heq : n * b ^ k - n * b ^ j = n * (b ^ (k - j) - 1) * b ^ j := by
      rw [← Nat.mul_sub, mul_assoc, Nat.sub_mul, one_mul, ← pow_add, Nat.sub_add_cancel hjk]
    rw [← heq]
    exact Nat.modEq_iff_dvd' hle
  rw [hdiff _ _ (Nat.succ_le_succ hjk), Nat.succ_sub_succ] at h
  rw [hdiff _ _ hjk]
  exact dvd_mul_pow_of_dvd_mul_pow_succ hd hlt h

/-! ### Digits -/

variable [NeZero b]

/-- The digit with index `k` behind the point. -/
def digit (b : ℕ) [NeZero b] (n d k : ℕ) : Fin b := Fin.ofNat b (remainder b n d k * b / d)

/-- The first `k` of them. -/
def digits (b : ℕ) [NeZero b] (n d k : ℕ) : List (Fin b) := (List.range k).map (digit b n d)

/-- A digit is the quotient of the remainder before it. -/
theorem val_digit (hd : 0 < d) : (digit b n d k).val = remainder b n d k * b / d := by
  have hlt : remainder b n d k * b / d < b := by
    rw [Nat.div_lt_iff_lt_mul hd, mul_comm b]
    exact Nat.mul_lt_mul_of_pos_right (remainder_lt hd) (NeZero.pos b)
  exact Nat.mod_eq_of_lt hlt

/-- Dividing on from a remainder gives the later digits. -/
theorem digit_add : digit b n d (j + i) = digit b (remainder b n d j) d i := by
  rw [digit, digit, remainder_add]

/-- **The digits** stand for the fraction. -/
theorem ofDigits_digit (hb : 1 < b) (hd : 0 < d) :
    Real.ofDigits (digit b n d) = (n % d : ℕ) / d := by
  have hpos : (0 : ℝ) < d := Nat.cast_pos.2 hd
  have hlt : ((n % d : ℕ) : ℝ) < d := Nat.cast_lt.2 (Nat.mod_lt n hd)
  have hdigits : Real.digits ((n % d : ℕ) / d) b = digit b n d := by
    funext i
    have hfloor : ((n % d : ℕ) / d : ℝ) * b ^ (i + 1) =
        ((n % d * b ^ i * b : ℕ) : ℝ) / (d : ℕ) := by
      push_cast
      ring
    have hsplit : n % d * b ^ i * b =
        remainder b n d i * b + d * (n % d * b ^ i / d * b) := by
      rw [remainder, ← Nat.mod_mul_mod n (b ^ i)]
      nth_rewrite 1 [← Nat.mod_add_div (n % d * b ^ i) d]
      ring
    rw [Real.digits, hfloor, Nat.floor_div_eq_div, hsplit, Nat.add_mul_div_left _ _ hd]
    exact Fin.ext (Nat.add_mul_mod_self_right ..)
  rw [← hdigits]
  exact Real.ofDigits_digits hb ⟨by positivity, (div_lt_one hpos).2 hlt⟩

/-- The digits from some place on stand for the remainder there. -/
theorem ofDigits_digit_add (hb : 1 < b) (hd : 0 < d) (j : ℕ) :
    Real.ofDigits (fun i ↦ digit b n d (i + j)) = remainder b n d j / d := by
  have hshift : (fun i ↦ digit b n d (i + j)) = digit b (remainder b n d j) d := by
    funext i
    rw [add_comm, digit_add]
  rw [hshift, ofDigits_digit hb hd, Nat.mod_eq_of_lt (remainder_lt hd)]

/-! ### Expansions -/

/-- The digits `fraction`, and then those of `cycle` for ever, if there are any, or zeros. -/
def expansion (fraction cycle : List (Fin b)) (i : ℕ) : Fin b :=
  (fraction[i]?).getD ((cycle[(i - fraction.length) % cycle.length]?).getD 0)

theorem length_digits : (digits b n d k).length = k := by
  rw [digits, List.length_map, List.length_range]

theorem getElem?_digits (hik : i < k) : (digits b n d k)[i]? = some (digit b n d i) := by
  rw [digits, List.getElem?_map, List.getElem?_range hik]
  rfl

/-- Without a remainder there are zeros. -/
theorem expansion_nil (hd : 0 < d) (hk : remainder b n d k = 0) :
    expansion (digits b n d k) [] = digit b n d := by
  funext i
  rw [expansion, List.getElem?_nil, Option.getD_none]
  rcases Nat.lt_or_ge i k with hlt | hge
  · rw [getElem?_digits hlt, Option.getD_some]
  · rw [List.getElem?_eq_none (by rwa [length_digits]), Option.getD_none]
    refine Fin.ext ?_
    rw [val_digit hd, remainder_eq_zero_of_le hk hge, zero_mul, Nat.zero_div]
    rfl

/-- The digits from `j` to `k`, repeated. -/
theorem expansion_cycle_of_lt (hjk : j ≤ k) (hik : i < k) :
    expansion ((digits b n d k).take j) ((digits b n d k).drop j) i = digit b n d i := by
  have hlen : ((digits b n d k).take j).length = j := by
    rw [List.length_take, length_digits, min_eq_left hjk]
  rw [expansion, hlen, List.length_drop, length_digits]
  rcases Nat.lt_or_ge i j with hlt | hge
  · rw [List.getElem?_take_of_lt hlt, getElem?_digits hik, Option.getD_some]
  · rw [List.getElem?_eq_none (by rwa [hlen]), Option.getD_none, Nat.mod_eq_of_lt (by omega),
      List.getElem?_drop, Nat.add_sub_cancel' hge, getElem?_digits hik, Option.getD_some]

/-- The digits of a cycle come again after its length. -/
theorem expansion_cycle_add (hjk : j ≤ k) (i : ℕ) :
    expansion ((digits b n d k).take j) ((digits b n d k).drop j) (i + k) =
      expansion ((digits b n d k).take j) ((digits b n d k).drop j) (i + j) := by
  have hlen : ((digits b n d k).take j).length = j := by
    rw [List.length_take, length_digits, min_eq_left hjk]
  have hmod : (i + k - j) % (k - j) = (i + j - j) % (k - j) := by
    rw [Nat.add_sub_assoc hjk, Nat.add_mod_right, Nat.add_sub_cancel]
  have htake : ∀ l, j ≤ l → ((digits b n d k).take j)[l]? = none := fun l hl ↦
    List.getElem?_eq_none (by rwa [hlen])
  rw [expansion, expansion, hlen, List.length_drop, length_digits, hmod, htake _ (by omega),
    htake _ (by omega)]

/-- Expansions that begin alike are compared behind that. -/
theorem ofDigits_eq_iff {x y : ℕ → Fin b} (h : ∀ i < k, x i = y i) :
    Real.ofDigits x = Real.ofDigits y ↔
      Real.ofDigits (fun i ↦ x (i + k)) = Real.ofDigits fun i ↦ y (i + k) := by
  have hsum : ∑ i ∈ Finset.range k, Real.ofDigitsTerm x i =
      ∑ i ∈ Finset.range k, Real.ofDigitsTerm y i :=
    Finset.sum_congr rfl fun i hi ↦ by
      rw [Real.ofDigitsTerm, Real.ofDigitsTerm, h i (Finset.mem_range.1 hi)]
  have hpow : ((b : ℝ) ^ k)⁻¹ ≠ 0 := inv_ne_zero (pow_ne_zero k (Nat.cast_ne_zero.2 (NeZero.ne b)))
  rw [Real.ofDigits_eq_sum_add_ofDigits x k, Real.ofDigits_eq_sum_add_ofDigits y k, hsum,
    add_right_inj, mul_right_inj' hpow]

/-- **Where the digits repeat**: since the same remainder, and only then. -/
theorem ofDigits_cycle_eq_iff (hb : 1 < b) (hd : 0 < d) (hjk : j < k) :
    Real.ofDigits (expansion ((digits b n d k).take j) ((digits b n d k).drop j)) =
      Real.ofDigits (digit b n d) ↔ remainder b n d j = remainder b n d k := by
  have hbegin := fun i (hik : i < k) ↦ expansion_cycle_of_lt (b := b) (n := n) (d := d) hjk.le hik
  have hshift := fun i ↦ expansion_cycle_add (b := b) (n := n) (d := d) hjk.le i
  constructor
  · intro h
    have hj := (ofDigits_eq_iff fun i hij ↦ hbegin i (hij.trans hjk)).1 h
    have hk := (ofDigits_eq_iff hbegin).1 h
    rw [ofDigits_digit_add hb hd] at hj hk
    rw [funext hshift, hj, div_left_inj' (Nat.cast_ne_zero.2 hd.ne')] at hk
    exact Nat.cast_injective hk
  · intro h
    refine congrArg _ (funext fun i ↦ ?_)
    induction i using Nat.strong_induction_on with
    | _ i ih =>
      rcases Nat.lt_or_ge i k with hlt | hge
      · exact hbegin i hlt
      · obtain ⟨i, rfl⟩ := Nat.exists_eq_add_of_le' hge
        rw [hshift, ih _ (by omega), add_comm i, add_comm i, digit, digit, remainder_add_congr h]

end LongDivision
