import Mathlib.Algebra.BigOperators.Group.Finset.Piecewise
import Mathlib.Algebra.BigOperators.Intervals
import Mathlib.NumberTheory.Padics.PadicVal.Basic

/-!
# Binary indexed sums

The lowest set bit of a number, and the sums that a binary indexed tree keeps: the cell `n` has the
sum over the positions of `(n - lowBit n, n]`, so that the sum over all positions up to `n` is the
cell `n` and the sum up to `n - lowBit n` (`sum_Ioc_eq`).

A position is in the range of the cells that `i ↦ i + lowBit i` leads to from it on, and of no
others: apart from the cell `i` itself, a cell whose range has the position `i` is one whose range
has `i + lowBit i` (`covers_add_iff`). Of two powers of two one divides the other, so both
conditions compare multiples of the lesser one.
-/

namespace BinaryIndexed

/-! ### The lowest bit -/

/-- The lowest set bit of `n`. -/
def lowBit (n : ℕ) : ℕ := 2 ^ padicValNat 2 n

variable {n i c a m : ℕ}

/-- The lowest bit is positive. -/
theorem lowBit_pos (n : ℕ) : 0 < lowBit n := Nat.two_pow_pos _

/-- The lowest bit of a power of two times an odd number is the power. -/
theorem lowBit_mul (a m : ℕ) : lowBit (2 ^ a * (2 * m + 1)) = 2 ^ a := by
  have hodd : padicValNat 2 (2 * m + 1) = 0 := padicValNat.eq_zero_of_not_dvd (by omega)
  rw [lowBit, padicValNat.mul (Nat.two_pow_pos a).ne' (by omega), padicValNat.prime_pow, hodd,
    Nat.add_zero]

/-- Every other number than 0 is a power of two times an odd number. -/
theorem exists_odd (hn : n ≠ 0) : ∃ a m, n = 2 ^ a * (2 * m + 1) := by
  obtain ⟨a, u, ⟨m, rfl⟩, rfl⟩ := Nat.exists_eq_two_pow_mul_odd hn
  exact ⟨a, m, rfl⟩

/-- The lowest bit is at most the number. -/
theorem lowBit_le (hn : n ≠ 0) : lowBit n ≤ n := by
  obtain ⟨a, m, rfl⟩ := exists_odd hn
  rw [lowBit_mul]
  exact Nat.le_mul_of_pos_right _ (Nat.succ_pos _)

/-- The lowest bit is left by `&` with the negation, in `w` bits. -/
theorem and_sub_eq_lowBit {w : ℕ} (hn : n ≠ 0) (hlt : n < 2 ^ w) :
    n &&& (2 ^ w - n) = lowBit n := by
  obtain ⟨a, m, rfl⟩ := exists_odd hn
  have hpos := Nat.two_pow_pos a
  have hpred : 2 ^ a * (2 * m + 1) - 1 = 2 ^ a * (2 * m) + (2 ^ a - 1) := by
    rw [Nat.mul_add, Nat.mul_one]
    omega
  have hneg : 2 ^ w - 2 ^ a * (2 * m + 1) = 2 ^ w - (2 ^ a * (2 * m + 1) - 1 + 1) := by omega
  have haw : a < w := by
    refine (Nat.pow_lt_pow_iff_right (by decide : 1 < 2)).1 (Nat.lt_of_le_of_lt ?_ hlt)
    exact Nat.le_mul_of_pos_right _ (Nat.succ_pos _)
  rw [lowBit_mul, hneg]
  refine Nat.eq_of_testBit_eq fun j ↦ ?_
  rw [Nat.testBit_and, Nat.testBit_two_pow_sub_succ (by omega), hpred,
    Nat.testBit_two_pow_mul_add _ (by omega), Nat.testBit_two_pow_mul, Nat.testBit_two_pow]
  rcases Nat.lt_trichotomy j a with hj | rfl | hj
  · rw [decide_eq_false (by omega : ¬ a ≤ j), decide_eq_false (by omega : ¬ a = j),
      Bool.false_and, Bool.false_and]
  · simp [haw]
  · -- above the lowest bit the number is the same as its predecessor
    have hbit : (2 * m + 1).testBit (j - a) = (2 * m).testBit (j - a) := by
      obtain ⟨k, hk⟩ : ∃ k, j - a = k + 1 := ⟨j - a - 1, by omega⟩
      rw [hk, Nat.testBit_succ, Nat.testBit_succ]
      congr 1
      omega
    rw [if_neg (by omega), hbit, decide_eq_false (by omega : ¬ a = j)]
    cases (2 * m).testBit (j - a) <;> simp

/-! ### The ranges of the cells -/

/-- The range of the cell `c` has the position `i`. -/
def Covers (c i : ℕ) : Prop := c - lowBit c < i ∧ i ≤ c

instance (c i : ℕ) : Decidable (Covers c i) := inferInstanceAs (Decidable (_ ∧ _))

/-- A cell covers its own position. -/
theorem covers_self (hi : i ≠ 0) : Covers i i := by
  have hpos := lowBit_pos i
  exact ⟨by omega, le_rfl⟩

/-- The cell of a position does not cover the next position of its way. -/
theorem not_covers_add (i : ℕ) : ¬ Covers i (i + lowBit i) := fun h ↦ by
  have hpos := lowBit_pos i
  have hle := h.2
  omega

/-- **The way of a position** through the cells. -/
theorem covers_add_iff (hi : i ≠ 0) (hc : c ≠ 0) (hne : c ≠ i) :
    Covers c (i + lowBit i) ↔ Covers c i := by
  obtain ⟨a, k, rfl⟩ := exists_odd hi
  obtain ⟨b, m, rfl⟩ := exists_odd hc
  rw [Covers, Covers, lowBit_mul, lowBit_mul]
  have hsub : 2 ^ b * (2 * m + 1) - 2 ^ b = 2 ^ b * (2 * m) := by
    rw [Nat.mul_succ, Nat.add_sub_cancel]
  have hadd : 2 ^ a * (2 * k + 1) + 2 ^ a = 2 ^ a * (2 * (k + 1)) := by ring
  have hpos := Nat.two_pow_pos a
  rw [hsub]
  rcases Nat.lt_or_ge a b with hab | hab
  · -- `2 ^ a` divides both ends of the range, which are even multiples of it
    obtain ⟨d, rfl⟩ := Nat.exists_eq_add_of_lt hab
    have hlow : 2 ^ (a + d + 1) * (2 * m) = 2 ^ a * (2 * (2 ^ d * (2 * m))) := by ring
    have hhigh : 2 ^ (a + d + 1) * (2 * m + 1) = 2 ^ a * (2 * (2 ^ d * (2 * m + 1))) := by ring
    rw [hadd, hlow, hhigh, Nat.mul_lt_mul_left hpos, Nat.mul_lt_mul_left hpos,
      Nat.mul_le_mul_left_iff hpos, Nat.mul_le_mul_left_iff hpos]
    omega
  · -- `2 ^ b` divides `i`, and there is no other multiple of it in the range than `c`
    obtain ⟨d, rfl⟩ := Nat.exists_eq_add_of_le hab
    have hmul : 2 ^ (b + d) * (2 * k + 1) = 2 ^ b * (2 ^ d * (2 * k + 1)) := by ring
    have hmul' : 2 ^ (b + d) * (2 * (k + 1)) = 2 ^ b * (2 ^ d * (2 * (k + 1))) := by ring
    have hposb := Nat.two_pow_pos b
    have hne' : 2 ^ d * (2 * k + 1) ≠ 2 * m + 1 := fun h ↦ hne (by rw [hmul, h])
    have heven : 2 ^ d * (2 * (k + 1)) = 2 * (2 ^ d * (k + 1)) := by ring
    rw [hadd, hmul, hmul', Nat.mul_lt_mul_left hposb, Nat.mul_lt_mul_left hposb,
      Nat.mul_le_mul_left_iff hposb, Nat.mul_le_mul_left_iff hposb]
    omega

/-! ### The sums -/

variable {M : Type*} [AddCommMonoid M] (f : ℕ → M)

/-- What the cell `c` has to be. -/
def cell (c : ℕ) : M := ∑ p ∈ Finset.Ioc (c - lowBit c) c, f p

/-- **The sum up to `n`**, from its last cell. -/
theorem sum_Ioc_eq (n : ℕ) :
    ∑ p ∈ Finset.Ioc 0 n, f p = cell f n + ∑ p ∈ Finset.Ioc 0 (n - lowBit n), f p := by
  rw [cell, add_comm]
  exact (Finset.sum_Ioc_consecutive f (Nat.zero_le _) (Nat.sub_le _ _)).symm

/-- What is added at a position is added to the cells whose range has it. -/
theorem cell_add_single (i c : ℕ) (x : M) :
    cell (f + Pi.single i x) c = cell f c + if Covers c i then x else 0 := by
  rw [cell, cell]
  simp only [Pi.add_apply]
  rw [Finset.sum_add_distrib, Finset.sum_pi_single']
  simp only [Finset.mem_Ioc]
  rfl

end BinaryIndexed
