import Mathlib.Data.Finset.Card
import Mathlib.Data.Nat.BitIndices
import Mathlib.Data.Nat.Bitwise

/-!
# Sets as masks

The set of the bits of a mask (`bits`), and what the operations on masks do to it: a bit is tested
with `mask &&& 1 <<< i`, added with `mask ||| 1 <<< i` and, if it is there, removed with
`mask ^^^ 1 <<< i`. The masks less than `2 ^ n` are all sets of numbers less than `n`
(`powerset`).
-/

namespace BitMask

variable {a b mask i j n : ℕ}

/-- The bits that are set. -/
def bits (mask : ℕ) : Finset ℕ := mask.bitIndices.toFinset

@[simp] theorem mem_bits : i ∈ bits mask ↔ mask.testBit i = true := by
  rw [bits, List.mem_toFinset, Nat.mem_bitIndices]

@[simp] theorem bits_zero : bits 0 = ∅ := by
  rw [bits, Nat.bitIndices_zero, List.toFinset_nil]

/-- The set determines the mask. -/
theorem eq_of_bits_eq (h : bits a = bits b) : a = b :=
  Nat.eq_of_testBit_eq fun i ↦ by rw [Bool.eq_iff_iff, ← mem_bits, ← mem_bits, h]

theorem bits_eq_empty_iff : bits mask = ∅ ↔ mask = 0 :=
  ⟨fun h ↦ eq_of_bits_eq (h.trans bits_zero.symm), fun h ↦ by rw [h, bits_zero]⟩

theorem testBit_bit (i j : ℕ) : (1 <<< i).testBit j = decide (i = j) := by
  rw [Nat.one_shiftLeft, Nat.testBit_two_pow]

/-- All bits in front of `n`. -/
theorem bits_all (n : ℕ) : bits (1 <<< n - 1) = Finset.range n := by
  ext i
  rw [mem_bits, Nat.one_shiftLeft, Nat.testBit_two_pow_sub_one, decide_eq_true_iff,
    Finset.mem_range]

/-- The test for a single bit. -/
theorem and_bit_eq_zero_iff : mask &&& 1 <<< i = 0 ↔ i ∉ bits mask := by
  have hand : mask &&& 1 <<< i = 0 ↔ ∀ j, i = j → mask.testBit j = false := by
    simp only [Nat.eq_iff_testBit_eq, Nat.testBit_and, testBit_bit, Nat.zero_testBit,
      Bool.and_eq_false_iff, decide_eq_false_iff_not]
    exact forall_congr' fun j ↦ or_iff_not_imp_right.trans (by rw [Classical.not_not])
  rw [hand, forall_eq', mem_bits, Bool.not_eq_true]

theorem bits_or_bit (mask i : ℕ) : bits (mask ||| 1 <<< i) = insert i (bits mask) := by
  ext j
  rw [mem_bits, Nat.testBit_or, testBit_bit, Bool.or_eq_true, decide_eq_true_iff,
    Finset.mem_insert, mem_bits, or_comm, eq_comm]

theorem bits_xor_bit (hi : i ∈ bits mask) : bits (mask ^^^ 1 <<< i) = (bits mask).erase i := by
  ext j
  rw [mem_bits, Nat.testBit_xor, testBit_bit, Finset.mem_erase, mem_bits]
  by_cases hij : i = j
  · rw [← hij, mem_bits.1 hi]
    simp
  · simp [hij, Ne.symm hij]

/-! ### The order of masks -/

/-- The mask of a subset is not larger. -/
theorem le_of_bits_subset (h : bits a ⊆ bits b) : a ≤ b :=
  Nat.le_of_testBit fun _ hi ↦ mem_bits.1 (h (mem_bits.2 hi))

/-- The mask of a smaller set is smaller. -/
theorem lt_of_bits_ssubset (h : bits a ⊂ bits b) : a < b :=
  (le_of_bits_subset h.subset).lt_of_ne fun hab ↦ h.ne (congrArg bits hab)

/-- A mask below `2 ^ n` is a set of numbers below `n`. -/
theorem lt_two_pow_iff : mask < 2 ^ n ↔ bits mask ⊆ Finset.range n := by
  constructor
  · intro h i hi
    rw [Finset.mem_range]
    by_contra hin
    have hfalse : mask.testBit i = false :=
      Nat.testBit_lt_two_pow (h.trans_le (Nat.pow_le_pow_right Nat.two_pos (by omega)))
    rw [mem_bits, hfalse] at hi
    cases hi
  · intro h
    refine Nat.lt_pow_two_of_testBit mask fun i hi ↦ ?_
    rw [← Bool.not_eq_true, ← mem_bits]
    exact fun hmem ↦ absurd (Finset.mem_range.1 (h hmem)) (by omega)

/-! ### All sets -/

/-- The sets of numbers less than `n`, in the order of their masks. -/
def powerset (n : ℕ) : List (Finset ℕ) := (List.range (2 ^ n)).map bits

/-- Every finite set has a mask. -/
theorem exists_bits_eq (s : Finset ℕ) : ∃ mask, bits mask = s := by
  induction s using Finset.induction_on with
  | empty => exact ⟨0, bits_zero⟩
  | insert i s _ ih =>
    obtain ⟨mask, rfl⟩ := ih
    exact ⟨mask ||| 1 <<< i, bits_or_bit mask i⟩

theorem nodup_powerset (n : ℕ) : (powerset n).Nodup :=
  List.nodup_range.map fun _ _ ↦ eq_of_bits_eq

/-- All sets of numbers below `n` are listed. -/
theorem mem_powerset_iff {s : Finset ℕ} : s ∈ powerset n ↔ s ⊆ Finset.range n := by
  rw [powerset, List.mem_map]
  constructor
  · rintro ⟨mask, hmask, rfl⟩
    exact lt_two_pow_iff.1 (List.mem_range.1 hmask)
  · intro hs
    obtain ⟨mask, rfl⟩ := exists_bits_eq s
    exact ⟨mask, List.mem_range.2 (lt_two_pow_iff.2 hs), rfl⟩

/-- The sets with `n` follow those without it. -/
theorem powerset_succ (n : ℕ) :
    powerset (n + 1) = powerset n ++ (powerset n).map (insert n) := by
  rw [powerset, Nat.pow_succ, Nat.mul_two, List.range_add, List.map_append, powerset,
    List.map_map, List.map_map]
  refine congrArg _ (List.map_congr_left fun mask hmask ↦ ?_)
  have hor := Nat.two_pow_add_eq_or_of_lt (List.mem_range.1 hmask) 1
  rw [Nat.mul_one, Nat.or_comm, ← Nat.one_shiftLeft] at hor
  rw [Function.comp_apply, Function.comp_apply, ← Nat.one_shiftLeft, hor, bits_or_bit]

/-! ### The number of bits -/

/-- The number of bits that are set, of the lowest `width`. -/
def count (width mask : ℕ) : ℕ := (List.range width).countP mask.testBit

/-- The bits that are counted are those of the set. -/
theorem count_eq_card (h : mask < 2 ^ n) : count n mask = (bits mask).card := by
  have hbits : bits mask = ((List.range n).filter mask.testBit).toFinset := by
    ext i
    rw [List.mem_toFinset, List.mem_filter, mem_bits, List.mem_range, iff_and_self]
    exact fun hi ↦ Finset.mem_range.1 (lt_two_pow_iff.1 h (mem_bits.2 hi))
  rw [count, hbits, List.toFinset_card_of_nodup (List.nodup_range.filter _),
    List.countP_eq_length_filter]

end BitMask
