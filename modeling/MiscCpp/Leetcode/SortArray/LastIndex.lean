import MiscCpp.Library.CInt

/-!
# The index of the last element

The sorts in place of `leetcode/divideANDconquer/sortArray.cc` take the range of a vector from its
first index to its last one, `nums.size() - 1` as an `int`. From `2 ^ 31 + 1` elements on this is
another number, and what is behind it is left as it is.
-/

open CInt

namespace SortArray

/-- `nums.size() - 1` as an `int`. It is not unfolded where it decides how long a list is. -/
@[irreducible] def lastIndex (size : ℕ) : CInt := wrap (size - 1)

/-- How many elements are sorted: all of them, up to `2 ^ 31`. -/
def sortedLength (size : ℕ) : ℕ := ((lastIndex size).1 + 1).toNat

theorem lastIndex_lt (size : ℕ) : (lastIndex size).1 < size := by
  rcases Nat.eq_zero_or_pos size with rfl | hpos
  · decide +kernel
  · have hle := wrap_le (n := (size : ℤ) - 1) (by omega)
    rw [lastIndex]
    omega

theorem sortedLength_of_le {size : ℕ} (h : size ≤ 2 ^ 31) : sortedLength size = size := by
  have hlast : (wrap (size - 1 : ℤ)).1 = size - 1 :=
    congrArg Subtype.val (wrap_coe ⟨(size : ℤ) - 1, by omega⟩)
  rw [sortedLength, lastIndex, hlast]
  omega

/-- What is not sorted is in order, and behind what is. -/
def RestInOrder (nums : List CInt) : Prop :=
  (nums.drop (sortedLength nums.length)).Pairwise (· ≤ ·) ∧
    ∀ x ∈ nums.take (sortedLength nums.length), ∀ y ∈ nums.drop (sortedLength nums.length), x ≤ y

theorem restInOrder_of_le {nums : List CInt} (h : nums.length ≤ 2 ^ 31) : RestInOrder nums := by
  rw [RestInOrder, sortedLength_of_le h, List.drop_length]
  exact ⟨.nil, fun _ _ y hy ↦ absurd hy List.not_mem_nil⟩

end SortArray
