import Mathlib.Data.List.Basic
import Mathlib.Data.Nat.ModEq

/-!
# Lists in a ring of slots

An array of slots that may be vacant, read as a ring: the list that starts at the slot `head` has
its elements in the slots from there on, past the end of the array from its beginning.

An element can be added behind the last one as long as there is a slot (`Holds.push`), and the first
one can be taken away (`Holds.pop`); both change one slot.
-/

namespace Ring

variable {α : Type*} {n head i j : ℕ}

/-- The slot of the `i`-th element, in a ring of `n`. -/
def slot (n head i : ℕ) : ℕ := (head + i) % n

theorem slot_lt (hn : 0 < n) (head i : ℕ) : slot n head i < n := Nat.mod_lt _ hn

theorem slot_zero (h : head < n) : slot n head 0 = head := Nat.mod_eq_of_lt h

/-- The places in the ring are counted on. -/
theorem slot_slot (n head i j : ℕ) : slot n (slot n head i) j = slot n head (i + j) := by
  rw [slot, slot, slot, Nat.mod_add_mod, Nat.add_assoc]

/-- Once around. -/
theorem slot_self (h : head < n) : slot n head n = head := by
  rw [slot, Nat.add_mod_right, Nat.mod_eq_of_lt h]

/-- The slots are different until the ring is full. -/
theorem slot_ne (hi : i < n) (hj : j < n) (hij : i ≠ j) : slot n head i ≠ slot n head j := by
  intro h
  refine hij ?_
  have hmod : Nat.ModEq n i j := Nat.ModEq.add_left_cancel' head h
  rwa [Nat.ModEq, Nat.mod_eq_of_lt hi, Nat.mod_eq_of_lt hj] at hmod

/-- One place back. -/
theorem slot_cancel (hi : i < n) (h : slot n i 1 = slot n head (j + 1)) : i = slot n head j := by
  have hmod : Nat.ModEq n (i + 1) (head + j + 1) := h
  have hmod : Nat.ModEq n i (head + j) := hmod.add_right_cancel' 1
  rwa [Nat.ModEq, Nat.mod_eq_of_lt hi] at hmod

/-- The increment that starts again at the end of the array. -/
theorem slot_one (h : i < n) : (if i + 1 = n then 0 else i + 1) = slot n i 1 := by
  rw [slot]
  split
  next heq => rw [heq, Nat.mod_self]
  next hne => exact (Nat.mod_eq_of_lt (Nat.lt_of_le_of_ne h hne)).symm

/-- The elements of `xs` are in the slots from `head` on. -/
def Holds (array : List (Option α)) (head : ℕ) (xs : List α) : Prop :=
  ∀ i, i < xs.length → array[slot array.length head i]? = some xs[i]?

variable {array : List (Option α)} {xs : List α} {x : α}

theorem Holds.nil (array : List (Option α)) (head : ℕ) : Holds array head [] :=
  fun _ hi ↦ absurd hi (Nat.not_lt_zero _)

/-- An element behind the last one. -/
theorem Holds.push (h : Holds array head xs) (hlt : xs.length < array.length) :
    Holds (array.set (slot array.length head xs.length) (some x)) head (xs ++ [x]) := by
  intro i hi
  rw [List.length_append, List.length_singleton] at hi
  rw [List.length_set]
  rcases Nat.lt_succ_iff_lt_or_eq.1 hi with hi | rfl
  · rw [List.getElem?_set_ne (slot_ne hlt (Nat.lt_trans hi hlt) (Nat.ne_of_gt hi)), h i hi,
      List.getElem?_append_left hi]
  · rw [List.getElem?_set_self (slot_lt (Nat.zero_lt_of_lt hlt) ..), List.getElem?_concat_length]

/-- Without the first element. -/
theorem Holds.pop (h : Holds array head (x :: xs)) (hhead : head < array.length)
    (hle : (x :: xs).length ≤ array.length) :
    Holds (array.set head none) (slot array.length head 1) xs := by
  intro i hi
  have hsucc : i + 1 < (x :: xs).length := Nat.succ_lt_succ hi
  have hne : head ≠ slot array.length head (i + 1) := by
    have hslot : slot array.length head 0 ≠ slot array.length head (i + 1) :=
      slot_ne (Nat.zero_lt_of_lt hhead) (Nat.lt_of_lt_of_le hsucc hle) (Nat.succ_ne_zero i).symm
    rwa [slot_zero hhead] at hslot
  rw [List.length_set, slot_slot, Nat.add_comm 1 i, List.getElem?_set_ne hne]
  exact h (i + 1) hsucc

end Ring
