import Mathlib.Data.List.Sort
import Mathlib.Order.Defs.LinearOrder
import Mathlib.Tactic.Common

/-!
# Sorted runs

A list made of sorted runs of `w` elements each, the last one of what is left (`Runs`). Every list
is made of runs of one element, and a list that is not longer than its runs is sorted. Runs are
taken off at the front (`Runs.take`, `Runs.drop`) and put together by `Runs.append`; two of them
are merged by `List.merge`.
-/

namespace MergeRuns

variable {α : Type*} {r : α → α → Prop} {w : ℕ} {l m : List α}

/-- Each run of `w` elements is sorted. -/
def Runs (r : α → α → Prop) (w : ℕ) (l : List α) : Prop :=
  ∀ k, ((l.drop (k * w)).take w).Pairwise r

theorem runs_nil : Runs r w [] := fun k ↦ by
  rw [List.drop_nil, List.take_nil]
  exact .nil

/-- Every list has runs of length 1. -/
theorem runs_one : Runs r 1 l := fun k ↦ by
  cases l.drop (k * 1) with
  | nil => exact .nil
  | cons a l => exact List.pairwise_singleton ..

/-- A run that is as long as the list is in order. -/
theorem Runs.pairwise (h : Runs r w l) (hlen : l.length ≤ w) : l.Pairwise r := by
  have h0 := h 0
  rwa [Nat.zero_mul, List.drop_zero, List.take_of_length_le hlen] at h0

theorem Runs.take (h : Runs r w l) : (l.take w).Pairwise r := by
  have h0 := h 0
  rwa [Nat.zero_mul, List.drop_zero] at h0

theorem Runs.drop (h : Runs r w l) : Runs r w (l.drop w) := fun k ↦ by
  have hk := h (k + 1)
  rwa [Nat.succ_mul, Nat.add_comm, ← List.drop_drop] at hk

/-- A run in front of others, which is a full one unless it is the last. -/
theorem Runs.append (h : Runs r w l) (hm : m.Pairwise r)
    (hlen : m.length = w ∨ m.length ≤ w ∧ l = []) : Runs r w (m ++ l) := by
  intro k
  rcases hlen with rfl | ⟨hle, rfl⟩
  · cases k with
    | zero =>
      rw [Nat.zero_mul, List.drop_zero, List.take_left]
      exact hm
    | succ k =>
      rw [Nat.succ_mul, Nat.add_comm, ← List.drop_drop, List.drop_left]
      exact h k
  · rw [List.append_nil]
    exact hm.sublist ((List.take_sublist ..).trans (List.drop_sublist ..))

/-- The elements of two sorted lists, merged by their values. -/
theorem pairwise_merge {β : Type*} [LinearOrder β] (value : α → β) {xs ys : List α}
    (hx : xs.Pairwise (value · ≤ value ·)) (hy : ys.Pairwise (value · ≤ value ·)) :
    (List.merge xs ys fun a b ↦ value a ≤ value b).Pairwise (value · ≤ value ·) := by
  have htotal : Std.Total (value · ≤ value ·) := ⟨fun a b ↦ le_total (value a) (value b)⟩
  have htrans : IsTrans α (value · ≤ value ·) := ⟨fun _ _ _ ↦ le_trans⟩
  exact hx.merge hy

/-- The values of a sorted list are those of its elements in order. -/
theorem map_eq_mergeSort {β : Type*} [LinearOrder β] (value : α → β) {xs ys : List α}
    (hperm : ys.Perm xs) (hy : ys.Pairwise (value · ≤ value ·)) :
    ys.map value = (xs.map value).mergeSort (· ≤ ·) :=
  ((hperm.map value).trans (List.mergeSort_perm ..).symm).eq_of_pairwise'
    (List.pairwise_map.2 hy) (List.pairwise_mergeSort' (· ≤ ·) _)

end MergeRuns
