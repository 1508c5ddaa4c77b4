import Mathlib.Data.List.Basic
import Mathlib.Data.List.Nodup
import Mathlib.Tactic.Common

/-!
# Recency lists

A list of distinct keys, the one used last in front. A use moves its key to the front (`touch`).

The first `n` keys after a use are determined by the first `n` before: when the key has been one of
them they are moved (`take_touch_of_mem`), and otherwise the last of them gives way
(`take_touch_of_notMem`).
-/

namespace Recency

variable {κ : Type*} [DecidableEq κ] {k x : κ} {l : List κ} {n : ℕ}

/-- A use of `k`. -/
def touch (k : κ) (l : List κ) : List κ := k :: l.erase k

/-- A key that is there moves to the front. -/
theorem touch_append_cons {ys : List κ} (h : k ∉ l) :
    touch k (l ++ k :: ys) = k :: (l ++ ys) := by
  rw [touch, List.erase_append_right _ h, List.erase_cons_head]

/-- Touching a key among the first ones keeps them. -/
theorem take_touch_of_mem (h : k ∈ l.take n) : (touch k l).take n = touch k (l.take n) := by
  have hlen : ((l.take n).erase k).length + 1 = (l.take n).length :=
    List.length_erase_add_one h
  have herase : l.erase k = (l.take n).erase k ++ l.drop n := by
    conv_lhs => rw [← List.take_append_drop n l]
    rw [List.erase_append_left _ h]
  rw [touch, touch, herase, ← List.cons_append]
  rcases Nat.le_total n l.length with hle | hle
  · rw [List.length_take_of_le hle] at hlen
    exact List.take_left' hlen
  · rw [List.drop_eq_nil_of_le hle, List.append_nil]
    exact List.take_of_length_le (Nat.le_trans (Nat.le_of_eq hlen) (List.length_take_le n l))

/-- Touching another key drops the last of the first ones. -/
theorem take_touch_of_notMem (h : k ∉ l.take (n + 1)) :
    (touch k l).take (n + 1) = k :: l.take n := by
  have hnot : k ∉ l.take n := fun hmem ↦ h (List.take_subset_take_left l (Nat.le_succ n) hmem)
  have herase : l.erase k = l.take n ++ (l.drop n).erase k := by
    conv_lhs => rw [← List.take_append_drop n l]
    rw [List.erase_append_right _ hnot]
  rw [touch, List.take_succ_cons, herase]
  rcases Nat.le_total n l.length with hle | hle
  · rw [List.take_left' (List.length_take_of_le hle)]
  · rw [List.drop_eq_nil_of_le hle, List.erase_nil, List.append_nil, List.take_take,
      Nat.min_self]

end Recency
