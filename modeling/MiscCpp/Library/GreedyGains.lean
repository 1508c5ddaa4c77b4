import Mathlib.Algebra.BigOperators.Group.List.Basic
import Mathlib.Algebra.Order.BigOperators.Group.List
import Mathlib.Algebra.Order.Group.Defs
import Mathlib.Algebra.Order.Group.Unbundled.Basic
import Mathlib.Order.MinMax
import Mathlib.Tactic.Common

/-!
# The largest gains first

A sum `d` is to be made up of amounts that are bounded by given gains. Taking the largest gains
first needs the least number of amounts that are not 0: no choice of as many gains has a larger sum
(`greedy_le_countP`), and the amounts can be made smaller (`exists_amounts_greedy`).
-/

namespace GreedyGains

variable {α : Type*} [AddCommGroup α] [LinearOrder α] [IsOrderedAddMonoid α]
  {c g l s : List α} {d : α} {k : ℕ}

/-- The number of gains that are needed if they are taken one after the other. -/
def greedy : List α → α → ℕ
  | [], _ => 0
  | x :: l, d => if 0 < d then greedy l (d - x) + 1 else 0

/-- The greedy choice is no larger than any number of the greatest gains that is enough. -/
theorem greedy_le (h : d ≤ (l.take k).sum) : greedy l d ≤ k := by
  induction l generalizing d k with
  | nil => exact Nat.zero_le k
  | cons x l ih =>
    rw [greedy]
    split
    next hpos =>
      cases k with
      | zero => exact absurd hpos (not_lt.2 h)
      | succ k =>
        rw [List.take_succ_cons, List.sum_cons] at h
        exact Nat.succ_le_succ (ih (sub_le_iff_le_add'.2 h))
    next => exact Nat.zero_le k

/-- The greedy choice is enough. -/
theorem le_sum_take_greedy (h : d ≤ l.sum) : d ≤ (l.take (greedy l d)).sum := by
  induction l generalizing d with
  | nil => exact h
  | cons x l ih =>
    rw [greedy]
    split
    next =>
      rw [List.take_succ_cons, List.sum_cons]
      rw [List.sum_cons] at h
      exact sub_le_iff_le_add'.1 (ih (sub_le_iff_le_add'.2 h))
    next hpos => exact not_lt.1 hpos

/-- No choice of gains has a larger sum than the first ones. -/
theorem sum_le_sum_take (hl : l.Pairwise (· ≥ ·)) (hpos : ∀ x ∈ l, 0 ≤ x) (hs : s.Sublist l) :
    s.sum ≤ (l.take s.length).sum := by
  induction hs with
  | slnil => exact le_rfl
  | @cons s l x hs ih =>
    obtain ⟨hx, hl⟩ := List.pairwise_cons.1 hl
    refine (ih hl fun y hy ↦ hpos y (List.mem_cons_of_mem x hy)).trans ?_
    cases hlen : s.length with
    | zero => exact le_rfl
    | succ n =>
      rw [List.take_succ_cons, List.sum_cons, List.take_add_one, List.sum_append, add_comm]
      refine add_le_add_left ?_ _
      cases hget : l[n]? with
      | none => exact hpos x List.mem_cons_self
      | some y =>
        rw [Option.toList_some, List.sum_singleton]
        exact hx y (List.mem_of_getElem? hget)
  | @cons_cons s l x hs ih =>
    obtain ⟨-, hl⟩ := List.pairwise_cons.1 hl
    rw [List.length_cons, List.take_succ_cons, List.sum_cons, List.sum_cons]
    exact add_le_add_right (ih hl fun y hy ↦ hpos y (List.mem_cons_of_mem x hy)) x

/-- The gains of the amounts that are not 0. -/
theorem exists_sublist (h : List.Forall₂ (· ≤ ·) c g) :
    ∃ s : List α, s.Sublist g ∧ s.length = c.countP (· ≠ 0) ∧ c.sum ≤ s.sum := by
  induction h with
  | nil => exact ⟨[], .slnil, rfl, le_rfl⟩
  | @cons a x c g hle _ ih =>
    obtain ⟨s, hs, hlen, hsum⟩ := ih
    rcases eq_or_ne a 0 with rfl | hne
    · refine ⟨s, hs.cons x, ?_, ?_⟩
      · rw [List.countP_cons_of_neg (by simp), hlen]
      · rwa [List.sum_cons, zero_add]
    · refine ⟨x :: s, hs.cons_cons x, ?_, ?_⟩
      · rw [List.countP_cons_of_pos (by simpa using hne), List.length_cons, hlen]
      · rw [List.sum_cons, List.sum_cons]
        exact add_le_add hle hsum

/-- Amounts for a choice of gains. -/
theorem exists_amounts (hs : s.Sublist g) (hpos : ∀ x ∈ g, 0 ≤ x) (hd : 0 ≤ d) (hsum : d ≤ s.sum) :
    ∃ c, List.Forall₂ (fun a x ↦ 0 ≤ a ∧ a ≤ x) c g ∧ c.sum = d ∧
      c.countP (· ≠ 0) ≤ s.length := by
  induction hs generalizing d with
  | slnil => exact ⟨[], .nil, le_antisymm hd hsum, le_rfl⟩
  | @cons s g x hs ih =>
    obtain ⟨c, hc, hcsum, hcount⟩ := ih (fun y hy ↦ hpos y (List.mem_cons_of_mem x hy)) hd hsum
    refine ⟨0 :: c, .cons ⟨le_rfl, hpos x List.mem_cons_self⟩ hc, ?_, ?_⟩
    · rw [List.sum_cons, zero_add, hcsum]
    · rwa [List.countP_cons_of_neg (by simp)]
  | @cons_cons s g x hs ih =>
    rw [List.sum_cons] at hsum
    have hx := hpos x List.mem_cons_self
    have hrest : d - min x d ≤ s.sum := by
      rcases le_total x d with hle | hle
      · rw [min_eq_left hle]
        exact sub_le_iff_le_add'.2 hsum
      · rw [min_eq_right hle, sub_self]
        exact List.sum_nonneg fun y hy ↦ hpos y (List.mem_cons_of_mem x (hs.subset hy))
    obtain ⟨c, hc, hcsum, hcount⟩ := ih (fun y hy ↦ hpos y (List.mem_cons_of_mem x hy))
      (sub_nonneg.2 (min_le_right x d)) hrest
    refine ⟨min x d :: c, .cons ⟨le_min hx hd, min_le_left x d⟩ hc, ?_, ?_⟩
    · rw [List.sum_cons, hcsum, add_sub_cancel]
    · rw [List.countP_cons, List.length_cons]
      split <;> omega

/-- **Fewer amounts** do not make up the sum. -/
theorem greedy_le_countP (hl : l.Pairwise (· ≥ ·)) (hperm : l.Perm g) (hpos : ∀ x ∈ g, 0 ≤ x)
    (hc : List.Forall₂ (· ≤ ·) c g) : greedy l c.sum ≤ c.countP (· ≠ 0) := by
  obtain ⟨s, hs, hlen, hsum⟩ := exists_sublist hc
  obtain ⟨s', hperm', hs'⟩ := hs.subperm.trans hperm.symm.subperm
  have hle := sum_le_sum_take hl (fun x hx ↦ hpos x (hperm.subset hx)) hs'
  rw [hperm'.sum_eq, hperm'.length_eq, hlen] at hle
  exact greedy_le (hsum.trans hle)

/-- **As many amounts** do. -/
theorem exists_amounts_greedy (hperm : l.Perm g) (hpos : ∀ x ∈ g, 0 ≤ x) (hd : 0 ≤ d)
    (hsum : d ≤ l.sum) :
    ∃ c, List.Forall₂ (fun a x ↦ 0 ≤ a ∧ a ≤ x) c g ∧ c.sum = d ∧
      c.countP (· ≠ 0) ≤ greedy l d := by
  obtain ⟨s, hperm', hs⟩ := (List.take_sublist (greedy l d) l).subperm.trans hperm.subperm
  have hle := le_sum_take_greedy hsum
  rw [← hperm'.sum_eq] at hle
  obtain ⟨c, hc, hcsum, hcount⟩ := exists_amounts hs hpos hd hle
  refine ⟨c, hc, hcsum, hcount.trans ?_⟩
  rw [hperm'.length_eq]
  exact List.length_take_le _ _

end GreedyGains
