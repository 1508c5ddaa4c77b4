import Mathlib.Data.List.GetD
import Mathlib.Data.List.Rotate
import Mathlib.Order.Basic
import Mathlib.Order.Lattice
import Mathlib.Tactic.Common

/-!
# Rotated ascending sequences

A sequence `f` ascends on `0, …, n - 1`, rotated at the pivot `p`: it ascends in front of `p` and
from `p` on, and all values from `p` on are less than those in front of it. This says nothing about
a range, so the same holds in each part of a search.

From the values at both ends of a range and at one index between them the side can be told that does
not have a given value (`ne_of_goesLeft`, `ne_of_not_goesLeft`).
-/

namespace RotatedOrder

variable {α : Type*} [LinearOrder α] {f : ℕ → α} {n p i j l m r : ℕ} {x : α}

/-- Two ascending parts, and the second one is below the first. -/
structure Rotated (f : ℕ → α) (n p : ℕ) : Prop where
  ascends : ∀ i j, i < j → j < n → j < p ∨ p ≤ i → f i < f j
  falls : ∀ i j, i < p → p ≤ j → j < n → f j < f i

/-- The vector of a rotation. -/
theorem exists_rotated {nums : List α} (h : nums.Pairwise (· < ·)) (k : ℕ) (d : α) :
    ∃ p, Rotated (fun i ↦ (nums.rotate k).getD i d) nums.length p := by
  rw [← List.take_append_drop (k % nums.length) nums] at h
  obtain ⟨hfront, hback, hlt⟩ := List.pairwise_append.1 h
  rw [List.rotate_eq_drop_append_take_mod]
  have hlen : (nums.take (k % nums.length)).length + (nums.drop (k % nums.length)).length =
      nums.length := by rw [← List.length_append, List.take_append_drop]
  generalize nums.take (k % nums.length) = front at *
  generalize nums.drop (k % nums.length) = back at *
  refine ⟨back.length, fun i j hij hj hside ↦ ?_, fun i j hi hj hjn ↦ ?_⟩
  · rcases hside with hside | hside
    · rw [List.getD_append _ _ _ _ (hij.trans hside), List.getD_append _ _ _ _ hside,
        List.getD_eq_getElem _ _ (hij.trans hside), List.getD_eq_getElem _ _ hside]
      exact List.pairwise_iff_getElem.1 hback i j _ _ hij
    · rw [List.getD_append_right _ _ _ _ hside, List.getD_append_right _ _ _ _ (by omega),
        List.getD_eq_getElem _ _ (by omega), List.getD_eq_getElem _ _ (by omega)]
      exact List.pairwise_iff_getElem.1 hfront _ _ _ _ (by omega)
  · rw [List.getD_append _ _ _ _ hi, List.getD_append_right _ _ _ _ hj,
      List.getD_eq_getElem _ _ hi, List.getD_eq_getElem _ _ (by omega)]
    exact hlt _ (List.getElem_mem _) _ (List.getElem_mem _)

/-- Within one part the values ascend. -/
theorem Rotated.le (h : Rotated f n p) (hij : i ≤ j) (hj : j < n) (hside : j < p ∨ p ≤ i) :
    f i ≤ f j := by
  rcases hij.lt_or_eq with hlt | rfl
  · exact (h.ascends i j hlt hj hside).le
  · exact le_rfl

/-- Where the values fall, the pivot is between. -/
theorem Rotated.pivot_between (h : Rotated f n p) (hij : i ≤ j) (hj : j < n) (hlt : f j < f i) :
    i < p ∧ p ≤ j := by
  by_contra hnot
  exact absurd (h.le hij hj (by omega)) (not_le.2 hlt)

/-- Where they do not fall, it is not. -/
theorem Rotated.same_side (h : Rotated f n p) (hj : j < n) (hle : f i ≤ f j) :
    j < p ∨ p ≤ i := by
  by_contra hnot
  exact absurd (h.falls i j (by omega) (by omega) hj) (not_lt.2 hle)

/-- Whether the search for `target` goes on in front of the middle. -/
def GoesLeft (first middle last target : α) : Prop :=
  if middle > last then target ≥ first ∧ target < middle
  else if middle < first then ¬ (target > middle ∧ target ≤ last)
  else target < middle

instance (first middle last target : α) : Decidable (GoesLeft first middle last target) :=
  inferInstanceAs <| Decidable <|
    if middle > last then target ≥ first ∧ target < middle
    else if middle < first then ¬ (target > middle ∧ target ≤ last)
    else target < middle

/-- In front of the middle: the value is not behind it. -/
theorem ne_of_goesLeft (h : Rotated f n p) (hlm : l ≤ m) (hmr : m ≤ r) (hr : r < n)
    (hx : GoesLeft (f l) (f m) (f r) x) (hne : f m ≠ x) (hmj : m ≤ j) (hjr : j ≤ r) :
    f j ≠ x := by
  rw [GoesLeft] at hx
  split at hx
  next hlast =>
    obtain ⟨hmp, hpr⟩ := h.pivot_between hmr hr hlast
    rcases lt_or_ge j p with hj | hj
    · exact (hx.2.trans_le (h.le hmj (hjr.trans_lt hr) (Or.inl hj))).ne'
    · exact ((h.falls l j (hlm.trans_lt hmp) hj (hjr.trans_lt hr)).trans_le hx.1).ne
  next hlast =>
    have hside := h.same_side hr (not_lt.1 hlast)
    have hle := h.le hmj (hjr.trans_lt hr) (by omega)
    have hle' := h.le hjr hr (by omega)
    split at hx
    next =>
      rintro rfl
      exact hx ⟨hle.lt_of_ne hne, hle'⟩
    next => exact (hx.trans_le hle).ne'

/-- Behind the middle: the value is not in front of it. -/
theorem ne_of_not_goesLeft (h : Rotated f n p) (hlm : l ≤ m) (hmr : m ≤ r) (hr : r < n)
    (hx : ¬ GoesLeft (f l) (f m) (f r) x) (hne : f m ≠ x) (hlj : l ≤ j) (hjm : j ≤ m) :
    f j ≠ x := by
  have hm : m < n := hmr.trans_lt hr
  rw [GoesLeft] at hx
  split at hx
  next hlast =>
    have hmp := (h.pivot_between hmr hr hlast).1
    have hle := h.le hlj (hjm.trans_lt hm) (Or.inl (hjm.trans_lt hmp))
    have hle' := h.le hjm hm (Or.inl hmp)
    rintro rfl
    exact hx ⟨hle, hle'.lt_of_ne hne.symm⟩
  next hlast =>
    split at hx
    next hfirst =>
      obtain ⟨hlp, hpm⟩ := h.pivot_between hlm hm hfirst
      obtain ⟨hlt, hle⟩ := not_not.1 hx
      rcases lt_or_ge j p with hj | hj
      · exact (hle.trans_lt (h.falls j r hj (hpm.trans hmr) hr)).ne'
      · exact ((h.le hjm hm (Or.inr hj)).trans_lt hlt).ne
    next hfirst =>
      have hside := h.same_side hm (not_lt.1 hfirst)
      have hle := h.le hjm hm (by omega)
      exact (hle.trans_lt ((not_lt.1 hx).lt_of_ne hne)).ne

end RotatedOrder
