import Mathlib.Algebra.Group.Nat.Defs
import Mathlib.Logic.Function.Basic
import Mathlib.Order.Nat
import Mathlib.Tactic.Common

/-!
# Copying between regions that may overlap

A memory is a function of the addresses, and a region is a sequence of addresses. Cells are copied
one after the other: upwards (`Copied.up`) as long as no address is read that has been written, and
in the same way downwards (`Copied.down`).
-/

namespace RegionCopy

open Function

variable {ι β : Type*} {m₀ m : ι → β} {dest src : ℕ → ι} {lo hi : ℕ}

/-- The cells from `lo` to `hi` of the region `dest` have the values that those of `src` had in
`m₀`, and nothing else has changed. -/
structure Copied (m₀ : ι → β) (dest src : ℕ → ι) (lo hi : ℕ) (m : ι → β) : Prop where
  copied : ∀ i, lo ≤ i → i < hi → m (dest i) = m₀ (src i)
  frame : ∀ a, (∀ i, lo ≤ i → i < hi → a ≠ dest i) → m a = m₀ a

theorem copied_self (m : ι → β) (dest src : ℕ → ι) (lo : ℕ) : Copied m dest src lo lo m where
  copied _ hi hlt := absurd hlt (not_lt.2 hi)
  frame _ _ := rfl

variable [DecidableEq ι]

/-- The next cell. -/
theorem Copied.up (h : Copied m₀ dest src lo hi m) (hle : lo ≤ hi)
    (hsrc : ∀ i, lo ≤ i → i < hi → src hi ≠ dest i)
    (hdest : ∀ i, lo ≤ i → i < hi → dest i ≠ dest hi) :
    Copied m₀ dest src lo (hi + 1) (update m (dest hi) (m (src hi))) where
  copied i hi' hlt := by
    rcases (Nat.lt_succ_iff.1 hlt).lt_or_eq with hlt | rfl
    · rw [update_of_ne (hdest i hi' hlt), h.copied i hi' hlt]
    · rw [update_self, h.frame _ hsrc]
  frame a ha := by
    rw [update_of_ne (ha hi hle (Nat.lt_succ_self hi))]
    exact h.frame a fun i hi' hlt ↦ ha i hi' (hlt.trans (Nat.lt_succ_self hi))

/-- The cell before. -/
theorem Copied.down (h : Copied m₀ dest src (lo + 1) hi m) (hlt : lo < hi)
    (hsrc : ∀ i, lo < i → i < hi → src lo ≠ dest i)
    (hdest : ∀ i, lo < i → i < hi → dest i ≠ dest lo) :
    Copied m₀ dest src lo hi (update m (dest lo) (m (src lo))) where
  copied i hi' hlt' := by
    rcases hi'.lt_or_eq with hlo | rfl
    · rw [update_of_ne (hdest i hlo hlt'), h.copied i hlo hlt']
    · rw [update_self, h.frame _ hsrc]
  frame a ha := by
    rw [update_of_ne (ha lo le_rfl hlt)]
    exact h.frame a fun i hi' hlt' ↦ ha i (Nat.le_of_succ_le hi') hlt'

end RegionCopy
