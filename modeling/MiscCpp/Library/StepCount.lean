import Mathlib.Order.Bounds.Basic
import Mathlib.Tactic.Common

/-!
# The smallest number of steps

`Takes r k a b` says that `b` is reached from `a` in `k` steps of the relation `r`. A number that is
attained is the smallest one if it comes from a bound that no step lowers by more than 1
(`isLeast_of_bound`).
-/

namespace StepCount

variable {α : Type*} {r : α → α → Prop} {a b c : α} {j k : ℕ}

/-- So many steps lead from the first to the second. -/
inductive Takes (r : α → α → Prop) : ℕ → α → α → Prop
  | refl (a : α) : Takes r 0 a a
  | head {a b c : α} {k : ℕ} (h : r a b) (hrest : Takes r k b c) : Takes r (k + 1) a c

theorem Takes.trans (h : Takes r j a b) (h' : Takes r k b c) : Takes r (j + k) a c := by
  induction h with
  | refl a => rwa [Nat.zero_add]
  | head hab _ ih =>
    rw [Nat.succ_add]
    exact .head hab (ih h')

theorem Takes.one (h : r a b) : Takes r 1 a b := .head h (.refl b)

/-- The steps seen through a function. -/
theorem Takes.map {β : Type*} {r' : β → β → Prop} {f : α → β}
    (hf : ∀ a b, r a b → r' (f a) (f b)) (h : Takes r k a b) : Takes r' k (f a) (f b) := by
  induction h with
  | refl a => exact .refl (f a)
  | head hab _ ih => exact .head (hf _ _ hab) ih

/-- What one step lowers by at most one, `k` steps lower by at most `k`. -/
theorem le_of_takes {bound : α → ℕ} (hstep : ∀ a b, r a b → bound a ≤ bound b + 1)
    (h : Takes r k a b) : bound a ≤ bound b + k := by
  induction h with
  | refl a => exact Nat.le_refl _
  | head hab _ ih =>
    have hle := hstep _ _ hab
    omega

/-- **What is attained and no step lowers by more than 1** is the smallest number of steps. -/
theorem isLeast_of_bound {bound : α → ℕ} (hstep : ∀ a b, r a b → bound a ≤ bound b + 1)
    (hb : bound b = 0) (h : Takes r (bound a) a b) : IsLeast {k | Takes r k a b} (bound a) := by
  refine ⟨h, fun k hk ↦ ?_⟩
  have hle := le_of_takes hstep hk
  omega

end StepCount
