import Mathlib.Logic.Function.Basic
import Mathlib.Tactic.Common

/-!
# Forests of parent pointers

A function `p : α → α` read as parent pointers: a root is its own parent. `RootOf p x r` says that
the path of parents from `x` ends at the root `r`.

There is at most one such root (`RootOf.unique`). Pointing a node at its own root changes no root
(`rootOf_compress_iff`), and pointing a root at another one changes the roots of its tree
(`rootOf_link_iff`): these are the writes of a union-find structure.
-/

namespace ParentForest

open Function

variable {α : Type*} {p : α → α} {x y r s t : α}

/-- The path of parents from `x` ends at `r`. -/
inductive RootOf (p : α → α) : α → α → Prop
  | root {x : α} (h : p x = x) : RootOf p x x
  | step {x r : α} (h : p x ≠ x) (hr : RootOf p (p x) r) : RootOf p x r

theorem RootOf.fixed (h : RootOf p x r) : p r = r := by
  induction h with
  | root h => exact h
  | step _ _ ih => exact ih

/-- What is its own parent is the root. -/
theorem RootOf.eq_of_fixed (h : RootOf p x r) (hx : p x = x) : r = x := by
  cases h with
  | root => rfl
  | step hne => exact absurd hx hne

/-- A node and its parent have the same root. -/
theorem RootOf.parent (h : RootOf p x r) : RootOf p (p x) r := by
  cases h with
  | root hx => exact hx.symm ▸ .root hx
  | step _ h => exact h

/-- A node has one root. -/
theorem RootOf.unique (h : RootOf p x r) (h' : RootOf p x s) : r = s := by
  induction h with
  | root hx => exact (h'.eq_of_fixed hx).symm
  | step _ _ ih => exact ih h'.parent

/-- Along the path a measure that every parent link increases does not decrease, and it stays the
same only if there is no link. -/
theorem RootOf.rank_lt {rank : α → ℕ} (h : RootOf p x r) {C : α → Prop} (hC : C x)
    (hclosed : ∀ x, C x → C (p x)) (hlt : ∀ x, C x → p x ≠ x → rank x < rank (p x))
    (hne : p x ≠ x) : rank x < rank r := by
  induction h with
  | root hx => exact absurd hx hne
  | @step x r _ h ih =>
    have hrank := hlt x hC hne
    by_cases hpx : p (p x) = p x
    · rwa [h.eq_of_fixed hpx]
    · exact Nat.lt_trans hrank (ih (hclosed x hC) hpx)

/-- A set that contains the parents of its nodes contains their roots. -/
theorem RootOf.mem (h : RootOf p x r) {C : α → Prop} (hC : C x)
    (hclosed : ∀ x, C x → C (p x)) : C r := by
  induction h with
  | root _ => exact hC
  | @step x r _ _ ih => exact ih (hclosed x hC)

/-- Two functions that agree on such a set have the same roots there. -/
theorem RootOf.congr {q : α → α} (h : RootOf p x r) {C : α → Prop} (hC : C x)
    (hclosed : ∀ x, C x → C (p x)) (hpq : ∀ x, C x → q x = p x) : RootOf q x r := by
  induction h with
  | @root x hx => exact .root ((hpq x hC).trans hx)
  | @step x r hne _ ih =>
    refine .step ((hpq x hC).symm ▸ hne) ?_
    rw [hpq x hC]
    exact ih (hclosed x hC)

variable [DecidableEq α]

/-- **Path compression** changes no root. -/
theorem rootOf_compress_iff (hx : RootOf p x r) :
    RootOf (update p x r) y s ↔ RootOf p y s := by
  have hr : update p x r r = r := by
    rcases eq_or_ne r x with rfl | hne
    · exact update_self ..
    · rw [update_of_ne hne, hx.fixed]
  constructor
  · intro h
    induction h with
    | @root y hy =>
      rcases eq_or_ne y x with rfl | hne
      · rw [update_self] at hy
        rwa [hy] at hx
      · rw [update_of_ne hne] at hy
        exact .root hy
    | @step y s hne h ih =>
      rcases eq_or_ne y x with rfl | hyx
      · rw [update_self] at ih
        rwa [ih.eq_of_fixed hx.fixed]
      · rw [update_of_ne hyx] at hne ih
        exact .step hne ih
  · intro h
    induction h with
    | @root y hy =>
      rcases eq_or_ne y x with rfl | hne
      · rw [hx.eq_of_fixed hy] at hr ⊢
        exact .root hr
      · exact .root ((update_of_ne hne ..).trans hy)
    | @step y s hne h ih =>
      rcases eq_or_ne y x with rfl | hyx
      · obtain rfl := hx.unique (.step hne h)
        have hry : r ≠ y := fun heq ↦ hne (heq ▸ hx.fixed)
        refine .step (by rwa [update_self]) ?_
        rw [update_self]
        exact .root hr
      · refine .step (by rwa [update_of_ne hyx]) ?_
        rwa [update_of_ne hyx]

/-- **Linking** the root `s` under the root `r` moves the nodes of its tree. -/
theorem rootOf_link_iff (hr : p r = r) (hs : p s = s) (hrs : r ≠ s) :
    RootOf (update p s r) y t ↔ RootOf p y t ∧ t ≠ s ∨ RootOf p y s ∧ t = r := by
  have hr' : update p s r r = r := by rw [update_of_ne hrs, hr]
  constructor
  · intro h
    induction h with
    | @root y hy =>
      have hne : y ≠ s := by
        rintro rfl
        rw [update_self] at hy
        exact hrs hy
      rw [update_of_ne hne] at hy
      exact .inl ⟨.root hy, hne⟩
    | @step y t hne h ih =>
      rcases eq_or_ne y s with rfl | hys
      · rw [update_self] at ih
        rcases ih with ⟨ih, -⟩ | ⟨ih, -⟩
        · exact .inr ⟨.root hs, ih.eq_of_fixed hr⟩
        · exact absurd (ih.eq_of_fixed hr).symm hrs
      · rw [update_of_ne hys] at hne ih
        exact ih.imp (fun ih ↦ ⟨.step hne ih.1, ih.2⟩) fun ih ↦ ⟨.step hne ih.1, ih.2⟩
  · have hlinked : RootOf (update p s r) s r := by
      refine .step (by rwa [update_self]) ?_
      rw [update_self]
      exact .root hr'
    have hstep : ∀ {y q}, p y ≠ y → RootOf (update p s r) (p y) q → RootOf (update p s r) y q := by
      intro y q hne h
      have hys : y ≠ s := fun heq ↦ hne (heq ▸ hs)
      refine .step (by rwa [update_of_ne hys]) ?_
      rwa [update_of_ne hys]
    have hmove : ∀ {y q}, RootOf p y q → q = s → RootOf (update p s r) y r := by
      intro y q h hq
      induction h with
      | root => exact hq ▸ hlinked
      | step hne _ ih => exact hstep hne (ih hq)
    rintro (⟨h, hts⟩ | ⟨h, rfl⟩)
    · induction h with
      | @root y hy => exact .root ((update_of_ne hts ..).trans hy)
      | step hne _ ih => exact hstep hne (ih hts)
    · exact hmove h rfl

end ParentForest
