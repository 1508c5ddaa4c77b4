import Mathlib.Data.Nat.Notation
import Mathlib.Order.Bounds.Basic
import Mathlib.Order.Nat
import Mathlib.Tactic.Common

/-!
# The water level over a sequence of bars

The level over a bar is the lower one of the highest bars at or before it and at or behind it
(`IsLevel`).

Bars can be taken from both ends, as long as a common level `h` is known: those that have been taken
are not higher, and on each side there is a bar that is not lower (`Taken`). Then `h` is the level
over the next bar on a side, if this bar is not higher.
-/

namespace WaterLevel

variable {α : Type*} [LinearOrder α] {f : ℕ → α} {n i l r : ℕ} {h h' a b : α}

/-- `h` is the level over the bar `i` of the bars `0, …, n - 1`. -/
structure IsLevel (f : ℕ → α) (n i : ℕ) (h : α) : Prop where
  before : ∃ j ≤ i, h ≤ f j
  behind : ∃ j < n, i ≤ j ∧ h ≤ f j
  le : (∀ j ≤ i, f j ≤ h) ∨ ∀ j < n, i ≤ j → f j ≤ h

/-- The level is the lesser of the highest bars on both sides. -/
theorem isLevel_min (ha : IsGreatest {x | ∃ j ≤ i, f j = x} a)
    (hb : IsGreatest {x | ∃ j < n, i ≤ j ∧ f j = x} b) : IsLevel f n i (min a b) where
  before := by
    obtain ⟨j, hj, hval⟩ := ha.1
    exact ⟨j, hj, hval ▸ min_le_left _ _⟩
  behind := by
    obtain ⟨j, hj, hij, hval⟩ := hb.1
    exact ⟨j, hj, hij, hval ▸ min_le_right _ _⟩
  le := by
    rcases le_total a b with hab | hab
    · rw [min_eq_left hab]
      exact Or.inl fun j hj ↦ ha.2 ⟨j, hj, rfl⟩
    · rw [min_eq_right hab]
      exact Or.inr fun j hj hij ↦ hb.2 ⟨j, hj, hij, rfl⟩

theorem IsLevel.le_of_isLevel (h₁ : IsLevel f n i h) (h₂ : IsLevel f n i h') : h ≤ h' := by
  rcases h₂.le with hle | hle
  · obtain ⟨j, hj, hval⟩ := h₁.before
    exact hval.trans (hle j hj)
  · obtain ⟨j, hj, hij, hval⟩ := h₁.behind
    exact hval.trans (hle j hj hij)

/-- There is one level at each position. -/
theorem IsLevel.unique (h₁ : IsLevel f n i h) (h₂ : IsLevel f n i h') : h = h' :=
  (h₁.le_of_isLevel h₂).antisymm (h₂.le_of_isLevel h₁)

theorem IsLevel.congr {g : ℕ → α} (hlevel : IsLevel f n i h) (hi : i < n)
    (hfg : ∀ j < n, f j = g j) : IsLevel g n i h where
  before := by
    obtain ⟨j, hj, hval⟩ := hlevel.before
    exact ⟨j, hj, hfg j (by omega) ▸ hval⟩
  behind := by
    obtain ⟨j, hj, hij, hval⟩ := hlevel.behind
    exact ⟨j, hj, hij, hfg j hj ▸ hval⟩
  le := hlevel.le.imp (fun hle j hj ↦ hfg j (by omega) ▸ hle j hj)
    fun hle j hj hij ↦ hfg j hj ▸ hle j hj hij

/-- The bars before `l` and behind `r` have been taken, with the level `h`. -/
structure Taken (f : ℕ → α) (n l r : ℕ) (h : α) : Prop where
  le : l ≤ r
  lt : r < n
  outside : ∀ j < n, j < l ∨ r < j → f j ≤ h
  before : ∃ j ≤ l, h ≤ f j
  behind : ∃ j < n, r ≤ j ∧ h ≤ f j

/-- Over a left bar that is not above `h`, the level is `h`. -/
theorem Taken.isLevel_left (ht : Taken f n l r h) (hle : f l ≤ h) : IsLevel f n l h where
  before := ht.before
  behind := by
    obtain ⟨j, hj, hrj, hval⟩ := ht.behind
    exact ⟨j, hj, ht.le.trans hrj, hval⟩
  le := by
    refine Or.inl fun j hj ↦ ?_
    rcases hj.lt_or_eq with hlt | rfl
    · exact ht.outside j (by have := ht.le; have := ht.lt; omega) (Or.inl hlt)
    · exact hle

/-- Over a right bar that is not above `h`, the level is `h`. -/
theorem Taken.isLevel_right (ht : Taken f n l r h) (hle : f r ≤ h) : IsLevel f n r h where
  before := by
    obtain ⟨j, hj, hval⟩ := ht.before
    exact ⟨j, hj.trans ht.le, hval⟩
  behind := ht.behind
  le := by
    refine Or.inr fun j hj hrj ↦ ?_
    rcases hrj.lt_or_eq with hlt | rfl
    · exact ht.outside j hj (Or.inr hlt)
    · exact hle

/-- The bar that is left over is not lower than the others. -/
theorem Taken.isLevel_last (ht : Taken f n l l h) (hle : h ≤ f l) : IsLevel f n l (f l) where
  before := ⟨l, le_rfl, le_rfl⟩
  behind := ⟨l, ht.lt, le_rfl, le_rfl⟩
  le := by
    refine Or.inl fun j hj ↦ ?_
    rcases hj.lt_or_eq with hlt | rfl
    · exact (ht.outside j (hlt.trans ht.lt) (Or.inl hlt)).trans hle
    · exact le_rfl

/-- The left end moves over such a bar. -/
theorem Taken.left (ht : Taken f n l r h) (hlt : l < r) (hle : f l ≤ h) :
    Taken f n (l + 1) r h where
  le := hlt
  lt := ht.lt
  outside j hj hout := by
    rcases eq_or_ne j l with rfl | hne
    · exact hle
    · exact ht.outside j hj (by omega)
  before := by
    obtain ⟨j, hj, hval⟩ := ht.before
    exact ⟨j, hj.trans (Nat.le_succ l), hval⟩
  behind := ht.behind

/-- The right end moves over such a bar. -/
theorem Taken.right (ht : Taken f n l (r + 1) h) (hlt : l < r + 1) (hle : f (r + 1) ≤ h) :
    Taken f n l r h where
  le := Nat.lt_succ_iff.1 hlt
  lt := (Nat.lt_succ_self r).trans ht.lt
  outside j hj hout := by
    rcases eq_or_ne j (r + 1) with rfl | hne
    · exact hle
    · exact ht.outside j hj (by omega)
  before := ht.before
  behind := by
    obtain ⟨j, hj, hrj, hval⟩ := ht.behind
    exact ⟨j, hj, (Nat.le_succ r).trans hrj, hval⟩

/-- The level rises to the lower one of the next bars. -/
theorem Taken.raise (ht : Taken f n l r h) (hl : h ≤ f l) (hr : h ≤ f r) :
    Taken f n l r (min (f l) (f r)) where
  le := ht.le
  lt := ht.lt
  outside j hj hout := (ht.outside j hj hout).trans (le_min hl hr)
  before := ⟨l, le_rfl, min_le_left _ _⟩
  behind := ⟨r, ht.lt, le_rfl, min_le_right _ _⟩

end WaterLevel
