import Mathlib.Algebra.Order.Group.Defs
import Mathlib.Algebra.Order.Monoid.Unbundled.Basic
import Mathlib.Data.Int.Order.Basic
import Mathlib.Data.Set.Insert
import Mathlib.Order.Lattice
import Mathlib.Tactic.Common

/-!
# Pairs with a given sum

The pairs of elements with a given sum, at two positions of a range in which the elements ascend.
If the sum of the first and the last element is too small, the first one is in no such pair, and
the last one if it is too large. If it is right, both belong to one pair only, also if there are
several elements of the same value (`pairs_eq_insert`).
-/

namespace PairSum

section Values

variable {α : Type*} {f : ℤ → α} {target : α} {l l' r r' : ℤ}

/-- The elements ascend from `l` to `r`. -/
def Ascends [LE α] (f : ℤ → α) (l r : ℤ) : Prop := ∀ p q, l ≤ p → p ≤ q → q ≤ r → f p ≤ f q

theorem Ascends.mono [LE α] (h : Ascends f l r) (hl : l ≤ l') (hr : r' ≤ r) : Ascends f l' r' :=
  fun p q hp hpq hq ↦ h p q (hl.trans hp) hpq (hq.trans hr)

/-- The values at two positions from `l` to `r` with the sum `target`. -/
def pairs [Add α] (f : ℤ → α) (target : α) (l r : ℤ) : Set (α × α) :=
  {b | ∃ p q, l ≤ p ∧ p < q ∧ q ≤ r ∧ f p + f q = target ∧ b = (f p, f q)}

variable [Add α]

theorem pairs_eq_empty (h : r ≤ l) : pairs f target l r = ∅ := by
  refine Set.eq_empty_iff_forall_notMem.2 ?_
  rintro b ⟨p, q, hp, hpq, hq, -⟩
  omega

theorem pairs_mono (hl : l ≤ l') (hr : r' ≤ r) : pairs f target l' r' ⊆ pairs f target l r := by
  rintro b ⟨p, q, hp, hpq, hq, h⟩
  exact ⟨p, q, hl.trans hp, hpq, hq.trans hr, h⟩

/-- A first value that is less than all others is in no pair. -/
theorem notMem_pairs [LinearOrder α] (h : Ascends f l' r') {x y : α} (hx : l' < r' → x < f l') :
    (x, y) ∉ pairs f target l' r' := by
  rintro ⟨p, q, hp, hpq, hq, -, heq⟩
  have hlt := hx (by omega)
  rw [(Prod.mk.inj heq).1] at hlt
  exact absurd (h l' p le_rfl hp (by omega)) (not_le.2 hlt)

end Values

variable {α : Type*} [AddCommMonoid α] [LinearOrder α] [IsOrderedCancelAddMonoid α]
  {f : ℤ → α} {target : α} {l l' r r' : ℤ}

/-- Where the sum is too small, the left end belongs to no pair. -/
theorem pairs_succ (h : Ascends f l r) (hlt : f l + f r < target) :
    pairs f target l r = pairs f target (l + 1) r := by
  refine Set.Subset.antisymm ?_ (pairs_mono (by omega) le_rfl)
  rintro b ⟨p, q, hp, hpq, hq, hsum, rfl⟩
  rcases hp.lt_or_eq with hp | rfl
  · exact ⟨p, q, hp, hpq, hq, hsum, rfl⟩
  · have hle : f l + f q ≤ f l + f r := add_le_add_right (h q r (by omega) hq le_rfl) (f l)
    exact absurd hsum (hle.trans_lt hlt).ne

/-- Where the sum is too large, the right end belongs to no pair. -/
theorem pairs_pred (h : Ascends f l r) (hlt : target < f l + f r) :
    pairs f target l r = pairs f target l (r - 1) := by
  refine Set.Subset.antisymm ?_ (pairs_mono le_rfl (by omega))
  rintro b ⟨p, q, hp, hpq, hq, hsum, rfl⟩
  rcases hq.lt_or_eq with hq | rfl
  · exact ⟨p, q, hp, hpq, by omega, hsum, rfl⟩
  · have hle : f l + f q ≤ f p + f q := add_le_add_left (h l p le_rfl hp (by omega)) (f q)
    exact absurd hsum (hlt.trans_le hle).ne'

/-- **The values at both ends** are one pair; all others are between those that are different. -/
theorem pairs_eq_insert (hlr : l < r) (hsum : f l + f r = target)
    (hl : l ≤ l') (hr : r' ≤ r) (hleft : ∀ p, l ≤ p → p < l' → f p = f l)
    (hright : ∀ q, r' < q → q ≤ r → f q = f r) :
    pairs f target l r = insert (f l, f r) (pairs f target l' r') := by
  refine Set.Subset.antisymm ?_ (Set.insert_subset ⟨l, r, le_rfl, hlr, le_rfl, hsum, rfl⟩
    (pairs_mono hl hr))
  rintro b ⟨p, q, hp, hpq, hq, hsum', rfl⟩
  by_cases heq : f p = f l
  · rw [heq, ← hsum] at hsum'
    exact Or.inl (by rw [heq, add_left_cancel hsum'])
  · refine Or.inr ⟨p, q, ?_, hpq, ?_, hsum', rfl⟩
    · by_contra hp'
      exact heq (hleft p hp (by omega))
    · by_contra hq'
      rw [hright q (by omega) hq, ← hsum] at hsum'
      exact heq (add_right_cancel hsum')

end PairSum
