import Mathlib.Algebra.Order.Ring.Defs
import Mathlib.Data.Finset.Card
import Mathlib.Data.Nat.Cast.Order.Ring
import Mathlib.Order.Bounds.Basic

/-!
# Splitting a set into pairs, one after the other

A list of pairs `Splits` a finite set if each element of the set is in one of the pairs, once. If
the pairs are numbered from `k` on, the score of the list is the sum of their weights, each times
the number of the pair.

A score is found from the first pair, with the others numbered from `k + 1` on (`exists_first`), and
also from the last one (`exists_last`).
-/

namespace OrderedPairs

variable {ι α : Type*} {S : Finset ι} {ps qs : List (ι × ι)} {i j : ι} {k : ℕ}

/-- The elements of the pairs. -/
def elements (ps : List (ι × ι)) : List ι := ps.flatMap fun p ↦ [p.1, p.2]

@[simp] theorem elements_cons (i j : ι) (ps : List (ι × ι)) :
    elements ((i, j) :: ps) = i :: j :: elements ps := rfl

theorem elements_append (ps qs : List (ι × ι)) :
    elements (ps ++ qs) = elements ps ++ elements qs := List.flatMap_append

theorem length_elements (ps : List (ι × ι)) : (elements ps).length = 2 * ps.length := by
  induction ps with
  | nil => rfl
  | cons p ps ih =>
    rw [elements_cons, List.length_cons, List.length_cons, ih, List.length_cons]
    omega

/-- The elements of the pairs are those of the set, each once. -/
def Splits (S : Finset ι) (ps : List (ι × ι)) : Prop := (elements ps : Multiset ι) = S.val

theorem splits_nil_iff : Splits S [] ↔ S = ∅ := by
  rw [Splits, eq_comm, ← Finset.val_eq_zero]
  exact Iff.rfl

/-- A set that is split has twice as many elements as there are pairs. -/
theorem Splits.card (h : Splits S ps) : S.card = 2 * ps.length := by
  rw [Finset.card_def, ← h, Multiset.coe_card, length_elements]

theorem splits_append_comm : Splits S (ps ++ qs) ↔ Splits S (qs ++ ps) := by
  have hperm : (elements ps ++ elements qs).Perm (elements qs ++ elements ps) :=
    List.perm_append_comm
  rw [Splits, Splits, elements_append, elements_append, Multiset.coe_eq_coe.2 hperm]

section DecidableEq

variable [DecidableEq ι]

/-- The first pair is taken from the set, and the others split the rest. -/
theorem splits_cons_iff : Splits S ((i, j) :: ps) ↔
    i ∈ S ∧ j ∈ S ∧ i ≠ j ∧ Splits ((S.erase i).erase j) ps := by
  rw [Splits, elements_cons, ← Multiset.cons_coe, ← Multiset.cons_coe]
  constructor
  · intro h
    have hnodup := S.nodup
    rw [← h, Multiset.nodup_cons, Multiset.nodup_cons, Multiset.mem_cons, not_or] at hnodup
    have hi : i ∈ S := by
      rw [← Finset.mem_val, ← h]
      exact Multiset.mem_cons_self i _
    have hj : j ∈ S := by
      rw [← Finset.mem_val, ← h]
      exact Multiset.mem_cons_of_mem (Multiset.mem_cons_self j _)
    refine ⟨hi, hj, hnodup.1.1, ?_⟩
    rw [Splits, Finset.erase_val, Finset.erase_val, ← h, Multiset.erase_cons_head,
      Multiset.erase_cons_head]
  · rintro ⟨hi, hj, hij, h⟩
    have hj' : j ∈ S.erase i := Finset.mem_erase.2 ⟨hij.symm, hj⟩
    rw [h, Finset.erase_val, Multiset.cons_erase (by exact hj'), Finset.erase_val,
      Multiset.cons_erase (by exact hi)]

/-- The last pair is taken from the set, and the others split the rest. -/
theorem splits_concat_iff : Splits S (ps ++ [(i, j)]) ↔
    i ∈ S ∧ j ∈ S ∧ i ≠ j ∧ Splits ((S.erase i).erase j) ps := by
  rw [splits_append_comm]
  exact splits_cons_iff

/-- **Every set** of an even number of elements can be split. -/
theorem exists_splits (h : Even S.card) : ∃ ps, Splits S ps := by
  obtain ⟨m, hm⟩ := h
  induction m generalizing S with
  | zero => exact ⟨[], splits_nil_iff.2 (Finset.card_eq_zero.1 hm)⟩
  | succ m ih =>
    obtain ⟨i, hi, j, hj, hij⟩ := Finset.one_lt_card.1 (show 1 < S.card by omega)
    have hj' : j ∈ S.erase i := Finset.mem_erase.2 ⟨hij.symm, hj⟩
    obtain ⟨ps, hps⟩ := ih (S := (S.erase i).erase j) (by
      rw [Finset.card_erase_of_mem hj', Finset.card_erase_of_mem hi]
      omega)
    exact ⟨(i, j) :: ps, splits_cons_iff.2 ⟨hi, hj, hij, hps⟩⟩

end DecidableEq

/-! ### Scores -/

section Semiring

variable [Semiring α] {w : ι → ι → α} {x y : α}

/-- The sum of the weights, each times the number of its pair, from `k` on. -/
def score (w : ι → ι → α) : ℕ → List (ι × ι) → α
  | _, [] => 0
  | k, (i, j) :: ps => k * w i j + score w (k + 1) ps

/-- The last pair has the largest factor. -/
theorem score_concat (w : ι → ι → α) (k : ℕ) (ps : List (ι × ι)) (i j : ι) :
    score w k (ps ++ [(i, j)]) = (k + ps.length : ℕ) * w i j + score w k ps := by
  induction ps generalizing k with
  | nil => rfl
  | cons p ps ih =>
    rw [List.cons_append, score, ih, score, List.length_cons, add_left_comm, add_assoc,
      add_comm 1]

/-- The scores of all lists that split `S`. -/
def scores (w : ι → ι → α) (k : ℕ) (S : Finset ι) : Set α :=
  {x | ∃ ps, Splits S ps ∧ score w k ps = x}

theorem mem_scores_empty_iff : x ∈ scores w k (∅ : Finset ι) ↔ x = 0 := by
  constructor
  · rintro ⟨ps, hps, rfl⟩
    have hlen := hps.card
    rw [Finset.card_empty] at hlen
    rw [List.length_eq_zero_iff.1 (show ps.length = 0 by omega), score]
  · rintro rfl
    exact ⟨[], splits_nil_iff.2 rfl, rfl⟩

variable [DecidableEq ι]

/-- A set with an even number of elements can be split. -/
theorem scores_nonempty (w : ι → ι → α) (k : ℕ) (h : Even S.card) : (scores w k S).Nonempty := by
  obtain ⟨ps, hps⟩ := exists_splits h
  exact ⟨_, ps, hps, rfl⟩

/-- A pair in front of the others. -/
theorem mem_scores_first (hi : i ∈ S) (hj : j ∈ S) (hij : i ≠ j)
    (hy : y ∈ scores w (k + 1) ((S.erase i).erase j)) : k * w i j + y ∈ scores w k S := by
  obtain ⟨ps, hps, rfl⟩ := hy
  exact ⟨(i, j) :: ps, splits_cons_iff.2 ⟨hi, hj, hij, hps⟩, rfl⟩

/-- A pair behind the others. -/
theorem mem_scores_last (hi : i ∈ S) (hj : j ∈ S) (hij : i ≠ j)
    (hy : y ∈ scores w k ((S.erase i).erase j)) :
    (k + ((S.erase i).erase j).card / 2 : ℕ) * w i j + y ∈ scores w k S := by
  obtain ⟨ps, hps, rfl⟩ := hy
  refine ⟨ps ++ [(i, j)], splits_concat_iff.2 ⟨hi, hj, hij, hps⟩, ?_⟩
  rw [score_concat, hps.card, Nat.mul_div_cancel_left _ Nat.two_pos]

end Semiring

section LinearOrder

variable [LinearOrder ι] [Semiring α] {w : ι → ι → α} {x : α}

/-- The pair in front, if the order of its elements does not matter. -/
theorem exists_first (hw : ∀ i j, w i j = w j i) (hS : S.Nonempty) (hx : x ∈ scores w k S) :
    ∃ i ∈ S, ∃ j ∈ S, i < j ∧
      ∃ y ∈ scores w (k + 1) ((S.erase i).erase j), k * w i j + y = x := by
  obtain ⟨ps, hps, rfl⟩ := hx
  cases ps with
  | nil => exact absurd (splits_nil_iff.1 hps) hS.ne_empty
  | cons p ps =>
    obtain ⟨i, j⟩ := p
    obtain ⟨hi, hj, hij, hrest⟩ := splits_cons_iff.1 hps
    rcases lt_or_gt_of_ne hij with hlt | hgt
    · exact ⟨i, hi, j, hj, hlt, _, ⟨ps, hrest, rfl⟩, rfl⟩
    · refine ⟨j, hj, i, hi, hgt, _, ⟨ps, ?_, rfl⟩, by rw [hw, score]⟩
      rwa [Finset.erase_right_comm]

/-- The pair behind, if the order of its elements does not matter. -/
theorem exists_last (hw : ∀ i j, w i j = w j i) (hS : S.Nonempty) (hx : x ∈ scores w k S) :
    ∃ i ∈ S, ∃ j ∈ S, i < j ∧ ∃ y ∈ scores w k ((S.erase i).erase j),
      (k + ((S.erase i).erase j).card / 2 : ℕ) * w i j + y = x := by
  obtain ⟨ps, hps, rfl⟩ := hx
  rcases List.eq_nil_or_concat' ps with rfl | ⟨ps, ⟨i, j⟩, rfl⟩
  · exact absurd (splits_nil_iff.1 hps) hS.ne_empty
  · obtain ⟨hi, hj, hij, hrest⟩ := splits_concat_iff.1 hps
    have hcard : ps.length = ((S.erase i).erase j).card / 2 := by
      rw [hrest.card, Nat.mul_div_cancel_left _ Nat.two_pos]
    rcases lt_or_gt_of_ne hij with hlt | hgt
    · exact ⟨i, hi, j, hj, hlt, _, ⟨ps, hrest, rfl⟩, by rw [score_concat, hcard]⟩
    · rw [Finset.erase_right_comm] at hrest hcard
      exact ⟨j, hj, i, hi, hgt, _, ⟨ps, hrest, rfl⟩, by rw [score_concat, hcard, hw]⟩

end LinearOrder

section Order

variable [Semiring α] [PartialOrder α] [IsOrderedRing α] {w : ι → ι → α} {x : α}

theorem scores_nonneg (hw : ∀ i j, 0 ≤ w i j) (hx : x ∈ scores w k S) : 0 ≤ x := by
  obtain ⟨ps, -, rfl⟩ := hx
  induction ps generalizing k with
  | nil => exact le_refl 0
  | cons p ps ih => exact add_nonneg (mul_nonneg (Nat.cast_nonneg k) (hw p.1 p.2)) ih

/-- **The greatest score** is a bound that is zero or a score. -/
theorem isGreatest_of_le [DecidableEq ι] (hw : ∀ i j, 0 ≤ w i j) (hS : Even S.card)
    (hx : x = 0 ∨ x ∈ scores w k S) (hle : ∀ y ∈ scores w k S, y ≤ x) :
    IsGreatest (scores w k S) x := by
  refine ⟨?_, hle⟩
  rcases hx with rfl | hx
  · obtain ⟨y, hy⟩ := scores_nonempty w k hS
    rwa [← le_antisymm (hle y hy) (scores_nonneg hw hy)]
  · exact hx

end Order

end OrderedPairs
