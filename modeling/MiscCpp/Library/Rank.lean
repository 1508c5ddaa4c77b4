import Mathlib.Data.List.Basic
import Mathlib.Data.Nat.Notation
import Mathlib.Order.Lattice
import Mathlib.Tactic.Common

/-!
# The rank of an element

`IsRank l k c` says that `c` is at the place `k`, counted from 1, if the list `l` is sorted: less
than `k` elements are less than `c`, and at least `k` are not greater. It is a property of the
elements only, not of their order.

If a list is split in two parts with no greater elements in the first one, then its greatest element
and the least one of the second part have the ranks on both sides of the cut.
-/

namespace Rank

variable {α : Type*} [LinearOrder α] {l l' front back : List α} {j k : ℕ} {c d : α}

/-- Fewer than `k` elements are less than `c`, and at least `k` are not greater. -/
def IsRank (l : List α) (k : ℕ) (c : α) : Prop :=
  l.countP (· < c) < k ∧ k ≤ l.countP (· ≤ c)

/-- The order of the list does not matter for the ranks. -/
theorem IsRank.perm (h : IsRank l k c) (hperm : l.Perm l') : IsRank l' k c :=
  ⟨hperm.countP_eq _ ▸ h.1, hperm.countP_eq _ ▸ h.2⟩

/-- An element of a smaller rank is not greater. -/
theorem IsRank.le (hc : IsRank l j c) (hd : IsRank l k d) (hjk : j ≤ k) : c ≤ d := by
  by_contra hlt
  have hcount : l.countP (· ≤ d) ≤ l.countP (· < c) := List.countP_mono_left fun x _ hx ↦
    decide_eq_true ((of_decide_eq_true hx).trans_lt (not_le.1 hlt))
  have hc' := hc.1
  have hd' := hd.2
  omega

/-- At most one value has a given rank. -/
theorem IsRank.unique (hc : IsRank l k c) (hd : IsRank l k d) : c = d :=
  (hc.le hd (Nat.le_refl k)).antisymm (hd.le hc (Nat.le_refl k))

/-- The greatest element of the first part. -/
theorem isRank_front (hle : ∀ x ∈ front, ∀ y ∈ back, x ≤ y) (hc : c ∈ front)
    (hmax : ∀ x ∈ front, x ≤ c) : IsRank (front ++ back) front.length c := by
  rw [IsRank, List.countP_append, List.countP_append]
  have hback : back.countP (· < c) = 0 :=
    List.countP_eq_zero.2 fun y hy h ↦ absurd (of_decide_eq_true h) (not_lt.2 (hle c hc y hy))
  have hfront : front.countP (· ≤ c) = front.length :=
    List.countP_eq_length.2 fun x hx ↦ decide_eq_true (hmax x hx)
  refine ⟨?_, by omega⟩
  rw [hback, Nat.add_zero]
  refine Nat.lt_of_le_of_ne List.countP_le_length fun heq ↦ ?_
  exact lt_irrefl c (of_decide_eq_true (List.countP_eq_length.1 heq c hc))

/-- The least element of the second part. -/
theorem isRank_back (hle : ∀ x ∈ front, ∀ y ∈ back, x ≤ y) (hc : c ∈ back)
    (hmin : ∀ y ∈ back, c ≤ y) : IsRank (front ++ back) (front.length + 1) c := by
  rw [IsRank, List.countP_append, List.countP_append]
  have hback : back.countP (· < c) = 0 :=
    List.countP_eq_zero.2 fun y hy h ↦ absurd (of_decide_eq_true h) (not_lt.2 (hmin y hy))
  have hfront : front.countP (· ≤ c) = front.length :=
    List.countP_eq_length.2 fun x hx ↦ decide_eq_true (hle x hx c hc)
  have hpos : 0 < back.countP (· ≤ c) := List.countP_pos_iff.2 ⟨c, hc, decide_eq_true le_rfl⟩
  have hlen : front.countP (· < c) ≤ front.length := List.countP_le_length
  omega

/-- In a sorted list the ranks are the positions. -/
theorem isRank_of_sorted (hl : l.Pairwise (· ≤ ·)) (hk : l[k]? = some c) :
    IsRank l (k + 1) c := by
  obtain ⟨hlt, rfl⟩ := List.getElem?_eq_some_iff.1 hk
  have hsplit := List.take_append_drop k l
  rw [List.drop_eq_getElem_cons hlt] at hsplit
  have hpair := hl
  rw [← hsplit, List.pairwise_append, List.pairwise_cons] at hpair
  obtain ⟨-, ⟨hback, -⟩, hcross⟩ := hpair
  have hrank := isRank_back hcross List.mem_cons_self fun y hy ↦ by
    rcases List.mem_cons.1 hy with rfl | hy
    · exact le_rfl
    · exact hback y hy
  rwa [hsplit, List.length_take_of_le (Nat.le_of_lt hlt)] at hrank

/-- **The element at a place** of the sorted elements is the one of that rank. -/
theorem getElem?_eq_some_iff_isRank (hl : l'.Pairwise (· ≤ ·)) (hperm : l'.Perm l)
    (hk : k < l.length) : l'[k]? = some c ↔ IsRank l (k + 1) c := by
  refine ⟨fun h ↦ (isRank_of_sorted hl h).perm hperm, fun h ↦ ?_⟩
  have hk' : k < l'.length := by rwa [hperm.length_eq]
  have hget : l'[k]? = some l'[k] := List.getElem?_eq_getElem hk'
  rw [hget, ((isRank_of_sorted hl hget).perm hperm).unique h]

end Rank
