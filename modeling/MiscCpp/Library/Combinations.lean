import Mathlib.Algebra.BigOperators.Group.List.Basic
import Mathlib.Algebra.BigOperators.Group.Multiset.Basic
import Mathlib.Algebra.Order.BigOperators.Group.List
import Mathlib.Algebra.Order.Group.Int
import Mathlib.Algebra.Ring.Int.Defs
import Mathlib.Data.Multiset.Sort
import Mathlib.Tactic.Common

/-!
# Combinations with a sum

The combinations of candidates whose weights have a given sum, as ascending lists that are built
from their first element on. For the sum `i` only the candidates are taken that stand in front of
the first one heavier than `i`.

A combination is then built exactly if it is `Unobstructed`: whenever its next element is added, no
candidate in front of that element is heavier than the sum so far (`IsRow.next`). All of them are
built exactly if all are unobstructed (`IsRow.complete_iff`), such as when the candidates ascend
(`unobstructed_of_sorted`).
-/

namespace Combinations

variable {α : Type*} (weight : α → ℤ) (candidates : List α)

/-- A multiset of candidates whose weights have this sum. -/
structure IsCombination (i : ℤ) (M : Multiset α) : Prop where
  subset : ∀ n ∈ M, n ∈ candidates
  sum : (M.map weight).sum = i

/-- No candidate in front of `n` is heavier than `i`. -/
def Visible (n : α) (i : ℤ) : Prop :=
  ∀ front back, candidates = front ++ n :: back → ∀ m ∈ front, weight m ≤ i

/-- Whenever an element of `v` is added, it is visible for the sum so far. -/
def Unobstructed (v : List α) : Prop :=
  ∀ w n, w ++ [n] <+: v → Visible weight candidates n ((w ++ [n]).map weight).sum

/-- The lists that are built for `i`. -/
structure IsBuilt [LE α] (i : ℤ) (v : List α) : Prop where
  sorted : v.Pairwise (· ≤ ·)
  combination : IsCombination weight candidates i v
  unobstructed : Unobstructed weight candidates v

/-- A list of these, each once. -/
structure IsRow [LE α] (i : ℤ) (row : List (List α)) : Prop where
  nodup : row.Nodup
  mem_iff : ∀ v, v ∈ row ↔ IsBuilt weight candidates i v

variable {weight candidates} {i : ℤ} {n m : α} {v : List α} {row : List (List α)}

/-! ### One more element -/

/-- The weights of a combination add up to the target. -/
theorem IsCombination.sum_eq (h : IsCombination weight candidates i (v : Multiset α)) :
    (v.map weight).sum = i := by
  have hsum := h.sum
  rwa [Multiset.map_coe, Multiset.sum_coe] at hsum

/-- Only targets that are not negative have combinations. -/
theorem IsCombination.nonneg (hpos : ∀ n ∈ candidates, 0 < weight n)
    (h : IsCombination weight candidates i (v : Multiset α)) : 0 ≤ i := by
  rw [← h.sum_eq]
  refine List.sum_nonneg fun x hx ↦ ?_
  obtain ⟨n, hn, rfl⟩ := List.mem_map.1 hx
  exact (hpos n (h.subset n hn)).le

/-- A combination and one candidate more. -/
theorem isCombination_concat_iff : IsCombination weight candidates i (v ++ [n] : List α) ↔
    n ∈ candidates ∧ IsCombination weight candidates (i - weight n) (v : Multiset α) := by
  have hsum : ((v ++ [n]).map weight).sum = (v.map weight).sum + weight n := by
    rw [List.map_append, List.map_singleton, List.sum_append, List.sum_singleton]
  constructor
  · intro h
    have htotal := h.sum_eq
    refine ⟨h.subset n (List.mem_append_right v (List.mem_singleton_self n)),
      fun x hx ↦ h.subset x (List.mem_append_left [n] hx), ?_⟩
    rw [Multiset.map_coe, Multiset.sum_coe]
    omega
  · rintro ⟨hn, h⟩
    have htotal := h.sum_eq
    refine ⟨fun x hx ↦ ?_, ?_⟩
    · rcases List.mem_append.1 (Multiset.mem_coe.1 hx) with hx | hx
      · exact h.subset x hx
      · exact List.mem_singleton.1 hx ▸ hn
    · rw [Multiset.map_coe, Multiset.sum_coe]
      omega

/-- The candidates that are taken. -/
theorem mem_takeWhile_iff (hnodup : candidates.Nodup) (i : ℤ) :
    n ∈ candidates.takeWhile (fun m ↦ weight m ≤ i) ↔
      n ∈ candidates ∧ weight n ≤ i ∧ Visible weight candidates n i := by
  induction candidates with
  | nil => exact iff_of_false List.not_mem_nil fun h ↦ absurd h.1 List.not_mem_nil
  | cons m candidates ih =>
    obtain ⟨hm, hnodup'⟩ := List.nodup_cons.1 hnodup
    by_cases hle : weight m ≤ i
    · rw [List.takeWhile_cons_of_pos (by exact decide_eq_true hle), List.mem_cons, List.mem_cons,
        ih hnodup']
      constructor
      · rintro (rfl | ⟨hn, hnle, hvisible⟩)
        · refine ⟨Or.inl rfl, hle, fun front back heq x hx ↦ ?_⟩
          cases front with
          | nil => cases hx
          | cons y front =>
            obtain ⟨rfl, rfl⟩ := List.cons.inj heq
            exact absurd (List.mem_append_right front List.mem_cons_self) hm
        · refine ⟨Or.inr hn, hnle, fun front back heq x hx ↦ ?_⟩
          cases front with
          | nil => cases hx
          | cons y front =>
            obtain ⟨rfl, htail⟩ := List.cons.inj heq
            rcases List.mem_cons.1 hx with rfl | hx
            · exact hle
            · exact hvisible front back htail x hx
      · rintro ⟨rfl | hn, hnle, hvisible⟩
        · exact Or.inl rfl
        · exact Or.inr ⟨hn, hnle, fun front back heq x hx ↦
            hvisible (m :: front) back (congrArg _ heq) x (List.mem_cons_of_mem m hx)⟩
    · rw [List.takeWhile_cons_of_neg (by exact mt of_decide_eq_true hle)]
      refine iff_of_false List.not_mem_nil ?_
      rintro ⟨hn, hnle, hvisible⟩
      rcases List.mem_cons.1 hn with rfl | hn
      · exact hle hnle
      · obtain ⟨front, back, heq⟩ := List.append_of_mem hn
        exact hle (hvisible (m :: front) back (congrArg _ heq) m List.mem_cons_self)

/-- Nothing is in the way if the candidates ascend. -/
theorem unobstructed_of_sorted (hpos : ∀ n ∈ candidates, 0 < weight n)
    (hsorted : candidates.Pairwise fun m n ↦ weight m ≤ weight n)
    (hv : ∀ n ∈ v, n ∈ candidates) : Unobstructed weight candidates v := by
  intro w n hw front back heq m hm
  rw [heq] at hsorted
  have hle := (List.pairwise_append.1 hsorted).2.2 m hm n List.mem_cons_self
  have hnonneg : 0 ≤ (w.map weight).sum := by
    refine List.sum_nonneg fun x hx ↦ ?_
    obtain ⟨y, hy, rfl⟩ := List.mem_map.1 hx
    exact (hpos y (hv y (hw.subset (List.mem_append_left [n] hy)))).le
  rw [List.map_append, List.map_singleton, List.sum_append, List.sum_singleton]
  omega

variable [LinearOrder α]

/-- What the search builds, one candidate further. -/
theorem isBuilt_concat_iff (hnodup : candidates.Nodup) (hpos : ∀ n ∈ candidates, 0 < weight n) :
    IsBuilt weight candidates i (v ++ [n]) ↔
      IsBuilt weight candidates (i - weight n) v ∧ (∀ x ∈ v.getLast?, x ≤ n) ∧
        n ∈ candidates.takeWhile (fun m ↦ weight m ≤ i) := by
  rw [mem_takeWhile_iff hnodup]
  constructor
  · rintro ⟨hsorted, hcomb, hun⟩
    obtain ⟨hn, hcomb'⟩ := isCombination_concat_iff.1 hcomb
    obtain ⟨hsorted', -, hlast⟩ := List.pairwise_append.1 hsorted
    refine ⟨⟨hsorted', hcomb', fun w x hw ↦ hun w x (hw.trans (List.prefix_append v [n]))⟩,
      fun x hx ↦ hlast x (List.mem_of_getLast? hx) n (List.mem_singleton_self n), hn, ?_, ?_⟩
    · have hle := hcomb'.nonneg hpos
      omega
    · exact hcomb.sum_eq ▸ hun v n List.prefix_rfl
  · rintro ⟨⟨hsorted, hcomb, hun⟩, hlast, hn, hle, hvisible⟩
    have hcomb' := isCombination_concat_iff.2 ⟨hn, hcomb⟩
    refine ⟨List.pairwise_append.2 ⟨hsorted, List.pairwise_singleton _ n, fun x hx y hy ↦ ?_⟩,
      hcomb', fun w x hw ↦ ?_⟩
    · rw [List.mem_singleton.1 hy]
      obtain ⟨front, y', rfl⟩ := (List.eq_nil_or_concat' v).resolve_left (List.ne_nil_of_mem hx)
      have hy' := hlast y' List.getLast?_concat
      rcases List.mem_append.1 hx with hx | hx
      · exact ((List.pairwise_append.1 hsorted).2.2 x hx y' (List.mem_singleton_self y')).trans hy'
      · exact List.mem_singleton.1 hx ▸ hy'
    · rcases List.prefix_concat_iff.1 hw with heq | hw
      · obtain ⟨rfl, hx⟩ := List.append_inj' heq rfl
        obtain rfl := List.singleton_inj.1 hx
        rw [hcomb'.sum_eq]
        exact hvisible
      · exact hun w x hw

theorem isBuilt_nil_iff : IsBuilt weight candidates i [] ↔ i = 0 := by
  refine ⟨fun h ↦ h.combination.sum_eq.symm, fun h ↦ ⟨.nil, ⟨fun n hn ↦ ?_, h.symm⟩, ?_⟩⟩
  · exact absurd hn (Multiset.notMem_zero n)
  · intro w n hw
    exact absurd (List.append_eq_nil_iff.1 (List.prefix_nil.1 hw)).2 (List.cons_ne_nil n [])

/-! ### Rows -/

theorem isRow_zero (hpos : ∀ n ∈ candidates, 0 < weight n) : IsRow weight candidates 0 [[]] where
  nodup := List.nodup_singleton []
  mem_iff v := by
    rw [List.mem_singleton]
    constructor
    · rintro rfl
      exact isBuilt_nil_iff.2 rfl
    · intro h
      rcases List.eq_nil_or_concat' v with rfl | ⟨v, n, rfl⟩
      · rfl
      · obtain ⟨hn, hcomb⟩ := isCombination_concat_iff.1 h.combination
        have hle := hcomb.nonneg hpos
        have hlt := hpos n hn
        omega

/-- **The next row** from the rows of the smaller sums. -/
theorem IsRow.next (hnodup : candidates.Nodup) (hpos : ∀ n ∈ candidates, 0 < weight n)
    {row : ℤ → List (List α)} (hi : 0 < i)
    (hrow : ∀ j, 0 ≤ j → j < i → IsRow weight candidates j (row j)) :
    IsRow weight candidates i ((candidates.takeWhile fun m ↦ weight m ≤ i).flatMap fun n ↦
      ((row (i - weight n)).filter fun v ↦ ∀ x ∈ v.getLast?, x ≤ n).map (· ++ [n])) := by
  have hsmaller (n : α) (hn : n ∈ candidates.takeWhile fun m ↦ weight m ≤ i) :
      IsRow weight candidates (i - weight n) (row (i - weight n)) := by
    obtain ⟨hmem, hle, -⟩ := (mem_takeWhile_iff hnodup i).1 hn
    have hlt := hpos n hmem
    exact hrow _ (by omega) (by omega)
  refine ⟨List.nodup_flatMap.2 ⟨fun n hn ↦ ?_, ?_⟩, fun v ↦ ?_⟩
  · exact (((hsmaller n hn).nodup.filter _).map (List.append_left_injective [n]))
  · refine (hnodup.sublist (List.takeWhile_sublist _)).imp fun {n m} hne v hv hv' ↦ hne ?_
    obtain ⟨w, -, rfl⟩ := List.mem_map.1 hv
    obtain ⟨w', -, heq⟩ := List.mem_map.1 hv'
    exact (List.singleton_inj.1 (List.append_inj' heq rfl).2).symm
  · rw [List.mem_flatMap]
    constructor
    · rintro ⟨n, hn, hv⟩
      obtain ⟨w, hw, rfl⟩ := List.mem_map.1 hv
      obtain ⟨hmem, hlast⟩ := List.mem_filter.1 hw
      exact (isBuilt_concat_iff hnodup hpos).2
        ⟨((hsmaller n hn).mem_iff w).1 hmem, of_decide_eq_true hlast, hn⟩
    · intro h
      rcases List.eq_nil_or_concat' v with rfl | ⟨w, n, rfl⟩
      · exact absurd (isBuilt_nil_iff.1 h) hi.ne'
      · obtain ⟨hw, hlast, hn⟩ := (isBuilt_concat_iff hnodup hpos).1 h
        exact ⟨n, hn, List.mem_map.2 ⟨w, List.mem_filter.2
          ⟨((hsmaller n hn).mem_iff w).2 hw, decide_eq_true hlast⟩, rfl⟩⟩

/-- **All combinations** are built, each once, exactly if they are unobstructed. -/
theorem IsRow.complete_iff (h : IsRow weight candidates i row) :
    ((row.map Multiset.ofList).Nodup ∧
        ∀ M, M ∈ row.map Multiset.ofList ↔ IsCombination weight candidates i M) ↔
      ∀ v : List α, v.Pairwise (· ≤ ·) → IsCombination weight candidates i (v : Multiset α) →
        Unobstructed weight candidates v := by
  have hinj (v w : List α) (hv : v.Pairwise (· ≤ ·)) (hw : w.Pairwise (· ≤ ·))
      (heq : (v : Multiset α) = w) : v = w := (Multiset.coe_eq_coe.1 heq).eq_of_pairwise' hv hw
  constructor
  · rintro ⟨-, hmem⟩ v hv hcomb
    obtain ⟨w, hw, heq⟩ := List.mem_map.1 ((hmem v).2 hcomb)
    have hbuilt := (h.mem_iff w).1 hw
    exact hinj w v hbuilt.sorted hv heq ▸ hbuilt.unobstructed
  · intro hall
    refine ⟨List.Nodup.map_on (fun v hv w hw ↦ ?_) h.nodup, fun M ↦ ⟨fun hM ↦ ?_, fun hM ↦ ?_⟩⟩
    · exact hinj v w ((h.mem_iff v).1 hv).sorted ((h.mem_iff w).1 hw).sorted
    · obtain ⟨v, hv, rfl⟩ := List.mem_map.1 hM
      exact ((h.mem_iff v).1 hv).combination
    · have hsort : (M.sort : Multiset α) = M := Multiset.sort_eq M (· ≤ ·)
      have hsorted := Multiset.pairwise_sort M (· ≤ ·)
      rw [← hsort] at hM
      exact List.mem_map.2 ⟨M.sort, (h.mem_iff _).2 ⟨hsorted, hM, hall _ hsorted hM⟩, hsort⟩

end Combinations
