import Mathlib.Algebra.BigOperators.Group.Finset.Basic
import Mathlib.Algebra.BigOperators.Ring.Finset
import Mathlib.Data.Set.Card
import Mathlib.Data.Sym.Sym2

/-!
# Counting the pairs of a list

The number of pairs of elements at different positions that are in a relation. If the elements
differ and the relation is symmetric, it is the number of unordered pairs (`ncard_pairs`).

Pairs of which one element is in each of two lists can be counted by a value of the elements, as in
a convolution of histograms (`sum_map_eq`).
-/

open scoped Classical

namespace PairCount

variable {α β : Type*} {R R' : α → α → Prop} {S : β → β → Prop} {l m : List α} {x y z : α}

/-- The number of elements to which `x` is related. -/
noncomputable def related (R : α → α → Prop) (x : α) (l : List α) : ℕ := l.countP (R x)

/-- The number of pairs in the relation, the first element before the second one. -/
noncomputable def countPairs (R : α → α → Prop) : List α → ℕ
  | [] => 0
  | x :: l => related R x l + countPairs R l

/-- The number of pairs of an element of each list. -/
noncomputable def cross (R : α → α → Prop) (l m : List α) : ℕ :=
  (l.map fun x ↦ related R x m).sum

theorem related_cons_of_pos (h : R x y) (l : List α) :
    related R x (y :: l) = related R x l + 1 :=
  List.countP_cons_of_pos (decide_eq_true h)

theorem related_cons_of_neg (h : ¬ R x y) (l : List α) : related R x (y :: l) = related R x l :=
  List.countP_cons_of_neg (by rwa [decide_eq_true_iff])

theorem related_congr (h : ∀ y ∈ l, (R x y ↔ R' z y)) : related R x l = related R' z l := by
  refine List.countP_congr fun y hy ↦ ?_
  rw [decide_eq_true_iff, decide_eq_true_iff]
  exact h y hy

/-- The pairs of two lists: within each of them and across. -/
theorem countPairs_append (R : α → α → Prop) (l m : List α) :
    countPairs R (l ++ m) = countPairs R l + countPairs R m + cross R l m := by
  induction l with
  | nil => rw [List.nil_append, countPairs, cross, List.map_nil, List.sum_nil]; omega
  | cons x l ih =>
    rw [List.cons_append, countPairs, countPairs, ih, related, List.countP_append, cross, cross,
      List.map_cons, List.sum_cons, related, related]
    omega

theorem countPairs_map (f : β → α) (l : List β) :
    countPairs R (l.map f) = countPairs (fun x y ↦ R (f x) (f y)) l := by
  induction l with
  | nil => rfl
  | cons x l ih => rw [List.map_cons, countPairs, countPairs, ih, related, List.countP_map]; rfl

theorem countPairs_congr (h : ∀ x ∈ l, ∀ y ∈ l, (R x y ↔ R' x y)) :
    countPairs R l = countPairs R' l := by
  induction l with
  | nil => rfl
  | cons x l ih =>
    rw [countPairs, countPairs, ih fun y hy z hz ↦ h y (List.mem_cons_of_mem x hy) z
      (List.mem_cons_of_mem x hz)]
    exact congrArg (· + _) (related_congr fun y hy ↦
      h x List.mem_cons_self y (List.mem_cons_of_mem x hy))

theorem cross_congr (h : ∀ x ∈ l, ∀ y ∈ m, (R x y ↔ R' x y)) : cross R l m = cross R' l m :=
  congrArg List.sum (List.map_congr_left fun x hx ↦ related_congr fun y hy ↦ h x hx y hy)

/-- Two lists whose elements correspond have the same number of pairs. -/
theorem countPairs_forall₂ {T : α → β → Prop} {m : List β} (h : List.Forall₂ T l m)
    (hRS : ∀ x y x' y', T x x' → T y y' → (R x y ↔ S x' y')) :
    countPairs R l = countPairs S m := by
  induction h with
  | nil => rfl
  | @cons x x' l m hx h ih =>
    have hcount : related R x l = related S x' m := by
      clear ih
      induction h with
      | nil => rfl
      | @cons y y' l m hy _ ih =>
        have hiff := hRS x y x' y' hx hy
        by_cases hR : R x y
        · rw [related_cons_of_pos hR, related_cons_of_pos (hiff.1 hR), ih]
        · rw [related_cons_of_neg hR, related_cons_of_neg (mt hiff.2 hR), ih]
    rw [countPairs, countPairs, hcount, ih]

/-- The same for a relation of all pairs. -/
theorem pairwise_forall₂ {T : α → β → Prop} {m : List β} (h : List.Forall₂ T l m)
    (hRS : ∀ x y x' y', T x x' → T y y' → (R x y ↔ S x' y')) : l.Pairwise R ↔ m.Pairwise S := by
  induction h with
  | nil => exact iff_of_true .nil .nil
  | @cons x x' l m hx h ih =>
    have hall : (∀ y ∈ l, R x y) ↔ ∀ y' ∈ m, S x' y' := by
      clear ih
      induction h with
      | nil => exact iff_of_true (fun y hy ↦ absurd hy List.not_mem_nil) fun y hy ↦
          absurd hy List.not_mem_nil
      | @cons y y' l m hy _ ih =>
        rw [List.forall_mem_cons, List.forall_mem_cons, hRS x y x' y' hx hy, ih]
    rw [List.pairwise_cons, List.pairwise_cons, hall, ih]

/-! ### Unordered pairs -/

/-- The unordered pairs of different elements in the relation. -/
def pairs (R : α → α → Prop) (l : List α) : Set (Sym2 α) :=
  {z | ∃ a ∈ l, ∃ b ∈ l, a ≠ b ∧ R a b ∧ z = s(a, b)}

/-- The pairs of a list by its first element. -/
theorem pairs_cons (hx : x ∉ l) (hR : ∀ a b, R a b → R b a) :
    pairs R (x :: l) = pairs R l ∪ (fun y ↦ s(x, y)) '' {y | y ∈ l ∧ R x y} := by
  ext z
  constructor
  · rintro ⟨a, ha, b, hb, hne, hab, rfl⟩
    rcases List.mem_cons.1 ha with rfl | ha' <;> rcases List.mem_cons.1 hb with rfl | hb'
    · exact absurd rfl hne
    · exact Or.inr ⟨b, ⟨hb', hab⟩, rfl⟩
    · exact Or.inr ⟨a, ⟨ha', hR a b hab⟩, Sym2.eq_swap⟩
    · exact Or.inl ⟨a, ha', b, hb', hne, hab, rfl⟩
  · rintro (⟨a, ha, b, hb, h⟩ | ⟨y, ⟨hy, hxy⟩, rfl⟩)
    · exact ⟨a, List.mem_cons_of_mem x ha, b, List.mem_cons_of_mem x hb, h⟩
    · exact ⟨x, List.mem_cons_self, y, List.mem_cons_of_mem x hy, (ne_of_mem_of_not_mem hy hx).symm,
        hxy, rfl⟩

theorem finite_pairs (R : α → α → Prop) (l : List α) : (pairs R l).Finite := by
  refine ((l.finite_toSet.prod l.finite_toSet).image fun b ↦ s(b.1, b.2)).subset ?_
  rintro z ⟨a, ha, b, hb, -, -, rfl⟩
  exact ⟨(a, b), ⟨ha, hb⟩, rfl⟩

/-- **The number of unordered pairs.** -/
theorem ncard_pairs (hl : l.Nodup) (hR : ∀ a b, R a b → R b a) :
    (pairs R l).ncard = countPairs R l := by
  induction l with
  | nil =>
    have hempty : pairs R [] = ∅ := Set.eq_empty_iff_forall_notMem.2 fun z ⟨a, ha, _⟩ ↦
      List.not_mem_nil ha
    rw [hempty, Set.ncard_empty, countPairs]
  | cons x l ih =>
    obtain ⟨hx, hl⟩ := List.nodup_cons.1 hl
    have hset : {y | y ∈ l ∧ R x y} = ↑(l.filter (R x)).toFinset := by
      ext y
      rw [Finset.mem_coe, List.mem_toFinset, List.mem_filter, decide_eq_true_iff]
      rfl
    have hinj : Function.Injective fun y ↦ s(x, y) := fun y z h ↦ Sym2.congr_right.1 h
    have hdisj : Disjoint (pairs R l) ((fun y ↦ s(x, y)) '' {y | y ∈ l ∧ R x y}) := by
      refine Set.disjoint_left.2 ?_
      rintro z ⟨a, ha, b, hb, -, -, rfl⟩ ⟨y, -, heq⟩
      rcases Sym2.eq_iff.1 heq with ⟨rfl, -⟩ | ⟨rfl, -⟩
      · exact hx ha
      · exact hx hb
    have hfinite : {y | y ∈ l ∧ R x y}.Finite := hset ▸ Finset.finite_toSet _
    rw [pairs_cons hx hR, Set.ncard_union_eq hdisj (finite_pairs R l) (hfinite.image _), ih hl,
      Set.ncard_image_of_injective _ hinj, hset, Set.ncard_coe_finset,
      List.toFinset_card_of_nodup (hl.filter _), ← List.countP_eq_length_filter, countPairs,
      related, add_comm]

/-! ### Histograms -/

section Histogram

variable (f : α → ℕ)

theorem sum_range_ite (n k : ℕ) (g : ℕ → ℕ) :
    (∑ i ∈ Finset.range n, (if k = i then 1 else 0) * g i) = if k < n then g k else 0 := by
  simp only [ite_mul, one_mul, zero_mul, Finset.sum_ite_eq, Finset.mem_range]

/-- A sum over a list, by a value of the elements. -/
theorem sum_map_eq (g : ℕ → ℕ) (n : ℕ) (hg : ∀ i ≥ n, g i = 0) (l : List α) :
    (l.map fun x ↦ g (f x)).sum = ∑ i ∈ Finset.range n, l.countP (f · = i) * g i := by
  induction l with
  | nil => exact (Finset.sum_eq_zero fun i _ ↦ Nat.zero_mul _).symm
  | cons x l ih =>
    have hsingle : (∑ i ∈ Finset.range n, (if f x = i then 1 else 0) * g i) = g (f x) := by
      rw [sum_range_ite]
      split
      next => rfl
      next h => exact (hg (f x) (not_lt.1 h)).symm
    rw [List.map_cons, List.sum_cons, ih, ← hsingle, ← Finset.sum_add_distrib]
    refine Finset.sum_congr rfl fun i _ ↦ ?_
    rw [List.countP_cons, Nat.add_mul, Nat.add_comm]
    simp only [decide_eq_true_iff]

/-- The elements of a small value, counted value by value. -/
theorem related_lt (n : ℕ) (x : α) (l : List α) :
    related (fun _ y ↦ f y < n) x l = ∑ i ∈ Finset.range n, l.countP (f · = i) := by
  induction l with
  | nil => exact (Finset.sum_eq_zero fun i _ ↦ rfl).symm
  | cons y l ih =>
    simp only [List.countP_cons, decide_eq_true_iff, Finset.sum_add_distrib, ← ih,
      Finset.sum_ite_eq, Finset.mem_range]
    split
    next h => exact related_cons_of_pos (R := fun _ y ↦ f y < n) (x := x) (y := y) h l
    next h => exact related_cons_of_neg (R := fun _ y ↦ f y < n) (x := x) (y := y) h l

/-- **A convolution** of two histograms. -/
theorem cross_add_le (d : ℕ) (l m : List α) :
    cross (fun x y ↦ f x + f y + 2 ≤ d) l m =
      ∑ i ∈ Finset.range d, ∑ j ∈ Finset.range (d - 1 - i),
        l.countP (f · = i) * m.countP (f · = j) := by
  have hrelated (x : α) : related (fun x y ↦ f x + f y + 2 ≤ d) x m =
      ∑ j ∈ Finset.range (d - 1 - f x), m.countP (f · = j) := by
    rw [← related_lt f _ x]
    exact related_congr fun y _ ↦ by omega
  have hg (i : ℕ) (hi : i ≥ d) :
      ∑ j ∈ Finset.range (d - 1 - i), m.countP (f · = j) = 0 := by
    rw [show d - 1 - i = 0 by omega, Finset.range_zero, Finset.sum_empty]
  simp only [cross, hrelated, ← Finset.mul_sum]
  exact sum_map_eq f (fun i ↦ ∑ j ∈ Finset.range (d - 1 - i), m.countP (f · = j)) d hg l

end Histogram

end PairCount
