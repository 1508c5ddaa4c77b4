import Mathlib.Data.List.Basic
import Mathlib.Order.Defs.Unbundled
import Mathlib.Tactic.Common

/-!
# Sorting and partitioning, as documented

What is documented of `std::sort` and `std::partition`, for a comparison or a predicate that gives
a `Bool`. Where elements are equivalent, and on each side of a partition, any order may result.
-/

namespace StdAlgorithm

variable {α : Type*} {lt comp : α → α → Bool} {a b c : α} {l l' : List α}

/-! ### Strict weak orders -/

/-- What is asked of a comparison. -/
abbrev StrictWeakOrder (comp : α → α → Bool) : Prop :=
  IsStrictWeakOrder α fun a b ↦ comp a b = true

section Order

theorem irrefl_eq_false (comp : α → α → Bool) [StrictWeakOrder comp] (a : α) :
    comp a a = false :=
  Bool.eq_false_iff.2 (Std.Irrefl.irrefl (r := fun a b ↦ comp a b = true) a)

variable [StrictWeakOrder comp]

theorem trans_eq_true (hab : comp a b = true) (hbc : comp b c = true) : comp a c = true :=
  IsTrans.trans (r := fun a b ↦ comp a b = true) a b c hab hbc

theorem asymm_eq_false (hab : comp a b = true) : comp b a = false := by
  refine Bool.eq_false_iff.2 fun hba ↦ ?_
  have haa := irrefl_eq_false comp a
  rw [trans_eq_true hab hba] at haa
  cases haa

theorem trans_eq_false (hab : comp a b = false) (hbc : comp b c = false) :
    comp a c = false := by
  refine Bool.eq_false_iff.2 fun hac ↦ ?_
  -- neither `a` nor `c` is before `b` or behind it, so they are equivalent
  have hba : comp b a = false := Bool.eq_false_iff.2 fun hba ↦ by
    rw [trans_eq_true hba hac] at hbc
    cases hbc
  have hcb : comp c b = false := Bool.eq_false_iff.2 fun hcb ↦ by
    rw [trans_eq_true hac hcb] at hab
    cases hab
  have hincomp := ‹StrictWeakOrder comp›.incomp_trans a b c
    ⟨Bool.eq_false_iff.1 hab, Bool.eq_false_iff.1 hba⟩
    ⟨Bool.eq_false_iff.1 hbc, Bool.eq_false_iff.1 hcb⟩
  exact hincomp.1 hac

end Order

/-- Sorted with respect to a comparison. -/
def SortedBy (comp : α → α → Bool) (l : List α) : Prop := l.Pairwise fun a b ↦ comp b a = false

/-! ### Implementations -/

/-- The algorithms of a standard library. -/
structure Implementation (α : Type*) where
  sort : (α → α → Bool) → List α → List α
  /-- The range, and the index of the first element of the second group. -/
  partition : (α → Bool) → List α → List α × ℕ

/-- The range in two groups: first the elements for which the predicate gives `true`. -/
structure Partitions (p : α → Bool) (l : List α) (r : List α × ℕ) : Prop where
  perm : r.1.Perm l
  le : r.2 ≤ l.length
  take : ∀ x ∈ r.1.take r.2, p x = true
  drop : ∀ x ∈ r.1.drop r.2, p x = false

/-- The documented behaviour. -/
structure Lawful (std : Implementation α) : Prop where
  perm : ∀ lt, StrictWeakOrder lt → ∀ l, (std.sort lt l).Perm l
  sorted : ∀ lt, StrictWeakOrder lt → ∀ l, SortedBy lt (std.sort lt l)
  partitions : ∀ p l, Partitions p l (std.partition p l)

variable {p : α → Bool} {r : List α × ℕ}

theorem Partitions.length (h : Partitions p l r) : r.1.length = l.length := h.perm.length_eq

/-- The groups are what the predicate makes them. -/
theorem Partitions.take_perm (h : Partitions p l r) : (r.1.take r.2).Perm (l.filter p) := by
  have hfilter := h.perm.filter p
  rw [← List.take_append_drop r.2 r.1, List.filter_append, List.filter_eq_self.2 h.take,
    List.filter_eq_nil_iff.2 fun x hx ↦ by rw [h.drop x hx]; exact Bool.false_ne_true,
    List.append_nil] at hfilter
  exact hfilter

/-- Behind the returned position are the elements that do not pass. -/
theorem Partitions.drop_perm (h : Partitions p l r) :
    (r.1.drop r.2).Perm (l.filter fun x ↦ !p x) := by
  have hfilter := h.perm.filter fun x ↦ !p x
  rw [← List.take_append_drop r.2 r.1, List.filter_append,
    List.filter_eq_nil_iff.2 fun x hx ↦ by rw [h.take x hx]; exact Bool.false_ne_true,
    List.filter_eq_self.2 fun x hx ↦ by rw [h.drop x hx]; rfl, List.nil_append] at hfilter
  exact hfilter

/-- The returned position is the number of elements that pass. -/
theorem Partitions.eq_length (h : Partitions p l r) : r.2 = (l.filter p).length := by
  rw [← h.take_perm.length_eq, List.length_take_of_le (by rw [h.length]; exact h.le)]

/-- Any order of the two groups. -/
theorem partitions_append {l₁ l₂ : List α} (h : (l₁ ++ l₂).Perm l) (h₁ : ∀ x ∈ l₁, p x = true)
    (h₂ : ∀ x ∈ l₂, p x = false) : Partitions p l (l₁ ++ l₂, l₁.length) where
  perm := h
  le := by
    rw [← h.length_eq, List.length_append]
    exact Nat.le_add_right _ _
  take x hx := h₁ x (by rwa [List.take_left] at hx)
  drop x hx := h₂ x (by rwa [List.drop_left] at hx)

/-! ### Examples of implementations -/

section MergeSort

variable [StrictWeakOrder lt]

theorem not_lt_total (a b : α) : (!lt b a || !lt a b) = true := by
  cases hba : lt b a with
  | false => rfl
  | true => rw [asymm_eq_false hba]; rfl

theorem not_lt_trans (a b c : α) (hab : (!lt b a) = true) (hbc : (!lt c b) = true) :
    (!lt c a) = true := by
  rw [Bool.not_eq_true'] at hab hbc ⊢
  exact trans_eq_false hbc hab

/-- A merge sort leaves the elements in order. -/
theorem sortedBy_mergeSort (l : List α) : SortedBy lt (l.mergeSort fun a b ↦ !lt b a) :=
  (List.pairwise_mergeSort not_lt_trans not_lt_total l).imp fun h ↦ by rwa [Bool.not_eq_true'] at h

/-- Elements that are not in the wrong order may stay in their order. -/
theorem pair_sublist_mergeSort (hab : lt b a = false) (h : [a, b].Sublist l) :
    [a, b].Sublist (l.mergeSort fun a b ↦ !lt b a) :=
  List.pair_sublist_mergeSort not_lt_trans not_lt_total (by rwa [Bool.not_eq_true']) h

end MergeSort

/-- A stable sort, and the two groups in their order. -/
def documented (α : Type*) : Implementation α where
  sort lt l := l.mergeSort fun a b ↦ !lt b a
  partition p l := (l.filter p ++ l.filter (fun x ↦ !p x), (l.filter p).length)

/-- There is an implementation that behaves as documented. -/
theorem lawful_documented (α : Type*) : Lawful (documented α) where
  perm _ _ l := List.mergeSort_perm l _
  sorted _ _ l := sortedBy_mergeSort l
  partitions p l := partitions_append (List.filter_append_perm p l)
    (fun _ hx ↦ (List.mem_filter.1 hx).2)
    (fun x hx ↦ by
      have hnot := (List.mem_filter.1 hx).2
      rwa [Bool.not_eq_true'] at hnot)

/-- Some implementation sorts a range to any arrangement that is sorted. -/
theorem exists_sort (hperm : l'.Perm l) (hsorted : SortedBy lt l') :
    ∃ std : Implementation α, Lawful std ∧ std.sort lt l = l' := by
  classical
  let std : Implementation α :=
    { documented α with
      sort := fun lt₁ l₁ ↦ if lt₁ = lt ∧ l₁ = l then l' else (documented α).sort lt₁ l₁ }
  have hsort : ∀ lt₁ l₁, (lt₁ = lt ∧ l₁ = l ∧ std.sort lt₁ l₁ = l') ∨
      std.sort lt₁ l₁ = (documented α).sort lt₁ l₁ := by
    intro lt₁ l₁
    by_cases h : lt₁ = lt ∧ l₁ = l
    · exact .inl ⟨h.1, h.2, if_pos h⟩
    · exact .inr (if_neg h)
  refine ⟨std, ⟨fun lt₁ hlt₁ l₁ ↦ ?_, fun lt₁ hlt₁ l₁ ↦ ?_, (lawful_documented α).partitions⟩,
    if_pos ⟨rfl, rfl⟩⟩
  · rcases hsort lt₁ l₁ with ⟨rfl, rfl, heq⟩ | heq
    · rwa [heq]
    · rw [heq]
      exact (lawful_documented α).perm lt₁ hlt₁ l₁
  · rcases hsort lt₁ l₁ with ⟨rfl, rfl, heq⟩ | heq
    · rwa [heq]
    · rw [heq]
      exact (lawful_documented α).sorted lt₁ hlt₁ l₁

/-- Some implementation partitions a range to any arrangement in two groups. -/
theorem exists_partition (h : Partitions p l r) :
    ∃ std : Implementation α, Lawful std ∧ std.partition p l = r ∧
      ∀ p' ≠ p, ∀ l', std.partition p' l' = (documented α).partition p' l' := by
  classical
  let std : Implementation α :=
    { documented α with
      partition := fun p₁ l₁ ↦ if p₁ = p ∧ l₁ = l then r else (documented α).partition p₁ l₁ }
  refine ⟨std, ⟨(lawful_documented α).perm, (lawful_documented α).sorted, fun p₁ l₁ ↦ ?_⟩,
    if_pos ⟨rfl, rfl⟩, fun p' hne l' ↦ if_neg fun h ↦ hne h.1⟩
  by_cases heq : p₁ = p ∧ l₁ = l
  · have hpart : std.partition p₁ l₁ = r := if_pos heq
    rw [hpart, heq.1, heq.2]
    exact h
  · have hpart : std.partition p₁ l₁ = (documented α).partition p₁ l₁ := if_neg heq
    rw [hpart]
    exact (lawful_documented α).partitions p₁ l₁

end StdAlgorithm
