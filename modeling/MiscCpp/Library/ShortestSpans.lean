import Mathlib.Order.Bounds.Basic
import Mathlib.Order.Interval.Set.Basic
import Mathlib.Order.Lattice
import Mathlib.Tactic.Common

/-!
# Shortest spans

The spans are those pairs `i < j` of positions that have a property, `[i, j)` of length `j - i`.

Among the spans with the same end the one with the latest start is the shortest, and has the most
room in front of it. So the least length of the spans up to a position (`isLeast_lengths_succ`), and
the least total length of two spans one behind the other (`isLeast_pairs_succ`), follow from the
latest start for each end. The value `N` stands for there being none, if it is greater than the
others; if it is less, it is the least value.
-/

namespace ShortestSpans

variable (Span : ℕ → ℕ → Prop)

/-- The lengths of the spans up to `k`. -/
def lengths (k : ℕ) : Set ℤ := {d | ∃ i j, i < j ∧ j ≤ k ∧ Span i j ∧ d = j - i}

/-- The total lengths of two spans up to `k` that do not overlap. -/
def pairs (k : ℕ) : Set ℤ :=
  {d | ∃ i j i' j', i < j ∧ j ≤ i' ∧ i' < j' ∧ j' ≤ k ∧ Span i j ∧ Span i' j' ∧
    d = (j - i) + (j' - i')}

/-- The latest start of a span that ends at `k`. -/
def IsLatest (k i : ℕ) : Prop := IsGreatest {i | i < k ∧ Span i k} i

variable {Span} {k i : ℕ} {d x r N : ℤ}

theorem lengths_bounds (h : d ∈ lengths Span k) : 1 ≤ d ∧ d ≤ k := by
  obtain ⟨i, j, hij, hjk, -, rfl⟩ := h
  omega

theorem pairs_bounds (h : d ∈ pairs Span k) : 2 ≤ d ∧ d ≤ k := by
  obtain ⟨i, j, i', j', hij, hji, hij', hjk, -, -, rfl⟩ := h
  omega

theorem lengths_zero : lengths Span 0 = ∅ :=
  Set.eq_empty_of_forall_notMem fun _ h ↦ by have := lengths_bounds h; omega

theorem pairs_zero : pairs Span 0 = ∅ :=
  Set.eq_empty_of_forall_notMem fun _ h ↦ by have := pairs_bounds h; omega

theorem lengths_mono {k' : ℕ} (hk : k ≤ k') : lengths Span k ⊆ lengths Span k' :=
  fun _ ⟨i, j, hij, hjk, hspan, hd⟩ ↦ ⟨i, j, hij, hjk.trans hk, hspan, hd⟩

theorem pairs_mono {k' : ℕ} (hk : k ≤ k') : pairs Span k ⊆ pairs Span k' :=
  fun _ ⟨i, j, i', j', hij, hji, hij', hjk, hspan⟩ ↦
    ⟨i, j, i', j', hij, hji, hij', hjk.trans hk, hspan⟩

/-! ### One position more -/

/-- Without a span that ends here there is no new length. -/
theorem lengths_succ_of_not (h : ∀ i < k + 1, ¬ Span i (k + 1)) :
    lengths Span (k + 1) = lengths Span k := by
  refine Set.Subset.antisymm (fun d hd ↦ ?_) (lengths_mono k.le_succ)
  obtain ⟨i, j, hij, hjk, hspan, rfl⟩ := hd
  rcases hjk.lt_or_eq with hlt | rfl
  · exact ⟨i, j, hij, Nat.le_of_lt_succ hlt, hspan, rfl⟩
  · exact absurd hspan (h i hij)

/-- Without a span that ends here there is no new pair. -/
theorem pairs_succ_of_not (h : ∀ i < k + 1, ¬ Span i (k + 1)) :
    pairs Span (k + 1) = pairs Span k := by
  refine Set.Subset.antisymm (fun d hd ↦ ?_) (pairs_mono k.le_succ)
  obtain ⟨i, j, i', j', hij, hji, hij', hjk, hspan, hspan', rfl⟩ := hd
  rcases hjk.lt_or_eq with hlt | rfl
  · exact ⟨i, j, i', j', hij, hji, hij', Nat.le_of_lt_succ hlt, hspan, hspan', rfl⟩
  · exact absurd hspan' (h i' hij')

/-- The latest start for the end `k + 1`. -/
theorem isLeast_lengths_succ (h : IsLeast (insert N (lengths Span k)) x)
    (hlast : IsLatest Span (k + 1) i) :
    IsLeast (insert N (lengths Span (k + 1))) (min x ((k + 1 : ℕ) - i)) := by
  constructor
  · rcases le_total x ((k + 1 : ℕ) - i) with hle | hle
    · rw [min_eq_left hle]
      exact Set.insert_subset_insert (lengths_mono k.le_succ) h.1
    · rw [min_eq_right hle]
      exact Or.inr ⟨i, k + 1, hlast.1.1, le_rfl, hlast.1.2, rfl⟩
  · rintro d (rfl | ⟨i', j, hij, hjk, hspan, rfl⟩)
    · exact (min_le_left _ _).trans (h.2 (Or.inl rfl))
    · rcases hjk.lt_or_eq with hlt | rfl
      · exact (min_le_left _ _).trans
          (h.2 (Or.inr ⟨i', j, hij, Nat.le_of_lt_succ hlt, hspan, rfl⟩))
      · have hle := hlast.2 ⟨hij, hspan⟩
        exact (min_le_right _ _).trans (by omega)

/-- In front of a span that ends at `k + 1` a span is at least as long as the shortest one in front
of the latest start. -/
theorem exists_le_of_pairs_succ (hlast : IsLatest Span (k + 1) i)
    (hx : IsLeast (insert N (lengths Span i)) x) (hd : d ∈ pairs Span (k + 1)) :
    d ∈ pairs Span k ∨ (k + 1 : ℕ) - i + x ≤ d := by
  obtain ⟨i₁, j, i', j', hij, hji, hij', hjk, hspan, hspan', rfl⟩ := hd
  rcases hjk.lt_or_eq with hlt | rfl
  · exact Or.inl ⟨i₁, j, i', j', hij, hji, hij', Nat.le_of_lt_succ hlt, hspan, hspan', rfl⟩
  · have hle : i' ≤ i := hlast.2 ⟨hij', hspan'⟩
    have hfront := hx.2 (Or.inr ⟨i₁, j, hij, hji.trans hle, hspan, rfl⟩)
    exact Or.inr (by omega)

/-- The latest start with the shortest span in front of it. -/
theorem isLeast_pairs_succ (h : IsLeast (insert N (pairs Span k)) r)
    (hlast : IsLatest Span (k + 1) i) (hx : IsLeast (insert N (lengths Span i)) x) (hne : x ≠ N) :
    IsLeast (insert N (pairs Span (k + 1))) (min ((k + 1 : ℕ) - i + x) r) := by
  constructor
  · rcases le_total r ((k + 1 : ℕ) - i + x) with hle | hle
    · rw [min_eq_right hle]
      exact Set.insert_subset_insert (pairs_mono k.le_succ) h.1
    · rw [min_eq_left hle]
      obtain ⟨i₁, j, hij, hji, hspan, rfl⟩ := hx.1.resolve_left hne
      exact Or.inr ⟨i₁, j, i, k + 1, hij, hji, hlast.1.1, le_rfl, hspan, hlast.1.2, by omega⟩
  · rintro d (rfl | hd)
    · exact (min_le_right _ _).trans (h.2 (Or.inl rfl))
    · rcases exists_le_of_pairs_succ hlast hx hd with hmem | hle
      · exact (min_le_right _ _).trans (h.2 (Or.inr hmem))
      · exact (min_le_left _ _).trans hle

/-- There is no shorter span in front of the latest start. -/
theorem isLeast_pairs_succ_of_eq (h : IsLeast (insert N (pairs Span k)) r)
    (hlast : IsLatest Span (k + 1) i) (hx : IsLeast (insert N (lengths Span i)) N) :
    IsLeast (insert N (pairs Span (k + 1))) r := by
  refine ⟨Set.insert_subset_insert (pairs_mono k.le_succ) h.1, ?_⟩
  rintro d (rfl | hd)
  · exact h.2 (Or.inl rfl)
  · rcases exists_le_of_pairs_succ hlast hx hd with hmem | hle
    · exact h.2 (Or.inr hmem)
    · have hr := h.2 (Or.inl rfl)
      have hlt := hlast.1.1
      omega

end ShortestSpans
