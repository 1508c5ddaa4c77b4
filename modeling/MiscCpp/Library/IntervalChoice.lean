import Mathlib.Algebra.BigOperators.Group.List.Basic
import Mathlib.Algebra.Order.Group.Defs
import Mathlib.Data.List.Basic
import Mathlib.Data.List.Perm.Basic
import Mathlib.Order.Bounds.Basic

/-!
# Choosing intervals that are apart

At most `k` intervals of a list are chosen, so that no two of them have a point in common, and the
total of a choice is the sum of their values. The order of the list does not matter
(`totals_perm`).

If the intervals are ordered by their ends, the last one is either not chosen, or the others that
are chosen end before it starts (`mem_totals_concat_iff`).
-/

/-- Closed intervals with values. -/
structure Intervals (ι τ α : Type*) [LE τ] where
  start : ι → τ
  finish : ι → τ
  value : ι → α
  start_le_finish : ∀ a, start a ≤ finish a

namespace Intervals

variable {ι τ α : Type*} [LinearOrder τ] (I : Intervals ι τ α) {a b x : ι} {k : ℕ}
  {xs ys s : List ι} {u v : α}

/-- One of the intervals ends before the other one begins. -/
def Apart (a b : ι) : Prop := I.finish a < I.start b ∨ I.finish b < I.start a

theorem apart_comm : I.Apart a b ↔ I.Apart b a := or_comm

/-- At most `k` of the intervals, no two with a point in common. -/
structure IsChoice (k : ℕ) (xs s : List ι) : Prop where
  sublist : s.Sublist xs
  length_le : s.length ≤ k
  apart : s.Pairwise I.Apart

/-- Ordered by their ends. -/
def Ordered (xs : List ι) : Prop := xs.Pairwise fun a b ↦ I.finish a ≤ I.finish b

variable {I}

/-- With an interval that ends last, those before it are apart that end before it starts. -/
theorem isChoice_concat_iff (hx : ∀ a ∈ xs, I.finish a ≤ I.finish x) :
    I.IsChoice (k + 1) (xs ++ [x]) (s ++ [x]) ↔
      I.IsChoice k (xs.filter fun a ↦ I.finish a < I.start x) s := by
  have hsub : (s ++ [x]).Sublist (xs ++ [x]) ↔ s.Sublist xs := List.append_sublist_append_right [x]
  constructor
  · rintro ⟨hsublist, hlength, hapart⟩
    rw [List.length_append, List.length_singleton] at hlength
    obtain ⟨hs, -, hlast⟩ := List.pairwise_append.1 hapart
    have hbefore (a : ι) (ha : a ∈ s) : I.finish a < I.start x := by
      -- Behind `x` it would start after it ends, as `x` ends last.
      refine (hlast a ha x (List.mem_singleton_self x)).resolve_right fun hlt ↦ ?_
      have hle := (I.start_le_finish a).trans (hx a ((hsub.1 hsublist).subset ha))
      exact absurd hlt (not_lt.2 hle)
    refine ⟨?_, Nat.le_of_succ_le_succ hlength, hs⟩
    rw [← List.filter_eq_self.2 fun a ha ↦ decide_eq_true (hbefore a ha)]
    exact (hsub.1 hsublist).filter _
  · rintro ⟨hsublist, hlength, hs⟩
    refine ⟨hsub.2 (hsublist.trans List.filter_sublist), ?_, ?_⟩
    · rw [List.length_append, List.length_singleton]
      exact Nat.succ_le_succ hlength
    · refine List.pairwise_append.2 ⟨hs, List.pairwise_singleton _ x, fun a ha b hb ↦ ?_⟩
      rw [List.mem_singleton.1 hb]
      exact Or.inl (of_decide_eq_true (List.mem_filter.1 (hsublist.subset ha)).2)

/-- The intervals that end before `c` are the first ones. -/
theorem Ordered.filter_eq_take (h : I.Ordered xs) (c : τ) :
    (xs.filter fun a ↦ I.finish a < c) = xs.take (xs.findIdx fun a ↦ !decide (I.finish a < c)) := by
  rw [← List.takeWhile_eq_take_findIdx_not]
  induction xs with
  | nil => rfl
  | cons a xs ih =>
    obtain ⟨ha, hxs⟩ := List.pairwise_cons.1 h
    by_cases hlt : I.finish a < c
    · rw [List.filter_cons_of_pos (by simpa using hlt),
        List.takeWhile_cons_of_pos (by simpa using hlt), ih hxs]
    · rw [List.filter_cons_of_neg (by simpa using hlt),
        List.takeWhile_cons_of_neg (by simpa using hlt)]
      refine List.filter_eq_nil_iff.2 fun b hb ↦ ?_
      rw [decide_eq_true_iff]
      exact fun hlt' ↦ hlt ((ha b hb).trans_lt hlt')

/-! ### Totals -/

section Monoid

variable [AddCommMonoid α] {I : Intervals ι τ α}

variable (I) in
/-- The totals of all choices. -/
def totals (k : ℕ) (xs : List ι) : Set α := {v | ∃ s, I.IsChoice k xs s ∧ (s.map I.value).sum = v}

/-- Nothing is chosen. -/
theorem zero_mem_totals (k : ℕ) (xs : List ι) : 0 ∈ I.totals k xs :=
  ⟨[], ⟨List.nil_sublist xs, Nat.zero_le k, List.Pairwise.nil⟩, rfl⟩

theorem mem_totals_nil_iff : v ∈ I.totals k [] ↔ v = 0 := by
  constructor
  · rintro ⟨s, hs, rfl⟩
    rw [List.sublist_nil.1 hs.sublist]
    rfl
  · rintro rfl
    exact zero_mem_totals k []

theorem mem_totals_zero_iff : v ∈ I.totals 0 xs ↔ v = 0 := by
  constructor
  · rintro ⟨s, hs, rfl⟩
    rw [List.length_eq_zero_iff.1 (Nat.le_zero.1 hs.length_le)]
    rfl
  · rintro rfl
    exact zero_mem_totals 0 xs

theorem mem_totals_of_perm (h : xs.Perm ys) (hv : v ∈ I.totals k xs) : v ∈ I.totals k ys := by
  obtain ⟨s, hs, rfl⟩ := hv
  obtain ⟨t, hst, ht⟩ := List.exists_perm_sublist hs.sublist h
  refine ⟨t, ⟨ht, hst.length_eq ▸ hs.length_le, ?_⟩, (hst.map I.value).sum_eq⟩
  exact (hst.pairwise_iff fun hab ↦ I.apart_comm.1 hab).2 hs.apart

/-- The totals do not depend on the order of the intervals. -/
theorem totals_perm (h : xs.Perm ys) : I.totals k xs = I.totals k ys :=
  Set.ext fun _ ↦ ⟨mem_totals_of_perm h, mem_totals_of_perm h.symm⟩

/-- **The interval that ends last** is chosen or not. -/
theorem mem_totals_concat_iff (hx : ∀ a ∈ xs, I.finish a ≤ I.finish x) :
    v ∈ I.totals (k + 1) (xs ++ [x]) ↔ v ∈ I.totals (k + 1) xs ∨
      ∃ u ∈ I.totals k (xs.filter fun a ↦ I.finish a < I.start x), u + I.value x = v := by
  constructor
  · rintro ⟨s, hs, rfl⟩
    obtain ⟨s, t, rfl, hsub, ht⟩ := List.sublist_append_iff.1 hs.sublist
    rcases List.sublist_singleton.1 ht with rfl | rfl
    · rw [List.append_nil] at hs ⊢
      exact Or.inl ⟨s, ⟨hsub, hs.length_le, hs.apart⟩, rfl⟩
    · refine Or.inr ⟨_, ⟨s, (isChoice_concat_iff hx).1 hs, rfl⟩, ?_⟩
      rw [List.map_append, List.sum_append, List.map_singleton, List.sum_singleton]
  · rintro (⟨s, hs, rfl⟩ | ⟨_, ⟨s, hs, rfl⟩, rfl⟩)
    · exact ⟨s, ⟨hs.sublist.trans (List.sublist_append_left xs [x]), hs.length_le, hs.apart⟩, rfl⟩
    · refine ⟨s ++ [x], (isChoice_concat_iff hx).2 hs, ?_⟩
      rw [List.map_append, List.sum_append, List.map_singleton, List.sum_singleton]

end Monoid

variable [AddCommMonoid α] [LinearOrder α] [IsOrderedAddMonoid α] {I : Intervals ι τ α}

/-- **The greatest total**, with and without the interval that ends last. -/
theorem isGreatest_concat (hx : ∀ a ∈ xs, I.finish a ≤ I.finish x)
    (hv : IsGreatest (I.totals (k + 1) xs) v)
    (hu : IsGreatest (I.totals k (xs.filter fun a ↦ I.finish a < I.start x)) u) :
    IsGreatest (I.totals (k + 1) (xs ++ [x])) (max v (u + I.value x)) := by
  constructor
  · rw [mem_totals_concat_iff hx]
    rcases le_total v (u + I.value x) with hle | hle
    · rw [max_eq_right hle]
      exact Or.inr ⟨u, hu.1, rfl⟩
    · rw [max_eq_left hle]
      exact Or.inl hv.1
  · intro y hy
    rcases (mem_totals_concat_iff hx).1 hy with hy | ⟨z, hz, rfl⟩
    · exact (hv.2 hy).trans (le_max_left _ _)
    · exact (add_le_add_left (hu.2 hz) _).trans (le_max_right _ _)

end Intervals
