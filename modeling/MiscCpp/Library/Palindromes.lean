import Mathlib.Data.List.Basic
import Mathlib.Order.Bounds.Basic
import Mathlib.Tactic.Common

/-!
# Palindromes and runs

The palindromes `[l, r]` of a list, and its runs, the longest ranges of equal elements.

A palindrome has its centre in a run, and either it is a part of this run or it has the same
centre (`IsPalindrome.exists_run`). So the widest palindrome around each run (`IsWidest`) is enough
to find a longest one, and those around the runs from `p` on are shorter than twice what is left of
the list (`IsPalindrome.length_lt`).
-/

namespace Palindromes

variable {α : Type*} (s : List α)

/-- The stretch from `l` to `r` reads the same from both ends. -/
structure IsPalindrome (l r : ℕ) : Prop where
  le : l ≤ r
  lt : r < s.length
  mirror : ∀ i j, l ≤ i → i ≤ r → i + j = l + r → s[i]? = s[j]?

/-- The lengths of the palindromes. -/
def lengths : Set ℕ := {k | ∃ l r, IsPalindrome s l r ∧ k = r - l + 1}

/-- No element in front of `p` belongs to the run that begins there. -/
def IsStart (p : ℕ) : Prop := ∀ i, i + 1 = p → s[i]? ≠ s[p]?

/-- From `p` to `q` there is one letter, and another one on both sides. -/
structure IsRun (p q : ℕ) : Prop where
  le : p ≤ q
  lt : q < s.length
  eq : ∀ i, p ≤ i → i ≤ q → s[i]? = s[p]?
  start : IsStart s p
  stop : s[q + 1]? ≠ s[p]?

/-- The widest palindrome with the centre of the run `[p, q]`. -/
structure IsWidest (p q l r : ℕ) : Prop where
  palindrome : IsPalindrome s l r
  centre : l + r = p + q
  le : l ≤ p
  stop : ∀ i, i + 1 = l → s[i]? ≠ s[r + 1]?

variable {s} {p q p' q' l r l' r' i : ℕ}

/-! ### Runs -/

/-- A stretch of one letter is a palindrome. -/
theorem IsRun.isPalindrome (h : IsRun s p q) : IsPalindrome s p q where
  le := h.le
  lt := h.lt
  mirror i j hi hiq hij := by rw [h.eq i hi hiq, h.eq j (by omega) (by omega)]

/-- The run that begins with `p`. -/
theorem IsRun.unique (h : IsRun s p q) (h' : IsRun s p q') : q = q' := by
  rcases lt_trichotomy q q' with hlt | heq | hlt
  · exact absurd (h'.eq (q + 1) (by have := h.le; omega) hlt) h.stop
  · exact heq
  · exact absurd (h.eq (q' + 1) (by have := h'.le; omega) hlt) h'.stop

/-- Behind a stretch of one letter a new one starts. -/
theorem IsRun.isStart_succ (h : IsRun s p q) : IsStart s (q + 1) := by
  intro i hi
  obtain rfl : i = q := Nat.succ_injective hi
  rw [h.eq i h.le le_rfl]
  exact h.stop.symm

/-- A run begins with `p`, or in front of it, or behind the run. -/
theorem IsRun.start_cases (h : IsRun s p q) (h' : IsRun s p' q') :
    p' < p ∨ p' = p ∨ q < p' := by
  by_contra hnot
  push Not at hnot
  have hpred : p' - 1 + 1 = p' := by omega
  refine h'.start (p' - 1) hpred ?_
  rw [h.eq (p' - 1) (by omega) (by omega), h.eq p' (by omega) (by omega)]

/-- Every position has a leftmost one with the same letter in between. -/
theorem exists_left (s : List α) (i : ℕ) :
    ∃ p ≤ i, (∀ k, p ≤ k → k ≤ i → s[k]? = s[i]?) ∧ ∀ k, k + 1 = p → s[k]? ≠ s[i]? := by
  induction i with
  | zero =>
    refine ⟨0, le_rfl, fun k _ hk ↦ by rw [Nat.le_zero.1 hk], fun k hk ↦ ?_⟩
    exact absurd hk (Nat.succ_ne_zero k)
  | succ i ih =>
    by_cases heq : s[i]? = s[i + 1]?
    · obtain ⟨p, hp, hall, hstart⟩ := ih
      rw [heq] at hall hstart
      refine ⟨p, hp.trans i.le_succ, fun k hpk hki ↦ ?_, hstart⟩
      rcases Nat.le_succ_iff.1 hki with hki | rfl
      · exact hall k hpk hki
      · rfl
    · refine ⟨i + 1, le_rfl, fun k hk hki ↦ by rw [hki.antisymm hk], fun k hk ↦ ?_⟩
      rwa [Nat.succ_injective hk]

/-- Every position has a rightmost one with the same letter in between. -/
theorem exists_right (hi : i < s.length) :
    ∃ q ≥ i, q < s.length ∧ (∀ k, i ≤ k → k ≤ q → s[k]? = s[i]?) ∧ s[q + 1]? ≠ s[i]? := by
  obtain ⟨n, hn⟩ : ∃ n, s.length = i + 1 + n := ⟨s.length - (i + 1), by omega⟩
  induction n generalizing i with
  | zero =>
    refine ⟨i, le_rfl, hi, fun k hk hki ↦ by rw [hki.antisymm hk], ?_⟩
    rw [List.getElem?_eq_none (by omega), List.getElem?_eq_getElem hi]
    exact (Option.some_ne_none _).symm
  | succ n ih =>
    by_cases heq : s[i + 1]? = s[i]?
    · obtain ⟨q, hq, hlt, hall, hstop⟩ := ih (i := i + 1) (by omega) (by omega)
      rw [heq] at hall hstop
      refine ⟨q, by omega, hlt, fun k hik hkq ↦ ?_, hstop⟩
      rcases hik.lt_or_eq with hik | rfl
      · exact hall k hik hkq
      · rfl
    · exact ⟨i, le_rfl, hi, fun k hk hki ↦ by rw [hki.antisymm hk], heq⟩

/-- Where a new letter starts there is a stretch of it. -/
theorem IsStart.exists_isRun (h : IsStart s p) (hp : p < s.length) : ∃ q, IsRun s p q := by
  obtain ⟨q, hq, hlt, heq, hstop⟩ := exists_right hp
  exact ⟨q, hq, hlt, heq, h, hstop⟩

/-- Each element is in a run. -/
theorem exists_run (hi : i < s.length) : ∃ p q, IsRun s p q ∧ p ≤ i ∧ i ≤ q := by
  obtain ⟨p, hp, hleft, hstart⟩ := exists_left s i
  obtain ⟨q, hq, hlt, hright, hstop⟩ := exists_right hi
  have heq := hleft p le_rfl hp
  refine ⟨p, q, ⟨hp.trans hq, hlt, fun k hpk hkq ↦ ?_, ?_, ?_⟩, hp, hq⟩
  · rcases le_total k i with hki | hik
    · rw [hleft k hpk hki, heq]
    · rw [hright k hik hkq, heq]
  · rw [IsStart, heq]
    exact hstart
  · rwa [heq]

/-! ### Palindromes -/

/-- Equal letters on both sides widen a palindrome. -/
theorem IsPalindrome.expand (h : IsPalindrome s (l + 1) r) (hr : r + 1 < s.length)
    (heq : s[l]? = s[r + 1]?) : IsPalindrome s l (r + 1) where
  le := (Nat.le_succ l).trans (h.le.trans r.le_succ)
  lt := hr
  mirror i j hi hir hij := by
    rcases hi.lt_or_eq with hlt | rfl
    · rcases hir.lt_or_eq with hlt' | rfl
      · exact h.mirror i j hlt (Nat.le_of_lt_succ hlt') (by omega)
      · obtain rfl : j = l := by omega
        exact heq.symm
    · obtain rfl : j = r + 1 := by omega
      exact heq

/-- Around the centre of a run there is no wider palindrome. -/
theorem IsWidest.le_of_centre (h : IsWidest s p q l r) (h' : IsPalindrome s l' r')
    (hcentre : l' + r' = p + q) : l ≤ l' := by
  by_contra hlt
  have hsum := h.centre
  have hle := h.palindrome.le
  refine h.stop (l - 1) (by omega) (h'.mirror (l - 1) (r + 1) ?_ ?_ ?_) <;> omega

/-- Around a centre there is one widest palindrome. -/
theorem IsWidest.unique (h : IsWidest s p q l r) (h' : IsWidest s p q l' r') :
    l = l' ∧ r = r' := by
  have hle := h.le_of_centre h'.palindrome h'.centre
  have hle' := h'.le_of_centre h.palindrome h.centre
  have hsum := h.centre
  have hsum' := h'.centre
  omega

/-- Every palindrome is within the widest one around its centre. -/
theorem IsPalindrome.exists_isWidest (h : IsPalindrome s l r) (hcentre : l + r = p + q)
    (hlp : l ≤ p) : ∃ l' r', IsWidest s p q l' r' := by
  induction l generalizing r with
  | zero => exact ⟨0, r, h, hcentre, hlp, fun i hi ↦ absurd hi (Nat.succ_ne_zero i)⟩
  | succ l ih =>
    by_cases heq : s[l]? = s[r + 1]?
    · have hl : l < s.length := (Nat.lt_of_succ_le h.le).trans h.lt
      have hr : r + 1 < s.length := by
        by_contra hge
        rw [List.getElem?_eq_none (i := r + 1) (not_lt.1 hge),
          List.getElem?_eq_getElem hl] at heq
        cases heq
      exact ih (h.expand hr heq) (by omega) (by omega)
    · refine ⟨l + 1, r, h, hcentre, hlp, fun i hi ↦ ?_⟩
      rwa [Nat.succ_injective hi]

/-- Around every stretch of one letter there is a widest palindrome. -/
theorem IsRun.exists_isWidest (h : IsRun s p q) : ∃ l r, IsWidest s p q l r :=
  h.isPalindrome.exists_isWidest rfl le_rfl

/-- A palindrome is a part of a run, or has the same centre as one. -/
theorem IsPalindrome.exists_run (h : IsPalindrome s l r) :
    ∃ p q, IsRun s p q ∧ (p ≤ l ∧ r ≤ q ∨ l + r = p + q) := by
  have hle := h.le
  have hlt := h.lt
  obtain ⟨p, q, hrun, hp, hq⟩ := Palindromes.exists_run (i := (l + r) / 2) (s := s) (by omega)
  have hrunlt := hrun.lt
  refine ⟨p, q, hrun, ?_⟩
  -- Both elements in the middle are in the run.
  have hmiddle : (l + r + 1) / 2 ≤ q := by
    by_contra hlt'
    have hnext : (l + r + 1) / 2 = q + 1 := by omega
    refine hrun.stop ?_
    rw [← hnext, ← hrun.eq ((l + r) / 2) hp hq]
    exact h.mirror _ _ (by omega) (by omega) (by omega)
  rcases lt_trichotomy (l + r) (p + q) with hcentre | hcentre | hcentre
  · -- The element in front of the run would have one of the run as its mirror image.
    by_cases hl : p ≤ l
    · exact .inl ⟨hl, by omega⟩
    · refine absurd ?_ (hrun.start (p - 1) (by omega))
      rw [h.mirror (p - 1) (l + r - (p - 1)) (by omega) (by omega) (by omega)]
      exact hrun.eq _ (by omega) (by omega)
  · exact .inr hcentre
  · by_cases hr : r ≤ q
    · exact .inl ⟨by omega, hr⟩
    · refine absurd ?_ hrun.stop
      rw [h.mirror (q + 1) (l + r - (q + 1)) (by omega) (by omega) (by omega)]
      exact hrun.eq _ (by omega) (by omega)

/-- So it is not longer than the widest one around a run. -/
theorem IsPalindrome.exists_run_le (h : IsPalindrome s l r) :
    ∃ p q, IsRun s p q ∧ ∀ l' r', IsWidest s p q l' r' → r - l + 1 ≤ r' - l' + 1 := by
  obtain ⟨p, q, hrun, hcases⟩ := h.exists_run
  refine ⟨p, q, hrun, fun l' r' h' ↦ ?_⟩
  have hsum := h'.centre
  rcases hcases with ⟨hp, hq⟩ | hcentre
  · have hle := h'.le
    omega
  · have hle := h'.le_of_centre h hcentre
    omega

/-- Around a run from `p` on, a palindrome ends with the list at the latest. -/
theorem IsWidest.length_lt (h : IsWidest s p q l r) (hrun : IsRun s p q) :
    r - l + 1 < 2 * (s.length - p) := by
  have hsum := h.centre
  have hle := hrun.le
  have hlt := h.palindrome.lt
  have hlr := h.palindrome.le
  have hlp := h.le
  omega

/-- The part of the list is its own mirror image. -/
theorem isPalindrome_iff (hlr : l ≤ r) (hr : r < s.length) :
    IsPalindrome s l r ↔ ((s.take (r + 1)).drop l).reverse = (s.take (r + 1)).drop l := by
  have hlen : ((s.take (r + 1)).drop l).length = r + 1 - l := by
    rw [List.length_drop, List.length_take]
    omega
  have hget (k : ℕ) (hk : k < r + 1 - l) : ((s.take (r + 1)).drop l)[k]? = s[l + k]? := by
    rw [List.getElem?_drop, List.getElem?_take_of_lt (by omega)]
  constructor
  · intro h
    refine List.ext_getElem? fun k ↦ ?_
    by_cases hk : k < r + 1 - l
    · rw [List.getElem?_reverse (by omega), hlen, hget _ (by omega), hget k hk]
      exact h.mirror _ _ (by omega) (by omega) (by omega)
    · rw [List.getElem?_eq_none (by rw [List.length_reverse]; omega),
        List.getElem?_eq_none (by omega)]
  · refine fun h ↦ ⟨hlr, hr, fun i j hi hir hij ↦ ?_⟩
    have hi' : s[i]? = ((s.take (r + 1)).drop l)[i - l]? := by
      rw [hget _ (by omega), Nat.add_sub_cancel' hi]
    have hj' : s[j]? = ((s.take (r + 1)).drop l)[j - l]? := by
      rw [hget _ (by omega), Nat.add_sub_cancel' (by omega)]
    rw [hi', hj', ← h, List.getElem?_reverse (by omega), h, hlen]
    congr 1
    omega

end Palindromes
