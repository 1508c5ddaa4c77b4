import Mathlib.Data.Nat.Notation
import Mathlib.Order.Bounds.Basic
import Mathlib.Order.Nat
import Mathlib.Tactic.Common

/-!
# The shortest part to remove from a sequence

A part of a sequence is removed so that the elements in front of it and behind it do not decrease
(`Leaves`). What is in front and what is behind are then sorted themselves; in front of the longest
sorted end there is a greater element (`End`), and for each sorted front the part is the shortest
one that ends where the first element follows that is not less than the last one of the front
(`Partner`).
-/

namespace ShortestRemoval

variable {α : Type*} [LinearOrder α] {f : ℕ → α} {n p q i j r s : ℕ}

/-- The elements from `a` on up to `b` do not decrease. -/
def Climbs (f : ℕ → α) (a b : ℕ) : Prop := ∀ i j, a ≤ i → i ≤ j → j < b → f i ≤ f j

/-- Without those from `p` on up to `q` the first `n` elements do not decrease. -/
structure Leaves (f : ℕ → α) (n p q : ℕ) : Prop where
  le : p ≤ q
  le_length : q ≤ n
  front : Climbs f 0 p
  back : Climbs f q n
  seam : ∀ i < p, ∀ j, q ≤ j → j < n → f i ≤ f j

/-- The lengths of these parts, with at most `i` elements in front. -/
def lengths (f : ℕ → α) (n i : ℕ) : Set ℕ := {k | ∃ p ≤ i, ∃ q, Leaves f n p q ∧ k = q - p}

theorem Climbs.mono (h : Climbs f p q) {p' q' : ℕ} (hp : p ≤ p') (hq : q' ≤ q) :
    Climbs f p' q' :=
  fun i j hi hij hj ↦ h i j (hp.trans hi) hij (hj.trans_le hq)

theorem climbs_zero : Climbs f 0 0 := fun _ _ _ _ hj ↦ absurd hj (Nat.not_lt_zero _)

/-- A beginning climbs one element further if that one is not below the last. -/
theorem climbs_succ_iff : Climbs f 0 (i + 1) ↔ Climbs f 0 i ∧ (0 < i → f (i - 1) ≤ f i) := by
  constructor
  · intro h
    exact ⟨h.mono le_rfl (Nat.le_succ i), fun hi ↦ h _ _ (Nat.zero_le _) (Nat.sub_le i 1)
      (Nat.lt_succ_self i)⟩
  · rintro ⟨h, hnext⟩ p q - hpq hq
    rcases (Nat.lt_succ_iff.1 hq).lt_or_eq with hlt | rfl
    · exact h p q (Nat.zero_le p) hpq hlt
    · rcases hpq.lt_or_eq with hlt | rfl
      · exact (h p (q - 1) (Nat.zero_le p) (by omega) (by omega)).trans (hnext (by omega))
      · exact le_rfl

/-- An element in front of a sorted end. -/
theorem climbs_pred (hj : 0 < j) (h : Climbs f j n) (hle : j < n → f (j - 1) ≤ f j) :
    Climbs f (j - 1) n := by
  intro p q hp hpq hq
  rcases (show p = j - 1 ∨ j ≤ p by omega) with rfl | hjp
  · rcases (show q = j - 1 ∨ j ≤ q by omega) with rfl | hjq
    · exact le_rfl
    · exact (hle (hjq.trans_lt hq)).trans (h j q le_rfl hjq hq)
  · exact h p q hjp hpq hq

theorem Climbs.congr {g : ℕ → α} (h : Climbs f p q) (hfg : ∀ i < q, f i = g i) : Climbs g p q := by
  intro i j hi hij hj
  rw [← hfg i (hij.trans_lt hj), ← hfg j hj]
  exact h i j hi hij hj

theorem Leaves.congr {g : ℕ → α} (h : Leaves f n p q) (hfg : ∀ i < n, f i = g i) :
    Leaves g n p q where
  le := h.le
  le_length := h.le_length
  front := h.front.congr fun i hi ↦ hfg i (hi.trans_le (h.le.trans h.le_length))
  back := h.back.congr hfg
  seam i hi j hj hjn := by
    rw [← hfg i (hi.trans_le (h.le.trans h.le_length)), ← hfg j hjn]
    exact h.seam i hi j hj hjn

/-- The lengths depend on the elements only. -/
theorem lengths_congr {g : ℕ → α} (hfg : ∀ i < n, f i = g i) :
    lengths f n i = lengths g n i := by
  refine Set.ext fun k ↦ exists_congr fun p ↦ and_congr_right fun _ ↦ exists_congr fun q ↦
    and_congr_left fun _ ↦ ⟨fun h ↦ h.congr hfg, fun h ↦ h.congr fun i hi ↦ (hfg i hi).symm⟩

/-- Nothing has to be removed. -/
theorem isLeast_lengths_of_climbs (h : Climbs f 0 n) : IsLeast (lengths f n n) 0 :=
  ⟨⟨0, Nat.zero_le n, 0, ⟨le_rfl, Nat.zero_le n, climbs_zero, h, fun _ hi ↦
    absurd hi (Nat.not_lt_zero _)⟩, rfl⟩, fun _ _ ↦ Nat.zero_le _⟩

/-- The longest sorted end begins at `s`. -/
structure End (f : ℕ → α) (n s : ℕ) : Prop where
  pos : 0 < s
  lt : s < n
  sorted : Climbs f s n
  descent : f s < f (s - 1)

/-- An end that climbs begins at `s` or behind it. -/
theorem End.le_of_back (h : End f n s) (hback : Climbs f q n) : s ≤ q := by
  by_contra hlt
  have hpos := h.pos
  exact absurd (hback (s - 1) s (by omega) (Nat.sub_le s 1) h.lt) (not_le.2 h.descent)

/-- A front that climbs does not reach beyond the descent. -/
theorem End.le_of_front (h : End f n s) (hfront : Climbs f 0 p) : p ≤ s := by
  by_contra hlt
  exact absurd (hfront (s - 1) s (Nat.zero_le _) (Nat.sub_le s 1) (by omega))
    (not_le.2 h.descent)

/-- All in front of the end is removed. -/
theorem End.isLeast_lengths_zero (h : End f n s) : IsLeast (lengths f n 0) s := by
  refine ⟨⟨0, le_rfl, s, ⟨Nat.zero_le s, h.lt.le, climbs_zero, h.sorted, fun _ hi ↦
    absurd hi (Nat.not_lt_zero _)⟩, rfl⟩, ?_⟩
  rintro _ ⟨p, hp, q, hleaves, rfl⟩
  have hle := h.le_of_back hleaves.back
  omega

/-- The part behind the front that ends with `i` has to reach to `j`. -/
structure Partner (f : ℕ → α) (n s i j : ℕ) : Prop where
  le : s ≤ j
  le_length : j ≤ n
  passed : ∀ q, s ≤ q → q < j → f q < f i
  stop : j < n → f i ≤ f j

/-- Removing what is between a front and its partner leaves elements that climb. -/
theorem Partner.leaves (h : Partner f n s i j) (hs : End f n s) (hfront : Climbs f 0 (i + 1)) :
    Leaves f n (i + 1) j where
  le := (hs.le_of_front hfront).trans h.le
  le_length := h.le_length
  front := hfront
  back := hs.sorted.mono h.le le_rfl
  seam p hp q hq hlt := by
    have hp' : f p ≤ f i := hfront p i (Nat.zero_le p) (Nat.lt_succ_iff.1 hp) (Nat.lt_succ_self i)
    have hq' : f j ≤ f q := hs.sorted j q h.le hq hlt
    exact hp'.trans ((h.stop (hq.trans_lt hlt)).trans hq')

/-- No earlier element than the partner leaves elements that climb. -/
theorem Partner.le_of_leaves (h : Partner f n s i j) (hs : End f n s)
    (hleaves : Leaves f n (i + 1) q) : j ≤ q := by
  by_contra hlt
  have hsq := hs.le_of_back hleaves.back
  have hjn := h.le_length
  exact absurd (hleaves.seam i (Nat.lt_succ_self i) q le_rfl (by omega))
    (not_le.2 (h.passed q hsq (by omega)))

/-- **One more element in front.** -/
theorem Partner.isLeast_lengths_succ (h : Partner f n s i j) (hs : End f n s)
    (hfront : Climbs f 0 (i + 1)) (hr : IsLeast (lengths f n i) r) :
    IsLeast (lengths f n (i + 1)) (min r (j - (i + 1))) := by
  constructor
  · rcases le_total r (j - (i + 1)) with hle | hle
    · rw [min_eq_left hle]
      obtain ⟨p, hp, hrest⟩ := hr.1
      exact ⟨p, hp.trans (Nat.le_succ i), hrest⟩
    · rw [min_eq_right hle]
      exact ⟨i + 1, le_rfl, j, h.leaves hs hfront, rfl⟩
  · rintro _ ⟨p, hp, q, hleaves, rfl⟩
    rcases hp.lt_or_eq with hlt | rfl
    · exact (min_le_left _ _).trans (hr.2 ⟨p, Nat.lt_succ_iff.1 hlt, q, hleaves, rfl⟩)
    · have hle := h.le_of_leaves hs hleaves
      exact (min_le_right _ _).trans (by omega)

/-- A longer front is not sorted. -/
theorem lengths_eq_of_not (hi : i ≤ n) (hnot : i < n → ¬ Climbs f 0 (i + 1)) :
    lengths f n i = lengths f n n := by
  refine Set.Subset.antisymm (fun k ⟨p, hp, hrest⟩ ↦ ⟨p, hp.trans hi, hrest⟩) ?_
  rintro k ⟨p, hp, q, hleaves, hk⟩
  refine ⟨p, ?_, q, hleaves, hk⟩
  by_contra hlt
  exact hnot (by omega) (hleaves.front.mono le_rfl (by omega))

end ShortestRemoval
