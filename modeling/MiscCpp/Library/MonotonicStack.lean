import Mathlib.Data.Int.LeastGreatest
import Mathlib.Order.Bounds.Basic
import Mathlib.Order.Lattice
import Mathlib.Tactic.Common

/-!
# A stack of indices with ascending values

The stack has indices of a sequence `f`, and from one to the one below it there are no smaller
values than its own (`Rises`). So when a smaller value comes, the index at the top has its limits on
both sides (`Rises.limits`).

Elements of the same value: the limit in front may be one of them, and then it is the first one of
them that has the whole width. This is enough for the areas of the rectangles in a histogram
(`le_of_limits`).
-/

namespace MonotonicStack

variable {α : Type*} [LinearOrder α] {f : ℤ → α} {idx : List ℤ} {i j p t : ℤ}

/-- The index at the top, `-1` if there is none. -/
def top (idx : List ℤ) : ℤ := idx.head?.getD (-1)

/-- The values of the indices ascend, and between them there are no smaller ones. -/
def Rises (f : ℤ → α) : List ℤ → Prop
  | [] => True
  | t :: idx => top idx < t ∧ (∀ p ∈ idx.head?, f p ≤ f t) ∧
      (∀ q, top idx < q → q < t → f t ≤ f q) ∧ Rises f idx

/-- No value between `p` and `i` is smaller than that of `j`, but that of `i` is, and that of `p` is
not greater. -/
structure Limits (f : ℤ → α) (p j i : ℤ) : Prop where
  left : p < j
  right : j < i
  le : ∀ q, p < q → q < i → f j ≤ f q
  before : p = -1 ∨ f p ≤ f j
  behind : f i < f j

/-- The top of the stack is at least the mark for an empty one. -/
theorem Rises.le_top (h : Rises f idx) : -1 ≤ top idx := by
  induction idx with
  | nil => exact le_rfl
  | cons t idx ih => exact (ih h.2.2.2).trans h.1.le

/-- **The limits** of the index at the top. -/
theorem Rises.limits (h : Rises f (t :: idx)) (hti : t < i)
    (hbehind : ∀ q, t < q → q < i → f t ≤ f q) (hlt : f i < f t) : Limits f (top idx) t i where
  left := h.1
  right := hti
  le q hq hqi := by
    rcases lt_trichotomy q t with hqt | rfl | hqt
    · exact h.2.2.1 q hq hqt
    · exact le_rfl
    · exact hbehind q hqt hqi
  before := by
    cases idx with
    | nil => exact Or.inl rfl
    | cons p idx => exact Or.inr (h.2.1 p rfl)
  behind := hlt

/-- No value behind the index that is at the top next is smaller than its own. -/
theorem Rises.behind (h : Rises f (t :: idx)) (hlimits : Limits f (top idx) t i) :
    ∀ p ∈ idx.head?, ∀ q, p < q → q < i → f p ≤ f q := by
  intro p hp q hpq hqi
  have htop : top idx = p := by rw [top, hp, Option.getD_some]
  exact (h.2.1 p hp).trans (hlimits.le q (htop ▸ hpq) hqi)

/-- A rising stack has increasing indices and values. -/
theorem Rises.pairwise (h : Rises f idx) : idx.Pairwise fun t p ↦ p < t ∧ f p ≤ f t := by
  induction idx with
  | nil => exact .nil
  | cons t idx ih =>
    refine List.pairwise_cons.2 ⟨fun p hp ↦ ?_, ih h.2.2.2⟩
    cases idx with
    | nil => cases hp
    | cons u idx =>
      have hu : u < t ∧ f u ≤ f t := ⟨h.1, h.2.1 u rfl⟩
      rcases List.mem_cons.1 hp with rfl | hp
      · exact hu
      · have hpu := List.rel_of_pairwise_cons (ih h.2.2.2) hp
        exact ⟨hpu.1.trans hu.1, hpu.2.trans hu.2⟩

/-- Of two indices on the stack, the greater one has the greater value. -/
theorem Rises.le_of_lt (h : Rises f idx) (hp : p ∈ idx) (ht : t ∈ idx) (hpt : p < t) :
    f p ≤ f t := by
  induction idx with
  | nil => cases hp
  | cons u idx ih =>
    rcases List.mem_cons.1 hp with rfl | hp'
    · rcases List.mem_cons.1 ht with rfl | ht'
      · exact le_rfl
      · exact absurd (List.rel_of_pairwise_cons h.pairwise ht').1 (not_lt.2 hpt.le)
    · rcases List.mem_cons.1 ht with rfl | ht'
      · exact (List.rel_of_pairwise_cons h.pairwise hp').2
      · exact ih h.2.2.2 hp' ht'

/-! ### Rectangles -/

/-- The heights of the bars `l, …, r - 1`. -/
def heights (f : ℤ → ℤ) (l r : ℤ) : Set ℤ := {m | ∃ k, (l ≤ k ∧ k < r) ∧ f k = m}

/-- The areas of the rectangles over the bars `l, …, r - 1` of a histogram with `n` bars. -/
def areas (f : ℤ → ℤ) (n : ℤ) : Set ℤ :=
  {a | ∃ l r m, 0 ≤ l ∧ l < r ∧ r ≤ n ∧ IsLeast (heights f l r) m ∧ a = (r - l) * m}

variable {f : ℤ → ℤ} {n res : ℤ}

theorem areas_congr {g : ℤ → ℤ} (h : ∀ q, 0 ≤ q → q < n → f q = g q) : areas f n = areas g n := by
  have hheights (l r : ℤ) (hl : 0 ≤ l) (hr : r ≤ n) : heights f l r = heights g l r :=
    Set.ext fun m ↦ exists_congr fun q ↦ and_congr_right fun hq ↦ by
      rw [h q (hl.trans hq.1) (hq.2.trans_le hr)]
  ext a
  refine exists₃_congr fun l r m ↦ and_congr_right fun hl ↦ and_congr_right fun _ ↦
    and_congr_right fun hr ↦ ?_
  rw [hheights l r hl hr]

/-- A bar between its limits has an area. -/
theorem Limits.mem_areas (h : Limits f p j i) (hp : -1 ≤ p) (hi : i ≤ n) :
    f j * (i - p - 1) ∈ areas f n := by
  have hleft := h.left
  have hright := h.right
  refine ⟨p + 1, i, f j, by omega, by omega, hi, ⟨⟨j, ⟨by omega, hright⟩, rfl⟩, ?_⟩, ?_⟩
  · rintro _ ⟨q, ⟨hq, hqi⟩, rfl⟩
    exact h.le q (by omega) hqi
  · rw [Int.mul_comm, Int.sub_sub]

/-- **No area is greater** than those between the limits of the bars. -/
theorem le_of_limits (hres : 0 ≤ res)
    (h : ∀ j, 0 ≤ j → j < n → 0 < f j → ∃ p i, Limits f p j i ∧ f j * (i - p - 1) ≤ res) :
    ∀ a ∈ areas f n, a ≤ res := by
  rintro a ⟨l, r, m, hl, hlr, hr, ⟨⟨j₀, hj₀, hm⟩, hmin⟩, rfl⟩
  rcases le_or_gt m 0 with hm₀ | hm₀
  · exact (Int.mul_nonpos_of_nonneg_of_nonpos (by omega) hm₀).trans hres
  · -- the first of the lowest bars: the limit in front of it is outside
    obtain ⟨j, ⟨hj, hjm⟩, hfirst⟩ := Int.exists_least_of_bdd
      (P := fun j ↦ (l ≤ j ∧ j < r) ∧ f j = m) ⟨l, fun j hj ↦ hj.1.1⟩ ⟨j₀, hj₀, hm⟩
    obtain ⟨p, i, hlimits, hle⟩ := h j (hl.trans hj.1) (hj.2.trans_le hr) (hjm ▸ hm₀)
    have hbetween (q : ℤ) (hq : l ≤ q) (hqr : q < r) : m ≤ f q := hmin ⟨q, ⟨hq, hqr⟩, rfl⟩
    have hpl : p < l := by
      by_contra hlp
      have hpj := hlimits.left
      have hfp : f p ≤ f j := hlimits.before.resolve_left (by omega)
      have hmp := hbetween p (by omega) (hpj.trans hj.2)
      exact absurd (hfirst p ⟨⟨by omega, hpj.trans hj.2⟩, by omega⟩) (not_le.2 hpj)
    have hri : r ≤ i := by
      by_contra hir
      have hji := hlimits.right
      have hmi := hbetween i (hj.1.trans hji.le) (by omega)
      have hlt := hlimits.behind
      omega
    refine le_trans ?_ hle
    rw [hjm, Int.mul_comm]
    exact Int.mul_le_mul_of_nonneg_left (by omega) hm₀.le

end MonotonicStack
