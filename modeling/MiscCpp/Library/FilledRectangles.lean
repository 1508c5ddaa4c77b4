import Mathlib.Data.Int.LeastGreatest
import Mathlib.Order.Bounds.Basic
import Mathlib.Order.Lattice
import Mathlib.Tactic.Common

/-!
# Rectangles of marked cells

Row by row, `top i j` is the first row of the marked cells of column `j` that end at row `i`, and
`IsLeft` and `IsRight` are the limits of the widest rectangle of this height around column `j`.
They follow from those of the row before and from the marked cells of the row itself
(`IsLeft.succ`, `IsRight.succ`).

The lowest column of a rectangle has the height and at least the width of it (`exists_column`), so
the areas of all cells have the greatest area among them.
-/

namespace FilledRectangles

variable (cell : ℤ → ℤ → Prop)

/-- The cells of the rows `t, …, b - 1` and the columns `l, …, r - 1` are marked. -/
def Filled (t b l r : ℤ) : Prop := ∀ i j, t ≤ i → i < b → l ≤ j → j < r → cell i j

/-- The areas of the rectangles of marked cells among the first `m` rows and `n` columns. -/
def areas (m n : ℤ) : Set ℤ :=
  {a | ∃ t b l r, 0 ≤ t ∧ t < b ∧ b ≤ m ∧ 0 ≤ l ∧ l < r ∧ r ≤ n ∧ Filled cell t b l r ∧
    a = (b - t) * (r - l)}

variable [∀ i j, Decidable (cell i j)]

/-- The first row from which on the column is marked up to the row before `i`. -/
def top : ℕ → ℤ → ℤ
  | 0, _ => 0
  | i + 1, j => if cell i j then top i j else i + 1

/-- The first column from which on the rows are marked up to column `j`. -/
def IsLeft (i : ℕ) (j l : ℤ) : Prop :=
  IsLeast {l | 0 ≤ l ∧ l ≤ j ∧ Filled cell (top cell i j) i l (j + 1)} l

/-- The last column, plus 1, up to which the rows are marked from column `j` on. -/
def IsRight (n : ℤ) (i : ℕ) (j r : ℤ) : Prop :=
  IsGreatest {r | j < r ∧ r ≤ n ∧ Filled cell (top cell i j) i j r} r

variable {cell} {i : ℕ} {j l l' r r' n t b : ℤ}

omit [∀ i j, Decidable (cell i j)] in
theorem Filled.mono (h : Filled cell t b l r) {t' b' l' r' : ℤ} (ht : t ≤ t') (hb : b' ≤ b)
    (hl : l ≤ l') (hr : r' ≤ r) : Filled cell t' b' l' r' :=
  fun i j hi hib hj hjr ↦
    h i j (ht.trans hi) (hib.trans_le hb) (hl.trans hj) (hjr.trans_le hr)

/-! ### Heights -/

variable (cell) in
theorem top_bounds (i : ℕ) (j : ℤ) : 0 ≤ top cell i j ∧ top cell i j ≤ i := by
  induction i with
  | zero => exact ⟨le_rfl, le_rfl⟩
  | succ i ih =>
    rw [top]
    split <;> omega

theorem filled_top (i : ℕ) (j : ℤ) : Filled cell (top cell i j) i j (j + 1) := by
  induction i with
  | zero =>
    intro i' j' hi hib
    rw [top] at hi
    omega
  | succ i ih =>
    intro i' j' hi hib hj hjr
    rw [top] at hi
    split at hi
    next hcell =>
      rcases lt_or_ge i' i with hlt | hge
      · exact ih i' j' hi hlt hj hjr
      · obtain rfl : i' = i := by omega
        obtain rfl : j' = j := by omega
        exact hcell
    next => omega

/-- No earlier row begins a marked column. -/
theorem top_le (ht : 0 ≤ t) (hti : t ≤ i) (h : Filled cell t i j (j + 1)) : top cell i j ≤ t := by
  induction i with
  | zero => exact ht
  | succ i ih =>
    rw [top]
    split
    next hcell =>
      rcases hti.lt_or_eq with hlt | rfl
      · exact ih (by omega) (h.mono le_rfl (by omega) le_rfl le_rfl)
      · have hbounds := top_bounds cell i j
        omega
    next hcell =>
      by_contra hlt
      exact hcell (h i j (by omega) (by omega) le_rfl (by omega))

/-- A marked cell continues the column above it. -/
theorem top_succ_of_cell (h : cell i j) : top cell (i + 1) j = top cell i j := by
  rw [top, if_pos h]

/-- A cell that is not marked ends the column. -/
theorem top_succ_of_not (h : ¬ cell i j) : top cell (i + 1) j = (i + 1 : ℕ) := by
  rw [top, if_neg h]
  rfl

/-! ### Widths -/

omit [∀ i j, Decidable (cell i j)] in
theorem filled_empty (i l r : ℤ) : Filled cell i i l r := fun i' j' hi hib ↦ by omega

/-- A row below. -/
theorem filled_succ_iff (h : cell i j) :
    Filled cell (top cell (i + 1) j) (i + 1 : ℕ) l r ↔
      Filled cell (top cell i j) i l r ∧ Filled cell i (i + 1) l r := by
  have hbounds := top_bounds cell i j
  rw [top_succ_of_cell h]
  constructor
  · exact fun hf ↦ ⟨hf.mono le_rfl (by omega) le_rfl le_rfl,
      hf.mono hbounds.2 (by omega) le_rfl le_rfl⟩
  · rintro ⟨hf, hrow⟩ i' j' hi hib hj hjr
    rcases lt_or_ge i' i with hlt | hge
    · exact hf i' j' hi hlt hj hjr
    · exact hrow i' j' hge (by omega) hj hjr

/-- Without rows the limit on the left is the first column. -/
theorem isLeft_of_not (h : ¬ cell i j) (hj : 0 ≤ j) : IsLeft cell (i + 1) j 0 := by
  refine ⟨⟨le_rfl, hj, ?_⟩, fun l hl ↦ hl.1⟩
  rw [top_succ_of_not h]
  exact filled_empty _ _ _

/-- Without rows the limit on the right is behind the last column. -/
theorem isRight_of_not (h : ¬ cell i j) (hj : j < n) : IsRight cell n (i + 1) j n := by
  refine ⟨⟨hj, le_rfl, ?_⟩, fun r hr ↦ hr.2.1⟩
  rw [top_succ_of_not h]
  exact filled_empty _ _ _

/-- **The limit on the left** from that of the row before, and that of the row itself. -/
theorem IsLeft.succ (h : IsLeft cell i j l) (hcell : cell i j) (hlj : l' ≤ j)
    (hrow : Filled cell i (i + 1) l' j) (hstop : l' = 0 ∨ ¬ cell i (l' - 1)) :
    IsLeft cell (i + 1) j (max l l') := by
  obtain ⟨⟨hl, hlj', hf⟩, hleast⟩ := h
  constructor
  · refine ⟨hl.trans (le_max_left _ _), max_le hlj' hlj, (filled_succ_iff hcell).2
      ⟨hf.mono le_rfl le_rfl (le_max_left _ _) le_rfl, fun i' j' hi hib hj hjr ↦ ?_⟩⟩
    rcases (Int.lt_add_one_iff.1 hjr).lt_or_eq with hlt | rfl
    · exact hrow i' j' hi hib ((le_max_right _ _).trans hj) hlt
    · obtain rfl : i' = i := by omega
      exact hcell
  · rintro k ⟨hk, hkj, hfk⟩
    obtain ⟨hfk, hrowk⟩ := (filled_succ_iff hcell).1 hfk
    refine max_le (hleast ⟨hk, hkj, hfk⟩) ?_
    by_contra hlt
    exact hstop.elim (by omega) fun hnot ↦ hnot (hrowk i (l' - 1) le_rfl (by omega) (by omega)
      (by omega))

/-- **The limit on the right.** -/
theorem IsRight.succ (h : IsRight cell n i j r) (hcell : cell i j) (hjr : j < r')
    (hrow : Filled cell i (i + 1) (j + 1) r') (hstop : r' = n ∨ ¬ cell i r') :
    IsRight cell n (i + 1) j (min r r') := by
  obtain ⟨⟨hjr', hr, hf⟩, hgreatest⟩ := h
  constructor
  · refine ⟨lt_min hjr' hjr, (min_le_left _ _).trans hr, (filled_succ_iff hcell).2
      ⟨hf.mono le_rfl le_rfl le_rfl (min_le_left _ _), fun i' j' hi hib hj hjr ↦ ?_⟩⟩
    rcases hj.lt_or_eq with hlt | rfl
    · exact hrow i' j' hi hib (by omega) (hjr.trans_le (min_le_right _ _))
    · obtain rfl : i' = i := by omega
      exact hcell
  · rintro k ⟨hk, hkn, hfk⟩
    obtain ⟨hfk, hrowk⟩ := (filled_succ_iff hcell).1 hfk
    refine le_min (hgreatest ⟨hk, hkn, hfk⟩) ?_
    by_contra hlt
    exact hstop.elim (by omega) fun hnot ↦ hnot (hrowk i r' le_rfl (by omega) (by omega) (by omega))

variable (cell) in
/-- Every column of a row has a limit on the left. -/
theorem exists_isLeft (i : ℕ) (hj : 0 ≤ j) : ∃ l, IsLeft cell i j l := by
  obtain ⟨l, hl, hleast⟩ := Int.exists_least_of_bdd
    (P := fun l ↦ 0 ≤ l ∧ l ≤ j ∧ Filled cell (top cell i j) i l (j + 1)) ⟨0, fun l hl ↦ hl.1⟩
    ⟨j, hj, le_rfl, filled_top i j⟩
  exact ⟨l, hl, fun k hk ↦ hleast k hk⟩

variable (cell) in
/-- Every column of a row has a limit on the right. -/
theorem exists_isRight (i : ℕ) (hj : j < n) : ∃ r, IsRight cell n i j r := by
  obtain ⟨r, hr, hgreatest⟩ := Int.exists_greatest_of_bdd
    (P := fun r ↦ j < r ∧ r ≤ n ∧ Filled cell (top cell i j) i j r) ⟨n, fun r hr ↦ hr.2.1⟩
    ⟨j + 1, by omega, hj, filled_top i j⟩
  exact ⟨r, hr, fun k hk ↦ hgreatest k hk⟩

/-! ### Areas -/

/-- Between the two limits the rows are marked. -/
theorem filled_of_limits (hleft : IsLeft cell i j l) (hright : IsRight cell n i j r) :
    Filled cell (top cell i j) i l r := by
  intro i' j' hi hib hj hjr
  rcases le_or_gt j' j with hle | hgt
  · exact hleft.1.2.2 i' j' hi hib hj (by omega)
  · exact hright.1.2.2 i' j' hi hib hgt.le hjr

/-- The area of a cell, `0` if its column is not marked there. -/
theorem area_mem {m : ℤ} (hleft : IsLeft cell i j l) (hright : IsRight cell n i j r)
    (him : i ≤ m) : (i - top cell i j) * (r - l) ∈ insert 0 (areas cell m n) := by
  have hbounds := top_bounds cell i j
  have hlj := hleft.1.2.1
  have hjr := hright.1.1
  rcases hbounds.2.lt_or_eq with hlt | heq
  · exact Or.inr ⟨top cell i j, i, l, r, hbounds.1, hlt, him, hleft.1.1, by omega,
      hright.1.2.1, filled_of_limits hleft hright, rfl⟩
  · exact Or.inl (by rw [← heq, Int.sub_self, Int.zero_mul])

/-- **The lowest column** of a rectangle. -/
theorem exists_column (ht : 0 ≤ t) (hti : t < i) (hl : 0 ≤ l) (hlr : l < r) (hr : r ≤ n)
    (h : Filled cell t i l r) :
    ∃ j, l ≤ j ∧ j < r ∧ ∀ l' r', IsLeft cell i j l' → IsRight cell n i j r' →
      (i - t) * (r - l) ≤ (i - top cell i j) * (r' - l') := by
  obtain ⟨v, ⟨j, hlj, hjr, rfl⟩, hgreatest⟩ := Int.exists_greatest_of_bdd
    (P := fun v ↦ ∃ j, l ≤ j ∧ j < r ∧ top cell i j = v)
    ⟨i, fun v ⟨j, _, _, hv⟩ ↦ hv ▸ (top_bounds cell i j).2⟩ ⟨_, l, le_rfl, hlr, rfl⟩
  refine ⟨j, hlj, hjr, fun l' r' hleft hright ↦ ?_⟩
  have hcolumn : top cell i j ≤ t :=
    top_le ht hti.le (h.mono le_rfl le_rfl hlj (by omega))
  have hall : Filled cell (top cell i j) i l r := fun i' j' hi hib hj hjr ↦
    filled_top i j' i' j' ((hgreatest _ ⟨j', hj, hjr, rfl⟩).trans hi) hib le_rfl (by omega)
  have hl' : l' ≤ l := hleft.2 ⟨hl, hlj, hall.mono le_rfl le_rfl le_rfl (by omega)⟩
  have hr' : r ≤ r' := hright.2 ⟨hjr, hr, hall.mono le_rfl le_rfl hlj le_rfl⟩
  exact Int.mul_le_mul (by omega) (by omega) (by omega) (by omega)

end FilledRectangles
