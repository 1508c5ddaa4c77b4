import MiscCpp.Library.Counters
import MiscCpp.Library.FilledRectangles
import MiscCpp.Library.Machine
import MiscCpp.Library.TwoDimensional

/-!
# The maximal rectangle of ones

`maximalRectangle` of `leetcode/DP/maximalRectangle.cc`, with its three arrays, the indices of type
`int` and the conversion of the number of columns.

Row by row the arrays have the height and the two limits of each column (`row_spec`), so the areas
that are compared are those of rectangles of ones, and the greatest one is among them. An area
that is too large overflows when it is computed (`maximalRectangle_iff`).
-/

open Access CInt FilledRectangles Machine

namespace MaximalRectangle

/-! ### The program -/

/-- `matrix[i][j] == '1'` -/
def isOne (matrix : List (List Char)) (i j : ℕ) : Option Bool :=
  (TwoDimensional.get matrix i j).map (· = '1')

/-- The first loop, for one `j`. -/
def raise (matrix : List (List Char)) (i : ℕ) (height : List ℤ) (j : ℕ) : Option (List ℤ) := do
  if ← isOne matrix i j then put height j (← fit ((← get height j) + 1)) else put height j 0

/-- The second loop, for one `j`; the state is `left` and `curLeft`. -/
def moveLeft (matrix : List (List Char)) (i : ℕ) (s : List ℤ × ℤ) (j : ℕ) :
    Option (List ℤ × ℤ) := do
  if ← isOne matrix i j then some (← put s.1 j (max (← get s.1 j) s.2), s.2)
  else some (← put s.1 j 0, ← fit (j + 1))

/-- The third loop, for one `j`; the state is `right` and `curRight`. -/
def moveRight (matrix : List (List Char)) (n i : ℕ) (s : List ℤ × ℤ) (j : ℕ) :
    Option (List ℤ × ℤ) := do
  if ← isOne matrix i j then some (← put s.1 j (min (← get s.1 j) s.2), s.2)
  else some (← put s.1 j (wrap n).1, ↑j)

/-- The last loop, for one `j`. -/
def measure (left right height : List ℤ) (area : ℤ) (j : ℕ) : Option ℤ := do
  let width ← fit ((← get right j) - (← get left j))
  some (max area (← fit ((← get height j) * width)))

structure State where
  left : List ℤ
  right : List ℤ
  height : List ℤ
  area : ℤ

/-- The values of `j` in `for (int j = n - 1; j >= 0; --j)`. -/
def countdown (n : ℕ) : List ℕ := (List.range ((wrap (n - 1)).1 + 1).toNat).reverse

/-- The body of the outer loop; the loops that count up have the indices `js`. -/
def row (matrix : List (List Char)) (n : ℕ) (js : List ℕ) (s : State) (i : ℕ) : Option State := do
  let height ← exec (raise matrix i) s.height js
  let (left, _) ← exec (moveLeft matrix i) (s.left, 0) js
  let (right, _) ← exec (moveRight matrix n i) (s.right, (wrap n).1) (countdown n)
  let area ← exec (measure left right height) s.area js
  some ⟨left, right, height, area⟩

/-- The function, without what it prints. -/
def maximalRectangle (matrix : List (List Char)) : Option ℤ := do
  let m := matrix.length
  let n := (← matrix.head?).length
  let start : State :=
    ⟨List.replicate n 0, List.replicate n (wrap n).1, List.replicate n 0, 0⟩
  let is ← counter m
  let js ← counter n
  let s ← exec (row matrix n js) start is
  some s.area

example : maximalRectangle [['1', '0', '1', '0', '0'], ['1', '0', '1', '1', '1'],
    ['1', '1', '1', '1', '1'], ['1', '0', '0', '1', '0']] = some 6 := by decide +kernel

/-- A matrix of `0` and `1`, with at least one row. -/
structure Matrix where
  rows : List (List Char)
  width : ℕ
  nonempty : rows ≠ []
  rectangular : ∀ row ∈ rows, row.length = width
  binary : ∀ row ∈ rows, ∀ c ∈ row, c = '0' ∨ c = '1'

namespace Matrix

variable (M : Matrix)

def Cell (i j : ℤ) : Prop := TwoDimensional.get M.rows i j = some '1'

instance (i j : ℤ) : Decidable (M.Cell i j) := inferInstanceAs (Decidable (_ = _))

/-! ### The loops of a row -/

variable {M} {i j : ℕ} {height left right : List ℤ} {l r area : ℤ}

theorem isOne_eq (hi : i < M.rows.length) (hj : j < M.width) :
    isOne M.rows i j = some (decide (M.Cell i j)) := by
  have hj' : j < M.rows[i].length := by rwa [M.rectangular M.rows[i] (List.getElem_mem hi)]
  have hget : TwoDimensional.get M.rows i j = some M.rows[i][j] := by
    rw [TwoDimensional.get_natCast, List.getElem?_eq_getElem hi, Option.bind_some,
      List.getElem?_eq_getElem]
  rw [isOne, hget, Option.map_some, Option.some_inj, decide_eq_decide, Cell, hget, Option.some_inj]

variable (M) in
/-- The height of column `j` before row `i`. -/
def IsHeight (i : ℕ) (j h : ℤ) : Prop := h = i - top M.Cell i j

theorem raise_spec (hi : i < M.rows.length) (hm : M.rows.length < 2 ^ 31)
    (h : Entries M.width (M.IsHeight i) height) :
    ∃ height', exec (raise M.rows i) height (List.range M.width) = some height' ∧
      Entries M.width (M.IsHeight (i + 1)) height' := by
  rw [← entries_split_zero_iff (P := M.IsHeight (i + 1))] at h
  have hturn (k : ℕ) (height : List ℤ) (hk : k < M.width)
      (h : Entries M.width (Split k (M.IsHeight (i + 1)) (M.IsHeight i)) height) :
      ∃ height', raise M.rows i height k = some height' ∧
        Entries M.width (Split (k + 1 : ℕ) (M.IsHeight (i + 1)) (M.IsHeight i)) height' := by
    obtain ⟨x, hx, -, hheight⟩ := h.exists_get (Int.natCast_nonneg k) (by omega)
    have hxval : x = i - top M.Cell i k := hheight le_rfl
    have hbounds := top_bounds M.Cell i k
    rw [raise, isOne_eq hi hk]
    by_cases hcell : M.Cell i k
    · have hnext : M.IsHeight (i + 1) k (x + 1) := by
        rw [IsHeight, top_succ_of_cell hcell]
        omega
      obtain ⟨height', hput, h'⟩ := h.put_up (Int.natCast_nonneg k) (by omega) hnext
      exact ⟨height', by simp [hcell, hx, fit_eq (n := x + 1) (by omega), hput], h'⟩
    · have hnext : M.IsHeight (i + 1) k 0 := by
        rw [IsHeight, top_succ_of_not hcell, Int.sub_self]
      obtain ⟨height', hput, h'⟩ := h.put_up (Int.natCast_nonneg k) (by omega) hnext
      exact ⟨height', by simp [hcell, hput], h'⟩
  obtain ⟨height', hrun, h'⟩ := exists_exec_range hturn h
  exact ⟨height', hrun, entries_split_self_iff.1 h'⟩

/-- What `curLeft` is before column `k`. -/
structure CurLeft (cell : ℤ → ℤ → Prop) (i k l : ℤ) : Prop where
  nonneg : 0 ≤ l
  le : l ≤ k
  filled : Filled cell i (i + 1) l k
  stop : l = 0 ∨ ¬ cell i (l - 1)

theorem moveLeft_spec (hi : i < M.rows.length) (hn : M.width < 2 ^ 31)
    (h : Entries M.width (IsLeft M.Cell i) left) :
    ∃ s, exec (moveLeft M.rows i) (left, 0) (List.range M.width) = some s ∧
      Entries M.width (IsLeft M.Cell (i + 1)) s.1 := by
  rw [← entries_split_zero_iff (P := IsLeft M.Cell (i + 1))] at h
  have hstart : CurLeft M.Cell i (0 : ℕ) 0 :=
    ⟨le_rfl, le_rfl, fun i' j _ _ hj hj' ↦ by omega, Or.inl rfl⟩
  have hturn (k : ℕ) (s : List ℤ × ℤ) (hk : k < M.width)
      (hs : Entries M.width (Split k (IsLeft M.Cell (i + 1)) (IsLeft M.Cell i)) s.1 ∧
        CurLeft M.Cell i k s.2) :
      ∃ s', moveLeft M.rows i s k = some s' ∧
        Entries M.width (Split (k + 1 : ℕ) (IsLeft M.Cell (i + 1)) (IsLeft M.Cell i)) s'.1 ∧
          CurLeft M.Cell i (k + 1 : ℕ) s'.2 := by
    obtain ⟨left, cur⟩ := s
    obtain ⟨h, hcur⟩ := hs
    obtain ⟨l, hl, -, hleft⟩ := h.exists_get (Int.natCast_nonneg k) (by omega)
    have hk' : ((k + 1 : ℕ) : ℤ) = k + 1 := rfl
    rw [moveLeft, isOne_eq hi hk]
    by_cases hcell : M.Cell i k
    · have hnext := (hleft le_rfl).succ hcell hcur.le hcur.filled hcur.stop
      obtain ⟨left', hput, h'⟩ := h.put_up (Int.natCast_nonneg k) (by omega) hnext
      refine ⟨(left', cur), by simp [hcell, hl, hput], h', hcur.nonneg, by have := hcur.le; omega,
        fun i' j hi' hib hj hjk ↦ ?_, hcur.stop⟩
      rcases lt_or_ge j k with hlt | hge
      · exact hcur.filled i' j hi' hib hj hlt
      · obtain rfl : j = k := by omega
        obtain rfl : i' = i := by omega
        exact hcell
    · have hnext := isLeft_of_not hcell (Int.natCast_nonneg k)
      obtain ⟨left', hput, h'⟩ := h.put_up (Int.natCast_nonneg k) (by omega) hnext
      refine ⟨(left', k + 1), by simp [hcell, hput, fit_eq (n := k + 1) (by omega)], h',
        by omega, le_rfl, fun i' j _ _ hj hj' ↦ by omega, Or.inr ?_⟩
      rwa [Int.add_sub_cancel]
  obtain ⟨s, hrun, h', -⟩ := exists_exec_range hturn (s := (left, 0)) ⟨h, hstart⟩
  exact ⟨s, hrun, entries_split_self_iff.1 h'⟩

/-- What `curRight` is before column `k - 1`. -/
structure CurRight (cell : ℤ → ℤ → Prop) (n i k r : ℤ) : Prop where
  le : k ≤ r
  le_width : r ≤ n
  filled : Filled cell i (i + 1) k r
  stop : r = n ∨ ¬ cell i r

theorem countdown_eq {n : ℕ} (hn : n < 2 ^ 31) : countdown n = (List.range n).reverse := by
  have hsize : ((wrap (n - 1)).1 + 1).toNat = n := by
    cases n with
    | zero => decide
    | succ n =>
      have hval := wrap_of_lt (n := ((n + 1 : ℕ) : ℤ) - 1) (by omega) (by omega)
      omega
  rw [countdown, hsize]

theorem moveRight_spec (hi : i < M.rows.length) (hn : M.width < 2 ^ 31)
    (h : Entries M.width (IsRight M.Cell M.width i) right) :
    ∃ s, exec (moveRight M.rows M.width i) (right, (wrap M.width).1) (countdown M.width) = some s ∧
      Entries M.width (IsRight M.Cell M.width (i + 1)) s.1 := by
  rw [countdown_eq hn, wrap_of_lt (Int.natCast_nonneg _) (by omega)]
  rw [← entries_split_self_iff (Q := IsRight M.Cell M.width (i + 1))] at h
  have hstart : CurRight M.Cell M.width i M.width M.width :=
    ⟨le_rfl, le_rfl, fun i' j _ _ hj hj' ↦ by omega, Or.inl rfl⟩
  have hturn (k : ℕ) (s : List ℤ × ℤ) (hk : k < M.width)
      (hs : Entries M.width (Split (k + 1 : ℕ) (IsRight M.Cell M.width i)
        (IsRight M.Cell M.width (i + 1))) s.1 ∧ CurRight M.Cell M.width i (k + 1 : ℕ) s.2) :
      ∃ s', moveRight M.rows M.width i s k = some s' ∧
        Entries M.width (Split k (IsRight M.Cell M.width i)
          (IsRight M.Cell M.width (i + 1))) s'.1 ∧ CurRight M.Cell M.width i k s'.2 := by
    obtain ⟨right, cur⟩ := s
    obtain ⟨h, hcur⟩ := hs
    have hk' : ((k + 1 : ℕ) : ℤ) = k + 1 := rfl
    have hle := hcur.le
    obtain ⟨r, hr, hright, -⟩ := h.exists_get (Int.natCast_nonneg k) (by omega)
    rw [moveRight, isOne_eq hi hk]
    by_cases hcell : M.Cell i k
    · have hnext := (hright (by omega)).succ hcell (by omega) hcur.filled hcur.stop
      obtain ⟨right', hput, h'⟩ := h.put_down (Int.natCast_nonneg k) (by omega) hnext
      refine ⟨(right', cur), by simp [hcell, hr, hput], h', by omega, hcur.le_width,
        fun i' j hi' hib hj hjk ↦ ?_, hcur.stop⟩
      rcases lt_or_ge (k : ℤ) j with hlt | hge
      · exact hcur.filled i' j hi' hib (by omega) hjk
      · obtain rfl : j = k := by omega
        obtain rfl : i' = i := by omega
        exact hcell
    · have hnext := isRight_of_not (n := M.width) hcell (by omega)
      obtain ⟨right', hput, h'⟩ := h.put_down (Int.natCast_nonneg k) (by omega) hnext
      have hwrap := wrap_of_lt (Int.natCast_nonneg M.width) (by omega)
      exact ⟨(right', k), by simp [hcell, hput, hwrap], h', le_rfl, by omega,
        fun i' j _ _ hj hj' ↦ by omega, Or.inr hcell⟩
  obtain ⟨s, hrun, h', -⟩ := exists_exec_reverse_range
    (I := fun k s ↦ Entries M.width (Split k (IsRight M.Cell M.width i)
      (IsRight M.Cell M.width (i + 1))) s.1 ∧ CurRight M.Cell M.width i k s.2)
    hturn (s := (right, (M.width : ℤ))) ⟨h, hstart⟩
  exact ⟨s, hrun, entries_split_zero_iff.1 h'⟩

/-! ### The areas -/

variable (M) in
/-- No area of row `i - 1` overflows. -/
def Fits (i : ℕ) (j : ℤ) : Prop :=
  ∀ l r, IsLeft M.Cell i j l → IsRight M.Cell M.width i j r →
    (i - top M.Cell i j) * (r - l) < 2 ^ 31

/-- The three entries of a column. -/
theorem exists_entries (hheight : Entries M.width (M.IsHeight i) height)
    (hleft : Entries M.width (IsLeft M.Cell i) left)
    (hright : Entries M.width (IsRight M.Cell M.width i) right) (hj : j < M.width) :
    ∃ l r, Access.get height j = some (i - top M.Cell i j) ∧ Access.get left j = some l ∧
      Access.get right j = some r ∧ IsLeft M.Cell i j l ∧ IsRight M.Cell M.width i j r := by
  obtain ⟨h, hh, hval⟩ := hheight.exists_get (Int.natCast_nonneg j) (by omega)
  obtain ⟨l, hl, hlval⟩ := hleft.exists_get (Int.natCast_nonneg j) (by omega)
  obtain ⟨r, hr, hrval⟩ := hright.exists_get (Int.natCast_nonneg j) (by omega)
  exact ⟨l, r, hval ▸ hh, hl, hr, hlval, hrval⟩

theorem measure_eq (hn : M.width < 2 ^ 31) (hheight : Entries M.width (M.IsHeight i) height)
    (hleft : Entries M.width (IsLeft M.Cell i) left)
    (hright : Entries M.width (IsRight M.Cell M.width i) right) (hj : j < M.width) (area : ℤ) :
    ∃ l r, IsLeft M.Cell i j l ∧ IsRight M.Cell M.width i j r ∧
      measure left right height area j =
        (fit ((i - top M.Cell i j) * (r - l))).map (max area) := by
  obtain ⟨l, r, hh, hl, hr, hlval, hrval⟩ := exists_entries hheight hleft hright hj
  have hl₀ := hlval.1.1
  have hlj := hlval.1.2.1
  have hjr := hrval.1.1
  have hrn := hrval.1.2.1
  refine ⟨l, r, hlval, hrval, ?_⟩
  rw [measure, hh, hl, hr]
  simp only [Option.bind_eq_bind, Option.bind_some, fit_eq (n := r - l) (by omega)]
  cases fit ((i - top M.Cell i j) * (r - l)) <;> rfl

theorem area_nonneg (hleft : IsLeft M.Cell i j l) (hright : IsRight M.Cell M.width i j r) :
    0 ≤ (i - top M.Cell i j) * (r - l) := by
  have hbounds := top_bounds M.Cell i j
  have hlj := hleft.1.2.1
  have hjr := hright.1.1
  exact Int.mul_nonneg (by omega) (by omega)

/-- The areas of the row `i - 1` are at most `a`. -/
def RowLe (M : Matrix) (i : ℕ) (a : ℤ) (j : ℤ) : Prop :=
  ∀ l r, IsLeft M.Cell i j l → IsRight M.Cell M.width i j r → (i - top M.Cell i j) * (r - l) ≤ a

theorem measure_spec (hn : M.width < 2 ^ 31) (him : i ≤ M.rows.length)
    (hheight : Entries M.width (M.IsHeight i) height)
    (hleft : Entries M.width (IsLeft M.Cell i) left)
    (hright : Entries M.width (IsRight M.Cell M.width i) right)
    (hfits : ∀ j < M.width, M.Fits i j)
    (harea : area ∈ insert 0 (areas M.Cell M.rows.length M.width)) :
    ∃ area', exec (measure left right height) area (List.range M.width) = some area' ∧
      area' ∈ insert 0 (areas M.Cell M.rows.length M.width) ∧ area ≤ area' ∧
        ∀ j < M.width, M.RowLe i area' j := by
  refine exists_exec_range (I := fun k area' ↦
    area' ∈ insert 0 (areas M.Cell M.rows.length M.width) ∧ area ≤ area' ∧
      ∀ j < k, M.RowLe i area' j) (fun k area' hk ⟨hmem, hle, hrow⟩ ↦ ?_)
    ⟨harea, le_rfl, fun j hj ↦ absurd hj (Nat.not_lt_zero j)⟩
  obtain ⟨l, r, hl, hr, hmeasure⟩ := measure_eq hn hheight hleft hright hk area'
  have hnonneg := area_nonneg hl hr
  have hlt := hfits k hk l r hl hr
  refine ⟨max area' ((i - top M.Cell i k) * (r - l)), by rw [hmeasure, fit_eq (by omega)]; rfl,
    ?_, hle.trans (le_max_left _ _), fun j hj l' r' hl' hr' ↦ ?_⟩
  · rcases le_total area' ((i - top M.Cell i k) * (r - l)) with hle' | hle'
    · rw [max_eq_right hle']
      exact area_mem hl hr (by omega)
    · rwa [max_eq_left hle']
  · rcases Nat.lt_succ_iff_lt_or_eq.1 hj with hlt | rfl
    · exact (hrow j hlt l' r' hl' hr').trans (le_max_left _ _)
    · rw [hl'.unique hl, hr'.unique hr]
      exact le_max_right _ _

theorem fits_of_measure (hn : M.width < 2 ^ 31) (hheight : Entries M.width (M.IsHeight i) height)
    (hleft : Entries M.width (IsLeft M.Cell i) left)
    (hright : Entries M.width (IsRight M.Cell M.width i) right) {area' : ℤ}
    (hrun : exec (measure left right height) area (List.range M.width) = some area')
    (hj : j < M.width) : M.Fits i j := by
  refine forall_of_exec (P := fun j ↦ j < M.width → M.Fits i j) (fun s j t hstep hj ↦ ?_) hrun j
    (List.mem_range.2 hj) hj
  obtain ⟨l, r, hl, hr, hmeasure⟩ := measure_eq hn hheight hleft hright hj s
  rw [hmeasure, Option.map_eq_some_iff] at hstep
  obtain ⟨a, ha, -⟩ := hstep
  intro l' r' hl' hr'
  rw [hl'.unique hl, hr'.unique hr]
  exact (fit_eq_some ha).2.2

/-! ### The rows -/

/-- The state before row `i`. -/
structure Holds (M : Matrix) (i : ℕ) (s : State) : Prop where
  height : Entries M.width (M.IsHeight i) s.height
  left : Entries M.width (IsLeft M.Cell i) s.left
  right : Entries M.width (IsRight M.Cell M.width i) s.right
  area : s.area ∈ insert 0 (areas M.Cell M.rows.length M.width)
  nonneg : 0 ≤ s.area
  le : ∀ i' < i, ∀ j < M.width, M.RowLe (i' + 1) s.area j

theorem holds_start (hn : M.width < 2 ^ 31) :
    M.Holds 0 ⟨List.replicate M.width 0, List.replicate M.width (wrap M.width).1,
      List.replicate M.width 0, 0⟩ where
  height := entries_replicate fun j _ _ ↦ rfl
  left := entries_replicate fun j hj _ ↦ ⟨⟨le_rfl, hj, filled_empty _ _ _⟩, fun l hl ↦ hl.1⟩
  right := entries_replicate fun j _ hj ↦ by
    rw [wrap_of_lt (Int.natCast_nonneg _) (by omega)]
    exact ⟨⟨hj, le_rfl, filled_empty _ _ _⟩, fun r hr ↦ hr.2.1⟩
  area := Or.inl rfl
  nonneg := le_rfl
  le i' hi' := absurd hi' (Nat.not_lt_zero i')

/-- The three loops before the areas are compared. -/
theorem exists_arrays {s : State} (hs : M.Holds i s) (hi : i < M.rows.length)
    (hm : M.rows.length < 2 ^ 31) (hn : M.width < 2 ^ 31) :
    ∃ left right height, Entries M.width (M.IsHeight (i + 1)) height ∧
      Entries M.width (IsLeft M.Cell (i + 1)) left ∧
      Entries M.width (IsRight M.Cell M.width (i + 1)) right ∧
      row M.rows M.width (List.range M.width) s i =
        (exec (measure left right height) s.area (List.range M.width)).map
          fun area ↦ ⟨left, right, height, area⟩ := by
  obtain ⟨height, hrun, hheight⟩ := raise_spec hi hm hs.height
  obtain ⟨⟨left, curLeft⟩, hrun', hleft⟩ := moveLeft_spec hi hn hs.left
  obtain ⟨⟨right, curRight⟩, hrun'', hright⟩ := moveRight_spec hi hn hs.right
  refine ⟨left, right, height, hheight, hleft, hright, ?_⟩
  simp only [row, hrun, hrun', hrun'', Option.bind_eq_bind, Option.bind_some]
  cases exec (measure left right height) s.area (List.range M.width) <;> rfl

/-- **One row.** -/
theorem row_spec {s : State} (hs : M.Holds i s) (hi : i < M.rows.length)
    (hm : M.rows.length < 2 ^ 31) (hn : M.width < 2 ^ 31)
    (hfits : ∀ j < M.width, M.Fits (i + 1) j) :
    ∃ s', row M.rows M.width (List.range M.width) s i = some s' ∧ M.Holds (i + 1) s' := by
  obtain ⟨left, right, height, hheight, hleft, hright, hrow⟩ := exists_arrays hs hi hm hn
  obtain ⟨area, hrun, hmem, hle, hrowle⟩ :=
    measure_spec hn (by omega) hheight hleft hright hfits hs.area
  refine ⟨⟨left, right, height, area⟩, by rw [hrow, hrun, Option.map_some], hheight, hleft, hright,
    hmem, hs.nonneg.trans hle, fun i' hi' j hj l r hl hr ↦ ?_⟩
  rcases Nat.lt_succ_iff_lt_or_eq.1 hi' with hlt | rfl
  · exact (hs.le i' hlt j hj l r hl hr).trans hle
  · exact hrowle j hj l r hl hr

theorem rows_spec (hm : M.rows.length < 2 ^ 31) (hn : M.width < 2 ^ 31) {k : ℕ}
    (hk : k ≤ M.rows.length) (hfits : ∀ i < k, ∀ j < M.width, M.Fits (i + 1) j) {s : State}
    (hs : M.Holds 0 s) :
    ∃ s', exec (row M.rows M.width (List.range M.width)) s (List.range k) = some s' ∧
      M.Holds k s' :=
  exists_exec_range (I := M.Holds)
    (fun i _ hi h ↦ row_spec h (hi.trans_le hk) hm hn (hfits i hi)) hs

/-- If the rows are done, no area has overflowed. -/
theorem fits_of_rows (hm : M.rows.length < 2 ^ 31) (hn : M.width < 2 ^ 31) {k : ℕ}
    (hk : k ≤ M.rows.length) {s s' : State} (hs : M.Holds 0 s)
    (hrun : exec (row M.rows M.width (List.range M.width)) s (List.range k) = some s') :
    ∀ i < k, ∀ j < M.width, M.Fits (i + 1) j := by
  induction k generalizing s' with
  | zero => exact fun i hi ↦ absurd hi (Nat.not_lt_zero i)
  | succ k ih =>
    rw [List.range_succ, exec_concat] at hrun
    obtain ⟨s₁, hrun, hrow⟩ := Option.bind_eq_some_iff.1 hrun
    have hfits := ih (by omega) hrun
    obtain ⟨s₂, hrun', hs₂⟩ := rows_spec hm hn (by omega) hfits hs
    obtain rfl := Option.some.inj (hrun.symm.trans hrun')
    obtain ⟨left, right, height, hheight, hleft, hright, heq⟩ := exists_arrays hs₂ hk hm hn
    rw [heq, Option.map_eq_some_iff] at hrow
    obtain ⟨area, hmeasure, -⟩ := hrow
    intro i hi j hj
    rcases Nat.lt_succ_iff_lt_or_eq.1 hi with hlt | rfl
    · exact hfits i hlt j hj
    · exact fits_of_measure hn hheight hleft hright hmeasure hj

/-! ### The function -/

/-- The largest area of a rectangle of ones is returned, `0` if there is none. -/
def FindsArea (M : Matrix) : Prop :=
  ∃ a, maximalRectangle M.rows = some a ∧
    IsGreatest (insert 0 (areas M.Cell M.rows.length M.width)) a

theorem maximalRectangle_eq (hm : M.rows.length < 2 ^ 31) (hn : M.width < 2 ^ 31) :
    maximalRectangle M.rows = (exec (row M.rows M.width (List.range M.width))
      ⟨List.replicate M.width 0, List.replicate M.width (wrap M.width).1,
        List.replicate M.width 0, 0⟩ (List.range M.rows.length)).map State.area := by
  obtain ⟨first, hfirst⟩ : ∃ first, M.rows.head? = some first :=
    ⟨_, List.head?_eq_some_head M.nonempty⟩
  have hwidth := M.rectangular first (List.mem_of_head? hfirst)
  rw [maximalRectangle, hfirst]
  simp only [Option.bind_eq_bind, Option.bind_some, hwidth, counter, if_pos hm, if_pos hn]
  cases exec (row M.rows M.width (List.range M.width)) _ (List.range M.rows.length) <;> rfl

theorem lt_of_maximalRectangle {a : ℤ} (h : maximalRectangle M.rows = some a) :
    M.rows.length < 2 ^ 31 ∧ M.width < 2 ^ 31 := by
  obtain ⟨first, hfirst, h⟩ := Option.bind_eq_some_iff.1 h
  obtain ⟨is, his, h⟩ := Option.bind_eq_some_iff.1 h
  obtain ⟨js, hjs, -⟩ := Option.bind_eq_some_iff.1 h
  have hwidth := M.rectangular first (List.mem_of_head? hfirst)
  exact ⟨lt_of_counter his, hwidth ▸ lt_of_counter hjs⟩

/-- Each area is at most the one of some cell. -/
theorem exists_le_of_mem_areas {a : ℤ} (h : a ∈ areas M.Cell M.rows.length M.width) :
    ∃ i < M.rows.length, ∃ j < M.width, ∃ l r, IsLeft M.Cell (i + 1) j l ∧
      IsRight M.Cell M.width (i + 1) j r ∧ a ≤ ((i + 1 : ℕ) - top M.Cell (i + 1) j) * (r - l) := by
  obtain ⟨t, b, l, r, ht, htb, hb, hl, hlr, hr, hf, rfl⟩ := h
  obtain ⟨i, rfl⟩ : ∃ i : ℕ, b = (i + 1 : ℕ) := ⟨(b - 1).toNat, by omega⟩
  obtain ⟨j, hlj, hjr, hle⟩ := exists_column ht htb hl hlr hr hf
  obtain ⟨j, rfl⟩ := Int.eq_ofNat_of_zero_le (hl.trans hlj)
  obtain ⟨l', hl'⟩ := exists_isLeft M.Cell (i + 1) (Int.natCast_nonneg j)
  obtain ⟨r', hr'⟩ := exists_isRight M.Cell (i + 1) (by omega : (j : ℤ) < M.width)
  exact ⟨i, by omega, j, by omega, l', r', hl', hr', hle l' r' hl' hr'⟩

/-- **`maximalRectangle`** finds the largest area exactly if no index and no area overflows. -/
theorem maximalRectangle_iff (M : Matrix) :
    M.FindsArea ↔ M.rows.length < 2 ^ 31 ∧ M.width < 2 ^ 31 ∧
      ∀ a ∈ areas M.Cell M.rows.length M.width, a < 2 ^ 31 := by
  constructor
  · rintro ⟨a, hrun, hgreatest⟩
    obtain ⟨hm, hn⟩ := lt_of_maximalRectangle hrun
    rw [maximalRectangle_eq hm hn, Option.map_eq_some_iff] at hrun
    obtain ⟨s, hrun, -⟩ := hrun
    refine ⟨hm, hn, fun b hb ↦ ?_⟩
    obtain ⟨i, hi, j, hj, l, r, hl, hr, hle⟩ := exists_le_of_mem_areas hb
    exact hle.trans_lt (fits_of_rows hm hn le_rfl (holds_start hn) hrun i hi j hj l r hl hr)
  · rintro ⟨hm, hn, hall⟩
    have hfits (i : ℕ) (hi : i < M.rows.length) (j : ℕ) (_ : j < M.width) : M.Fits (i + 1) j := by
      intro l r hl hr
      rcases area_mem (m := M.rows.length) hl hr (by omega) with hzero | hmem
      · rw [hzero]
        decide
      · exact hall _ hmem
    obtain ⟨s, hrun, hs⟩ := rows_spec hm hn le_rfl hfits (holds_start hn)
    refine ⟨s.area, by rw [maximalRectangle_eq hm hn, hrun, Option.map_some], hs.area, ?_⟩
    rintro b (rfl | hb)
    · exact hs.nonneg
    · obtain ⟨i, hi, j, hj, l, r, hl, hr, hle⟩ := exists_le_of_mem_areas hb
      exact hle.trans (hs.le i hi j hj l r hl hr)

end Matrix

/-- A matrix of one row of `2 ^ 31` ones. -/
def longRow : Matrix where
  rows := [List.replicate (2 ^ 31) '1']
  width := 2 ^ 31
  nonempty := List.cons_ne_nil _ _
  rectangular row hrow := by rw [List.mem_singleton.1 hrow, List.length_replicate]
  binary row hrow c hc := by
    rw [List.mem_singleton.1 hrow] at hc
    exact Or.inr (List.eq_of_mem_replicate hc)

theorem not_forall_maximalRectangle : ¬ ∀ M : Matrix, M.FindsArea := by
  intro h
  obtain ⟨a, hrun, -⟩ := h longRow
  exact absurd (Matrix.lt_of_maximalRectangle hrun).2 (Nat.lt_irrefl _)

end MaximalRectangle
