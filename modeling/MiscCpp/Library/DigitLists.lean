import Mathlib.Algebra.Group.Int.Defs
import Mathlib.Algebra.Group.Nat.Defs
import Mathlib.Data.Int.Order.Basic
import Mathlib.Order.Nat
import Mathlib.Tactic.Common

/-!
# Sums of digit lists

Lists of decimal digits, the least significant one first, and their sum with a carry. The sum has
the right value (`value_addCarry`) and its digits are digits (`isDigits_addCarry`). A carry can also
be added afterwards (`addCarry_one`), which gives the same list.
-/

namespace DigitLists

/-- The digits of `es` and a carry. -/
def increase : List ℤ → ℤ → List ℤ
  | [], c => if c = 0 then [] else [c]
  | e :: es, c => (e + c) % 10 :: increase es ((e + c) / 10)

/-- The digits of the sum. -/
def addCarry : List ℤ → List ℤ → ℤ → List ℤ
  | [], es, c => increase es c
  | d :: ds, [], c => increase (d :: ds) c
  | d :: ds, e :: es, c => (d + e + c) % 10 :: addCarry ds es ((d + e + c) / 10)

/-- The number whose digits are listed, lowest first. -/
def value (ds : List ℤ) : ℤ := ds.foldr (fun d n ↦ d + 10 * n) 0

/-- Each element is one of the ten digits. -/
def IsDigits (ds : List ℤ) : Prop := ∀ d ∈ ds, 0 ≤ d ∧ d ≤ 9

variable {ds es : List ℤ} {c d e : ℤ}

@[simp] theorem value_nil : value [] = 0 := rfl

@[simp] theorem value_cons : value (d :: ds) = d + 10 * value ds := rfl

theorem addCarry_nil_right (ds : List ℤ) (c : ℤ) : addCarry ds [] c = increase ds c := by
  cases ds with
  | nil => rfl
  | cons d ds => rfl

theorem isDigits_cons_iff : IsDigits (d :: ds) ↔ (0 ≤ d ∧ d ≤ 9) ∧ IsDigits ds :=
  List.forall_mem_cons

theorem headD_bounds (hds : IsDigits ds) : 0 ≤ ds.headD 0 ∧ ds.headD 0 ≤ 9 := by
  cases ds with
  | nil => decide
  | cons d ds => exact (isDigits_cons_iff.1 hds).1

theorem IsDigits.tail (hds : IsDigits ds) : IsDigits ds.tail := fun d hd ↦
  hds d (List.mem_of_mem_tail hd)

/-- The next digit, where a list that has ended goes on with zeros. -/
theorem addCarry_eq (hne : ds ≠ [] ∨ es ≠ [] ∨ c ≠ 0) (hc : 0 ≤ c) (hc' : c ≤ 9) :
    addCarry ds es c = (c + (ds.headD 0 + es.headD 0)) % 10 ::
      addCarry ds.tail es.tail ((c + (ds.headD 0 + es.headD 0)) / 10) := by
  cases ds with
  | nil =>
    rw [List.headD_nil, List.tail_nil, addCarry, addCarry, zero_add]
    cases es with
    | nil =>
      have hne' : c ≠ 0 := (hne.resolve_left fun h ↦ h rfl).resolve_left fun h ↦ h rfl
      have hlow : (c + 0) % 10 = c := by omega
      have hcarry : (c + 0) / 10 = 0 := by omega
      rw [List.headD_nil, List.tail_nil, increase, if_neg hne', hlow, hcarry, increase, if_pos rfl]
    | cons e es => rw [List.headD_cons, List.tail_cons, increase, add_comm e c]
  | cons d ds =>
    rw [List.headD_cons, List.tail_cons]
    cases es with
    | nil =>
      rw [List.headD_nil, List.tail_nil, addCarry, addCarry_nil_right, increase, add_zero,
        add_comm d c]
    | cons e es => rw [List.headD_cons, List.tail_cons, addCarry, add_comm (d + e) c]

/-! ### The sum -/

/-- Adding a carry adds it to the number. -/
theorem value_increase (ds : List ℤ) (c : ℤ) : value (increase ds c) = value ds + c := by
  induction ds generalizing c with
  | nil =>
    rw [increase]
    split
    next h => rw [h]; rfl
    next => rw [value_cons, value_nil]; omega
  | cons d ds ih =>
    rw [increase, value_cons, value_cons, ih]
    omega

/-- **The sum** of two lists and a carry stands for the sum of the numbers. -/
theorem value_addCarry (ds es : List ℤ) (c : ℤ) :
    value (addCarry ds es c) = value ds + value es + c := by
  induction ds generalizing es c with
  | nil => rw [addCarry, value_increase, value_nil, zero_add]
  | cons d ds ih =>
    cases es with
    | nil => rw [addCarry, value_increase, value_nil, add_zero]
    | cons e es =>
      rw [addCarry, value_cons, value_cons, value_cons, ih]
      omega

theorem isDigits_increase (hds : IsDigits ds) (hc : 0 ≤ c) (hc' : c ≤ 9) :
    IsDigits (increase ds c) := by
  induction ds generalizing c with
  | nil =>
    rw [increase]
    split
    next => exact hds
    next => exact isDigits_cons_iff.2 ⟨⟨hc, hc'⟩, hds⟩
  | cons d ds ih =>
    obtain ⟨hd, hds⟩ := isDigits_cons_iff.1 hds
    exact isDigits_cons_iff.2 ⟨by omega, ih hds (by omega) (by omega)⟩

/-- The digits of a sum are digits. -/
theorem isDigits_addCarry (hds : IsDigits ds) (hes : IsDigits es) (hc : 0 ≤ c) (hc' : c ≤ 9) :
    IsDigits (addCarry ds es c) := by
  induction ds generalizing es c with
  | nil => exact isDigits_increase hes hc hc'
  | cons d ds ih =>
    cases es with
    | nil => exact isDigits_increase hds hc hc'
    | cons e es =>
      obtain ⟨hd, hds⟩ := isDigits_cons_iff.1 hds
      obtain ⟨he, hes⟩ := isDigits_cons_iff.1 hes
      exact isDigits_cons_iff.2 ⟨by omega, ih hds hes (by omega) (by omega)⟩

theorem length_increase_le (ds : List ℤ) (c : ℤ) : (increase ds c).length ≤ ds.length + 1 := by
  induction ds generalizing c with
  | nil =>
    rw [increase]
    split
    next => exact Nat.zero_le 1
    next => exact le_rfl
  | cons d ds ih => exact Nat.succ_le_succ (ih _)

/-- A sum takes at most one digit more than the longer list. -/
theorem length_addCarry_le (ds es : List ℤ) (c : ℤ) :
    (addCarry ds es c).length ≤ max ds.length es.length + 1 := by
  induction ds generalizing es c with
  | nil => exact (length_increase_le es c).trans (Nat.succ_le_succ (le_max_right _ _))
  | cons d ds ih =>
    cases es with
    | nil => exact (length_increase_le (d :: ds) c).trans (Nat.succ_le_succ (le_max_left _ _))
    | cons e es =>
      have hle := ih es ((d + e + c) / 10)
      rw [addCarry, List.length_cons, List.length_cons, List.length_cons]
      omega

/-! ### A carry afterwards -/

theorem increase_zero (hds : IsDigits ds) : increase ds 0 = ds := by
  induction ds with
  | nil => rfl
  | cons d ds ih =>
    obtain ⟨hd, hds⟩ := isDigits_cons_iff.1 hds
    have hlow : (d + 0) % 10 = d := by omega
    have hcarry : (d + 0) / 10 = 0 := by omega
    rw [increase, hlow, hcarry, ih hds]

/-- Adding the list of the one digit 1 is adding a carry. -/
theorem addCarry_singleton (ds : List ℤ) : addCarry ds [1] 0 = increase ds 1 := by
  cases ds with
  | nil => rfl
  | cons d ds => rw [addCarry, addCarry_nil_right, add_zero, increase]

/-- **A carry** can be added afterwards. -/
theorem addCarry_one (hds : IsDigits ds) (hes : IsDigits es) :
    addCarry ds es 1 = addCarry (addCarry ds es 0) [1] 0 := by
  rw [addCarry_singleton]
  have hincrease (ds : List ℤ) (hds : IsDigits ds) :
      increase ds 1 = increase (increase ds 0) 1 := by rw [increase_zero hds]
  induction ds generalizing es with
  | nil => exact hincrease es hes
  | cons d ds ih =>
    cases es with
    | nil => exact hincrease (d :: ds) hds
    | cons e es =>
      obtain ⟨hd, hds⟩ := isDigits_cons_iff.1 hds
      obtain ⟨he, hes⟩ := isDigits_cons_iff.1 hes
      have hlow : (d + e + 1) % 10 = ((d + e + 0) % 10 + 1) % 10 := by omega
      rw [addCarry, addCarry, increase, hlow]
      congr 1
      -- a carry from this digit, from adding 1 to it, or none
      rcases lt_trichotomy (d + e) 9 with hlt | heq | hgt
      · have h1 : (d + e + 1) / 10 = 0 := by omega
        have h2 : (d + e + 0) / 10 = 0 := by omega
        have h3 : ((d + e + 0) % 10 + 1) / 10 = 0 := by omega
        rw [h1, h2, h3, increase_zero (isDigits_addCarry hds hes le_rfl (by decide))]
      · have h1 : (d + e + 1) / 10 = 1 := by omega
        have h2 : (d + e + 0) / 10 = 0 := by omega
        have h3 : ((d + e + 0) % 10 + 1) / 10 = 1 := by omega
        rw [h1, h2, h3, ih hds hes]
      · have h1 : (d + e + 1) / 10 = 1 := by omega
        have h2 : (d + e + 0) / 10 = 1 := by omega
        have h3 : ((d + e + 0) % 10 + 1) / 10 = 0 := by omega
        rw [h1, h2, h3, increase_zero (isDigits_addCarry hds hes (by decide) (by decide))]

end DigitLists
