import Mathlib.Algebra.Group.Int.Defs
import Mathlib.Algebra.Group.Nat.Defs
import Mathlib.Data.Int.Order.Basic
import Mathlib.Data.List.TakeWhile
import Mathlib.Order.Nat
import Mathlib.Tactic.Common

/-!
# The integers of 32 bits

The values of an `int`, the four bytes of one in memory and its decimal text.

Reading back what has been written gives the value again, from the bytes (`ofBytes_toBytes`) as
from the text (`stoi_toChars`).
-/

/-- The values of an `int`. -/
abbrev CInt := {x : ℤ // -2 ^ 31 ≤ x ∧ x < 2 ^ 31}

namespace CInt

instance : LinearOrder CInt := @Subtype.instLinearOrder ℤ Int.instLinearOrder _

theorem one_bounds : -2 ^ 31 ≤ (1 : ℤ) ∧ (1 : ℤ) < 2 ^ 31 := by decide

instance : One CInt := ⟨⟨1, one_bounds⟩⟩

instance (x y : CInt) : Decidable (x < y) := Int.decLt x.1 y.1

instance (x y : CInt) : Decidable (x ≤ y) := Int.decLe x.1 y.1

/-- The least `int`. -/
def INT_MIN : CInt := ⟨-2 ^ 31, by decide⟩

/-- The greatest `int`. -/
def INT_MAX : CInt := ⟨2 ^ 31 - 1, by decide⟩

theorem le_INT_MAX (x : CInt) : x ≤ INT_MAX := Int.le_sub_one_of_lt x.2.2

theorem lt_INT_MAX_iff {x : CInt} : x < INT_MAX ↔ x.1 < 2 ^ 31 - 1 := Iff.rfl

theorem coe_max (x y : CInt) : (max x y).1 = max x.1 y.1 := by
  rw [max_def, max_def, apply_ite Subtype.val]
  rfl

theorem coe_min (x y : CInt) : (min x y).1 = min x.1 y.1 := by
  rw [min_def, min_def, apply_ite Subtype.val]
  rfl

/-! ### Arithmetic -/

/-- `++x`, undefined on overflow. -/
def incr (x : CInt) : Option CInt :=
  if h : x.1 + 1 < 2 ^ 31 then some ⟨x.1 + 1, by have := x.2; omega⟩ else none

/-- `--x`, undefined on overflow. -/
def decr (x : CInt) : Option CInt :=
  if h : -2 ^ 31 ≤ x.1 - 1 then some ⟨x.1 - 1, by have := x.2; omega⟩ else none

/-- The value `n`, undefined if it is none of an `int`. -/
def checked (n : ℤ) : Option CInt :=
  if h : -2 ^ 31 ≤ n ∧ n < 2 ^ 31 then some ⟨n, h⟩ else none

theorem checked_coe (x : CInt) : checked x.1 = some x := dif_pos x.2

/-- An integer in the range passes the check. -/
theorem exists_checked {n : ℤ} (h : -2 ^ 31 ≤ n ∧ n < 2 ^ 31) :
    ∃ x, checked n = some x ∧ x.1 = n := ⟨⟨n, h⟩, dif_pos h, rfl⟩

/-- A count below `2 ^ 31` passes the check. -/
theorem exists_checked_natCast {n : ℕ} (h : n < 2 ^ 31) :
    ∃ x, checked n = some x ∧ x.1 = n := exists_checked (by omega)

/-- What passes the check is the value itself. -/
theorem checked_eq_some {n : ℤ} {x : CInt} (h : checked n = some x) : x.1 = n := by
  rw [checked] at h
  split at h
  · exact congrArg Subtype.val (Option.some.inj h).symm
  · cases h

/-- The result `n` of an expression of type `int`, undefined on overflow. -/
def fit (n : ℤ) : Option ℤ := if -2 ^ 31 ≤ n ∧ n < 2 ^ 31 then some n else none

theorem fit_eq {n : ℤ} (h : -2 ^ 31 ≤ n ∧ n < 2 ^ 31) : fit n = some n := if_pos h

theorem fit_eq_none {n : ℤ} (h : ¬ (-2 ^ 31 ≤ n ∧ n < 2 ^ 31)) : fit n = none := if_neg h

theorem fit_eq_some {n m : ℤ} (h : fit n = some m) : m = n ∧ -2 ^ 31 ≤ n ∧ n < 2 ^ 31 := by
  rw [fit] at h
  split at h
  next hn => exact ⟨(Option.some.inj h).symm, hn⟩
  next => cases h

theorem fit_eq_some_iff {n m : ℤ} : fit n = some m ↔ m = n ∧ -2 ^ 31 ≤ n ∧ n < 2 ^ 31 :=
  ⟨fit_eq_some, fun h ↦ h.1.symm ▸ fit_eq h.2⟩

/-- The increment is the checked successor. -/
theorem incr_eq (x : CInt) : x.incr = checked (x.1 + 1) := by
  have hx := x.2
  rw [incr, checked]
  by_cases h : x.1 + 1 < 2 ^ 31
  · rw [dif_pos h, dif_pos ⟨by omega, h⟩]
  · rw [dif_neg h, dif_neg fun h' ↦ h h'.2]

/-- Numbers that are not negative can be added one after the other. -/
theorem checked_bind (x : CInt) {k j : ℤ} (hk : 0 ≤ k) (hj : 0 ≤ j) :
    ((checked (x.1 + k)).bind fun y ↦ checked (y.1 + j)) = checked (x.1 + k + j) := by
  have hx := x.2
  by_cases h : x.1 + k < 2 ^ 31
  · rw [checked, dif_pos ⟨by omega, h⟩, Option.bind_some]
  · rw [checked, dif_neg fun h' ↦ h h'.2, checked, dif_neg fun h' ↦ h (by omega)]
    rfl

theorem bmod_bounds (n : ℤ) : -2 ^ 31 ≤ Int.bmod n (2 ^ 32) ∧ Int.bmod n (2 ^ 32) < 2 ^ 31 := by
  have hle := Int.le_bmod (x := n) (m := 2 ^ 32) (by decide)
  have hlt := Int.bmod_lt (x := n) (m := 2 ^ 32) (by decide)
  omega

/-- The value with the 32 lowest bits of `n`. -/
def wrap (n : ℤ) : CInt := ⟨Int.bmod n (2 ^ 32), bmod_bounds n⟩

/-- Conversion keeps the value of an `int`. -/
theorem wrap_coe (x : CInt) : wrap x.1 = x := by
  have hx := x.2
  exact Subtype.ext (Int.bmod_eq_of_le (by omega) (by omega))

theorem bmod_mod (n : ℤ) : Int.bmod n (2 ^ 32) % 2 ^ 32 = n % 2 ^ 32 := by
  have hmod := Int.bmod_emod (x := n) (m := 2 ^ 32)
  rw [Int.natCast_pow] at hmod
  exact hmod

/-- A conversion keeps the value modulo `2 ^ 32`. -/
theorem wrap_mod (n : ℤ) : (wrap n).1 % 2 ^ 32 = n % 2 ^ 32 := bmod_mod n

/-- Of a number that is not negative nothing is added. -/
theorem wrap_le {n : ℤ} (hn : 0 ≤ n) : (wrap n).1 ≤ n := by
  have hmod := wrap_mod n
  have hlt := (wrap n).2.2
  omega

/-- Adding before or after the conversion makes no difference. -/
theorem wrap_wrap_add (n k : ℤ) : wrap ((wrap n).1 + k) = wrap (n + k) :=
  Subtype.ext Int.bmod_add_bmod

/-- Conversion keeps a value in the range. -/
theorem wrap_of_lt {n : ℤ} (hn : 0 ≤ n) (hlt : n < 2 ^ 31) : (wrap n).1 = n :=
  congrArg Subtype.val (wrap_coe ⟨n, by omega, hlt⟩)

/-! ### Bytes -/

/-- The bytes in memory, the least significant one first. -/
def toBytes (x : CInt) : List UInt8 :=
  let n := (x.1 % 2 ^ 32).toNat
  [UInt8.ofNat n, UInt8.ofNat (n / 2 ^ 8), UInt8.ofNat (n / 2 ^ 16), UInt8.ofNat (n / 2 ^ 24)]

/-- The `int` that four bytes stand for, lowest byte first. -/
def ofBytes (bytes : List UInt8) : CInt :=
  wrap (bytes.foldr (fun byte n ↦ byte.toNat + 2 ^ 8 * n) 0 : ℕ)

theorem length_toBytes (x : CInt) : x.toBytes.length = 4 := by
  simp only [toBytes, List.length_cons, List.length_nil]

theorem wrap_emod (x : CInt) : wrap (x.1 % 2 ^ 32) = x := by
  have hmod := Int.emod_bmod x.1 (2 ^ 32)
  rw [Int.natCast_pow] at hmod
  exact Subtype.ext (hmod.trans (congrArg Subtype.val (wrap_coe x)))

/-- Reading the bytes of an `int` back gives the `int`. -/
theorem ofBytes_toBytes (x : CInt) : ofBytes x.toBytes = x := by
  have hpos : 0 ≤ x.1 % 2 ^ 32 := by omega
  have hn : (x.1 % 2 ^ 32).toNat < 2 ^ 32 := by omega
  conv_rhs => rw [← wrap_emod x, ← Int.toNat_of_nonneg hpos]
  simp only [ofBytes, toBytes, List.foldr_cons, List.foldr_nil, UInt8.toNat_ofNat']
  congr 2
  omega

/-! ### Text -/

/-- `std::isspace` -/
def isSpace (c : Char) : Bool := c.toNat = 32 ∨ 9 ≤ c.toNat ∧ c.toNat ≤ 13

/-- The text that `<<` writes. -/
def toChars (x : CInt) : List Char :=
  if x.1 < 0 then '-' :: Nat.toDigits 10 x.1.natAbs else Nat.toDigits 10 x.1.natAbs

/-- The sign of a number, and the text behind it. -/
def splitSign : List Char → Bool × List Char
  | '-' :: str => (true, str)
  | '+' :: str => (false, str)
  | str => (false, str)

/-- `std::stoi`: none for the exceptions `invalid_argument` and `out_of_range`. -/
def stoi (str : List Char) : Option CInt :=
  let (negative, str) := splitSign (str.dropWhile isSpace)
  let digits := str.takeWhile Char.isDigit
  if digits = [] then none
  else
    let n : ℤ := Nat.ofDigitChars 10 digits 0
    let x := if negative then -n else n
    if h : -2 ^ 31 ≤ x ∧ x < 2 ^ 31 then some ⟨x, h⟩ else none

theorem isSpace_of_isDigit {c : Char} (h : c.isDigit) : isSpace c = false := by
  rw [Char.isDigit, Bool.and_eq_true, decide_eq_true_iff, decide_eq_true_iff] at h
  rw [isSpace, decide_eq_false_iff_not]
  have hle : 48 ≤ c.toNat := h.1
  omega

theorem toChars_ne_nil (x : CInt) : x.toChars ≠ [] := by
  rw [toChars]
  split
  · exact List.cons_ne_nil _ _
  · exact Nat.toDigits_ne_nil

theorem isSpace_of_mem_toChars {x : CInt} {c : Char} (hc : c ∈ x.toChars) :
    isSpace c = false := by
  have hdigit : ∀ c ∈ Nat.toDigits 10 x.1.natAbs, isSpace c = false := fun c hc ↦
    isSpace_of_isDigit (Nat.isDigit_of_mem_toDigits (by decide) (by decide) hc)
  rw [toChars] at hc
  split at hc
  · rcases List.mem_cons.1 hc with rfl | hc
    · rfl
    · exact hdigit c hc
  · exact hdigit c hc

/-- A text of digits has no sign to take off. -/
theorem splitSign_of_isDigit {str : List Char} (h : ∀ c ∈ str, c.isDigit) :
    splitSign str = (false, str) := by
  cases str with
  | nil => rfl
  | cons c str =>
    have hc := h c List.mem_cons_self
    unfold splitSign
    split
    next heq => rw [(List.cons.inj heq).1] at hc; cases hc
    next heq => rw [(List.cons.inj heq).1] at hc; cases hc
    next => rfl

/-- **`stoi` reads back** what `<<` has written. -/
theorem stoi_toChars (x : CInt) : stoi x.toChars = some x := by
  have hdrop : x.toChars.dropWhile isSpace = x.toChars :=
    List.dropWhile_eq_self_iff.2 fun hpos ↦ by
      rw [isSpace_of_mem_toChars (List.getElem_mem _)]
      exact Bool.false_ne_true
  have hdigits : ∀ c ∈ Nat.toDigits 10 x.1.natAbs, c.isDigit := fun c hc ↦
    Nat.isDigit_of_mem_toDigits (by decide) (by decide) hc
  have htake : (Nat.toDigits 10 x.1.natAbs).takeWhile Char.isDigit =
      Nat.toDigits 10 x.1.natAbs := List.takeWhile_eq_self_iff.2 hdigits
  have hsign : splitSign x.toChars = (decide (x.1 < 0), Nat.toDigits 10 x.1.natAbs) := by
    rw [toChars]
    split
    next hneg => rw [decide_eq_true hneg]; rfl
    next hneg => rw [decide_eq_false hneg, splitSign_of_isDigit hdigits]
  have hvalue : (if x.1 < 0 then -(x.1.natAbs : ℤ) else x.1.natAbs) = x.1 := by
    split <;> omega
  rw [stoi, hdrop, hsign]
  simp only [htake, if_neg Nat.toDigits_ne_nil, Nat.ofDigitChars_ten_toDigits,
    decide_eq_true_iff, hvalue]
  exact dif_pos x.2

end CInt
