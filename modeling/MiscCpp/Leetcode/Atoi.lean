import MiscCpp.Leetcode.FractionRecurringDecimal
import MiscCpp.Library.NumberPrefix

/-!
# Reading a number

`myAtoi` of `leetcode/other/atoi.cc`, with the overflow of its accumulator.

The loop reads the longest literal at the front of the string (`scan_eq`). The number is only
clamped at the end, so all the digits have to fit a `long long` (`returnsClamped_iff`).
-/

open CInt NumberPrefix

open FractionRecurringDecimal (fit64 fit64_eq)

namespace Atoi

/-- The loop: `isNegative` and `res` at its end. -/
def scan : List Char → Bool → Bool → ℤ → Option (Bool × ℤ)
  | [], isNegative, _, res => some (isNegative, res)
  | c :: s, isNegative, isBeginning, res =>
    let i := c.toNat
    if '0'.toNat ≤ i ∧ i ≤ '9'.toNat then do
      let res ← fit64 (res * 10)
      let res ← fit64 (res + (i - '0'.toNat))
      scan s isNegative false res
    else if i = '+'.toNat ∧ isBeginning then scan s isNegative false res
    else if i = '-'.toNat ∧ isBeginning then scan s true false res
    else if i = ' '.toNat ∧ isBeginning then scan s isNegative isBeginning res
    else some (isNegative, res)

def myAtoi (s : List Char) : Option ℤ := do
  let (isNegative, res) ← scan s false true 0
  let res ← (if isNegative then fit64 (-res) else some res)
  if res ≤ INT_MAX.1 ∧ INT_MIN.1 ≤ res then some res
  else some (if isNegative then INT_MIN.1 else INT_MAX.1)

example : myAtoi "   -91283472332 axx - ".toList = some INT_MIN.1 := by decide

example : myAtoi " +042 7".toList = some 42 := by decide

/-! ### The loop -/

variable {s : List Char} {x y : Literal} {c : Char} {isNegative isBeginning : Bool} {n : ℕ}

theorem isDigit_iff : c.isDigit ↔ '0'.toNat ≤ c.toNat ∧ c.toNat ≤ '9'.toNat := by
  rw [Char.isDigit, Bool.and_eq_true, decide_eq_true_iff, decide_eq_true_iff]
  rfl

theorem fit64_eq_none {n : ℤ} (h : ¬ (-2 ^ 63 ≤ n ∧ n < 2 ^ 63)) : fit64 n = none := if_neg h

theorem toNat_eq_iff {d : Char} : c.toNat = d.toNat ↔ c = d := Char.toNat_inj

/-- One digit, with both operations that may overflow. -/
theorem scan_cons_digit (hc : c.isDigit) :
    scan (c :: s) isNegative isBeginning n =
      if 10 * n + (c.toNat - '0'.toNat) < 2 ^ 63 then
        scan s isNegative false (10 * n + (c.toNat - '0'.toNat) : ℕ)
      else none := by
  have hrange := isDigit_iff.1 hc
  have hdigit : ((c.toNat - '0'.toNat : ℕ) : ℤ) = c.toNat - '0'.toNat := Int.ofNat_sub hrange.1
  rw [scan, if_pos hrange]
  by_cases hlt : 10 * n + (c.toNat - '0'.toNat) < 2 ^ 63
  · rw [if_pos hlt, fit64_eq (by omega), Option.bind_eq_bind, Option.bind_some,
      fit64_eq (by omega), Option.bind_some, Int.natCast_add, hdigit, Int.natCast_mul, mul_comm]
    rfl
  · rw [if_neg hlt]
    by_cases hten : (n : ℤ) * 10 < 2 ^ 63
    · rw [fit64_eq (by omega), Option.bind_eq_bind, Option.bind_some, fit64_eq_none (by omega)]
      rfl
    · rw [fit64_eq_none (by omega)]
      rfl

/-- **The loop** reads the longest literal, if its digits fit. -/
theorem scan_eq (hy : Literal.IsLongest (x.text ++ s) y) (hx : x.abs < 2 ^ 63) :
    scan s (x.sign = some true) x.IsBlank x.abs =
      if y.abs < 2 ^ 63 then some (decide (y.sign = some true), (y.abs : ℤ)) else none := by
  induction s generalizing x with
  | nil =>
    obtain rfl := hy.unique (Literal.isLongest_of_stuck rfl fun c hc ↦ by cases hc)
    rw [scan, if_pos hx]
  | cons c s ih =>
    have hread {z : Literal} (hz : z.text = x.text ++ [c]) :
        Literal.IsLongest (z.text ++ s) y := by
      rwa [hz, List.append_assoc]
    by_cases hc : c.isDigit
    · rw [scan_cons_digit hc, ← Literal.abs_digit hc]
      have hlongest := hread (Literal.text_digit hc)
      by_cases hlt : (x.digit c hc).abs < 2 ^ 63
      · have hblank : decide (x.digit c hc).IsBlank = false := by
          rw [decide_eq_false_iff_not]
          exact fun h ↦ List.append_ne_nil_of_right_ne_nil _ (List.cons_ne_nil _ _) h.2
        rw [if_pos hlt, ← ih hlongest hlt, hblank]
        rfl
      · have hle := hlongest.abs_le (List.prefix_append _ s)
        rw [if_neg hlt, if_neg (by omega)]
    · rw [scan, if_neg (mt isDigit_iff.2 hc)]
      simp only [toNat_eq_iff, decide_eq_true_iff]
      by_cases hplus : c = '+' ∧ x.IsBlank
      · obtain ⟨rfl, hblank⟩ := hplus
        have hsign : decide (x.sign = some true) = false := by rw [hblank.1]; rfl
        rw [if_pos ⟨rfl, hblank⟩, hsign, ← ih (hread (Literal.text_signed hblank false)) hx]
        rfl
      rw [if_neg hplus]
      by_cases hminus : c = '-' ∧ x.IsBlank
      · obtain ⟨rfl, hblank⟩ := hminus
        rw [if_pos ⟨rfl, hblank⟩, ← ih (hread (Literal.text_signed hblank true)) hx]
        rfl
      rw [if_neg hminus]
      by_cases hspace : c = ' ' ∧ x.IsBlank
      · obtain ⟨rfl, hblank⟩ := hspace
        rw [if_pos ⟨rfl, hblank⟩, ← ih (hread (Literal.text_space hblank)) hx]
        rfl
      rw [if_neg hspace]
      -- The character does not continue the literal.
      obtain rfl := hy.unique <| Literal.isLongest_of_stuck rfl fun d hd ↦ by
        obtain rfl := Option.some.inj hd
        rw [Literal.exists_text_concat_iff]
        rintro (hdigit | ⟨hblank, heq | heq | heq⟩)
        · exact hc hdigit
        · exact hplus ⟨heq, hblank⟩
        · exact hminus ⟨heq, hblank⟩
        · exact hspace ⟨heq, hblank⟩
      rw [if_pos hx]

/-! ### The function -/

/-- The nearest value of an `int32_t`. -/
def clamp (n : ℤ) : ℤ := max INT_MIN.1 (min INT_MAX.1 n)

/-- What is returned for a number with the given sign. -/
theorem ite_range_eq_clamp {isNegative : Bool} {n : ℤ}
    (h : (isNegative = true → n ≤ 0) ∧ (isNegative = false → 0 ≤ n)) :
    (if n ≤ INT_MAX.1 ∧ INT_MIN.1 ≤ n then some n
      else some (if isNegative then INT_MIN.1 else INT_MAX.1)) = some (clamp n) := by
  have hmin : INT_MIN.1 = -2 ^ 31 := rfl
  have hmax : INT_MAX.1 = 2 ^ 31 - 1 := rfl
  rw [clamp, hmin, hmax]
  by_cases hmem : n ≤ 2 ^ 31 - 1 ∧ -2 ^ 31 ≤ n
  · rw [if_pos hmem, Option.some_inj]
    omega
  · rw [if_neg hmem, Option.some_inj]
    cases isNegative with
    | false =>
      have hn := h.2 rfl
      rw [if_neg Bool.false_ne_true]
      omega
    | true =>
      have hn := h.1 rfl
      rw [if_pos rfl]
      omega

theorem myAtoi_eq (hy : Literal.IsLongest s y) :
    myAtoi s = if y.abs < 2 ^ 63 then some (clamp y.value) else none := by
  have hscan : scan s false true 0 = _ := scan_eq (x := .empty) hy (by decide)
  rw [myAtoi, hscan]
  by_cases hlt : y.abs < 2 ^ 63
  · rw [if_pos hlt, if_pos hlt, Option.bind_eq_bind, Option.bind_some]
    dsimp only
    by_cases hneg : y.sign = some true
    · have hvalue : y.value = -(y.abs : ℤ) := if_pos hneg
      rw [decide_eq_true hneg, if_pos rfl, fit64_eq (by omega), Option.bind_eq_bind,
        Option.bind_some, ite_range_eq_clamp ⟨fun _ ↦ by omega, fun h ↦ by cases h⟩, hvalue]
    · have hvalue : y.value = y.abs := if_neg hneg
      rw [decide_eq_false hneg, if_neg Bool.false_ne_true, Option.bind_eq_bind, Option.bind_some,
        ite_range_eq_clamp ⟨fun h ↦ (by cases h), fun _ ↦ by omega⟩, hvalue]
  · rw [if_neg hlt, if_neg hlt]
    rfl

/-- The number of the longest literal at the front of the string is returned, clamped. -/
def ReturnsClamped (s : List Char) : Prop :=
  ∃ x : Literal, Literal.IsLongest s x ∧ myAtoi s = some (clamp x.value)

/-- **`myAtoi`** returns the number exactly if its absolute value is a value of a `long long`. -/
theorem returnsClamped_iff (s : List Char) :
    ReturnsClamped s ↔ ∃ x : Literal, Literal.IsLongest s x ∧ |x.value| < 2 ^ 63 := by
  obtain ⟨y, hy⟩ := Literal.exists_isLongest .empty s
  have habs : |y.value| < 2 ^ 63 ↔ y.abs < 2 ^ 63 := by
    rw [Literal.value]
    split
    · rw [abs_neg, Nat.abs_cast]
      omega
    · rw [Nat.abs_cast]
      omega
  constructor
  · rintro ⟨x, hx, heq⟩
    obtain rfl := hx.unique hy
    refine ⟨x, hx, habs.2 ?_⟩
    rw [myAtoi_eq hx] at heq
    by_contra hlt
    rw [if_neg hlt] at heq
    cases heq
  · rintro ⟨x, hx, hlt⟩
    obtain rfl := hx.unique hy
    exact ⟨x, hx, (myAtoi_eq hx).trans (if_pos (habs.1 hlt))⟩

/-- The number `2 ^ 64 + 1`. -/
theorem not_forall_returnsClamped : ¬ ∀ s, ReturnsClamped s := by
  intro h
  obtain ⟨x, -, hx⟩ := h "18446744073709551617".toList
  have hnone : myAtoi "18446744073709551617".toList = none := by decide
  cases hnone.symm.trans hx

end Atoi
