import MiscCpp.Library.CInt
import MiscCpp.Library.DecimalNumeral

/-!
# Decimals with a repeating part

`fractionToDecimal` of `leetcode/other/FractionRecurringDecimal.cc`: long division, where a map from
the remainders to the positions of their digits shows when a remainder occurs again.

The keys of the map are values of an `int`, so remainders of 64 bits are cut, and two of them may be
taken for the same one; a remainder times ten may overflow, and so do the absolute values of the
least `int64_t`. Otherwise the text returned is the one of `n / d` (`returnsExpansion_iff`).
-/

open CInt LongDivision Numeral

/-- The values of an `int64_t`. -/
abbrev CInt64 := {x : ℤ // -2 ^ 63 ≤ x ∧ x < 2 ^ 63}

namespace FractionRecurringDecimal

/-! ### The program -/

/-- The result `n` of an expression of type `int64_t`, undefined on overflow. -/
def fit64 (n : ℤ) : Option ℤ := if -2 ^ 63 ≤ n ∧ n < 2 ^ 63 then some n else none

/-- `std::to_string` -/
def to_string (n : ℤ) : List Char :=
  if n < 0 then '-' :: Nat.toDigits 10 n.natAbs else Nat.toDigits 10 n.natAbs

/-- `res.insert(pos, 1, c)`: none for the exception `out_of_range`. -/
def insert (res : List Char) (pos : CInt) (c : Char) : Option (List Char) :=
  let pos := (pos.1 % 2 ^ 64).toNat
  if pos ≤ res.length then some (res.take pos ++ c :: res.drop pos) else none

/-- The loop over the remainders. -/
def divLoop (d : ℤ) : ℕ → ℤ → (CInt → Option CInt) → List Char → Option (List Char)
  | 0, _, _, _ => none
  | fuel + 1, r, map, res =>
    if r = 0 then some res
    else
      match map (wrap r) with
      | some pos => do
        let res ← insert res pos '('
        some (res ++ [')'])
      | none => do
        let map := Function.update map (wrap r) (some (wrap res.length))
        let r ← fit64 (r * 10)
        divLoop d fuel (r.tmod d) map (res ++ to_string (r.tdiv d))

/-- `fractionToDecimal(numerator, denominator)`, undefined where 64 bits overflow. -/
def fractionToDecimal (fuel : ℕ) (n d : CInt64) : Option (List Char) :=
  if n.1 = 0 then some ['0']
  else do
    let res := if n.1 < 0 ↔ d.1 < 0 then [] else ['-']
    let n ← fit64 |n.1|
    let d ← fit64 |d.1|
    -- The division by zero is undefined.
    if d = 0 then none
    else
      let res := res ++ to_string (n.tdiv d)
      if n.tmod d = 0 then some res
      else divLoop d fuel (n.tmod d) (fun _ ↦ none) (res ++ ['.'])

example : fractionToDecimal 2 ⟨4, by decide⟩ ⟨10, by decide⟩ = some "0.4".toList := by decide

example : fractionToDecimal 7 ⟨10, by decide⟩ ⟨7, by decide⟩ = some "1.(428571)".toList := by
  decide

example : fractionToDecimal 2 ⟨-1, by decide⟩ ⟨3, by decide⟩ = some "-0.(3)".toList := by decide

/-- The remainders 1073741825 and 5368709121 are taken for the same one. -/
example : fractionToDecimal 2 ⟨1073741825, by decide⟩ ⟨5368709129, by decide⟩ =
    some "0.(1)".toList := by decide

/-- The text is one of a single numeral. It denotes `n / d`, and digits are repeated exactly if no
power of ten makes it an integer. -/
def IsExpansion (n d : ℤ) (res : List Char) : Prop :=
  ∃ x : Numeral, (∀ y : Numeral, y.text = res ↔ y = x) ∧ x.value = n / d ∧
    (x.cycle ≠ [] ↔ ∀ k : ℕ, ¬ d ∣ n * 10 ^ k)

/-- The function returns the expansion. -/
def ReturnsExpansion (n d : CInt64) : Prop :=
  ∃ res, (∃ steps, ∀ fuel ≥ steps, fractionToDecimal fuel n d = some res) ∧ IsExpansion n d res

/-! ### The loop -/

variable {n d i j k fuel : ℕ} {start : List Char} {map : CInt → Option CInt}

theorem fit64_eq {x : ℤ} (h : -2 ^ 63 ≤ x ∧ x < 2 ^ 63) : fit64 x = some x := if_pos h

/-- What has been written before the remainder with index `k`. -/
def written (n d : ℕ) (start : List Char) (k : ℕ) : List Char :=
  start ++ (List.range k).map fun i ↦ Nat.digitChar (remainder 10 n d i * 10 / d)

/-- The keys are those of the first `k` remainders. -/
structure Stored (n d : ℕ) (start : List Char) (k : ℕ) (map : CInt → Option CInt) : Prop where
  position : ∀ j < k, map (wrap (remainder 10 n d j)) = some (wrap (start.length + j))
  key : ∀ x pos, map x = some pos → ∃ j < k, wrap (remainder 10 n d j) = x

/-- The loop goes on: the remainder is not zero, has a new key and can be multiplied. -/
structure GoesOn (n d k : ℕ) : Prop where
  ne_zero : remainder 10 n d k ≠ 0
  key_ne : ∀ j < k, wrap (remainder 10 n d j) ≠ wrap (remainder 10 n d k)
  mul_lt : remainder 10 n d k * 10 < 2 ^ 63

/-- Before the loop no remainder is stored. -/
theorem stored_zero : Stored n d start 0 fun _ ↦ none where
  position j hj := absurd hj (Nat.not_lt_zero j)
  key x pos hx := by cases hx

/-- Each turn writes one character. -/
theorem length_written : (written n d start k).length = start.length + k := by
  rw [written, List.length_append, List.length_map, List.length_range]

/-- What is written are the digits of the division. -/
theorem written_eq (hd : 0 < d) :
    written n d start k = start ++ digitChars (digits 10 n d k) := by
  rw [written, digitChars, digits, List.map_map]
  refine congrArg _ (List.map_congr_left fun i _ ↦ ?_)
  rw [Function.comp_apply, val_digit hd]

/-- A remainder is stored with the position of its digit. -/
theorem Stored.update (h : Stored n d start k map)
    (hkey : ∀ j < k, wrap (remainder 10 n d j) ≠ wrap (remainder 10 n d k)) :
    Stored n d start (k + 1) (Function.update map (wrap (remainder 10 n d k))
      (some (wrap (written n d start k).length))) where
  position j hj := by
    rcases Nat.lt_succ_iff_lt_or_eq.1 hj with hlt | rfl
    · rw [Function.update_of_ne (hkey j hlt), h.position j hlt]
    · rw [Function.update_self, length_written, Int.natCast_add]
  key x pos hx := by
    by_cases heq : x = wrap (remainder 10 n d k)
    · exact ⟨k, Nat.lt_succ_self k, heq.symm⟩
    · rw [Function.update_of_ne heq] at hx
      obtain ⟨j, hj, hjx⟩ := h.key x pos hx
      exact ⟨j, hj.trans (Nat.lt_succ_self k), hjx⟩

theorem to_string_natCast (x : ℕ) : to_string x = Nat.toDigits 10 x := by
  rw [to_string, if_neg (by omega), Int.natAbs_natCast]

/-- The character of a turn is the digit of the division. -/
theorem to_string_digit (hd : 0 < d) :
    to_string ((remainder 10 n d k * 10 : ℤ).tdiv d) =
      [Nat.digitChar (remainder 10 n d k * 10 / d)] := by
  have hdiv : (remainder 10 n d k * 10 : ℤ).tdiv d = (remainder 10 n d k * 10 / d : ℕ) :=
    Int.tdiv_eq_ediv_of_nonneg (by omega)
  have hlt := (digit 10 n d k).isLt
  rw [val_digit hd] at hlt
  rw [hdiv, to_string_natCast, Nat.toDigits_of_lt_base hlt]

/-- The remainder of a turn is the next one of the division. -/
theorem tmod_remainder :
    (remainder 10 n d k * 10 : ℤ).tmod d = remainder 10 n d (k + 1) := by
  rw [remainder_succ]
  exact Int.tmod_eq_emod_of_nonneg (by omega)

/-- As long as the loop goes on, its remainder is a new key. -/
theorem Stored.none_of_goesOn (h : Stored n d start k map) (hgo : GoesOn n d k) :
    map (wrap (remainder 10 n d k)) = none := by
  cases hmap : map (wrap (remainder 10 n d k)) with
  | none => rfl
  | some pos =>
    obtain ⟨j, hj, heq⟩ := h.key _ _ hmap
    exact absurd heq (hgo.key_ne j hj)

/-- One more digit. -/
theorem divLoop_goesOn (hd : 0 < d) (h : Stored n d start k map) (hgo : GoesOn n d k) :
    divLoop d (fuel + 1) (remainder 10 n d k) map (written n d start k) =
      divLoop d fuel (remainder 10 n d (k + 1))
        (Function.update map (wrap (remainder 10 n d k))
          (some (wrap (written n d start k).length))) (written n d start (k + 1)) := by
  have hmul := hgo.mul_lt
  have hwritten : written n d start (k + 1) =
      written n d start k ++ [Nat.digitChar (remainder 10 n d k * 10 / d)] := by
    rw [written, written, List.range_succ, List.map_append, List.append_assoc]
    rfl
  rw [divLoop, if_neg (Int.natCast_ne_zero.2 hgo.ne_zero), h.none_of_goesOn hgo]
  simp only [fit64_eq (x := (remainder 10 n d k * 10 : ℤ)) (by omega), Option.bind_eq_bind,
    Option.bind_some, to_string_digit hd, tmod_remainder, hwritten]

/-- **The loop** after a number of turns. -/
theorem divLoop_run (start : List Char) (hd : 0 < d) (hgo : ∀ i < k, GoesOn n d i) :
    ∃ map, Stored n d start k map ∧ ∀ fuel,
      divLoop d (fuel + k) (remainder 10 n d 0) (fun _ ↦ none) start =
        divLoop d fuel (remainder 10 n d k) map (written n d start k) := by
  induction k with
  | zero =>
    have hstart : written n d start 0 = start := List.append_nil start
    exact ⟨_, stored_zero, fun fuel ↦ by rw [hstart, Nat.add_zero]⟩
  | succ k ih =>
    obtain ⟨map, hmap, hrun⟩ := ih fun i hi ↦ hgo i (hi.trans (Nat.lt_succ_self k))
    have hk := hgo k (Nat.lt_succ_self k)
    refine ⟨_, hmap.update hk.key_ne, fun fuel ↦ ?_⟩
    rw [← divLoop_goesOn hd hmap hk, ← hrun (fuel + 1), Nat.succ_add_eq_add_succ]

/-! ### How the loop ends -/

/-- No remainder times ten overflows, and no two that are not zero have the same key. -/
structure RemaindersFit (n d : ℕ) : Prop where
  mul_lt : ∀ k, remainder 10 n d k * 10 < 2 ^ 63
  key_inj : ∀ j k, remainder 10 n d j ≠ 0 → remainder 10 n d k ≠ 0 →
    remainder 10 n d j % 2 ^ 32 = remainder 10 n d k % 2 ^ 32 →
      remainder 10 n d j = remainder 10 n d k

/-- Two remainders have the same key if they agree modulo `2 ^ 32`. -/
theorem wrap_natCast_eq_iff {x y : ℕ} : wrap x = wrap y ↔ x % 2 ^ 32 = y % 2 ^ 32 := by
  have hx := wrap_mod x
  have hy := wrap_mod y
  constructor
  · intro h
    rw [h] at hx
    omega
  · intro h
    have hx' := (wrap x).2
    have hy' := (wrap y).2
    exact Subtype.ext (by omega)

/-- The loop has gone on for all remainders that are not zero. -/
theorem remaindersFit_of_goesOn (hgo : ∀ i < k, GoesOn n d i)
    (hall : ∀ i, remainder 10 n d i ≠ 0 → ∃ l < k, remainder 10 n d l = remainder 10 n d i) :
    RemaindersFit n d := by
  refine ⟨fun i ↦ ?_, fun i j hi hj heq ↦ ?_⟩
  · by_cases hi : remainder 10 n d i = 0
    · rw [hi]
      decide
    · obtain ⟨l, hl, heq⟩ := hall i hi
      exact heq ▸ (hgo l hl).mul_lt
  · obtain ⟨l, hl, hli⟩ := hall i hi
    obtain ⟨m, hm, hmj⟩ := hall j hj
    rw [← hli, ← hmj, ← wrap_natCast_eq_iff] at heq
    rcases Nat.lt_trichotomy l m with hlt | rfl | hgt
    · exact absurd heq ((hgo m hm).key_ne l hlt)
    · exact hli.symm.trans hmj
    · exact absurd heq.symm ((hgo l hl).key_ne m hgt)

/-- The loop ends where nothing remains. -/
theorem divLoop_of_zero (hk : remainder 10 n d k = 0) :
    divLoop d (fuel + 1) (remainder 10 n d k) map start = some start := by
  rw [divLoop, hk]
  rfl

/-- The loop ends where a key occurs again. -/
theorem divLoop_of_key (hk : remainder 10 n d k ≠ 0) {pos : CInt} {res : List Char}
    (hpos : map (wrap (remainder 10 n d k)) = some pos) :
    divLoop d (fuel + 1) (remainder 10 n d k) map res =
      if (pos.1 % 2 ^ 64).toNat ≤ res.length then some (parens res (pos.1 % 2 ^ 64).toNat)
      else none := by
  rw [divLoop, if_neg (Int.natCast_ne_zero.2 hk), hpos]
  dsimp only
  rw [insert]
  split
  next hle =>
    rw [parens, ← List.cons_append, ← List.append_assoc]
    rfl
  next => rfl

/-- The loop is undefined where ten times the remainder overflows. -/
theorem divLoop_of_overflow (hk : remainder 10 n d k ≠ 0) {res : List Char}
    (hnone : map (wrap (remainder 10 n d k)) = none) (hmul : ¬ remainder 10 n d k * 10 < 2 ^ 63) :
    divLoop d (fuel + 1) (remainder 10 n d k) map res = none := by
  have hfit : fit64 (remainder 10 n d k * 10 : ℤ) = none := if_neg (by omega)
  rw [divLoop, if_neg (Int.natCast_ne_zero.2 hk), hnone]
  dsimp only
  rw [hfit]
  rfl

/-- **How the loop ends** if it returns: without a remainder, or at a key it has stored. -/
theorem exists_end {res : List Char} (hd : 0 < d)
    (hres : ∃ steps, ∀ fuel ≥ steps,
      divLoop d fuel (remainder 10 n d 0) (fun _ ↦ none) start = some res) :
    ∃ k, (∀ i < k, GoesOn n d i) ∧
      (remainder 10 n d k = 0 ∧ res = written n d start k ∨
        ∃ p ≤ (written n d start k).length, res = parens (written n d start k) p) := by
  classical
  obtain ⟨steps, hsteps⟩ := hres
  have hstop : ∃ k, ¬ GoesOn n d k := by
    by_contra hgo
    have hall : ∀ i < steps, GoesOn n d i := fun i _ ↦ not_not.1 (not_exists.1 hgo i)
    obtain ⟨map, -, hrun⟩ := divLoop_run start hd hall
    have hnone := (hrun 0).symm.trans (hsteps (0 + steps) (Nat.le_add_left ..))
    cases hnone
  obtain ⟨k, hk, hmin⟩ : ∃ k, ¬ GoesOn n d k ∧ ∀ i < k, GoesOn n d i :=
    ⟨_, Nat.find_spec hstop, fun i hi ↦ not_not.1 (Nat.find_min hstop hi)⟩
  obtain ⟨map, hmap, hrun⟩ := divLoop_run start hd hmin
  have hend := (hrun (steps + 1)).symm.trans (hsteps (steps + 1 + k) (by omega))
  refine ⟨k, hmin, ?_⟩
  by_cases hzero : remainder 10 n d k = 0
  · rw [divLoop_of_zero hzero] at hend
    exact .inl ⟨hzero, (Option.some.inj hend).symm⟩
  · cases hpos : map (wrap (remainder 10 n d k)) with
    | some pos =>
      rw [divLoop_of_key hzero hpos] at hend
      split at hend
      next hle => exact .inr ⟨_, hle, (Option.some.inj hend).symm⟩
      next => cases hend
    | none =>
      rw [divLoop_of_overflow hzero hpos fun hmul ↦ hk ⟨hzero, fun j hj heq ↦ ?_, hmul⟩] at hend
      · cases hend
      · have hkey := hmap.position j hj
        rw [heq, hpos] at hkey
        cases hkey

/-- With remainders that fit, it ends where none is left, or where one occurs again. -/
theorem exists_end_of_fit (hd : 0 < d) (h : RemaindersFit n d) :
    ∃ k, (∀ i < k, GoesOn n d i) ∧ (remainder 10 n d k = 0 ∨ remainder 10 n d k ≠ 0 ∧
      ∃ j < k, remainder 10 n d j = remainder 10 n d k) := by
  classical
  have hstop : ∃ k, remainder 10 n d k = 0 ∨ ∃ j < k, remainder 10 n d j = remainder 10 n d k := by
    obtain ⟨j, k, hjk, heq⟩ := exists_remainder_eq 10 n hd
    exact ⟨k, .inr ⟨j, hjk, heq⟩⟩
  have hmin := fun i (hi : i < Nat.find hstop) ↦ not_or.1 (Nat.find_min hstop hi)
  refine ⟨Nat.find hstop, fun i hi ↦ ⟨(hmin i hi).1, fun j hj heq ↦ ?_, h.mul_lt i⟩, ?_⟩
  · rw [wrap_natCast_eq_iff] at heq
    exact (hmin i hi).2 ⟨j, hj, h.key_inj j i (hmin j (hj.trans hi)).1 (hmin i hi).1 heq⟩
  · by_cases hzero : remainder 10 n d (Nat.find hstop) = 0
    · exact .inl hzero
    · exact .inr ⟨hzero, (Nat.find_spec hstop).resolve_left hzero⟩

/-- The first remainder that occurs again is one of the first 64. -/
theorem lt_of_goesOn (hd : 0 < d) (hlt : d < 2 ^ 63) (hgo : ∀ i < k, GoesOn n d i) (hjk : j < k)
    (heq : remainder 10 n d j = remainder 10 n d k) : j < 64 := by
  by_contra hle
  obtain ⟨j, rfl⟩ : ∃ i, j = i + 1 := ⟨j - 1, by omega⟩
  obtain ⟨k, rfl⟩ : ∃ i, k = i + 1 := ⟨k - 1, by omega⟩
  have hpow : d < 2 ^ j := hlt.trans_le (Nat.pow_le_pow_right (by decide) (by omega))
  have hprev := remainder_eq_of_succ (by decide) hd hpow (by omega) heq
  exact (hgo k (Nat.lt_succ_self k)).key_ne j (by omega) (congrArg _ (congrArg _ hprev))

/-- From the end of the loop, the result for all larger amounts of fuel. -/
theorem exists_steps {res : List Char} (hd : 0 < d) (hgo : ∀ i < k, GoesOn n d i)
    (hend : ∀ map, Stored n d start k map → ∀ fuel,
      divLoop d (fuel + 1) (remainder 10 n d k) map (written n d start k) = some res) :
    ∃ steps, ∀ fuel ≥ steps,
      divLoop d fuel (remainder 10 n d 0) (fun _ ↦ none) start = some res := by
  obtain ⟨map, hmap, hrun⟩ := divLoop_run start hd hgo
  refine ⟨1 + k, fun fuel hfuel ↦ ?_⟩
  obtain ⟨fuel, rfl⟩ := Nat.exists_eq_add_of_le' hfuel
  rw [← Nat.add_assoc, hrun, hend map hmap]

/-- The text with the digits since the same remainder in parentheses. -/
theorem divLoop_of_remainder_eq (hmap : Stored n d start k map) (hk : remainder 10 n d k ≠ 0)
    (hjk : j < k) (heq : remainder 10 n d j = remainder 10 n d k)
    (hint : start.length + j < 2 ^ 31) :
    divLoop d (fuel + 1) (remainder 10 n d k) map (written n d start k) =
      some (parens (written n d start k) (start.length + j)) := by
  have hpos := hmap.position j hjk
  rw [heq] at hpos
  have hval : ((wrap (start.length + j)).1 % 2 ^ 64).toNat = start.length + j := by
    rw [wrap_of_lt (by omega) (by omega)]
    omega
  rw [divLoop_of_key hk hpos, hval, if_pos (by rw [length_written]; omega)]

/-! ### The function -/

/-- The numeral with the sign and the quotient. -/
def numeral (n d : ℤ) (fraction cycle : List (Fin 10)) : Numeral :=
  ⟨decide ¬ (n < 0 ↔ d < 0), n.natAbs / d.natAbs, fraction, cycle⟩

variable {x y : CInt64} {fraction cycle : List (Fin 10)}

/-- Which numerals are expansions of a fraction. -/
theorem isExpansion_text_iff {n d : ℤ} {x : Numeral} : IsExpansion n d x.text ↔
    x.value = n / d ∧ (x.cycle ≠ [] ↔ ∀ k : ℕ, ¬ d ∣ n * 10 ^ k) := by
  constructor
  · rintro ⟨y, hy, hval⟩
    rwa [(hy x).1 rfl]
  · intro hval
    exact ⟨x, fun y ↦ text_injective.eq_iff, hval⟩

/-- An expansion repeats exactly if no remainder is zero. -/
theorem forall_not_dvd_iff {n d : ℤ} : (∀ k : ℕ, ¬ d ∣ n * 10 ^ k) ↔
    ∀ k, remainder 10 n.natAbs d.natAbs k ≠ 0 := by
  refine forall_congr' fun k ↦ not_congr ?_
  rw [remainder_eq_zero_iff, ← Int.natAbs_dvd_natAbs, Int.natAbs_mul, Int.natAbs_pow]
  rfl

/-- The value of a numeral is the fraction exactly if its digits are. -/
theorem value_numeral_eq_iff {n d : ℤ} (hd : d ≠ 0) : (numeral n d fraction cycle).value = n / d ↔
    Real.ofDigits (expansion fraction cycle) = Real.ofDigits (digit 10 n.natAbs d.natAbs) := by
  have hd' : (d.natAbs : ℝ) ≠ 0 := Nat.cast_ne_zero.2 (Int.natAbs_ne_zero.2 hd)
  have hquot : (n.natAbs : ℝ) / d.natAbs = (n.natAbs / d.natAbs : ℕ) +
      (n.natAbs % d.natAbs : ℕ) / d.natAbs := by
    rw [eq_comm, eq_div_iff hd', add_mul, div_mul_cancel₀ _ hd', ← Nat.cast_mul, ← Nat.cast_add,
      mul_comm, Nat.div_add_mod]
  have hsign : (n : ℝ) / d =
      (if (numeral n d fraction cycle).negative then -1 else 1) * (n.natAbs / d.natAbs) := by
    rw [Nat.cast_natAbs, Nat.cast_natAbs, numeral]
    rcases lt_or_ge n 0 with hn | hn <;> rcases lt_or_ge d 0 with hd | hd
    · rw [abs_of_neg hn, abs_of_neg hd, decide_eq_false (by omega), if_neg Bool.false_ne_true,
        one_mul, Int.cast_neg, Int.cast_neg, neg_div_neg_eq]
    · rw [abs_of_neg hn, abs_of_nonneg hd, decide_eq_true (by omega), if_pos rfl, Int.cast_neg,
        neg_div, neg_one_mul, neg_neg]
    · rw [abs_of_nonneg hn, abs_of_neg hd, decide_eq_true (by omega), if_pos rfl, Int.cast_neg,
        div_neg, neg_one_mul, neg_neg]
    · rw [abs_of_nonneg hn, abs_of_nonneg hd, decide_eq_false (by omega),
        if_neg Bool.false_ne_true, one_mul]
  have hne : (if (numeral n d fraction cycle).negative then -1 else 1 : ℝ) ≠ 0 := by
    split
    · exact neg_ne_zero.2 one_ne_zero
    · exact one_ne_zero
  rw [ofDigits_digit (by decide) (Int.natAbs_pos.2 hd), hsign, value, mul_right_inj' hne, hquot]
  exact add_right_inj _

theorem fit64_abs (hx : x.1 ≠ -2 ^ 63) : fit64 |x.1| = some (x.1.natAbs : ℤ) := by
  have hbounds := x.2
  rw [Int.abs_eq_natAbs, fit64_eq (by omega)]

/-- The function as its loop. -/
theorem fractionToDecimal_eq (fuel : ℕ) (hx : x.1 ≠ 0) (hy : y.1 ≠ 0) (hx' : x.1 ≠ -2 ^ 63)
    (hy' : y.1 ≠ -2 ^ 63) : fractionToDecimal fuel x y =
      if remainder 10 x.1.natAbs y.1.natAbs 0 = 0 then some (numeral x.1 y.1 [] []).text
      else divLoop y.1.natAbs fuel (remainder 10 x.1.natAbs y.1.natAbs 0) (fun _ ↦ none)
        ((numeral x.1 y.1 [] []).front ++ ['.']) := by
  have hfront : (if x.1 < 0 ↔ y.1 < 0 then [] else ['-']) ++
      to_string ((x.1.natAbs : ℤ).tdiv y.1.natAbs) = (numeral x.1 y.1 [] []).front := by
    have hquot : (x.1.natAbs : ℤ).tdiv y.1.natAbs = (x.1.natAbs / y.1.natAbs : ℕ) :=
      Int.tdiv_eq_ediv_of_nonneg (Int.natCast_nonneg _)
    have hsign : (if x.1 < 0 ↔ y.1 < 0 then [] else ['-']) =
        if (numeral x.1 y.1 [] []).negative then ['-'] else [] := by
      by_cases hneg : x.1 < 0 ↔ y.1 < 0
      · rw [if_pos hneg, numeral, decide_eq_false (not_not.2 hneg)]
        rfl
      · rw [if_neg hneg, numeral, decide_eq_true hneg]
        rfl
    rw [hquot, to_string_natCast, hsign]
    rfl
  have hmod : (x.1.natAbs : ℤ).tmod y.1.natAbs = remainder 10 x.1.natAbs y.1.natAbs 0 := by
    rw [remainder_zero]
    exact Int.tmod_eq_emod_of_nonneg (Int.natCast_nonneg _)
  have htext : (numeral x.1 y.1 [] []).text = (numeral x.1 y.1 [] []).front := text_of_nil rfl
  rw [fractionToDecimal, if_neg hx, fit64_abs hx', fit64_abs hy', htext, ← hfront]
  simp only [Option.bind_eq_bind, Option.bind_some, hmod, Int.natCast_eq_zero]
  rw [if_neg (Int.natAbs_ne_zero.2 hy)]

/-- The least number has no absolute value. -/
theorem fractionToDecimal_eq_none (hx : x.1 ≠ 0) (h : x.1 = -2 ^ 63 ∨ y.1 = -2 ^ 63) :
    fractionToDecimal fuel x y = none := by
  have hmin : fit64 |-2 ^ 63| = none := by decide
  rw [fractionToDecimal, if_neg hx]
  rcases h with h | h
  · rw [h, hmin]
    rfl
  · rw [h, hmin]
    cases fit64 |x.1| <;> rfl

/-- What is written is the plain text of a numeral. -/
theorem written_eq_plain (hd : 0 < d) {a b : ℤ} (h : fraction ++ cycle = digits 10 n d k) :
    written n d ((numeral a b [] []).front ++ ['.']) k = (numeral a b fraction cycle).plain := by
  have hdigits : (numeral a b fraction cycle).fraction ++ (numeral a b fraction cycle).cycle =
      digits 10 n d k := h
  rw [written_eq hd, plain, hdigits, List.append_assoc]
  rfl

/-- Nothing overflows, and no remainders are taken for the same one that are not. -/
def Fits (x y : CInt64) : Prop :=
  x.1 = 0 ∨ x.1 ≠ -2 ^ 63 ∧ y.1 ≠ -2 ^ 63 ∧ RemaindersFit x.1.natAbs y.1.natAbs

/-- A right result has found the remainder itself, not only its key. -/
theorem remaindersFit_of_isExpansion {res : List Char} (hy : y.1 ≠ 0)
    (hgo : ∀ i < k, GoesOn x.1.natAbs y.1.natAbs i) {p : ℕ}
    (hp : p ≤ (written x.1.natAbs y.1.natAbs ((numeral x.1 y.1 [] []).front ++ ['.']) k).length)
    (hres : res =
      parens (written x.1.natAbs y.1.natAbs ((numeral x.1 y.1 [] []).front ++ ['.']) k) p)
    (h : IsExpansion x.1 y.1 res) : RemaindersFit x.1.natAbs y.1.natAbs := by
  have hd := Int.natAbs_pos.2 hy
  obtain ⟨z, hz, hval, -⟩ := h
  rw [written_eq_plain hd (List.append_nil _)] at hp hres
  obtain ⟨hcycle, hneg, hwhole, hdigits, -⟩ :=
    eq_of_text_eq_parens hp (((hz z).2 rfl).trans hres)
  have hsplit : z.fraction ++ z.cycle = digits 10 x.1.natAbs y.1.natAbs k :=
    hdigits.trans (List.append_nil _)
  have hlen := congrArg List.length hsplit
  have hpos := List.length_pos_iff.2 hcycle
  rw [length_digits, List.length_append] at hlen
  have hnum : z = numeral x.1 y.1 ((digits 10 x.1.natAbs y.1.natAbs k).take z.fraction.length)
      ((digits 10 x.1.natAbs y.1.natAbs k).drop z.fraction.length) := by
    rw [← hsplit, List.take_left, List.drop_left]
    exact Numeral.ext hneg hwhole rfl rfl
  rw [hnum, value_numeral_eq_iff hy] at hval
  have hjk : z.fraction.length < k := by omega
  have heq := (ofDigits_cycle_eq_iff (by decide) hd hjk).1 hval
  exact remaindersFit_of_goesOn hgo fun i _ ↦ exists_remainder_eq_of_lt hjk heq i

/-- The condition is necessary. -/
theorem fits_of_returnsExpansion (hy : y.1 ≠ 0) (h : ReturnsExpansion x y) : Fits x y := by
  have hd := Int.natAbs_pos.2 hy
  by_cases hx : x.1 = 0
  · exact .inl hx
  obtain ⟨res, ⟨steps, hsteps⟩, hres⟩ := h
  have hmin : ¬ (x.1 = -2 ^ 63 ∨ y.1 = -2 ^ 63) := by
    intro hmin
    have hnone := hsteps steps le_rfl
    rw [fractionToDecimal_eq_none hx hmin] at hnone
    cases hnone
  obtain ⟨hx', hy'⟩ := not_or.1 hmin
  refine .inr ⟨hx', hy', ?_⟩
  by_cases hzero : remainder 10 x.1.natAbs y.1.natAbs 0 = 0
  · exact remaindersFit_of_goesOn (fun i hi ↦ absurd hi (Nat.not_lt_zero i)) fun i hi ↦
      absurd (remainder_eq_zero_of_le hzero (Nat.zero_le i)) hi
  · have hloop := fun fuel hfuel ↦
      (fractionToDecimal_eq fuel hx hy hx' hy').symm.trans (hsteps fuel hfuel)
    simp only [if_neg hzero] at hloop
    obtain ⟨k, hgo, ⟨hk, -⟩ | ⟨p, hp, hparens⟩⟩ := exists_end hd ⟨steps, hloop⟩
    · refine remaindersFit_of_goesOn hgo fun i hi ↦ ⟨i, ?_, rfl⟩
      exact Nat.lt_of_not_le fun hki ↦ hi (remainder_eq_zero_of_le hk hki)
    · exact remaindersFit_of_isExpansion hy hgo hp hparens hres

theorem length_front_le (x y : CInt64) : (numeral x.1 y.1 [] []).front.length ≤ 20 := by
  have hx := x.2
  have hle := Nat.div_le_self x.1.natAbs y.1.natAbs
  have hwhole : (Nat.toDigits 10 (x.1.natAbs / y.1.natAbs)).length ≤ 19 :=
    (Nat.length_toDigits_le_iff (by decide) (by decide)).2 (by omega)
  rw [front, List.length_append]
  change _ + (Nat.toDigits 10 (x.1.natAbs / y.1.natAbs)).length ≤ 20
  split
  · rw [List.length_singleton]
    omega
  · rw [List.length_nil]
    omega

theorem returnsExpansion_zero (hx : x.1 = 0) : ReturnsExpansion x y := by
  refine ⟨(Numeral.mk false 0 [] []).text, ⟨0, fun fuel _ ↦ if_pos hx⟩, ?_⟩
  have hdigits : expansion [] [] = digit 10 0 1 := expansion_nil (k := 0) (by decide) (by decide)
  rw [isExpansion_text_iff, value, hdigits, ofDigits_digit (by decide) (by decide), hx]
  refine ⟨by simp, iff_of_false (fun hne ↦ hne rfl) fun h ↦ h 0 ?_⟩
  rw [zero_mul]
  exact dvd_zero _

/-- Digits up to the remainder zero are the expansion. -/
theorem isExpansion_of_zero (hy : y.1 ≠ 0) (hk : remainder 10 x.1.natAbs y.1.natAbs k = 0) :
    IsExpansion x.1 y.1 (numeral x.1 y.1 (digits 10 x.1.natAbs y.1.natAbs k) []).text := by
  rw [isExpansion_text_iff, value_numeral_eq_iff hy, expansion_nil (Int.natAbs_pos.2 hy) hk,
    forall_not_dvd_iff]
  exact ⟨rfl, iff_of_false (fun hne ↦ hne rfl) fun h ↦ h k hk⟩

theorem drop_digits_ne_nil (hjk : j < k) : (digits 10 n d k).drop j ≠ [] := by
  refine List.ne_nil_of_length_pos ?_
  rw [List.length_drop, length_digits]
  omega

/-- Digits up to a remainder that occurs again are the expansion. -/
theorem isExpansion_of_eq (hy : y.1 ≠ 0)
    (hgo : ∀ i < k, GoesOn x.1.natAbs y.1.natAbs i) (hjk : j < k)
    (heq : remainder 10 x.1.natAbs y.1.natAbs j = remainder 10 x.1.natAbs y.1.natAbs k) :
    IsExpansion x.1 y.1 (numeral x.1 y.1 ((digits 10 x.1.natAbs y.1.natAbs k).take j)
      ((digits 10 x.1.natAbs y.1.natAbs k).drop j)).text := by
  rw [isExpansion_text_iff, value_numeral_eq_iff hy, forall_not_dvd_iff]
  refine ⟨(ofDigits_cycle_eq_iff (by decide) (Int.natAbs_pos.2 hy) hjk).2 heq, 
    iff_of_true (drop_digits_ne_nil hjk) fun i ↦ ?_⟩
  obtain ⟨l, hl, heq'⟩ := exists_remainder_eq_of_lt hjk heq i
  exact heq' ▸ (hgo l hl).ne_zero

/-- The condition is enough. -/
theorem returnsExpansion_of_fits (hy : y.1 ≠ 0) (h : Fits x y) : ReturnsExpansion x y := by
  have hd := Int.natAbs_pos.2 hy
  by_cases hx : x.1 = 0
  · exact returnsExpansion_zero hx
  obtain ⟨hx', hy', hfit⟩ := h.resolve_left hx
  have heq := fun fuel ↦ fractionToDecimal_eq fuel hx hy hx' hy'
  by_cases hzero : remainder 10 x.1.natAbs y.1.natAbs 0 = 0
  · exact ⟨_, ⟨0, fun fuel _ ↦ (heq fuel).trans (if_pos hzero)⟩, isExpansion_of_zero hy hzero⟩
  simp only [if_neg hzero] at heq
  obtain ⟨k, hgo, hk | ⟨hk, j, hjk, hrem⟩⟩ := exists_end_of_fit hd hfit
  · have hpos : k ≠ 0 := by
      rintro rfl
      exact hzero hk
    refine ⟨_, ?_, isExpansion_of_zero hy hk⟩
    simp only [heq]
    refine exists_steps hd hgo fun map _ fuel ↦ ?_
    have hne : digits 10 x.1.natAbs y.1.natAbs k ≠ [] :=
      List.ne_nil_of_length_pos (by rw [length_digits]; omega)
    rw [divLoop_of_zero hk, written_eq_plain hd (List.append_nil _), text_of_nil rfl]
    exact congrArg some (if_neg hne).symm
  · refine ⟨_, ?_, isExpansion_of_eq hy hgo hjk hrem⟩
    simp only [heq]
    refine exists_steps hd hgo fun map hmap fuel ↦ ?_
    have hbounds := y.2
    have hfront := length_front_le x y
    have hj := lt_of_goesOn hd (by omega) hgo hjk hrem
    have htake : ((digits 10 x.1.natAbs y.1.natAbs k).take j).length = j := by
      rw [List.length_take, length_digits, min_eq_left hjk.le]
    have hstart : ((numeral x.1 y.1 [] []).front ++ ['.']).length + j =
        (numeral x.1 y.1 [] []).front.length + 1 +
          ((digits 10 x.1.natAbs y.1.natAbs k).take j).length := by
      rw [List.length_append, htake, List.length_singleton]
    rw [divLoop_of_remainder_eq hmap hk hjk hrem (by omega), hstart,
      written_eq_plain hd (List.take_append_drop j _), text_of_cycle (drop_digits_ne_nil hjk)]
    rfl

/-! ### Main theorem -/

/-- **When the expansion is returned**: if all remainders are multiplied without overflow and have
different keys. -/
theorem returnsExpansion_iff (hy : y.1 ≠ 0) : ReturnsExpansion x y ↔ Fits x y :=
  ⟨fits_of_returnsExpansion hy, returnsExpansion_of_fits hy⟩

/-- The remainders of a divisor up to 2^32 fit. -/
theorem fits_of_natAbs_le (hx : x.1 ≠ -2 ^ 63) (hy : y.1 ≠ 0) (hle : y.1.natAbs ≤ 2 ^ 32) :
    Fits x y := by
  have hlt : ∀ k, remainder 10 x.1.natAbs y.1.natAbs k < y.1.natAbs := fun k ↦
    remainder_lt (Int.natAbs_pos.2 hy)
  refine .inr ⟨hx, by omega, fun k ↦ ?_, fun j k _ _ heq ↦ ?_⟩
  · have hk := hlt k
    omega
  · rwa [Nat.mod_eq_of_lt ((hlt j).trans_le hle), Nat.mod_eq_of_lt ((hlt k).trans_le hle)] at heq

theorem returnsExpansion_ten_sevenths :
    ReturnsExpansion ⟨10, by decide⟩ ⟨7, by decide⟩ :=
  (returnsExpansion_iff (by decide)).2 (fits_of_natAbs_le (by decide) (by decide) (by decide))

/-- The first two remainders of 1073741825 / 5368709129 have the same key. -/
theorem not_forall_returnsExpansion :
    ¬ ∀ x y : CInt64, y.1 ≠ 0 → ReturnsExpansion x y := by
  intro h
  have hy : (5368709129 : ℤ) ≠ 0 := by decide
  have hfits := fits_of_returnsExpansion hy
    (h ⟨1073741825, by decide⟩ ⟨5368709129, by decide⟩ hy)
  obtain ⟨-, -, hfit⟩ := hfits.resolve_left (by decide)
  exact absurd (hfit.key_inj 0 1 (by decide) (by decide) (by decide)) (by decide)

end FractionRecurringDecimal
