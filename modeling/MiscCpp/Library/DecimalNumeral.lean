import MiscCpp.Library.LongDivision

/-!
# Decimal numerals with a repeating part

A text such as `-10.58(3)` with the number it denotes, for which the digits in the parentheses are
repeated for ever. A text is read in one way only (`Numeral.text_injective`).
-/

open LongDivision

/-- The digits `cycle` are repeated behind the ones of `fraction`. -/
@[ext]
structure Numeral where
  negative : Bool
  whole : ℕ
  fraction : List (Fin 10)
  cycle : List (Fin 10)

namespace Numeral

variable {x y : Numeral} {ds es : List (Fin 10)} {s t : List Char} {c : Char} {p q : ℕ}

/-- Digits as characters. -/
def digitChars (ds : List (Fin 10)) : List Char := ds.map fun a ↦ Nat.digitChar a.val

/-- What stands in front of the point. -/
def front (x : Numeral) : List Char :=
  (if x.negative then ['-'] else []) ++ Nat.toDigits 10 x.whole

/-- A numeral as it is written, with the digits that repeat in parentheses. -/
def text (x : Numeral) : List Char :=
  if x.cycle ≠ [] then
    x.front ++ '.' :: (digitChars x.fraction ++ '(' :: (digitChars x.cycle ++ [')']))
  else if x.fraction ≠ [] then x.front ++ '.' :: digitChars x.fraction
  else x.front

/-- The number that a numeral stands for. -/
noncomputable def value (x : Numeral) : ℝ :=
  (if x.negative then -1 else 1) * (x.whole + Real.ofDigits (expansion x.fraction x.cycle))

/-! ### Digits -/

theorem digitChars_append : digitChars (ds ++ es) = digitChars ds ++ digitChars es :=
  List.map_append

theorem length_digitChars : (digitChars ds).length = ds.length := List.length_map _

/-- Different digits are written differently. -/
theorem digitChars_inj (h : digitChars ds = digitChars es) : ds = es := by
  have hinj : ∀ a b : Fin 10, Nat.digitChar a.val = Nat.digitChar b.val → a = b := by decide
  exact List.map_injective_iff.2 hinj h

theorem isDigit_of_mem_digitChars (hc : c ∈ digitChars ds) : c.isDigit := by
  have hdigit : ∀ a : Fin 10, (Nat.digitChar a.val).isDigit := by decide
  obtain ⟨a, -, rfl⟩ := List.mem_map.1 hc
  exact hdigit a

theorem mem_front (hc : c ∈ x.front) : c = '-' ∨ c.isDigit := by
  rcases List.mem_append.1 hc with hc | hc
  · split at hc
    · exact .inl (List.mem_singleton.1 hc)
    · cases hc
  · exact .inr (Nat.isDigit_of_mem_toDigits (by decide) (by decide) hc)

/-- The part in front of the point determines the sign and the whole number. -/
theorem front_inj (h : x.front = y.front) : x.negative = y.negative ∧ x.whole = y.whole := by
  have hminus : ∀ {k : ℕ}, '-' ∉ Nat.toDigits 10 k := fun hmem ↦ by
    have hdigit := Nat.isDigit_of_mem_toDigits (by decide) (by decide) hmem
    cases hdigit
  have hwhole : Nat.toDigits 10 x.whole = Nat.toDigits 10 y.whole → x.whole = y.whole := by
    intro heq
    rw [← Nat.ofDigitChars_ten_toDigits (n := x.whole), heq, Nat.ofDigitChars_ten_toDigits]
  rw [front, front] at h
  cases hx : x.negative <;> cases hy : y.negative <;> rw [hx, hy] at h
  · exact ⟨rfl, hwhole h⟩
  · exact absurd (h.symm ▸ List.mem_cons_self : '-' ∈ [] ++ Nat.toDigits 10 x.whole) hminus
  · exact absurd (h ▸ List.mem_cons_self : '-' ∈ [] ++ Nat.toDigits 10 y.whole) hminus
  · exact ⟨rfl, hwhole (List.append_cancel_left h)⟩

/-! ### Texts -/

/-- The text without the parentheses. -/
def plain (x : Numeral) : List Char := x.front ++ '.' :: digitChars (x.fraction ++ x.cycle)

/-- The text with parentheses from `p` on. -/
def parens (s : List Char) (p : ℕ) : List Char := s.take p ++ '(' :: (s.drop p ++ [')'])

/-- With digits that repeat, the text is the plain one with parentheses around them. -/
theorem text_of_cycle (h : x.cycle ≠ []) :
    x.text = parens x.plain (x.front.length + 1 + x.fraction.length) := by
  have hsplit : x.plain = (x.front ++ '.' :: digitChars x.fraction) ++ digitChars x.cycle := by
    rw [plain, digitChars_append, List.append_assoc, List.cons_append]
  have hlen : x.front.length + 1 + x.fraction.length =
      (x.front ++ '.' :: digitChars x.fraction).length := by
    rw [List.length_append, List.length_cons, length_digitChars]
    omega
  rw [text, if_pos h, parens, hsplit, hlen, List.take_left, List.drop_left, List.append_assoc,
    List.cons_append]

/-- Neither a point nor a parenthesis is in front of the point. -/
theorem not_mem_front (hc : c = '.' ∨ c = '(') : c ∉ x.front := by
  intro hmem
  rcases hc with rfl | rfl
  · exact absurd (mem_front hmem) (by decide)
  · exact absurd (mem_front hmem) (by decide)

theorem not_mem_plain : '(' ∉ x.plain := by
  intro hmem
  rcases List.mem_append.1 hmem with hmem | hmem
  · exact not_mem_front (.inr rfl) hmem
  · rcases List.mem_cons.1 hmem with heq | hmem
    · exact absurd heq (by decide)
    · exact absurd (isDigit_of_mem_digitChars hmem) (by decide)

/-- The plain text determines its part in front of the point and the digits behind it. -/
theorem plain_inj (h : x.plain = y.plain) :
    x.front = y.front ∧ x.fraction ++ x.cycle = y.fraction ++ y.cycle := by
  have hpoint : '.' ∉ digitChars (x.fraction ++ x.cycle) := fun hmem ↦
    absurd (isDigit_of_mem_digitChars hmem) (by decide)
  rw [plain, plain, List.append_cons_inj_of_notMem (not_mem_front (.inl rfl)) hpoint] at h
  obtain ⟨hfront, -, hdigits⟩ := h
  exact ⟨hfront, digitChars_inj hdigits⟩

/-- The parentheses are found again in the text. -/
theorem parens_inj (hs : '(' ∉ s) (hp : p ≤ s.length) (hq : q ≤ t.length)
    (h : parens s p = parens t q) : s = t ∧ p = q := by
  have hdrop : '(' ∉ s.drop p ++ [')'] := by
    intro hmem
    rcases List.mem_append.1 hmem with hmem | hmem
    · exact hs (List.mem_of_mem_drop hmem)
    · exact absurd (List.mem_singleton.1 hmem) (by decide)
  rw [parens, parens, List.append_cons_inj_of_notMem (fun hmem ↦ hs (List.mem_of_mem_take hmem))
    hdrop] at h
  obtain ⟨htake, -, hback⟩ := h
  have hlen := congrArg List.length htake
  rw [List.length_take, List.length_take, min_eq_left hp, min_eq_left hq] at hlen
  refine ⟨?_, hlen⟩
  rw [← List.take_append_drop p s, htake, List.append_cancel_right hback, List.take_append_drop]

/-- The digits that repeat come behind the others. -/
theorem length_le_length_plain : x.front.length + 1 + x.fraction.length ≤ x.plain.length := by
  rw [plain, List.length_append, List.length_cons, length_digitChars, List.length_append]
  omega

/-- Without digits that repeat there are no parentheses, and no point without digits. -/
theorem text_of_nil (h : x.cycle = []) :
    x.text = if x.fraction = [] then x.front else x.plain := by
  rw [text, if_neg (not_not.2 h), plain, h, List.append_nil, ite_not]

theorem not_mem_text (h : x.cycle = []) : '(' ∉ x.text := by
  rw [text_of_nil h]
  split
  · exact not_mem_front (.inr rfl)
  · exact not_mem_plain

theorem mem_parens (s : List Char) (p : ℕ) : '(' ∈ parens s p :=
  List.mem_append_right _ List.mem_cons_self

/-- What a text with parentheses is read as. -/
theorem eq_of_text_eq_parens (hp : p ≤ y.plain.length) (h : x.text = parens y.plain p) :
    x.cycle ≠ [] ∧ x.negative = y.negative ∧ x.whole = y.whole ∧
      x.fraction ++ x.cycle = y.fraction ++ y.cycle ∧
      p = y.front.length + 1 + x.fraction.length := by
  have hcycle : x.cycle ≠ [] := by
    intro hnil
    exact not_mem_text hnil (h ▸ mem_parens _ _)
  rw [text_of_cycle hcycle] at h
  obtain ⟨hplain, rfl⟩ := parens_inj not_mem_plain length_le_length_plain hp h
  obtain ⟨hfront, hdigits⟩ := plain_inj hplain
  obtain ⟨hneg, hwhole⟩ := front_inj hfront
  exact ⟨hcycle, hneg, hwhole, hdigits, by rw [hfront]⟩

/-- **A text is read in one way.** -/
theorem text_injective : Function.Injective text := by
  intro x y h
  by_cases hy : y.cycle = []
  · have hx : x.cycle = [] := by
      by_contra hx
      have hmem := mem_parens x.plain (x.front.length + 1 + x.fraction.length)
      rw [← text_of_cycle hx, h] at hmem
      exact not_mem_text hy hmem
    rw [text_of_nil hx, text_of_nil hy] at h
    have hpoint : ∀ z : Numeral, '.' ∈ z.plain := fun z ↦
      List.mem_append_right _ List.mem_cons_self
    have hfront : ∀ z : Numeral, '.' ∉ z.front := fun z ↦ not_mem_front (.inl rfl)
    by_cases hfx : x.fraction = [] <;> by_cases hfy : y.fraction = []
    · rw [if_pos hfx, if_pos hfy] at h
      obtain ⟨hneg, hwhole⟩ := front_inj h
      exact Numeral.ext hneg hwhole (hfx.trans hfy.symm) (hx.trans hy.symm)
    · rw [if_pos hfx, if_neg hfy] at h
      exact absurd (h ▸ hpoint y) (hfront x)
    · rw [if_neg hfx, if_pos hfy] at h
      exact absurd (h ▸ hpoint x) (hfront y)
    · rw [if_neg hfx, if_neg hfy] at h
      obtain ⟨hfront, hdigits⟩ := plain_inj h
      obtain ⟨hneg, hwhole⟩ := front_inj hfront
      rw [hx, hy, List.append_nil, List.append_nil] at hdigits
      exact Numeral.ext hneg hwhole hdigits (hx.trans hy.symm)
  · rw [text_of_cycle hy] at h
    obtain ⟨-, hneg, hwhole, hdigits, hlen⟩ := eq_of_text_eq_parens length_le_length_plain h
    obtain ⟨hfraction, hcycle⟩ := List.append_inj hdigits (by omega)
    exact Numeral.ext hneg hwhole hfraction hcycle

end Numeral
