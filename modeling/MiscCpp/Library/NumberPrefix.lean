import Mathlib.Data.List.Induction
import MiscCpp.Library.CInt

/-!
# The number at the front of a text

A literal has spaces, a sign that may be missing, and decimal digits, of which there may be none.
What is in front of the last character of a literal is a literal as well (`exists_text_of_concat`),
so the longest one at the front of a text is the one that the next character does not continue
(`isLongest_of_stuck`).
-/

namespace NumberPrefix

/-- The sign is `some true` for a minus. -/
@[ext]
structure Literal where
  spaces : ℕ
  sign : Option Bool
  digits : List Char
  isDigit : ∀ c ∈ digits, c.isDigit

namespace Literal

variable {x y : Literal} {p s r : List Char} {c : Char}

/-- A sign as it is written, if there is one. -/
def signText : Option Bool → List Char
  | none => []
  | some false => ['+']
  | some true => ['-']

/-- A literal as it is written: spaces, a sign, digits. -/
def text (x : Literal) : List Char :=
  List.replicate x.spaces ' ' ++ (signText x.sign ++ x.digits)

/-- The number without its sign. -/
def abs (x : Literal) : ℕ := Nat.ofDigitChars 10 x.digits 0

/-- The number that a literal stands for. -/
def value (x : Literal) : ℤ := if x.sign = some true then -(x.abs : ℤ) else x.abs

/-- The literal is the longest one at the front of `s`. -/
def IsLongest (s : List Char) (x : Literal) : Prop :=
  x.text <+: s ∧ ∀ y : Literal, y.text <+: s → y.text.length ≤ x.text.length

/-- There are only spaces so far. -/
def IsBlank (x : Literal) : Prop := x.sign = none ∧ x.digits = []

instance : Decidable x.IsBlank := inferInstanceAs (Decidable (_ ∧ _))

/-- The literal without any characters. -/
def empty : Literal := ⟨0, none, [], fun _ h ↦ absurd h List.not_mem_nil⟩

/-! ### Reading a literal back -/

/-- The digits are read off the text. -/
theorem filter_isDigit_text (x : Literal) : x.text.filter Char.isDigit = x.digits := by
  have hspaces : (List.replicate x.spaces ' ').filter Char.isDigit = [] :=
    List.filter_replicate_of_neg (by decide)
  have hsign : (signText x.sign).filter Char.isDigit = [] := by
    rcases x.sign with _ | _ | _ <;> rfl
  rw [text, List.filter_append, List.filter_append, hspaces, hsign, List.nil_append,
    List.nil_append, List.filter_eq_self.2 x.isDigit]

/-- A character that is no digit and no space is in the text as the sign only. -/
theorem mem_text_iff (hc : c.isDigit = false) (hspace : c ≠ ' ') :
    c ∈ x.text ↔ c ∈ signText x.sign := by
  rw [text, List.mem_append, List.mem_append]
  constructor
  · rintro (h | h | h)
    · exact absurd (List.eq_of_mem_replicate h) hspace
    · exact h
    · exact absurd (hc ▸ x.isDigit c h) Bool.false_ne_true
  · exact fun h ↦ Or.inr (Or.inl h)

theorem signText_eq_nil {sign : Option Bool} (hminus : '-' ∉ signText sign)
    (hplus : '+' ∉ signText sign) : sign = none := by
  rcases sign with _ | _ | _
  · rfl
  · exact absurd List.mem_cons_self hplus
  · exact absurd List.mem_cons_self hminus

/-- The written signs determine the sign. -/
theorem signText_inj {a b : Option Bool} (hminus : '-' ∈ signText a ↔ '-' ∈ signText b)
    (hplus : '+' ∈ signText a ↔ '+' ∈ signText b) : a = b := by
  rcases a with _ | _ | _ <;> rcases b with _ | _ | _ <;> revert hminus hplus <;> decide

/-- **A text is read in one way.** -/
theorem text_injective : Function.Injective text := by
  intro x y h
  have hdigits : x.digits = y.digits := by
    rw [← filter_isDigit_text x, h, filter_isDigit_text y]
  have hminus : '-' ∈ signText x.sign ↔ '-' ∈ signText y.sign := by
    rw [← mem_text_iff (by decide) (by decide), h, mem_text_iff (by decide) (by decide)]
  have hplus : '+' ∈ signText x.sign ↔ '+' ∈ signText y.sign := by
    rw [← mem_text_iff (by decide) (by decide), h, mem_text_iff (by decide) (by decide)]
  have hsign := signText_inj hminus hplus
  rw [text, text, hsign, hdigits] at h
  have hlen := congrArg List.length (List.append_cancel_right h)
  rw [List.length_replicate, List.length_replicate] at hlen
  exact Literal.ext hlen hsign hdigits

/-- There is one longest literal. -/
theorem IsLongest.unique (hx : IsLongest s x) (hy : IsLongest s y) : x = y := by
  have hlen : x.text.length = y.text.length := le_antisymm (hy.2 x hx.1) (hx.2 y hy.1)
  exact text_injective ((List.prefix_of_prefix_length_le hx.1 hy.1 hlen.le).eq_of_length hlen)

/-! ### Continuing a literal -/

/-- A digit behind the literal. -/
def digit (x : Literal) (c : Char) (h : c.isDigit) : Literal where
  __ := x
  digits := x.digits ++ [c]
  isDigit := fun d hd ↦ by
    rcases List.mem_append.1 hd with hd | hd
    · exact x.isDigit d hd
    · exact List.mem_singleton.1 hd ▸ h

theorem text_digit (h : c.isDigit) : (x.digit c h).text = x.text ++ [c] := by
  rw [text, text, digit, List.append_assoc, List.append_assoc]

/-- A further digit is the last one of the number. -/
theorem abs_digit (h : c.isDigit) : (x.digit c h).abs = 10 * x.abs + (c.toNat - '0'.toNat) := by
  rw [abs, digit, Nat.ofDigitChars_append, Nat.ofDigitChars_cons, Nat.ofDigitChars_nil, abs]

/-- A space behind the spaces. -/
def space (x : Literal) : Literal := { x with spaces := x.spaces + 1 }

/-- A sign behind the spaces. -/
def signed (x : Literal) (negative : Bool) : Literal := { x with sign := some negative }

theorem text_of_isBlank (h : x.IsBlank) : x.text = List.replicate x.spaces ' ' := by
  rw [text, h.1, h.2, signText, List.append_nil, List.append_nil]

theorem text_space (h : x.IsBlank) : x.space.text = x.text ++ [' '] := by
  rw [text_of_isBlank h, text_of_isBlank (x := x.space) h, space, List.replicate_succ']

theorem text_signed (h : x.IsBlank) (negative : Bool) :
    (x.signed negative).text = x.text ++ signText (some negative) := by
  have htext : (x.signed negative).text =
      List.replicate x.spaces ' ' ++ (signText (some negative) ++ x.digits) := rfl
  rw [htext, text_of_isBlank h, h.2, List.append_nil]

/-- A literal that is written with spaces alone is blank. -/
theorem isBlank_of_text_eq {k : ℕ} (h : x.text = List.replicate k ' ') : x.IsBlank := by
  have hall : ∀ c ∈ x.text, c = ' ' := fun c hc ↦ List.eq_of_mem_replicate (h ▸ hc)
  have hdigits : x.digits = [] := by
    rw [← filter_isDigit_text x, h]
    exact List.filter_replicate_of_neg (by decide)
  have hminus : '-' ∉ signText x.sign := fun hmem ↦
    absurd (hall _ ((mem_text_iff (by decide) (by decide)).2 hmem)) (by decide)
  have hplus : '+' ∉ signText x.sign := fun hmem ↦
    absurd (hall _ ((mem_text_iff (by decide) (by decide)).2 hmem)) (by decide)
  exact ⟨signText_eq_nil hminus hplus, hdigits⟩

/-- What stands in front of the last character of a literal. -/
theorem text_eq_concat (h : y.text = p ++ [c]) : (∃ x : Literal, x.text = p ∧ c.isDigit) ∨
    ∃ k, p = List.replicate k ' ' ∧ (c = '+' ∨ c = '-' ∨ c = ' ') := by
  rcases List.eq_nil_or_concat y.digits with hnil | ⟨digits, d, hdigits⟩
  · refine Or.inr ?_
    rw [text, hnil, List.append_nil] at h
    rcases hsign : y.sign with _ | negative
    · rw [hsign, signText, List.append_nil] at h
      rcases hk : y.spaces with _ | k
      · rw [hk] at h
        exact absurd h.symm (List.append_ne_nil_of_right_ne_nil _ (List.cons_ne_nil _ _))
      · rw [hk, List.replicate_succ'] at h
        obtain ⟨hp, hc⟩ := List.append_inj' h rfl
        exact ⟨k, hp.symm, Or.inr (Or.inr (List.cons.inj hc).1.symm)⟩
    · rw [hsign] at h
      obtain ⟨hp, hc⟩ := List.append_inj' h (by cases negative <;> rfl)
      refine ⟨y.spaces, hp.symm, ?_⟩
      cases negative with
      | false => exact Or.inl (List.cons.inj hc).1.symm
      | true => exact Or.inr (Or.inl (List.cons.inj hc).1.symm)
  · have hmem : ∀ e ∈ digits ++ [d], e.isDigit := by
      rw [← List.concat_eq_append, ← hdigits]
      exact y.isDigit
    rw [text, hdigits, List.concat_eq_append, ← List.append_assoc, ← List.append_assoc] at h
    obtain ⟨hp, hc⟩ := List.append_inj' h rfl
    obtain rfl := (List.cons.inj hc).1
    refine Or.inl ⟨⟨y.spaces, y.sign, digits, fun e he ↦ hmem e (List.mem_append_left _ he)⟩, ?_,
      hmem d (List.mem_append_right _ (List.mem_singleton_self d))⟩
    rw [← hp, text, List.append_assoc]

/-- **The characters** that continue a literal. -/
theorem exists_text_concat_iff : (∃ y : Literal, y.text = x.text ++ [c]) ↔
    c.isDigit ∨ x.IsBlank ∧ (c = '+' ∨ c = '-' ∨ c = ' ') := by
  constructor
  · rintro ⟨y, hy⟩
    rcases text_eq_concat hy with ⟨-, -, hc⟩ | ⟨k, hk, hc⟩
    · exact Or.inl hc
    · exact Or.inr ⟨isBlank_of_text_eq hk, hc⟩
  · rintro (hc | ⟨hblank, rfl | rfl | rfl⟩)
    · exact ⟨x.digit c hc, text_digit hc⟩
    · exact ⟨x.signed false, text_signed hblank false⟩
    · exact ⟨x.signed true, text_signed hblank true⟩
    · exact ⟨x.space, text_space hblank⟩

/-- Without its last character a literal is a literal. -/
theorem exists_text_of_concat (h : y.text = p ++ [c]) : ∃ x : Literal, x.text = p := by
  rcases text_eq_concat h with ⟨x, hx, -⟩ | ⟨k, rfl, -⟩
  · exact ⟨x, hx⟩
  · exact ⟨{ empty with spaces := k }, text_of_isBlank ⟨rfl, rfl⟩⟩

/-- The beginnings of a literal are literals. -/
theorem exists_text_of_isPrefix (y : Literal) (h : p <+: y.text) : ∃ x : Literal, x.text = p := by
  obtain ⟨r, hr⟩ := h
  induction r using List.reverseRecOn generalizing y with
  | nil => exact ⟨y, by rw [← hr, List.append_nil]⟩
  | append_singleton r c ih =>
    obtain ⟨z, hz⟩ := exists_text_of_concat (hr.symm.trans (List.append_assoc p r [c]).symm)
    exact ih z hz.symm

/-- A literal that the next character does not continue is the longest one. -/
theorem isLongest_of_stuck (hs : s = x.text ++ r)
    (h : ∀ c ∈ r.head?, ¬ ∃ y : Literal, y.text = x.text ++ [c]) : IsLongest s x := by
  refine ⟨⟨r, hs.symm⟩, fun y hy ↦ ?_⟩
  by_contra hlt
  have hle := (not_le.1 hlt).le
  obtain ⟨t, ht⟩ := List.prefix_of_prefix_length_le ⟨r, hs.symm⟩ hy hle
  cases t with
  | nil =>
    rw [← ht, List.append_nil] at hlt
    exact hlt le_rfl
  | cons c t =>
    obtain ⟨u, hu⟩ := hy
    -- The literal `y` goes on behind `x` with the next character.
    have hr : r = c :: (t ++ u) := by
      rw [hs, ← ht, List.append_assoc] at hu
      exact (List.append_cancel_left hu).symm
    refine h c (by rw [hr]; rfl) (exists_text_of_isPrefix y ⟨t, ?_⟩)
    rw [← ht, List.append_assoc]
    rfl

/-- **The longest literal** behind what has been read. -/
theorem exists_isLongest (x : Literal) (s : List Char) :
    ∃ y : Literal, IsLongest (x.text ++ s) y := by
  induction s generalizing x with
  | nil => exact ⟨x, isLongest_of_stuck rfl fun c hc ↦ by cases hc⟩
  | cons c s ih =>
    by_cases hc : ∃ y : Literal, y.text = x.text ++ [c]
    · obtain ⟨y, hy⟩ := hc
      obtain ⟨z, hz⟩ := ih y
      refine ⟨z, ?_⟩
      rwa [hy, List.append_assoc] at hz
    · refine ⟨x, isLongest_of_stuck rfl fun d hd ↦ ?_⟩
      obtain rfl := Option.some.inj hd
      exact hc

/-- Further digits do not make a number smaller. -/
theorem le_ofDigitChars (digits : List Char) (n : ℕ) : n ≤ Nat.ofDigitChars 10 digits n := by
  induction digits generalizing n with
  | nil => exact Nat.ofDigitChars_nil.ge
  | cons c digits ih =>
    rw [Nat.ofDigitChars_cons]
    exact le_trans (by omega) (ih _)

/-- The number does not get smaller behind what has been read. -/
theorem IsLongest.abs_le (h : IsLongest s y) (hx : x.text <+: s) : x.abs ≤ y.abs := by
  obtain ⟨t, ht⟩ :=
    (List.prefix_of_prefix_length_le hx h.1 (h.2 x hx)).filter Char.isDigit
  rw [filter_isDigit_text, filter_isDigit_text] at ht
  rw [abs, abs, ← ht, Nat.ofDigitChars_append]
  exact le_ofDigitChars t _

end Literal

end NumberPrefix
