import MiscCpp.Library.StdString

/-!
# `SplitString`

The search for the next separator begins behind the last one. Before the first piece there is none,
and `next = -1` stands for one that ends at 0. But `cur = next + sep.size()` wraps around to
`sep.size() - 1`: this is the first position only if the separator is a single character.

From `cur` on the pieces are those of the rest of the input (`splitLoop_eq`). So the pieces are
right for separators of one character, and for longer ones the first `sep.size() - 1` characters
are missing, or there are not as many and `substr` throws (`splitsRight_iff`).
-/

open Splitting StdString

namespace Utils

/-- `std::out_of_range` -/
inductive OutOfRange
  | outOfRange

/-- `input.substr(pos, n)` -/
def substr (input : List Char) (pos n : ℕ) : Except OutOfRange (List Char) :=
  if input.length < pos then .error .outOfRange else .ok ((input.drop pos).take n)

/-- The `do` loop, with what is thrown beside the pieces. -/
def splitLoop (input sep : List Char) :
    ℕ → ℕ → List (List Char) → Option (List (List Char) × Option OutOfRange)
  | 0, _, _ => none
  | fuel + 1, next, result =>
    let cur := (next + sep.length) % 2 ^ 64
    let next := find input sep cur
    match substr input cur ((next + 2 ^ 64 - cur) % 2 ^ 64) with
    | .error e => some (result, some e)
    | .ok piece =>
      if next ≠ npos then splitLoop input sep fuel next (result ++ [piece])
      else some (result ++ [piece], none)

/-- `SplitString` -/
def splitString (fuel : ℕ) (result : List (List Char)) (input sep : StdString) :
    Option (List (List Char) × Option OutOfRange) :=
  splitLoop input.1 sep.1 fuel npos result

/-! ### The pieces -/

variable {input sep : List Char} {cur next fuel : ℕ} {qs : List ℕ} {ps : List (List Char)}

/-- **The loop** from `cur` on appends the pieces. -/
theorem splitLoop_eq (h : Found input sep cur qs ps) (hinput : input.length < 2 ^ 63)
    (hcur : (next + sep.length) % 2 ^ 64 = cur) (hfuel : ps.length ≤ fuel)
    (result : List (List Char)) :
    splitLoop input sep fuel next result = some (result ++ ps, none) := by
  induction h generalizing next fuel result with
  | @last cur hle hfind =>
    cases fuel with
    | zero => cases hfuel
    | succ fuel =>
      have hall : (input.drop cur).length ≤ (npos + 2 ^ 64 - cur) % 2 ^ 64 := by
        rw [List.length_drop, npos]
        omega
      rw [splitLoop]
      simp only [hcur, hfind, substr, if_neg (Nat.not_lt.2 hle), List.take_of_length_le hall,
        ne_eq, not_true_eq_false, if_false]
  | @next cur p qs ps hpiece hfind hle h ih =>
    cases fuel with
    | zero => cases hfuel
    | succ fuel =>
      -- the positions are those of characters, so nothing wraps around from here on
      have hnext : (cur + p.length + sep.length) % 2 ^ 64 = cur + p.length + sep.length :=
        Nat.mod_eq_of_lt (by omega)
      have hcount : (cur + p.length + 2 ^ 64 - cur) % 2 ^ 64 = p.length := by omega
      have hne : cur + p.length ≠ npos := by
        rw [npos]
        omega
      have hcur_le : ¬ input.length < cur := by omega
      rw [splitLoop]
      simp only [hcur, hfind, substr, if_neg hcur_le, hcount, if_pos hne, hpiece]
      rw [ih hnext (Nat.le_of_succ_le_succ hfuel), List.append_assoc, List.singleton_append]

/-! ### All inputs -/

/-- The pieces are those between the separators, and nothing is thrown. -/
def SplitsRight (input sep : StdString) : Prop :=
  ∃ n, ∀ fuel ≥ n, ∃ ps, splitString fuel [] input sep = some (ps, none) ∧
    sep.1.intercalate ps = input.1 ∧ (∀ p ∈ ps, ¬ sep.1 <:+: p) ∧
    ps.length = occurrences sep.1 input.1 + 1

/-- What the first turn of the loop begins with. -/
theorem first_cur {sep : List Char} (hsep : sep ≠ []) (hlen : sep.length < 2 ^ 63) :
    (npos + sep.length) % 2 ^ 64 = sep.length - 1 := by
  have hpos : 0 < sep.length := List.length_pos_iff.2 hsep
  rw [npos]
  omega

/-- Behind the end of the input `substr` throws. -/
theorem splitString_throws {input sep : StdString} (hsep : sep.1 ≠ [])
    (hlt : input.1.length < sep.1.length - 1) (fuel : ℕ) (result : List (List Char)) :
    splitString (fuel + 1) result input sep = some (result, some .outOfRange) := by
  rw [splitString, splitLoop]
  simp only [first_cur hsep sep.2, substr, if_pos hlt]

/-- Otherwise the rest of the input is split, from the last character of a separator on. -/
theorem splitString_eq {input sep : StdString} (hsep : sep.1 ≠ [])
    (hle : sep.1.length - 1 ≤ input.1.length) :
    ∃ ps, Splits sep.1 (input.1.drop (sep.1.length - 1)) ps ∧ ∀ fuel ≥ ps.length, ∀ result,
      splitString fuel result input sep = some (result ++ ps, none) := by
  obtain ⟨qs, ps, hfound, hps⟩ := exists_found input.1 hsep hle
  exact ⟨ps, hps, fun fuel hfuel result ↦
    splitLoop_eq hfound input.2 (first_cur hsep sep.2) hfuel result⟩

/-- **`SplitString`** is right, for whatever input, if and only if the separator is a single
character. -/
theorem splitsRight_iff {input sep : StdString} (hsep : sep.1 ≠ []) :
    SplitsRight input sep ↔ sep.1.length = 1 := by
  have hpos : 0 < sep.1.length := List.length_pos_iff.2 hsep
  constructor
  · rintro ⟨n, hn⟩
    rcases Nat.lt_or_ge input.1.length (sep.1.length - 1) with hlt | hle
    · obtain ⟨ps, hrun, -⟩ := hn (n + 1) (Nat.le_succ n)
      rw [splitString_throws hsep hlt] at hrun
      cases hrun
    · obtain ⟨ps', hps', hloop⟩ := splitString_eq hsep hle
      obtain ⟨ps, hrun, hjoin, -, -⟩ := hn (n + ps'.length) (Nat.le_add_right ..)
      rw [hloop _ (Nat.le_add_left ..), List.nil_append] at hrun
      obtain ⟨rfl, -⟩ := Prod.mk.inj (Option.some.inj hrun)
      have hlen := congrArg List.length (hps'.intercalate.symm.trans hjoin)
      rw [List.length_drop] at hlen
      omega
  · intro hone
    have hle : sep.1.length - 1 ≤ input.1.length := by omega
    obtain ⟨ps, hps, hloop⟩ := splitString_eq hsep hle
    rw [hone, Nat.sub_self, List.drop_zero] at hps
    exact ⟨ps.length, fun fuel hfuel ↦
      ⟨ps, hloop fuel hfuel [], hps.intercalate, hps.not_contains hsep, hps.length hsep⟩⟩

theorem splitsRight_comma : SplitsRight ⟨['a', ',', 'b'], by decide⟩ ⟨[','], by decide⟩ :=
  (splitsRight_iff (List.cons_ne_nil _ _)).2 rfl

/-- At `"::"` the first character of the input is lost. -/
theorem not_forall_splitsRight :
    ¬ ∀ input sep : StdString, sep.1 ≠ [] → SplitsRight input sep := by
  intro h
  obtain ⟨n, hn⟩ := h ⟨['a', 'b'], by decide⟩ ⟨[':', ':'], by decide⟩ (List.cons_ne_nil _ _)
  obtain ⟨ps, hrun, hjoin, -⟩ := hn (n + 1) (Nat.le_succ n)
  obtain ⟨rfl, -⟩ := Prod.mk.inj (Option.some.inj hrun)
  exact absurd hjoin (by decide)

end Utils
