import Mathlib.Algebra.Group.Nat.Defs
import MiscCpp.Library.Splitting

/-!
# Strings

`std::string` as a list of characters, and `find` on it, with positions that are a `size_t`.

A loop that searches on behind each occurrence finds those at which the string is split
(`exists_found`), so what such a loop does is shown by induction on `Found`.
-/

/-- A `std::string`. There are none of `2 ^ 63` characters. -/
abbrev StdString := {str : List Char // str.length < 2 ^ 63}

namespace StdString

open Splitting

/-- `std::string::npos` -/
def npos : ℕ := 2 ^ 64 - 1

/-- `input.find(sep, pos)` -/
def find (input sep : List Char) (pos : ℕ) : ℕ :=
  ((List.range' pos (input.length + 1 - pos)).find?
    fun x ↦ decide (sep <+: input.drop x)).getD npos

variable {cur : ℕ}

/-- Either the separator is not in the rest of the input, or it is found where it begins first. -/
theorem find_spec (input sep : List Char) (hcur : cur ≤ input.length) :
    (¬ sep <:+: input.drop cur ∧ find input sep cur = npos) ∨
      ∃ p rest, input.drop cur = p ++ (sep ++ rest) ∧ FirstAt sep p (sep ++ rest) ∧
        find input sep cur = cur + p.length := by
  cases hfind : (List.range' cur (input.length + 1 - cur)).find?
      fun x ↦ decide (sep <+: input.drop x) with
  | none =>
    refine .inl ⟨?_, by rw [find, hfind, Option.getD_none]⟩
    rintro ⟨s, t, hst⟩
    have hlen := congrArg List.length hst
    rw [List.length_append, List.length_append, List.length_drop] at hlen
    have hpre : sep <+: input.drop (cur + s.length) := by
      rw [← List.drop_drop, ← hst, List.append_assoc, List.drop_left]
      exact List.prefix_append sep t
    have hnot := List.find?_range'_eq_none.1 hfind (cur + s.length) (Nat.le_add_right ..) (by omega)
    rw [decide_eq_true hpre] at hnot
    cases hnot
  | some i =>
    obtain ⟨hi, hmem, hbefore⟩ := List.find?_range'_eq_some.1 hfind
    obtain ⟨hle, hlt⟩ := List.mem_range'_1.1 hmem
    obtain ⟨rest, hrest⟩ := of_decide_eq_true hi
    have hdrop : input.drop cur = (input.drop cur).take (i - cur) ++ (sep ++ rest) := by
      rw [hrest, ← Nat.add_sub_cancel' hle, ← List.drop_drop, Nat.add_sub_cancel' hle,
        List.take_append_drop]
    have hlen : ((input.drop cur).take (i - cur)).length = i - cur := by
      rw [List.length_take, List.length_drop]
      omega
    refine .inr ⟨(input.drop cur).take (i - cur), rest, hdrop, fun k hk ↦ ?_, ?_⟩
    · rw [hlen] at hk
      rw [← hdrop, List.drop_drop]
      have hnot := hbefore (cur + k) (Nat.le_add_right ..) (by omega)
      rw [Bool.not_eq_true', decide_eq_false_iff_not] at hnot
      exact hnot
    · rw [find, hfind, Option.getD_some, hlen, Nat.add_sub_cancel' hle]

/-- From `cur` on `find` gives the positions `qs`, between which are the pieces `ps`. -/
inductive Found (input sep : List Char) : ℕ → List ℕ → List (List Char) → Prop
  | last {cur : ℕ} (hle : cur ≤ input.length) (hfind : find input sep cur = npos) :
    Found input sep cur [] [input.drop cur]
  | next {cur : ℕ} {p : List Char} {qs : List ℕ} {ps : List (List Char)}
    (hpiece : (input.drop cur).take p.length = p) (hfind : find input sep cur = cur + p.length)
    (hle : cur + p.length + sep.length ≤ input.length)
    (h : Found input sep (cur + p.length + sep.length) qs ps) :
    Found input sep cur ((cur + p.length) :: qs) (p :: ps)

/-- The positions that are found are those at which the string is split. -/
theorem exists_found (input : List Char) {sep : List Char} (hsep : sep ≠ [])
    (hcur : cur ≤ input.length) :
    ∃ qs ps, Found input sep cur qs ps ∧ Splits sep (input.drop cur) ps := by
  induction h : input.length - cur using Nat.strong_induction_on generalizing cur with
  | _ n ih =>
    subst h
    rcases find_spec input sep hcur with ⟨hnot, hfind⟩ | ⟨p, rest, hdrop, hfirst, hfind⟩
    · exact ⟨[], [input.drop cur], .last hcur hfind, .last hnot⟩
    · have hlen := congrArg List.length hdrop
      rw [List.length_drop, List.length_append, List.length_append] at hlen
      have hpos : 0 < sep.length := List.length_pos_iff.2 hsep
      have hrest : input.drop (cur + p.length + sep.length) = rest := by
        rw [← List.drop_drop, ← List.drop_drop, hdrop, List.drop_left, List.drop_left]
      obtain ⟨qs, ps, hfound, hps⟩ :=
        ih (input.length - (cur + p.length + sep.length)) (by omega) (by omega) rfl
      rw [hrest] at hps
      refine ⟨(cur + p.length) :: qs, p :: ps, .next ?_ hfind (by omega) hfound,
        hdrop ▸ .next hfirst hps⟩
      rw [hdrop, List.take_left]

/-- There is one piece more than there are separators. -/
theorem Found.length {input sep : List Char} {qs : List ℕ} {ps : List (List Char)}
    (h : Found input sep cur qs ps) : ps.length = qs.length + 1 := by
  induction h with
  | last => rfl
  | next _ _ _ _ ih => exact congrArg Nat.succ ih

/-- There are at most as many positions as characters. -/
theorem Found.length_le {input sep : List Char} {qs : List ℕ} {ps : List (List Char)}
    (hsep : sep ≠ []) (h : Found input sep cur qs ps) : qs.length + cur ≤ input.length := by
  have hpos : 0 < sep.length := List.length_pos_iff.2 hsep
  induction h with
  | last hle => exact (Nat.zero_add _).trans_le hle
  | next _ _ _ _ ih =>
    rw [List.length_cons]
    omega

end StdString
