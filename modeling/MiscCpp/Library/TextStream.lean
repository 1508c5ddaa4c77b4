import Mathlib.Data.List.TakeWhile
import Mathlib.Tactic.Common

/-!
# The lines of a text stream

An input stream as the characters that are left and its flags, and `std::getline` on it.

A line ends before a line end or at the end of the text, and nothing behind the last line end is no
line (`lines`). Reading until it fails gives these lines (`getlines_eq`), since each `getline` takes
the first line that is left, or fails if there is none (`getline_spec`).
-/

namespace TextStream

/-- What is left of the text, `eofbit` and `failbit`. -/
structure IStream where
  rest : List Char
  eof : Bool
  fail : Bool

namespace IStream

variable (str : IStream)

/-- `good()` -/
def good : Bool := !str.eof && !str.fail

/-- `std::getline(str, line)`. A stream that is not good leaves `line` as it is. -/
def getline (line : List Char) : List Char × IStream :=
  if str.good then
    match str.rest.dropWhile (· ≠ '\n') with
    | [] => (str.rest, ⟨[], true, str.rest.isEmpty⟩)
    | _ :: rest => (str.rest.takeWhile (· ≠ '\n'), { str with rest := rest })
  else (line, { str with fail := true })

/-- `while (std::getline(str, line))`, with the lines in the order they are read. -/
def getlines : ℕ → IStream → List Char → List (List Char) → Option (List (List Char))
  | 0, _, _, _ => none
  | fuel + 1, str, line, ls =>
    let (line, str) := str.getline line
    if str.fail then some ls else getlines fuel str line (ls ++ [line])

end IStream

/-! ### Lines -/

/-- The lines of a text. -/
def lines : List Char → List (List Char)
  | [] => []
  | c :: text =>
    if c = '\n' then [] :: lines text
    else match lines text with
      | [] => [[c]]
      | line :: ls => (c :: line) :: ls

variable {line rest : List Char}

theorem lines_append (h : '\n' ∉ line) (rest : List Char) :
    lines (line ++ '\n' :: rest) = line :: lines rest := by
  induction line with
  | nil => rw [List.nil_append, lines, if_pos rfl]
  | cons c line ih =>
    obtain ⟨hc, hline⟩ := not_or.1 (mt List.mem_cons.2 h)
    rw [List.cons_append, lines, if_neg (Ne.symm hc), ih hline]

/-- The last line, without a line end. -/
theorem lines_last (h : '\n' ∉ line) (hne : line ≠ []) : lines line = [line] := by
  induction line with
  | nil => cases hne rfl
  | cons c line ih =>
    obtain ⟨hc, hline⟩ := not_or.1 (mt List.mem_cons.2 h)
    rw [lines, if_neg (Ne.symm hc)]
    cases line with
    | nil => rfl
    | cons d line => rw [ih hline (List.cons_ne_nil d line)]

namespace IStream

variable {str : IStream} {fuel : ℕ}

/-- The lines that are still to be read. -/
def remaining (str : IStream) : List (List Char) := if str.good then lines str.rest else []

theorem getline_of_not_good (h : str.good = false) (line : List Char) :
    str.getline line = (line, { str with fail := true }) := by
  rw [getline, h, if_neg Bool.false_ne_true]

/-- On a good stream there is a line end, or the rest of the text is read. -/
theorem getline_of_good (h : str.good = true) (line : List Char) :
    (∃ l rest, '\n' ∉ l ∧ str.rest = l ++ '\n' :: rest ∧
      str.getline line = (l, { str with rest := rest })) ∨
    '\n' ∉ str.rest ∧ str.getline line = (str.rest, ⟨[], true, str.rest.isEmpty⟩) := by
  have hspan := List.takeWhile_append_dropWhile (p := (· ≠ '\n')) (l := str.rest)
  rw [getline, if_pos h]
  cases hdrop : str.rest.dropWhile (· ≠ '\n') with
  | nil =>
    refine .inr ⟨fun hmem ↦ ?_, rfl⟩
    exact of_decide_eq_true (List.dropWhile_eq_nil_iff.1 hdrop _ hmem) rfl
  | cons c rest =>
    have hc : c = '\n' := by
      have hhead := List.head_dropWhile_not (· ≠ '\n') (hdrop ▸ List.cons_ne_nil c rest)
      simp only [hdrop, List.head_cons, decide_eq_false_iff_not, not_not] at hhead
      exact hhead
    subst hc
    rw [hdrop] at hspan
    refine .inl ⟨_, rest, fun hmem ↦ ?_, hspan.symm, rfl⟩
    exact of_decide_eq_true (List.mem_takeWhile_imp (p := (· ≠ '\n')) hmem) rfl

/-- **`getline`** takes the first line that is left, or fails if there is none. -/
theorem getline_spec (str : IStream) (line : List Char) :
    (str.remaining = [] ∧ (str.getline line).2.fail = true) ∨
      (str.remaining = (str.getline line).1 :: (str.getline line).2.remaining ∧
        (str.getline line).2.fail = false) := by
  cases hgood : str.good with
  | false =>
    refine .inl ⟨?_, ?_⟩
    · rw [remaining, hgood, if_neg Bool.false_ne_true]
    · rw [getline_of_not_good hgood]
  | true =>
    have hfail : str.fail = false := by
      rw [good, Bool.and_eq_true, Bool.not_eq_true', Bool.not_eq_true'] at hgood
      exact hgood.2
    have hremaining : str.remaining = lines str.rest := if_pos hgood
    rw [hremaining]
    rcases getline_of_good hgood line with ⟨l, rest, hl, hrest, heq⟩ | ⟨hnot, heq⟩
    · rw [heq, hrest, lines_append hl]
      exact .inr ⟨congrArg (l :: ·) (if_pos hgood).symm, hfail⟩
    · rw [heq]
      cases hrest : str.rest with
      | nil => exact .inl ⟨rfl, rfl⟩
      | cons c rest =>
        rw [hrest] at hnot
        exact .inr ⟨lines_last hnot (List.cons_ne_nil c rest), rfl⟩

/-- A line and the rest of the stream stay below a bound of its length. -/
theorem getline_length (str : IStream) (line : List Char) {n : ℕ} (hline : line.length < n)
    (hrest : str.rest.length < n) :
    (str.getline line).1.length < n ∧ (str.getline line).2.rest.length < n := by
  cases hgood : str.good with
  | false =>
    rw [getline_of_not_good hgood]
    exact ⟨hline, hrest⟩
  | true =>
    rcases getline_of_good hgood line with ⟨l, rest, -, hsplit, heq⟩ | ⟨-, heq⟩
    · rw [hsplit, List.length_append, List.length_cons] at hrest
      rw [heq]
      show l.length < n ∧ rest.length < n
      omega
    · rw [heq]
      exact ⟨hrest, Nat.zero_lt_of_lt hrest⟩

/-- **All lines** are read, given enough fuel. -/
theorem getlines_eq (hfuel : str.remaining.length < fuel) (line : List Char)
    (ls : List (List Char)) : getlines fuel str line ls = some (ls ++ str.remaining) := by
  induction fuel generalizing str line ls with
  | zero => cases hfuel
  | succ fuel ih =>
    show (if (str.getline line).2.fail then some ls
      else getlines fuel (str.getline line).2 _ (ls ++ [(str.getline line).1])) = _
    rcases getline_spec str line with ⟨hnil, hfail⟩ | ⟨hcons, hfail⟩
    · rw [if_pos hfail, hnil, List.append_nil]
    · rw [hcons] at hfuel
      rw [if_neg (Bool.eq_false_iff.1 hfail), ih (Nat.lt_of_succ_lt_succ hfuel), hcons,
        List.append_assoc, List.singleton_append]

end IStream

end TextStream
