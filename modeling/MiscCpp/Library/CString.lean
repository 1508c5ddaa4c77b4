import Mathlib.Data.List.Infix
import Mathlib.Data.List.TakeWhile
import Mathlib.Tactic.Common

/-!
# Strings of C

Bytes up to a zero, and what the functions of `<string.h>` and the words of `scanf` make of them. A
string is the list of its bytes without the zero.
-/

namespace CString

/-- A literal, in ASCII. -/
def ascii (s : String) : List UInt8 := s.toList.map fun c ↦ UInt8.ofNat c.toNat

/-- The string in a buffer. -/
def text (buf : List UInt8) : List UInt8 := buf.takeWhile (· ≠ 0)

/-- `isspace` in the locale `"C"`. -/
def isspace (b : UInt8) : Bool := b = 32 ∨ 9 ≤ b ∧ b ≤ 13

/-- `tolower` of one character, in the C locale. -/
def tolower (b : UInt8) : UInt8 := if 65 ≤ b ∧ b ≤ 90 then b + 32 else b

/-- `!strcasecmp(s, t)` -/
def sameLetters (s t : List UInt8) : Bool := s.map tolower = t.map tolower

/-- `strstr(s, needle) != NULL` -/
def strstr (s needle : List UInt8) : Bool := needle <:+: s

/-- What `scanf` stores for `n` directives `"%s"`, as far as it gets. -/
def scanWords : ℕ → List UInt8 → List (List UInt8)
  | 0, _ => []
  | n + 1, s =>
    let s := s.dropWhile isspace
    if s = [] then []
    else s.takeWhile (!isspace ·) :: scanWords n (s.dropWhile (!isspace ·))

variable {s : List UInt8}

/-- The text of a string ends with its zero. -/
theorem text_append_zero (h : 0 ∉ s) (more : List UInt8) : text (s ++ 0 :: more) = s := by
  rw [text, List.takeWhile_append_of_pos fun b hb ↦ decide_eq_true (ne_of_mem_of_not_mem hb h),
    List.takeWhile_cons, if_neg (by decide), List.append_nil]

/-- A zero behind the end of a buffer adds nothing. -/
theorem text_concat_zero (buf : List UInt8) : text (buf ++ [0]) = text buf := by
  rcases em (0 ∈ buf) with hmem | hmem
  · rw [text, List.takeWhile_append, if_neg, text]
    intro hlength
    have hall := List.takeWhile_eq_self_iff.1 ((List.takeWhile_prefix _).eq_of_length hlength)
    exact absurd (hall 0 hmem) (by decide)
  · rw [text_append_zero hmem, text, List.takeWhile_eq_self_iff.2]
    exact fun b hb ↦ decide_eq_true (ne_of_mem_of_not_mem hb hmem)

end CString
