import Mathlib.Order.Fin.Basic
import MiscCpp.Library.Access
import MiscCpp.Library.CInt
import MiscCpp.Library.DistinctBlocks

/-!
# The longest substring without a repetition

`lengthOfLongestSubstring` of `leetcode/other/longestSubstrWithoutRepeat.cc`, for strings over the
characters `0` to `127`.

When a character is repeated, the window starts behind the repetition and not behind the first
occurrence. So the windows are the blocks of the string (`loop_spec`), and the result is right
exactly if one of these is a longest substring (`findsLongest_iff`).
-/

open Access CInt DistinctBlocks

namespace LongestSubstrWithoutRepeat

/-- The characters `0` to `127`. -/
abbrev Ascii := Fin 128

structure State where
  dict : List ℤ
  res : ℤ
  start : ℤ

/-- The body of the loop, for the character at `i`. -/
def turn (st : State) (i : ℤ) (c : Ascii) : Option State := do
  let start := if st.start < (← get st.dict c.1) then i else st.start
  let dict ← put st.dict c.1 i
  some ⟨dict, max st.res (← fit (i - start)), start⟩

/-- The loop, from `i` on. -/
def loop : List Ascii → ℤ → State → Option ℤ
  | [], _, st => some st.res
  | c :: s, i, st => do
    let st ← turn st i c
    loop s (← fit (i + 1)) st

def lengthOfLongestSubstring (s : List Ascii) : Option ℤ :=
  loop s 0 ⟨List.replicate 256 (-1), 0, -1⟩

/-! ### The loop -/

variable {s b : List Ascii} {dict : List ℤ} {start i : ℤ} {m : ℕ} {st : State} {c : Ascii}

/-- The table tells which characters are in the window `b`, which begins behind `start` and ends in
front of `i`. -/
structure Holds (dict : List ℤ) (start i : ℤ) (b : List Ascii) : Prop where
  index : i = start + 1 + b.length
  entry : ∀ c : Ascii, ∃ d, get dict c.1 = some d ∧ d < i ∧ (start < d ↔ c ∈ b)

/-- The new entry of a character that is repeated, or not. -/
theorem Holds.set (h : Holds dict start i b) (c : Ascii) :
    (c ∈ b → Holds (dict.set c.1 i) i (i + 1) []) ∧
      (c ∉ b → Holds (dict.set c.1 i) start (i + 1) (b ++ [c])) := by
  obtain ⟨d, hd, hlt, -⟩ := h.entry c
  have hself : get (dict.set c.1 i) c.1 = some i := get_set_self hd i
  have hne {e : Ascii} (hec : e ≠ c) : get (dict.set c.1 i) e.1 = get dict e.1 :=
    get_set_ne (Int.natCast_nonneg _) (fun heq ↦ hec (Fin.ext (Int.ofNat.inj heq))) i
  have hindex := h.index
  refine ⟨fun _ ↦ ⟨?_, fun e ↦ ?_⟩, fun hc ↦ ⟨?_, fun e ↦ ?_⟩⟩
  · rw [List.length_nil]
    omega
  · by_cases hec : e = c
    · obtain rfl := hec
      exact ⟨i, hself, by omega, iff_of_false (by omega) List.not_mem_nil⟩
    · obtain ⟨d, hd, hlt, -⟩ := h.entry e
      exact ⟨d, (hne hec).trans hd, by omega, iff_of_false (by omega) List.not_mem_nil⟩
  · rw [List.length_append, List.length_singleton]
    omega
  · by_cases hec : e = c
    · obtain rfl := hec
      exact ⟨i, hself, by omega, iff_of_true (by omega)
        (List.mem_append_right b (List.mem_singleton_self e))⟩
    · obtain ⟨d, hd, hlt, hiff⟩ := h.entry e
      refine ⟨d, (hne hec).trans hd, by omega, hiff.trans ?_⟩
      rw [List.mem_append, List.mem_singleton, or_iff_left hec]

/-- One turn, with the window that begins behind a repetition. -/
theorem turn_eq (h : Holds dict start i b) (hstart : -1 ≤ start) (hi : i + 1 < 2 ^ 31)
    (c : Ascii) : turn ⟨dict, m, start⟩ i c =
      if c ∈ b then some ⟨dict.set c.1 i, m, i⟩
      else some ⟨dict.set c.1 i, (max m (b.length + 1) : ℕ), start⟩ := by
  obtain ⟨d, hd, hlt, hiff⟩ := h.entry c
  have hindex := h.index
  rw [turn, hd, Option.bind_eq_bind, Option.bind_some]
  dsimp only
  rw [put_eq hd]
  by_cases hc : c ∈ b
  · rw [if_pos (hiff.2 hc), if_pos hc, Option.bind_eq_bind, Option.bind_some, sub_self,
      fit_eq (by decide), Option.bind_some, max_eq_left (Int.natCast_nonneg m)]
    rfl
  · have hlength : max (m : ℤ) (i - start) = ((max m (b.length + 1) : ℕ) : ℤ) := by
      rw [hindex]
      omega
    rw [if_neg (mt hiff.1 hc), if_neg hc, Option.bind_eq_bind, Option.bind_some,
      fit_eq (by omega), Option.bind_some, hlength]
    rfl

/-- **The windows** are the blocks. -/
theorem loop_spec (h : Holds dict start i b) (hstart : -1 ≤ start) (hb : b.length ≤ m)
    (hlen : i + s.length < 2 ^ 31) :
    ∃ r : ℕ, loop s i ⟨dict, m, start⟩ = some ↑r ∧
      IsGreatest {k | k = m ∨ ∃ v ∈ cut b s, v.length = k} r := by
  induction s generalizing dict start i b m with
  | nil =>
    refine ⟨m, rfl, Or.inl rfl, fun k hk ↦ ?_⟩
    rcases hk with rfl | ⟨v, hv, rfl⟩
    · exact le_rfl
    · exact List.mem_singleton.1 hv ▸ hb
  | cons c s ih =>
    rw [List.length_cons] at hlen
    obtain ⟨hrepeat, hnew⟩ := h.set c
    have hfit : fit (i + 1) = some (i + 1) := by
      have hindex := h.index
      exact fit_eq (by omega)
    rw [loop, turn_eq h hstart (by omega), cut]
    by_cases hc : c ∈ b
    · have hindex := h.index
      obtain ⟨r, hr, hmem, hupper⟩ := ih (hrepeat hc) (by omega) (Nat.zero_le m) (by omega)
      rw [if_pos hc, if_pos hc, Option.bind_eq_bind, Option.bind_some, hfit, Option.bind_eq_bind,
        Option.bind_some]
      refine ⟨r, hr, hmem.imp_right ?_, fun k hk ↦ ?_⟩
      · rintro ⟨v, hv, hk⟩
        exact ⟨v, List.mem_cons_of_mem b hv, hk⟩
      · rcases hk with rfl | ⟨v, hv, rfl⟩
        · exact hupper (Or.inl rfl)
        · rcases List.mem_cons.1 hv with rfl | hv
          · exact hb.trans (hupper (Or.inl rfl))
          · exact hupper (Or.inr ⟨v, hv, rfl⟩)
    · obtain ⟨r, hr, hmem, hupper⟩ := ih (m := max m (b.length + 1)) (hnew hc) hstart
        (by rw [List.length_append]; exact le_max_right _ _) (by omega)
      rw [if_neg hc, if_neg hc, Option.bind_eq_bind, Option.bind_some, hfit, Option.bind_eq_bind,
        Option.bind_some]
      have hmax := hupper (Or.inl rfl)
      refine ⟨r, hr, ?_, fun k hk ↦ ?_⟩
      · -- The block that is read is at least as long as what has been read of it.
        obtain ⟨v, hv, hle⟩ := exists_mem_cut (b ++ [c]) s
        have hvr := hupper (Or.inr ⟨v, hv, rfl⟩)
        rw [List.length_append, List.length_singleton] at hle
        rcases hmem with heq | hmem
        · rcases le_total (b.length + 1) m with h | h
          · exact Or.inl (heq.trans (Nat.max_eq_left h))
          · exact Or.inr ⟨v, hv, le_antisymm hvr (by omega)⟩
        · exact Or.inr hmem
      · rcases hk with rfl | ⟨v, hv, rfl⟩
        · exact (le_max_left k _).trans hmax
        · exact hupper (Or.inr ⟨v, hv, rfl⟩)

/-- The index gets to no value that is not one of an `int`. -/
theorem loop_eq_none (hi : i < 2 ^ 31) (hlen : 2 ^ 31 ≤ i + s.length) : loop s i st = none := by
  induction s generalizing i st with
  | nil =>
    rw [List.length_nil] at hlen
    omega
  | cons c s ih =>
    rw [List.length_cons] at hlen
    rw [loop, Option.bind_eq_bind, Option.bind_eq_none_iff]
    intro st' _
    rw [Option.bind_eq_bind, Option.bind_eq_none_iff]
    intro j hj
    obtain ⟨rfl, -, hlt⟩ := fit_eq_some hj
    exact ih hlt (by omega)

/-! ### The function -/

/-- The greatest length of a substring without a repetition is returned. -/
def FindsLongest (s : List Ascii) : Prop :=
  ∃ n : ℕ, lengthOfLongestSubstring s = some ↑n ∧ IsGreatest (lengths s) n

theorem exists_lengthOfLongestSubstring (hlen : s.length < 2 ^ 31) :
    ∃ r : ℕ, lengthOfLongestSubstring s = some ↑r ∧
      IsGreatest {k | ∃ v ∈ blocks s, v.length = k} r := by
  have hholds : Holds (List.replicate 256 (-1)) (-1) 0 [] := by
    refine ⟨rfl, fun c ↦ ⟨-1, ?_, by decide, iff_of_false (lt_irrefl _) List.not_mem_nil⟩⟩
    rw [get_natCast, List.getElem?_replicate, if_pos (by omega)]
  obtain ⟨r, hr, hmem, hupper⟩ := loop_spec (s := s) (m := 0) hholds le_rfl le_rfl (by omega)
  refine ⟨r, hr, ?_, fun k hk ↦ hupper (Or.inr hk)⟩
  rcases hmem with rfl | hmem
  · obtain ⟨v, hv, -⟩ := exists_mem_cut [] s
    exact ⟨v, hv, Nat.le_zero.1 (hupper (Or.inr ⟨v, hv, rfl⟩))⟩
  · exact hmem

theorem FindsLongest.exists_block (h : FindsLongest s) : s.length < 2 ^ 31 ∧
    ∃ b ∈ blocks s, ∀ v, v <:+: s → v.Nodup → v.length ≤ b.length := by
  obtain ⟨n, hn, hgreatest⟩ := h
  by_cases hlen : s.length < 2 ^ 31
  · obtain ⟨r, hr, ⟨b, hb, hbr⟩, -⟩ := exists_lengthOfLongestSubstring hlen
    obtain rfl : r = n := Int.ofNat.inj (Option.some.inj (hr.symm.trans hn))
    exact ⟨hlen, b, hb, fun v hv hnodup ↦ hbr ▸ hgreatest.2 ⟨v, hv, hnodup, rfl⟩⟩
  · rw [lengthOfLongestSubstring, loop_eq_none (by decide) (by omega)] at hn
    cases hn

/-- **`lengthOfLongestSubstring`** returns the greatest length exactly if it is that of a block,
and the length of the string is a value of an `int`. -/
theorem findsLongest_iff (s : List Ascii) :
    FindsLongest s ↔ s.length < 2 ^ 31 ∧
      ∃ b ∈ blocks s, ∀ v, v <:+: s → v.Nodup → v.length ≤ b.length := by
  refine ⟨FindsLongest.exists_block, ?_⟩
  rintro ⟨hlen, b, hb, hlongest⟩
  obtain ⟨r, hr, ⟨v, hv, rfl⟩, hupper⟩ := exists_lengthOfLongestSubstring hlen
  refine ⟨v.length, hr, ⟨v, infix_of_mem_blocks hv, nodup_of_mem_blocks hv, rfl⟩, ?_⟩
  rintro k ⟨w, hw, hnodup, rfl⟩
  exact (hlongest w hw hnodup).trans (hupper ⟨b, hb, rfl⟩)

/-- The string `dvdf`. -/
theorem not_forall_findsLongest : ¬ ∀ s, FindsLongest s := by
  intro h
  obtain ⟨-, b, hb, hlongest⟩ := (h [100, 118, 100, 102]).exists_block
  have hle : ∀ b ∈ blocks ([100, 118, 100, 102] : List Ascii), b.length ≤ 2 := by decide
  have hlength := hlongest [118, 100, 102] ⟨[100], [], rfl⟩ (by decide)
  exact absurd (hlength.trans (hle b hb)) (by decide)

end LongestSubstrWithoutRepeat
