import MiscCpp.Library.Access
import MiscCpp.Library.CInt
import MiscCpp.Library.Palindromes
import MiscCpp.Library.WhileLoop

/-!
# The longest palindrome

`longestPalindrome` of `leetcode/other/longestPalindromicSubstr.cc`, with its positions of type
`int`; none of them is negative, so they are compared with sizes as they are.

A turn takes the widest palindrome around a run (`turn_spec`) and goes on behind the run. What is
left when the loop breaks off is too short for a longer one (`Holds.le_of_continues`). The runs that
are looked at are those in front of half of the longest palindrome from the end, so one can say for
which strings no position overflows (`longestPalindrome_iff`).
-/

open Access CInt Palindromes

namespace LongestPalindrome

/-! ### The program -/

/-- The condition of the first inner loop. -/
def skips (s : List Char) (right : ℤ) : Option Bool :=
  if right < s.length - 1 then do
    some ((← get s (← fit (right + 1))) == (← get s right))
  else some false

/-- The condition of the second one, for `left` and `right`. -/
def widens (s : List Char) (ends : ℤ × ℤ) : Option Bool :=
  if ends.2 < s.length - 1 ∧ 0 < ends.1 then do
    some ((← get s (← fit (ends.2 + 1))) == (← get s (ends.1 - 1)))
  else some false

/-- `++right; --left;` -/
def widen (ends : ℤ × ℤ) : Option (ℤ × ℤ) := do
  let right ← fit (ends.2 + 1)
  some (ends.1 - 1, right)

/-- The middle of the next palindrome, and the start and length of the longest one. -/
structure State where
  mid : ℤ
  start : ℤ
  len : ℤ

/-- The body of the outer loop behind the `break`. -/
def turn (fuel : ℕ) (s : List Char) (st : State) : Option State := do
  let right ← WhileLoop.run (skips s) (fun right ↦ fit (right + 1)) fuel st.mid
  let mid ← fit (right + 1)
  let (left, right) ← WhileLoop.run (widens s) widen fuel (st.mid, right)
  let len ← fit ((← fit (right - left)) + 1)
  if st.len < len then some ⟨mid, left, len⟩ else some ⟨mid, st.start, st.len⟩

/-- `mid < s.size()`, and the loop is not left by `break`. -/
def continues (s : List Char) (st : State) : Option Bool :=
  some (decide (st.mid < s.length ∧ ¬ s.length - st.mid ≤ st.len.tdiv 2))

/-- `longestPalindrome(s)`, by the runs of equal characters that palindromes grow from. -/
def longestPalindrome (fuel : ℕ) (s : List Char) : Option (List Char) :=
  if s.isEmpty then some []
  else if s.length = 1 then some s
  else do
    let st ← WhileLoop.run (continues s) (turn fuel s) fuel ⟨0, 0, 1⟩
    substr s st.start st.len

example : longestPalindrome 20 "zxcqqaehaha".toList = some "hah".toList := by decide +kernel

/-! ### The inner loops -/

variable {s : List Char} {p q l r m fuel k : ℕ} {st st' : State}

theorem same_eq {i j : ℕ} (hi : i < s.length) (hj : j < s.length) :
    ((get s i).bind fun x ↦ (get s j).bind fun y ↦ some (x == y)) =
      some (decide (s[i]? = s[j]?)) := by
  simp only [get_natCast, List.getElem?_eq_getElem hi, List.getElem?_eq_getElem hj,
    Option.bind_some, Option.some_inj]
  rw [Bool.eq_iff_iff, beq_iff_eq, decide_eq_true_iff]

/-- The first loop compares two neighbours. -/
theorem skips_eq (hk : k + 1 < s.length) (hlt : k + 1 < 2 ^ 31) :
    skips s k = some (decide (s[k + 1]? = s[k]?)) := by
  rw [skips, if_pos (by omega), fit_eq (by omega)]
  exact same_eq hk (by omega)

theorem skips_last (hk : k + 1 = s.length) : skips s k = some false := if_neg (by omega)

theorem lt_of_skips {c : Bool} (hk : k + 1 < s.length) (h : skips s k = some c) :
    k + 1 < 2 ^ 31 := by
  rw [skips, if_pos (by omega)] at h
  obtain ⟨x, hx, -⟩ := Option.bind_eq_some_iff.1 h
  have hbounds := (fit_eq_some hx).2
  omega

/-- The positions of the run that have been reached. -/
def Skipped (s : List Char) (p : ℕ) (right : ℤ) : Prop :=
  ∃ k : ℕ, right = k ∧ p ≤ k ∧ k < s.length ∧ ∀ i, p ≤ i → i ≤ k → s[i]? = s[p]?

/-- One more character of the run is skipped. -/
theorem Skipped.next {right right' : ℤ} (h : Skipped s p right)
    (hcond : skips s right = some true) (hbody : fit (right + 1) = some right') :
    Skipped s p right' := by
  obtain ⟨k, rfl, hpk, hk, heq⟩ := h
  have hlt : k + 1 < s.length := by
    by_contra hge
    rw [skips_last (by omega)] at hcond
    cases hcond
  rw [skips_eq hlt (lt_of_skips hlt hcond), Option.some_inj, decide_eq_true_iff] at hcond
  refine ⟨k + 1, (fit_eq_some hbody).1, by omega, hlt, fun i hi hi' ↦ ?_⟩
  rcases hi'.lt_or_eq with hi' | rfl
  · exact heq i hi (Nat.le_of_lt_succ hi')
  · rw [hcond, heq k hpk le_rfl]

/-- **The first inner loop** ends at the end of the run. -/
theorem isRun_of_skip {right : ℤ} (hp : p < s.length) (hstart : IsStart s p)
    (h : WhileLoop.run (skips s) (fun right ↦ fit (right + 1)) fuel p = some right) :
    ∃ q : ℕ, right = q ∧ IsRun s p q := by
  have hfirst : Skipped s p p := ⟨p, rfl, le_rfl, hp, fun i hi hi' ↦ by rw [hi'.antisymm hi]⟩
  obtain ⟨⟨k, rfl, hpk, hk, heq⟩, hstop⟩ :=
    WhileLoop.run_invariant (fun _ _ ↦ Skipped.next) hfirst h
  refine ⟨k, rfl, hpk, hk, heq, hstart, ?_⟩
  rcases (Nat.succ_le_of_lt hk).lt_or_eq with hlt | hlast
  · rw [skips_eq hlt (lt_of_skips hlt hstop), Option.some_inj, decide_eq_false_iff_not,
      heq k hpk le_rfl] at hstop
    exact hstop
  · rw [List.getElem?_eq_none hlast.ge, List.getElem?_eq_getElem hp]
    exact (Option.some_ne_none _).symm

/-- The first loop ends with the run. -/
theorem exists_skip (hrun : IsRun s p q) (hq : q + 1 < 2 ^ 31) (hfuel : s.length ≤ fuel) :
    WhileLoop.run (skips s) (fun right ↦ fit (right + 1)) fuel p = some (q : ℤ) := by
  have hlt := hrun.lt
  have heq {k : ℕ} (hpk : p ≤ k) (hkq : k < q) : skips s k = some true := by
    rw [skips_eq (by omega) (by omega), hrun.eq (k + 1) (by omega) hkq, hrun.eq k hpk hkq.le,
      decide_eq_true rfl]
  have hlast : skips s q = some false := by
    rcases (Nat.succ_le_of_lt hlt).lt_or_eq with hk | hk
    · rw [skips_eq hk hq,
        decide_eq_false fun h ↦ hrun.stop (h.trans (hrun.eq q hrun.le le_rfl))]
    · exact skips_last hk
  have hstep (right : ℤ) (h : ∃ k : ℕ, right = k ∧ p ≤ k ∧ k ≤ q) :
      skips s right = some false ∨
        skips s right = some true ∧ ∃ right', fit (right + 1) = some right' ∧
          (∃ k : ℕ, right' = k ∧ p ≤ k ∧ k ≤ q) ∧ q - right'.toNat < q - right.toNat := by
    obtain ⟨k, rfl, hpk, hkq⟩ := h
    rcases hkq.lt_or_eq with hkq | rfl
    · refine .inr ⟨heq hpk hkq, (k + 1 : ℕ), fit_eq (by omega), ⟨k + 1, rfl, by omega, hkq⟩, ?_⟩
      omega
    · exact .inl hlast
  obtain ⟨right, hloop, ⟨k, rfl, hpk, hkq⟩, hstop⟩ :=
    WhileLoop.exists_run (fun right : ℤ ↦ q - right.toNat) hstep ⟨p, rfl, le_rfl, hrun.le⟩
      (by omega : q - (p : ℤ).toNat < fuel)
  rcases hkq.lt_or_eq with hkq | rfl
  · rw [heq hpk hkq] at hstop
    cases hstop
  · exact hloop

/-- The second loop compares the characters on both sides. -/
theorem widens_eq (hr : r + 1 < s.length) (hl : l ≤ r) (hlt : r + 1 < 2 ^ 31) :
    widens s ((l + 1 : ℕ), r) = some (decide (s[r + 1]? = s[l]?)) := by
  have hleft : ((l + 1 : ℕ) : ℤ) - 1 = l := by omega
  rw [widens, if_pos ⟨by omega, by omega⟩, hleft, fit_eq (by omega)]
  exact same_eq hr (by omega)

/-- The second loop ends at the ends of the string. -/
theorem widens_stop (h : r + 1 = s.length ∨ l = 0) : widens s (l, r) = some false :=
  if_neg (by omega)

theorem lt_of_widens {c : Bool} (hr : r + 1 < s.length)
    (h : widens s ((l + 1 : ℕ), r) = some c) : r + 1 < 2 ^ 31 := by
  rw [widens, if_pos ⟨by omega, by omega⟩] at h
  obtain ⟨x, hx, -⟩ := Option.bind_eq_some_iff.1 h
  have hbounds := (fit_eq_some hx).2
  omega

/-- The palindrome grows by one character on both sides. -/
theorem widen_eq (hlt : r + 1 < 2 ^ 31) :
    widen (((l + 1 : ℕ) : ℤ), (r : ℤ)) = some ((l : ℤ), ((r + 1 : ℕ) : ℤ)) := by
  rw [widen, fit_eq (by dsimp only; omega), Option.bind_eq_bind, Option.bind_some]
  congr 2
  omega

/-- The palindromes around the run that have been reached. -/
def Widened (s : List Char) (p q : ℕ) (ends : ℤ × ℤ) : Prop :=
  ∃ l r : ℕ, ends = (↑l, ↑r) ∧ IsPalindrome s l r ∧ l + r = p + q ∧ l ≤ p ∧ r < 2 ^ 31

/-- A palindrome that grows is one. -/
theorem Widened.next {ends ends' : ℤ × ℤ} (h : Widened s p q ends)
    (hcond : widens s ends = some true) (hbody : widen ends = some ends') :
    Widened s p q ends' := by
  obtain ⟨l, r, rfl, hpal, hcentre, hlp, hr⟩ := h
  have hlt := hpal.lt
  have hle := hpal.le
  have hnot : ¬ (r + 1 = s.length ∨ l = 0) := by
    intro hstop
    rw [widens_stop hstop] at hcond
    cases hcond
  obtain ⟨l, rfl⟩ : ∃ k, l = k + 1 := ⟨l - 1, by omega⟩
  have hrlt := lt_of_widens (by omega) hcond
  rw [widens_eq (by omega) (by omega) hrlt, Option.some_inj, decide_eq_true_iff] at hcond
  refine ⟨l, r + 1, ?_, hpal.expand (by omega) hcond.symm, by omega, by omega, hrlt⟩
  exact Option.some.inj (hbody.symm.trans (widen_eq hrlt))

/-- **The second inner loop** ends with the widest palindrome. -/
theorem isWidest_of_widen {ends : ℤ × ℤ} (hrun : IsRun s p q) (hq : q < 2 ^ 31)
    (h : WhileLoop.run (widens s) widen fuel (↑p, ↑q) = some ends) :
    ∃ l r : ℕ, ends = (↑l, ↑r) ∧ IsWidest s p q l r ∧ r < 2 ^ 31 ∧
      (r + 1 < s.length → 0 < l → r + 1 < 2 ^ 31) := by
  have hfirst : Widened s p q (↑p, ↑q) := ⟨p, q, rfl, hrun.isPalindrome, rfl, le_rfl, hq⟩
  obtain ⟨⟨l, r, rfl, hpal, hcentre, hlp, hr⟩, hstop⟩ :=
    WhileLoop.run_invariant (fun _ _ ↦ Widened.next) hfirst h
  refine ⟨l, r, rfl, ⟨hpal, hcentre, hlp, ?_⟩, hr, ?_⟩
  · rintro i rfl
    rcases (Nat.succ_le_of_lt hpal.lt).lt_or_eq with hlt | hlast
    · have hle := hpal.le
      rw [widens_eq hlt (by omega) (lt_of_widens hlt hstop), Option.some_inj,
        decide_eq_false_iff_not] at hstop
      exact fun heq ↦ hstop heq.symm
    · have hi : i < s.length := by
        have hle := hpal.le
        omega
      rw [List.getElem?_eq_none (i := r + 1) hlast.ge, List.getElem?_eq_getElem hi]
      exact Option.some_ne_none _
  · intro hlt hpos
    obtain ⟨l, rfl⟩ : ∃ k, l = k + 1 := ⟨l - 1, by omega⟩
    exact lt_of_widens hlt hstop

/-- The second loop ends with the widest palindrome around the run. -/
theorem exists_widen (hrun : IsRun s p q) (hwidest : IsWidest s p q l r) (hr : r < 2 ^ 31)
    (hover : r + 1 < s.length → 0 < l → r + 1 < 2 ^ 31) (hfuel : s.length ≤ fuel) :
    WhileLoop.run (widens s) widen fuel (↑p, ↑q) = some ((l : ℤ), (r : ℤ)) := by
  have hlt := hwidest.palindrome.lt
  have hlr := hwidest.palindrome.le
  have hcentre := hwidest.centre
  have hrunlt := hrun.lt
  have hle := hrun.le
  have heq {l' r' : ℕ} (hl : l ≤ l') (hlp : l' + 1 ≤ p) (hsum : l' + 1 + r' = p + q) :
      widens s ((l' + 1 : ℕ), r') = some true := by
    rw [widens_eq (by omega) (by omega) (by omega), Option.some_inj, decide_eq_true_iff]
    exact hwidest.palindrome.mirror (r' + 1) l' (by omega) (by omega) (by omega)
  have hlast : widens s (l, r) = some false := by
    by_cases hstop : r + 1 = s.length ∨ l = 0
    · exact widens_stop hstop
    · obtain ⟨l, rfl⟩ : ∃ k, l = k + 1 := ⟨l - 1, by omega⟩
      rw [widens_eq (by omega) (by omega) (hover (by omega) (by omega)), Option.some_inj,
        decide_eq_false_iff_not]
      exact fun heq ↦ hwidest.stop l rfl heq.symm
  have hstep (ends : ℤ × ℤ)
      (h : ∃ l' r' : ℕ, ends = (↑l', ↑r') ∧ l ≤ l' ∧ l' ≤ p ∧ l' + r' = p + q) :
      widens s ends = some false ∨ widens s ends = some true ∧ ∃ ends', widen ends = some ends' ∧
        (∃ l' r' : ℕ, ends' = (↑l', ↑r') ∧ l ≤ l' ∧ l' ≤ p ∧ l' + r' = p + q) ∧
          ends'.1.toNat < ends.1.toNat := by
    obtain ⟨l', r', rfl, hl, hlp, hsum⟩ := h
    rcases hl.lt_or_eq with hl | rfl
    · obtain ⟨l', rfl⟩ : ∃ k, l' = k + 1 := ⟨l' - 1, by omega⟩
      refine .inr ⟨heq (by omega) hlp hsum, _, widen_eq (by omega),
        ⟨l', r' + 1, rfl, by omega, by omega, by omega⟩, ?_⟩
      dsimp only
      omega
    · obtain rfl : r' = r := by omega
      exact .inl hlast
  obtain ⟨ends, hloop, ⟨l', r', rfl, hl, hlp, hsum⟩, hstop⟩ :=
    WhileLoop.exists_run (fun ends : ℤ × ℤ ↦ ends.1.toNat) hstep
      ⟨p, q, rfl, hwidest.le, le_rfl, rfl⟩ (by omega : (p : ℤ).toNat < fuel)
  rcases hl.lt_or_eq with hl | rfl
  · obtain ⟨l', rfl⟩ : ∃ k, l' = k + 1 := ⟨l' - 1, by omega⟩
    rw [heq (by omega) hlp hsum] at hstop
    cases hstop
  · obtain rfl : r' = r := by omega
    exact hloop

/-! ### A turn -/

/-- No position around the run overflows. -/
structure Fits (s : List Char) (q l r : ℕ) : Prop where
  mid : q + 1 < 2 ^ 31
  right : r < 2 ^ 31 - 1 ∨ r = 2 ^ 31 - 1 ∧ s.length = 2 ^ 31
  len : r - l + 1 < 2 ^ 31

/-- The state after the turn for a run. -/
def next (st : State) (q l r : ℕ) : State :=
  if st.len < (r - l + 1 : ℕ) then ⟨(q + 1 : ℕ), l, (r - l + 1 : ℕ)⟩
  else ⟨(q + 1 : ℕ), st.start, st.len⟩

/-- **A turn** passes a run and finds its widest palindrome. -/
theorem turn_eq (hmid : st.mid = p) (hrun : IsRun s p q) (hwidest : IsWidest s p q l r)
    (hfits : Fits s q l r) (hfuel : s.length ≤ fuel) : turn fuel s st = some (next st q l r) := by
  have hmidlt := hfits.mid
  have hright := hfits.right
  have hlen := hfits.len
  have hle := hwidest.palindrome.le
  have hlt := hwidest.palindrome.lt
  have hmid' : fit ((q : ℤ) + 1) = some ((q + 1 : ℕ) : ℤ) :=
    (fit_eq (by omega)).trans (congrArg some (by omega))
  have hdiff : fit ((r : ℤ) - l) = some ((r - l : ℕ) : ℤ) :=
    (fit_eq (by omega)).trans (congrArg some (by omega))
  have hlen' : fit (((r - l : ℕ) : ℤ) + 1) = some ((r - l + 1 : ℕ) : ℤ) :=
    (fit_eq (by omega)).trans (congrArg some (by omega))
  have hwiden := exists_widen hrun hwidest (by omega) (by omega) hfuel
  rw [turn, hmid]
  refine Option.bind_eq_some_iff.2 ⟨_, exists_skip hrun hmidlt hfuel,
    Option.bind_eq_some_iff.2 ⟨_, hmid', Option.bind_eq_some_iff.2 ⟨_, hwiden,
      Option.bind_eq_some_iff.2 ⟨_, hdiff, Option.bind_eq_some_iff.2 ⟨_, hlen', ?_⟩⟩⟩⟩⟩
  rw [next]
  split <;> rfl

/-- A turn that is defined has passed a run without overflow. -/
theorem fits_of_turn (hmid : st.mid = p) (hp : p < s.length) (hstart : IsStart s p)
    (h : turn fuel s st = some st') :
    ∃ q l r, IsRun s p q ∧ IsWidest s p q l r ∧ Fits s q l r ∧ st' = next st q l r := by
  rw [turn, hmid] at h
  obtain ⟨right, hskip, h⟩ := Option.bind_eq_some_iff.1 h
  obtain ⟨q, rfl, hrun⟩ := isRun_of_skip hp hstart hskip
  obtain ⟨mid, hmid', h⟩ := Option.bind_eq_some_iff.1 h
  obtain ⟨hmid', hmidlt⟩ := fit_eq_some hmid'
  obtain ⟨ends, hwiden, h⟩ := Option.bind_eq_some_iff.1 h
  obtain ⟨l, r, rfl, hwidest, hr, hover⟩ := isWidest_of_widen hrun (by omega) hwiden
  obtain ⟨diff, hdiff, h⟩ := Option.bind_eq_some_iff.1 h
  obtain ⟨len, hlen, h⟩ := Option.bind_eq_some_iff.1 h
  obtain ⟨hdiff, -⟩ := fit_eq_some hdiff
  obtain ⟨hlen, hlenlt⟩ := fit_eq_some hlen
  have hle := hwidest.palindrome.le
  have hlt := hwidest.palindrome.lt
  have hlen' : len = (r - l + 1 : ℕ) := by omega
  have hmid'' : mid = (q + 1 : ℕ) := by omega
  refine ⟨q, l, r, hrun, hwidest, ⟨by omega, by omega, by omega⟩, ?_⟩
  rw [hlen', hmid''] at h
  rw [next, ← Option.some_inj, ← h]
  split <;> rfl

/-! ### The outer loop -/

/-- Before the turn for `m`, which is the beginning of a run. -/
structure Holds (s : List Char) (m : ℕ) (st : State) : Prop where
  mid : st.mid = m
  start : IsStart s m
  best : ∃ l r, IsPalindrome s l r ∧ st.start = l ∧ st.len = (r - l + 1 : ℕ) ∧ r < 2 ^ 31
  done : ∀ p q l r, IsRun s p q → p < m → IsWidest s p q l r →
    Fits s q l r ∧ ((r - l + 1 : ℕ) : ℤ) ≤ st.len

theorem holds_zero (hs : 0 < s.length) : Holds s 0 ⟨0, 0, 1⟩ where
  mid := rfl
  start i hi := absurd hi (Nat.succ_ne_zero i)
  best := by
    refine ⟨0, 0, ⟨le_rfl, hs, fun i j _ hi hij ↦ ?_⟩, rfl, rfl, by decide⟩
    have heq : i = j := by omega
    rw [heq]
  done p q l r _ hp := absurd hp (Nat.not_lt_zero p)

/-- A turn keeps the longest palindrome of the runs so far. -/
theorem Holds.next (h : Holds s p st) (hrun : IsRun s p q) (hwidest : IsWidest s p q l r)
    (hfits : Fits s q l r) : Holds s (q + 1) (next st q l r) := by
  have hlen : st.len ≤ (LongestPalindrome.next st q l r).len ∧
      ((r - l + 1 : ℕ) : ℤ) ≤ (LongestPalindrome.next st q l r).len := by
    rw [LongestPalindrome.next]
    split
    next hlt => exact ⟨hlt.le, le_rfl⟩
    next hge => exact ⟨le_rfl, not_lt.1 hge⟩
  refine ⟨?_, hrun.isStart_succ, ?_, fun p' q' l' r' hrun' hp' hwidest' ↦ ?_⟩
  · rw [LongestPalindrome.next]
    split <;> rfl
  · rw [LongestPalindrome.next]
    split
    · exact ⟨l, r, hwidest.palindrome, rfl, rfl, by have := hfits.right; omega⟩
    · exact h.best
  · rcases hrun.start_cases hrun' with hlt | rfl | hlt
    · obtain ⟨hfits', hle⟩ := h.done p' q' l' r' hrun' hlt hwidest'
      exact ⟨hfits', hle.trans hlen.1⟩
    · obtain rfl := hrun.unique hrun'
      obtain ⟨rfl, rfl⟩ := hwidest.unique hwidest'
      exact ⟨hfits, hlen.2⟩
    · omega

/-- The palindromes around the runs that are done are not longer than the best one. -/
theorem Holds.le_or_lt (h : Holds s m st) {k : ℕ} (hk : k ∈ lengths s) :
    (k : ℤ) ≤ st.len ∨ k < 2 * (s.length - m) := by
  obtain ⟨l, r, hpal, rfl⟩ := hk
  obtain ⟨p, q, hrun, hle⟩ := hpal.exists_run_le
  obtain ⟨l', r', hwidest⟩ := hrun.exists_isWidest
  have hle := hle l' r' hwidest
  rcases lt_or_ge p m with hlt | hge
  · have hdone := (h.done p q l' r' hrun hlt hwidest).2
    exact .inl (by omega)
  · have hlt := hwidest.length_lt hrun
    exact .inr (by omega)

/-- The loop ends when no later run can have a longer one. -/
theorem Holds.continues_eq (h : Holds s m st) :
    ∃ k ∈ lengths s, st.len = k ∧
      continues s st = some (decide (m < s.length ∧ m + k / 2 < s.length)) := by
  obtain ⟨l, r, hpal, -, hlen, -⟩ := h.best
  refine ⟨r - l + 1, ⟨l, r, hpal, rfl⟩, hlen, ?_⟩
  have hhalf : st.len.tdiv 2 = ((r - l + 1) / 2 : ℕ) := by
    rw [hlen]
    rfl
  rw [continues, h.mid, hhalf, Option.some_inj, decide_eq_decide]
  omega

/-- What is left when the loop ends is too short. -/
theorem Holds.le_of_continues (h : Holds s m st) (hend : continues s st = some false) {k : ℕ}
    (hk : k ∈ lengths s) : (k : ℤ) ≤ st.len := by
  obtain ⟨len, -, hlen, hcontinues⟩ := h.continues_eq
  rw [hcontinues, Option.some_inj, decide_eq_false_iff_not] at hend
  rcases h.le_or_lt hk with hle | hlt
  · exact hle
  · omega

/-- While the loop goes on, no palindrome reaches twice what is left. -/
theorem Holds.lt_of_continues (h : Holds s m st) (hnext : continues s st = some true) {k : ℕ}
    (hk : k ∈ lengths s) : m + k / 2 < s.length := by
  obtain ⟨len, -, hlen, hcontinues⟩ := h.continues_eq
  rw [hcontinues, Option.some_inj, decide_eq_true_iff] at hnext
  rcases h.le_or_lt hk with hle | hlt
  · omega
  · omega

/-! ### The function -/

/-- `w` is a part of `s`, and a palindrome. -/
def IsPart (s w : List Char) : Prop := w <:+: s ∧ w.reverse = w

/-- The function ends, and returns a longest palindrome. -/
def FindsPalindrome (s : List Char) : Prop :=
  ∃ fuel w, longestPalindrome fuel s = some w ∧ IsPart s w ∧
    ∀ w', IsPart s w' → w'.length ≤ w.length

/-- No position overflows around the runs in front of half of the longest palindrome from the
end. -/
def Works (s : List Char) : Prop :=
  ∀ p q l r, IsRun s p q → IsWidest s p q l r → (∀ k ∈ lengths s, p + k / 2 < s.length) →
    Fits s q l r

/-- In a string whose length is an `int` nothing overflows. -/
theorem fits_of_length_lt (hs : s.length < 2 ^ 31) (hrun : IsRun s p q)
    (hwidest : IsWidest s p q l r) : Fits s q l r := by
  have hq := hrun.lt
  have hr := hwidest.palindrome.lt
  exact ⟨by omega, by omega, by omega⟩

theorem IsPart.length_mem {w : List Char} (h : IsPart s w) (hw : 0 < w.length) :
    w.length ∈ lengths s := by
  obtain ⟨l, e, hle, he, rfl⟩ := exists_drop_take h.1
  have hlen : ((s.take e).drop l).length = e - l := by
    rw [List.length_drop, List.length_take]
    omega
  obtain ⟨r, rfl⟩ : ∃ r, e = r + 1 := ⟨e - 1, by omega⟩
  rw [hlen]
  exact ⟨l, r, (isPalindrome_iff (by omega) (by omega)).2 h.2, by omega⟩

/-- The part that is returned. -/
theorem Holds.right (h : Holds s m st) (hend : continues s st = some false) :
    ∃ w, substr s st.start st.len = some w ∧ IsPart s w ∧
      ∀ w', IsPart s w' → w'.length ≤ w.length := by
  obtain ⟨l, r, hpal, hstart, hlen, hr⟩ := h.best
  have hlr := hpal.le
  have hlt := hpal.lt
  have hlen' : st.len = (r + 1 : ℕ) - (l : ℤ) := by omega
  refine ⟨(s.take (r + 1)).drop l, ?_, ⟨isInfix_drop_take s l (r + 1), ?_⟩, fun w' hw' ↦ ?_⟩
  · rw [hstart, hlen', substr_eq (by omega) hlt (by omega)]
  · exact (isPalindrome_iff hlr hlt).1 hpal
  · rw [List.length_drop, List.length_take]
    rcases w'.length.eq_zero_or_pos with hzero | hpos
    · omega
    · have hle := h.le_of_continues hend (hw'.length_mem hpos)
      omega

theorem Holds.lt_length (h : Holds s m st) (hnext : continues s st = some true) :
    m < s.length := by
  obtain ⟨len, hlen, -⟩ := h.continues_eq
  have hlt := h.lt_of_continues hnext hlen
  omega

theorem Holds.of_turn (h : Holds s m st) (hnext : continues s st = some true)
    (hbody : turn fuel s st = some st') : ∃ m', Holds s m' st' := by
  obtain ⟨q, l, r, hrun, hwidest, hfits, rfl⟩ :=
    fits_of_turn h.mid (h.lt_length hnext) h.start hbody
  exact ⟨q + 1, h.next hrun hwidest hfits⟩

/-- A turn of a string that works goes further. -/
theorem Holds.exists_turn (hworks : Works s) (h : Holds s m st)
    (hnext : continues s st = some true) (hfuel : s.length ≤ fuel) :
    ∃ m' st', turn fuel s st = some st' ∧ m < m' ∧ Holds s m' st' := by
  obtain ⟨q, hrun⟩ := h.start.exists_isRun (h.lt_length hnext)
  obtain ⟨l, r, hwidest⟩ := hrun.exists_isWidest
  have hfits := hworks m q l r hrun hwidest fun k hk ↦ h.lt_of_continues hnext hk
  exact ⟨q + 1, _, turn_eq h.mid hrun hwidest hfits hfuel, Nat.lt_succ_of_le hrun.le,
    h.next hrun hwidest hfits⟩

/-- The function as its loop. -/
theorem longestPalindrome_of_lt (fuel : ℕ) (hs : 1 < s.length) :
    longestPalindrome fuel s = (WhileLoop.run (continues s) (turn fuel s) fuel ⟨0, 0, 1⟩).bind
      fun st ↦ substr s st.start st.len := by
  have hempty : s.isEmpty = false := by
    rw [List.isEmpty_eq_false_iff, ← List.length_pos_iff_ne_nil]
    omega
  rw [longestPalindrome, hempty, if_neg Bool.false_ne_true, if_neg hs.ne']
  rfl

/-- The condition is necessary. -/
theorem works_of_findsPalindrome (h : FindsPalindrome s) : Works s := by
  intro p q l r hrun hwidest hvisited
  obtain ⟨fuel, w, hw, -⟩ := h
  have hq := hrun.lt
  have hle := hrun.le
  rcases Nat.lt_or_ge 1 s.length with hs | hs
  · rw [longestPalindrome_of_lt fuel hs] at hw
    obtain ⟨st, hloop, -⟩ := Option.bind_eq_some_iff.1 hw
    have hstep (st st' : State) (h : ∃ m, Holds s m st) (hnext : continues s st = some true)
        (hbody : turn fuel s st = some st') : ∃ m, Holds s m st' :=
      h.elim fun _ h ↦ h.of_turn hnext hbody
    obtain ⟨⟨m, h⟩, hend⟩ :=
      WhileLoop.run_invariant hstep ⟨0, holds_zero (by omega)⟩ hloop
    have hp : p < m := by
      obtain ⟨len, hlen, -, hcontinues⟩ := h.continues_eq
      have hlt := hvisited len hlen
      rw [hcontinues, Option.some_inj, decide_eq_false_iff_not] at hend
      omega
    exact (h.done p q l r hrun hp hwidest).1
  · exact fits_of_length_lt (by omega) hrun hwidest

/-- The condition is enough. -/
theorem findsPalindrome_of_works (hworks : Works s) : FindsPalindrome s := by
  rcases Nat.lt_or_ge 1 s.length with hs | hs
  · have hstep (st : State) (h : ∃ m, Holds s m st) :
        continues s st = some false ∨
          continues s st = some true ∧ ∃ st', turn (s.length + 1) s st = some st' ∧
            (∃ m, Holds s m st') ∧ s.length - st'.mid.toNat < s.length - st.mid.toNat := by
      obtain ⟨m, h⟩ := h
      obtain ⟨len, -, -, hcontinues⟩ := h.continues_eq
      by_cases hnext : m < s.length ∧ m + len / 2 < s.length
      · rw [decide_eq_true hnext] at hcontinues
        obtain ⟨m', st', hturn, hlt, h'⟩ :=
          h.exists_turn hworks hcontinues (Nat.le_succ s.length)
        refine .inr ⟨hcontinues, st', hturn, ⟨m', h'⟩, ?_⟩
        rw [h.mid, h'.mid]
        omega
      · rw [decide_eq_false hnext] at hcontinues
        exact .inl hcontinues
    obtain ⟨st, hloop, ⟨m, h⟩, hend⟩ := WhileLoop.exists_run
      (fun st : State ↦ s.length - st.mid.toNat) hstep ⟨0, holds_zero (by omega)⟩
      (Nat.lt_succ_of_le (Nat.sub_le _ _))
    obtain ⟨w, hsubstr, hw⟩ := h.right hend
    refine ⟨s.length + 1, w, ?_, hw⟩
    rw [longestPalindrome_of_lt _ hs, hloop, Option.bind_some, hsubstr]
  · have hreverse : s.reverse = s := by
      match s, hs with
      | [], _ => rfl
      | [x], _ => rfl
    refine ⟨0, s, ?_, ⟨List.infix_rfl, hreverse⟩, fun w' hw' ↦ hw'.1.length_le⟩
    match s, hs with
    | [], _ => rfl
    | [x], _ => rfl

/-- **`longestPalindrome`** finds a longest palindrome exactly for these strings. -/
theorem longestPalindrome_iff (s : List Char) : FindsPalindrome s ↔ Works s :=
  ⟨works_of_findsPalindrome, findsPalindrome_of_works⟩

/-- A string of `2 ^ 31` times the same character. -/
theorem not_forall_findsPalindrome : ¬ ∀ s, FindsPalindrome s := by
  intro h
  have hlen : (List.replicate (2 ^ 31) 'a').length = 2 ^ 31 := List.length_replicate
  obtain ⟨q, hrun⟩ := (holds_zero (s := List.replicate (2 ^ 31) 'a')
    (by rw [hlen]; decide)).start.exists_isRun (by rw [hlen]; decide)
  obtain ⟨l, r, hwidest⟩ := hrun.exists_isWidest
  have hq : q + 1 = 2 ^ 31 := by
    have hlt := hrun.lt
    rw [hlen] at hlt
    by_contra hne
    refine hrun.stop ?_
    rw [List.getElem?_replicate, List.getElem?_replicate, if_pos (by omega), if_pos (by omega)]
  have hfits := works_of_findsPalindrome (h _) 0 q l r hrun hwidest fun k hk ↦ by
    obtain ⟨l', r', hpal, rfl⟩ := hk
    have hlt := hpal.lt
    omega
  have hmid := hfits.mid
  omega

end LongestPalindrome
