import MiscCpp.Library.Access
import MiscCpp.Library.CInt
import MiscCpp.Library.WordPattern

/-!
# Matching a word pattern

`sol` of `leetcode/other/wordPattern2.cc`. The map is the list of its entries, and goes through the
calls of `f`: a call that returns 0 leaves it as it was (`f_spec`). The sizes of the strings are
converted to `int`, so only as many characters are looked at (`sol_iff`).
-/

open Access CInt WordPattern

namespace WordPattern2

/-! ### The program -/

/-- `m` -/
abbrev WordMap := List (Char × List Char)

def erase (m : WordMap) (c : Char) : WordMap := m.filter fun e ↦ e.1 ≠ c

/-- The loop over `i` in `f`, which is called again with `f`. -/
def tryWords (f : ℤ → ℤ → WordMap → Option (ℤ × WordMap)) (context : List Char) (a b : ℤ)
    (c : Char) : List ℕ → WordMap → Option (ℤ × WordMap)
  | [], m => some (0, m)
  | i :: is, m => do
    let t ← substr context b (← fit ((← fit (i - b)) + 1))
    if m.lookup c = some t then
      let (r, m) ← f (← fit (a + 1)) (← fit (i + 1)) m
      if r ≠ 0 then some (1, m) else tryWords f context a b c is m
    else if m.lookup c = none then
      if ∃ e ∈ m, e.2 = t then tryWords f context a b c is m
      else
        let (r, m) ← f (← fit (a + 1)) (← fit (i + 1)) ((c, t) :: m)
        if r ≠ 0 then some (1, m) else tryWords f context a b c is (erase m c)
    else tryWords f context a b c is m

/-- `f`, with the map before and after it. -/
def f (pattern context : List Char) (n1 n2 : ℤ) : ℕ → ℤ → ℤ → WordMap → Option (ℤ × WordMap)
  | 0, _, _, _ => none
  | fuel + 1, a, b, m =>
    if a = n1 ∧ b = n2 then some (1, m)
    else if a = n1 ∨ b = n2 then some (0, m)
    else do
      let c ← get pattern a
      tryWords (f pattern context n1 n2 fuel) context a b c ((List.range n2.toNat).drop b.toNat) m

def sol (fuel : ℕ) (pattern context : List Char) : Option ℤ := do
  let n1 := (wrap pattern.length).1
  let n2 := (wrap context.length).1
  let (r, _) ← f pattern context n1 n2 fuel 0 0 []
  some r

example : sol 5 ['a', 'b', 'a'] ['x', 'y', 'x'] = some 1 := by decide

example : sol 5 ['a', 'a'] ['x', 'y'] = some 0 := by decide

/-- `sol` ends, with 1 if the context follows the pattern and with 0 otherwise. -/
def Decides (pattern context : List Char) : Prop :=
  ∃ n, ∀ fuel ≥ n, ∃ r, sol fuel pattern context = some r ∧
    (r = 1 ∧ Matches pattern context ∨ r = 0 ∧ ¬ Matches pattern context)

/-! ### The loop -/

variable {pattern context : List Char} {m : WordMap} {c : Char} {t rest : List Char}
  {a b i n fuel : ℕ} {n1 n2 : ℤ} {is : List ℕ}

/-- What a call returns: 1 if `P`, and otherwise 0, and then the map is as it was. -/
def Answers (P : Prop) (m : WordMap) (r : Option (ℤ × WordMap)) : Prop :=
  P ∧ (∃ m', r = some (1, m')) ∨ ¬ P ∧ r = some (0, m)

theorem lookup_eq_none_iff : m.lookup c = none ↔ ∀ e ∈ m, e.1 ≠ c := by
  rw [List.lookup_eq_none_iff]
  exact forall₂_congr fun e _ ↦ by rw [bne_iff_ne, ne_comm]

theorem mem_of_lookup (h : m.lookup c = some t) : (c, t) ∈ m := by
  obtain ⟨front, back, rfl, -⟩ := List.lookup_eq_some_iff.1 h
  exact List.mem_append_right front List.mem_cons_self

/-- **The map is restored.** -/
theorem erase_cons (hc : ∀ e ∈ m, e.1 ≠ c) (t : List Char) : erase ((c, t) :: m) c = m := by
  rw [erase, List.filter_cons_of_neg (by exact mt of_decide_eq_true (not_not.2 rfl)),
    List.filter_eq_self.2 fun e he ↦ decide_eq_true (hc e he)]

/-- The characters from `b` to `i` can be the word of `c`, and then `Q` holds of the next index. -/
def Branch (Q : ℕ → WordMap → Prop) (context : List Char) (b : ℕ) (c : Char) (m : WordMap)
    (i : ℕ) : Prop :=
  let t := (context.take (i + 1)).drop b
  m.lookup c = some t ∧ Q (i + 1) m ∨
    m.lookup c = none ∧ (∀ e ∈ m, e.2 ≠ t) ∧ Q (i + 1) ((c, t) :: m)

theorem tryWords_spec {Q : ℕ → WordMap → Prop} {f : ℤ → ℤ → WordMap → Option (ℤ × WordMap)}
    (ha : a + 1 < 2 ^ 31) (his : ∀ i ∈ is, b ≤ i ∧ i < context.length ∧ i + 1 < 2 ^ 31)
    (hf : ∀ i ∈ is, ∀ m, Completable m [] [] →
      Answers (Q (i + 1) m) m (f (a + 1 : ℕ) (i + 1 : ℕ) m))
    (hm : Completable m [] []) :
    Answers (∃ i ∈ is, Branch Q context b c m i) m (tryWords f context a b c is m) := by
  induction is with
  | nil => exact Or.inr ⟨fun ⟨i, hi, _⟩ ↦ List.not_mem_nil hi, rfl⟩
  | cons i is ih =>
    obtain ⟨hbi, hi, hint⟩ := his i List.mem_cons_self
    have hrest := ih (fun j hj ↦ his j (List.mem_cons_of_mem i hj))
      fun j hj ↦ hf j (List.mem_cons_of_mem i hj)
    have hcount : ((i : ℤ) - b + 1) = ((i + 1 : ℕ) : ℤ) - b := by omega
    have hskip (hnot : ¬ Branch Q context b c m i) :
        Answers (∃ j ∈ i :: is, Branch Q context b c m j) m (tryWords f context a b c is m) := by
      rwa [List.exists_mem_cons_iff, or_iff_right hnot]
    have hone (m' : WordMap) (hP : Branch Q context b c m i) :
        Answers (∃ j ∈ i :: is, Branch Q context b c m j) m (some (1, m')) :=
      Or.inl ⟨⟨i, List.mem_cons_self, hP⟩, m', rfl⟩
    have hcall := hf i List.mem_cons_self
    rw [tryWords, fit_eq (by omega)]
    simp only [Option.bind_eq_bind, Option.bind_some]
    rw [hcount, fit_eq (by omega), fit_eq (n := (a : ℤ) + 1) (by omega),
      fit_eq (n := (i : ℤ) + 1) (by omega)]
    simp only [Option.bind_some]
    rw [substr_eq (by omega) hi (by omega)]
    simp only [Option.bind_some, Int.natCast_add, Int.natCast_one] at hcall ⊢
    by_cases hsame : m.lookup c = some ((context.take (i + 1)).drop b)
    · rw [if_pos hsame]
      have hbranch : Branch Q context b c m i ↔ Q (i + 1) m :=
        ⟨fun h ↦ h.elim And.right fun h ↦ (by rw [hsame] at h; cases h.1), fun h ↦ .inl ⟨hsame, h⟩⟩
      rcases hcall m hm with ⟨hQ, m', hr⟩ | ⟨hQ, hr⟩
      · rw [hr]
        exact hone m' (hbranch.2 hQ)
      · rw [hr]
        exact hskip (mt hbranch.1 hQ)
    · rw [if_neg hsame]
      by_cases hnone : m.lookup c = none
      · rw [if_pos hnone]
        have hc := lookup_eq_none_iff.1 hnone
        have hbranch : Branch Q context b c m i ↔
            (∀ e ∈ m, e.2 ≠ (context.take (i + 1)).drop b) ∧
              Q (i + 1) ((c, (context.take (i + 1)).drop b) :: m) :=
          ⟨fun h ↦ h.elim (fun h ↦ absurd h.1 hsame) And.right, fun h ↦ .inr ⟨hnone, h⟩⟩
        by_cases hused : ∃ e ∈ m, e.2 = (context.take (i + 1)).drop b
        · rw [if_pos hused]
          obtain ⟨e, he, heq⟩ := hused
          exact hskip fun h ↦ (hbranch.1 h).1 e he heq
        · rw [if_neg hused]
          have ht : ∀ e ∈ m, e.2 ≠ (context.take (i + 1)).drop b := fun e he heq ↦
            hused ⟨e, he, heq⟩
          rcases hcall _ (hm.insert hc ht) with ⟨hQ, m', hr⟩ | ⟨hQ, hr⟩
          · rw [hr]
            exact hone m' (hbranch.2 ⟨ht, hQ⟩)
          · rw [hr]
            simp only [Option.bind_some]
            rw [if_neg (not_not.2 rfl), erase_cons hc]
            exact hskip fun h ↦ hQ (hbranch.1 h).2
      · rw [if_neg hnone]
        exact hskip fun h ↦ h.elim (fun h ↦ hsame h.1) fun h ↦ hnone h.1

/-! ### The recursion -/

/-- The part of a list behind a part that is not empty. -/
theorem exists_split (ht : t ≠ []) (hsplit : (context.take n).drop b = t ++ rest) :
    ∃ i, b ≤ i ∧ i < n ∧ i < context.length ∧ (context.take (i + 1)).drop b = t ∧
      (context.take n).drop (i + 1) = rest := by
  have hpos : 0 < t.length := List.length_pos_iff.2 ht
  have hlen := congrArg List.length hsplit
  rw [List.length_drop, List.length_take, List.length_append] at hlen
  have hi : b + t.length - 1 + 1 = b + t.length := by omega
  refine ⟨b + t.length - 1, by omega, by omega, by omega, ?_, ?_⟩
  · rw [hi, ← List.take_drop, ← Nat.min_eq_left (a := t.length) (b := n - b) (by omega),
      ← List.take_take, ← List.drop_take, hsplit, List.take_left]
  · rw [hi, ← List.drop_drop, hsplit, List.drop_left]

theorem split_eq (context : List Char) (hbi : b ≤ i) (hin : i < n) : (context.take n).drop b =
    (context.take (i + 1)).drop b ++ (context.take n).drop (i + 1) := by
  have hi : b + (i + 1 - b) = i + 1 := by omega
  have hfront : (context.take (i + 1)).drop b = ((context.take n).drop b).take (i + 1 - b) := by
    rw [List.take_drop, List.take_take, hi, Nat.min_eq_left hin]
  conv_lhs => rw [← List.take_append_drop (i + 1 - b) ((context.take n).drop b)]
  rw [hfront, List.drop_drop, hi]

theorem word_ne_nil (context : List Char) (hbi : b ≤ i) (hi : i < context.length) :
    (context.take (i + 1)).drop b ≠ [] := by
  refine List.ne_nil_of_length_pos ?_
  rw [List.length_drop, List.length_take_of_le hi]
  omega

theorem mem_drop_range : i ∈ (List.range n).drop b ↔ b ≤ i ∧ i < n := by
  rw [List.range_eq_range', List.drop_range', List.mem_range'_1]
  omega

/-- What is left to match, if the number of letters is not negative. -/
def Rest (pattern context : List Char) (n1 : ℤ) (n a b : ℕ) (m : WordMap) : Prop :=
  0 ≤ n1 ∧ Completable m ((pattern.take n1.toNat).drop a) ((context.take n).drop b)

theorem letters_eq (hc : pattern[a]? = some c) (ha : a < n) :
    (pattern.take n).drop a = c :: (pattern.take n).drop (a + 1) := by
  obtain ⟨hlt, rfl⟩ := List.getElem?_eq_some_iff.1 hc
  have hlt' : a < (pattern.take n).length := by
    rw [List.length_take]
    omega
  rw [List.drop_eq_getElem_cons hlt', List.getElem_take]

/-- **The branches** of the loop are the words of the next letter. -/
theorem rest_iff (hc : pattern[a]? = some c) (ha : (a : ℤ) ≠ n1)
    (hle : (a : ℤ) ≤ n1 ∨ n1 < 0) (hn : n ≤ context.length) :
    Rest pattern context n1 n a b m ↔ ∃ i ∈ (List.range n).drop b,
      Branch (Rest pattern context n1 n (a + 1)) context b c m i := by
  constructor
  · rintro ⟨hpos, h⟩
    rw [letters_eq hc (by omega)] at h
    cases hlookup : m.lookup c with
    | some t =>
      obtain ⟨ht, rest, hsplit, h⟩ := (completable_cons_iff_of_mem (mem_of_lookup hlookup)).1 h
      obtain ⟨i, hbi, hin, hi, rfl, rfl⟩ := exists_split ht hsplit
      exact ⟨i, mem_drop_range.2 ⟨hbi, hin⟩, Or.inl ⟨hlookup, hpos, h⟩⟩
    | none =>
      obtain ⟨t, rest, ht, hsplit, hother, h⟩ :=
        (completable_cons_iff (lookup_eq_none_iff.1 hlookup)).1 h
      obtain ⟨i, hbi, hin, hi, rfl, rfl⟩ := exists_split ht hsplit
      exact ⟨i, mem_drop_range.2 ⟨hbi, hin⟩, Or.inr ⟨hlookup, hother, hpos, h⟩⟩
  · rintro ⟨i, hi, hbranch⟩
    obtain ⟨hbi, hin⟩ := mem_drop_range.1 hi
    have hne := word_ne_nil context hbi (hin.trans_le hn)
    have hsplit := split_eq context hbi hin
    rcases hbranch with ⟨hlookup, hpos, h⟩ | ⟨hlookup, hother, hpos, h⟩
    · refine ⟨hpos, ?_⟩
      rw [letters_eq hc (by omega)]
      exact (completable_cons_iff_of_mem (mem_of_lookup hlookup)).2 ⟨hne, _, hsplit, h⟩
    · refine ⟨hpos, ?_⟩
      rw [letters_eq hc (by omega)]
      exact (completable_cons_iff (lookup_eq_none_iff.1 hlookup)).2
        ⟨_, _, hne, hsplit, hother, h⟩

/-- **A call** from `a` and `b` on. -/
theorem f_spec (hn : n ≤ context.length) (hint : n < 2 ^ 31) (h1 : n1 ≤ pattern.length)
    (hlarge : n1 < 0 → n ≤ pattern.length) (hab : a ≤ b) (hbn : b ≤ n)
    (hle : (a : ℤ) ≤ n1 ∨ n1 < 0) (hfuel : n - b < fuel) (hm : Completable m [] []) :
    Answers (Rest pattern context n1 n a b m) m (f pattern context n1 n fuel a b m) := by
  induction fuel generalizing a b m with
  | zero => exact absurd hfuel (Nat.not_lt_zero _)
  | succ fuel ih =>
    rw [f]
    have hlen : ((context.take n).drop b).length = n - b := by
      rw [List.length_drop, List.length_take_of_le hn]
    by_cases ha : (a : ℤ) = n1
    · have hnil : (pattern.take n1.toNat).drop a = [] := by
        refine List.drop_of_length_le ?_
        rw [List.length_take]
        omega
      have hrest : Rest pattern context n1 n a b m ↔ (context.take n).drop b = [] := by
        rw [Rest, hnil, completable_nil_iff hm, and_iff_right (by omega)]
      by_cases hb : (b : ℤ) = n
      · rw [if_pos ⟨ha, hb⟩]
        exact Or.inl ⟨hrest.2 (List.length_eq_zero_iff.1 (by omega)), m, rfl⟩
      · rw [if_neg fun h ↦ hb h.2, if_pos (Or.inl ha)]
        refine Or.inr ⟨fun h ↦ ?_, rfl⟩
        rw [hrest.1 h, List.length_nil] at hlen
        omega
    · rw [if_neg fun h ↦ ha h.1]
      by_cases hb : (b : ℤ) = n
      · rw [if_pos (Or.inr hb)]
        refine Or.inr ⟨fun ⟨hpos, h⟩ ↦ ?_, rfl⟩
        have hlt : a < pattern.length := by omega
        rw [letters_eq (List.getElem?_eq_getElem hlt) (by omega),
          List.length_eq_zero_iff.1 (hlen.trans (by omega))] at h
        exact not_completable_cons_nil h
      · have hlt : a < pattern.length := by omega
        have hc := List.getElem?_eq_getElem hlt
        rw [if_neg (by omega), get_natCast, hc, Option.bind_eq_bind, Option.bind_some,
          rest_iff hc ha hle hn, Int.toNat_natCast, Int.toNat_natCast]
        refine tryWords_spec (by omega) (fun i hi ↦ ?_) (fun i hi m hm ↦ ?_) hm
        · obtain ⟨hbi, hin⟩ := mem_drop_range.1 hi
          exact ⟨hbi, hin.trans_le hn, by omega⟩
        · obtain ⟨hbi, hin⟩ := mem_drop_range.1 hi
          exact ih (by omega) hin (by omega) (by omega) hm

/-! ### The whole search -/

/-- The answer for the sizes converted to `int`. -/
def MatchesPrefix (pattern context : List Char) : Prop :=
  0 ≤ (wrap pattern.length).1 ∧ 0 ≤ (wrap context.length).1 ∧
    Matches (pattern.take (wrap pattern.length).1.toNat)
      (context.take (wrap context.length).1.toNat)

theorem completable_nil : Completable ([] : WordMap) [] [] :=
  matches_iff.1 ⟨fun _ ↦ [], fun _ hc ↦ absurd hc List.not_mem_nil,
    fun _ hc ↦ absurd hc List.not_mem_nil, rfl⟩

/-- If the size of the context is converted to a negative number, the loop has no turn. -/
theorem f_of_neg (hfuel : 0 < fuel) (h2 : n2 < 0) (h1 : n1 = (wrap pattern.length).1) :
    f pattern context n1 n2 fuel 0 0 [] = some (0, []) := by
  obtain ⟨fuel, rfl⟩ := Nat.exists_eq_succ_of_ne_zero hfuel.ne'
  rw [f, if_neg fun h ↦ h2.ne' h.2]
  by_cases hzero : 0 = n1
  · rw [if_pos (Or.inl hzero)]
  · rw [if_neg (not_or.2 ⟨hzero, h2.ne'⟩)]
    cases pattern with
    | nil => exact absurd h1.symm hzero
    | cons c pattern =>
      rw [Int.toNat_of_nonpos h2.le]
      rfl

theorem sol_spec (pattern context : List Char) (hfuel : context.length < fuel) :
    ∃ r, sol fuel pattern context = some r ∧
      (r = 1 ∧ MatchesPrefix pattern context ∨ r = 0 ∧ ¬ MatchesPrefix pattern context) := by
  rw [sol, MatchesPrefix]
  have h1 : (wrap pattern.length).1 ≤ pattern.length := wrap_le (Int.natCast_nonneg _)
  have h2 : (wrap context.length).1 ≤ context.length := wrap_le (Int.natCast_nonneg _)
  have hint := (wrap context.length).2.2
  have hlarge (hneg : (wrap pattern.length).1 < 0) : 2 ^ 31 ≤ (pattern.length : ℤ) := by
    by_contra hlt
    have heq := wrap_of_lt (Int.natCast_nonneg pattern.length) (not_le.1 hlt)
    omega
  by_cases hneg : (wrap context.length).1 < 0
  · refine ⟨0, ?_, Or.inr ⟨rfl, fun h ↦ absurd h.2.1 (not_le.2 hneg)⟩⟩
    rw [f_of_neg (Nat.zero_lt_of_lt hfuel) hneg rfl]
    rfl
  · obtain ⟨n, hn⟩ := Int.eq_ofNat_of_zero_le (not_lt.1 hneg)
    rw [hn] at h2 hint ⊢
    have hrest : Rest pattern context (wrap pattern.length).1 n 0 0 [] ↔
        0 ≤ (wrap pattern.length).1 ∧ 0 ≤ (n : ℤ) ∧
          Matches (pattern.take (wrap pattern.length).1.toNat) (context.take (n : ℤ).toNat) := by
      rw [and_iff_right (Int.natCast_nonneg n), Int.toNat_natCast, matches_iff, Rest,
        List.drop_zero, List.drop_zero]
    have hanswers : Answers (Rest pattern context (wrap pattern.length).1 n 0 0 []) []
        (f pattern context (wrap pattern.length).1 n fuel (0 : ℕ) (0 : ℕ) []) := by
      refine f_spec (by omega) (by omega) h1 (fun hlt ↦ ?_) le_rfl (Nat.zero_le n) (by omega)
        (by omega) completable_nil
      have hle := hlarge hlt
      omega
    rw [hrest, Int.natCast_zero] at hanswers
    rcases hanswers with ⟨hP, m', hr⟩ | ⟨hP, hr⟩
    · refine ⟨1, ?_, Or.inl ⟨rfl, hP⟩⟩
      rw [hr]
      rfl
    · refine ⟨0, ?_, Or.inr ⟨rfl, hP⟩⟩
      rw [hr]
      rfl

/-- **The answer is right** exactly if it is the same for the sizes converted to `int`. -/
theorem sol_iff (pattern context : List Char) :
    Decides pattern context ↔ (MatchesPrefix pattern context ↔ Matches pattern context) := by
  constructor
  · rintro ⟨n, hn⟩
    obtain ⟨r, hr, hmatches⟩ := hn (n + context.length + 1) (by omega)
    have hfuel : context.length < n + context.length + 1 := by omega
    obtain ⟨r', hr', hprefix⟩ := sol_spec pattern context hfuel
    obtain rfl := Option.some.inj (hr.symm.trans hr')
    rcases hmatches with ⟨rfl, hP⟩ | ⟨rfl, hP⟩ <;> rcases hprefix with ⟨h, hQ⟩ | ⟨h, hQ⟩
    · exact iff_of_true hQ hP
    · cases h
    · cases h
    · exact iff_of_false hQ hP
  · intro h
    refine ⟨context.length + 1, fun fuel hfuel ↦ ?_⟩
    obtain ⟨r, hr, hprefix⟩ := sol_spec pattern context (Nat.lt_of_succ_le hfuel)
    exact ⟨r, hr, by rwa [h] at hprefix⟩

/-- So it is right if both sizes are values of an `int`. -/
theorem matchesPrefix_iff (hp : pattern.length < 2 ^ 31) (hs : context.length < 2 ^ 31) :
    MatchesPrefix pattern context ↔ Matches pattern context := by
  have h1 := wrap_of_lt (Int.natCast_nonneg pattern.length) (by omega)
  have h2 := wrap_of_lt (Int.natCast_nonneg context.length) (by omega)
  rw [MatchesPrefix, h1, h2, Int.toNat_natCast, Int.toNat_natCast, List.take_length,
    List.take_length, and_iff_right (Int.natCast_nonneg _), and_iff_right (Int.natCast_nonneg _)]

/-- `2 ^ 32` letters, and the empty context. -/
theorem not_forall_decides : ¬ ∀ pattern context : List Char, Decides pattern context := by
  intro h
  obtain ⟨pattern, hpattern⟩ : ∃ s, List.replicate (2 ^ 32) 'a' = s := ⟨_, rfl⟩
  have hlen : pattern.length = 2 ^ 32 := by rw [← hpattern, List.length_replicate]
  have hzero : (wrap pattern.length).1 = 0 := by
    rw [hlen]
    decide
  obtain ⟨n, hn⟩ := h pattern []
  obtain ⟨r, hr, hmatches⟩ := hn (n + 1) (Nat.le_succ n)
  have hone : sol (n + 1) pattern [] = some 1 := by
    rw [sol, hzero]
    rfl
  obtain rfl := Option.some.inj (hone.symm.trans hr)
  obtain ⟨-, σ, hne, -, hnil⟩ := hmatches.resolve_right fun h ↦ absurd h.1 (by decide)
  cases pattern with
  | nil => cases hlen
  | cons c pattern =>
    exact hne c List.mem_cons_self (List.append_eq_nil_iff.1 hnil).1

end WordPattern2
