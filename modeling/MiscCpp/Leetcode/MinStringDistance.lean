import MiscCpp.Library.Access
import MiscCpp.Library.Counters
import MiscCpp.Library.EditDistance
import MiscCpp.Library.Machine
import MiscCpp.Library.TwoDimensional

/-!
# The edit distance of two strings

`minDistance` of `leetcode/DP/minStringDistance.cc`, with the table, the bounds of the strings and
the indices of type `int`.

The entries of the table are the distances of the prefixes (`cell_eq`). The index of a loop
overflows behind the last row or column if there are too many (`minDistance_iff`).
-/

open CInt EditDistance Machine StepCount TwoDimensional

namespace MinStringDistance

/-! ### The program -/

abbrev Table := List (List CInt)

/-- What is assigned to `dp[i][j]` in the last loops. -/
def cell (word1 word2 : List Char) (dp : Table) (i j : ℤ) : Option CInt := do
  if (← Access.get word1 (i - 1)) = (← Access.get word2 (j - 1)) then get dp (i - 1) (j - 1)
  else
    let above ← get dp (i - 1) j
    let before ← get dp i (j - 1)
    (min (← get dp (i - 1) (j - 1)) (min above before)).incr

/-- The first loop. -/
def fillColumn (dp : Table) (is : List ℕ) : Option Table :=
  exec (fun dp (i : ℕ) ↦ do put dp i 0 (← checked i)) dp is

/-- The second loop. -/
def fillFirst (dp : Table) (js : List ℕ) : Option Table :=
  exec (fun dp (j : ℕ) ↦ do put dp 0 j (← checked j)) dp js

/-- The inner loop for one `i`. -/
def fillRow (word1 word2 : List Char) (dp : Table) (i : ℤ) : Option Table :=
  exec (fun dp (k : ℕ) ↦ do put dp i (k + 1) (← cell word1 word2 dp i (k + 1))) dp
    (List.range word2.length)

def minDistance (word1 word2 : List Char) : Option CInt := do
  let m := word1.length
  let n := word2.length
  let is ← counter (m + 1)
  let js ← counter (n + 1)
  let dp : Table := List.replicate (m + 1) (List.replicate (n + 1) (wrap 0))
  let dp ← fillColumn dp is
  let dp ← fillFirst dp js
  let dp ← exec (fun dp (k : ℕ) ↦ fillRow word1 word2 dp (k + 1)) dp (List.range m)
  get dp m n

/-! ### The table -/

variable {word1 word2 : List Char} {m n i j : ℕ} {dp : Table} {done : ℕ → ℕ → Prop}

/-- The entry is the distance of the prefixes. -/
def Right (word1 word2 : List Char) (i j : ℕ) (d : CInt) : Prop :=
  d.1 = distance (word1.take i) (word2.take j)

theorem right_column (hi : i ≤ word1.length) {d : CInt} (hd : d.1 = i) :
    Right word1 word2 i 0 d := by
  rw [Right, hd, List.take_zero, distance_nil_right, List.length_take_of_le hi]

theorem right_row (hj : j ≤ word2.length) {d : CInt} (hd : d.1 = j) :
    Right word1 word2 0 j d := by
  rw [Right, hd, List.take_zero, distance_comm, distance_nil_right, List.length_take_of_le hj]

variable (word1 word2) in
theorem distance_take_le (i j : ℕ) :
    distance (word1.take i) (word2.take j) ≤ max word1.length word2.length := by
  have hle := distance_le (word1.take i) (word2.take j)
  rw [List.length_take, List.length_take] at hle
  omega

/-- **An entry** from those above and before it. -/
theorem cell_eq (h : Filled (Right word1 word2) word1.length word2.length done dp)
    (hi : i < word1.length) (hj : j < word2.length) (hm : word1.length < 2 ^ 31)
    (hn : word2.length < 2 ^ 31) (hboth : done i j) (habove : done i (j + 1))
    (hbefore : done (i + 1) j) :
    ∃ d, cell word1 word2 dp (i + 1) (j + 1) = some d ∧ Right word1 word2 (i + 1) (j + 1) d := by
  obtain ⟨a, ha, haval⟩ := h.exists_get hi.le hj.le hboth
  have hx : Access.get word1 (i + 1 - 1 : ℤ) = some word1[i] := by
    rw [add_sub_cancel_right, Access.get_natCast, List.getElem?_eq_getElem]
  have hy : Access.get word2 (j + 1 - 1 : ℤ) = some word2[j] := by
    rw [add_sub_cancel_right, Access.get_natCast, List.getElem?_eq_getElem]
  have htake := List.take_succ_eq_append_getElem hi
  have htake' := List.take_succ_eq_append_getElem hj
  rw [cell, hx, hy]
  simp only [Option.bind_eq_bind, Option.bind_some, add_sub_cancel_right, ha]
  by_cases hxy : word1[i] = word2[j]
  · refine ⟨a, if_pos hxy, ?_⟩
    rw [Right, htake, htake', hxy, distance_concat_self]
    exact haval
  · obtain ⟨b, hb, hbval⟩ := h.exists_get hi.le hj habove
    obtain ⟨c, hc, hcval⟩ := h.exists_get hi hj.le hbefore
    have hb : get dp i (j + 1) = some b := hb
    have hc : get dp (i + 1) j = some c := hc
    have hbval : b.1 = distance (word1.take i) (word2.take (j + 1)) := hbval
    have hcval : c.1 = distance (word1.take (i + 1)) (word2.take j) := hcval
    have hle := distance_take_le word1 word2 (i + 1) (j + 1)
    have hvalue := distance_concat_of_ne hxy (word1.take i) (word2.take j)
    rw [← htake, ← htake'] at hvalue
    have hmin : (min a (min b c)).1 + 1 =
        (distance (word1.take (i + 1)) (word2.take (j + 1)) : ℕ) := by
      rw [coe_min, coe_min, haval, hbval, hcval, hvalue]
      omega
    obtain ⟨d, hd, hdval⟩ := exists_checked_natCast
      (n := distance (word1.take (i + 1)) (word2.take (j + 1))) (by omega)
    refine ⟨d, ?_, hdval⟩
    simp only [if_neg hxy, hb, hc, Option.bind_some, incr_eq, hmin, hd]

/-! ### The loops -/

/-- The first row and the first column. -/
theorem exists_borders (hm : word1.length < 2 ^ 31) (hn : word2.length < 2 ^ 31)
    (h : Filled (Right word1 word2) word1.length word2.length (fun _ _ ↦ False) dp) :
    ∃ dp₁ dp₂, fillColumn dp (List.range (word1.length + 1)) = some dp₁ ∧
      fillFirst dp₁ (List.range (word2.length + 1)) = some dp₂ ∧
      Filled (Right word1 word2) word1.length word2.length (fun i j ↦ j = 0 ∨ i ≤ 0) dp₂ := by
  have hcolumn (k : ℕ) (dp : Table) (hk : k < word1.length + 1)
      (h : Filled (Right word1 word2) word1.length word2.length (fun i j ↦ j = 0 ∧ i < k) dp) :
      ∃ dp', (do put dp k 0 (← checked k)) = some dp' ∧
        Filled (Right word1 word2) word1.length word2.length (fun i j ↦ j = 0 ∧ i < k + 1) dp' := by
    obtain ⟨d, hd, hdval⟩ := exists_checked_natCast (n := k) (by omega)
    obtain ⟨dp', hput, h'⟩ := h.put (by omega) (Nat.zero_le _) (right_column (by omega) hdval)
      fun i j (hdone : j = 0 ∧ i < k + 1) hne ↦ (by omega : j = 0 ∧ i < k)
    exact ⟨dp', by rw [hd]; exact hput, h'⟩
  have hrow (k : ℕ) (dp : Table) (hk : k < word2.length + 1)
      (h : Filled (Right word1 word2) word1.length word2.length
        (fun i j ↦ j = 0 ∨ i = 0 ∧ j < k) dp) :
      ∃ dp', (do put dp 0 k (← checked k)) = some dp' ∧
        Filled (Right word1 word2) word1.length word2.length
          (fun i j ↦ j = 0 ∨ i = 0 ∧ j < k + 1) dp' := by
    obtain ⟨d, hd, hdval⟩ := exists_checked_natCast (n := k) (by omega)
    obtain ⟨dp', hput, h'⟩ := h.put (Nat.zero_le _) (by omega) (right_row (by omega) hdval)
      fun i j (hdone : j = 0 ∨ i = 0 ∧ j < k + 1) hne ↦ (by omega : j = 0 ∨ i = 0 ∧ j < k)
    exact ⟨dp', by rw [hd]; exact hput, h'⟩
  obtain ⟨dp₁, hrun₁, h₁⟩ := exists_exec_range hcolumn (h.mono fun i j _ _ hd ↦ by omega)
  obtain ⟨dp₂, hrun₂, h₂⟩ := exists_exec_range hrow (h₁.mono fun i j _ _ hd ↦ by omega)
  exact ⟨dp₁, dp₂, hrun₁, hrun₂, h₂.mono fun i j _ hj hd ↦ by omega⟩

theorem fillRow_spec (hm : word1.length < 2 ^ 31) (hn : word2.length < 2 ^ 31)
    (hi : i < word1.length)
    (h : Filled (Right word1 word2) word1.length word2.length (fun i' j ↦ j = 0 ∨ i' ≤ i) dp) :
    ∃ dp', fillRow word1 word2 dp (i + 1) = some dp' ∧
      Filled (Right word1 word2) word1.length word2.length
        (fun i' j ↦ j = 0 ∨ i' ≤ i + 1) dp' := by
  have hturn (k : ℕ) (dp : Table) (hk : k < word2.length)
      (h : Filled (Right word1 word2) word1.length word2.length
        (fun i' j ↦ j = 0 ∨ i' ≤ i ∨ i' = i + 1 ∧ j ≤ k) dp) :
      ∃ dp', (do put dp (i + 1) (k + 1) (← cell word1 word2 dp (i + 1) (k + 1))) = some dp' ∧
        Filled (Right word1 word2) word1.length word2.length
          (fun i' j ↦ j = 0 ∨ i' ≤ i ∨ i' = i + 1 ∧ j ≤ k + 1) dp' := by
    obtain ⟨d, hd, hdval⟩ := cell_eq h hi hk hm hn (.inr (.inl le_rfl)) (.inr (.inl le_rfl))
      (.inr (.inr ⟨rfl, le_rfl⟩))
    obtain ⟨dp', hput, h'⟩ := h.put hi hk hdval
      fun i' j (hdone : j = 0 ∨ i' ≤ i ∨ i' = i + 1 ∧ j ≤ k + 1) hne ↦
        (by omega : j = 0 ∨ i' ≤ i ∨ i' = i + 1 ∧ j ≤ k)
    exact ⟨dp', by rw [hd]; exact hput, h'⟩
  obtain ⟨dp', hrun, h'⟩ := exists_exec_range hturn (h.mono fun i' j _ _ hd ↦ by omega)
  exact ⟨dp', hrun, h'.mono fun i' j _ hj hd ↦ by omega⟩

theorem minDistance_spec (hm : word1.length + 1 < 2 ^ 31) (hn : word2.length + 1 < 2 ^ 31) :
    ∃ d, minDistance word1 word2 = some d ∧ d.1 = (distance word1 word2 : ℕ) := by
  obtain ⟨dp₁, dp₂, hrun₁, hrun₂, h₂⟩ := exists_borders (by omega) (by omega)
    (filled_replicate word1.length word2.length (wrap 0))
  have hturn (k : ℕ) (dp : Table) (hk : k < word1.length)
      (h : Filled (Right word1 word2) word1.length word2.length (fun i j ↦ j = 0 ∨ i ≤ k) dp) :=
    fillRow_spec (by omega) (by omega) hk h
  obtain ⟨dp₃, hrun₃, h₃⟩ := exists_exec_range hturn h₂
  obtain ⟨d, hd, hdval⟩ := h₃.exists_get (Nat.le_refl _) (Nat.le_refl _) (.inr (Nat.le_refl _))
  rw [Right, List.take_length, List.take_length] at hdval
  refine ⟨d, ?_, hdval⟩
  simp only [minDistance, counter, if_pos hm, if_pos hn, Option.bind_eq_bind, Option.bind_some,
    hrun₁, hrun₂, hrun₃, hd]

theorem lt_of_minDistance {d : CInt} (h : minDistance word1 word2 = some d) :
    word1.length + 1 < 2 ^ 31 ∧ word2.length + 1 < 2 ^ 31 := by
  obtain ⟨is, his, h⟩ := Option.bind_eq_some_iff.1 h
  obtain ⟨js, hjs, -⟩ := Option.bind_eq_some_iff.1 h
  exact ⟨lt_of_counter his, lt_of_counter hjs⟩

/-- What is returned is the length of a shortest sequence of edits. -/
def FindsDistance (word1 word2 : List Char) : Prop :=
  ∃ d k, minDistance word1 word2 = some d ∧ d.1 = (k : ℕ) ∧
    IsLeast {k | Takes Edit k word1 word2} k

/-- **`minDistance`** finds the edit distance exactly if no index overflows. -/
theorem findsDistance_iff (word1 word2 : List Char) :
    FindsDistance word1 word2 ↔ word1.length + 1 < 2 ^ 31 ∧ word2.length + 1 < 2 ^ 31 := by
  constructor
  · rintro ⟨d, k, hrun, -⟩
    exact lt_of_minDistance hrun
  · rintro ⟨hm, hn⟩
    obtain ⟨d, hrun, hd⟩ := minDistance_spec hm hn
    exact ⟨d, distance word1 word2, hrun, hd, isLeast_distance word1 word2⟩

/-- A string of `2 ^ 31 - 1` characters and the empty one. -/
theorem not_forall_findsDistance : ¬ ∀ word1 word2, FindsDistance word1 word2 := by
  intro h
  obtain ⟨d, k, hrun, -⟩ := h (List.replicate (2 ^ 31 - 1) 'a') []
  have hlt := (lt_of_minDistance hrun).1
  rw [List.length_replicate] at hlt
  omega

end MinStringDistance
