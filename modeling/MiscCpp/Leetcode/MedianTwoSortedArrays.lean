import MiscCpp.Library.Counters
import MiscCpp.Library.Rank
import MiscCpp.Library.WhileLoop

/-!
# The elements in the middle of two sorted vectors

`findMedian` of `leetcode/other/medianTwoSortedArrays.cc`, with the conversions between `int` and
`size_t`, up to the mean that it returns.

The binary search looks for a cut of the shorter vector, from which the cut of the other one follows
(`search_spec`). If the cut is right, there are no greater elements in front of both cuts than
behind them, and the elements at the cuts have the ranks in the middle. The search begins with the
size of the shorter vector as an `int`; if this is not the size, it may stop too early, and then the
first value may still be right, but not the second one (`findMedian_iff`).
-/

open Access CInt Rank WhileLoop

namespace MedianTwoSortedArrays

/-! ### The program -/

/-- The body of the loop, for `l` and `r`. Sizes and what is subtracted from them are integers: no
result is negative. -/
def turn (nums1 nums2 : List CInt) (k : ℕ) (s : ℤ × ℤ) : Option (ℤ × ℤ) := do
  let m1 ← fit (s.1 + (← fit (s.2 - s.1)) / 2)
  let m2 := k - m1
  if (← get nums1 m1) < (← get nums2 (m2 - 1)) then some ((wrap (m1 + 1)).1, s.2)
  else some (s.1, (wrap m1).1)

/-- `m <= 0 ? INT_MIN : nums[m - 1]` -/
def before (nums : List CInt) (m : ℤ) : Option CInt :=
  if m ≤ 0 then some INT_MIN else get nums (m - 1)

/-- `m >= n ? INT_MAX : nums[m]` -/
def behind (nums : List CInt) (m : ℤ) : Option CInt :=
  if nums.length ≤ m then some INT_MAX else get nums m

/-- The values `c1` and, for an even total, `c2`. -/
def atCuts (nums1 nums2 : List CInt) (m1 m2 : ℤ) : Option (CInt × Option CInt) := do
  let c1 := max (← before nums1 m1) (← before nums2 m2)
  if (nums1.length + nums2.length) % 2 = 1 then some (c1, none)
  else
    let c2 := min (← behind nums1 m1) (← behind nums2 m2)
    some (c1, some c2)

def findMedian : ℕ → List CInt → List CInt → Option (CInt × Option CInt)
  | 0, _, _ => none
  | fuel + 1, nums1, nums2 =>
    let n1 := nums1.length
    let n2 := nums2.length
    if n2 < n1 then findMedian fuel nums2 nums1
    else do
      let k := (n1 + n2 + 1) / 2
      let (l, _) ← run (fun s ↦ some (s.1 < s.2)) (turn nums1 nums2 k) fuel (0, (wrap n1).1)
      atCuts nums1 nums2 l (k - l)

example : findMedian 10 ([2, 3, 7].map wrap) ([1, 2, 4, 11, 110].map wrap) =
    some (wrap 3, some (wrap 4)) := by decide +kernel

/-! ### The search -/

variable {a b nums1 nums2 : List CInt} {k l m n r fuel : ℕ} {x : CInt}

/-- The comparison of the loop at the cut `i`. -/
def Below (a b : List CInt) (k i : ℕ) : Prop := valueAt a i < valueAt b (k - i - 1)

/-- Where the search can stop among the cuts from 0 to `n`. -/
structure Stops (a b : List CInt) (k n l : ℕ) : Prop where
  le : l ≤ n
  below : l = 0 ∨ Below a b k (l - 1)
  stop : l = n ∨ ¬ Below a b k l

theorem valueAt_lt_iff {i j : ℤ} {x y : CInt} (hx : get a i = some x) (hy : get b j = some y) :
    valueAt a i < valueAt b j ↔ x < y := by
  rw [valueAt_of_get hx, valueAt_of_get hy]
  exact Iff.rfl

/-- The cuts from `l` to `r` are left. -/
structure Searching (a b : List CInt) (k n l r : ℕ) : Prop where
  le : l ≤ r
  le_last : r ≤ n
  below : l = 0 ∨ Below a b k (l - 1)
  stop : r = n ∨ ¬ Below a b k r

/-- **A turn** leaves fewer cuts. -/
theorem Searching.turn_spec (h : Searching a b k n l r) (hn : n ≤ a.length) (hint : n < 2 ^ 31)
    (hk : a.length ≤ k) (hb : k ≤ b.length) (hlt : l < r) :
    ∃ l' r' : ℕ, turn a b k (↑l, ↑r) = some (↑l', ↑r') ∧ Searching a b k n l' r' ∧
      r' - l' < r - l := by
  have hr := h.le_last
  obtain ⟨i, hi⟩ : ∃ i : ℕ, (l : ℤ) + (r - l) / 2 = i := ⟨l + (r - l) / 2, by omega⟩
  have hil : l ≤ i := by omega
  have hir : i < r := by omega
  obtain ⟨x, hx⟩ := exists_get (m := a) (i := i) (by omega) (by omega)
  obtain ⟨y, hy⟩ := exists_get (m := b) (i := k - i - 1) (by omega) (by omega)
  have hiff : Below a b k i ↔ x < y := valueAt_lt_iff hx hy
  have hturn : turn a b k (↑l, ↑r) =
      if x < y then some ((wrap (i + 1)).1, ↑r) else some (↑l, (wrap i).1) := by
    simp only [turn, fit_eq (n := (r : ℤ) - l) (by omega), Option.bind_eq_bind,
      Option.bind_some, hi, fit_eq (n := (i : ℤ)) (by omega), hx, hy]
  rw [hturn]
  by_cases hxy : x < y
  · rw [if_pos hxy, wrap_of_lt (by omega) (by omega)]
    exact ⟨i + 1, r, rfl, ⟨hir, hr, Or.inr (hiff.2 hxy), h.stop⟩, by omega⟩
  · rw [if_neg hxy, wrap_of_lt (by omega) (by omega)]
    exact ⟨l, i, rfl, ⟨hil, by omega, h.below, Or.inr fun hlow ↦ hxy (hiff.1 hlow)⟩, by omega⟩

/-- **The loop** ends at a cut where the search can stop. -/
theorem search_spec (hn : n ≤ a.length) (hint : n < 2 ^ 31) (hk : a.length ≤ k)
    (hb : k ≤ b.length) (hfuel : n < fuel) :
    ∃ l : ℕ, ∃ r, run (fun s : ℤ × ℤ ↦ some (decide (s.1 < s.2))) (turn a b k) fuel (0, (n : ℤ)) =
      some (↑l, r) ∧ Stops a b k n l := by
  have hcond (p : ℕ × ℕ) (s : ℤ × ℤ) (hs : s = (↑p.1, ↑p.2) ∧ Searching a b k n p.1 p.2) :
      some (decide (s.1 < s.2)) = some (decide (p.1 < p.2)) := by
    simp only [hs.1, Int.ofNat_lt]
  have hstep (p : ℕ × ℕ) (s : ℤ × ℤ) (hs : s = (↑p.1, ↑p.2) ∧ Searching a b k n p.1 p.2)
      (hlt : p.1 < p.2) : ∃ (q : ℕ × ℕ) (t : ℤ × ℤ), turn a b k s = some t ∧
        (t = (↑q.1, ↑q.2) ∧ Searching a b k n q.1 q.2) ∧
        (t.2 - t.1).toNat < (s.2 - s.1).toNat := by
    obtain ⟨rfl, hsearching⟩ := hs
    obtain ⟨l, r, hturn, hsearching', hfewer⟩ := hsearching.turn_spec hn hint hk hb hlt
    exact ⟨(l, r), _, hturn, ⟨rfl, hsearching'⟩, by omega⟩
  obtain ⟨⟨l, r⟩, s, hrun, ⟨rfl, h⟩, hge⟩ := exists_run_index (k := (0, n))
    (fun s : ℤ × ℤ ↦ (s.2 - s.1).toNat) hcond hstep
    ⟨rfl, Nat.zero_le n, le_rfl, Or.inl rfl, Or.inl rfl⟩ (show ((n : ℤ) - 0).toNat < fuel by omega)
  obtain rfl : l = r := h.le.antisymm (not_lt.1 hge)
  exact ⟨l, l, hrun, h.le_last, h.below, h.stop⟩

theorem Below.antitone (ha : a.Pairwise (· ≤ ·)) (hb : b.Pairwise (· ≤ ·)) {i j : ℕ}
    (h : Below a b k i) (hij : j ≤ i) (hi : i < a.length) (hik : i < k) (hk : k ≤ b.length) :
    Below a b k j := by
  have hle : valueAt a j ≤ valueAt a i :=
    valueAt_le_valueAt ha (Int.natCast_nonneg j) (by omega) (by omega)
  have hle' : valueAt b (k - i - 1) ≤ valueAt b (k - j - 1) :=
    valueAt_le_valueAt hb (by omega) (by omega) (by omega)
  exact (hle.trans_lt h).trans_le hle'

/-! ### The elements at the cuts -/

theorem before_spec (ha : a.Pairwise (· ≤ ·)) (hm : m ≤ a.length) :
    ∃ x, before a m = some x ∧ (∀ y ∈ a.take m, y ≤ x) ∧ (x ∈ a.take m ∨ x = INT_MIN) := by
  rcases m.eq_zero_or_pos with rfl | hpos
  · refine ⟨INT_MIN, rfl, fun y hy ↦ ?_, Or.inr rfl⟩
    rw [List.take_zero] at hy
    cases hy
  · have hget : before a m = some a[m - 1] := by
      have hpred : (m : ℤ) - 1 = (m - 1 : ℕ) := by omega
      rw [before, if_neg (by omega), hpred, get_natCast, List.getElem?_eq_getElem]
    refine ⟨_, hget, fun y hy ↦ ?_, Or.inl (List.mem_take_iff_getElem.2 ⟨m - 1, by omega, rfl⟩)⟩
    obtain ⟨i, hi, rfl⟩ := List.mem_take_iff_getElem.1 hy
    have hle : valueAt a i ≤ valueAt a (m - 1 : ℕ) :=
      valueAt_le_valueAt ha (Int.natCast_nonneg i) (by omega) (by omega)
    rwa [valueAt_getElem (by omega), valueAt_getElem (by omega)] at hle

theorem behind_spec (ha : a.Pairwise (· ≤ ·)) (hm : m ≤ a.length) :
    ∃ x, behind a m = some x ∧ (∀ y ∈ a.drop m, x ≤ y) ∧ (x ∈ a.drop m ∨ x = INT_MAX) := by
  rcases hm.lt_or_eq with hlt | rfl
  · have hget : behind a m = some a[m] := by
      rw [behind, if_neg (by omega), get_natCast, List.getElem?_eq_getElem]
    refine ⟨_, hget, fun y hy ↦ ?_, Or.inl (List.mem_drop_iff_getElem.2 ⟨0, by omega, rfl⟩)⟩
    obtain ⟨i, hi, rfl⟩ := List.mem_drop_iff_getElem.1 hy
    have hle : valueAt a m ≤ valueAt a (m + i : ℕ) :=
      valueAt_le_valueAt ha (Int.natCast_nonneg m) (by omega) (by omega)
    rwa [valueAt_getElem hlt, valueAt_getElem (by omega)] at hle
  · refine ⟨INT_MAX, if_pos le_rfl, fun y hy ↦ ?_, Or.inr rfl⟩
    rw [List.drop_length] at hy
    cases hy

theorem INT_MIN_le (x : CInt) : INT_MIN ≤ x := x.2.1

/-- The greatest element in front of both cuts. -/
theorem max_before_spec (ha : a.Pairwise (· ≤ ·)) (hb : b.Pairwise (· ≤ ·)) (hl : l ≤ a.length)
    (hm : m ≤ b.length) (hne : a.take l ++ b.take m ≠ []) :
    ∃ x y, before a l = some x ∧ before b m = some y ∧ max x y ∈ a.take l ++ b.take m ∧
      ∀ z ∈ a.take l ++ b.take m, z ≤ max x y := by
  obtain ⟨x, hx, hxle, hxmem⟩ := before_spec ha hl
  obtain ⟨y, hy, hyle, hymem⟩ := before_spec hb hm
  have hle : ∀ z ∈ a.take l ++ b.take m, z ≤ max x y := fun z hz ↦ by
    rcases List.mem_append.1 hz with hz | hz
    · exact (hxle z hz).trans (le_max_left x y)
    · exact (hyle z hz).trans (le_max_right x y)
  have hmem : max x y ∈ a.take l ++ b.take m ∨ max x y = INT_MIN := by
    rcases le_total x y with hxy | hxy
    · rw [max_eq_right hxy]
      exact hymem.imp_left (List.mem_append_right _)
    · rw [max_eq_left hxy]
      exact hxmem.imp_left (List.mem_append_left _)
  refine ⟨x, y, hx, hy, hmem.elim id fun hmin ↦ ?_, hle⟩
  -- `INT_MIN` stands for no element, but it is one if it is not less than all elements.
  obtain ⟨z, hz⟩ := List.exists_mem_of_ne_nil _ hne
  have heq : z = max x y := (hle z hz).antisymm (hmin ▸ INT_MIN_le z)
  rwa [← heq]

/-- The least element behind both cuts. -/
theorem min_behind_spec (ha : a.Pairwise (· ≤ ·)) (hb : b.Pairwise (· ≤ ·)) (hl : l ≤ a.length)
    (hm : m ≤ b.length) (hne : a.drop l ++ b.drop m ≠ []) :
    ∃ x y, behind a l = some x ∧ behind b m = some y ∧ min x y ∈ a.drop l ++ b.drop m ∧
      ∀ z ∈ a.drop l ++ b.drop m, min x y ≤ z := by
  obtain ⟨x, hx, hxle, hxmem⟩ := behind_spec ha hl
  obtain ⟨y, hy, hyle, hymem⟩ := behind_spec hb hm
  have hle : ∀ z ∈ a.drop l ++ b.drop m, min x y ≤ z := fun z hz ↦ by
    rcases List.mem_append.1 hz with hz | hz
    · exact (min_le_left x y).trans (hxle z hz)
    · exact (min_le_right x y).trans (hyle z hz)
  have hmem : min x y ∈ a.drop l ++ b.drop m ∨ min x y = INT_MAX := by
    rcases le_total x y with hxy | hxy
    · rw [min_eq_left hxy]
      exact hxmem.imp_left (List.mem_append_left _)
    · rw [min_eq_right hxy]
      exact hymem.imp_left (List.mem_append_right _)
  refine ⟨x, y, hx, hy, hmem.elim id fun hmax ↦ ?_, hle⟩
  obtain ⟨z, hz⟩ := List.exists_mem_of_ne_nil _ hne
  have heq : z = min x y := le_antisymm (hmax ▸ le_INT_MAX z) (hle z hz)
  rwa [← heq]

/-- In front of the cuts there are no greater elements than behind them. -/
theorem Stops.le_of_mem (h : Stops a b k n l) (ha : a.Pairwise (· ≤ ·)) (hb : b.Pairwise (· ≤ ·))
    (hl : l ≤ a.length) (hlk : l ≤ k) (hk : k ≤ b.length) (hstop : l = a.length ∨ ¬ Below a b k l) :
    ∀ x ∈ a.take l ++ b.take (k - l), ∀ y ∈ a.drop l ++ b.drop (k - l), x ≤ y := by
  intro x hx y hy
  -- On both sides of one cut, the vector is sorted; across the cuts, the search has compared.
  rcases List.mem_append.1 hx with hx | hx <;> rcases List.mem_append.1 hy with hy | hy
  · exact (List.pairwise_append.1 ((List.take_append_drop l a).symm ▸ ha)).2.2 x hx y hy
  · obtain ⟨i, hi, rfl⟩ := List.mem_take_iff_getElem.1 hx
    obtain ⟨j, hj, rfl⟩ := List.mem_drop_iff_getElem.1 hy
    have hbelow := h.below.resolve_left (by omega)
    have hi' : valueAt a i ≤ valueAt a (l - 1 : ℕ) :=
      valueAt_le_valueAt ha (Int.natCast_nonneg i) (by omega) (by omega)
    have hj' : valueAt b (k - (l - 1 : ℕ) - 1) ≤ valueAt b (k - l + j : ℕ) :=
      valueAt_le_valueAt hb (by omega) (by omega) (by omega)
    have hle := (hi'.trans hbelow.le).trans hj'
    rwa [valueAt_getElem (by omega), valueAt_getElem (by omega)] at hle
  · obtain ⟨i, hi, rfl⟩ := List.mem_take_iff_getElem.1 hx
    obtain ⟨j, hj, rfl⟩ := List.mem_drop_iff_getElem.1 hy
    have hle := not_lt.1 (hstop.resolve_left (by omega))
    have hi' : valueAt b i ≤ valueAt b (k - l - 1) :=
      valueAt_le_valueAt hb (Int.natCast_nonneg i) (by omega) (by omega)
    have hj' : valueAt a l ≤ valueAt a (l + j : ℕ) :=
      valueAt_le_valueAt ha (Int.natCast_nonneg l) (by omega) (by omega)
    have hle' := (hi'.trans hle).trans hj'
    rwa [valueAt_getElem (by omega), valueAt_getElem (by omega)] at hle'
  · exact (List.pairwise_append.1 ((List.take_append_drop (k - l) b).symm ▸ hb)).2.2 x hx y hy

/-- The values are the elements of the ranks in the middle. -/
def InMiddle (c : CInt × Option CInt) (nums : List CInt) : Prop :=
  IsRank nums ((nums.length + 1) / 2) c.1 ∧
    if nums.length % 2 = 1 then c.2 = none
    else ∃ c2, c.2 = some c2 ∧ IsRank nums ((nums.length + 1) / 2 + 1) c2

theorem inMiddle_perm {c : CInt × Option CInt} (h : nums1.Perm nums2) :
    InMiddle c nums1 ↔ InMiddle c nums2 := by
  have hrank (k : ℕ) (x : CInt) : IsRank nums1 k x ↔ IsRank nums2 k x :=
    ⟨fun hx ↦ hx.perm h, fun hx ↦ hx.perm h.symm⟩
  simp only [InMiddle, hrank, h.length_eq]

theorem perm_cuts (a b : List CInt) (l m : ℕ) :
    ((a.take l ++ b.take m) ++ (a.drop l ++ b.drop m)).Perm (a ++ b) := by
  have hmid : (b.take m ++ (a.drop l ++ b.drop m)).Perm (a.drop l ++ (b.take m ++ b.drop m)) := by
    rw [← List.append_assoc, ← List.append_assoc]
    exact List.perm_append_comm.append_right _
  have hall := hmid.append_left (a.take l)
  rwa [List.take_append_drop, ← List.append_assoc, ← List.append_assoc (a.take l) (a.drop l),
    List.take_append_drop] at hall

theorem atCuts_eq {m1 m2 : ℤ} {x y x' y' : CInt} (hx : before a m1 = some x)
    (hy : before b m2 = some y) (hx' : behind a m1 = some x') (hy' : behind b m2 = some y') :
    atCuts a b m1 m2 = some (max x y,
      if (a.length + b.length) % 2 = 1 then none else some (min x' y')) := by
  simp only [atCuts, hx, hy, hx', hy', Option.bind_eq_bind, Option.bind_some]
  split <;> rfl

/-- **At the right cuts** the values are found. -/
theorem Stops.inMiddle (h : Stops a b k n l) (ha : a.Pairwise (· ≤ ·)) (hb : b.Pairwise (· ≤ ·))
    (hk : k = (a.length + b.length + 1) / 2) (hle : a.length ≤ b.length) (hpos : 0 < b.length)
    (hl : l ≤ a.length) (hstop : l = a.length ∨ ¬ Below a b k l) :
    ∃ c, atCuts a b l (k - l) = some c ∧ InMiddle c (a ++ b) := by
  have hcross := h.le_of_mem ha hb hl (by omega) (by omega) hstop
  have hm : k - l ≤ b.length := by omega
  have hlen : (a ++ b).length = a.length + b.length := List.length_append
  have hfront : (a.take l ++ b.take (k - l)).length = k := by
    rw [List.length_append, List.length_take, List.length_take]
    omega
  obtain ⟨x, y, hx, hy, hmem, hmax⟩ := max_before_spec ha hb hl hm
    (List.ne_nil_of_length_pos (by omega))
  have hrank := (isRank_front hcross hmem hmax).perm (perm_cuts a b l (k - l))
  obtain ⟨x', hx', -⟩ := behind_spec ha hl
  obtain ⟨y', hy', -⟩ := behind_spec hb hm
  rw [hfront] at hrank
  have hcast : (k : ℤ) - l = (k - l : ℕ) := by omega
  rw [hcast]
  refine ⟨_, atCuts_eq hx hy hx' hy', by rwa [hlen, ← hk], ?_⟩
  rw [hlen]
  split
  next => rfl
  next hodd =>
    have hback : a.drop l ++ b.drop (k - l) ≠ [] := by
      refine List.ne_nil_of_length_pos ?_
      rw [List.length_append, List.length_drop, List.length_drop]
      omega
    obtain ⟨x₁, y₁, hx₁, hy₁, hmem', hmin⟩ := min_behind_spec ha hb hl hm hback
    obtain rfl := Option.some.inj (hx'.symm.trans hx₁)
    obtain rfl := Option.some.inj (hy'.symm.trans hy₁)
    have hrank' := (isRank_back hcross hmem' hmin).perm (perm_cuts a b l (k - l))
    rw [hfront] at hrank'
    exact ⟨_, rfl, by rwa [← hk]⟩

/-- The elements in front of the cuts, and one more. -/
theorem le_countP (ha : a.Pairwise (· ≤ ·)) (hb : b.Pairwise (· ≤ ·)) (hl : l < a.length)
    (hm : m < b.length) (hle : a[l] ≤ b[m]) :
    l + 1 + (m + 1) ≤ (a ++ b).countP (· ≤ b[m]) := by
  have hsub : (a.take (l + 1) ++ b.take (m + 1)).Sublist (a ++ b) :=
    (List.take_sublist _ _).append (List.take_sublist _ _)
  have hall : (a.take (l + 1) ++ b.take (m + 1)).countP (· ≤ b[m]) =
      (a.take (l + 1) ++ b.take (m + 1)).length := by
    refine List.countP_eq_length.2 fun z hz ↦ decide_eq_true ?_
    rcases List.mem_append.1 hz with hz | hz
    · obtain ⟨i, hi, rfl⟩ := List.mem_take_iff_getElem.1 hz
      have hil : valueAt a i ≤ valueAt a l :=
        valueAt_le_valueAt ha (Int.natCast_nonneg i) (by omega) (by omega)
      rw [valueAt_getElem (by omega), valueAt_getElem hl] at hil
      exact le_trans hil hle
    · obtain ⟨i, hi, rfl⟩ := List.mem_take_iff_getElem.1 hz
      have him : valueAt b i ≤ valueAt b m :=
        valueAt_le_valueAt hb (Int.natCast_nonneg i) (by omega) (by omega)
      rwa [valueAt_getElem (by omega), valueAt_getElem hm] at him
  have hcount := hsub.countP_le (p := (· ≤ b[m]))
  rw [hall, List.length_append, List.length_take, List.length_take] at hcount
  omega

/-- At a cut of the first vector that is too early, the first value is the element in front of the
cut of the second vector. -/
theorem atCuts_of_below (ha : a.Pairwise (· ≤ ·)) (hb : b.Pairwise (· ≤ ·))
    (hk : k = (a.length + b.length + 1) / 2) (hle : a.length ≤ b.length) (hl : l < a.length)
    {y : CInt} (hx : get a l = some x) (hy : get b (k - l - 1) = some y) (hxy : x < y) :
    ∃ c, atCuts a b l (k - l) = some c ∧ (InMiddle c (a ++ b) ↔
      (a.length + b.length) % 2 = 1 ∧ (a ++ b).countP (· < y) < k) := by
  have hlen : (a ++ b).length = a.length + b.length := List.length_append
  obtain ⟨x₀, hx₀, hx₀le, hx₀mem⟩ := before_spec ha hl.le
  have hx₀y : x₀ ≤ y := by
    rcases hx₀mem with hmem | rfl
    · have hcross := (List.pairwise_append.1 ((List.take_append_drop l a).symm ▸ ha)).2.2
      rw [get_natCast] at hx
      obtain ⟨hl', rfl⟩ := List.getElem?_eq_some_iff.1 hx
      exact (hcross x₀ hmem a[l] (List.mem_drop_iff_getElem.2 ⟨0, by omega, rfl⟩)).trans hxy.le
    · exact INT_MIN_le y
  have hbefore : before b (k - l) = some y := by rw [before, if_neg (by omega), hy]
  have hbehind : behind a l = some x := by rw [behind, if_neg (by omega), hx]
  have hcast : (k : ℤ) - l = (k - l : ℕ) := by omega
  obtain ⟨y', hy', -⟩ := behind_spec hb (show k - l ≤ b.length by omega)
  rw [← hcast] at hy'
  have hcount : k ≤ (a ++ b).countP (· ≤ y) := by
    have hpred : (k : ℤ) - l - 1 = (k - l - 1 : ℕ) := by omega
    rw [get_natCast] at hx
    rw [hpred, get_natCast] at hy
    obtain ⟨hl', rfl⟩ := List.getElem?_eq_some_iff.1 hx
    obtain ⟨hm, rfl⟩ := List.getElem?_eq_some_iff.1 hy
    have hcount := le_countP ha hb hl' hm hxy.le
    omega
  refine ⟨_, atCuts_eq hx₀ hbefore hbehind hy', ?_⟩
  rw [InMiddle, hlen, ← hk, max_eq_right hx₀y]
  by_cases hodd : (a.length + b.length) % 2 = 1
  · rw [if_pos hodd, if_pos hodd, and_iff_left rfl, and_iff_right hodd]
    exact and_iff_left hcount
  · rw [if_neg hodd, if_neg hodd]
    refine iff_of_false ?_ fun h ↦ hodd h.1
    rintro ⟨hrank, c2, hc2, hrank'⟩
    obtain rfl := Option.some.inj hc2
    exact absurd (hrank.le hrank' (Nat.le_succ k)) (not_le.2 ((min_le_left x y').trans_lt hxy))

/-! ### The function -/

/-- The two vectors in order, as one. -/
def merged (nums1 nums2 : List CInt) : List CInt := nums1.merge nums2 fun x y ↦ x ≤ y

/-- The values are the elements in the middle, counted from 1 at the places `(n1 + n2 + 1) / 2` and,
for an even total, the next one. -/
def FindsMiddle (nums1 nums2 : List CInt) : Prop :=
  ∃ n, ∀ fuel ≥ n, ∃ c1 c2, findMedian fuel nums1 nums2 = some (c1, c2) ∧
    (merged nums1 nums2)[(nums1.length + nums2.length + 1) / 2 - 1]? = some c1 ∧
    if (nums1.length + nums2.length) % 2 = 1 then c2 = none
    else ∃ c, c2 = some c ∧
      (merged nums1 nums2)[(nums1.length + nums2.length + 1) / 2]? = some c

theorem merged_getElem? (h₁ : nums1.Pairwise (· ≤ ·)) (h₂ : nums2.Pairwise (· ≤ ·))
    (hk : k < nums1.length + nums2.length) :
    (merged nums1 nums2)[k]? = some x ↔ IsRank (nums1 ++ nums2) (k + 1) x := by
  have hsorted : (merged nums1 nums2).Pairwise fun x y ↦ decide (x ≤ y) = true :=
    List.pairwise_merge
      (fun x y z hxy hyz ↦ decide_eq_true ((of_decide_eq_true hxy).trans (of_decide_eq_true hyz)))
      (fun x y ↦ by
        rw [Bool.or_eq_true, decide_eq_true_iff, decide_eq_true_iff]
        exact le_total x y)
      nums1 nums2 (h₁.imp fun h ↦ decide_eq_true h) (h₂.imp fun h ↦ decide_eq_true h)
  exact getElem?_eq_some_iff_isRank (hsorted.imp fun h ↦ of_decide_eq_true h)
    (List.merge_perm_append _) (by rwa [List.length_append])

theorem inMiddle_iff (h₁ : nums1.Pairwise (· ≤ ·)) (h₂ : nums2.Pairwise (· ≤ ·))
    (hne : nums1 ≠ [] ∨ nums2 ≠ []) (c1 : CInt) (c2 : Option CInt) :
    InMiddle (c1, c2) (nums1 ++ nums2) ↔
      (merged nums1 nums2)[(nums1.length + nums2.length + 1) / 2 - 1]? = some c1 ∧
        if (nums1.length + nums2.length) % 2 = 1 then c2 = none
        else ∃ c, c2 = some c ∧
          (merged nums1 nums2)[(nums1.length + nums2.length + 1) / 2]? = some c := by
  have hpos : 0 < nums1.length + nums2.length := by
    rcases hne with hne | hne
    · have hpos := List.length_pos_of_ne_nil hne
      omega
    · have hpos := List.length_pos_of_ne_nil hne
      omega
  rw [InMiddle, List.length_append, merged_getElem? h₁ h₂ (by omega),
    Nat.sub_add_cancel (by omega)]
  refine and_congr_right fun _ ↦ ?_
  split
  next => exact Iff.rfl
  next hodd => exact exists_congr fun c ↦ by rw [merged_getElem? h₁ h₂ (by omega)]

/-- The last cut of the search: the size of the shorter vector as an `int`, if not negative. -/
def lastCut (a : List CInt) : ℕ := (wrap a.length).1.toNat

/-- The search begins with the size of the shorter vector `a`, or the right cut is not behind the
last one. If it is, an odd total is needed, and less than `k` elements that are less than the first
value. -/
def Works (a b : List CInt) : Prop :=
  let k := (a.length + b.length + 1) / 2
  (wrap a.length).1 = a.length ∨
    ∃ x y, get a (lastCut a) = some x ∧ get b (k - lastCut a - 1) = some y ∧
      (y ≤ x ∨ (a.length + b.length) % 2 = 1 ∧ (a ++ b).countP (· < y) < k)

theorem lastCut_le (a : List CInt) : lastCut a ≤ a.length := by
  have hle := wrap_le (Int.natCast_nonneg a.length)
  rw [lastCut]
  omega

theorem exists_run_search (hk : a.length ≤ k) (hb : k ≤ b.length) (hfuel : lastCut a < fuel) :
    ∃ l : ℕ, ∃ r, run (fun s : ℤ × ℤ ↦ some (decide (s.1 < s.2))) (turn a b k) fuel
      (0, (wrap a.length).1) = some (↑l, r) ∧ Stops a b k (lastCut a) l := by
  have hlt := (wrap a.length).2.2
  have hle := lastCut_le a
  obtain ⟨w, hw⟩ : ∃ w, (wrap a.length).1 = w := ⟨_, rfl⟩
  rw [lastCut, hw] at hfuel hle ⊢
  rw [hw] at hlt
  rcases lt_or_ge w 0 with hneg | hnonneg
  · obtain ⟨fuel, rfl⟩ := Nat.exists_eq_succ_of_ne_zero (Nat.ne_of_gt (Nat.zero_lt_of_lt hfuel))
    have hcond : ¬ 0 < w := by omega
    rw [Int.toNat_of_nonpos hneg.le]
    refine ⟨0, w, ?_, Nat.le_refl 0, Or.inl rfl, Or.inl rfl⟩
    rw [run]
    simp only [hcond, decide_false, Option.bind_some]
    rfl
  · obtain ⟨l, r, hrun, hstops⟩ := search_spec hle (by omega) hk hb hfuel
    rw [Int.toNat_of_nonneg hnonneg] at hrun
    exact ⟨l, r, hrun, hstops⟩

/-- A run with the shorter vector first. -/
theorem exists_findMedian (ha : a.Pairwise (· ≤ ·)) (hb : b.Pairwise (· ≤ ·))
    (hle : a.length ≤ b.length) (hpos : 0 < b.length) (hfuel : lastCut a + 1 < fuel) :
    ∃ c, findMedian fuel a b = some c ∧ (InMiddle c (a ++ b) ↔ Works a b) := by
  obtain ⟨fuel, rfl⟩ := Nat.exists_eq_succ_of_ne_zero (Nat.ne_of_gt (Nat.zero_lt_of_lt hfuel))
  obtain ⟨k, hk⟩ : ∃ k, (a.length + b.length + 1) / 2 = k := ⟨_, rfl⟩
  obtain ⟨l, r, hrun, hstops⟩ := exists_run_search (show a.length ≤ k by omega)
    (show k ≤ b.length by omega) (show lastCut a < fuel by omega)
  have hlast := lastCut_le a
  have hlength : (wrap a.length).1 = a.length ↔ lastCut a = a.length := by
    have hmod := wrap_mod a.length
    have hbounds := (wrap a.length).2
    rw [lastCut]
    omega
  have hfind : findMedian (fuel + 1) a b = atCuts a b l (k - l) := by
    rw [findMedian]
    simp only [if_neg (Nat.not_lt.2 hle), hk, hrun, Option.bind_eq_bind, Option.bind_some]
  rw [hfind, Works, hk, hlength]
  obtain ⟨cut, hcut⟩ : ∃ cut, lastCut a = cut := ⟨_, rfl⟩
  rw [hcut] at hstops hlast ⊢
  have hl := hstops.le
  by_cases hgood : l = a.length ∨ ¬ Below a b k l
  · obtain ⟨c, hc, hmiddle⟩ := hstops.inMiddle ha hb hk.symm hle hpos (by omega) hgood
    refine ⟨c, hc, iff_of_true hmiddle ?_⟩
    rcases hlast.lt_or_eq with hlt | heq
    · obtain ⟨x, hx⟩ := exists_get (m := a) (i := cut) (by omega) (by omega)
      obtain ⟨y, hy⟩ := exists_get (m := b) (i := k - cut - 1) (by omega) (by omega)
      refine Or.inr ⟨x, y, hx, hy, Or.inl (not_lt.1 fun hxy ↦ ?_)⟩
      have hbelow : Below a b k cut := (valueAt_lt_iff hx hy).2 hxy
      exact hgood.elim (by omega) fun hnot ↦
        hnot (hbelow.antitone ha hb hl hlt (by omega) (by omega))
    · exact Or.inl heq
  · obtain ⟨hne, hbelow⟩ := not_or.1 hgood
    rw [not_not] at hbelow
    obtain rfl : l = cut := hstops.stop.resolve_right (not_not.2 hbelow)
    obtain ⟨x, hx⟩ := exists_get (m := a) (i := l) (by omega) (by omega)
    obtain ⟨y, hy⟩ := exists_get (m := b) (i := k - l - 1) (by omega) (by omega)
    have hxy := (valueAt_lt_iff hx hy).1 hbelow
    obtain ⟨c, hc, hiff⟩ := atCuts_of_below ha hb hk.symm hle (by omega) hx hy hxy
    refine ⟨c, hc, hiff.trans ⟨fun h ↦ Or.inr ⟨x, y, hx, hy, Or.inr h⟩, fun h ↦ ?_⟩⟩
    obtain ⟨x', y', hx', hy', h⟩ := h.resolve_left hne
    obtain rfl := Option.some.inj (hx.symm.trans hx')
    obtain rfl := Option.some.inj (hy.symm.trans hy')
    exact h.resolve_left (not_le.2 hxy)

/-- Every run, with either vector first. -/
theorem exists_runs (h₁ : nums1.Pairwise (· ≤ ·)) (h₂ : nums2.Pairwise (· ≤ ·))
    (hpos : 0 < nums1.length + nums2.length) :
    ∃ m : ℕ, ∀ fuel ≥ m, ∃ c, findMedian fuel nums1 nums2 = some c ∧ (InMiddle c (nums1 ++ nums2) ↔
      if nums2.length < nums1.length then Works nums2 nums1 else Works nums1 nums2) := by
  by_cases hlt : nums2.length < nums1.length
  · refine ⟨lastCut nums2 + 3, fun fuel hfuel ↦ ?_⟩
    obtain ⟨fuel, rfl⟩ := Nat.exists_eq_succ_of_ne_zero (n := fuel) (by omega)
    obtain ⟨c, hc, hiff⟩ := exists_findMedian h₂ h₁ hlt.le (by omega)
      (show lastCut nums2 + 1 < fuel by omega)
    have hperm : InMiddle c (nums1 ++ nums2) ↔ InMiddle c (nums2 ++ nums1) :=
      inMiddle_perm List.perm_append_comm
    refine ⟨c, ?_, by rw [if_pos hlt, hperm, hiff]⟩
    rw [findMedian]
    simp only [if_pos hlt, hc]
  · refine ⟨lastCut nums1 + 2, fun fuel hfuel ↦ ?_⟩
    rw [if_neg hlt]
    exact exists_findMedian h₁ h₂ (by omega) (by omega) hfuel

theorem length_add_pos (hne : nums1 ≠ [] ∨ nums2 ≠ []) : 0 < nums1.length + nums2.length :=
  hne.elim (fun hne ↦ Nat.add_pos_left (List.length_pos_of_ne_nil hne) _)
    fun hne ↦ Nat.add_pos_right _ (List.length_pos_of_ne_nil hne)

/-- The search gets far enough if the elements in the middle are found. -/
theorem FindsMiddle.works (h : FindsMiddle nums1 nums2) (h₁ : nums1.Pairwise (· ≤ ·))
    (h₂ : nums2.Pairwise (· ≤ ·)) (hne : nums1 ≠ [] ∨ nums2 ≠ []) :
    if nums2.length < nums1.length then Works nums2 nums1 else Works nums1 nums2 := by
  obtain ⟨m, hrun⟩ := exists_runs h₁ h₂ (length_add_pos hne)
  obtain ⟨n, h⟩ := h
  obtain ⟨c1, c2, hc, hmiddle⟩ := h (max n m) (Nat.le_max_left n m)
  obtain ⟨c, hc', hiff⟩ := hrun (max n m) (Nat.le_max_right n m)
  obtain rfl := Option.some.inj (hc.symm.trans hc')
  exact hiff.1 ((inMiddle_iff h₁ h₂ hne c1 c2).2 hmiddle)

/-- **`findMedian`** finds the elements in the middle exactly if the search gets far enough. -/
theorem findMedian_iff (nums1 nums2 : List CInt) (h₁ : nums1.Pairwise (· ≤ ·))
    (h₂ : nums2.Pairwise (· ≤ ·)) (hne : nums1 ≠ [] ∨ nums2 ≠ []) :
    FindsMiddle nums1 nums2 ↔
      if nums2.length < nums1.length then Works nums2 nums1 else Works nums1 nums2 := by
  refine ⟨fun h ↦ h.works h₁ h₂ hne, fun h ↦ ?_⟩
  obtain ⟨m, hrun⟩ := exists_runs h₁ h₂ (length_add_pos hne)
  refine ⟨m, fun fuel hfuel ↦ ?_⟩
  obtain ⟨⟨c1, c2⟩, hc, hiff⟩ := hrun fuel hfuel
  exact ⟨c1, c2, hc, (inMiddle_iff h₁ h₂ hne c1 c2).1 (hiff.2 h)⟩

theorem findMedian_iff_eight :
    FindsMiddle ([2, 3, 7].map wrap) ([1, 2, 4, 11, 110].map wrap) ↔
      Works ([2, 3, 7].map wrap) ([1, 2, 4, 11, 110].map wrap) :=
  (findMedian_iff ([2, 3, 7].map wrap) ([1, 2, 4, 11, 110].map wrap) (by decide) (by decide)
    (Or.inl (by decide))).trans (by rw [if_neg (by decide)])

/-- `2 ^ 31` zeros, and as many ones. -/
theorem not_forall_findsMiddle :
    ¬ ∀ nums1 nums2 : List CInt, nums1.Pairwise (· ≤ ·) → nums2.Pairwise (· ≤ ·) →
      nums1 ≠ [] ∨ nums2 ≠ [] → FindsMiddle nums1 nums2 := by
  intro h
  obtain ⟨a, ha⟩ : ∃ a, List.replicate (2 ^ 31) (wrap 0) = a := ⟨_, rfl⟩
  obtain ⟨b, hb⟩ : ∃ b, List.replicate (2 ^ 31) (wrap 1) = b := ⟨_, rfl⟩
  have hlen : a.length = 2 ^ 31 := by rw [← ha, List.length_replicate]
  have hlen' : b.length = 2 ^ 31 := by rw [← hb, List.length_replicate]
  have hsorted : a.Pairwise (· ≤ ·) := by
    rw [← ha]
    exact List.pairwise_replicate.2 (Or.inr le_rfl)
  have hsorted' : b.Pairwise (· ≤ ·) := by
    rw [← hb]
    exact List.pairwise_replicate.2 (Or.inr le_rfl)
  have hne : a ≠ [] ∨ b ≠ [] := Or.inl (List.ne_nil_of_length_pos (by omega))
  have hworks := (h a b hsorted hsorted' hne).works hsorted hsorted' hne
  rw [if_neg (by omega), Works, hlen] at hworks
  rcases hworks with hwrap | ⟨x, y, hx, hy, hle | ⟨hodd, -⟩⟩
  · exact absurd hwrap (by decide)
  · have hx' : x = wrap 0 := by
      rw [get_natCast, ← ha] at hx
      exact List.eq_of_mem_replicate (List.mem_of_getElem? hx)
    have hy' : y = wrap 1 := by
      rw [Access.get, if_pos (get_bounds hy).1, ← hb] at hy
      exact List.eq_of_mem_replicate (List.mem_of_getElem? hy)
    rw [hx', hy'] at hle
    exact absurd hle (by decide)
  · omega

end MedianTwoSortedArrays
