import MiscCpp.Library.Access
import MiscCpp.Library.CInt
import MiscCpp.Library.MergeRuns
import MiscCpp.Library.Search
import MiscCpp.Library.WhileLoop

/-!
# Merge sort

`mergeSort` of `leetcode/divideANDconquer/sortArray.cc`.

The loop merges two sorted ranges of the vector into `t` (`mergeLoop_spec`), from where they are
copied back over both of them. Of two equal elements the one from the second range comes first,
so what the loop computes is the merge of the second list with the first one (`merge_lt_eq`).

The range of the whole vector ends at `nums.size()` as an `int`. So all elements are sorted up to
`2 ^ 31 - 1` of them (`sortsInPlace_mergeSort`), and a prefix of every longer vector
(`mergeSort_spec`).
-/

open Access CInt

namespace MergeSort

/-! ### The program -/

/-- The second vector and the positions in the two runs. -/
structure State where
  t : List CInt
  i1 : ℤ
  i2 : ℤ
  index : ℤ

/-- `t[index++] = nums[i++]`, with `t`, `index` and `i` after it. -/
def take (nums t : List CInt) (index i : ℤ) : Option (List CInt × ℤ × ℤ) := do
  let t ← put t index (← get nums i)
  some (t, ← fit (index + 1), ← fit (i + 1))

/-- `i2 == r || (i1 < m && nums[i1] < nums[i2])` -/
def takesFirst (nums : List CInt) (m r : ℤ) (s : State) : Option Bool :=
  if s.i2 = r then some true
  else if s.i1 < m then do
    let x ← get nums s.i1
    let y ← get nums s.i2
    some (x < y)
  else some false

/-- The body of the loop. -/
def turn (nums : List CInt) (m r : ℤ) (s : State) : Option State := do
  if ← takesFirst nums m r s then
    let (t, index, i1) ← take nums s.t s.index s.i1
    some { s with t := t, index := index, i1 := i1 }
  else
    let (t, index, i2) ← take nums s.t s.index s.i2
    some { s with t := t, index := index, i2 := i2 }

/-- Merge two runs into the second vector. -/
def mergeLoop (nums : List CInt) (m r : ℤ) (fuel : ℕ) (s : State) : Option State :=
  WhileLoop.run (fun s ↦ some (s.i1 < m ∨ s.i2 < r)) (turn nums m r) fuel s

/-- `std::copy(begin(t), begin(t) + index, begin(nums) + l)` -/
def copy (t nums : List CInt) (index l : ℤ) : Option (List CInt) :=
  if 0 ≤ index ∧ index ≤ t.length ∧ 0 ≤ l ∧ l + index ≤ nums.length then
    some (nums.take l.toNat ++ t.take index.toNat ++ nums.drop (l + index).toNat)
  else none

/-- `sort`, with `t` and `nums` before and after it. -/
def sort : ℕ → ℤ → ℤ → List CInt → List CInt → Option (List CInt × List CInt)
  | 0, _, _, _, _ => none
  | fuel + 1, l, r, t, nums => do
    let next ← fit (l + 1)
    if next ≥ r then some (t, nums)
    else do
      let d ← fit (r - l)
      let m ← fit (l + d / 2)
      let (t, nums) ← sort fuel l m t nums
      let (t, nums) ← sort fuel m r t nums
      let s ← mergeLoop nums m r fuel ⟨t, l, m, 0⟩
      some (s.t, ← copy s.t nums s.index l)

/-- `nums.size()` as an `int`. It is not unfolded where it decides how long a list is. -/
@[irreducible] def size (n : ℕ) : CInt := wrap n

/-- Sort the whole vector, with a second one of the same size. -/
def mergeSort (fuel : ℕ) (nums : List CInt) : Option (List CInt) := do
  let t := List.replicate nums.length (wrap 0)
  let (_, nums) ← sort fuel 0 (size nums.length).1 t nums
  some nums

example : mergeSort 9 ([3, 4, 5, 6, 4, 2, 3].map wrap) =
    some ([2, 3, 3, 4, 4, 5, 6].map wrap) := by decide +kernel

/-! ### The loop -/

/-- What the loop makes of two lists. -/
def merged (xs ys : List CInt) : List CInt := List.merge xs ys fun x y ↦ x < y

/-- Of two equal elements the one of the second run comes first. -/
theorem merged_cons_cons (x y : CInt) (xs ys : List CInt) : merged (x :: xs) (y :: ys) =
    if x < y then x :: merged xs (y :: ys) else y :: merged (x :: xs) ys := by
  rw [merged, List.merge]
  simp only [decide_eq_true_eq]
  rfl

/-- Whether the next element is from the first list. -/
def firstIsNext : List CInt → List CInt → Bool
  | _, [] => true
  | [], _ :: _ => false
  | x :: _, y :: _ => x < y

theorem merged_of_first {x : CInt} {xs ys : List CInt} (h : firstIsNext (x :: xs) ys = true) :
    merged (x :: xs) ys = x :: merged xs ys := by
  cases ys with
  | nil => rw [merged, merged, List.merge_right, List.merge_right]
  | cons y ys => rw [merged_cons_cons, if_pos (of_decide_eq_true h)]

theorem merged_of_second {y : CInt} {xs ys : List CInt} (h : firstIsNext xs (y :: ys) = false) :
    merged xs (y :: ys) = y :: merged xs ys := by
  cases xs with
  | nil => rw [merged, merged, List.nil_merge, List.nil_merge]
  | cons x xs => rw [merged_cons_cons, if_neg (of_decide_eq_false h)]

/-- The second element is taken unless the first one is less. -/
theorem merge_lt_eq (xs ys : List CInt) : merged xs ys = List.merge ys xs fun y x ↦ y ≤ x := by
  induction xs generalizing ys with
  | nil => rw [merged, List.nil_merge, List.merge_right]
  | cons x xs ihx =>
    induction ys with
    | nil => rw [merged, List.nil_merge, List.merge_right]
    | cons y ys ihy =>
      rw [merged_cons_cons, List.cons_merge_cons, ihx, ihy]
      rcases lt_or_ge x y with hlt | hge
      · rw [if_pos hlt, if_neg]
        rwa [decide_eq_true_iff, not_le]
      · rw [if_neg (not_lt.2 hge), if_pos]
        rwa [decide_eq_true_iff]

/-- Merging keeps the elements. -/
theorem merged_perm (xs ys : List CInt) : (merged xs ys).Perm (xs ++ ys) :=
  List.merge_perm_append _

/-- Merging sorted runs sorts. -/
theorem pairwise_merged {xs ys : List CInt} (hx : xs.Pairwise (· ≤ ·))
    (hy : ys.Pairwise (· ≤ ·)) : (merged xs ys).Pairwise (· ≤ ·) := by
  rw [merge_lt_eq]
  exact MergeRuns.pairwise_merge id hy hx

variable {nums t t' xs ys : List CInt} {x y : CInt} {i i1 i2 m r index fuel : ℕ}

theorem of_drop_take_eq_cons (h : (nums.take m).drop i = x :: xs) :
    i < m ∧ i < nums.length ∧ get nums i = some x ∧ (nums.take m).drop (i + 1) = xs := by
  have hlt : i < (nums.take m).length := Nat.lt_of_not_le fun hle ↦ by
    rw [List.drop_eq_nil_of_le hle] at h
    cases h
  rw [List.drop_eq_getElem_cons hlt] at h
  obtain ⟨hx, hxs⟩ := List.cons.inj h
  rw [List.length_take] at hlt
  rw [List.getElem_take] at hx
  refine ⟨by omega, by omega, ?_, hxs⟩
  rw [get_natCast, List.getElem?_eq_some_iff]
  exact ⟨by omega, hx⟩

/-- An element is taken into the second vector. -/
theorem take_spec (hx : get nums i = some x) (hindex : index < t.length)
    (hfit : index + 1 < 2 ^ 31) (hi : i + 1 < 2 ^ 31) :
    take nums t index i = some (t.set index x, ((index + 1 : ℕ) : ℤ), ((i + 1 : ℕ) : ℤ)) := by
  obtain ⟨y, hy⟩ := exists_get (m := t) (i := index) (by omega) (by omega)
  rw [take, hx, Option.bind_eq_bind, Option.bind_some, put_eq hy, Option.bind_eq_bind,
    Option.bind_some, fit_eq (by omega), fit_eq (by omega)]
  rfl

theorem take_set_append (x : CInt) (hindex : index < t.length) (zs : List CInt) :
    (t.set index x).take (index + 1) ++ zs = t.take index ++ x :: zs := by
  rw [List.take_succ_eq_append_getElem (by rwa [List.length_set]), List.take_set_of_le le_rfl,
    List.getElem_set_self, List.append_assoc, List.singleton_append]

/-- What is left of the two ranges. -/
structure Rest (nums : List CInt) (m r i1 i2 : ℕ) (xs ys : List CInt) : Prop where
  first : (nums.take m).drop i1 = xs
  second : (nums.take r).drop i2 = ys
  bounds : i1 ≤ m ∧ m ≤ nums.length ∧ i2 ≤ r ∧ r ≤ nums.length

theorem Rest.first_eq_nil (h : Rest nums m r i1 i2 xs ys) : xs = [] ↔ i1 = m := by
  have hbounds := h.bounds
  rw [← h.first, List.drop_eq_nil_iff, List.length_take]
  omega

theorem Rest.second_eq_nil (h : Rest nums m r i1 i2 xs ys) : ys = [] ↔ i2 = r := by
  have hbounds := h.bounds
  rw [← h.second, List.drop_eq_nil_iff, List.length_take]
  omega

/-- The comparison decides which run the next element is from. -/
theorem Rest.takesFirst (h : Rest nums m r i1 i2 xs ys) (t : List CInt) (index : ℤ) :
    takesFirst nums m r ⟨t, i1, i2, index⟩ = some (firstIsNext xs ys) := by
  have hbounds := h.bounds
  have hnil := h.second_eq_nil
  rw [MergeSort.takesFirst]
  cases ys with
  | nil => rw [if_pos (congrArg Nat.cast (hnil.1 rfl)), firstIsNext]
  | cons y ys =>
    obtain ⟨hlt, -, hy, -⟩ := of_drop_take_eq_cons h.second
    rw [if_neg (show ¬ (i2 : ℤ) = r by omega)]
    cases xs with
    | nil =>
      have heq := h.first_eq_nil.1 rfl
      rw [if_neg (show ¬ (i1 : ℤ) < m by omega), firstIsNext]
    | cons x xs =>
      obtain ⟨hlt, -, hx, -⟩ := of_drop_take_eq_cons h.first
      rw [if_pos (show (i1 : ℤ) < m by omega), hx, hy]
      rfl

theorem mergeLoop_succ (nums : List CInt) (m r : ℤ) (fuel : ℕ) (s : State) :
    mergeLoop nums m r (fuel + 1) s =
      if s.i1 < m ∨ s.i2 < r then (turn nums m r s).bind (mergeLoop nums m r fuel)
      else some s := by
  rw [mergeLoop, WhileLoop.run, Option.bind_some]
  simp only [decide_eq_true_eq]
  rfl

/-- A turn that takes from the first run. -/
theorem Rest.turn_first (h : Rest nums m r i1 i2 (x :: xs) ys)
    (hnext : firstIsNext (x :: xs) ys = true) (hmlt : m < 2 ^ 31) (hindex : index < t.length)
    (hfit : index + 1 < 2 ^ 31) :
    turn nums m r ⟨t, i1, i2, index⟩ =
        some ⟨t.set index x, (i1 + 1 : ℕ), i2, (index + 1 : ℕ)⟩ ∧
      Rest nums m r (i1 + 1) i2 xs ys := by
  obtain ⟨hlt, -, hx, hxs⟩ := of_drop_take_eq_cons h.first
  obtain ⟨-, hm, hi2, hr⟩ := h.bounds
  refine ⟨?_, hxs, h.second, hlt, hm, hi2, hr⟩
  rw [turn, h.takesFirst, Option.bind_eq_bind, Option.bind_some, hnext, if_pos rfl,
    take_spec hx hindex hfit (by omega)]
  rfl

/-- A turn that takes from the second run. -/
theorem Rest.turn_second (h : Rest nums m r i1 i2 xs (y :: ys))
    (hnext : firstIsNext xs (y :: ys) = false) (hrlt : r < 2 ^ 31) (hindex : index < t.length)
    (hfit : index + 1 < 2 ^ 31) :
    turn nums m r ⟨t, i1, i2, index⟩ =
        some ⟨t.set index y, i1, (i2 + 1 : ℕ), (index + 1 : ℕ)⟩ ∧
      Rest nums m r i1 (i2 + 1) xs ys := by
  obtain ⟨hlt, -, hy, hys⟩ := of_drop_take_eq_cons h.second
  obtain ⟨hi1, hm, -, hr⟩ := h.bounds
  refine ⟨?_, h.first, hys, hi1, hm, hlt, hr⟩
  rw [turn, h.takesFirst, Option.bind_eq_bind, Option.bind_some, hnext,
    if_neg Bool.false_ne_true, take_spec hy hindex hfit (by omega)]
  rfl

/-- **A turn** writes the next element of the merge. -/
theorem Rest.turn (h : Rest nums m r i1 i2 xs ys) (t : List CInt) (index : ℕ)
    (hne : ¬ (xs = [] ∧ ys = [])) (hmlt : m < 2 ^ 31) (hrlt : r < 2 ^ 31)
    (hindex : index < t.length) (hfit : index + 1 < 2 ^ 31) :
    ∃ z xs' ys', ∃ i1' i2' : ℕ, turn nums m r ⟨t, i1, i2, index⟩ =
        some ⟨t.set index z, i1', i2', (index + 1 : ℕ)⟩ ∧
      Rest nums m r i1' i2' xs' ys' ∧ merged xs ys = z :: merged xs' ys' ∧
      xs.length + ys.length = xs'.length + ys'.length + 1 := by
  rcases hnext : firstIsNext xs ys with - | -
  · rcases ys with - | ⟨y, ys⟩
    · cases hnext
    · obtain ⟨hturn, hrest⟩ := h.turn_second hnext hrlt hindex hfit
      exact ⟨y, xs, ys, _, _, hturn, hrest, merged_of_second hnext, rfl⟩
  · rcases xs with - | ⟨x, xs⟩
    · rcases ys with - | ⟨y, ys⟩
      · exact absurd ⟨rfl, rfl⟩ hne
      · cases hnext
    · obtain ⟨hturn, hrest⟩ := h.turn_first hnext hmlt hindex hfit
      exact ⟨x, xs, ys, _, _, hturn, hrest, merged_of_first hnext, Nat.succ_add ..⟩

/-- **The loop** merges the two ranges. -/
theorem mergeLoop_spec (h : Rest nums m r i1 i2 xs ys) (t : List CInt) (index : ℕ)
    (hmlt : m < 2 ^ 31) (hrlt : r < 2 ^ 31)
    (hroom : index + (xs.length + ys.length) ≤ t.length)
    (hfit : index + (xs.length + ys.length) < 2 ^ 31) (hfuel : xs.length + ys.length < fuel) :
    ∃ s, mergeLoop nums m r fuel ⟨t, i1, i2, index⟩ = some s ∧ s.t.length = t.length ∧
      s.index = (index + (xs.length + ys.length) : ℕ) ∧
      s.t.take (index + (xs.length + ys.length)) = t.take index ++ merged xs ys := by
  induction fuel generalizing xs ys t index i1 i2 with
  | zero => exact absurd hfuel (Nat.not_lt_zero _)
  | succ fuel ih =>
    have hbounds := h.bounds
    have hx := h.first_eq_nil
    have hy := h.second_eq_nil
    rw [mergeLoop_succ]
    rcases em (xs = [] ∧ ys = []) with ⟨rfl, rfl⟩ | hne
    · have hi1 := hx.1 rfl
      have hi2 := hy.1 rfl
      rw [if_neg (show ¬ ((i1 : ℤ) < m ∨ (i2 : ℤ) < r) by omega)]
      exact ⟨_, rfl, rfl, rfl, by rw [merged, List.merge_right, List.append_nil]; rfl⟩
    · have hpos : 0 < xs.length + ys.length := by
        rw [Nat.pos_iff_ne_zero, ne_eq, Nat.add_eq_zero_iff, List.length_eq_zero_iff,
          List.length_eq_zero_iff]
        exact hne
      have hcond : (i1 : ℤ) < m ∨ (i2 : ℤ) < r := by
        rw [hx, hy] at hne
        omega
      obtain ⟨z, xs', ys', i1', i2', hturn, hrest, hmerged, hlen⟩ :=
        h.turn t index hne hmlt hrlt (by omega) (by omega)
      obtain ⟨s, hloop, hlength, hindex, htake⟩ := ih hrest (t.set index z)
        (index + 1) (by rw [List.length_set]; omega) (by omega) (by omega)
      have hsum : index + (xs.length + ys.length) = index + 1 + (xs'.length + ys'.length) := by
        omega
      refine ⟨s, ?_, by rw [hlength, List.length_set], by rw [hsum, hindex], ?_⟩
      · rw [if_pos hcond, hturn, Option.bind_some, hloop]
      · rw [hsum, htake, take_set_append z (by omega), hmerged]

/-! ### The recursion -/

variable {a b c : List CInt}

/-- Before the loop both runs are left. -/
theorem rest_start (hxs : xs.length = i) (hys : ys.length = m) :
    Rest (a ++ (xs ++ (ys ++ c))) (a.length + i) (a.length + i + m) a.length (a.length + i) xs
      ys := by
  subst hxs hys
  refine ⟨?_, ?_, ?_⟩
  · rw [← List.append_assoc, List.take_left' (List.length_append ..), List.drop_left]
  · rw [← List.append_assoc, ← List.append_assoc, List.take_left' (by
      rw [List.length_append, List.length_append]), List.drop_left' (List.length_append ..)]
  · simp only [List.length_append]
    omega

/-- The merged elements are copied back. -/
theorem copy_spec (index : ℕ) (hindex : index = b.length) (ht : index ≤ t.length) :
    copy t (a ++ (b ++ c)) index a.length = some (a ++ (t.take index ++ c)) := by
  subst hindex
  rw [copy, if_pos (by simp only [List.length_append]; omega), Int.toNat_natCast,
    Int.toNat_natCast, List.take_left, ← Int.natCast_add, Int.toNat_natCast, ← List.append_assoc,
    List.drop_left' (List.length_append ..), List.append_assoc]

/-- A part of at most one element is sorted. -/
theorem sort_of_le {l r : ℤ} (hl : 0 ≤ l) (hlt : l + 1 < 2 ^ 31) (h : r ≤ l + 1)
    (hfuel : 0 < fuel) (t nums : List CInt) : sort fuel l r t nums = some (t, nums) := by
  obtain ⟨fuel, rfl⟩ := Nat.exists_eq_succ_of_ne_zero hfuel.ne'
  rw [sort, fit_eq (by omega)]
  exact if_pos h

/-- **The recursion** sorts a range and leaves the rest as it is. -/
theorem sort_spec (t : List CInt) (hl : a.length + 1 < 2 ^ 31)
    (hr : a.length + b.length < 2 ^ 31) (ht : b.length ≤ t.length) (hfuel : b.length + 1 < fuel) :
    ∃ t' b', sort fuel a.length (a.length + b.length : ℕ) t (a ++ (b ++ c)) =
        some (t', a ++ (b' ++ c)) ∧
      t'.length = t.length ∧ b'.Perm b ∧ b'.Pairwise (· ≤ ·) := by
  induction fuel generalizing a b c t with
  | zero => exact absurd hfuel (Nat.not_lt_zero _)
  | succ fuel ih =>
    rcases Nat.lt_or_ge 1 b.length with hlong | hshort
    · rw [sort, fit_eq (by omega), Option.bind_eq_bind, Option.bind_some]
      obtain ⟨b1, b2, rfl, hb1⟩ : ∃ b1 b2, b = b1 ++ b2 ∧ b1.length = b.length / 2 :=
        ⟨b.take (b.length / 2), b.drop (b.length / 2), (List.take_append_drop ..).symm,
          (List.length_take ..).trans (by omega)⟩
      rw [List.length_append] at hr ht hfuel hlong hb1 ⊢
      obtain ⟨t1, ys1, hsort1, hlen1, hperm1, hsorted1⟩ := ih (a := a) (b := b1) (c := b2 ++ c)
        t hl (by omega) (by omega) (by omega)
      have hys1 := hperm1.length_eq
      have hfront : (a ++ ys1).length = a.length + b1.length := by rw [List.length_append, hys1]
      obtain ⟨t2, ys2, hsort2, hlen2, hperm2, hsorted2⟩ := ih (a := a ++ ys1) (b := b2) (c := c)
        t1 (by omega) (by omega) (by omega) (by omega)
      have hys2 := hperm2.length_eq
      obtain ⟨s, hloop, hlength, hindex, htake⟩ := mergeLoop_spec
        (rest_start (a := a) (c := c) hys1 hys2) t2 0 (by omega) (by omega) (by omega) (by omega)
        (show _ < fuel by omega)
      have hd : fit ((a.length + (b1.length + b2.length) : ℕ) - a.length) =
          some ((b1.length + b2.length : ℕ) : ℤ) := by
        rw [fit_eq (by omega)]
        exact congrArg some (by omega)
      have hm : fit (a.length + ((b1.length + b2.length : ℕ) : ℤ) / 2) =
          some ((a.length + b1.length : ℕ) : ℤ) := by
        rw [fit_eq (by omega)]
        exact congrArg some (by omega)
      rw [hfront, List.append_assoc, List.append_assoc, Nat.add_assoc] at hsort2
      rw [Nat.add_assoc] at hloop
      rw [Nat.zero_add] at hindex htake
      have hcopy := copy_spec (a := a) (b := ys1 ++ ys2) (c := c) (t := s.t)
        (b1.length + b2.length) (by rw [List.length_append, hys1, hys2]) (by omega)
      refine ⟨s.t, merged ys1 ys2, ?_, by omega, ?_, pairwise_merged hsorted1 hsorted2⟩
      · rw [if_neg (by omega), hd, Option.bind_some, hm, Option.bind_some, List.append_assoc,
          hsort1]
        show (sort fuel (a.length + b1.length : ℕ) (a.length + (b1.length + b2.length) : ℕ) t1
          (a ++ (ys1 ++ (b2 ++ c)))).bind _ = _
        rw [hsort2, Option.bind_some]
        show (mergeLoop _ _ _ fuel ⟨t2, a.length, (a.length + b1.length : ℕ), (0 : ℕ)⟩).bind _ = _
        rw [hloop, Option.bind_some, hindex, hys1, hys2, ← List.append_assoc ys1, hcopy]
        rw [hys1, hys2, List.take_zero, List.nil_append] at htake
        rw [htake]
        rfl
      · exact (merged_perm ys1 ys2).trans (hperm1.append hperm2)
    · refine ⟨t, b, sort_of_le (by omega) (by omega) (by omega) (by omega) _ _, rfl, .refl b, ?_⟩
      rcases b with - | ⟨x, - | ⟨y, b⟩⟩
      · exact .nil
      · exact List.pairwise_singleton ..
      · rw [List.length_cons, List.length_cons] at hshort
        omega

/-- How many elements are sorted: all of them, up to `2 ^ 31 - 1`. -/
def sortedLength (n : ℕ) : ℕ := (size n).1.toNat

theorem sortedLength_le (n : ℕ) : sortedLength n ≤ n := by
  have hle := wrap_le (n := (n : ℤ)) (by omega)
  unfold sortedLength size
  omega

/-- A length that is an `int` is sorted completely. -/
theorem sortedLength_of_lt {n : ℕ} (h : n < 2 ^ 31) : sortedLength n = n := by
  have hval := wrap_of_lt (n := (n : ℤ)) (by omega) (by omega)
  unfold sortedLength size
  omega

/-- **`mergeSort`** sorts the elements in front of an index and leaves the others as they are. -/
theorem mergeSort_spec (nums : List CInt) (hfuel : nums.length + 1 < fuel) :
    mergeSort fuel nums = some ((nums.take (sortedLength nums.length)).mergeSort (· ≤ ·) ++
      nums.drop (sortedLength nums.length)) := by
  have hle := sortedLength_le nums.length
  have hlt := (size nums.length).2.2
  rw [mergeSort]
  rcases lt_or_ge (size nums.length).1 0 with hneg | hpos
  · have hzero : sortedLength nums.length = 0 := Int.toNat_of_nonpos hneg.le
    rw [hzero, sort_of_le le_rfl (by decide) (by omega) (by omega)]
    exact congrArg some (by rw [List.take_zero, List.mergeSort_nil]; rfl)
  · have hlen : (nums.take (sortedLength nums.length)).length = sortedLength nums.length :=
      (List.length_take ..).trans (Nat.min_eq_left hle)
    have hr : (size nums.length).1 = sortedLength nums.length := (Int.toNat_of_nonneg hpos).symm
    obtain ⟨t', b', hsort, -, hperm, hsorted⟩ := sort_spec (a := [])
      (b := nums.take (sortedLength nums.length)) (c := nums.drop (sortedLength nums.length))
      (List.replicate nums.length (wrap 0)) (by decide) (by rw [List.length_nil, hlen]; omega)
      (by rw [hlen, List.length_replicate]; exact hle) (show _ < fuel by omega)
    rw [List.length_nil, List.nil_append, List.take_append_drop, Nat.zero_add, hlen, ← hr] at hsort
    have heq := MergeRuns.map_eq_mergeSort id hperm hsorted
    rw [List.map_id, List.map_id] at heq
    rw [Int.natCast_zero] at hsort
    rw [hsort, ← heq, List.nil_append]
    rfl

theorem mergeSort_spec_main :
    mergeSort 9 ([3, 4, 5, 6, 4, 2, 3].map wrap) =
      some ((([3, 4, 5, 6, 4, 2, 3].map wrap).take (sortedLength 7)).mergeSort (· ≤ ·) ++
        ([3, 4, 5, 6, 4, 2, 3].map wrap).drop (sortedLength 7)) :=
  mergeSort_spec ([3, 4, 5, 6, 4, 2, 3].map wrap) (by decide)

/-- A vector whose length is an `int` is sorted. -/
theorem sortsInPlace_mergeSort (h : nums.length < 2 ^ 31) :
    Search.SortsInPlace mergeSort nums := by
  refine ⟨nums.length + 2, fun fuel hfuel ↦ ⟨_, mergeSort_spec nums hfuel, ?_, ?_⟩⟩
  · rw [sortedLength_of_lt h, List.take_length, List.drop_length, List.append_nil]
    exact List.mergeSort_perm ..
  · rw [sortedLength_of_lt h, List.take_length, List.drop_length, List.append_nil]
    exact List.pairwise_mergeSort' (· ≤ ·) _

end MergeSort
