import Mathlib.Algebra.BigOperators.Group.Finset.Piecewise
import Mathlib.Data.Multiset.Filter
import Mathlib.Tactic.Ring
import MiscCpp.Leetcode.HouseRobber

/-!
# Deleting numbers and earning points

`deleteAndEarn` of `leetcode/DP/deleteAndEarn.cc`.

`Plays` is the game of the comment at the head of the file. Once a number has been picked, nothing
is lost by picking the equal ones as well, so what a play earns is bounded by the sum for a choice
of numbers without neighbours, and each such sum is earned (`isGreatest_plays_iff`). The function
takes each number for a house with all the points of its copies in it (`deleteAndEarn_iff`).
-/

open Access CInt Machine NonAdjacent

namespace DeleteAndEarn

/-! ### The program -/

/-- `count[i]++` -/
def countNum (count : List CInt) (i : CInt) : Option (List CInt) := do
  put count i.1 (← (← get count i.1).incr)

/-- `count[i] *= i` -/
def scale (count : List CInt) (i : ℕ) : Option (List CInt) := do
  put count i (← checked ((← get count i).1 * i))

/-- The inner function. -/
def rob (count : List CInt) : Option CInt :=
  if count.length = 1 then some (wrap 0)
  else do
    let prev ← get count 0
    let cur ← get count 1
    let (_, cur) ← exec (HouseRobber2.step count) (prev, cur)
      (((← counter count.length).drop 2).map fun (i : ℕ) ↦ (i : ℤ))
    some cur

def deleteAndEarn (nums : List CInt) : Option CInt := do
  let size ← (← nums.max?).incr
  -- A negative size is refused.
  let count ← if 0 ≤ size.1 then some (List.replicate size.1.toNat (wrap 0)) else none
  let count ← exec countNum count nums
  let count ← exec scale count (← counter count.length)
  rob count

example : deleteAndEarn ([2, 2, 3, 3, 3, 4].map wrap) = some (wrap 9) := by decide

/-! ### The game -/

/-- What is left when `a` has been picked. -/
def rest (s : Multiset ℕ) (a : ℕ) : Multiset ℕ :=
  (s.erase a).filter fun b ↦ b + 1 ≠ a ∧ b ≠ a + 1

/-- The points that can be earned with the numbers `s`, one pick after the other. -/
inductive Plays : Multiset ℕ → ℤ → Prop
  | stop (s : Multiset ℕ) : Plays s 0
  | pick {s : Multiset ℕ} {a : ℕ} {v : ℤ} : a ∈ s → Plays (rest s a) v → Plays s (a + v)

/-- All the points of the number `a`. -/
def points (s : Multiset ℕ) (a : ℕ) : ℤ := a * s.count a

variable {s : Multiset ℕ} {S : Finset ℕ} {a b : ℕ} {v : ℤ}

theorem mem_rest : b ∈ rest s a → b ∈ s ∧ b + 1 ≠ a ∧ b ≠ a + 1 := by
  intro h
  obtain ⟨hb, hne⟩ := Multiset.mem_filter.1 h
  exact ⟨Multiset.mem_of_mem_erase hb, hne⟩

theorem count_rest (hb : b + 1 ≠ a ∧ b ≠ a + 1) :
    (rest s a).count b = if b = a then s.count a - 1 else s.count b := by
  rw [rest, Multiset.count_filter, if_pos hb]
  split
  next h => rw [h, Multiset.count_erase_self]
  next h => rw [Multiset.count_erase_of_ne h]

theorem points_rest (ha : a ∈ s) (hb : b + 1 ≠ a ∧ b ≠ a + 1) :
    points (rest s a) b = points s b - if b = a then (a : ℤ) else 0 := by
  rw [points, points, count_rest hb]
  split
  next h =>
    rw [h, Nat.cast_pred (Multiset.count_pos.2 ha)]
    ring
  next => rw [sub_zero]

/-- The points that a pick takes from a choice. -/
theorem sum_points_rest (ha : a ∈ s) (haS : a ∈ S) (hS : ∀ b ∈ S, b + 1 ≠ a ∧ b ≠ a + 1) :
    a + ∑ b ∈ S, points (rest s a) b = ∑ b ∈ S, points s b := by
  rw [Finset.sum_congr rfl fun b hb ↦ points_rest ha (hS b hb), Finset.sum_sub_distrib,
    Finset.sum_ite_eq', if_pos haS]
  exact add_sub_cancel ..

theorem points_nonneg (s : Multiset ℕ) (a : ℕ) : 0 ≤ points s a :=
  mul_nonneg (Nat.cast_nonneg a) (Nat.cast_nonneg _)

/-- **What a play earns**, some choice has. -/
theorem Plays.exists_choice (h : Plays s v) :
    ∃ S ⊆ s.toFinset, Independent Next S ∧ v ≤ ∑ a ∈ S, points s a := by
  induction h with
  | stop s =>
    exact ⟨∅, Finset.empty_subset _, fun a ha ↦ absurd ha (Finset.notMem_empty a), le_rfl⟩
  | @pick s a v ha _ ih =>
    obtain ⟨S, hS, hadj, hv⟩ := ih
    have hmem (b : ℕ) (hb : b ∈ S) := mem_rest (Multiset.mem_toFinset.1 (hS hb))
    refine ⟨insert a S, fun b hb ↦ ?_, fun b hb c hc ↦ ?_, ?_⟩
    · rcases Finset.mem_insert.1 hb with rfl | hb
      · exact Multiset.mem_toFinset.2 ha
      · exact Multiset.mem_toFinset.2 (hmem b hb).1
    · unfold Next
      rcases Finset.mem_insert.1 hb with rfl | hbS
      · rcases Finset.mem_insert.1 hc with rfl | hcS
        · exact (Nat.lt_succ_self c).ne
        · exact (hmem c hcS).2.2
      · rcases Finset.mem_insert.1 hc with rfl | hcS
        · exact fun heq ↦ (hmem b hbS).2.1 heq.symm
        · exact hadj b hbS c hcS
    · rw [← sum_points_rest ha (Finset.mem_insert_self a S) fun b hb ↦ ?_]
      · have hle := Finset.sum_le_sum_of_subset_of_nonneg (Finset.subset_insert a S)
          fun b _ _ ↦ points_nonneg (rest s a) b
        exact add_le_add_right (hv.trans hle) _
      · rcases Finset.mem_insert.1 hb with rfl | hb
        · omega
        · exact (hmem b hb).2

/-- **What a choice has**, a play earns. -/
theorem Plays.of_choice (hadj : Independent Next S) : Plays s (∑ a ∈ S, points s a) := by
  -- One of the numbers of the choice is picked as long as there is one.
  induction hcard : s.card using Nat.strong_induction_on generalizing s with
  | _ n ih =>
    rcases em (∃ a ∈ S, a ∈ s) with ⟨a, haS, ha⟩ | hnone
    · have hS (b : ℕ) (hb : b ∈ S) : b + 1 ≠ a ∧ b ≠ a + 1 :=
        ⟨fun heq ↦ hadj b hb a haS heq.symm, hadj a haS b hb⟩
      rw [← sum_points_rest ha haS hS]
      refine .pick ha (ih _ ?_ rfl)
      have hle := Multiset.card_le_card
        (Multiset.filter_le (fun b ↦ b + 1 ≠ a ∧ b ≠ a + 1) (s.erase a))
      have hlt := Multiset.card_erase_lt_of_mem ha
      rw [← hcard]
      exact hle.trans_lt hlt
    · rw [Finset.sum_eq_zero fun a haS ↦ ?_]
      · exact .stop s
      · rw [points, Multiset.count_eq_zero_of_notMem fun ha ↦ hnone ⟨a, haS, ha⟩]
        exact mul_zero _

/-- **The game** is worth as much as the best choice among the numbers up to `m`. -/
theorem isGreatest_plays_iff {m : ℕ} (hs : ∀ a ∈ s, a < m) :
    IsGreatest {v | Plays s v} v ↔ IsBest Next (points s) (Finset.range m) v := by
  have hsub : s.toFinset ⊆ Finset.range m := fun a ha ↦
    Finset.mem_range.2 (hs a (Multiset.mem_toFinset.1 ha))
  have hplays {u : ℤ} (h : u ∈ sums Next (points s) (Finset.range m)) : Plays s u := by
    obtain ⟨S, -, hadj, rfl⟩ := h
    exact .of_choice hadj
  have hchoice {u : ℤ} (h : Plays s u) : ∃ u' ∈ sums Next (points s) (Finset.range m), u ≤ u' := by
    obtain ⟨S, hS, hadj, hle⟩ := h.exists_choice
    exact ⟨_, ⟨S, hS.trans hsub, hadj, rfl⟩, hle⟩
  constructor
  · intro h
    obtain ⟨u, hu, hle⟩ := hchoice h.1
    obtain rfl := le_antisymm hle (h.2 (hplays hu))
    exact ⟨hu, fun u' hu' ↦ h.2 (hplays hu')⟩
  · intro h
    refine ⟨hplays h.1, fun u hu ↦ ?_⟩
    obtain ⟨u', hu', hle⟩ := hchoice hu
    exact hle.trans (h.2 hu')

/-! ### The loops -/

variable {nums count : List CInt} {n : ℕ} {f : ℕ → ℕ}

/-- The numbers, which index a vector. -/
def values (nums : List CInt) : Multiset ℕ := nums.map fun num ↦ num.1.toNat

theorem countNum_spec (h : Counts n count f) {num : CInt} (hnum : num.1 = a) (ha : a < n)
    (hfit : f a + 1 < 2 ^ 31) :
    ∃ count', countNum count num = some count' ∧
      Counts n count' (Function.update f a (f a + 1)) := by
  obtain ⟨c, hget, hincr⟩ := h.incr ha
  rw [if_pos hfit] at hincr
  obtain ⟨c', hincr, hcounts⟩ := hincr
  have hget' : get count num.1 = some c := by rw [hnum, get_natCast, hget]
  refine ⟨_, ?_, hcounts⟩
  rw [countNum, hget', Option.bind_eq_bind, Option.bind_some, hincr, Option.bind_some,
    put_eq hget', hnum, Int.toNat_natCast]

/-- **The first loop** counts the numbers. -/
theorem exists_count (hpos : ∀ num ∈ nums, 0 ≤ num.1) (hn : ∀ num ∈ nums, num.1 < n)
    (hlen : nums.length < 2 ^ 31) :
    ∃ count, exec countNum (List.replicate n (wrap 0)) nums = some count ∧
      Counts n count (values nums).count := by
  induction nums using List.reverseRecOn with
  | nil => exact ⟨_, rfl, counts_replicate n⟩
  | append_singleton nums num ih =>
    rw [List.length_append, List.length_singleton] at hlen
    obtain ⟨count, hexec, h⟩ := ih (fun b hb ↦ hpos b (List.mem_append_left _ hb))
      (fun b hb ↦ hn b (List.mem_append_left _ hb)) (by omega)
    have hmem : num ∈ nums ++ [num] := List.mem_append_right nums List.mem_cons_self
    have hnum : num.1 = num.1.toNat := (Int.toNat_of_nonneg (hpos num hmem)).symm
    have hlt := hn num hmem
    have hle : (values nums).count num.1.toNat ≤ nums.length :=
      (Multiset.count_le_card ..).trans_eq (by rw [values, Multiset.coe_card, List.length_map])
    obtain ⟨count', hstep, h'⟩ := countNum_spec h hnum (by omega) (by omega)
    refine ⟨count', by rw [exec_concat, hexec, Option.bind_some, hstep], h'.congr fun v _ ↦ ?_⟩
    have hvalues : values (nums ++ [num]) = values nums + {num.1.toNat} := by
      rw [values, List.map_append, ← Multiset.coe_add]
      rfl
    rw [hvalues, Multiset.count_add, Multiset.count_singleton, Function.update_apply]
    split
    next heq => rw [heq]
    next => rfl

/-- **The second loop** gives the points, if they fit. -/
theorem scale_spec (h : Counts n count f) (k : ℕ) (hk : k ≤ n) :
    (∃ count', exec scale count (List.range k) = some count' ∧
      Counts n count' fun v ↦ if v < k then v * f v else f v) ∨
    exec scale count (List.range k) = none ∧ ∃ v < k, 2 ^ 31 ≤ v * f v := by
  induction k with
  | zero => exact .inl ⟨count, rfl, h.congr fun v _ ↦ (if_neg (Nat.not_lt_zero v)).symm⟩
  | succ k ih =>
    rw [List.range_succ, exec_concat]
    rcases ih (by omega) with ⟨count', hexec, hcounts⟩ | ⟨hexec, v, hv, hle⟩
    · rw [hexec, Option.bind_some, scale]
      obtain ⟨c, hget, hval⟩ := hcounts.value k hk
      rw [if_neg (Nat.lt_irrefl k)] at hval
      have hget' : get count' k = some c := by rw [get_natCast, hget]
      rw [hget', Option.bind_eq_bind, Option.bind_some, hval, mul_comm]
      rcases Nat.lt_or_ge (k * f k) (2 ^ 31) with hlt | hge
      · obtain ⟨c', hc', hval'⟩ := exists_checked_natCast hlt
        rw [Nat.cast_mul] at hc'
        refine .inl ⟨count'.set k c', ?_, (hcounts.set hval' k).congr fun v _ ↦ ?_⟩
        · rw [hc', Option.bind_some, put_eq hget', Int.toNat_natCast]
        · rw [Function.update_apply]
          split
          next heq => rw [heq, if_pos (Nat.lt_succ_self k)]
          next hne => simp only [show v < k + 1 ↔ v < k by omega]
      · refine .inr ⟨?_, k, Nat.lt_succ_self k, hge⟩
        rw [checked, dif_neg (by omega)]
        rfl
    · exact .inr ⟨by rw [hexec]; rfl, v, hv.trans (Nat.lt_succ_self k), hle⟩

/-- **The last loop** is the one for the houses in a row. -/
theorem rob_eq_helper (h : Counts n count fun v ↦ v * f v) (hpos : 0 < n) (hn : n < 2 ^ 31) :
    rob count = HouseRobber2.helper count (wrap 0) (wrap n) := by
  obtain ⟨a, ha, hzero⟩ := h.value 0 hpos
  have hzero' : a = wrap 0 := Subtype.ext (hzero.trans (by rw [Nat.zero_mul]; rfl))
  rcases count with - | ⟨a', - | ⟨b, rest⟩⟩
  · cases ha
  · obtain rfl : a' = wrap 0 := (Option.some.inj ha).trans hzero'
    rw [← h.length]
    exact (HouseRobber2.helper_singleton le_rfl).symm
  · obtain rfl : a' = wrap 0 := (Option.some.inj ha).trans hzero'
    have hlen : rest.length + 2 = n := h.length
    obtain ⟨b', hb, hval⟩ := h.value 1 (by omega)
    obtain rfl := Option.some.inj hb
    have hmax : max (wrap 0) b = b := max_eq_right (show 0 ≤ b.1 by omega)
    obtain ⟨is, hcounter, hdrop⟩ := HouseRobber2.exists_counter (hlen ▸ hn)
    rw [← hlen, HouseRobber2.helper_cons_cons (hlen ▸ hn) le_rfl, hmax]
    show ((counter (rest.length + 2)).bind fun is ↦
      (exec (HouseRobber2.step (wrap 0 :: b :: rest)) (wrap 0, b)
        ((is.drop 2).map fun (i : ℕ) ↦ (i : ℤ))).bind _) = _
    rw [hcounter, Option.bind_some, hdrop]
    exact Option.map_eq_bind.symm

/-- **`deleteAndEarn`** returns what the game is worth, if it is an `int`. -/
theorem deleteAndEarn_iff (hne : nums ≠ []) (hpos : ∀ num ∈ nums, 0 ≤ num.1)
    (hmax : ∀ num ∈ nums, num < INT_MAX) (hlen : nums.length < 2 ^ 31) (x : CInt) :
    deleteAndEarn nums = some x ↔ IsGreatest {v | Plays (values nums) v} x.1 := by
  obtain ⟨m, hm⟩ := Option.isSome_iff_exists.1 (List.isSome_max?_of_ne_nil hne)
  have hgreatest := List.max?_eq_some_iff.1 hm
  have hm0 := hpos m hgreatest.1
  have hm1 := lt_INT_MAX_iff.1 (hmax m hgreatest.1)
  obtain ⟨size, hsize, hval⟩ := exists_checked (n := m.1 + 1) ⟨by omega, by omega⟩
  have hlt (num : CInt) (hnum : num ∈ nums) : num.1 < size.1.toNat := by
    have hle : num.1 ≤ m.1 := hgreatest.2 num hnum
    omega
  obtain ⟨count, hcount, hcounts⟩ := exists_count hpos hlt hlen
  have hsmall : size.1.toNat < 2 ^ 31 := by omega
  have hdelete : deleteAndEarn nums = (exec scale count (List.range size.1.toNat)).bind rob := by
    rw [deleteAndEarn, hm, Option.bind_eq_bind, Option.bind_some, incr_eq, hsize,
      Option.bind_some, if_pos (by omega), Option.bind_eq_bind, Option.bind_some]
    show (exec countNum _ nums).bind _ = _
    rw [hcount, Option.bind_some, hcounts.length, counter, if_pos hsmall]
    rfl
  have hvalues (a : ℕ) (ha : a ∈ values nums) : a < size.1.toNat := by
    obtain ⟨num, hnum, rfl⟩ := List.mem_map.1 ha
    have hpos' := hpos num hnum
    have hlt' := hlt num hnum
    omega
  rw [hdelete, isGreatest_plays_iff hvalues]
  rcases scale_spec hcounts _ le_rfl with ⟨count', hexec, hscaled⟩ | ⟨hexec, v, hv, hle⟩
  · have hpoints := hscaled.congr (g := fun v ↦ v * (values nums).count v) fun v hv ↦ if_pos hv
    have hlength : (wrap size.1.toNat).1 = size.1.toNat := wrap_of_lt (by omega) (by omega)
    obtain ⟨c, hc, hhelper⟩ := HouseRobber2.helper_spec count' (l := 0) (r := size.1.toNat)
      (show (wrap 0).1 = (0 : ℕ) from rfl) (by rw [hlength, Int.toNat_natCast])
      hpoints.length.ge
    have hweight (v : ℕ) (hv : v ∈ Finset.Ico 0 size.1.toNat) :
        HouseRobber2.amount count' v = points (values nums) v := by
      obtain ⟨cell, hget, hval⟩ := hpoints.value v (Finset.mem_Ico.1 hv).2
      rw [HouseRobber2.amount, valueAt_of_get ((get_natCast ..).trans hget), hval, points,
        Nat.cast_mul]
    rw [IsBest, sums_congr (fun _ _ _ _ ↦ Iff.rfl) hweight, ← Finset.range_eq_Ico] at hc
    rw [hexec, Option.bind_some, rob_eq_helper hpoints (by omega) hsmall, hhelper]
    exact ⟨fun hx ↦ hx ▸ hc, fun hx ↦ hx.unique hc⟩
  · rw [hexec]
    refine iff_of_false (fun h ↦ Option.some_ne_none x h.symm) fun h ↦ ?_
    have hweight := h.weight_le (Finset.mem_range.2 hv) (Nat.lt_succ_self v).ne
    have hx := x.2.2
    rw [points, ← Nat.cast_mul] at hweight
    omega

theorem deleteAndEarn_iff_six :
    deleteAndEarn ([2, 2, 3, 3, 3, 4].map wrap) = some (wrap 9) ↔
      IsGreatest {v | Plays (values ([2, 2, 3, 3, 3, 4].map wrap)) v} (wrap 9).1 :=
  deleteAndEarn_iff (by decide) (by decide) (by decide) (by decide) (wrap 9)

end DeleteAndEarn
