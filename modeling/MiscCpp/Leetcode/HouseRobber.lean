import MiscCpp.Library.Counters
import MiscCpp.Library.Machine
import MiscCpp.Library.NonAdjacent

/-!
# Robbing houses in a row and in a circle

`rob` of `leetcode/DP/houseRobber.cc` and of `leetcode/DP/houseRobber2.cc`.

Both loops carry the best two choices, from the houses up to the last one and without it, and the
sums that they add are sums of choices. So a value is returned exactly if it is the greatest sum,
and nothing is returned if no `int` is (`HouseRobber2.rob_eq_some_iff`, `HouseRobber.rob_iff`).
-/

open Access CInt Machine NonAdjacent

namespace HouseRobber2

/-! ### The program -/

/-- The body of the loop, for a house with `num`. -/
def turn (state : CInt × CInt) (num : CInt) : Option (CInt × CInt) := do
  let (prev, cur) := state
  let sum ← checked (prev.1 + num.1)
  some (cur, max cur sum)

def step (nums : List CInt) (state : CInt × CInt) (i : ℤ) : Option (CInt × CInt) := do
  turn state (← get nums i)

/-- The values of `i` in `for (int i = l; i < r; ++i)`. -/
def indices (l r : CInt) : List ℤ := (List.range (r.1 - l.1).toNat).map fun (j : ℕ) ↦ l.1 + j

def helper (nums : List CInt) (l r : CInt) : Option CInt := do
  let (_, cur) ← exec (step nums) (wrap 0, wrap 0) (indices l r)
  some cur

def rob (nums : List CInt) : Option CInt := do
  let n := nums.length
  let withoutLast ← helper nums (wrap 0) (wrap (n - 1))
  let withoutFirst ← helper nums (wrap 1) (wrap n)
  some (max withoutLast withoutFirst)

example : rob ([2, 3, 2].map wrap) = some (wrap 3) := by decide

/-! ### The loop -/

/-- The amount in a house. -/
def amount (nums : List CInt) (i : ℕ) : ℤ := valueAt nums i

variable {nums : List CInt} {p c : ℤ} {l r : ℕ}

theorem step_eq {i : ℤ} {num : CInt} (h : get nums i = some num) (state : CInt × CInt) :
    step nums state i = turn state num := by
  rw [step, h]
  rfl

theorem turn_iff (hp : 0 ≤ p) (hpc : p ≤ c) (num prev' cur' : CInt) :
    (∃ prev cur : CInt, prev.1 = p ∧ cur.1 = c ∧ turn (prev, cur) num = some (prev', cur')) ↔
      prev'.1 = c ∧ cur'.1 = max c (p + num.1) := by
  have hnum := num.2
  constructor
  · rintro ⟨prev, cur, rfl, rfl, h⟩
    obtain ⟨sum, hsum, h⟩ := Option.bind_eq_some_iff.1 h
    obtain ⟨rfl, rfl⟩ := Prod.mk.inj (Option.some.inj h)
    rw [coe_max, checked_eq_some hsum]
    exact ⟨rfl, rfl⟩
  · rintro ⟨rfl, hmax⟩
    have hlt : p + num.1 < 2 ^ 31 := lt_of_le_of_lt (hmax ▸ le_max_right ..) cur'.2.2
    obtain ⟨sum, hsum, hval⟩ := exists_checked (n := p + num.1) ⟨by omega, hlt⟩
    have hprev := prev'.2.2
    refine ⟨⟨p, by omega, by omega⟩, prev', rfl, rfl, ?_⟩
    rw [turn, hsum]
    refine congrArg (fun cur ↦ some (prev', cur)) (Subtype.ext ?_)
    rw [coe_max, hval, hmax]

/-- The two values are the best ones, as far as they fit. -/
def Holds (nums : List CInt) (l r : ℕ) (state : Option (CInt × CInt)) : Prop :=
  ∃ p c, IsBest Next (amount nums) (Finset.Ico l (r - 1)) p ∧
    IsBest Next (amount nums) (Finset.Ico l r) c ∧
    ∀ prev cur, state = some (prev, cur) ↔ prev.1 = p ∧ cur.1 = c

theorem Holds.turn {state : Option (CInt × CInt)} (h : Holds nums l r state) (hlr : l ≤ r)
    {num : CInt} (hnum : get nums r = some num) :
    Holds nums l (r + 1) (state.bind (turn · num)) := by
  obtain ⟨p, c, hp, hc, hstate⟩ := h
  have hval : amount nums r = num.1 := valueAt_of_get hnum
  refine ⟨c, max c (p + num.1), hc, hval ▸ isBest_Ico_succ hlr hp hc, fun prev' cur' ↦ ?_⟩
  rw [← turn_iff hp.nonneg (hp.le hc (Finset.Ico_subset_Ico_right (Nat.sub_le r 1))),
    Option.bind_eq_some_iff, Prod.exists]
  simp only [hstate, and_assoc]

/-- **The loop** over `k` houses, from `l` on. -/
theorem holds_loop (nums : List CInt) (l k : ℕ) (hk : ∀ j < k, l + j < nums.length) :
    Holds nums l (l + k) (exec (step nums) (wrap 0, wrap 0)
      ((List.range k).map fun (j : ℕ) ↦ (l : ℤ) + j)) := by
  induction k with
  | zero =>
    refine ⟨0, 0, ?_, ?_, fun prev cur ↦ ?_⟩
    · rw [Nat.add_zero, Finset.Ico_eq_empty_of_le (Nat.sub_le l 1)]
      exact isBest_empty
    · rw [Nat.add_zero, Finset.Ico_self]
      exact isBest_empty
    · rw [List.range_zero, List.map_nil, exec_nil, Option.some_inj, Prod.mk_inj,
        eq_comm (b := prev), eq_comm (b := cur), Subtype.ext_iff, Subtype.ext_iff]
      rfl
  | succ k ih =>
    have hlt := hk k (Nat.lt_succ_self k)
    obtain ⟨num, hnum⟩ := exists_get (m := nums) (i := (l : ℤ) + k) (by omega) (by omega)
    rw [List.range_succ, List.map_append, List.map_singleton, exec_concat]
    simp only [step_eq hnum]
    exact (ih fun j hj ↦ hk j (hj.trans (Nat.lt_succ_self k))).turn (Nat.le_add_right l k) hnum

/-- The best sum exists, and **`helper`** returns it if it is one of an `int`. -/
theorem helper_spec (nums : List CInt) {first last : CInt} (hl : first.1 = l)
    (hr : last.1.toNat = r) (hlen : r ≤ nums.length) :
    ∃ c, IsBest Next (amount nums) (Finset.Ico l r) c ∧
      ∀ x, helper nums first last = some x ↔ x.1 = c := by
  obtain ⟨p, c, hp, hc, hstate⟩ :=
    holds_loop nums l (last.1 - first.1).toNat (by omega)
  have hp0 := hp.nonneg
  have hpc := hp.le hc (Finset.Ico_subset_Ico_right (Nat.sub_le _ 1))
  have hIco : Finset.Ico l (l + (last.1 - first.1).toNat) = Finset.Ico l r := by
    ext i
    rw [Finset.mem_Ico, Finset.mem_Ico]
    omega
  rw [← hl] at hstate
  refine ⟨c, hIco ▸ hc, fun x ↦ ?_⟩
  rw [helper, indices]
  constructor
  · intro h
    obtain ⟨⟨prev, cur⟩, hexec, h⟩ := Option.bind_eq_some_iff.1 h
    obtain rfl := Option.some.inj h
    exact ((hstate prev cur).1 hexec).2
  · rintro rfl
    have hx := x.2.2
    have hexec := (hstate ⟨p, by omega, by omega⟩ x).2 ⟨rfl, rfl⟩
    rw [hexec]
    rfl

/-- A turn with nothing before the last house. -/
theorem turn_zero (cur num : CInt) : turn (wrap 0, cur) num = some (cur, max cur num) := by
  rw [turn, show (wrap 0).1 = 0 from rfl, zero_add, checked_coe]
  rfl

theorem helper_singleton {a : CInt} (ha : 0 ≤ a.1) : helper [a] (wrap 0) (wrap 1) = some a := by
  have hmax : max (wrap 0) a = a := max_eq_right ha
  rw [helper, show indices (wrap 0) (wrap 1) = [0] from rfl, exec_cons,
    step_eq (i := 0) (show _ = some a from rfl), turn_zero, hmax]
  rfl

/-- The first two turns. -/
theorem helper_cons_cons {a b : CInt} {rest : List CInt} (hlen : rest.length + 2 < 2 ^ 31)
    (ha : 0 ≤ a.1) :
    helper (a :: b :: rest) (wrap 0) (wrap (rest.length + 2 : ℕ)) =
      (exec (step (a :: b :: rest)) (a, max a b)
        ((List.range' 2 rest.length).map fun (i : ℕ) ↦ (i : ℤ))).map Prod.snd := by
  have hmax : max (wrap 0) a = a := max_eq_right ha
  have hindices : indices (wrap 0) (wrap (rest.length + 2 : ℕ)) =
      0 :: 1 :: (List.range' 2 rest.length).map fun (i : ℕ) ↦ (i : ℤ) := by
    have hlength := wrap_of_lt (n := (rest.length + 2 : ℕ)) (by omega) (by omega)
    rw [indices, hlength, show (wrap 0).1 = 0 from rfl, Int.sub_zero, Int.toNat_natCast,
      List.range_eq_range', List.range'_succ, List.range'_succ, List.map_cons, List.map_cons]
    simp only [zero_add]
    rfl
  rw [helper, hindices, exec_cons, step_eq (i := 0) (show _ = some a from rfl), turn_zero, hmax,
    Option.bind_some, exec_cons, step_eq (i := 1) (show _ = some b from rfl), turn_zero,
    Option.bind_some]
  exact Option.map_eq_bind.symm

/-- The values of `i` in `for (int i = 2; i < k + 2; ++i)`. -/
theorem exists_counter {k : ℕ} (h : k + 2 < 2 ^ 31) :
    ∃ is, counter (k + 2) = some is ∧ is.drop 2 = List.range' 2 k := by
  refine ⟨List.range (k + 2), if_pos h, ?_⟩
  rw [List.range_eq_range', List.drop_range']
  rfl

/-! ### The circle -/

/-- The neighbours in a circle of `n` houses, where a single house is its own. -/
def Circle (n i j : ℕ) : Prop := j = (i + 1) % n

/-- Without the first or without the last house the circle is a row. -/
theorem circle_iff {n i j : ℕ} (hi : i < n) (hj : j < n) (h : i + 1 < n ∨ 0 < j) :
    Circle n i j ↔ Next i j := by
  unfold Circle Next
  rcases Nat.lt_or_eq_of_le (Nat.succ_le_of_lt hi) with hlt | heq
  · rw [Nat.mod_eq_of_lt hlt]
  · rw [← heq, Nat.mod_self]
    omega

theorem isBest_circle {n : ℕ} {w : ℕ → ℤ} (hfirst : IsBest Next w (Finset.Ico 0 (n - 1)) p)
    (hlast : IsBest Next w (Finset.Ico 1 n) c) :
    IsBest (Circle n) w (Finset.range n) (max p c) := by
  rcases Nat.eq_zero_or_pos n with rfl | hn
  · have hpc : p = c := hfirst.unique hlast
    rw [hpc, max_self]
    exact hlast.unique isBest_empty ▸ isBest_empty
  · have herase_last : (Finset.range n).erase (n - 1) = Finset.Ico 0 (n - 1) := by
      ext i
      rw [Finset.mem_erase, Finset.mem_range, Finset.mem_Ico]
      omega
    have herase_first : (Finset.range n).erase 0 = Finset.Ico 1 n := by
      ext i
      rw [Finset.mem_erase, Finset.mem_range, Finset.mem_Ico]
      omega
    have hadj : Circle n (n - 1) 0 := by
      rw [Circle, Nat.sub_add_cancel hn, Nat.mod_self]
    refine IsBest.of_adj hadj ?_ ?_
    · rw [herase_last, IsBest,
        sums_congr (fun i hi j hj ↦ circle_iff ?_ ?_ (.inl ?_)) fun _ _ ↦ rfl]
      · exact hfirst
      all_goals
        rw [Finset.mem_Ico] at hi hj
        omega
    · rw [herase_first, IsBest,
        sums_congr (fun i hi j hj ↦ circle_iff ?_ ?_ (.inr ?_)) fun _ _ ↦ rfl]
      · exact hlast
      all_goals
        rw [Finset.mem_Ico] at hi hj
        omega

/-- **`rob`** returns the greatest sum of a choice without neighbours, if it is one of an `int`. -/
theorem rob_eq_some_iff (h : nums.length < 2 ^ 31) (x : CInt) :
    rob nums = some x ↔
      IsBest (Circle nums.length) (amount nums) (Finset.range nums.length) x.1 := by
  have hlast : (wrap (nums.length - 1)).1 = nums.length - 1 :=
    congrArg Subtype.val (wrap_coe ⟨(nums.length : ℤ) - 1, by omega⟩)
  have hlength : (wrap nums.length).1 = nums.length := wrap_of_lt (by omega) (by omega)
  obtain ⟨p, hp, hwithoutLast⟩ := helper_spec nums (l := 0) (r := nums.length - 1)
    (show (wrap 0).1 = (0 : ℕ) from rfl) (by rw [hlast]; omega) (Nat.sub_le _ 1)
  obtain ⟨c, hc, hwithoutFirst⟩ := helper_spec nums (l := 1) (r := nums.length)
    (show (wrap 1).1 = (1 : ℕ) from rfl) (by rw [hlength, Int.toNat_natCast]) le_rfl
  have hbest := isBest_circle hp hc
  have hrob : rob nums = some x ↔ x.1 = max p c := by
    constructor
    · intro h
      obtain ⟨a, ha, h⟩ := Option.bind_eq_some_iff.1 h
      obtain ⟨b, hb, h⟩ := Option.bind_eq_some_iff.1 h
      rw [← Option.some.inj h, coe_max, (hwithoutLast a).1 ha, (hwithoutFirst b).1 hb]
    · intro hx
      have hp0 := hp.nonneg
      have hc0 := hc.nonneg
      have hlt : max p c < 2 ^ 31 := hx ▸ x.2.2
      obtain ⟨hpx, hcx⟩ := max_lt_iff.1 hlt
      rw [rob, (hwithoutLast ⟨p, by omega, hpx⟩).2 rfl, (hwithoutFirst ⟨c, by omega, hcx⟩).2 rfl]
      refine congrArg some (Subtype.ext ?_)
      rw [coe_max, hx]
  rw [hrob]
  exact ⟨fun hx ↦ hx ▸ hbest, fun hx ↦ hx.unique hbest⟩

theorem rob_eq_some_iff_three : ([2, 3, 2].map wrap).length < 2 ^ 31 ∧
    (rob ([2, 3, 2].map wrap) = some (wrap 3) ↔
      IsBest (Circle 3) (amount ([2, 3, 2].map wrap)) (Finset.range 3) (wrap 3).1) :=
  ⟨by decide, rob_eq_some_iff (by decide) (wrap 3)⟩

end HouseRobber2

namespace HouseRobber

open HouseRobber2 (amount helper)

/-! ### The houses in a row -/

/-- The body of the loop, with `dp` before and after it. -/
def fill (nums dp : List CInt) (i : ℕ) : Option (List CInt) := do
  let sum ← checked ((← get dp (i - 2)).1 + (← get nums i).1)
  put dp i (max (← get dp (i - 1)) sum)

def rob (nums : List CInt) : Option CInt :=
  let n := nums.length
  if n = 0 then some (wrap 0)
  else if n = 1 then get nums 0
  else do
    let dp := List.replicate n (wrap 0)
    let dp ← put dp 0 (← get nums 0)
    let dp ← put dp 1 (max (← get nums 0) (← get nums 1))
    let dp ← exec (fill nums) dp ((← counter n).drop 2)
    get dp (n - 1)

example : rob ([2, 7, 9, 3, 1].map wrap) = some (wrap 12) := by decide

variable {nums : List CInt} {i : ℕ}

/-- The last two cells are the two values of the other loop. -/
def Tracks (n i : ℕ) (table : Option (List CInt)) (state : Option (CInt × CInt)) : Prop :=
  match state with
  | none => table = none
  | some (prev, cur) => ∃ dp, table = some dp ∧ dp.length = n ∧
      get dp (i - 2) = some prev ∧ get dp (i - 1) = some cur

theorem Tracks.fill {n : ℕ} {table : Option (List CInt)} {state : Option (CInt × CInt)}
    (h : Tracks n i table state) (hi : i < n) {num : CInt} (hnum : get nums i = some num) :
    Tracks n (i + 1) (table.bind (fill nums · i)) (state.bind (HouseRobber2.turn · num)) := by
  rcases state with - | ⟨prev, cur⟩
  · rw [show table = none from h]
    rfl
  · obtain ⟨dp, rfl, hlen, hprev, hcur⟩ := h
    obtain ⟨b, hb⟩ := exists_get (m := dp) (i := (i : ℤ)) (by omega) (by omega)
    rw [Option.bind_some, Option.bind_some, HouseRobber.fill, hprev, hnum, hcur]
    show Tracks n (i + 1)
      ((checked (prev.1 + num.1)).bind fun sum ↦ put dp i (max cur sum))
      ((checked (prev.1 + num.1)).bind fun sum ↦ some (cur, max cur sum))
    rcases checked (prev.1 + num.1) with - | sum
    · rfl
    · refine ⟨_, put_eq hb (max cur sum), by rw [List.length_set, hlen], ?_, ?_⟩
      · rw [get_set_ne (by omega) (by omega), ← hcur]
        congr 1
        omega
      · rw [Nat.cast_succ, add_sub_cancel_right]
        exact get_set_self hb _

/-- **The table** follows the two values. -/
theorem tracks_loop (nums dp : List CInt) {prev cur : CInt}
    (h : Tracks nums.length i (some dp) (some (prev, cur))) (k : ℕ) (hk : i + k ≤ nums.length) :
    Tracks nums.length (i + k) (exec (fill nums) dp (List.range' i k))
      (exec (HouseRobber2.step nums) (prev, cur)
        ((List.range' i k).map fun (j : ℕ) ↦ (j : ℤ))) := by
  induction k with
  | zero => exact h
  | succ k ih =>
    obtain ⟨num, hnum⟩ := exists_get (m := nums) (i := ((i + k : ℕ) : ℤ)) (by omega) (by omega)
    rw [List.range'_concat, List.map_append, List.map_singleton, exec_concat, exec_concat,
      Nat.one_mul]
    have hstep := (ih (by omega)).fill (by omega) hnum
    simp only [HouseRobber2.step_eq hnum]
    exact hstep

/-- **The two loops agree** on amounts that are not negative. -/
theorem rob_eq_helper (hlen : nums.length < 2 ^ 31) (hpos : ∀ num ∈ nums, 0 ≤ num.1) :
    rob nums = helper nums (wrap 0) (wrap nums.length) := by
  rcases nums with - | ⟨a, - | ⟨b, rest⟩⟩
  · rfl
  · exact (HouseRobber2.helper_singleton (hpos a List.mem_cons_self)).symm
  · have ha := hpos a List.mem_cons_self
    have htracks := tracks_loop (i := 2) (a :: b :: rest)
      (a :: max a b :: List.replicate rest.length (wrap 0))
      ⟨_, rfl, by rw [List.length_cons, List.length_cons, List.length_replicate]; rfl, rfl, rfl⟩
      rest.length (by rw [List.length_cons, List.length_cons]; omega)
    rw [List.length_cons, List.length_cons, HouseRobber2.helper_cons_cons hlen ha]
    obtain ⟨is, hcounter, hdrop⟩ := HouseRobber2.exists_counter hlen
    have hrob : rob (a :: b :: rest) =
        (exec (fill (a :: b :: rest)) (a :: max a b :: List.replicate rest.length (wrap 0))
          (List.range' 2 rest.length)).bind fun dp ↦ get dp ((rest.length + 2 : ℕ) - 1) := by
      show ((counter (rest.length + 2)).bind fun is ↦ (exec (fill (a :: b :: rest))
        (a :: max a b :: List.replicate rest.length (wrap 0)) (is.drop 2)).bind _) = _
      rw [hcounter, Option.bind_some, hdrop]
      rfl
    rw [hrob]
    generalize exec (HouseRobber2.step (a :: b :: rest)) _ _ = state at htracks ⊢
    rcases state with - | ⟨prev, cur⟩
    · rw [show exec _ _ _ = none from htracks]
      rfl
    · obtain ⟨dp, hexec, -, -, hcur⟩ := htracks
      rw [hexec, Option.bind_some, Nat.add_comm, hcur]
      rfl

/-- **`rob`** returns the greatest sum of a choice without neighbours, if it is one of an `int`. -/
theorem rob_iff (hlen : nums.length < 2 ^ 31) (hpos : ∀ num ∈ nums, 0 ≤ num.1) (x : CInt) :
    rob nums = some x ↔ IsBest Next (amount nums) (Finset.range nums.length) x.1 := by
  have hlength : (wrap nums.length).1 = nums.length := wrap_of_lt (by omega) (by omega)
  obtain ⟨c, hc, hhelper⟩ := HouseRobber2.helper_spec nums (l := 0) (r := nums.length)
    (show (wrap 0).1 = (0 : ℕ) from rfl) (by rw [hlength, Int.toNat_natCast]) le_rfl
  rw [rob_eq_helper hlen hpos, hhelper, Finset.range_eq_Ico]
  exact ⟨fun hx ↦ hx ▸ hc, fun hx ↦ hx.unique hc⟩

theorem rob_iff_five : ([2, 7, 9, 3, 1].map wrap).length < 2 ^ 31 ∧
    (∀ num ∈ [2, 7, 9, 3, 1].map wrap, 0 ≤ num.1) ∧
    (rob ([2, 7, 9, 3, 1].map wrap) = some (wrap 12) ↔
      IsBest Next (amount ([2, 7, 9, 3, 1].map wrap)) (Finset.range 5) (wrap 12).1) :=
  ⟨by decide, by decide, rob_iff (by decide) (by decide) (wrap 12)⟩

end HouseRobber
