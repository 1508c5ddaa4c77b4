import Mathlib.Algebra.Order.Ring.Int
import MiscCpp.Library.AlternatingGame
import MiscCpp.Library.Counters
import MiscCpp.Library.Machine
import MiscCpp.Library.TwoDimensional

/-!
# Removing stones from the ends of a row

`stoneGameTopDown` and `stoneGameBottomUp` of `leetcode/DP/stoneGameVII.cc`, with exact sums and
indices of type `int`.

Both compute the value of the game for the rows of stones that can be left. The first function
passes on the sum of the row (`f_spec`), the second one takes it from prefix sums (`cell_eq`). The
index of a loop overflows if there are too many stones (`stoneGame_iff`).
-/

open Access AlternatingGame CInt Machine TwoDimensional

namespace StoneGameVII

/-! ### The program -/

abbrev Table := List (List ℤ)

/-- The values of the two calls in the arguments of `std::max`, of which either may come first. -/
def calls (leftFirst : Bool) (left right : Table → Option (ℤ × Table)) (dp : Table) :
    Option (ℤ × ℤ × Table) :=
  if leftFirst then (left dp).bind fun (a, dp) ↦ (right dp).map fun (b, dp) ↦ (a, b, dp)
  else (right dp).bind fun (b, dp) ↦ (left dp).map fun (a, dp) ↦ (a, b, dp)

/-- `f`, with `dp` before and after it. -/
def f (nums : List CInt) (leftFirst : Bool) :
    ℕ → ℤ → ℤ → ℤ → Table → Option (ℤ × Table)
  | 0, _, _, _, _ => none
  | fuel + 1, l, r, sum, dp =>
    if r ≤ l then some (0, dp)
    else do
      let x ← Access.get nums l
      let y ← Access.get nums r
      let left := f nums leftFirst fuel (l + 1) r (sum - x.1)
      let right := f nums leftFirst fuel l (r - 1) (sum - y.1)
      let (a, b, dp) ← calls leftFirst left right dp
      let dp ← put dp l r (max (sum - x.1 - a) (sum - y.1 - b))
      some (← get dp l r, dp)

/-- The value of the game, from the whole row down. -/
def stoneGameTopDown (leftFirst : Bool) (fuel : ℕ) (nums : List CInt) : Option ℤ := do
  let n := nums.length
  let dp : Table := List.replicate n (List.replicate n INT_MAX.1)
  let (value, _) ← f nums leftFirst fuel 0 (wrap (n - 1)).1 (nums.map Subtype.val).sum dp
  some value

/-- The first loop. -/
def prefixSums (nums : List CInt) : Option (List ℤ) := do
  let n := nums.length
  exec (fun prefixSum (i : ℕ) ↦ do
    Access.put prefixSum (i + 1) ((← Access.get prefixSum i) + (← Access.get nums i).1))
    (List.replicate (n + 1) 0) (← counter n)

/-- What is assigned to `dp[l][r]`. -/
def cell (prefixSum : List ℤ) (dp : Table) (l r : ℤ) : Option ℤ := do
  let left := (← Access.get prefixSum (r + 1)) - (← Access.get prefixSum (l + 1)) -
    (← get dp (l + 1) r)
  let right := (← Access.get prefixSum r) - (← Access.get prefixSum l) - (← get dp l (r - 1))
  some (max left right)

/-- The inner loop, with `l` and `r` up to `r = n`. -/
def fillRows (prefixSum : List ℤ) (n : ℕ) (dp : Table) (len : ℕ) : Option Table := do
  exec (fun dp (r : ℕ) ↦ do put dp (r + 1 - len) r (← cell prefixSum dp (r + 1 - len) r)) dp
    ((← counter n).drop (len - 1))

/-- The value of the game, from short rows up. -/
def stoneGameBottomUp (nums : List CInt) : Option ℤ := do
  let n := nums.length
  let prefixSum ← prefixSums nums
  let dp : Table := List.replicate n (List.replicate n 0)
  let dp ← exec (fillRows prefixSum n) dp ((← counter (n + 1)).drop 2)
  get dp 0 (n - 1)

example : stoneGameTopDown true 5 ([5, 3, 1, 4, 2].map wrap) = some 6 := by decide +kernel

example : stoneGameBottomUp ([5, 3, 1, 4, 2].map wrap) = some 6 := by decide +kernel

/-! ### The game -/

/-- A move removes the first or the last stone and scores the sum of the others. -/
def game : Game (List ℤ) Bool ℤ where
  next stones left := if left then stones.tail else stones.dropLast
  score stones left := (if left then stones.tail else stones.dropLast).sum

/-- `k` stones, from the one with the index `l` on. -/
def row (stones : List ℤ) (l k : ℕ) : List ℤ := (stones.drop l).take k

/-- The value of the game with these stones. -/
def best (stones : List ℤ) (l k : ℕ) : ℤ := value game k (row stones l k)

variable {stones : List ℤ} {nums : List CInt} {l r k n : ℕ}

theorem tail_row (hl : l + k < stones.length) :
    (row stones l (k + 1)).tail = row stones (l + 1) k := by
  rw [row, List.drop_eq_getElem_cons (by omega), List.take_succ_cons, List.tail_cons, row]

theorem dropLast_row (hl : l + k < stones.length) :
    (row stones l (k + 1)).dropLast = row stones l k := by
  have hlen : (row stones l (k + 1)).length = k + 1 := by
    rw [row, List.length_take, List.length_drop]
    omega
  rw [List.dropLast_eq_take, hlen, Nat.add_sub_cancel, row, List.take_take, row,
    Nat.min_eq_left (Nat.le_succ k)]

/-- **The better one** of the two moves. -/
theorem best_succ (hl : l + k < stones.length) : best stones l (k + 1) =
    max ((row stones (l + 1) k).sum - best stones (l + 1) k)
      ((row stones l k).sum - best stones l k) := by
  rw [best, value_bool]
  simp only [game, if_true, Bool.false_eq_true, if_false, tail_row hl, dropLast_row hl]
  rfl

theorem best_zero (stones : List ℤ) (l : ℕ) : best stones l 0 = 0 := rfl

/-- The last stone scores nothing. -/
theorem best_one (hl : l < stones.length) : best stones l 1 = 0 := by
  rw [best_succ (by omega), best_zero, best_zero]
  rfl

theorem sum_row (stones : List ℤ) (l k : ℕ) :
    (row stones l k).sum = (stones.take (l + k)).sum - (stones.take l).sum := by
  rw [row, List.take_add, List.sum_append, add_sub_cancel_left]

/-! ### The recursive function -/

/-- The table has an entry for each pair of indices. -/
def Square (n : ℕ) (dp : Table) : Prop := ∀ i j : ℕ, i < n → j < n → ∃ x, get dp i j = some x

theorem Square.put {dp : Table} (h : Square n dp) (hl : l < n) (hr : r < n) (x : ℤ) :
    ∃ dp', put dp l r x = some dp' ∧ get dp' l r = some x ∧ Square n dp' := by
  obtain ⟨y, hy⟩ := h l r hl hr
  obtain ⟨dp', hput, hget, hother⟩ := put_spec hy x
  refine ⟨dp', hput, hget, fun i j hi hj ↦ ?_⟩
  by_cases hne : i ≠ l ∨ j ≠ r
  · rw [hother i j hne]
    exact h i j hi hj
  · obtain ⟨rfl, rfl⟩ : i = l ∧ j = r := by omega
    exact ⟨x, hget⟩

theorem square_replicate (n : ℕ) (x : ℤ) : Square n (List.replicate n (List.replicate n x)) :=
  fun _ _ hi hj ↦ ⟨x, get_replicate hi hj x⟩

theorem get_eq (hl : l < nums.length) :
    ∃ x, Access.get nums l = some x ∧ (nums.map Subtype.val)[l]? = some x.1 := by
  refine ⟨nums[l], ?_, ?_⟩
  · rw [Access.get_natCast, List.getElem?_eq_getElem]
  · rw [List.getElem?_map, List.getElem?_eq_getElem hl, Option.map_some]

theorem sum_row_left {x : ℤ} (hx : stones[l]? = some x) (k : ℕ) :
    (row stones l (k + 1)).sum - x = (row stones (l + 1) k).sum := by
  obtain ⟨hl, rfl⟩ := List.getElem?_eq_some_iff.1 hx
  rw [row, List.drop_eq_getElem_cons hl, List.take_succ_cons, List.sum_cons, add_sub_cancel_left,
    row]

theorem sum_row_right {x : ℤ} (hx : stones[l + k]? = some x) :
    (row stones l (k + 1)).sum - x = (row stones l k).sum := by
  obtain ⟨hl, rfl⟩ := List.getElem?_eq_some_iff.1 hx
  rw [sum_row, sum_row, ← add_assoc, List.take_succ_eq_append_getElem hl, List.sum_append,
    List.sum_singleton]
  omega

theorem calls_spec (leftFirst : Bool) {left right : Table → Option (ℤ × Table)} {a b : ℤ}
    (hleft : ∀ dp, Square n dp → ∃ dp', left dp = some (a, dp') ∧ Square n dp')
    (hright : ∀ dp, Square n dp → ∃ dp', right dp = some (b, dp') ∧ Square n dp') {dp : Table}
    (hdp : Square n dp) :
    ∃ dp', calls leftFirst left right dp = some (a, b, dp') ∧ Square n dp' := by
  cases leftFirst with
  | true =>
    obtain ⟨dp₁, h₁, hdp₁⟩ := hleft dp hdp
    obtain ⟨dp₂, h₂, hdp₂⟩ := hright dp₁ hdp₁
    exact ⟨dp₂, by simp only [calls, if_true, h₁, h₂, Option.bind_some, Option.map_some], hdp₂⟩
  | false =>
    obtain ⟨dp₁, h₁, hdp₁⟩ := hright dp hdp
    obtain ⟨dp₂, h₂, hdp₂⟩ := hleft dp₁ hdp₁
    refine ⟨dp₂, ?_, hdp₂⟩
    simp only [calls, Bool.false_eq_true, if_false, h₁, h₂, Option.bind_some, Option.map_some]

/-- **The recursion** returns the value for the stones `l, …, l + k`. -/
theorem f_spec (leftFirst : Bool) {dp : Table} {fuel : ℕ} (hl : l + k < nums.length)
    (hdp : Square nums.length dp) (hfuel : k < fuel) :
    ∃ dp', f nums leftFirst fuel l (l + k) (row (nums.map Subtype.val) l (k + 1)).sum dp =
      some (best (nums.map Subtype.val) l (k + 1), dp') ∧ Square nums.length dp' := by
  -- Nothing is known of the entries of `dp`: they are written, and read back at once only.
  induction fuel generalizing l k dp with
  | zero => exact absurd hfuel (Nat.not_lt_zero k)
  | succ fuel ih =>
    have hlen : (nums.map Subtype.val).length = nums.length := List.length_map ..
    rw [f]
    cases k with
    | zero =>
      refine ⟨dp, ?_, hdp⟩
      rw [if_pos (by omega), best_one (by omega)]
    | succ k =>
      obtain ⟨x, hx, hxval⟩ := get_eq (show l < nums.length by omega)
      obtain ⟨y, hy, hyval⟩ := get_eq (show l + (k + 1) < nums.length by omega)
      have hr : ((l + (k + 1) : ℕ) : ℤ) = (l : ℤ) + (k + 1 : ℕ) := by omega
      have hleft (dp : Table) (h : Square nums.length dp) :
          ∃ dp', f nums leftFirst fuel (l + 1) (l + (k + 1 : ℕ))
            ((row (nums.map Subtype.val) l (k + 1 + 1)).sum - x.1) dp =
            some (best (nums.map Subtype.val) (l + 1) (k + 1), dp') ∧ Square nums.length dp' := by
        have hspec := ih (l := l + 1) (k := k) (by omega) h (by omega)
        rwa [Int.natCast_succ, show (l : ℤ) + 1 + k = l + (k + 1 : ℕ) by omega,
          ← sum_row_left hxval (k + 1)] at hspec
      have hright (dp : Table) (h : Square nums.length dp) :
          ∃ dp', f nums leftFirst fuel l (l + (k + 1 : ℕ) - 1)
            ((row (nums.map Subtype.val) l (k + 1 + 1)).sum - y.1) dp =
            some (best (nums.map Subtype.val) l (k + 1), dp') ∧ Square nums.length dp' := by
        have hspec := ih (l := l) (k := k) (by omega) h (by omega)
        rwa [show (l : ℤ) + k = l + (k + 1 : ℕ) - 1 by omega,
          ← sum_row_right hyval] at hspec
      have hbest := best_succ (show l + (k + 1) < (nums.map Subtype.val).length by omega)
      rw [← sum_row_left hxval (k + 1), ← sum_row_right hyval] at hbest
      obtain ⟨dp₂, hcalls, hdp₂⟩ := calls_spec leftFirst hleft hright hdp
      obtain ⟨dp₃, hput, hget, hdp₃⟩ := hdp₂.put (l := l) (r := l + (k + 1)) (by omega)
        (by omega) (best (nums.map Subtype.val) l (k + 1 + 1))
      refine ⟨dp₃, ?_, hdp₃⟩
      rw [hr] at hput hget
      rw [if_neg (by omega), hx, ← hr, hy, hr, Option.bind_eq_bind, Option.bind_some,
        Option.bind_some]
      dsimp only
      rw [hcalls, Option.bind_eq_bind, Option.bind_some]
      dsimp only
      rw [← hbest, hput, Option.bind_eq_bind, Option.bind_some, hget]
      rfl

/-! ### The table -/

/-- The sum of the first stones. -/
def sumTo (nums : List CInt) (i : ℕ) : ℤ := ((nums.map Subtype.val).take i).sum

theorem sum_row_eq (nums : List CInt) (l k : ℕ) :
    (row (nums.map Subtype.val) l k).sum = sumTo nums (l + k) - sumTo nums l := sum_row _ l k

/-- The vector of the prefix sums. -/
def IsSums (nums : List CInt) (prefixSum : List ℤ) : Prop :=
  Entries (nums.length + 1) (fun i x ↦ x = sumTo nums i.toNat) prefixSum

theorem IsSums.get_eq {prefixSum : List ℤ} (h : IsSums nums prefixSum) (hk : k ≤ nums.length) :
    Access.get prefixSum k = some (sumTo nums k) := by
  obtain ⟨x, hx, rfl⟩ := h.exists_get (Int.natCast_nonneg k) (by omega)
  exact hx

/-- **The first loop** computes the prefix sums. -/
theorem exists_prefixSums (hlt : nums.length < 2 ^ 31) :
    ∃ prefixSum, prefixSums nums = some prefixSum ∧ IsSums nums prefixSum := by
  have hstart : Entries (nums.length + 1) (Split ((0 : ℕ) + 1)
      (fun i x ↦ x = sumTo nums i.toNat) fun _ _ ↦ True) (List.replicate (nums.length + 1) 0) := by
    refine entries_replicate fun i h0 _ ↦ ⟨fun hlt ↦ ?_, fun _ ↦ trivial⟩
    obtain rfl : i = 0 := by omega
    rfl
  have hstep (k : ℕ) (s : List ℤ) (hk : k < nums.length)
      (hs : Entries (nums.length + 1) (Split ((k : ℕ) + 1)
        (fun i x ↦ x = sumTo nums i.toNat) fun _ _ ↦ True) s) :
      ∃ t, (do Access.put s (k + 1) ((← Access.get s k) + (← Access.get nums k).1)) = some t ∧
        Entries (nums.length + 1) (Split ((k + 1 : ℕ) + 1)
          (fun i x ↦ x = sumTo nums i.toNat) fun _ _ ↦ True) t := by
    obtain ⟨x, hx, hval⟩ := hs.exists_get (Int.natCast_nonneg k) (by omega)
    obtain rfl := hval.1 (by omega)
    obtain ⟨y, hy, hyval⟩ := get_eq hk
    have hsucc : sumTo nums (k + 1) = sumTo nums k + y.1 := by
      obtain ⟨hlt, heq⟩ := List.getElem?_eq_some_iff.1 hyval
      rw [sumTo, sumTo, List.take_succ_eq_append_getElem hlt, List.sum_append, List.sum_singleton,
        heq]
    obtain ⟨t, hput, ht⟩ := hs.put_up (b := sumTo nums (k + 1)) (by omega) (by omega) rfl
    refine ⟨t, ?_, ht⟩
    rw [hx, hy, Option.bind_eq_bind, Option.bind_some, Option.bind_eq_bind, Option.bind_some,
      Int.toNat_natCast, ← hsucc]
    exact hput
  obtain ⟨t, hexec, ht⟩ := exists_exec_range (I := fun k s ↦ Entries (nums.length + 1)
    (Split ((k : ℕ) + 1) (fun i x ↦ x = sumTo nums i.toNat) fun _ _ ↦ True) s) hstep hstart
  refine ⟨t, ?_, ht.congr fun i x _ hlt hx ↦ hx.1 (by omega)⟩
  rw [prefixSums, counter, if_pos hlt]
  exact hexec

/-- The entry is the value for the stones `l, …, r`. -/
def Right (nums : List CInt) (l r : ℕ) (x : ℤ) : Prop :=
  x = best (nums.map Subtype.val) l (r + 1 - l)

variable {prefixSum : List ℤ} {done : ℕ → ℕ → Prop} {dp : Table}

/-- **An entry** from those for one stone less. -/
theorem cell_eq (hsums : IsSums nums prefixSum)
    (hdp : Filled (Right nums) (nums.length - 1) (nums.length - 1) done dp)
    (hl : l + (k + 1) < nums.length) (hleft : done (l + 1) (l + (k + 1)))
    (hright : done l (l + k)) :
    cell prefixSum dp l (l + (k + 1 : ℕ)) = some (best (nums.map Subtype.val) l (k + 1 + 1)) := by
  have hlen : (nums.map Subtype.val).length = nums.length := List.length_map ..
  obtain ⟨x, hx, hxval⟩ := hdp.exists_get (show l + 1 ≤ nums.length - 1 by omega)
    (show l + (k + 1) ≤ nums.length - 1 by omega) hleft
  obtain ⟨y, hy, hyval⟩ := hdp.exists_get (show l ≤ nums.length - 1 by omega)
    (show l + k ≤ nums.length - 1 by omega) hright
  rw [Right, show l + (k + 1) + 1 - (l + 1) = k + 1 by omega] at hxval
  rw [Right, show l + k + 1 - l = k + 1 by omega] at hyval
  have h₁ := hsums.get_eq (k := l + (k + 1) + 1) (by omega)
  have h₂ := hsums.get_eq (k := l + 1) (by omega)
  have h₃ := hsums.get_eq (k := l + (k + 1)) (by omega)
  have h₄ := hsums.get_eq (k := l) (by omega)
  have hbest := best_succ (show l + (k + 1) < (nums.map Subtype.val).length by omega)
  rw [sum_row_eq, sum_row_eq, show l + 1 + (k + 1) = l + (k + 1) + 1 by omega] at hbest
  rw [cell, show (l : ℤ) + (k + 1 : ℕ) + 1 = ((l + (k + 1) + 1 : ℕ) : ℤ) by omega,
    show (l : ℤ) + (k + 1 : ℕ) - 1 = ((l + k : ℕ) : ℤ) by omega,
    show (l : ℤ) + (k + 1 : ℕ) = ((l + (k + 1) : ℕ) : ℤ) by omega,
    show (l : ℤ) + 1 = ((l + 1 : ℕ) : ℤ) by omega, h₁, h₂, h₃, h₄, hx, hy]
  simp only [Option.bind_eq_bind, Option.bind_some]
  rw [hbest, hxval, hyval]

/-- **The inner loop** fills the entries for rows of `len` stones. -/
theorem fillRows_spec {len : ℕ} (hsums : IsSums nums prefixSum) (hlt : nums.length < 2 ^ 31)
    (hlen : 2 ≤ len) (hle : len ≤ nums.length)
    (hdp : Filled (Right nums) (nums.length - 1) (nums.length - 1)
      (fun i j ↦ i ≤ j ∧ j + 1 - i < len) dp) :
    ∃ dp', fillRows prefixSum nums.length dp len = some dp' ∧
      Filled (Right nums) (nums.length - 1) (nums.length - 1)
        (fun i j ↦ i ≤ j ∧ j + 1 - i < len + 1) dp' := by
  have hstep (r : ℕ) (s : Table) (hlr : len - 1 ≤ r) (hr : r < nums.length)
      (hs : Filled (Right nums) (nums.length - 1) (nums.length - 1)
        (fun i j ↦ i ≤ j ∧ (j + 1 - i < len ∨ j + 1 - i = len ∧ j < r)) s) :
      ∃ t, (do put s (r + 1 - len) r (← cell prefixSum s (r + 1 - len) r)) = some t ∧
        Filled (Right nums) (nums.length - 1) (nums.length - 1)
          (fun i j ↦ i ≤ j ∧ (j + 1 - i < len ∨ j + 1 - i = len ∧ j < r + 1)) t := by
    obtain ⟨k, rfl⟩ := Nat.exists_eq_add_of_le hlen
    obtain ⟨l, rfl⟩ := Nat.exists_eq_add_of_le hlr
    have hl : ((2 + k - 1 + l : ℕ) : ℤ) + 1 - (2 + k : ℕ) = l := by omega
    have hr' : ((2 + k - 1 + l : ℕ) : ℤ) = l + (k + 1 : ℕ) := by omega
    have hcell := cell_eq hsums hs (l := l) (k := k) (by omega) ⟨by omega, Or.inl (by omega)⟩
      ⟨by omega, Or.inl (by omega)⟩
    have hright : Right nums l (2 + k - 1 + l) (best (nums.map Subtype.val) l (k + 1 + 1)) := by
      rw [Right, show 2 + k - 1 + l + 1 - l = k + 1 + 1 by omega]
    obtain ⟨t, hput, ht⟩ : ∃ t, put s l (2 + k - 1 + l : ℕ) _ = some t ∧
        Filled (Right nums) (nums.length - 1) (nums.length - 1) (fun i j ↦ i ≤ j ∧
          (j + 1 - i < 2 + k ∨ j + 1 - i = 2 + k ∧ j < 2 + k - 1 + l + 1)) t :=
      hs.put (by omega) (by omega) hright (by omega)
    refine ⟨t, ?_, ht⟩
    rw [hl, hr', hcell, Option.bind_eq_bind, Option.bind_some, ← hr', hput]
  obtain ⟨dp', hexec, hdp'⟩ := exists_exec_drop_range (I := fun r s ↦
    Filled (Right nums) (nums.length - 1) (nums.length - 1)
      (fun i j ↦ i ≤ j ∧ (j + 1 - i < len ∨ j + 1 - i = len ∧ j < r)) s)
    (show len - 1 ≤ nums.length by omega) hstep (hdp.mono fun i j _ _ h ↦ by omega)
  refine ⟨dp', ?_, hdp'.mono fun i j _ _ h ↦ by omega⟩
  rw [fillRows, counter, if_pos hlt]
  exact hexec

/-- **The table** is filled. -/
theorem stoneGameBottomUp_eq (hne : 0 < nums.length) (hlt : nums.length + 1 < 2 ^ 31) :
    stoneGameBottomUp nums = some (best (nums.map Subtype.val) 0 nums.length) := by
  obtain ⟨prefixSum, hsums₀, hsums⟩ := exists_prefixSums (show nums.length < 2 ^ 31 by omega)
  have hstart : Filled (Right nums) (nums.length - 1) (nums.length - 1)
      (fun i j ↦ i ≤ j ∧ j + 1 - i < 2)
      (List.replicate nums.length (List.replicate nums.length 0)) := by
    intro i j hi hj
    refine ⟨0, get_replicate (by omega) (by omega) 0, fun h ↦ ?_⟩
    obtain rfl : i = j := by omega
    rw [Right, Nat.add_sub_cancel_left, best_one (by rw [List.length_map]; omega)]
  obtain ⟨dp, hexec, hdp⟩ := exists_exec_drop_range (I := fun len s ↦
    Filled (Right nums) (nums.length - 1) (nums.length - 1)
      (fun i j ↦ i ≤ j ∧ j + 1 - i < len) s) (show 2 ≤ nums.length + 1 by omega)
    (fun len s hle hlt' hs ↦ fillRows_spec hsums (by omega) hle (by omega) hs) hstart
  obtain ⟨x, hx, hval⟩ := hdp.exists_get (Nat.zero_le _) le_rfl ⟨Nat.zero_le _, by omega⟩
  rw [stoneGameBottomUp]
  simp only [hsums₀, counter, if_pos hlt, hexec, Option.bind_eq_bind, Option.bind_some]
  rw [show (nums.length : ℤ) - 1 = (nums.length - 1 : ℕ) by omega]
  rw [Right, Nat.sub_zero, Nat.sub_add_cancel hne] at hval
  rw [← hval]
  exact hx

theorem stoneGameBottomUp_eq_none (h : 2 ^ 31 ≤ nums.length + 1) :
    stoneGameBottomUp nums = none := by
  rw [stoneGameBottomUp]
  cases hsums₀ : prefixSums nums with
  | none => rfl
  | some prefixSum => rw [counter, if_neg (by omega)]; rfl

/-! ### The functions -/

theorem stoneGameTopDown_eq (leftFirst : Bool) {fuel : ℕ} (hne : 0 < nums.length)
    (hlt : nums.length ≤ 2 ^ 31) (hfuel : nums.length ≤ fuel) :
    stoneGameTopDown leftFirst fuel nums =
      some (best (nums.map Subtype.val) 0 nums.length) := by
  have hlen : (nums.map Subtype.val).length = nums.length := List.length_map ..
  obtain ⟨dp, hf, -⟩ := f_spec leftFirst (show 0 + (nums.length - 1) < nums.length by omega)
    (square_replicate _ INT_MAX.1) (show nums.length - 1 < fuel by omega)
  have hr : (wrap (nums.length - 1)).1 = ((0 : ℕ) : ℤ) + (nums.length - 1 : ℕ) := by
    rw [wrap_of_lt (by omega) (by omega)]
    omega
  rw [Nat.sub_add_cancel hne, row, List.drop_zero, List.take_of_length_le hlen.le, ← hr] at hf
  rw [stoneGameTopDown]
  dsimp only
  rw [← Int.natCast_zero, hf]
  rfl

/-- Both functions return the difference of the scores if both players play well. -/
def ReturnValue (nums : List CInt) : Prop :=
  ∃ v, IsValue game nums.length (nums.map Subtype.val) v ∧
    (∀ leftFirst, ∃ n, ∀ fuel ≥ n, stoneGameTopDown leftFirst fuel nums = some v) ∧
    stoneGameBottomUp nums = some v

/-- **Both functions** return it exactly if the number of stones is less than `INT_MAX`. -/
theorem stoneGame_iff (nums : List CInt) (hne : nums ≠ []) :
    ReturnValue nums ↔ nums.length < INT_MAX.1 := by
  have hpos := List.length_pos_of_ne_nil hne
  have hmax : INT_MAX.1 = 2 ^ 31 - 1 := rfl
  constructor
  · rintro ⟨v, -, -, h⟩
    by_contra hge
    rw [stoneGameBottomUp_eq_none (by omega)] at h
    cases h
  · intro hlt
    have hvalue := isValue_value game nums.length (nums.map Subtype.val)
    have hrow : row (nums.map Subtype.val) 0 nums.length = nums.map Subtype.val :=
      List.take_of_length_le (List.length_map ..).le
    refine ⟨_, hvalue, fun leftFirst ↦ ⟨nums.length, fun fuel hfuel ↦ ?_⟩, ?_⟩
    · rw [stoneGameTopDown_eq leftFirst hpos (by omega) hfuel, best, hrow]
    · rw [stoneGameBottomUp_eq hpos (by omega), best, hrow]

theorem stoneGame_iff_five : ReturnValue ([5, 3, 1, 4, 2].map wrap) :=
  (stoneGame_iff ([5, 3, 1, 4, 2].map wrap) (List.cons_ne_nil _ _)).2 (by decide)

/-- There are `2 ^ 31` stones. -/
theorem not_forall_returnValue : ¬ ∀ nums : List CInt, nums ≠ [] → ReturnValue nums := by
  intro h
  obtain ⟨s, hs⟩ : ∃ s, List.replicate (2 ^ 31) (wrap 0) = s := ⟨_, rfl⟩
  have hlen : s.length = 2 ^ 31 := by rw [← hs, List.length_replicate]
  have hne : s ≠ [] := List.ne_nil_of_length_pos (by omega)
  obtain ⟨v, -, -, hbottom⟩ := h s hne
  rw [stoneGameBottomUp_eq_none (by omega)] at hbottom
  cases hbottom

end StoneGameVII
