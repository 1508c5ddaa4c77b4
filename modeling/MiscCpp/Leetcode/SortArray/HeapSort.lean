import MiscCpp.Leetcode.SortArray.LastIndex
import MiscCpp.Library.Access
import MiscCpp.Library.HeapOrder
import MiscCpp.Library.Machine
import MiscCpp.Library.Search

/-!
# Heap sort

`heapSort2` of `leetcode/divideANDconquer/sortArray.cc`. The turns of its two loops are the steps of
a machine: a turn of the first loop sifts an element down, one of the second takes the first element
to its place and sifts the one that was there.

An element that is sifted follows the path of `Sift`, and `heapify` is defined exactly if it comes
to rest at an index whose right child `2 * i + 2` is an `int` (`heapify_spec`). The first loop
leaves a heap (`ordered_sifts`), in which the second one always takes the greatest element
(`always_takesGreatest`), and this is what it needs to sort (`sortedOn_takes_iff`). What a vector
needs to be sorted is said by heap sort on its elements (`RightFrom`), which knows nothing of `int`
but where an element must not come to rest.

The two limits of the loops are converted to `int`. So from `2 ^ 31 + 1` elements on only a prefix
is sorted at most, and there are lengths from `2 ^ 32` on where the first loop is left out.
-/

open Access CInt HeapOrder Machine Search SortArray

namespace HeapSort

/-! ### The program -/

/-- `if (c <= e && nums[c] > nums[j]) j = c;` -/
def greater (nums : List CInt) (e c j : CInt) : Option CInt :=
  if c ≤ e then do
    let x ← get nums c.1
    let y ← get nums j.1
    some (if y < x then c else j)
  else some j

/-- The index `j` in a turn of `heapify`. -/
def greatest (nums : List CInt) (i e : CInt) : Option CInt := do
  let d ← checked (2 * i.1)
  let l ← checked (d.1 + 1)
  let r ← checked (d.1 + 2)
  let j ← greater nums e l i
  greater nums e r j

/-- `heapify`, whose loop goes on with the child that has been exchanged. -/
def heapify : ℕ → CInt → CInt → List CInt → Option (List CInt)
  | 0, _, _, _ => none
  | fuel + 1, i, e, nums =>
    if i ≤ e then do
      let j ← greatest nums i e
      if j = i then some nums
      else do
        let nums ← swap nums i.1 j.1
        heapify fuel j e nums
    else some nums

/-- A turn of the first loop, and one of the second. -/
inductive Turn
  | sift (i : ℕ)
  | take (i : ℕ)

/-- The turn, in a vector with the last index `last`. -/
def Turn.run (fuel : ℕ) (last : CInt) (nums : List CInt) : Turn → Option (List CInt)
  | .sift i => heapify fuel (wrap i) last nums
  | .take i => do
    let nums ← swap nums 0 i
    heapify fuel (wrap 0) (wrap (i - 1)) nums

/-- `nums.size() / 2` as an `int`. It is not unfolded where it decides how long a list is. -/
@[irreducible] def middle (size : ℕ) : CInt := wrap (size / 2 : ℕ)

/-- `k` turns of the first loop, which counts down to `0`. -/
def sifts (k : ℕ) : List Turn := (List.range k).reverse.map .sift

/-- `k` turns of the second loop, which counts down to `1`. -/
def takes (k : ℕ) : List Turn := (List.range k).reverse.map fun i ↦ .take (i + 1)

/-- The turns of both loops. -/
def turns (size : ℕ) : List Turn :=
  sifts ((middle size).1 + 1).toNat ++ takes (lastIndex size).1.toNat

/-- `heapSort2(nums)` -/
def heapSort2 (fuel : ℕ) (nums : List CInt) : Option (List CInt) :=
  exec (Turn.run fuel (lastIndex nums.length)) nums (turns nums.length)

/-! ### The elements -/

variable {nums nums' : List CInt} {i j e c : CInt} {k m p q n : ℕ} {fuel : ℕ}

/-- The elements by their indices, the greatest first. -/
def element (nums : List CInt) (k : ℕ) : CIntᵒᵈ := .toDual (nums[k]?.getD (wrap 0))

theorem get_eq (hk : k < nums.length) : get nums k = some (OrderDual.ofDual (element nums k)) := by
  rw [get_natCast, element, OrderDual.ofDual_toDual, List.getElem?_eq_getElem hk, Option.getD_some]

theorem element_of_get {x : CInt} (h : get nums k = some x) : element nums k = .toDual x := by
  rw [get_natCast] at h
  rw [element, h, Option.getD_some]

theorem element_of_le (hk : nums.length ≤ k) : element nums k = .toDual (wrap 0) := by
  rw [element, List.getElem?_eq_none hk, Option.getD_none]

/-- A swap inside the vector exchanges two elements. -/
theorem exists_swap (hp : p < nums.length) (hq : q < nums.length) :
    ∃ nums', swap nums p q = some nums' ∧ element nums' = exchange (element nums) p q ∧
      ∀ hi : ℤ, p ≤ hi → q ≤ hi → Rearranges 0 hi nums nums' := by
  have hx := get_eq hp
  have hy := get_eq hq
  refine ⟨_, swap_eq hx hy, funext fun k ↦ ?_, fun hi hphi hqhi ↦ rearranges_swap hx hy
    (Int.natCast_nonneg p) hphi (Int.natCast_nonneg q) hqhi⟩
  have hget := get_swap hx hy k
  rcases lt_or_ge k nums.length with hk | hk
  · split at hget
    next heq =>
      obtain rfl := Int.natCast_inj.1 heq
      rw [element_of_get hget, exchange_right, OrderDual.toDual_ofDual]
    next hkq =>
      split at hget
      next heq =>
        obtain rfl := Int.natCast_inj.1 heq
        rw [element_of_get hget, exchange_left, OrderDual.toDual_ofDual]
      next hkp =>
        rw [get_eq hk] at hget
        rw [element_of_get hget, exchange_of_ne (fun heq ↦ hkp (by rw [heq]))
          (fun heq ↦ hkq (by rw [heq])), OrderDual.toDual_ofDual]
  · rw [exchange_of_ne (by omega) (by omega), element_of_le hk, element_of_le]
    rwa [List.length_set, List.length_set]

/-! ### A turn of `heapify` -/

/-- The comparison with a child. -/
theorem greater_eq (hc : c.1 = p) (hj : j.1 = q) (he : e.1 < nums.length) (hq : q < nums.length) :
    greater nums e c j = some (if c.1 ≤ e.1 ∧ element nums p < element nums q then c else j) := by
  rw [greater]
  by_cases hce : c ≤ e
  · have hce' : c.1 ≤ e.1 := hce
    rw [if_pos hce, hc, hj, get_eq (show p < nums.length by omega), get_eq hq]
    simp only [Option.bind_eq_bind, Option.bind_some, and_iff_right (show (p : ℤ) ≤ e.1 by omega)]
    rfl
  · rw [if_neg hce, if_neg fun h ↦ hce h.1]

/-- The greatest of an element and its children, with the first child if they are equal. -/
theorem greatest_spec (hi : i.1 = k) (he : e.1 < nums.length) (hie : i ≤ e)
    (hmax : k + 1 < 2 ^ 30) (hn : n = (e.1 + 1).toNat) :
    ∃ j, greatest nums i e = some j ∧
      (j = i ∧ (∀ c, 0 < c → c < n → parent c = k → element nums k ≤ element nums c) ∨
        ∃ m : ℕ, j.1 = m ∧ 0 < m ∧ m < n ∧ parent m = k ∧
          (∀ c, 0 < c → c < n → parent c = k → element nums m ≤ element nums c) ∧
          (∀ c, 0 < c → c < m → parent c = k → element nums m < element nums c) ∧
          element nums m < element nums k) := by
  have hie' : i.1 ≤ e.1 := hie
  obtain ⟨d, hd, hd'⟩ := exists_checked (show _ ≤ 2 * i.1 ∧ 2 * i.1 < 2 ^ 31 by omega)
  obtain ⟨l, hl', hl⟩ := exists_checked (show _ ≤ d.1 + 1 ∧ d.1 + 1 < 2 ^ 31 by omega)
  obtain ⟨r, hr', hr⟩ := exists_checked (show _ ≤ d.1 + 2 ∧ d.1 + 2 < 2 ^ 31 by omega)
  replace hl : l.1 = (2 * k + 1 : ℕ) := by omega
  replace hr : r.1 = (2 * k + 2 : ℕ) := by omega
  have hchild : ∀ c, 0 < c → c < n → parent c = k →
      c = 2 * k + 1 ∧ l.1 ≤ e.1 ∨ c = 2 * k + 2 ∧ r.1 ≤ e.1 := fun c hc hcn hpar ↦ by
    have hcases := (parent_eq_iff hc).1 hpar
    omega
  have hparent : ∀ c, c = 2 * k + 1 ∨ c = 2 * k + 2 → parent c = k := fun c hc ↦
    (parent_eq_iff (by omega)).2 hc
  have hleft : greater nums e l i =
      some (if l.1 ≤ e.1 ∧ element nums (2 * k + 1) < element nums k then l else i) :=
    greater_eq hl hi he (by omega)
  rw [greatest, hd]
  simp only [Option.bind_eq_bind, Option.bind_some, hl', hr', hleft]
  by_cases hlt : l.1 ≤ e.1 ∧ element nums (2 * k + 1) < element nums k
  · have hright : greater nums e r l =
        some (if r.1 ≤ e.1 ∧ element nums (2 * k + 2) < element nums (2 * k + 1) then r else l) :=
      greater_eq hr hl he (by omega)
    rw [if_pos hlt, hright]
    by_cases hlt' : r.1 ≤ e.1 ∧ element nums (2 * k + 2) < element nums (2 * k + 1)
    · refine ⟨r, congrArg some (if_pos hlt'), .inr ⟨2 * k + 2, hr, by omega, by omega,
        hparent _ (.inr rfl), fun c hc hcn hpar ↦ ?_, fun c hc hcm hpar ↦ ?_,
        hlt'.2.trans hlt.2⟩⟩
      · rcases hchild c hc hcn hpar with ⟨rfl, -⟩ | ⟨rfl, -⟩
        · exact hlt'.2.le
        · exact le_refl _
      · obtain rfl | rfl := (parent_eq_iff hc).1 hpar
        · exact hlt'.2
        · omega
    · refine ⟨l, congrArg some (if_neg hlt'), .inr ⟨2 * k + 1, hl, by omega, by omega,
        hparent _ (.inl rfl), fun c hc hcn hpar ↦ ?_, fun c hc hcm hpar ↦ ?_, hlt.2⟩⟩
      · rcases hchild c hc hcn hpar with ⟨rfl, -⟩ | ⟨rfl, hre⟩
        · exact le_refl _
        · exact not_lt.1 fun h ↦ hlt' ⟨hre, h⟩
      · have hcases := (parent_eq_iff hc).1 hpar
        omega
  · have hright : greater nums e r i =
        some (if r.1 ≤ e.1 ∧ element nums (2 * k + 2) < element nums k then r else i) :=
      greater_eq hr hi he (by omega)
    rw [if_neg hlt, hright]
    by_cases hlt' : r.1 ≤ e.1 ∧ element nums (2 * k + 2) < element nums k
    · have hle : element nums k ≤ element nums (2 * k + 1) :=
        not_lt.1 fun h ↦ hlt ⟨by omega, h⟩
      refine ⟨r, congrArg some (if_pos hlt'), .inr ⟨2 * k + 2, hr, by omega, by omega,
        hparent _ (.inr rfl), fun c hc hcn hpar ↦ ?_, fun c hc hcm hpar ↦ ?_, hlt'.2⟩⟩
      · rcases hchild c hc hcn hpar with ⟨rfl, -⟩ | ⟨rfl, -⟩
        · exact (hlt'.2.trans_le hle).le
        · exact le_refl _
      · obtain rfl | rfl := (parent_eq_iff hc).1 hpar
        · exact hlt'.2.trans_le hle
        · omega
    · refine ⟨i, congrArg some (if_neg hlt'), .inl ⟨rfl, fun c hc hcn hpar ↦ ?_⟩⟩
      rcases hchild c hc hcn hpar with ⟨rfl, hle⟩ | ⟨rfl, hre⟩
      · exact not_lt.1 fun h ↦ hlt ⟨hle, h⟩
      · exact not_lt.1 fun h ↦ hlt' ⟨hre, h⟩

/-- The index of the right child overflows. -/
theorem greatest_of_le (hi : i.1 = k) (hmax : 2 ^ 30 ≤ k + 1) : greatest nums i e = none := by
  rw [greatest]
  by_cases hd : 2 * i.1 < 2 ^ 31
  · obtain ⟨d, hd', hd''⟩ := exists_checked (show _ ≤ 2 * i.1 ∧ 2 * i.1 < 2 ^ 31 by omega)
    have hr : checked (d.1 + 2) = none := dif_neg (by omega)
    rw [hd']
    simp only [Option.bind_eq_bind, Option.bind_some, hr, Option.bind_none, Option.bind_fun_none]
  · have hd' : checked (2 * i.1) = none := dif_neg fun h ↦ hd h.2
    rw [hd']
    rfl

/-- **`heapify`** sifts the element down, and overflows if it comes to rest too far behind. -/
theorem heapify_spec (hi : i.1 = k) (he : e.1 < nums.length) (hie : i ≤ e)
    (hn : n = (e.1 + 1).toNat) (hfuel : e.1 < i.1 + fuel) {b : ℕ → CIntᵒᵈ} {q : ℕ}
    (hsift : Sift n (element nums) k b q) :
    if q + 1 < 2 ^ 30 then
      ∃ nums', heapify fuel i e nums = some nums' ∧ element nums' = b ∧
        Rearranges 0 e.1 nums nums'
    else heapify fuel i e nums = none := by
  have hie' : i.1 ≤ e.1 := hie
  induction fuel generalizing i k nums with
  | zero => omega
  | succ fuel ih =>
    rw [heapify, if_pos hie]
    by_cases hmax : k + 1 < 2 ^ 30
    · obtain ⟨j, hj, hcases⟩ := greatest_spec hi he hie hmax hn
      rw [hj]
      simp only [Option.bind_eq_bind, Option.bind_some]
      rcases hcases with ⟨rfl, hrest⟩ | ⟨m, hjm, hm, hmn, hpar, hmin, hfirst, hlt⟩
      · obtain ⟨rfl, rfl⟩ := hsift.unique (.rest hrest)
        rw [if_pos hmax, if_pos rfl]
        exact ⟨nums, rfl, rfl, .refl _ _ _⟩
      · have hkm : k < m := hpar ▸ parent_lt hm
        have hne : j ≠ i := fun heq ↦ by
          rw [heq] at hjm
          omega
        rw [if_neg hne, hi, hjm]
        obtain ⟨nums₁, hswap, helement, hrearr⟩ :=
          exists_swap (show k < nums.length by omega) (show m < nums.length by omega)
        have hrearr' := hrearr e.1 (by omega) (by omega)
        obtain ⟨b', q', hsift'⟩ := exists_sift n (exchange (element nums) k m) m
        obtain ⟨rfl, rfl⟩ := hsift.unique (.down hm hmn hpar hmin hfirst hlt hsift')
        rw [hswap, Option.bind_some]
        have hrec := ih hjm (by rwa [hrearr'.length]) (show j.1 ≤ e.1 by omega) (by omega)
          (helement ▸ hsift') (by omega)
        split at hrec
        next hq =>
          obtain ⟨nums', hexec, helement', hrearr''⟩ := hrec
          rw [if_pos hq]
          exact ⟨nums', hexec, helement', hrearr'.trans hrearr''⟩
        next hq => rwa [if_neg hq]
    · have hle := hsift.le
      rw [if_neg (by omega), greatest_of_le hi (by omega)]
      rfl

/-! ### The turns of the loops -/

variable {last : CInt} {t : Turn}

/-- What the turn makes of the first `n` elements, and where the one that it sifts comes to rest. -/
def Turn.Moves (n : ℕ) (a b : ℕ → CIntᵒᵈ) (j : ℕ) : Turn → Prop
  | .sift i => Sift n a i b j
  | .take i => Sift i (exchange a 0 i) 0 b j

/-- At `j` there is no right child beyond `INT_MAX`, or the turn sifts nothing. -/
def Turn.InFront (n j : ℕ) : Turn → Prop
  | .sift i => i < n → j + 1 < 2 ^ 30
  | .take _ => j + 1 < 2 ^ 30

/-- The element that the turn sifts comes to rest where it has no right child beyond `INT_MAX`. -/
def Turn.RestsInFront (n : ℕ) (a : ℕ → CIntᵒᵈ) (t : Turn) : Prop :=
  ∀ b j, t.Moves n a b j → t.InFront n j

/-- What the second loop takes is the greatest of the elements that it has left. -/
def Turn.TakesGreatest (a : ℕ → CIntᵒᵈ) : Turn → Prop
  | .sift _ => True
  | .take i => ∀ j ≤ i, a 0 ≤ a j

/-- **Heap sort on the elements** is right: in each turn the element that is sifted comes to rest in
front and, where no heap has been built, the one that is taken is the greatest. -/
def RightFrom (n : ℕ) (middle : CInt) : List Turn → (ℕ → CIntᵒᵈ) → Prop
  | [], _ => True
  | t :: ts, a =>
    (middle.1 < 0 → t.TakesGreatest a) ∧
      ∀ b j, t.Moves n a b j → t.InFront n j ∧ RightFrom n middle ts b

/-- Every turn moves an element somewhere. -/
theorem exists_moves (n : ℕ) (a : ℕ → CIntᵒᵈ) (t : Turn) : ∃ b j, t.Moves n a b j := by
  cases t with
  | sift i => exact exists_sift n a i
  | take i => exact exists_sift i (exchange a 0 i) 0

/-- What a turn moves, and where, is determined. -/
theorem Turn.Moves.unique {n j j' : ℕ} {a b b' : ℕ → CIntᵒᵈ} (h : t.Moves n a b j)
    (h' : t.Moves n a b' j') : b = b' ∧ j = j' := by
  cases t with
  | sift i => exact Sift.unique h h'
  | take i => exact Sift.unique h h'

theorem Turn.Moves.restsInFront_iff {n j : ℕ} {a b : ℕ → CIntᵒᵈ} (h : t.Moves n a b j) :
    t.RestsInFront n a ↔ t.InFront n j :=
  ⟨fun hrests ↦ hrests b j h, fun hj _ _ h' ↦ (h.unique h').2 ▸ hj⟩

/-- A turn of the first loop sifts an element down. -/
theorem run_sift (hi : k ≤ last.1) (hlast : last.1 < nums.length) (hfuel : nums.length < fuel)
    {b : ℕ → CIntᵒᵈ} {q : ℕ} (hsift : Sift (last.1 + 1).toNat (element nums) k b q) :
    if q + 1 < 2 ^ 30 then
      ∃ nums', (Turn.sift k).run fuel last nums = some nums' ∧ element nums' = b ∧
        Rearranges 0 last.1 nums nums'
    else (Turn.sift k).run fuel last nums = none := by
  have hk : (wrap k).1 = k := wrap_of_lt (Int.natCast_nonneg k) (by have := last.2; omega)
  exact heapify_spec hk hlast (show (wrap k).1 ≤ last.1 by omega) rfl (by omega) hsift

theorem run_sift_of_lt (hi : last.1 < k) (hk : k < 2 ^ 31) (hfuel : 0 < fuel) :
    (Turn.sift k).run fuel last nums = some nums := by
  have hk' : (wrap k).1 = k := wrap_of_lt (Int.natCast_nonneg k) (by omega)
  obtain ⟨fuel, rfl⟩ := Nat.exists_eq_succ_of_ne_zero (Nat.ne_of_gt hfuel)
  exact if_neg (not_le.2 (show last.1 < (wrap k).1 by omega))

/-- A turn of the second loop takes the greatest element and sifts the last one down. -/
theorem run_take (hpos : 0 < k) (hi : k ≤ last.1) (hlast : last.1 < nums.length)
    (hfuel : nums.length < fuel) {b : ℕ → CIntᵒᵈ} {q : ℕ}
    (hsift : Sift k (exchange (element nums) 0 k) 0 b q) :
    ∃ nums₁, Rearranges 0 k nums nums₁ ∧ element nums₁ = exchange (element nums) 0 k ∧
      if q + 1 < 2 ^ 30 then
        ∃ nums', (Turn.take k).run fuel last nums = some nums' ∧ element nums' = b ∧
          Rearranges 0 (k - 1) nums₁ nums'
      else (Turn.take k).run fuel last nums = none := by
  have hlast2 := last.2
  obtain ⟨nums₁, hswap, helement, hrearr⟩ :=
    exists_swap (show 0 < nums.length by omega) (show k < nums.length by omega)
  have hlen := (hrearr k (Int.natCast_nonneg k) (le_refl _)).length
  have hzero : (wrap 0).1 = (0 : ℕ) := by decide
  have hk : (wrap (k - 1 : ℤ)).1 = k - 1 := wrap_of_lt (by omega) (by omega)
  have hspec := heapify_spec (e := wrap (k - 1 : ℤ)) (n := k) hzero (by omega)
    (show (wrap 0).1 ≤ (wrap (k - 1 : ℤ)).1 by omega) (by omega)
    (show _ < _ + (fuel : ℤ) by omega) (helement ▸ hsift)
  refine ⟨nums₁, hrearr k (Int.natCast_nonneg k) (le_refl _), helement, ?_⟩
  rw [Turn.run, show ((0 : ℤ)) = ((0 : ℕ) : ℤ) from rfl, hswap]
  rw [hk] at hspec
  exact hspec

/-! ### The second loop -/

theorem takes_succ (k : ℕ) : takes (k + 1) = .take (k + 1) :: takes k := by
  rw [takes, List.range_succ, List.reverse_append, List.map_append]
  rfl

/-- What a turn that takes does, if it is defined. -/
theorem exists_of_run_take (hpos : 0 < k) (hi : k ≤ last.1) (hlast : last.1 < nums.length)
    (hfuel : nums.length < fuel) (h : (Turn.take k).run fuel last nums = some nums') :
    ∃ nums₁ q, Rearranges 0 k nums nums₁ ∧ element nums₁ = exchange (element nums) 0 k ∧
      Rearranges 0 (k - 1) nums₁ nums' ∧
      Sift k (exchange (element nums) 0 k) 0 (element nums') q := by
  obtain ⟨b, q, hsift⟩ := exists_sift k (exchange (element nums) 0 k) 0
  obtain ⟨nums₁, hrearr, helement, hspec⟩ := run_take hpos hi hlast hfuel hsift
  split at hspec
  next hq =>
    obtain ⟨nums₂, heq, rfl, hrearr'⟩ := hspec
    obtain rfl := Option.some.inj (heq.symm.trans h)
    exact ⟨nums₁, q, hrearr, helement, hrearr', hsift⟩
  next hq =>
    rw [hspec] at h
    cases h

/-- The second loop rearranges its part of the vector. -/
theorem rearranges_takes (hk : k ≤ last.1) (hlast : last.1 < nums.length)
    (hfuel : nums.length < fuel) (h : exec (Turn.run fuel last) nums (takes k) = some nums') :
    Rearranges 0 k nums nums' := by
  induction k generalizing nums with
  | zero => exact Option.some.inj h ▸ .refl _ _ _
  | succ k ih =>
    rw [takes_succ, exec_cons] at h
    obtain ⟨nums₂, hrun, h⟩ := Option.bind_eq_some_iff.1 h
    obtain ⟨nums₁, q, hrearr, -, hrearr', -⟩ :=
      exists_of_run_take (Nat.succ_pos k) hk hlast hfuel hrun
    have hrearr₂ := hrearr.trans (hrearr'.mono (le_refl _) (by omega))
    have hlen := hrearr₂.length
    have hrest := ih (by omega) (by rwa [hlen]) (by rwa [hlen]) h
    exact hrearr₂.trans (hrest.mono (le_refl _) (by omega))

/-- **The second loop** sorts exactly if it always takes the greatest element. -/
theorem sortedOn_takes_iff (hk : k ≤ last.1) (hlast : last.1 < nums.length)
    (hfuel : nums.length < fuel) (h : exec (Turn.run fuel last) nums (takes k) = some nums') :
    SortedOn 0 k nums' ↔ Always (Turn.run fuel last)
      (fun nums₁ t ↦ t.TakesGreatest (element nums₁)) nums (takes k) := by
  induction k generalizing nums with
  | zero => exact iff_of_true (fun i j hi hij hj ↦ by omega) trivial
  | succ k ih =>
    have hall := h
    rw [takes_succ, exec_cons] at h
    obtain ⟨nums₂, hrun, h⟩ := Option.bind_eq_some_iff.1 h
    obtain ⟨nums₁, q, hrearr, helement, hrearr', -⟩ :=
      exists_of_run_take (Nat.succ_pos k) hk hlast hfuel hrun
    have hlen := (hrearr.trans (hrearr'.mono (le_refl _) (by omega))).length
    have hlast₂ : last.1 < nums₂.length := by rwa [hlen]
    have hfuel₂ : nums₂.length < fuel := by rwa [hlen]
    have hrest := rearranges_takes (Int.le_of_lt (by omega)) hlast₂ hfuel₂ h
    have hwhole := rearranges_takes hk hlast hfuel hall
    -- the element that has been taken stays where it is put
    have hlast' : get nums' (k + 1 : ℕ) = get nums 0 := by
      have hk' : ((k + 1 : ℕ) : ℤ) - 1 = k := by omega
      rw [hk'] at hrearr'
      rw [hrest.outside _ (by omega), hrearr'.outside _ (by omega),
        get_eq (show k + 1 < nums₁.length by rw [hrearr.length]; omega), helement, exchange_right]
      exact (get_eq (show 0 < nums.length by omega)).symm
    have hgreatest : (∀ y, get nums' (k + 1 : ℕ) = some y → ∀ i : ℤ, 0 ≤ i → i ≤ (k + 1 : ℕ) →
        ∀ x, get nums' i = some x → x ≤ y) ↔ (Turn.take (k + 1)).TakesGreatest (element nums) := by
      constructor
      · intro hle j hj
        have hfirst := hlast'.trans (get_eq (show 0 < nums.length by omega))
        exact hwhole.symm.forall (P := (· ≤ OrderDual.ofDual (element nums 0))) (hle _ hfirst) j
          (Int.natCast_nonneg j) (by omega) _ (get_eq (by omega))
      · intro htakes y hy
        refine hwhole.forall (P := (· ≤ y)) fun i hi hi' x hx ↦ ?_
        obtain ⟨j, rfl⟩ := Int.eq_ofNat_of_zero_le hi
        have hle := htakes j (by omega)
        have hfirst : element nums 0 = .toDual y := element_of_get (hlast'.symm.trans hy)
        rwa [hfirst, element_of_get hx] at hle
    rw [takes_succ, always_cons, ← hgreatest, Int.natCast_succ, sortedOn_succ_iff,
      ih (by omega) hlast₂ hfuel₂ h, and_comm]
    refine and_congr_right fun _ ↦ ⟨fun hrest t ht ↦ ?_, fun hrest ↦ hrest _ hrun⟩
    exact Option.some.inj (hrun.symm.trans ht) ▸ hrest

/-- In a heap the first element is the greatest, and it stays a heap. -/
theorem always_takesGreatest (hk : k ≤ last.1) (hlast : last.1 < nums.length)
    (hfuel : nums.length < fuel) (hordered : Ordered (k + 1) (element nums)) :
    Always (Turn.run fuel last) (fun nums₁ t ↦ t.TakesGreatest (element nums₁)) nums
      (takes k) := by
  induction k generalizing nums with
  | zero => trivial
  | succ k ih =>
    rw [takes_succ, always_cons]
    refine ⟨fun j hj ↦ hordered.le (Nat.lt_succ_of_le hj), fun nums₂ hrun ↦ ?_⟩
    obtain ⟨nums₁, q, hrearr, -, hrearr', hsift⟩ :=
      exists_of_run_take (Nat.succ_pos k) hk hlast hfuel hrun
    have hlen := (hrearr.trans (hrearr'.mono (le_refl _) (by omega))).length
    refine ih (by omega) (by rwa [hlen]) (by rwa [hlen]) (orderedFrom_zero.1 ?_)
    rw [hsift.orderedFrom_iff (Nat.le_refl 0), siftDown_self]
    intro c hpos hc hpar
    have hlt := parent_lt hpos
    rw [exchange_of_ne (by omega) (by omega), exchange_of_ne (by omega) (by omega)]
    exact hordered c hpos (by omega)

/-! ### The first loop -/

theorem sifts_succ (k : ℕ) : sifts (k + 1) = .sift k :: sifts k := by
  rw [sifts, List.range_succ, List.reverse_append, List.map_append]
  rfl

/-- A turn of the first loop that is defined has sifted. -/
theorem exists_of_run_sift (hi : k ≤ last.1) (hlast : last.1 < nums.length)
    (hfuel : nums.length < fuel) (h : (Turn.sift k).run fuel last nums = some nums') :
    Rearranges 0 last.1 nums nums' ∧
      ∃ q, Sift (last.1 + 1).toNat (element nums) k (element nums') q := by
  obtain ⟨b, q, hsift⟩ := exists_sift (last.1 + 1).toNat (element nums) k
  have hspec := run_sift hi hlast hfuel hsift
  split at hspec
  next hq =>
    obtain ⟨nums₂, heq, rfl, hrearr⟩ := hspec
    obtain rfl := Option.some.inj (heq.symm.trans h)
    exact ⟨hrearr, q, hsift⟩
  next hq =>
    rw [hspec] at h
    cases h

theorem rearranges_run_sift (hk : k < 2 ^ 31) (hlast : last.1 < nums.length)
    (hfuel : nums.length < fuel) (h : (Turn.sift k).run fuel last nums = some nums') :
    Rearranges 0 last.1 nums nums' := by
  rcases le_or_gt (k : ℤ) last.1 with hle | hlt
  · exact (exists_of_run_sift hle hlast hfuel h).1
  · rw [run_sift_of_lt hlt hk (Nat.zero_lt_of_lt hfuel)] at h
    exact Option.some.inj h ▸ .refl _ _ _

/-- **The first loop** builds a heap. -/
theorem ordered_sifts (hk : k ≤ 2 ^ 31) (hlast : last.1 < nums.length)
    (hfuel : nums.length < fuel) (h : exec (Turn.run fuel last) nums (sifts k) = some nums')
    (hstart : OrderedFrom (last.1 + 1).toNat k (element nums)) :
    Ordered (last.1 + 1).toNat (element nums') := by
  induction k generalizing nums with
  | zero => exact Option.some.inj h ▸ orderedFrom_zero.1 hstart
  | succ k ih =>
    rw [sifts_succ, exec_cons] at h
    obtain ⟨nums₁, hrun, h⟩ := Option.bind_eq_some_iff.1 h
    have hlen := (rearranges_run_sift hk hlast hfuel hrun).length
    refine ih (by omega) (by rwa [hlen]) (by rwa [hlen]) h ?_
    rcases le_or_gt (k : ℤ) last.1 with hle | hlt
    · obtain ⟨-, q, hsift⟩ := exists_of_run_sift hle hlast hfuel hrun
      rwa [hsift.orderedFrom_iff (Nat.le_refl k), siftDown_self]
    · intro c hpos hc hpar
      have := parent_lt hpos
      omega

/-! ### Both loops -/

theorem mem_sifts : t ∈ sifts n ↔ ∃ i < n, t = .sift i := by
  rw [sifts, List.mem_map]
  simp only [List.mem_reverse, List.mem_range, eq_comm]

theorem mem_takes : t ∈ takes n ↔ ∃ i < n, t = .take (i + 1) := by
  rw [takes, List.mem_map]
  simp only [List.mem_reverse, List.mem_range, eq_comm]

/-- The indices of the turns are values of an `int`, and those of the second loop not too great. -/
theorem mem_turns {size : ℕ} (ht : t ∈ turns size) :
    (∃ k < 2 ^ 31, t = .sift k) ∨ ∃ k : ℕ, 0 < k ∧ k ≤ (lastIndex size).1 ∧ t = .take k := by
  rw [turns] at ht
  rcases List.mem_append.1 ht with ht | ht
  · obtain ⟨i, hi, rfl⟩ := mem_sifts.1 ht
    have hmiddle := (middle size).2
    exact .inl ⟨i, by omega, rfl⟩
  · obtain ⟨i, hi, rfl⟩ := mem_takes.1 ht
    exact .inr ⟨i + 1, by omega, by omega, rfl⟩

/-- Every turn rearranges the vector. -/
theorem run_rearranges {size : ℕ} (ht : t ∈ turns size) (hlen : nums.length = size)
    (hfuel : nums.length < fuel) (h : t.run fuel (lastIndex size) nums = some nums') :
    Rearranges 0 (lastIndex size).1 nums nums' := by
  have hlast : (lastIndex size).1 < nums.length := hlen ▸ lastIndex_lt size
  rcases mem_turns ht with ⟨k, hk, rfl⟩ | ⟨k, hpos, hk, rfl⟩
  · exact rearranges_run_sift hk hlast hfuel h
  · obtain ⟨nums₁, q, hrearr, -, hrearr', -⟩ := exists_of_run_take hpos hk hlast hfuel h
    exact (hrearr.mono (le_refl _) hk).trans (hrearr'.mono (le_refl _) (by omega))

/-- **A turn** does to the elements what it says, or is undefined. -/
theorem run_moves {size q : ℕ} {b : ℕ → CIntᵒᵈ} (ht : t ∈ turns size) (hlen : nums.length = size)
    (hfuel : nums.length < fuel) (h : t.Moves (sortedLength size) (element nums) b q) :
    (t.InFront (sortedLength size) q → ∃ nums', t.run fuel (lastIndex size) nums = some nums' ∧
      element nums' = b) ∧
      (¬ t.InFront (sortedLength size) q → t.run fuel (lastIndex size) nums = none) := by
  have hlast : (lastIndex size).1 < nums.length := hlen ▸ lastIndex_lt size
  have hsorted : sortedLength size = ((lastIndex size).1 + 1).toNat := rfl
  rcases mem_turns ht with ⟨k, hk, rfl⟩ | ⟨k, hpos, hk, rfl⟩
  · rcases le_or_gt (k : ℤ) (lastIndex size).1 with hle | hlt
    · have hkn : k < sortedLength size := by omega
      have hspec := run_sift hle hlast hfuel h
      refine ⟨fun hq ↦ ?_, fun hq ↦ ?_⟩
      · rw [if_pos (hq hkn)] at hspec
        obtain ⟨nums', hrun, helement, -⟩ := hspec
        exact ⟨nums', hrun, helement⟩
      · rwa [if_neg fun hlt ↦ hq fun _ ↦ hlt] at hspec
    · have hkn : ¬ k < sortedLength size := by omega
      refine ⟨fun _ ↦ ⟨nums, run_sift_of_lt hlt hk (Nat.zero_lt_of_lt hfuel), ?_⟩,
        fun hq ↦ absurd (fun hkn' ↦ absurd hkn' hkn) hq⟩
      have hrest : Sift (sortedLength size) (element nums) k (element nums) k :=
        .rest fun c hc hcn hpar ↦ absurd (Nat.lt_trans (hpar ▸ parent_lt hc) hcn) hkn
      exact (hrest.unique h).1
  · obtain ⟨nums₁, -, -, hspec⟩ := run_take hpos hk hlast hfuel h
    refine ⟨fun hq ↦ ?_, fun hq ↦ ?_⟩ <;> rw [Turn.InFront] at hq
    · rw [if_pos hq] at hspec
      obtain ⟨nums', hrun, helement, -⟩ := hspec
      exact ⟨nums', hrun, helement⟩
    · rwa [if_neg hq] at hspec

/-- Every turn that is defined moves its element. -/
theorem element_of_run {size q : ℕ} {b : ℕ → CIntᵒᵈ} (ht : t ∈ turns size)
    (hlen : nums.length = size) (hfuel : nums.length < fuel)
    (h : t.Moves (sortedLength size) (element nums) b q)
    (hrun : t.run fuel (lastIndex size) nums = some nums') : element nums' = b := by
  obtain ⟨hsome, hnone⟩ := run_moves ht hlen hfuel h
  by_cases hq : t.InFront (sortedLength size) q
  · obtain ⟨nums₁, hrun₁, helement⟩ := hsome hq
    obtain rfl := Option.some.inj (hrun.symm.trans hrun₁)
    exact helement
  · rw [hnone hq] at hrun
    cases hrun

/-- **A turn is defined** exactly if its element comes to rest in front. -/
theorem exists_run_iff {size : ℕ} (ht : t ∈ turns size) (hlen : nums.length = size)
    (hfuel : nums.length < fuel) :
    (∃ nums', t.run fuel (lastIndex size) nums = some nums') ↔
      t.RestsInFront (sortedLength size) (element nums) := by
  obtain ⟨b, q, hmoves⟩ := exists_moves (sortedLength size) (element nums) t
  obtain ⟨hsome, hnone⟩ := run_moves ht hlen hfuel hmoves
  rw [hmoves.restsInFront_iff]
  constructor
  · rintro ⟨nums', hrun⟩
    by_contra hq
    rw [hnone hq] at hrun
    cases hrun
  · intro hq
    obtain ⟨nums', hrun, -⟩ := hsome hq
    exact ⟨nums', hrun⟩

theorem eq_of_element (hlen : nums.length = nums'.length) (h : element nums = element nums') :
    nums = nums' := by
  refine List.ext_getElem? fun k ↦ ?_
  rcases lt_or_ge k nums.length with hk | hk
  · rw [← get_natCast, ← get_natCast, get_eq hk, get_eq (hlen ▸ hk), h]
  · rw [List.getElem?_eq_none hk, List.getElem?_eq_none (hlen ▸ hk)]

theorem element_run_unique {size fuel' : ℕ} {nums'' : List CInt} (ht : t ∈ turns size)
    (hlen : nums.length = size) (hfuel : nums.length < fuel) (hfuel' : nums.length < fuel')
    (h : t.run fuel (lastIndex size) nums = some nums')
    (h' : t.run fuel' (lastIndex size) nums = some nums'') : element nums' = element nums'' := by
  obtain ⟨b, q, hmoves⟩ := exists_moves (sortedLength size) (element nums) t
  rw [element_of_run ht hlen hfuel hmoves h, element_of_run ht hlen hfuel' hmoves h']

/-- With enough turns for its loop a turn does not depend on their number. -/
theorem run_congr {size fuel' : ℕ} (ht : t ∈ turns size) (hlen : nums.length = size)
    (hfuel : nums.length < fuel) (hfuel' : nums.length < fuel') :
    t.run fuel (lastIndex size) nums = t.run fuel' (lastIndex size) nums := by
  have hiff := exists_run_iff ht hlen hfuel
  have hiff' := exists_run_iff ht hlen hfuel'
  by_cases hrests : t.RestsInFront (sortedLength size) (element nums)
  · obtain ⟨nums', h⟩ := hiff.2 hrests
    obtain ⟨nums'', h'⟩ := hiff'.2 hrests
    have hlen' := (run_rearranges ht hlen hfuel h).length
    have hlen'' := (run_rearranges ht hlen hfuel' h').length
    rw [h, h', eq_of_element (hlen'.trans hlen''.symm)
      (element_run_unique ht hlen hfuel hfuel' h h')]
  · rw [Option.eq_none_iff_forall_ne_some.2 fun nums' h ↦ hrests (hiff.1 ⟨nums', h⟩),
      Option.eq_none_iff_forall_ne_some.2 fun nums' h ↦ hrests (hiff'.1 ⟨nums', h⟩)]

theorem run_length {size : ℕ} (hfuel : size < fuel) (nums : List CInt) (t : Turn)
    (ht : t ∈ turns size) (nums' : List CInt) (hlen : nums.length = size)
    (h : t.run fuel (lastIndex size) nums = some nums') : nums'.length = size :=
  (run_rearranges ht hlen (hlen ▸ hfuel) h).length.trans hlen

/-- The result does not depend on the fuel. -/
theorem heapSort2_congr {fuel' : ℕ} (hfuel : nums.length < fuel) (hfuel' : nums.length < fuel') :
    heapSort2 fuel nums = heapSort2 fuel' nums :=
  exec_congr_of_mem (I := fun nums₁ : List CInt ↦ nums₁.length = nums.length) (run_length hfuel)
    (fun _ _ ht hlen ↦ run_congr ht hlen (hlen ▸ hfuel) (hlen ▸ hfuel')) rfl

/-- The run is defined exactly if all its elements come to rest in front. -/
theorem exists_heapSort2_iff (hfuel : nums.length < fuel) :
    (∃ nums', heapSort2 fuel nums = some nums') ↔
      Always (Turn.run fuel (lastIndex nums.length))
        (fun nums₁ t ↦ t.RestsInFront (sortedLength nums.length) (element nums₁)) nums
        (turns nums.length) :=
  exists_exec_iff (I := fun nums₁ : List CInt ↦ nums₁.length = nums.length) (run_length hfuel)
    (fun _ _ ht hlen ↦ exists_run_iff ht hlen (hlen ▸ hfuel)) rfl

/-- The function rearranges the vector. -/
theorem heapSort2_rearranges (hfuel : nums.length < fuel)
    (h : heapSort2 fuel nums = some nums') :
    Rearranges 0 (lastIndex nums.length).1 nums nums' :=
  exec_invariant (P := fun _ t ↦ t ∈ turns nums.length) (fun _ _ _ hrearr ht hrun ↦
    hrearr.trans (run_rearranges ht hrearr.length (hrearr.length.symm ▸ hfuel) hrun))
    (.refl _ _ _) (always_of_mem (fun _ _ ht ↦ ht) _) h

/-- The first loop begins in the middle. -/
theorem middle_of_lt {size : ℕ} (h : size < 2 ^ 32) : (middle size).1 = (size / 2 : ℕ) := by
  unfold middle
  exact wrap_of_lt (Int.natCast_nonneg _) (by omega)

/-- The heap that the first loop builds has all the elements up to the last index. -/
theorem sortedLength_le {size : ℕ} (h : 0 ≤ (middle size).1) :
    sortedLength size ≤ 2 * (middle size).1.toNat + 1 := by
  have hmiddle : (middle size).1 % 2 ^ 32 = (size / 2 : ℕ) % 2 ^ 32 := by
    unfold middle
    exact wrap_mod _
  have hlast : (lastIndex size).1 % 2 ^ 32 = (size - 1 : ℤ) % 2 ^ 32 := by
    unfold lastIndex
    exact wrap_mod _
  have hmiddle' := (middle size).2
  have hlast' := (lastIndex size).2
  unfold sortedLength
  omega

theorem length_sifts (hk : k ≤ 2 ^ 31) (hlast : last.1 < nums.length)
    (hfuel : nums.length < fuel) (h : exec (Turn.run fuel last) nums (sifts k) = some nums') :
    nums'.length = nums.length := by
  refine exec_invariant (I := fun nums₁ : List CInt ↦ nums₁.length = nums.length)
    (P := fun _ t ↦ t ∈ sifts k) (fun nums₁ t nums₂ hlen ht hrun ↦ ?_) rfl
    (always_of_mem (fun _ _ ht ↦ ht) nums) h
  obtain ⟨i, hi, rfl⟩ := mem_sifts.1 ht
  exact (rearranges_run_sift (by omega) (by rwa [hlen]) (by rwa [hlen]) hrun).length.trans hlen

/-- What is sorted in the end: everything, if the first loop has built a heap. -/
theorem sortedOn_loops (last middle : CInt) (hlast : last.1 < nums.length)
    (hfuel : nums.length < fuel)
    (hle : 0 ≤ middle.1 → (last.1 + 1).toNat ≤ 2 * middle.1.toNat + 1)
    (h : exec (Turn.run fuel last) nums (sifts (middle.1 + 1).toNat ++ takes last.1.toNat) =
      some nums') :
    SortedOn 0 last.1 nums' ↔ Always (Turn.run fuel last)
      (fun nums₁ t ↦ middle.1 < 0 → t.TakesGreatest (element nums₁)) nums
      (sifts (middle.1 + 1).toNat ++ takes last.1.toNat) := by
  obtain ⟨nums₁, hsifts, htakes⟩ := (exec_append_eq_some _).1 h
  have hmiddle2 := middle.2
  have hlen := length_sifts (by omega) hlast hfuel hsifts
  have hnone : Always (Turn.run fuel last)
      (fun nums₁ t ↦ middle.1 < 0 → t.TakesGreatest (element nums₁)) nums
      (sifts (middle.1 + 1).toNat) := by
    refine always_of_mem (fun nums₂ t ht _ ↦ ?_) nums
    obtain ⟨i, -, rfl⟩ := mem_sifts.1 ht
    trivial
  have hiff : (∀ nums₂, exec (Turn.run fuel last) nums (sifts (middle.1 + 1).toNat) = some nums₂ →
      Always (Turn.run fuel last)
        (fun nums₁ t ↦ middle.1 < 0 → t.TakesGreatest (element nums₁)) nums₂
        (takes last.1.toNat)) ↔
      Always (Turn.run fuel last)
        (fun nums₁ t ↦ middle.1 < 0 → t.TakesGreatest (element nums₁)) nums₁
        (takes last.1.toNat) :=
    ⟨fun h ↦ h nums₁ hsifts, fun h nums₂ ht ↦ Option.some.inj (hsifts.symm.trans ht) ▸ h⟩
  rw [always_append, and_iff_right hnone, hiff]
  rcases lt_or_ge last.1 0 with hneg | hpos
  · rw [Int.toNat_of_nonpos hneg.le]
    exact iff_of_true (fun i j hi hij hj ↦ by omega) trivial
  · have hk := Int.toNat_of_nonneg hpos
    have htake := sortedOn_takes_iff hk.le (by rwa [hlen]) (by rwa [hlen]) htakes
    rw [hk] at htake
    rw [htake]
    rcases lt_or_ge middle.1 0 with hmiddle | hmiddle
    · exact always_congr_of_mem fun _ _ _ ↦ (imp_iff_right hmiddle).symm
    · have hordered := ordered_sifts (by omega) hlast hfuel hsifts fun c hc hcn hpar ↦ by
        rw [parent] at hpar
        omega
      rw [show (last.1 + 1).toNat = last.1.toNat + 1 by omega] at hordered
      exact iff_of_true
        (always_takesGreatest hk.le (by rwa [hlen]) (by rwa [hlen]) hordered)
        (always_of_forall (fun _ _ hneg ↦ absurd hneg (not_lt.2 hmiddle)) _ _)

/-- What a turn needs: its element comes to rest in front and, where no heap has been built, it
takes the greatest. -/
def Turn.Right (n : ℕ) (middle : CInt) (nums : List CInt) (t : Turn) : Prop :=
  t.RestsInFront n (element nums) ∧ (middle.1 < 0 → t.TakesGreatest (element nums))

/-- The turns are right exactly if the run is defined and sorts what is up to the last index. -/
theorem always_right_iff {last middle : CInt} {ts : List Turn} {n : ℕ}
    (hdefined : (∃ nums', exec (Turn.run fuel last) nums ts = some nums') ↔
      Always (Turn.run fuel last) (fun nums₁ t ↦ t.RestsInFront n (element nums₁)) nums ts)
    (hsorted : ∀ nums', exec (Turn.run fuel last) nums ts = some nums' →
      (SortedOn 0 last.1 nums' ↔ Always (Turn.run fuel last)
        (fun nums₁ t ↦ middle.1 < 0 → t.TakesGreatest (element nums₁)) nums ts)) :
    Always (Turn.run fuel last) (Turn.Right n middle) nums ts ↔
      ∃ nums', exec (Turn.run fuel last) nums ts = some nums' ∧ SortedOn 0 last.1 nums' := by
  refine always_and.trans ?_
  rw [← hdefined]
  constructor
  · rintro ⟨⟨nums', h⟩, hright⟩
    exact ⟨nums', h, (hsorted nums' h).2 hright⟩
  · rintro ⟨nums', h, hright⟩
    exact ⟨⟨nums', h⟩, (hsorted nums' h).1 hright⟩

/-- The turns are right on the vector exactly if they are on its elements. -/
theorem always_right_iff_rightFrom {size : ℕ} {middle : CInt} {ts : List Turn}
    (hts : ∀ t ∈ ts, t ∈ turns size) (hlen : nums.length = size) (hfuel : size < fuel) :
    Always (Turn.run fuel (lastIndex size)) (Turn.Right (sortedLength size) middle) nums ts ↔
      RightFrom (sortedLength size) middle ts (element nums) := by
  induction ts generalizing nums with
  | nil => exact Iff.rfl
  | cons t ts ih =>
    obtain ⟨ht, hts⟩ := List.forall_mem_cons.1 hts
    have hfuel' : nums.length < fuel := hlen.symm ▸ hfuel
    obtain ⟨b, q, hmoves⟩ := exists_moves (sortedLength size) (element nums) t
    have hall : (∀ b' j, t.Moves (sortedLength size) (element nums) b' j →
        t.InFront (sortedLength size) j ∧ RightFrom (sortedLength size) middle ts b') ↔
        t.InFront (sortedLength size) q ∧ RightFrom (sortedLength size) middle ts b := by
      refine ⟨fun h ↦ h b q hmoves, fun h b' j hmoves' ↦ ?_⟩
      obtain ⟨rfl, rfl⟩ := hmoves.unique hmoves'
      exact h
    rw [RightFrom, hall]
    by_cases hq : t.InFront (sortedLength size) q
    · obtain ⟨nums', hrun, rfl⟩ := (run_moves ht hlen hfuel' hmoves).1 hq
      have hlen' := run_length hfuel nums t ht nums' hlen hrun
      rw [always_cons_of_step hrun, ih hts hlen', Turn.Right, hmoves.restsInFront_iff,
        and_iff_right hq, and_iff_right hq]
    · refine iff_of_false (fun h ↦ hq (hmoves.restsInFront_iff.1 h.1.1)) fun h ↦ hq h.2.1

/-- What is left behind the last index is in order, and heap sort on the elements is right. -/
def Sortable (nums : List CInt) : Prop :=
  RestInOrder nums ∧
    RightFrom (sortedLength nums.length) (middle nums.length) (turns nums.length) (element nums)

/-- The condition on the vector is the one on the turns. -/
theorem sortable_iff_always (nums : List CInt) : Sortable nums ↔
    RestInOrder nums ∧ Always (Turn.run (nums.length + 1) (lastIndex nums.length))
      (Turn.Right (sortedLength nums.length) (middle nums.length)) nums (turns nums.length) :=
  and_congr_right fun _ ↦ (always_right_iff_rightFrom (fun _ ht ↦ ht) rfl
    (Nat.lt_succ_self nums.length)).symm

theorem sortable_iff (nums : List CInt) : Sortable nums ↔
    RestInOrder nums ∧ ∃ nums', heapSort2 (nums.length + 1) nums = some nums' ∧
      SortedOn 0 (lastIndex nums.length).1 nums' := by
  have hlt := Nat.lt_succ_self nums.length
  refine (sortable_iff_always nums).trans ?_
  refine and_congr_right fun _ ↦ always_right_iff (exists_heapSort2_iff hlt) fun nums' h ↦ ?_
  rw [turns] at h ⊢
  exact sortedOn_loops _ _ (lastIndex_lt nums.length) hlt sortedLength_le h

/-- Up to `2 ^ 30` no index is too great. -/
theorem Turn.right_of_lt {middle : CInt} (hlast : last.1 + 1 < 2 ^ 30) (hmiddle : 0 ≤ middle.1)
    (ht : (∃ k < 2 ^ 31, t = .sift k) ∨ ∃ k : ℕ, 0 < k ∧ k ≤ last.1 ∧ t = .take k) :
    t.Right (last.1 + 1).toNat middle nums := by
  refine ⟨?_, fun hneg ↦ absurd hneg (not_lt.2 hmiddle)⟩
  rcases ht with ⟨k, hk, rfl⟩ | ⟨k, hpos, hk, rfl⟩
  · intro b j hsift hlt
    have hj := Sift.eq_or_lt hsift
    omega
  · intro b j hsift
    have hj := Sift.eq_or_lt hsift
    rw [Turn.InFront]
    omega

/-- Vectors of less than `2 ^ 30` elements can be sorted. -/
theorem sortable_of_lt (h : nums.length < 2 ^ 30) : Sortable nums := by
  have hlast := lastIndex_lt nums.length
  have hmiddle := middle_of_lt (show nums.length < 2 ^ 32 by omega)
  exact (sortable_iff_always nums).2 ⟨restInOrder_of_le (by omega), always_of_mem (fun _ _ ht ↦
    Turn.right_of_lt (by omega) (by omega) (mem_turns ht)) nums⟩

/-- An index from `2 ^ 30 - 1` on is too great already in the first turn. -/
theorem not_always_right {middle : CInt} {ts : List Turn} (hmiddle : 2 ^ 30 ≤ middle.1 + 1)
    (hle : middle.1 ≤ last.1) : ¬ Always (Turn.run fuel last)
      (Turn.Right (last.1 + 1).toNat middle) nums (sifts (middle.1 + 1).toNat ++ ts) := by
  rw [show (middle.1 + 1).toNat = middle.1.toNat + 1 by omega, sifts_succ, List.cons_append,
    always_cons]
  intro h
  obtain ⟨b, j, hsift⟩ := exists_sift (last.1 + 1).toNat (element nums) middle.1.toNat
  have hj := h.1.1 b j hsift (by omega)
  have hij := hsift.le
  omega

/-- Vectors of nearly `2 ^ 31` elements cannot. -/
theorem not_sortable_of_le (h : 2 ^ 31 ≤ nums.length + 2) (hle : nums.length ≤ 2 ^ 31) :
    ¬ Sortable nums := by
  have hmiddle := middle_of_lt (show nums.length < 2 ^ 32 by omega)
  have hlast : (lastIndex nums.length).1 + 1 = nums.length := by
    have hsorted := sortedLength_of_le hle
    rw [sortedLength] at hsorted
    omega
  rw [sortable_iff_always, turns]
  rintro ⟨-, hright⟩
  exact not_always_right (by omega) (by omega) hright

/-- The condition is necessary. -/
theorem sortable_of_sortsInPlace (h : SortsInPlace heapSort2 nums) : Sortable nums := by
  obtain ⟨n, hn⟩ := h
  obtain ⟨nums', heq, hperm, hpair⟩ := hn (n + nums.length + 1) (by omega)
  rw [heapSort2_congr (by omega) (Nat.lt_succ_self nums.length)] at heq
  have hsorted := sortedOn_of_pairwise hpair 0 (lastIndex nums.length).1
  have hrearr := heapSort2_rearranges (Nat.lt_succ_self _) heq
  exact (sortable_iff nums).2 ⟨(hrearr.pairwise_iff hsorted).1 hpair, nums', heq, hsorted⟩

/-- **`heapSort2` sorts** exactly if what is left behind the last index is in order and its turns
are right. -/
theorem heapSort2_iff (nums : List CInt) : SortsInPlace heapSort2 nums ↔ Sortable nums := by
  refine ⟨sortable_of_sortsInPlace, fun h ↦ ?_⟩
  obtain ⟨hrest, nums', heq, hsorted⟩ := (sortable_iff nums).1 h
  have hrearr := heapSort2_rearranges (Nat.lt_succ_self _) heq
  refine ⟨nums.length + 1, fun fuel hfuel ↦ ⟨nums', ?_, hrearr.perm,
    (hrearr.pairwise_iff hsorted).2 hrest⟩⟩
  rwa [heapSort2_congr hfuel (Nat.lt_succ_self nums.length)]

theorem not_forall_heapSort2 : ¬ ∀ nums, SortsInPlace heapSort2 nums := by
  intro h
  have hlen : (List.replicate (2 ^ 31 - 2) (wrap 0)).length = 2 ^ 31 - 2 := List.length_replicate
  exact not_sortable_of_le (by omega) (by omega)
    (sortable_of_sortsInPlace (h (List.replicate (2 ^ 31 - 2) (wrap 0))))

example : heapSort2 8 ([3, 4, 5, 6, 4, 2, 3].map wrap) =
    some ([2, 3, 3, 4, 4, 5, 6].map wrap) := by decide +kernel

end HeapSort
