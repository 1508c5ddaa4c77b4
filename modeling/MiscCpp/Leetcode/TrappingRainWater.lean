import Mathlib.Algebra.BigOperators.Intervals
import Mathlib.Algebra.Order.BigOperators.Group.Finset
import Mathlib.Algebra.Order.Ring.Int
import MiscCpp.Library.Counters
import MiscCpp.Library.WaterLevel
import MiscCpp.Library.WhileLoop

/-!
# Trapped rain water

`trap` of `leetcode/other/trappingRainingWater.cc`, with the conversion of the size to `int`. The
amounts of water are exact.

The bars that have been passed from both sides are not higher than `minH`, which is the level over
each of them (`Holds`). A bar is passed in each turn, or `minH` rises above a bar. Of the bars only
those are looked at whose number is left by the conversion (`trap_iff`).
-/

open Access CInt WaterLevel WhileLoop

namespace TrappingRainWater

/-! ### The program -/

structure State where
  water : ℤ
  l : ℤ
  r : ℤ
  minH : ℤ

/-- `l < r && height[l] <= minH` -/
def lowLeft (height : List CInt) (s : State) : Option Bool :=
  if s.l < s.r then (get height s.l).map fun h ↦ h.1 ≤ s.minH else some false

/-- `water += minH - height[l++];` -/
def takeLeft (height : List CInt) (s : State) : Option State := do
  let h ← get height s.l
  some { s with water := s.water + (s.minH - h.1), l := ← fit (s.l + 1) }

/-- `l < r && height[r] <= minH` -/
def lowRight (height : List CInt) (s : State) : Option Bool :=
  if s.l < s.r then (get height s.r).map fun h ↦ h.1 ≤ s.minH else some false

/-- `water += minH - height[r--];` -/
def takeRight (height : List CInt) (s : State) : Option State := do
  let h ← get height s.r
  some { s with water := s.water + (s.minH - h.1), r := ← fit (s.r - 1) }

/-- The body of the outer loop. -/
def turn (fuel : ℕ) (height : List CInt) (s : State) : Option State := do
  let s ← run (lowLeft height) (takeLeft height) fuel s
  let s ← run (lowRight height) (takeRight height) fuel s
  some { s with minH := min (← get height s.l).1 (← get height s.r).1 }

/-- The last index, as an `int`. -/
def last (height : List CInt) : ℤ := (wrap (height.length - 1)).1

def trap (fuel : ℕ) (height : List CInt) : Option ℤ := do
  let s ← run (fun s ↦ some (s.l < s.r)) (turn fuel height) fuel ⟨0, 0, last height, 0⟩
  some s.water

example : trap 30 ([0, 1, 0, 2, 1, 0, 1, 3, 2, 1, 2, 1].map wrap) = some 6 := by decide +kernel

/-! ### The water over the bars -/

/-- The highest one of some bars. -/
def highest (bars : List CInt) : ℤ := bars.foldr (fun x h ↦ max x.1 h) 0

/-- The lower one of the highest bar at or before `i` and the highest bar at or behind it. -/
def level (height : List CInt) (i : ℕ) : ℤ :=
  min (highest (height.take (i + 1))) (highest (height.drop i))

/-- All the water. -/
def trapped (height : List CInt) : ℤ :=
  ∑ i ∈ Finset.range height.length, (level height i - valueAt height i)

variable {height bars : List CInt} {s : State} {x : CInt} {n l r i fuel : ℕ}

theorem le_highest (hx : x ∈ bars) : x.1 ≤ highest bars := by
  induction bars with
  | nil => cases hx
  | cons y bars ih =>
    rw [highest, List.foldr_cons]
    rcases List.mem_cons.1 hx with rfl | hx
    · exact le_max_left _ _
    · exact (ih hx).trans (le_max_right _ _)

theorem highest_mem (hne : bars ≠ []) (hpos : ∀ x ∈ bars, 0 ≤ x.1) :
    ∃ x ∈ bars, x.1 = highest bars := by
  induction bars with
  | nil => exact absurd rfl hne
  | cons y bars ih =>
    have hy := hpos y List.mem_cons_self
    rw [highest, List.foldr_cons]
    rcases eq_or_ne bars [] with rfl | hne'
    · exact ⟨y, List.mem_cons_self, (max_eq_left hy).symm⟩
    · obtain ⟨z, hz, hval⟩ := ih hne' fun x hx ↦ hpos x (List.mem_cons_of_mem y hx)
      rw [← highest, ← hval]
      rcases le_total y.1 z.1 with hle | hle
      · exact ⟨z, List.mem_cons_of_mem y hz, (max_eq_right hle).symm⟩
      · exact ⟨y, List.mem_cons_self, (max_eq_left hle).symm⟩

/-- The level is the one of the bars as a sequence. -/
theorem isLevel_level (hpos : ∀ x ∈ height, 0 ≤ x.1) (hi : i < height.length) :
    IsLevel (fun j ↦ valueAt height j) height.length i (level height i) := by
  refine isLevel_min ⟨?_, ?_⟩ ⟨?_, ?_⟩
  · have hmem : height[i] ∈ height.take (i + 1) :=
      List.mem_take_iff_getElem.2 ⟨i, by omega, rfl⟩
    obtain ⟨x, hx, hval⟩ := highest_mem (List.ne_nil_of_mem hmem) fun x hx ↦
      hpos x (List.mem_of_mem_take hx)
    obtain ⟨j, hj, rfl⟩ := List.mem_take_iff_getElem.1 hx
    exact ⟨j, by omega, (valueAt_getElem (by omega)).trans hval⟩
  · rintro _ ⟨j, hj, rfl⟩
    rw [valueAt_getElem (by omega)]
    exact le_highest (List.mem_take_iff_getElem.2 ⟨j, by omega, rfl⟩)
  · have hmem : height[i] ∈ height.drop i := List.mem_drop_iff_getElem.2 ⟨0, by omega, rfl⟩
    obtain ⟨x, hx, hval⟩ := highest_mem (List.ne_nil_of_mem hmem) fun x hx ↦
      hpos x (List.mem_of_mem_drop hx)
    obtain ⟨j, hj, rfl⟩ := List.mem_drop_iff_getElem.1 hx
    exact ⟨i + j, by omega, by omega, (valueAt_getElem (by omega)).trans hval⟩
  · rintro _ ⟨j, hj, hij, rfl⟩
    obtain ⟨k, rfl⟩ := Nat.exists_eq_add_of_le hij
    rw [valueAt_getElem hj]
    exact le_highest (List.mem_drop_iff_getElem.2 ⟨k, by omega, rfl⟩)

theorem valueAt_le_level (hi : i < height.length) : valueAt height i ≤ level height i := by
  rw [valueAt_getElem hi]
  exact le_min (le_highest (List.mem_take_iff_getElem.2 ⟨i, by omega, rfl⟩))
    (le_highest (List.mem_drop_iff_getElem.2 ⟨0, by omega, rfl⟩))

/-- There is water between two higher bars. -/
theorem trapped_pos {rest : List CInt} : 0 < trapped (wrap 1 :: wrap 0 :: wrap 1 :: rest) := by
  have hlevel : (wrap 1).1 ≤ level (wrap 1 :: wrap 0 :: wrap 1 :: rest) 1 :=
    le_min (le_highest List.mem_cons_self) (le_highest (List.mem_cons_of_mem _ List.mem_cons_self))
  refine Finset.sum_pos' (fun i hi ↦ sub_nonneg.2 (valueAt_le_level (Finset.mem_range.1 hi)))
    ⟨1, Finset.mem_range.2 (Nat.lt_add_left_iff_pos.2 (Nat.succ_pos _)), ?_⟩
  have hval : valueAt (wrap 1 :: wrap 0 :: wrap 1 :: rest) (1 : ℕ) = 0 := rfl
  have hone : (wrap 1).1 = 1 := by decide
  omega

/-! ### The loops -/

/-- The bars `l, …, r` are left, and the water over the others is counted. -/
structure Holds (height : List CInt) (n : ℕ) (lv : ℕ → ℤ) (l r : ℕ) (s : State) : Prop where
  l_eq : s.l = l
  r_eq : s.r = r
  taken : Taken (fun j : ℕ ↦ valueAt height j) n l r s.minH
  water : s.water + ∑ i ∈ Finset.Ico l (r + 1), (lv i - valueAt height i) =
    ∑ i ∈ Finset.range n, (lv i - valueAt height i)

variable {lv : ℕ → ℤ} {h : ℤ}

theorem Holds.get_left (hold : Holds height n lv l r s) (hn : n ≤ height.length) :
    ∃ x, get height s.l = some x ∧ x.1 = valueAt height l := by
  have hlt := hold.taken.lt
  have hle := hold.taken.le
  obtain ⟨x, hx, hval⟩ := exists_valueAt (s := height) (i := l) (by omega) (by omega)
  exact ⟨x, by rw [hold.l_eq, hx], hval.symm⟩

theorem Holds.get_right (hold : Holds height n lv l r s) (hn : n ≤ height.length) :
    ∃ x, get height s.r = some x ∧ x.1 = valueAt height r := by
  have hlt := hold.taken.lt
  obtain ⟨x, hx, hval⟩ := exists_valueAt (s := height) (i := r) (by omega) (by omega)
  exact ⟨x, by rw [hold.r_eq, hx], hval.symm⟩

theorem Holds.takeLeft_spec (hold : Holds height n lv l r s)
    (hlv : ∀ i < n, IsLevel (fun j : ℕ ↦ valueAt height j) n i (lv i)) (hn : n ≤ height.length)
    (hint : n ≤ 2 ^ 31) (hlt : l < r) (hle : valueAt height l ≤ s.minH) :
    ∃ t, takeLeft height s = some t ∧ Holds height n lv (l + 1) r t ∧
      t.minH = s.minH ∧ t.r = s.r ∧ t.l = s.l + 1 := by
  obtain ⟨x, hx, hval⟩ := hold.get_left hn
  have hrn := hold.taken.lt
  have hl := hold.l_eq
  have hlevel : lv l = s.minH := (hlv l (by omega)).unique (hold.taken.isLevel_left hle)
  refine ⟨{ s with water := s.water + (s.minH - x.1), l := s.l + 1 }, ?_, ⟨?_, hold.r_eq,
    hold.taken.left hlt hle, ?_⟩, rfl, rfl, rfl⟩
  · rw [takeLeft, hx, fit_eq (by omega)]
    rfl
  · show s.l + 1 = (l + 1 : ℕ)
    omega
  · show s.water + (s.minH - x.1) + _ = _
    rw [← hold.water, Finset.sum_eq_sum_Ico_succ_bot (show l < r + 1 by omega), hlevel, hval]
    omega

theorem Holds.takeRight_spec (hold : Holds height n lv l (r + 1) s)
    (hlv : ∀ i < n, IsLevel (fun j : ℕ ↦ valueAt height j) n i (lv i)) (hn : n ≤ height.length)
    (hint : n ≤ 2 ^ 31) (hlt : l < r + 1) (hle : valueAt height (r + 1 : ℕ) ≤ s.minH) :
    ∃ t, takeRight height s = some t ∧ Holds height n lv l r t ∧
      t.minH = s.minH ∧ t.l = s.l ∧ t.r = s.r - 1 := by
  obtain ⟨x, hx, hval⟩ := hold.get_right hn
  have hrn := hold.taken.lt
  have hr := hold.r_eq
  have hlevel : lv (r + 1) = s.minH := (hlv (r + 1) hrn).unique (hold.taken.isLevel_right hle)
  refine ⟨{ s with water := s.water + (s.minH - x.1), r := s.r - 1 }, ?_, ⟨hold.l_eq, ?_,
    hold.taken.right hlt hle, ?_⟩, rfl, rfl, rfl⟩
  · rw [takeRight, hx, fit_eq (by omega)]
    rfl
  · show s.r - 1 = r
    omega
  · show s.water + (s.minH - x.1) + _ = _
    rw [← hold.water, Finset.sum_Ico_succ_top (show l ≤ r + 1 by omega), hlevel, hval]
    omega

theorem Holds.lowLeft_eq (hold : Holds height n lv l r s) (hn : n ≤ height.length) :
    lowLeft height s = some (decide (l < r ∧ valueAt height l ≤ s.minH)) := by
  obtain ⟨x, hx, hval⟩ := hold.get_left hn
  have hl := hold.l_eq
  have hr := hold.r_eq
  rw [lowLeft, hx, Option.map_some, hval]
  by_cases hlt : l < r
  · rw [if_pos (by omega)]
    simp only [hlt, true_and]
  · rw [if_neg (by omega)]
    simp only [hlt, false_and, decide_false]

theorem Holds.lowRight_eq (hold : Holds height n lv l r s) (hn : n ≤ height.length) :
    lowRight height s = some (decide (l < r ∧ valueAt height r ≤ s.minH)) := by
  obtain ⟨x, hx, hval⟩ := hold.get_right hn
  have hl := hold.l_eq
  have hr := hold.r_eq
  rw [lowRight, hx, Option.map_some, hval]
  by_cases hlt : l < r
  · rw [if_pos (by omega)]
    simp only [hlt, true_and]
  · rw [if_neg (by omega)]
    simp only [hlt, false_and, decide_false]

/-- **The first inner loop** stops at a bar above the level, or at the last one that is left. -/
theorem Holds.runLeft (hold : Holds height n lv l r s)
    (hlv : ∀ i < n, IsLevel (fun j : ℕ ↦ valueAt height j) n i (lv i)) (hn : n ≤ height.length)
    (hint : n ≤ 2 ^ 31) (hfuel : n ≤ fuel) :
    ∃ t l', run (lowLeft height) (takeLeft height) fuel s = some t ∧ Holds height n lv l' r t ∧
      t.minH = s.minH ∧ l ≤ l' ∧ (l' < r → s.minH < valueAt height l') := by
  have hl := hold.l_eq
  have hr := hold.r_eq
  have hrn := hold.taken.lt
  have hstep (l' : ℕ) (t : State) (ht : Holds height n lv l' r t ∧ t.minH = s.minH ∧ l ≤ l')
      (hlow : l' < r ∧ valueAt height l' ≤ t.minH) :
      ∃ l'' u, takeLeft height t = some u ∧
        (Holds height n lv l'' r u ∧ u.minH = s.minH ∧ l ≤ l'') ∧
        (u.r - u.l).toNat < (t.r - t.l).toNat := by
    obtain ⟨hold', hminH, hle⟩ := ht
    obtain ⟨u, hu, hold'', hminH', hr', hl'⟩ := hold'.takeLeft_spec hlv hn hint hlow.1 hlow.2
    have hlt := hold'.l_eq
    have hrt := hold'.r_eq
    exact ⟨l' + 1, u, hu, ⟨hold'', hminH'.trans hminH, by omega⟩, by omega⟩
  obtain ⟨l', t, hrun, ⟨hold', hminH, hle⟩, hcond⟩ :=
    exists_run_index (fun t : State ↦ (t.r - t.l).toNat) (fun l' t ht ↦ ht.1.lowLeft_eq hn) hstep
      ⟨hold, rfl, le_rfl⟩ (show (s.r - s.l).toNat < fuel by omega)
  rw [hminH] at hcond
  exact ⟨t, l', hrun, hold', hminH, hle, fun hlt ↦ not_le.1 fun h ↦ hcond ⟨hlt, h⟩⟩

/-- The second one. -/
theorem Holds.runRight (hold : Holds height n lv l r s)
    (hlv : ∀ i < n, IsLevel (fun j : ℕ ↦ valueAt height j) n i (lv i)) (hn : n ≤ height.length)
    (hint : n ≤ 2 ^ 31) (hfuel : n ≤ fuel) :
    ∃ t r', run (lowRight height) (takeRight height) fuel s = some t ∧ Holds height n lv l r' t ∧
      t.minH = s.minH ∧ r' ≤ r ∧ (l < r' → s.minH < valueAt height r') := by
  have hl := hold.l_eq
  have hr := hold.r_eq
  have hrn := hold.taken.lt
  have hstep (r' : ℕ) (t : State) (ht : Holds height n lv l r' t ∧ t.minH = s.minH ∧ r' ≤ r)
      (hlow : l < r' ∧ valueAt height r' ≤ t.minH) :
      ∃ r'' u, takeRight height t = some u ∧
        (Holds height n lv l r'' u ∧ u.minH = s.minH ∧ r'' ≤ r) ∧
        (u.r - u.l).toNat < (t.r - t.l).toNat := by
    obtain ⟨hold', hminH, hle⟩ := ht
    obtain ⟨k, rfl⟩ := Nat.exists_eq_succ_of_ne_zero (Nat.ne_of_gt (Nat.zero_lt_of_lt hlow.1))
    obtain ⟨u, hu, hold'', hminH', hl', hr'⟩ := hold'.takeRight_spec hlv hn hint hlow.1 hlow.2
    have hlt := hold'.l_eq
    have hrt := hold'.r_eq
    exact ⟨k, u, hu, ⟨hold'', hminH'.trans hminH, by omega⟩, by omega⟩
  obtain ⟨r', t, hrun, ⟨hold', hminH, hle⟩, hcond⟩ :=
    exists_run_index (fun t : State ↦ (t.r - t.l).toNat) (fun r' t ht ↦ ht.1.lowRight_eq hn) hstep
      ⟨hold, rfl, le_rfl⟩ (show (s.r - s.l).toNat < fuel by omega)
  rw [hminH] at hcond
  exact ⟨t, r', hrun, hold', hminH, hle, fun hlt ↦ not_le.1 fun h ↦ hcond ⟨hlt, h⟩⟩

/-- The number of bars above the level. -/
def above (height : List CInt) (n : ℕ) (h : ℤ) : ℕ :=
  ((Finset.range n).filter fun i : ℕ ↦ h < valueAt height i).card

theorem above_le {h' : ℤ} (hle : h ≤ h') : above height n h' ≤ above height n h :=
  Finset.card_le_card (Finset.monotone_filter_right _ fun _ _ hlt ↦ hle.trans_lt hlt)

theorem above_lt {h' : ℤ} (hi : i < n) (hlt : h < valueAt height i) (hle : valueAt height i ≤ h') :
    above height n h' < above height n h := by
  refine Finset.card_lt_card (Finset.ssubset_iff_subset_ne.2
    ⟨Finset.monotone_filter_right _ fun _ _ h ↦ (hlt.le.trans hle).trans_lt h, fun heq ↦ ?_⟩)
  have hmem : i ∈ (Finset.range n).filter fun i : ℕ ↦ h < valueAt height i :=
    Finset.mem_filter.2 ⟨Finset.mem_range.2 hi, hlt⟩
  rw [← heq, Finset.mem_filter] at hmem
  exact absurd hmem.2 (not_lt.2 hle)

/-- The turns of the outer loop that are left, at most. -/
def remaining (height : List CInt) (n : ℕ) (s : State) : ℕ :=
  (s.r - s.l).toNat + above height n s.minH

/-- **A turn** takes a bar, or the level rises above one. -/
theorem Holds.turn_spec (hold : Holds height n lv l r s) (hraised : s.minH ≤ valueAt height r)
    (hlv : ∀ i < n, IsLevel (fun j : ℕ ↦ valueAt height j) n i (lv i)) (hn : n ≤ height.length)
    (hint : n ≤ 2 ^ 31) (hlr : l < r) (hfuel : n ≤ fuel) :
    ∃ t l' r', turn fuel height s = some t ∧ Holds height n lv l' r' t ∧
      t.minH ≤ valueAt height r' ∧ remaining height n t < remaining height n s := by
  obtain ⟨t₁, l', hrun₁, h₁, hminH₁, hl', hleft⟩ := hold.runLeft hlv hn hint hfuel
  obtain ⟨t₂, r', hrun₂, h₂, hminH₂, hr', hright⟩ := h₁.runRight hlv hn hint hfuel
  rw [hminH₁] at hminH₂ hright
  have hle := h₂.taken.le
  have hlt := h₂.taken.lt
  have hlow : s.minH ≤ valueAt height l' := by
    rcases h₁.taken.le.lt_or_eq with h | rfl
    · exact (hleft h).le
    · exact hraised
  have hlow' : s.minH ≤ valueAt height r' := by
    rcases hle.lt_or_eq with h | rfl
    · exact (hright h).le
    · exact hlow
  obtain ⟨x, hx, hxval⟩ := h₂.get_left hn
  obtain ⟨y, hy, hyval⟩ := h₂.get_right hn
  have hraise := h₂.taken.raise (hminH₂ ▸ hlow) (hminH₂ ▸ hlow')
  refine ⟨{ t₂ with minH := min (valueAt height l') (valueAt height r') }, l', r', ?_,
    ⟨h₂.l_eq, h₂.r_eq, hraise, h₂.water⟩, min_le_right _ _, ?_⟩
  · simp only [turn, hrun₁, hrun₂, hx, hy, hxval, hyval, Option.bind_eq_bind, Option.bind_some]
  · have hl := hold.l_eq
    have hr := hold.r_eq
    have hl₂ := h₂.l_eq
    have hr₂ := h₂.r_eq
    show (t₂.r - t₂.l).toNat + above height n (min (valueAt height l') (valueAt height r')) <
      (s.r - s.l).toNat + above height n s.minH
    rcases hle.lt_or_eq with hlt' | heq
    · -- The lower one of the two bars is above the old level.
      have habove : above height n (min (valueAt height l') (valueAt height r')) <
          above height n s.minH := by
        rcases le_total (valueAt height l') (valueAt height r') with h | h
        · exact above_lt (by omega) (hleft (by omega)) (le_min le_rfl h)
        · exact above_lt hlt (hright hlt') (le_min h le_rfl)
      omega
    · have habove : above height n (min (valueAt height l') (valueAt height r')) ≤
          above height n s.minH := above_le (le_min hlow hlow')
      omega

/-! ### The function -/

/-- At the start all bars are left. -/
theorem holds_start (hpos : 0 < n) (hnonneg : ∀ j < n, 0 ≤ valueAt height j) :
    Holds height n lv 0 (n - 1) ⟨0, 0, n - 1, 0⟩ := by
  refine ⟨rfl, ?_, ⟨Nat.zero_le _, by omega, fun j hj hout ↦ by omega,
    ⟨0, le_rfl, hnonneg 0 hpos⟩, n - 1, by omega, le_rfl, hnonneg (n - 1) (by omega)⟩, ?_⟩
  · show (n : ℤ) - 1 = (n - 1 : ℕ)
    omega
  · rw [Nat.sub_add_cancel hpos, Finset.range_eq_Ico, zero_add]

theorem remaining_start_le (height : List CInt) (hpos : 0 < n) :
    remaining height n ⟨0, 0, n - 1, 0⟩ ≤ 2 * n := by
  have hcard := Finset.card_filter_le (Finset.range n) fun i : ℕ ↦ 0 < valueAt height i
  rw [Finset.card_range] at hcard
  show ((n : ℤ) - 1 - 0).toNat + above height n 0 ≤ 2 * n
  rw [above]
  omega

/-- **The loops** count the water over the first `n` bars. -/
theorem run_spec (hlv : ∀ i < n, IsLevel (fun j : ℕ ↦ valueAt height j) n i (lv i))
    (hpos : ∀ x ∈ height, 0 ≤ x.1) (hn : n ≤ height.length) (hint : n ≤ 2 ^ 31)
    (hfuel : 2 * n < fuel) :
    ∃ t, run (fun s ↦ some (decide (s.l < s.r))) (turn fuel height) fuel ⟨0, 0, n - 1, 0⟩ =
      some t ∧ t.water = ∑ i ∈ Finset.range n, (lv i - valueAt height i) := by
  rcases n.eq_zero_or_pos with rfl | hpos'
  · obtain ⟨fuel, rfl⟩ := Nat.exists_eq_succ_of_ne_zero (n := fuel) (by omega)
    exact ⟨⟨0, 0, -1, 0⟩, rfl, rfl⟩
  · have hnonneg (j : ℕ) (hj : j < n) : 0 ≤ valueAt height j := by
      rw [valueAt_getElem (by omega)]
      exact hpos _ (List.getElem_mem _)
    have hcond (p : ℕ × ℕ) (s : State)
        (hs : Holds height n lv p.1 p.2 s ∧ s.minH ≤ valueAt height p.2) :
        some (decide (s.l < s.r)) = some (decide (p.1 < p.2)) := by
      simp only [hs.1.l_eq, hs.1.r_eq, Int.ofNat_lt]
    have hstep (p : ℕ × ℕ) (s : State)
        (hs : Holds height n lv p.1 p.2 s ∧ s.minH ≤ valueAt height p.2) (hlt : p.1 < p.2) :
        ∃ (q : ℕ × ℕ) (t : State), turn fuel height s = some t ∧
          (Holds height n lv q.1 q.2 t ∧ t.minH ≤ valueAt height q.2) ∧
          remaining height n t < remaining height n s := by
      obtain ⟨t, l, r, hturn, hold, hraised, hrem⟩ :=
        hs.1.turn_spec hs.2 hlv hn hint hlt (show n ≤ fuel by omega)
      exact ⟨(l, r), t, hturn, ⟨hold, hraised⟩, hrem⟩
    obtain ⟨⟨l, r⟩, t, hrun, ⟨hold, hraised⟩, hge⟩ := exists_run_index (k := (0, n - 1))
      (remaining height n) hcond hstep
      ⟨holds_start hpos' hnonneg, hnonneg (n - 1) (Nat.sub_lt hpos' Nat.one_pos)⟩
      ((remaining_start_le height hpos').trans_lt hfuel)
    refine ⟨t, hrun, ?_⟩
    -- The bar that is left is as high as the level, so there is no water over it.
    obtain rfl : l = r := hold.taken.le.antisymm (not_lt.1 hge)
    have hlast := (hlv l hold.taken.lt).unique (hold.taken.isLevel_last hraised)
    rw [← hold.water, Nat.Ico_succ_singleton, Finset.sum_singleton, hlast, sub_self, add_zero]

/-- All the water is returned. -/
def TrapsWater (height : List CInt) : Prop :=
  ∃ n, ∀ fuel ≥ n, trap fuel height = some (trapped height)

theorem last_lt (height : List CInt) : last height < height.length := by
  have hmod := wrap_mod (height.length - 1)
  have hlt := (wrap (height.length - 1)).2
  rw [last]
  omega

/-- The function returns the water over the bars up to the last index that it has. -/
theorem trap_spec (hpos : ∀ x ∈ height, 0 ≤ x.1) (hfuel : 2 * height.length < fuel) :
    trap fuel height = some (trapped (height.take (last height + 1).toNat)) := by
  have hlast := last_lt height
  have hint : last height < 2 ^ 31 := (wrap (height.length - 1)).2.2
  rcases lt_or_ge (last height) 0 with hneg | hnonneg
  · obtain ⟨fuel, rfl⟩ := Nat.exists_eq_succ_of_ne_zero (Nat.ne_of_gt (Nat.zero_lt_of_lt hfuel))
    have hcond : ¬ (0 < last height) := by omega
    rw [show (last height + 1).toNat = 0 by omega, List.take_zero, trap, run]
    simp only [hcond, decide_false, Option.bind_eq_bind, Option.bind_some]
    rfl
  · obtain ⟨n, hn⟩ := Int.eq_ofNat_of_zero_le (show 0 ≤ last height + 1 by omega)
    have hlen : (height.take n).length = n := List.length_take_of_le (by omega)
    have hval (j : ℕ) (hj : j < n) : valueAt (height.take n) j = valueAt height j :=
      valueAt_take (Int.natCast_nonneg j) (by omega)
    have hlv (i : ℕ) (hi : i < n) :
        IsLevel (fun j : ℕ ↦ valueAt height j) n i (level (height.take n) i) := by
      have hlevel := isLevel_level (fun x hx ↦ hpos x (List.mem_of_mem_take hx)) (hlen.symm ▸ hi)
      rw [hlen] at hlevel
      exact hlevel.congr hi hval
    obtain ⟨t, hrun, hwater⟩ := run_spec hlv hpos (by omega) (by omega)
      (show 2 * n < fuel by omega)
    have hr : last height = n - 1 := by omega
    rw [trap, hr, hrun, sub_add_cancel, Int.toNat_natCast, trapped, hlen, Option.bind_eq_bind,
      Option.bind_some, hwater, Option.some_inj]
    exact Finset.sum_congr rfl fun i hi ↦ by rw [hval i (Finset.mem_range.1 hi)]

/-- So there is no other water, if it returns all of it. -/
theorem TrapsWater.trapped_eq (h : TrapsWater height) (hpos : ∀ x ∈ height, 0 ≤ x.1) :
    trapped (height.take (last height + 1).toNat) = trapped height := by
  obtain ⟨n, h⟩ := h
  have hrun := h (max n (2 * height.length + 1)) (Nat.le_max_left _ _)
  rw [trap_spec hpos (Nat.le_max_right _ _)] at hrun
  exact Option.some.inj hrun

/-- **`trap`** returns the water exactly if there is none over the bars that are left out. -/
theorem trap_iff (height : List CInt) (hpos : ∀ x ∈ height, 0 ≤ x.1) :
    TrapsWater height ↔ trapped (height.take (last height + 1).toNat) = trapped height := by
  refine ⟨fun h ↦ h.trapped_eq hpos, fun h ↦ ⟨2 * height.length + 1, fun fuel hfuel ↦ ?_⟩⟩
  rw [trap_spec hpos hfuel, h]

theorem trap_iff_twelve : TrapsWater ([0, 1, 0, 2, 1, 0, 1, 3, 2, 1, 2, 1].map wrap) :=
  (trap_iff ([0, 1, 0, 2, 1, 0, 1, 3, 2, 1, 2, 1].map wrap) (by decide)).2
    (congrArg trapped (by decide))

/-- The bars of heights 1, 0 and 1 with `2 ^ 31 - 2` bars of height 0 behind them. -/
theorem not_forall_trapsWater :
    ¬ ∀ height : List CInt, (∀ x ∈ height, 0 ≤ x.1) → TrapsWater height := by
  intro h
  obtain ⟨rest, hrest⟩ : ∃ rest, List.replicate (2 ^ 31 - 2) (wrap 0) = rest := ⟨_, rfl⟩
  have hlen : rest.length = 2 ^ 31 - 2 := by rw [← hrest, List.length_replicate]
  have hpos : ∀ x ∈ wrap 1 :: wrap 0 :: wrap 1 :: rest, 0 ≤ x.1 := by
    intro x hx
    simp only [List.mem_cons, ← hrest, List.mem_replicate] at hx
    rcases hx with rfl | rfl | rfl | ⟨-, rfl⟩ <;> decide
  have hlast : last (wrap 1 :: wrap 0 :: wrap 1 :: rest) = -2 ^ 31 := by
    rw [last, List.length_cons, List.length_cons, List.length_cons, hlen]
    decide
  have hwater := (h _ hpos).trapped_eq hpos
  rw [hlast] at hwater
  exact trapped_pos.ne hwater

end TrappingRainWater
