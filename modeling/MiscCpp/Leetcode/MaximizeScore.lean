import Mathlib.Algebra.Order.Ring.Int
import MiscCpp.Library.BitMask
import MiscCpp.Library.Counters
import MiscCpp.Library.Machine
import MiscCpp.Library.OrderedPairs

/-!
# The maximum score of operations on pairs

`maxScoreTopDown` and `maxScoreBottomUp` of `leetcode/DP/MaximizeScoreAfterOperations.cc`, with
exact scores. A mask is a set of indices: of the elements that are left in the first function, and
of the elements that are used in the second one.
-/

open Access BitMask CInt Machine OrderedPairs

namespace MaximizeScore

/-! ### The program -/

/-- The scores by the masks of the numbers. -/
abbrev Cache := List ℤ

/-- `std::gcd`, undefined if an absolute value is none of an `int`. -/
def gcd (x y : CInt) : Option ℤ :=
  if x = INT_MIN ∨ y = INT_MIN then none else some (Int.gcd x.1 y.1)

/-- `1 << n`, undefined if it is none of an `int`. -/
def oneShl (n : ℕ) : Option ℕ := if n < 31 then some (1 <<< n) else none

/-- `__builtin_popcount(mask)` -/
def popcount (mask : ℕ) : ℕ := count 32 mask

/-- The values of `i` and `j` in the two loops. -/
def pairs (n : ℕ) : List (ℕ × ℕ) :=
  (List.range n).flatMap fun i ↦ ((List.range n).drop (i + 1)).map fun j ↦ (i, j)

/-- The body of the loops in `dp`, which is called again with `dp`. -/
def choose (nums : List CInt) (dp : ℕ → Cache → Option (ℤ × Cache)) (mask : ℕ) (cache : Cache)
    (p : ℕ × ℕ) : Option Cache :=
  let (i, j) := p
  if mask &&& 1 <<< i ≠ 0 ∧ mask &&& 1 <<< j ≠ 0 then do
    let k := (nums.length - popcount mask) / 2 + 1
    let g ← gcd (← get nums i) (← get nums j)
    let (rest, cache) ← dp (mask ^^^ 1 <<< i ^^^ 1 <<< j) cache
    put cache mask (max (← get cache mask) (k * g + rest))
  else some cache

/-- `dp`, with `cache` before and after it. -/
def dp (nums : List CInt) : ℕ → ℕ → Cache → Option (ℤ × Cache)
  | 0, _, _ => none
  | fuel + 1, mask, cache =>
    if mask = 0 then some (0, cache)
    else do
      let res ← get cache mask
      if 0 < res then some (res, cache)
      else
        let cache ← exec (choose nums (dp nums fuel) mask) cache (pairs nums.length)
        some (← get cache mask, cache)

/-- The greatest score, from all numbers down. -/
def maxScoreTopDown (fuel : ℕ) (nums : List CInt) : Option ℤ := do
  let size ← oneShl nums.length
  let (value, _) ← dp nums fuel (size - 1) (List.replicate size 0)
  some value

/-- The body of the inner loops. -/
def extend (nums : List CInt) (mask : ℕ) (cache : Cache) (p : ℕ × ℕ) : Option Cache :=
  let (i, j) := p
  if (mask &&& 1 <<< i) + (mask &&& 1 <<< j) = 0 then do
    let k := popcount mask / 2 + 1
    let newMask := mask ||| 1 <<< i ||| 1 <<< j
    let g ← gcd (← get nums i) (← get nums j)
    put cache newMask (max (← get cache newMask) (k * g + (← get cache mask)))
  else some cache

/-- The body of the outer loop. -/
def extendAll (nums : List CInt) (cache : Cache) (mask : ℕ) : Option Cache :=
  if popcount mask % 2 = 1 then some cache
  else exec (extend nums mask) cache (pairs nums.length)

/-- The greatest score, from the empty mask up. -/
def maxScoreBottomUp (nums : List CInt) : Option ℤ := do
  let size ← oneShl nums.length
  let cache ← exec (extendAll nums) (List.replicate size 0) (List.range size)
  get cache (size - 1)

example : maxScoreTopDown 3 ([3, 4, 6, 8].map wrap) = some 11 := by decide +kernel

example : maxScoreBottomUp ([3, 4, 6, 8].map wrap) = some 11 := by decide +kernel

/-! ### Pairs and masks -/

variable {nums : List CInt} {mask i j n : ℕ} {cache : Cache} {x y : ℤ} {ps : List (ℕ × ℕ)}

/-- The pairs that the loops go through. -/
theorem mem_pairs_iff : (i, j) ∈ pairs n ↔ i < j ∧ j < n := by
  rw [pairs, List.mem_flatMap]
  constructor
  · rintro ⟨a, -, hmem⟩
    obtain ⟨b, hb, heq⟩ := List.mem_map.1 hmem
    obtain ⟨rfl, rfl⟩ := Prod.ext_iff.1 heq
    obtain ⟨k, hk, hval⟩ := List.mem_drop_iff_getElem.1 hb
    rw [List.getElem_range] at hval
    rw [List.length_range] at hk
    omega
  · rintro ⟨hij, hj⟩
    refine ⟨i, List.mem_range.2 (by omega), List.mem_map.2 ⟨j, ?_, rfl⟩⟩
    refine List.mem_drop_iff_getElem.2 ⟨j - (i + 1), ?_, ?_⟩
    · rw [List.length_range]
      omega
    · rw [List.getElem_range]
      omega

/-- The greatest common divisor of two elements. -/
def weight (nums : List CInt) (i j : ℕ) : ℤ := Int.gcd (valueAt nums i) (valueAt nums j)

theorem weight_comm (nums : List CInt) (i j : ℕ) : weight nums i j = weight nums j i := by
  rw [weight, weight, Int.gcd_comm]

theorem weight_nonneg (nums : List CInt) (i j : ℕ) : 0 ≤ weight nums i j := Int.natCast_nonneg _

/-- The weight of a pair is its greatest common divisor. -/
theorem exists_gcd (hpos : ∀ x ∈ nums, 0 < x.1) (hi : i < nums.length) (hj : j < nums.length) :
    ∃ x y, get nums i = some x ∧ get nums j = some y ∧ gcd x y = some (weight nums i j) := by
  obtain ⟨x, hx, hxval⟩ := exists_valueAt (s := nums) (Int.natCast_nonneg i) (by omega)
  obtain ⟨y, hy, hyval⟩ := exists_valueAt (s := nums) (Int.natCast_nonneg j) (by omega)
  have hne (z : CInt) (hz : z ∈ nums) : z ≠ INT_MIN := by
    rintro rfl
    exact absurd (hpos INT_MIN hz) (by decide)
  rw [get_natCast] at hx hy
  have hneither : ¬ (x = INT_MIN ∨ y = INT_MIN) :=
    not_or.2 ⟨hne x (List.mem_of_getElem? hx), hne y (List.mem_of_getElem? hy)⟩
  refine ⟨x, y, by rw [get_natCast, hx], by rw [get_natCast, hy], ?_⟩
  rw [gcd, if_neg hneither, weight, hxval, hyval]

/-- A mask of indices, of an even number of them. -/
structure IsPairable (n mask : ℕ) : Prop where
  lt : mask < 2 ^ n
  even : Even (bits mask).card

theorem IsPairable.subset (h : IsPairable n mask) : bits mask ⊆ Finset.range n :=
  lt_two_pow_iff.1 h.lt

theorem IsPairable.card_le (h : IsPairable n mask) : (bits mask).card ≤ n := by
  have hle := Finset.card_le_card h.subset
  rwa [Finset.card_range] at hle

/-- The set bits are counted. -/
theorem popcount_eq (hn : n < 31) (h : mask < 2 ^ n) : popcount mask = (bits mask).card :=
  count_eq_card (h.trans (Nat.pow_lt_pow_right (by omega) (by omega)))

/-- Without two bits that are set. -/
theorem bits_xor (hi : i ∈ bits mask) (hj : j ∈ bits mask) (hij : i ≠ j) :
    bits (mask ^^^ 1 <<< i ^^^ 1 <<< j) = ((bits mask).erase i).erase j := by
  have hj' : j ∈ bits (mask ^^^ 1 <<< i) := by
    rw [bits_xor_bit hi]
    exact Finset.mem_erase.2 ⟨hij.symm, hj⟩
  rw [bits_xor_bit hj', bits_xor_bit hi]

theorem card_erase (hi : i ∈ bits mask) (hj : j ∈ bits mask) (hij : i ≠ j) :
    (((bits mask).erase i).erase j).card + 2 = (bits mask).card := by
  have hj' : j ∈ (bits mask).erase i := Finset.mem_erase.2 ⟨hij.symm, hj⟩
  have hcard := Finset.card_erase_add_one hi
  have hcard' := Finset.card_erase_add_one hj'
  omega

theorem xor_lt (hi : i ∈ bits mask) (hj : j ∈ bits mask) (hij : i ≠ j) :
    mask ^^^ 1 <<< i ^^^ 1 <<< j < mask := by
  refine lt_of_bits_ssubset ?_
  rw [bits_xor hi hj hij]
  exact (Finset.erase_subset j _).trans_ssubset (Finset.erase_ssubset hi)

/-- Taking a pair out keeps the number of numbers left even. -/
theorem IsPairable.xor (h : IsPairable n mask) (hi : i ∈ bits mask) (hj : j ∈ bits mask)
    (hij : i ≠ j) : IsPairable n (mask ^^^ 1 <<< i ^^^ 1 <<< j) where
  lt := (xor_lt hi hj hij).trans h.lt
  even := by
    have heven := h.even
    rw [← card_erase hi hj hij] at heven
    rw [bits_xor hi hj hij]
    exact (Nat.even_add.1 heven).2 even_two

/-- With two more bits. -/
theorem bits_or (mask i j : ℕ) :
    bits (mask ||| 1 <<< i ||| 1 <<< j) = insert j (insert i (bits mask)) := by
  rw [bits_or_bit, bits_or_bit]

theorem or_xor (hi : i ∈ bits mask) (hj : j ∈ bits mask) (hij : i ≠ j) :
    mask ^^^ 1 <<< i ^^^ 1 <<< j ||| 1 <<< i ||| 1 <<< j = mask := by
  refine eq_of_bits_eq ?_
  have hj' : j ∈ (bits mask).erase i := Finset.mem_erase.2 ⟨hij.symm, hj⟩
  rw [bits_or, bits_xor hi hj hij, Finset.insert_comm, Finset.insert_erase hj',
    Finset.insert_erase hi]

/-! ### The recursive function -/

/-- The number of the next operation, if these elements are left. -/
def next (nums : List CInt) (mask : ℕ) : ℕ := (nums.length - (bits mask).card) / 2 + 1

/-- The scores of the operations that are left. -/
def left (nums : List CInt) (mask : ℕ) : Set ℤ :=
  scores (weight nums) (next nums mask) (bits mask)

/-- An entry is zero or right. -/
def Memo (nums : List CInt) (i x : ℤ) : Prop := x = 0 ∨ IsGreatest (left nums i.toNat) x

/-- An entry for which the pairs `ps` have been tried. -/
structure Tried (nums : List CInt) (mask : ℕ) (ps : List (ℕ × ℕ)) (x : ℤ) : Prop where
  sound : x = 0 ∨ x ∈ left nums mask
  complete : ∀ i j, (i, j) ∈ ps → i ∈ bits mask → j ∈ bits mask →
    ∀ y ∈ left nums (mask ^^^ 1 <<< i ^^^ 1 <<< j), next nums mask * weight nums i j + y ≤ x

/-- Without a pair, one more pair has been formed. -/
theorem next_xor (h : IsPairable nums.length mask) (hi : i ∈ bits mask) (hj : j ∈ bits mask)
    (hij : i ≠ j) : next nums (mask ^^^ 1 <<< i ^^^ 1 <<< j) = next nums mask + 1 := by
  have hle := h.card_le
  have hcard := card_erase hi hj hij
  rw [next, next, bits_xor hi hj hij]
  omega

/-- A pair is tried. -/
theorem Tried.max (hx : Tried nums mask ps x) (h : IsPairable nums.length mask)
    (hi : i ∈ bits mask) (hj : j ∈ bits mask) (hij : i ≠ j)
    (hy : IsGreatest (left nums (mask ^^^ 1 <<< i ^^^ 1 <<< j)) y) :
    Tried nums mask (ps ++ [(i, j)]) (max x (next nums mask * weight nums i j + y)) where
  sound := by
    have hmem : next nums mask * weight nums i j + y ∈ left nums mask := by
      have hleft := hy.1
      rw [left, next_xor h hi hj hij, bits_xor hi hj hij] at hleft
      exact mem_scores_first hi hj hij hleft
    rcases le_total x (next nums mask * weight nums i j + y) with hle | hle
    · rw [max_eq_right hle]
      exact Or.inr hmem
    · rw [max_eq_left hle]
      exact hx.sound
  complete a b hab ha hb z hz := by
    rcases List.mem_append.1 hab with hmem | hmem
    · exact (hx.complete a b hmem ha hb z hz).trans (le_max_left _ _)
    · obtain ⟨rfl, rfl⟩ := Prod.ext_iff.1 (List.mem_singleton.1 hmem)
      exact (Int.add_le_add_left (hy.2 hz) _).trans (le_max_right _ _)

theorem Tried.skip (hx : Tried nums mask ps x) (hij : ¬ (i ∈ bits mask ∧ j ∈ bits mask)) :
    Tried nums mask (ps ++ [(i, j)]) x where
  sound := hx.sound
  complete a b hab ha hb z hz := by
    rcases List.mem_append.1 hab with hmem | hmem
    · exact hx.complete a b hmem ha hb z hz
    · obtain ⟨rfl, rfl⟩ := Prod.ext_iff.1 (List.mem_singleton.1 hmem)
      exact absurd ⟨ha, hb⟩ hij

/-- **All pairs** have been tried. -/
theorem Tried.isGreatest (hx : Tried nums mask (pairs nums.length) x)
    (h : IsPairable nums.length mask) (hmask : mask ≠ 0) : IsGreatest (left nums mask) x := by
  refine isGreatest_of_le (weight_nonneg nums) h.even hx.sound fun y hy ↦ ?_
  have hne : (bits mask).Nonempty :=
    Finset.nonempty_iff_ne_empty.2 fun hempty ↦ hmask (bits_eq_empty_iff.1 hempty)
  obtain ⟨i, hi, j, hj, hij, z, hz, rfl⟩ := exists_first (weight_comm nums) hne hy
  have hpair : (i, j) ∈ pairs nums.length :=
    mem_pairs_iff.2 ⟨hij, Finset.mem_range.1 (h.subset hj)⟩
  refine hx.complete i j hpair hi hj z ?_
  rwa [left, next_xor h hi hj hij.ne, bits_xor hi hj hij.ne]

/-- The entries while the one of `mask` is computed, with the property `Q` behind it. -/
def Computing (nums : List CInt) (mask : ℕ) (Q : ℤ → ℤ → Prop) (ps : List (ℕ × ℕ)) :
    Cache → Prop :=
  Entries (2 ^ nums.length)
    (Split mask (Memo nums) (Split (mask + 1) (fun _ ↦ Tried nums mask ps) Q))

/-- The entries when that of `mask` is computed. -/
def Computed (nums : List CInt) (mask : ℕ) (Q : ℤ → ℤ → Prop) : Cache → Prop :=
  Entries (2 ^ nums.length) (Split (mask + 1) (Memo nums) Q)

variable {Q : ℤ → ℤ → Prop}

theorem computed_computing_iff {sub : ℕ} (h : sub < mask) :
    Computed nums sub (Split mask (Memo nums) (Split (mask + 1) (fun _ ↦ Tried nums mask ps) Q))
      cache ↔ Computing nums mask Q ps cache :=
  entries_split_split_iff (by omega)

/-- The entry of the mask has the best of the pairs tried. -/
theorem Computing.exists_get (h : Computing nums mask Q ps cache) (hlt : mask < 2 ^ nums.length) :
    ∃ x, get cache mask = some x ∧ Tried nums mask ps x := by
  obtain ⟨x, hx, hval⟩ := Entries.exists_get h (Int.natCast_nonneg mask) (by exact_mod_cast hlt)
  exact ⟨x, hx, (hval.2 le_rfl).1 (by omega)⟩

/-- The best of more pairs replaces the entry of the mask. -/
theorem Computing.put (h : Computing nums mask Q ps cache) (hlt : mask < 2 ^ nums.length)
    {qs : List (ℕ × ℕ)} (hx : Tried nums mask qs x) :
    ∃ cache', put cache mask x = some cache' ∧ Computing nums mask Q qs cache' := by
  refine Entries.put h (Int.natCast_nonneg mask) (by exact_mod_cast hlt)
    ⟨fun hlt ↦ absurd hlt (lt_irrefl _), fun _ ↦ ⟨fun _ ↦ hx, fun hle ↦ by omega⟩⟩
    fun k z hk hz ↦ ⟨hz.1, fun hle ↦ ⟨fun hlt ↦ by omega, (hz.2 hle).2⟩⟩

/-- The loops start. -/
theorem computing_nil (h : Computed nums mask Q cache) (hx : get cache mask = some 0) :
    Computing nums mask Q [] cache := by
  refine ⟨h.length, fun k z hz ↦ ⟨fun hlt ↦ (h.prop k z hz).1 (by omega), fun hle ↦
    ⟨fun hlt ↦ ?_, (h.prop k z hz).2⟩⟩⟩
  obtain rfl : k = mask := by omega
  rw [← Option.some.inj (hx.symm.trans hz)]
  exact ⟨Or.inl rfl, fun i j hij ↦ by cases hij⟩

/-- The loops end. -/
theorem Computing.computed (h : Computing nums mask Q (pairs nums.length) cache)
    (hmask : IsPairable nums.length mask) (hne : mask ≠ 0) : Computed nums mask Q cache := by
  refine Entries.congr h fun k z hk _ hz ↦ ⟨fun hlt ↦ ?_, fun hle ↦ (hz.2 (by omega)).2 hle⟩
  rcases (Int.lt_add_one_iff.1 hlt).lt_or_eq with hlt | rfl
  · exact hz.1 hlt
  · refine Or.inr ?_
    rw [Int.toNat_natCast]
    exact ((hz.2 le_rfl).1 (by omega)).isGreatest hmask hne

/-- **One pair** of the loops in `dp`, if the inner call is right. -/
theorem choose_spec {f : ℕ → Cache → Option (ℤ × Cache)} (hpos : ∀ x ∈ nums, 0 < x.1)
    (hn : nums.length < 31) (hmask : IsPairable nums.length mask)
    (hf : ∀ sub < mask, IsPairable nums.length sub → (bits sub).card < (bits mask).card →
      ∀ Q cache, Computed nums sub Q cache → ∃ x cache', f sub cache = some (x, cache') ∧
        IsGreatest (left nums sub) x ∧ Computed nums sub Q cache')
    (hij : (i, j) ∈ pairs nums.length) (h : Computing nums mask Q ps cache) :
    ∃ cache', choose nums f mask cache (i, j) = some cache' ∧
      Computing nums mask Q (ps ++ [(i, j)]) cache' := by
  obtain ⟨hlt, hj⟩ := mem_pairs_iff.1 hij
  have hcond : mask &&& 1 <<< i ≠ 0 ∧ mask &&& 1 <<< j ≠ 0 ↔ i ∈ bits mask ∧ j ∈ bits mask := by
    rw [Ne, Ne, and_bit_eq_zero_iff, and_bit_eq_zero_iff, Classical.not_not, Classical.not_not]
  by_cases hmem : i ∈ bits mask ∧ j ∈ bits mask
  · -- The inner call keeps the entry of `mask`, which is part of the property behind `sub`.
    have hsub := xor_lt hmem.1 hmem.2 hlt.ne
    have hcard := card_erase hmem.1 hmem.2 hlt.ne
    rw [← bits_xor hmem.1 hmem.2 hlt.ne] at hcard
    obtain ⟨a, b, ha, hb, hg⟩ := exists_gcd hpos (hlt.trans hj) hj
    obtain ⟨y, cache₁, hcall, hy, hcache₁⟩ := hf _ hsub (hmask.xor hmem.1 hmem.2 hlt.ne)
      (by omega) _ cache ((computed_computing_iff hsub).2 h)
    have hcomp := (computed_computing_iff hsub).1 hcache₁
    obtain ⟨x, hx, htried⟩ := hcomp.exists_get hmask.lt
    obtain ⟨cache₂, hput, hcache₂⟩ := hcomp.put hmask.lt
      (htried.max hmask hmem.1 hmem.2 hlt.ne hy)
    refine ⟨cache₂, ?_, hcache₂⟩
    rw [next, ← popcount_eq hn hmask.lt] at hput
    rw [choose]
    dsimp only
    rw [if_pos (hcond.2 hmem), ha, hb, Option.bind_eq_bind, Option.bind_some, Option.bind_some,
      hg, Option.bind_eq_bind, Option.bind_some, hcall, Option.bind_eq_bind, Option.bind_some]
    dsimp only
    rw [hx]
    exact hput
  · refine ⟨cache, ?_, Entries.congr h fun k z _ _ hz ↦ ⟨hz.1, fun hle ↦
      ⟨fun hk ↦ ((hz.2 hle).1 hk).skip hmem, (hz.2 hle).2⟩⟩⟩
    rw [choose]
    exact if_neg fun hne ↦ hmem (hcond.1 hne)

/-- **The recursion** finds the greatest score of the elements that are left. -/
theorem dp_spec (hpos : ∀ x ∈ nums, 0 < x.1) (hn : nums.length < 31) {fuel : ℕ}
    (hmask : IsPairable nums.length mask) (hfuel : (bits mask).card < fuel)
    (h : Computed nums mask Q cache) :
    ∃ x cache', dp nums fuel mask cache = some (x, cache') ∧
      IsGreatest (left nums mask) x ∧ Computed nums mask Q cache' := by
  -- The property `Q` is arbitrary, so that the inner calls keep the entry that is in progress.
  induction fuel generalizing mask cache Q with
  | zero => exact absurd hfuel (Nat.not_lt_zero _)
  | succ fuel ih =>
    rw [dp]
    by_cases hzero : mask = 0
    · refine ⟨0, cache, if_pos hzero, ?_, h⟩
      rw [left, hzero, bits_zero]
      exact ⟨mem_scores_empty_iff.2 rfl, fun y hy ↦ (mem_scores_empty_iff.1 hy).le⟩
    · rw [if_neg hzero]
      obtain ⟨x, hx, hval⟩ := Entries.exists_get h (Int.natCast_nonneg mask)
        (by exact_mod_cast hmask.lt)
      have hmemo := hval.1 (by omega)
      rw [Memo, Int.toNat_natCast] at hmemo
      rw [hx, Option.bind_eq_bind, Option.bind_some]
      by_cases hres : 0 < x
      · exact ⟨x, cache, if_pos hres, hmemo.resolve_left hres.ne', h⟩
      · rw [if_neg hres]
        -- A greatest score of 0 looks like an entry that is not computed, and is computed again.
        have hx0 : x = 0 := by
          rcases hmemo with hx0 | hgreatest
          · exact hx0
          · exact le_antisymm (not_lt.1 hres) (scores_nonneg (weight_nonneg nums) hgreatest.1)
        rw [hx0] at hx
        have hstep (done : List (ℕ × ℕ)) (p : ℕ × ℕ) (hp : p ∈ pairs nums.length) (s : Cache)
            (hs : Computing nums mask Q done s) :
            ∃ t, choose nums (dp nums fuel) mask s p = some t ∧
              Computing nums mask Q (done ++ [p]) t :=
          choose_spec hpos hn hmask (fun sub _ hsub hcard Q cache hcache ↦
            ih hsub (by omega) hcache) hp hs
        obtain ⟨cache', hexec, hcache'⟩ := exists_exec_list hstep (computing_nil h hx)
        obtain ⟨y, hy, htried⟩ := hcache'.exists_get hmask.lt
        refine ⟨y, cache', ?_, htried.isGreatest hmask hzero, hcache'.computed hmask hzero⟩
        rw [hexec, Option.bind_eq_bind, Option.bind_some, hy]
        rfl

theorem oneShl_eq (hn : n < 31) : oneShl n = some (2 ^ n) := by
  rw [oneShl, if_pos hn, Nat.one_shiftLeft]

/-- The scores of all ways to split the elements. -/
def values (nums : List CInt) : Set ℤ :=
  scores (weight nums) 1 (Finset.range nums.length)

theorem bits_last (n : ℕ) : bits (2 ^ n - 1) = Finset.range n := by
  rw [← Nat.one_shiftLeft, bits_all]

theorem isPairable_last (h : Even n) : IsPairable n (2 ^ n - 1) where
  lt := Nat.sub_lt (Nat.two_pow_pos n) Nat.one_pos
  even := by rwa [bits_last, Finset.card_range]

/-- **From the whole set down**, the greatest score is returned. -/
theorem maxScoreTopDown_spec (hpos : ∀ x ∈ nums, 0 < x.1) (hn : nums.length < 31)
    (heven : Even nums.length) {fuel : ℕ} (hfuel : nums.length < fuel) :
    ∃ v, IsGreatest (values nums) v ∧ maxScoreTopDown fuel nums = some v := by
  have hstart : Computed nums (2 ^ nums.length - 1) (fun _ _ ↦ True)
      (List.replicate (2 ^ nums.length) 0) :=
    entries_replicate fun i _ _ ↦ ⟨fun _ ↦ Or.inl rfl, fun _ ↦ trivial⟩
  have hcard : (bits (2 ^ nums.length - 1)).card < fuel := by
    rwa [bits_last, Finset.card_range]
  obtain ⟨v, cache, hdp, hv, -⟩ := dp_spec hpos hn (isPairable_last heven) hcard hstart
  refine ⟨v, ?_, ?_⟩
  · rwa [left, next, bits_last, Finset.card_range, Nat.sub_self] at hv
  · rw [maxScoreTopDown, oneShl_eq hn, Option.bind_eq_bind, Option.bind_some, hdp]
    rfl

/-! ### The table -/

/-- The scores of the operations on the elements that are used. -/
def used (nums : List CInt) (mask : ℕ) : Set ℤ := scores (weight nums) 1 (bits mask)

/-- An entry that has been extended from the masks in front of `m`, and from `m` with the pairs
`ps`. -/
structure Extended (nums : List CInt) (m : ℕ) (ps : List (ℕ × ℕ)) (i x : ℤ) : Prop where
  sound : x = 0 ∨ x ∈ used nums i.toNat
  complete : ∀ s a b, (a, b) ∈ pairs nums.length → (s < m ∨ s = m ∧ (a, b) ∈ ps) →
    Even (bits s).card → a ∉ bits s → b ∉ bits s → s ||| 1 <<< a ||| 1 <<< b = i.toNat →
    ∀ y ∈ used nums s, ((bits s).card / 2 + 1 : ℕ) * weight nums a b + y ≤ x

theorem lt_or (hi : i ∉ bits mask) : mask < mask ||| 1 <<< i ||| 1 <<< j := by
  refine lt_of_bits_ssubset ?_
  rw [bits_or]
  exact (Finset.ssubset_insert hi).trans_subset (Finset.subset_insert j _)

/-- With a pair more, the mask is still one of the table. -/
theorem IsPairable.or_lt (h : IsPairable n mask) (hi : i < n) (hj : j < n) :
    mask ||| 1 <<< i ||| 1 <<< j < 2 ^ n := by
  rw [lt_two_pow_iff, bits_or]
  exact Finset.insert_subset (Finset.mem_range.2 hj)
    (Finset.insert_subset (Finset.mem_range.2 hi) h.subset)

/-- A pair behind those that are used. -/
theorem mem_used_or (hi : i ∉ bits mask) (hj : j ∉ bits mask) (hij : i ≠ j)
    (hy : y ∈ used nums mask) :
    ((bits mask).card / 2 + 1 : ℕ) * weight nums i j + y ∈
      used nums (mask ||| 1 <<< i ||| 1 <<< j) := by
  have hj' : j ∉ insert i (bits mask) := by
    rw [Finset.mem_insert, not_or]
    exact ⟨hij.symm, hj⟩
  have herase : ((insert j (insert i (bits mask))).erase i).erase j = bits mask := by
    rw [Finset.erase_right_comm, Finset.erase_insert hj', Finset.erase_insert hi]
  have hlast := mem_scores_last (w := weight nums) (k := 1) (y := y)
    (Finset.mem_insert_of_mem (Finset.mem_insert_self i (bits mask)))
    (Finset.mem_insert_self j (insert i (bits mask))) hij (by rwa [herase])
  rwa [herase, add_comm 1, ← bits_or] at hlast

/-- **The entry** of a mask is right when the masks in front of it have been extended. -/
theorem Extended.isGreatest {m : ℕ} (hx : Extended nums m ps mask x) (hle : mask ≤ m)
    (h : IsPairable nums.length mask) : IsGreatest (used nums mask) x := by
  have hsound := hx.sound
  rw [Int.toNat_natCast] at hsound
  refine isGreatest_of_le (weight_nonneg nums) h.even hsound fun y hy ↦ ?_
  rcases (bits mask).eq_empty_or_nonempty with hempty | hne
  · rw [used, hempty, mem_scores_empty_iff] at hsound
    rw [hempty, mem_scores_empty_iff] at hy
    rw [hy, or_self_iff.1 hsound]
  · obtain ⟨i, hi, j, hj, hij, z, hz, rfl⟩ := exists_last (weight_comm nums) hne hy
    have hpair : (i, j) ∈ pairs nums.length :=
      mem_pairs_iff.2 ⟨hij, Finset.mem_range.1 (h.subset hj)⟩
    have hbits := bits_xor hi hj hij.ne
    have hcomplete := hx.complete _ i j hpair (Or.inl ((xor_lt hi hj hij.ne).trans_le hle))
      (h.xor hi hj hij.ne).even
    rw [used, hbits, Int.toNat_natCast, add_comm _ 1] at hcomplete
    refine hcomplete ?_ (Finset.notMem_erase j _) (or_xor hi hj hij.ne) z hz
    exact fun hmem ↦ Finset.notMem_erase i _ (Finset.mem_of_mem_erase hmem)

/-- The entry that is extended. -/
theorem Extended.max (hx : Extended nums mask ps (mask ||| 1 <<< i ||| 1 <<< j : ℕ) x)
    (hi : i ∉ bits mask) (hj : j ∉ bits mask) (hij : i ≠ j)
    (hy : IsGreatest (used nums mask) y) :
    Extended nums mask (ps ++ [(i, j)]) (mask ||| 1 <<< i ||| 1 <<< j : ℕ)
      (max x (((bits mask).card / 2 + 1 : ℕ) * weight nums i j + y)) where
  sound := by
    have hmem := mem_used_or hi hj hij hy.1
    rcases le_total x (((bits mask).card / 2 + 1 : ℕ) * weight nums i j + y) with hle | hle
    · rw [max_eq_right hle, Int.toNat_natCast]
      exact Or.inr hmem
    · rw [max_eq_left hle]
      exact hx.sound
  complete s a b hab hs heven ha hb heq z hz := by
    have hold (hs : s < mask ∨ s = mask ∧ (a, b) ∈ ps) :
        ((bits s).card / 2 + 1 : ℕ) * weight nums a b + z ≤
          Max.max x (((bits mask).card / 2 + 1 : ℕ) * weight nums i j + y) :=
      (hx.complete s a b hab hs heven ha hb heq z hz).trans (le_max_left _ _)
    rcases hs with hlt | ⟨rfl, hmem⟩
    · exact hold (Or.inl hlt)
    · rcases List.mem_append.1 hmem with hmem | hmem
      · exact hold (Or.inr ⟨rfl, hmem⟩)
      · obtain ⟨rfl, rfl⟩ := Prod.ext_iff.1 (List.mem_singleton.1 hmem)
        exact (Int.add_le_add_left (hy.2 hz) _).trans (le_max_right _ _)

/-- An entry that is not extended. -/
theorem Extended.skip {k : ℤ} (hx : Extended nums mask ps k x)
    (hne : i ∉ bits mask → j ∉ bits mask → mask ||| 1 <<< i ||| 1 <<< j ≠ k.toNat) :
    Extended nums mask (ps ++ [(i, j)]) k x where
  sound := hx.sound
  complete s a b hab hs heven ha hb heq z hz := by
    refine hx.complete s a b hab ?_ heven ha hb heq z hz
    rcases hs with hlt | ⟨rfl, hmem⟩
    · exact Or.inl hlt
    · rcases List.mem_append.1 hmem with hmem | hmem
      · exact Or.inr ⟨rfl, hmem⟩
      · obtain ⟨rfl, rfl⟩ := Prod.ext_iff.1 (List.mem_singleton.1 hmem)
        exact absurd heq (hne ha hb)

/-- The table has been extended. -/
def Table (nums : List CInt) (m : ℕ) (ps : List (ℕ × ℕ)) : Cache → Prop :=
  Entries (2 ^ nums.length) (Extended nums m ps)

theorem Table.exists_get {m : ℕ} (h : Table nums m ps cache) (hlt : mask < 2 ^ nums.length) :
    ∃ x, get cache mask = some x ∧ Extended nums m ps mask x :=
  Entries.exists_get h (Int.natCast_nonneg mask) (by exact_mod_cast hlt)

/-- **One pair** of the inner loops. -/
theorem extend_spec (hpos : ∀ x ∈ nums, 0 < x.1) (hn : nums.length < 31)
    (hmask : IsPairable nums.length mask) (hij : (i, j) ∈ pairs nums.length)
    (h : Table nums mask ps cache) :
    ∃ cache', extend nums mask cache (i, j) = some cache' ∧
      Table nums mask (ps ++ [(i, j)]) cache' := by
  obtain ⟨hlt, hj⟩ := mem_pairs_iff.1 hij
  have hcond : (mask &&& 1 <<< i) + (mask &&& 1 <<< j) = 0 ↔ i ∉ bits mask ∧ j ∉ bits mask := by
    rw [Nat.add_eq_zero_iff, and_bit_eq_zero_iff, and_bit_eq_zero_iff]
  by_cases hmem : i ∉ bits mask ∧ j ∉ bits mask
  · have hnew := hmask.or_lt (hlt.trans hj) hj
    have hgt := lt_or hmem.1 (j := j)
    obtain ⟨a, b, ha, hb, hg⟩ := exists_gcd hpos (hlt.trans hj) hj
    obtain ⟨x, hx, hxval⟩ := h.exists_get hnew
    obtain ⟨y, hy, hyval⟩ := h.exists_get hmask.lt
    obtain ⟨cache', hput, hcache'⟩ := Entries.put h (Int.natCast_nonneg _)
      (by exact_mod_cast hnew)
      (hxval.max hmem.1 hmem.2 hlt.ne (hyval.isGreatest le_rfl hmask))
      fun k z hk hz ↦ hz.skip fun _ _ heq ↦ hk (by omega)
    refine ⟨cache', ?_, hcache'⟩
    rw [← popcount_eq hn hmask.lt] at hput
    rw [extend]
    dsimp only
    rw [if_pos (hcond.2 hmem), ha, hb, Option.bind_eq_bind, Option.bind_some, Option.bind_some,
      hg, Option.bind_eq_bind, Option.bind_some, hx, hy]
    exact hput
  · refine ⟨cache, ?_, Entries.congr h fun k z _ _ hz ↦ hz.skip fun hi hj ↦
      absurd ⟨hi, hj⟩ hmem⟩
    rw [extend]
    exact if_neg fun hzero ↦ hmem (hcond.1 hzero)

/-- **One mask** of the outer loop. -/
theorem extendAll_spec (hpos : ∀ x ∈ nums, 0 < x.1) (hn : nums.length < 31)
    (hmask : mask < 2 ^ nums.length) (h : Table nums mask [] cache) :
    ∃ cache', extendAll nums cache mask = some cache' ∧ Table nums (mask + 1) [] cache' := by
  have hcond : popcount mask % 2 = 1 ↔ Odd (bits mask).card := by
    rw [popcount_eq hn hmask, Nat.odd_iff]
  rw [extendAll]
  by_cases hodd : Odd (bits mask).card
  · refine ⟨cache, if_pos (hcond.2 hodd), Entries.congr h fun k z _ _ hz ↦
      ⟨hz.sound, fun s a b hab hs heven ↦ hz.complete s a b hab (Or.inl ?_) heven⟩⟩
    rcases hs with hlt | ⟨-, hnil⟩
    · refine (Nat.lt_succ_iff.1 hlt).lt_of_ne fun heq ↦ ?_
      rw [heq] at heven
      exact Nat.not_even_iff_odd.2 hodd heven
    · cases hnil
  · have hpairable : IsPairable nums.length mask := ⟨hmask, Nat.not_odd_iff_even.1 hodd⟩
    have hstep (done : List (ℕ × ℕ)) (p : ℕ × ℕ) (hp : p ∈ pairs nums.length) (s : Cache)
        (hs : Table nums mask done s) :
        ∃ t, extend nums mask s p = some t ∧ Table nums mask (done ++ [p]) t :=
      extend_spec hpos hn hpairable hp hs
    obtain ⟨cache', hexec, hcache'⟩ := exists_exec_list hstep h
    refine ⟨cache', (if_neg fun h ↦ hodd (hcond.1 h)).trans hexec,
      Entries.congr hcache' fun k z _ _ hz ↦
        ⟨hz.sound, fun s a b hab hs heven ↦ hz.complete s a b hab ?_ heven⟩⟩
    rcases hs with hlt | ⟨-, hnil⟩
    · exact (Nat.lt_or_eq_of_le (Nat.lt_succ_iff.1 hlt)).imp_right fun heq ↦ ⟨heq, hab⟩
    · cases hnil

/-- **From the empty set up**, the greatest score is returned. -/
theorem maxScoreBottomUp_spec (hpos : ∀ x ∈ nums, 0 < x.1) (hn : nums.length < 31)
    (heven : Even nums.length) :
    ∃ v, IsGreatest (values nums) v ∧ maxScoreBottomUp nums = some v := by
  have hstart : Table nums 0 [] (List.replicate (2 ^ nums.length) 0) := by
    refine entries_replicate fun i _ _ ↦ ⟨Or.inl rfl, fun s a b _ hs ↦ ?_⟩
    rcases hs with hlt | ⟨-, hnil⟩
    · exact absurd hlt (Nat.not_lt_zero s)
    · cases hnil
  obtain ⟨cache, hexec, hcache⟩ := exists_exec_range (I := fun m ↦ Table nums m [])
    (fun m s hm hs ↦ extendAll_spec hpos hn hm hs) hstart
  have hlast := isPairable_last heven
  obtain ⟨v, hv, hval⟩ := hcache.exists_get hlast.lt
  refine ⟨v, ?_, ?_⟩
  · have hgreatest := hval.isGreatest hlast.lt.le hlast
    rwa [used, bits_last] at hgreatest
  · rw [maxScoreBottomUp, oneShl_eq hn, Option.bind_eq_bind, Option.bind_some, hexec,
      Option.bind_eq_bind, Option.bind_some]
    rw [Nat.cast_sub (Nat.two_pow_pos _), Nat.cast_one] at hv
    exact hv

/-- **Both functions** return the greatest score of all ways to split the elements. -/
theorem maxScore_eq (nums : List CInt) (heven : Even nums.length) (hn : nums.length < 31)
    (hpos : ∀ x ∈ nums, 0 < x.1) :
    ∃ v, IsGreatest (values nums) v ∧
      (∀ fuel, nums.length < fuel → maxScoreTopDown fuel nums = some v) ∧
      maxScoreBottomUp nums = some v := by
  obtain ⟨v, hv, hbottom⟩ := maxScoreBottomUp_spec hpos hn heven
  refine ⟨v, hv, fun fuel hfuel ↦ ?_, hbottom⟩
  obtain ⟨u, hu, htop⟩ := maxScoreTopDown_spec hpos hn heven hfuel
  rw [htop, hu.unique hv]

/-- The vector of `main`. -/
theorem maxScore_eq_main :
    ∃ v, IsGreatest (values ([1, 2, 3, 4, 5, 6].map wrap)) v ∧
      (∀ fuel, 6 < fuel → maxScoreTopDown fuel ([1, 2, 3, 4, 5, 6].map wrap) = some v) ∧
      maxScoreBottomUp ([1, 2, 3, 4, 5, 6].map wrap) = some v :=
  maxScore_eq ([1, 2, 3, 4, 5, 6].map wrap) (by decide) (by decide) (by decide)

end MaximizeScore
