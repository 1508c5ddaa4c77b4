import MiscCpp.Library.BinaryIndexed
import MiscCpp.Library.CInt
import MiscCpp.Library.Machine

/-!
# Fenwick trees

The two classes `FenwickTree`, whose loops differ in the type of the index only: an `int` in one of
them, a `size_t` in the other. What the loops need of an index is an `IndexType`, and the lemmas
about them are stated once, for a type whose steps add and take away the lowest bit (`Lawful`).

The elements of `sums_` are added modulo `2 ^ 32`. Of all updates each cell has the sum that
`BinaryIndexed.cell` asks for: an update walks through the cells whose range has its position
(`updateLoop_spec`), and a query adds up cells whose ranges follow one another (`queryLoop_spec`).
-/

open CInt Machine BinaryIndexed

namespace FenwickTree

/-! ### The index -/

/-- What the loops do with an index: convert it to `size_t`, compare it with 0, add its lowest bit
and take it away. -/
structure IndexType (σ : Type) where
  pos : σ → ℕ
  positive : σ → Bool
  up : σ → Option σ
  down : σ → Option σ

/-- `x & (-x)`, undefined if the negation overflows. -/
def lowbit (x : CInt) : Option CInt :=
  (checked (-x.1)).map fun y ↦ wrap (BitVec.ofInt 32 x.1 &&& BitVec.ofInt 32 y.1).toInt

/-- `int i` -/
def intIndex : IndexType CInt where
  pos i := (i.1 % 2 ^ 64).toNat
  positive i := 0 < i.1
  up i := do checked (i.1 + (← lowbit i).1)
  down i := do checked (i.1 - (← lowbit i).1)

/-- `size_t i`, which is converted to `int` for `lowbit`. -/
def sizeIndex : IndexType (BitVec 64) where
  pos i := i.toNat
  positive i := 0 < i.toNat
  up i := do some (i + BitVec.ofInt 64 (← lowbit (wrap i.toNat)).1)
  down i := do some (i - BitVec.ofInt 64 (← lowbit (wrap i.toNat)).1)

/-! ### The tree -/

/-- `sums_` -/
abbrev Sums := List CInt

/-- A vector of `n` zeros; a vector of `int` has less than `2 ^ 61` elements. -/
def zeros (n : ℕ) : Option Sums := if n < 2 ^ 61 then some (List.replicate n (wrap 0)) else none

/-- `FenwickTree(int n)` -/
def construct (n : CInt) : Option Sums := do
  let size ← checked (n.1 + 1)
  zeros (size.1 % 2 ^ 64).toNat

/-- `FenwickTree(size_t n)` -/
def constructSize (n : BitVec 64) : Option Sums := zeros (n + 1).toNat

variable {σ : Type} (I : IndexType σ)

/-- `while (i < sums_.size())` -/
def updateLoop (delta : CInt) : ℕ → Sums → σ → Option Sums
  | 0, _, _ => none
  | fuel + 1, sums, i =>
    if I.pos i < sums.length then do
      let sum ← sums[I.pos i]?
      let i' ← I.up i
      updateLoop delta fuel (sums.set (I.pos i) (wrap (sum.1 + delta.1))) i'
    else some sums

/-- `while (i > 0)` -/
def queryLoop (sums : Sums) : ℕ → σ → CInt → Option CInt
  | 0, _, _ => none
  | fuel + 1, i, sum =>
    if I.positive i then do
      let x ← sums[I.pos i]?
      let i' ← I.down i
      queryLoop sums fuel i' (wrap (sum.1 + x.1))
    else some sum

/-- Each turn takes the index to a cell further on. -/
def update (sums : Sums) (u : σ × CInt) : Option Sums :=
  updateLoop I u.2 (sums.length + 1) sums u.1

/-- Each turn takes the index to a cell before. -/
def query (sums : Sums) (i : σ) : Option CInt := queryLoop I sums (sums.length + 1) i (wrap 0)

example : ((exec (update intIndex) (List.replicate 6 (wrap 0))
    [(wrap 3, wrap 4), (wrap 5, wrap (-1)), (wrap 9, wrap 2)]).bind
      fun sums ↦ query intIndex sums (wrap 5)) = some (wrap 3) := by decide

/-- The sum of the deltas given for positions up to `j`. -/
def given (us : List (σ × CInt)) (j : ℕ) : ℤ :=
  ((us.filter fun u ↦ I.pos u.1 ≤ j).map fun u ↦ u.2.1).sum

/-- After the updates `us` of a tree for the positions up to `n` the queries return the sums of the
deltas, and updates beyond `n` have no effect. -/
def SumsRight (sums : Sums) (us : List (σ × CInt)) (n : ℤ) : Prop :=
  ∃ sums', exec (update I) sums us = some sums' ∧
    (∀ j, (I.pos j : ℤ) ≤ n → query I sums' j = some (wrap (given I us (I.pos j)))) ∧
    ∀ u, n < I.pos u.1 → update I sums' u = some sums'

/-! ### The steps of an index -/

/-- Up to `2 ^ 30` the steps add the lowest bit and take it away. -/
structure IndexType.Lawful (I : IndexType σ) : Prop where
  positive : ∀ i, I.pos i < 2 ^ 30 → (I.positive i ↔ I.pos i ≠ 0)
  up : ∀ i, I.pos i ≠ 0 → I.pos i < 2 ^ 30 →
    ∃ i', I.up i = some i' ∧ I.pos i' = I.pos i + lowBit (I.pos i)
  down : ∀ i, I.pos i ≠ 0 → I.pos i < 2 ^ 30 →
    ∃ i', I.down i = some i' ∧ I.pos i' = I.pos i - lowBit (I.pos i)

theorem lowbit_eq {x : CInt} {n : ℕ} (hx : x.1 = n) (hn : n ≠ 0) :
    ∃ y, lowbit x = some y ∧ y.1 = lowBit n := by
  have hbounds := x.2
  have hlt : n < 2 ^ 31 := by omega
  have hneg : -2 ^ 31 ≤ -x.1 ∧ -x.1 < 2 ^ 31 := by omega
  have hle := lowBit_le hn
  have hpos : (BitVec.ofInt 32 x.1).toNat = n := by
    rw [BitVec.toNat_ofInt]
    omega
  have hneg' : (BitVec.ofInt 32 (-x.1)).toNat = 2 ^ 32 - n := by
    rw [BitVec.toNat_ofInt]
    omega
  have hand : (BitVec.ofInt 32 x.1 &&& BitVec.ofInt 32 (-x.1)).toNat = lowBit n := by
    rw [BitVec.toNat_and, hpos, hneg', and_sub_eq_lowBit hn (by omega)]
  refine ⟨_, by rw [lowbit, checked, dif_pos hneg]; rfl, ?_⟩
  dsimp only
  rw [BitVec.toInt_eq_toNat_of_lt (by omega), hand, wrap_of_lt (Int.natCast_nonneg _) (by omega)]

theorem lawful_intIndex : intIndex.Lawful := by
  have hval : ∀ i : CInt, intIndex.pos i < 2 ^ 30 → i.1 = intIndex.pos i := by
    intro i hi
    have hbounds := i.2
    simp only [intIndex] at hi ⊢
    omega
  refine ⟨fun i hi ↦ ?_, fun i hne hi ↦ ?_, fun i hne hi ↦ ?_⟩
  · have hi' := hval i hi
    simp only [intIndex] at hi' ⊢
    rw [decide_eq_true_iff]
    omega
  · obtain ⟨y, hy, hlow⟩ := lowbit_eq (hval i hi) hne
    have hle := lowBit_le hne
    have hi' := hval i hi
    have hbounds : -2 ^ 31 ≤ i.1 + y.1 ∧ i.1 + y.1 < 2 ^ 31 := by omega
    refine ⟨⟨i.1 + y.1, hbounds⟩, ?_, ?_⟩
    · simp only [intIndex, hy, Option.bind_eq_bind, Option.bind_some]
      exact dif_pos hbounds
    · show ((i.1 + y.1) % 2 ^ 64).toNat = _
      omega
  · obtain ⟨y, hy, hlow⟩ := lowbit_eq (hval i hi) hne
    have hle := lowBit_le hne
    have hi' := hval i hi
    have hbounds : -2 ^ 31 ≤ i.1 - y.1 ∧ i.1 - y.1 < 2 ^ 31 := by omega
    refine ⟨⟨i.1 - y.1, hbounds⟩, ?_, ?_⟩
    · simp only [intIndex, hy, Option.bind_eq_bind, Option.bind_some]
      exact dif_pos hbounds
    · show ((i.1 - y.1) % 2 ^ 64).toNat = _
      omega

theorem lawful_sizeIndex : sizeIndex.Lawful := by
  have hlow : ∀ i : BitVec 64, i.toNat ≠ 0 → i.toNat < 2 ^ 30 →
      ∃ y, lowbit (wrap i.toNat) = some y ∧ (BitVec.ofInt 64 y.1).toNat = lowBit i.toNat := by
    intro i hne hi
    obtain ⟨y, hy, hval⟩ := lowbit_eq (wrap_of_lt (Int.natCast_nonneg _) (by omega)) hne
    have hle := lowBit_le hne
    refine ⟨y, hy, ?_⟩
    rw [BitVec.toNat_ofInt, hval]
    omega
  refine ⟨fun i hi ↦ ?_, fun i hne hi ↦ ?_, fun i hne hi ↦ ?_⟩
  · simp only [sizeIndex, decide_eq_true_iff]
    exact Nat.pos_iff_ne_zero
  · obtain ⟨y, hy, hval⟩ := hlow i hne hi
    have hle := lowBit_le hne
    refine ⟨_, by simp only [sizeIndex, hy, Option.bind_eq_bind, Option.bind_some]; rfl, ?_⟩
    simp only [sizeIndex] at hi hle ⊢
    rw [BitVec.toNat_add, hval]
    omega
  · obtain ⟨y, hy, hval⟩ := hlow i hne hi
    have hle := lowBit_le hne
    refine ⟨_, by simp only [sizeIndex, hy, Option.bind_eq_bind, Option.bind_some]; rfl, ?_⟩
    simp only [sizeIndex] at hi hle ⊢
    rw [BitVec.toNat_sub, hval]
    omega

/-! ### The loops -/

variable {I} {sums sums' : Sums} {i j : σ} {fuel n c : ℕ} {f : ℕ → ℤ}
  {us : List (σ × CInt)}

/-- The cells have the sums of `f`. -/
structure HasSums (sums : Sums) (n : ℕ) (f : ℕ → ℤ) : Prop where
  length : sums.length = n
  get : ∀ c < n, c ≠ 0 → sums[c]? = some (wrap (cell f c))

/-- **An update** from the index `i` on: the cells whose range has the position get `delta`. -/
theorem updateLoop_spec (hI : I.Lawful) (delta : CInt) (hi : I.pos i ≠ 0)
    (hlen : sums.length ≤ 2 ^ 30) (hfuel : sums.length < I.pos i + fuel) (hfuel₀ : fuel ≠ 0) :
    ∃ sums', updateLoop I delta fuel sums i = some sums' ∧ sums'.length = sums.length ∧
      ∀ c v, c ≠ 0 → sums[c]? = some (wrap v) →
        sums'[c]? = some (wrap (v + if Covers c (I.pos i) then delta.1 else 0)) := by
  induction fuel generalizing sums i with
  | zero => exact absurd rfl hfuel₀
  | succ fuel ih =>
    rw [updateLoop]
    by_cases hlt : I.pos i < sums.length
    · obtain ⟨i', hup, hpos⟩ := hI.up i hi (by omega)
      have hlow := lowBit_pos (I.pos i)
      have hfuel' : fuel ≠ 0 := by omega
      obtain ⟨x, hx⟩ : ∃ x, sums[I.pos i]? = some x := ⟨_, List.getElem?_eq_getElem hlt⟩
      obtain ⟨sums', hloop, hlength, hcells⟩ :=
        ih (show I.pos i' ≠ 0 by omega)
          (show (sums.set (I.pos i) (wrap (x.1 + delta.1))).length ≤ 2 ^ 30 by
            rwa [List.length_set]) (by rw [List.length_set]; omega) hfuel'
      rw [List.length_set] at hlength
      refine ⟨sums', ?_, hlength, fun c v hc hv ↦ ?_⟩
      · rw [if_pos hlt, hx]
        simp only [Option.bind_eq_bind, Option.bind_some, hup, hloop]
      · rw [hpos] at hcells
        rcases eq_or_ne c (I.pos i) with rfl | hne
        · -- the cell of the index itself, to which the walk does not come back
          obtain rfl := Option.some.inj (hx.symm.trans hv)
          have hset : (sums.set (I.pos i) (wrap ((wrap v).1 + delta.1)))[I.pos i]? =
              some (wrap (v + delta.1)) := by
            rw [List.getElem?_set_self hlt, wrap_wrap_add]
          rw [hcells _ _ hc hset, if_neg (not_covers_add _), if_pos (covers_self hc), Int.add_zero]
        · rw [hcells c v hc (by rwa [List.getElem?_set_ne hne.symm])]
          simp only [covers_add_iff hi hc hne]
    · refine ⟨sums, if_neg hlt, rfl, fun c v hc hv ↦ ?_⟩
      have hcov : ¬ Covers c (I.pos i) := fun h ↦ by
        have hclt := (List.getElem?_eq_some_iff.1 hv).1
        have hle := h.2
        omega
      rw [if_neg hcov, Int.add_zero, hv]

theorem HasSums.update (h : HasSums sums n f) (hI : I.Lawful) (hi : I.pos i ≠ 0)
    (hn : n ≤ 2 ^ 30) (delta : CInt) :
    ∃ sums', update I sums (i, delta) = some sums' ∧
      HasSums sums' n (f + Pi.single (I.pos i) delta.1) := by
  obtain ⟨sums', hloop, hlength, hcells⟩ := updateLoop_spec hI delta hi
    (h.length.trans_le hn) (show sums.length < I.pos i + (sums.length + 1) by omega)
    (Nat.succ_ne_zero _)
  refine ⟨sums', hloop, hlength.trans h.length, fun c hc hne ↦ ?_⟩
  rw [cell_add_single]
  exact hcells c _ hne (h.get c hc hne)

/-- **A query** adds up what is left to the sum so far. -/
theorem HasSums.queryLoop (h : HasSums sums n f) (hI : I.Lawful) (hn : n ≤ 2 ^ 30)
    (hi : I.pos i = 0 ∨ I.pos i < n) (hfuel : I.pos i < fuel) (s : ℤ) :
    queryLoop I sums fuel i (wrap s) =
      some (wrap (s + ∑ p ∈ Finset.Ioc 0 (I.pos i), f p)) := by
  induction fuel generalizing i s with
  | zero => exact absurd hfuel (Nat.not_lt_zero _)
  | succ fuel ih =>
    rw [FenwickTree.queryLoop]
    by_cases hzero : I.pos i = 0
    · rw [if_neg (mt (hI.positive i (by omega)).1 (not_not_intro hzero)), hzero, Finset.Ioc_self,
        Finset.sum_empty, Int.add_zero]
    · have hlt : I.pos i < n := hi.resolve_left hzero
      obtain ⟨i', hdown, hpos⟩ := hI.down i hzero (by omega)
      have hlow := lowBit_pos (I.pos i)
      rw [if_pos ((hI.positive i (by omega)).2 hzero), h.get _ hlt hzero]
      simp only [Option.bind_eq_bind, Option.bind_some, hdown]
      rw [wrap_wrap_add, Int.add_comm s, wrap_wrap_add, ih (by omega) (by omega), hpos,
        Int.add_comm _ s, Int.add_assoc, ← sum_Ioc_eq]

/-! ### A run of updates -/

/-- The deltas at each position. -/
def deltas (I : IndexType σ) (us : List (σ × CInt)) : ℕ → ℤ :=
  (us.map fun u ↦ Pi.single (I.pos u.1) u.2.1).sum

theorem sum_deltas (hpos : ∀ u ∈ us, I.pos u.1 ≠ 0) (j : ℕ) :
    ∑ p ∈ Finset.Ioc 0 j, deltas I us p = given I us j := by
  induction us with
  | nil => exact Finset.sum_const_zero
  | cons u us ih =>
    obtain ⟨hu, hus⟩ := List.forall_mem_cons.1 hpos
    have hcons : deltas I (u :: us) = Pi.single (I.pos u.1) u.2.1 + deltas I us := List.sum_cons
    simp only [hcons, Pi.add_apply]
    rw [Finset.sum_add_distrib, ih hus, Finset.sum_pi_single', given, given]
    simp only [Finset.mem_Ioc, Nat.pos_of_ne_zero hu, true_and, List.filter_cons]
    by_cases hle : I.pos u.1 ≤ j
    · simp [hle]
    · simp [hle]

theorem HasSums.exec (h : HasSums sums n f) (hI : I.Lawful) (hn : n ≤ 2 ^ 30)
    (hpos : ∀ u ∈ us, I.pos u.1 ≠ 0) :
    ∃ sums', exec (FenwickTree.update I) sums us = some sums' ∧
      HasSums sums' n (f + deltas I us) := by
  induction us generalizing sums f with
  | nil => exact ⟨sums, rfl, by simpa [deltas] using h⟩
  | cons u us ih =>
    obtain ⟨hu, hus⟩ := List.forall_mem_cons.1 hpos
    obtain ⟨sums', hupdate, h'⟩ := h.update hI hu hn u.2
    obtain ⟨sums'', hexec, h''⟩ := ih h' hus
    refine ⟨sums'', by rw [exec_cons, hupdate, Option.bind_some, hexec], ?_⟩
    rwa [add_assoc] at h''

theorem zeros_eq_some (h : zeros n = some sums) :
    n < 2 ^ 61 ∧ sums = List.replicate n (wrap 0) := by
  obtain ⟨hlt, heq⟩ := Option.ite_none_right_eq_some.1 h
  exact ⟨hlt, (Option.some.inj heq).symm⟩

theorem hasSums_replicate (n : ℕ) : HasSums (List.replicate n (wrap 0)) n 0 where
  length := List.length_replicate
  get c hc _ := by
    rw [List.getElem?_replicate, if_pos hc, cell]
    simp

/-- **A run** on a new tree. -/
theorem IndexType.Lawful.sumsRight (hI : I.Lawful) (us : List (σ × CInt)) (hn : n ≤ 2 ^ 30)
    (hpos : ∀ u ∈ us, I.pos u.1 ≠ 0) :
    SumsRight I (List.replicate n (wrap 0)) us (n - 1) := by
  obtain ⟨sums, hexec, h⟩ := (hasSums_replicate n).exec hI hn hpos
  refine ⟨sums, hexec, fun j hj ↦ ?_, fun u hu ↦ ?_⟩
  · have hlen := h.length
    rw [query, h.queryLoop hI hn (.inr (by omega)) (by omega), Int.zero_add, zero_add,
      sum_deltas hpos]
  · have hlen := h.length
    rw [update, updateLoop, if_neg (by omega)]

/-- **Fenwick trees** return the sums of the deltas, modulo `2 ^ 32`. -/
theorem query_eq_given :
    (∀ (n : CInt) (sums : Sums) (us : List (CInt × CInt)), n.1 < 2 ^ 30 →
      construct n = some sums → (∀ u ∈ us, 1 ≤ u.1.1) → SumsRight intIndex sums us n.1) ∧
    ∀ (n : BitVec 64) (sums : Sums) (us : List (BitVec 64 × CInt)), n.toNat < 2 ^ 30 →
      constructSize n = some sums → (∀ u ∈ us, 1 ≤ u.1.toNat) →
        SumsRight sizeIndex sums us n.toNat := by
  constructor
  · intro n sums us hn hnew hus
    rw [construct, Option.bind_eq_bind, Option.bind_eq_some_iff] at hnew
    obtain ⟨size, hsize, hzeros⟩ := hnew
    have hval := checked_eq_some hsize
    obtain ⟨hlt, rfl⟩ := zeros_eq_some hzeros
    have hlen : (size.1 % 2 ^ 64).toNat ≤ 2 ^ 30 := by omega
    have hpos : ∀ u ∈ us, intIndex.pos u.1 ≠ 0 := fun u hu ↦ by
      have hle := hus u hu
      have hbounds := u.1.2
      simp only [intIndex]
      omega
    have hright := lawful_intIndex.sumsRight us hlen hpos
    have hsub : ((size.1 % 2 ^ 64).toNat : ℤ) - 1 = n.1 := by omega
    rwa [hsub] at hright
  · intro n sums us hn hnew hus
    obtain ⟨-, rfl⟩ := zeros_eq_some hnew
    have hsize : (n + 1).toNat = n.toNat + 1 := by
      rw [BitVec.toNat_add]
      show (n.toNat + 1) % 2 ^ 64 = _
      omega
    rw [hsize]
    have hright := lawful_sizeIndex.sumsRight us (show n.toNat + 1 ≤ 2 ^ 30 by omega)
      fun u hu ↦ Nat.one_le_iff_ne_zero.1 (hus u hu)
    have hsub : ((n.toNat + 1 : ℕ) : ℤ) - 1 = n.toNat := by omega
    rwa [hsub] at hright

/-- Trees for five positions, with an update at 3 and one beyond the end. -/
theorem query_eq_given_three :
    SumsRight intIndex (List.replicate 6 (wrap 0)) [(wrap 3, wrap 4), (wrap 9, wrap 2)] 5 ∧
      SumsRight sizeIndex (List.replicate 6 (wrap 0)) [(3, wrap 4), (9, wrap 2)] 5 :=
  ⟨query_eq_given.1 (wrap 5) _ _ (by decide) rfl (by decide),
    query_eq_given.2 5 _ _ (by decide) rfl (by decide)⟩

end FenwickTree
