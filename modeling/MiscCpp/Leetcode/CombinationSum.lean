import MiscCpp.Library.Access
import MiscCpp.Library.CInt
import MiscCpp.Library.Combinations
import MiscCpp.Library.Machine

/-!
# Combinations with a sum

`combinationSum` of `leetcode/other/combinationSum.cc`. Its loop over the candidates stops at the
first one greater than the sum, so the table gets the lists of `Combinations.IsBuilt`
(`fillRow_spec`). These are all combinations if the candidates ascend, but not in every order of
them (`combinationSum_iff`).
-/

open Access CInt Combinations Machine

namespace CombinationSum

/-! ### The program -/

/-- `dp` -/
abbrev Table := List (List (List CInt))

/-- The body of the loop over `dp[i - n]`, which is undefined if it changes that vector. -/
def append (i : ℤ) (n : CInt) (dp : Table) (v : List CInt) : Option Table :=
  if ∀ x ∈ v.getLast?, x ≤ n then
    if n.1 = 0 then none
    else do put dp i ((← get dp i) ++ [v ++ [n]])
  else some dp

/-- The loop over the candidates. -/
def fillRow (i : ℤ) : Table → List CInt → Option Table
  | dp, [] => some dp
  | dp, n :: candidates =>
    if n.1 > i then some dp
    else do
      let vs ← get dp (← fit (i - n.1))
      fillRow i (← exec (append i n) dp vs) candidates

/-- The index of the outer loop is the counter plus 1. -/
def combinationSum (candidates : List CInt) (target : CInt) : Option (List (List CInt)) := do
  let size ← fit (target.1 + 1)
  let dp ← put (List.replicate size.toNat []) 0 [[]]
  let dp ← exec (fun dp k ↦ fillRow (k + 1 : ℕ) dp candidates) dp (List.range target.1.toNat)
  get dp target.1

example : combinationSum ([2, 3, 6, 7].map wrap) (wrap 7) =
    some ([[2, 2, 3], [7]].map (·.map wrap)) := by decide

/-- All combinations are returned, each once, and nothing else. -/
def ReturnsAll (candidates : List CInt) (target : CInt) : Prop :=
  ∃ res, combinationSum candidates target = some res ∧ (res.map Multiset.ofList).Nodup ∧
    ∀ M, M ∈ res.map Multiset.ofList ↔ IsCombination Subtype.val candidates target.1 M

/-! ### One row -/

variable {candidates : List CInt} {target n : CInt} {dp : Table} {row vs : List (List CInt)}
  {i k : ℤ} {size : ℕ}

theorem exec_append (hn : n.1 ≠ 0) (hrow : get dp i = some row) :
    exec (append i n) dp vs = some (dp.set i.toNat
      (row ++ (vs.filter fun v ↦ ∀ x ∈ v.getLast?, x ≤ n).map (· ++ [n]))) := by
  induction vs generalizing dp row with
  | nil => rw [exec_nil, List.filter_nil, List.map_nil, List.append_nil, set_get_self hrow]
  | cons v vs ih =>
    rw [exec_cons, append]
    by_cases hlast : ∀ x ∈ v.getLast?, x ≤ n
    · rw [if_pos hlast, if_neg hn, hrow, Option.bind_eq_bind, Option.bind_some, put_eq hrow,
        Option.bind_some, ih (get_set_self hrow _), List.set_set,
        List.filter_cons_of_pos (by exact decide_eq_true hlast), List.map_cons, List.append_assoc,
        List.singleton_append]
    · rw [if_neg hlast, Option.bind_some, ih hrow, List.filter_cons_of_neg]
      exact mt of_decide_eq_true hlast

/-- **The loop over the candidates** looks at those in front of the first one that is greater. -/
theorem fillRow_eq {rows : ℤ → List (List CInt)} (hpos : ∀ n ∈ candidates, 0 < n.1)
    (hi : 0 ≤ i) (hint : i < 2 ^ 31) (hrow : get dp i = some row)
    (hrows : ∀ j, 0 ≤ j → j < i → get dp j = some (rows j)) :
    fillRow i dp candidates = some (dp.set i.toNat
      (row ++ (candidates.takeWhile fun m ↦ m.1 ≤ i).flatMap fun n ↦
        ((rows (i - n.1)).filter fun v ↦ ∀ x ∈ v.getLast?, x ≤ n).map (· ++ [n]))) := by
  induction candidates generalizing dp row with
  | nil =>
    rw [fillRow, List.takeWhile_nil, List.flatMap_nil, List.append_nil, set_get_self hrow]
  | cons n candidates ih =>
    have hn := hpos n List.mem_cons_self
    rw [fillRow]
    by_cases hlt : n.1 > i
    · rw [if_pos hlt, List.takeWhile_cons_of_neg (by exact mt of_decide_eq_true (not_le.2 hlt)),
        List.flatMap_nil, List.append_nil, set_get_self hrow]
    · have hle := not_lt.1 hlt
      have hself := get_set_self hrow (row ++
        ((rows (i - n.1)).filter fun v ↦ ∀ x ∈ v.getLast?, x ≤ n).map (· ++ [n]))
      rw [if_neg hlt, List.takeWhile_cons_of_pos (by exact decide_eq_true hle), List.flatMap_cons,
        fit_eq (by omega), Option.bind_eq_bind, Option.bind_some,
        hrows _ (by omega) (by omega), Option.bind_eq_bind, Option.bind_some,
        exec_append hn.ne' hrow, Option.bind_eq_bind, Option.bind_some,
        ih (fun m hm ↦ hpos m (List.mem_cons_of_mem n hm)) hself, List.set_set,
        List.append_assoc]
      intro j hj hji
      rw [get_set_ne hi hji.ne, hrows j hj hji]

/-- The rows up to `k` have been built. -/
def IsTable (candidates : List CInt) (size : ℕ) (k : ℤ) (dp : Table) : Prop :=
  Entries size (Split k (IsRow Subtype.val candidates) fun _ row ↦ row = []) dp

theorem fillRow_spec (hnodup : candidates.Nodup) (hpos : ∀ n ∈ candidates, 0 < n.1)
    (hsize : size ≤ 2 ^ 31) (hi : 0 < i) (hlt : i < size) (h : IsTable candidates size i dp) :
    ∃ dp', fillRow i dp candidates = some dp' ∧ IsTable candidates size (i + 1) dp' := by
  obtain ⟨row, hrow, hempty⟩ := h.exists_get hi.le hlt
  have hrows (j : ℤ) (hj : 0 ≤ j) (hji : j < i) : get dp j = some ((get dp j).getD []) := by
    obtain ⟨x, hx, -⟩ := h.exists_get hj (hji.trans hlt)
    rw [hx, Option.getD_some]
  have hbuilt (j : ℤ) (hj : 0 ≤ j) (hji : j < i) :
      IsRow Subtype.val candidates j ((get dp j).getD []) :=
    (h.prop j _ (hrows j hj hji)).1 hji
  obtain ⟨dp', hput, h'⟩ := h.put_up hi.le hlt (IsRow.next hnodup hpos hi hbuilt)
  refine ⟨dp', ?_, h'⟩
  rw [fillRow_eq hpos hi.le (by omega) hrow hrows, hempty.2 le_rfl, List.nil_append, ← hput,
    put_eq hrow]

/-! ### The whole table -/

theorem combinationSum_spec (hnodup : candidates.Nodup) (hpos : ∀ n ∈ candidates, 0 < n.1)
    (htarget : 0 ≤ target.1) (hmax : target < INT_MAX) :
    ∃ res, combinationSum candidates target = some res ∧
      IsRow Subtype.val candidates target.1 res := by
  have hlt := lt_INT_MAX_iff.1 hmax
  have hsize : ((target.1.toNat + 1 : ℕ) : ℤ) = target.1 + 1 := by omega
  have hempty : IsTable candidates (target.1.toNat + 1) 0
      (List.replicate (target.1.toNat + 1) []) :=
    entries_replicate fun i hi _ ↦ ⟨fun hlt ↦ absurd hi (not_le.2 hlt), fun _ ↦ rfl⟩
  obtain ⟨dp, hput, hstart⟩ := hempty.put_up le_rfl (by omega) (isRow_zero hpos)
  obtain ⟨dp', hexec, htable⟩ := exists_exec_range (n := target.1.toNat)
    (I := fun k dp ↦ IsTable candidates (target.1.toNat + 1) (k + 1 : ℕ) dp)
    (fun k dp hk h ↦ fillRow_spec hnodup hpos (by omega) (by omega) (by omega) h) hstart
  obtain ⟨res, hres, hrow⟩ := htable.exists_get htarget (by omega)
  refine ⟨res, ?_, hrow.1 (by omega)⟩
  rw [combinationSum, fit_eq (by omega)]
  simp only [Option.bind_eq_bind, Option.bind_some]
  rw [← hsize, Int.toNat_natCast, hput, Option.bind_some, hexec, Option.bind_some, hres]

/-- **All combinations are returned** exactly if the size of the table is an `int` and, whenever an
element of a combination in ascending order is added, no candidate in front of it is greater than
the sum so far. -/
theorem combinationSum_iff (hnodup : candidates.Nodup) (hpos : ∀ n ∈ candidates, 0 < n.1)
    (htarget : 0 ≤ target.1) :
    ReturnsAll candidates target ↔ target < INT_MAX ∧
      ∀ v : List CInt, v.Pairwise (· ≤ ·) →
        IsCombination Subtype.val candidates target.1 (v : Multiset CInt) →
          Unobstructed Subtype.val candidates v := by
  constructor
  · rintro ⟨res, hres, hall⟩
    obtain ⟨size, hsize, -⟩ := Option.bind_eq_some_iff.1 hres
    obtain ⟨-, -, hlt⟩ := fit_eq_some hsize
    have hmax : target < INT_MAX := lt_INT_MAX_iff.2 (by omega)
    obtain ⟨res', hres', hrow⟩ := combinationSum_spec hnodup hpos htarget hmax
    obtain rfl := Option.some.inj (hres.symm.trans hres')
    exact ⟨hmax, hrow.complete_iff.1 hall⟩
  · rintro ⟨hmax, hall⟩
    obtain ⟨res, hres, hrow⟩ := combinationSum_spec hnodup hpos htarget hmax
    exact ⟨res, hres, hrow.complete_iff.2 hall⟩

/-- The vector of `main`, which ascends. -/
theorem combinationSum_iff_main : ReturnsAll ([2, 3, 6, 7].map wrap) (wrap 7) :=
  have hpos : ∀ n ∈ [2, 3, 6, 7].map wrap, 0 < n.1 := by decide
  (combinationSum_iff (by decide) hpos (by decide)).2
    ⟨by decide, fun v _ hcomb ↦ unobstructed_of_sorted hpos (by decide) hcomb.subset⟩

/-- The candidate 7 is in front of 3. -/
theorem not_forall_returnsAll : ¬ ∀ (candidates : List CInt) (target : CInt), candidates.Nodup →
    (∀ n ∈ candidates, 0 < n.1) → 0 ≤ target.1 → ReturnsAll candidates target := by
  intro h
  obtain ⟨res, hres, -, hmem⟩ := h ([7, 3].map wrap) (wrap 3) (by decide) (by decide) (by decide)
  have hnone : combinationSum ([7, 3].map wrap) (wrap 3) = some [] := by decide
  obtain rfl := Option.some.inj (hnone.symm.trans hres)
  have hcomb : IsCombination Subtype.val ([7, 3].map wrap) (wrap 3).1 {wrap 3} := by
    refine ⟨fun n hn ↦ ?_, by decide⟩
    rw [Multiset.mem_singleton.1 hn]
    decide
  exact absurd ((hmem _).2 hcomb) List.not_mem_nil

end CombinationSum
