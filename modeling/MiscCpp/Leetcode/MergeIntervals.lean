import Mathlib.Algebra.GroupWithZero.NeZero
import Mathlib.Algebra.Order.Archimedean.Real.Basic
import Mathlib.Data.Int.ConditionallyCompleteOrder
import MiscCpp.Library.Access
import MiscCpp.Library.CInt
import MiscCpp.Library.IntervalMerge

/-!
# Merging intervals behind a sentinel

`merge` of `leetcode/other/mergeIntervals.cc`, with the interval `{0, 0}` that it appends.

The two loops join the intervals as `coalesce` does, unless the last one ends at the end of the
sentinel: this is then joined as well, and an element behind it is read (`merge_eq`).
-/

open Access CInt IntervalMerge

namespace MergeIntervals

/-- The inner loop, for `fuel` turns: `idx` and `second` at its end. -/
def extend (intervals : List (CInt × CInt)) : ℕ → ℤ → CInt → Option (ℤ × CInt)
  | 0, _, _ => none
  | fuel + 1, idx, second => do
    let next ← get intervals (← fit (idx + 1))
    if next.1 ≤ second ∧ second ≤ next.2 then
      -- `idx++` has the value before the increment.
      let old := idx
      let idx ← fit (idx + 1)
      if old < intervals.length - 1 then
        let p ← get intervals idx
        extend intervals fuel idx p.2
      else some (idx, second)
    else some (idx, second)

/-- The outer loop, for `fuel` turns. -/
def loop (intervals : List (CInt × CInt)) :
    ℕ → ℤ → List (CInt × CInt) → Option (List (CInt × CInt))
  | 0, _, _ => none
  | fuel + 1, idx, res =>
    if idx < intervals.length - 1 then do
      let p ← get intervals idx
      let (idx, second) ← extend intervals fuel idx p.2
      loop intervals fuel (← fit (idx + 1)) (res ++ [(p.1, second)])
    else some res

/-- What is returned, and the intervals afterwards. -/
def merge (fuel : ℕ) (intervals : List (CInt × CInt)) :
    Option (List (CInt × CInt) × List (CInt × CInt)) := do
  let intervals := intervals ++ [(wrap 0, wrap 0)]
  let res ← loop intervals fuel 0 []
  some (res, intervals)

example : (merge 5 [(wrap 1, wrap 3), (wrap 2, wrap 6), (wrap 8, wrap 10), (wrap 15, wrap 18)]).map
    Prod.fst = some [(wrap 1, wrap 6), (wrap 8, wrap 10), (wrap 15, wrap 18)] := by decide

/-! ### The loops -/

variable {v a rest res : List (CInt × CInt)} {p : CInt × CInt} {x : CInt} {k fuel : ℕ}
  {idx : ℤ}

/-- An element of the vector with its sentinel. -/
theorem get_append_cons (hv : v = a ++ p :: rest) (hk : a.length = k) :
    get v k = some p := by
  rw [get_natCast, hv, List.getElem?_append_right hk.le, hk, Nat.sub_self]
  rfl

/-- One turn of the inner loop. -/
theorem extend_succ (hv : v = a ++ p :: rest) (hpre : a.length = k + 1)
    (hlen : v.length ≤ 2 ^ 31) :
    extend v (fuel + 1) k x =
      if p.1 ≤ x ∧ x ≤ p.2 then extend v fuel (k + 1 : ℕ) p.2 else some (↑k, x) := by
  have hget := get_append_cons hv hpre
  have hlt : k + 1 < v.length := by
    rw [hv, List.length_append, List.length_cons, hpre]
    omega
  have hfit : fit ((k : ℤ) + 1) = some ((k + 1 : ℕ) : ℤ) := by
    rw [fit_eq (by omega), Int.natCast_succ]
  have hold : (k : ℤ) < v.length - 1 := by omega
  simp only [extend, hfit, hget, Option.bind_eq_bind, Option.bind_some, if_pos hold]

/-- **The inner loop** joins the intervals that can be joined. -/
theorem exists_extend (hv : v = a ++ (rest ++ [(wrap 0, wrap 0)])) (hpre : a.length = k + 1)
    (hlen : v.length ≤ 2 ^ 31) (hfuel : rest.length < fuel) :
    ∃ mid tail e, rest = mid ++ tail ∧
      (∀ first, coalesce (first, x) rest = (first, e) :: coalesceAll tail) ∧
      extend v fuel k x =
        if tail = [] ∧ e.1 = 0 then none else some (((k + mid.length : ℕ) : ℤ), e) := by
  obtain ⟨fuel, rfl⟩ := Nat.exists_eq_succ_of_ne_zero (Nat.ne_of_gt (Nat.zero_lt_of_lt hfuel))
  induction rest generalizing a k x fuel with
  | nil =>
    refine ⟨[], [], x, rfl, fun first ↦ rfl, ?_⟩
    have hzero : (wrap 0 ≤ x ∧ x ≤ wrap 0) ↔ x.1 = 0 := by
      rw [← Subtype.coe_le_coe, ← Subtype.coe_le_coe]
      exact ⟨fun h ↦ le_antisymm h.2 h.1, fun h ↦ ⟨h.ge, h.le⟩⟩
    rw [extend_succ hv hpre hlen]
    by_cases h : x.1 = 0
    · -- The sentinel is joined, and there is nothing behind it.
      have hget : get v (((k + 1 : ℕ) : ℤ) + 1) = none := by
        rw [← Int.natCast_succ, get_natCast, hv, List.getElem?_eq_none]
        rw [List.length_append, hpre]
        rfl
      rw [if_pos (hzero.2 h), if_pos ⟨rfl, h⟩]
      cases fuel with
      | zero => rfl
      | succ fuel =>
        rw [extend]
        cases hfit : fit (((k + 1 : ℕ) : ℤ) + 1) with
        | none => rfl
        | some i =>
          rw [(fit_eq_some hfit).1, Option.bind_eq_bind, Option.bind_some, hget]
          rfl
    · rw [if_neg (mt hzero.1 h), if_neg fun h' ↦ h h'.2]
      rfl
  | cons q rest ih =>
    rw [extend_succ hv hpre hlen]
    by_cases h : q.1 ≤ x ∧ x ≤ q.2
    · obtain ⟨fuel, rfl⟩ := Nat.exists_eq_succ_of_ne_zero
        (Nat.ne_of_gt (Nat.zero_lt_of_lt (Nat.lt_of_succ_lt_succ hfuel)))
      obtain ⟨mid, tail, e, hrest, hcoalesce, hextend⟩ := ih (a := a ++ [q]) (k := k + 1)
        (x := q.2) (by rw [hv, List.append_assoc]; rfl) (by rw [List.length_append, hpre]; rfl)
        fuel (Nat.lt_of_succ_lt_succ hfuel)
      refine ⟨q :: mid, tail, e, by rw [hrest]; rfl, fun first ↦ ?_, ?_⟩
      · rw [coalesce, if_pos h, hcoalesce]
      · rw [if_pos h, hextend, List.length_cons, Nat.add_right_comm, Nat.add_assoc]
    · refine ⟨[], q :: rest, x, rfl, fun first ↦ ?_, ?_⟩
      · rw [coalesce, if_neg h]
        rfl
      · rw [if_neg h, if_neg fun h' ↦ List.cons_ne_nil _ _ h'.1]
        rfl

/-- The last interval is the one in front if nothing is left behind it. -/
theorem exists_getLast?_cons_iff (p : CInt × CInt) (tail : List (CInt × CInt)) :
    (∃ q ∈ (p :: coalesceAll tail).getLast?, q.2.1 = 0) ↔
      (tail = [] ∧ p.2.1 = 0) ∨ ∃ q ∈ (coalesceAll tail).getLast?, q.2.1 = 0 := by
  cases tail with
  | nil =>
    constructor
    · rintro ⟨q, hq, h⟩
      obtain rfl := Option.some.inj hq
      exact .inl ⟨rfl, h⟩
    · rintro (⟨-, h⟩ | ⟨q, hq, -⟩)
      · exact ⟨p, rfl, h⟩
      · cases hq
  | cons b tail =>
    obtain ⟨e, r, heq, -⟩ := exists_coalesce_eq_cons b tail
    have hcons : coalesceAll (b :: tail) = (b.1, e) :: r := heq
    rw [hcons, List.getLast?_cons_cons]
    exact (or_iff_right fun h ↦ List.cons_ne_nil b tail h.1).symm

/-- **The outer loop** joins the rest, unless the last interval ends at `0`. -/
theorem loop_eq (hv : v = a ++ (rest ++ [(wrap 0, wrap 0)])) (hpre : a.length = k)
    (hlen : v.length ≤ 2 ^ 31) (hfuel : rest.length < fuel) :
    loop v fuel k res =
      if ∃ p ∈ (coalesceAll rest).getLast?, p.2.1 = 0 then none
      else some (res ++ coalesceAll rest) := by
  induction fuel generalizing a rest k res with
  | zero => exact absurd hfuel (Nat.not_lt_zero _)
  | succ fuel ih =>
    have hlength : v.length = k + rest.length + 1 := by
      rw [hv, List.length_append, List.length_append, hpre, Nat.add_assoc]
      rfl
    cases rest with
    | nil =>
      rw [List.length_nil] at hlength
      have hnone : ¬ ∃ p ∈ (coalesceAll ([] : List (CInt × CInt))).getLast?, p.2.1 = 0 := by
        rintro ⟨p, hp, -⟩
        cases hp
      rw [loop, if_neg (by omega), if_neg hnone]
      exact congrArg some (List.append_nil res).symm
    | cons q rest =>
      rw [List.length_cons] at hlength hfuel
      have hv' : v = (a ++ [q]) ++ (rest ++ [(wrap 0, wrap 0)]) := by
        rw [hv, List.append_assoc]
        rfl
      obtain ⟨mid, tail, e, hrest, hcoalesce, hextend⟩ := exists_extend (k := k) (x := q.2)
        hv' (by rw [List.length_append, hpre]; rfl) hlen (Nat.lt_of_succ_lt_succ hfuel)
      have hall : coalesceAll (q :: rest) = (q.1, e) :: coalesceAll tail := hcoalesce q.1
      rw [loop, if_pos (by omega), get_append_cons hv hpre, Option.bind_eq_bind, Option.bind_some,
        hextend, hall]
      by_cases hlast : tail = [] ∧ e.1 = 0
      · rw [if_pos hlast, if_pos ((exists_getLast?_cons_iff (q.1, e) tail).2 (.inl hlast))]
        rfl
      · have hiff := (exists_getLast?_cons_iff (q.1, e) tail).trans (or_iff_right hlast)
        have hfit : fit (((k + mid.length : ℕ) : ℤ) + 1) = some ((k + mid.length + 1 : ℕ) : ℤ) := by
          rw [hrest, List.length_append] at hlength
          rw [fit_eq (by omega), Int.natCast_succ]
        rw [if_neg hlast, Option.bind_eq_bind, Option.bind_some]
        dsimp only
        have hvtail : v = (a ++ q :: mid) ++ (tail ++ [(wrap 0, wrap 0)]) := by
          rw [hv, hrest]
          simp only [List.append_assoc, List.cons_append]
        have hk : (a ++ q :: mid).length = k + mid.length + 1 := by
          rw [List.length_append, List.length_cons, hpre, Nat.add_assoc]
        have htail : tail.length < fuel := by
          rw [hrest, List.length_append] at hfuel
          omega
        rw [hfit, Option.bind_eq_bind, Option.bind_some, ih hvtail hk htail]
        simp only [hiff, List.append_assoc, List.cons_append, List.nil_append]

/-- `idx` gets to no index that is not a value of an `int`. -/
theorem loop_eq_none (hlen : 2 ^ 31 < v.length) (hidx : idx < 2 ^ 31) :
    loop v fuel idx res = none := by
  induction fuel generalizing idx res with
  | zero => rfl
  | succ fuel ih =>
    rw [loop, if_pos (by omega), Option.bind_eq_bind, Option.bind_eq_none_iff]
    intro p _
    rw [Option.bind_eq_bind, Option.bind_eq_none_iff]
    intro s _
    rw [Option.bind_eq_bind, Option.bind_eq_none_iff]
    intro i hi
    obtain ⟨rfl, -, hlt⟩ := fit_eq_some hi
    exact ih hlt

/-! ### The function -/

/-- Intervals that do not start below `0`, in the order of their starts. -/
abbrev SortedIntervals :=
  {l : List (CInt × CInt) // (∀ p ∈ l, 0 ≤ p.1.1 ∧ p.1 ≤ p.2) ∧ l.Pairwise fun p q ↦ p.1 ≤ q.1}

def toReal (x : CInt) : ℝ := (x.1 : ℝ)

/-- The merged intervals are returned, for the real numbers between their ends. -/
def Merges (l : SortedIntervals) : Prop :=
  ∃ res v, (∃ n, ∀ fuel ≥ n, merge fuel l.1 = some (res, v)) ∧
    IsMerged (l.1.map (Prod.map toReal toReal)) (res.map (Prod.map toReal toReal))

theorem strictMono_toReal : StrictMono toReal := fun _ _ h ↦ Int.cast_lt.2 h

theorem isMerged_coalesceAll_iff (l : SortedIntervals) :
    IsMerged (l.1.map (Prod.map toReal toReal)) ((coalesceAll l.1).map (Prod.map toReal toReal)) ↔
      l.1.Pairwise fun p q ↦ p.2 ≤ q.2 := by
  have hle {x y : CInt} : toReal x ≤ toReal y ↔ x ≤ y := strictMono_toReal.le_iff_le
  rw [← coalesceAll_map strictMono_toReal, isMerged_iff, List.pairwise_map]
  · simp only [Prod.map_snd, hle]
  · intro p hp
    obtain ⟨q, hq, rfl⟩ := List.mem_map.1 hp
    exact hle.2 (l.2.1 q hq).2
  · rw [List.pairwise_map]
    exact l.2.2.imp fun h ↦ hle.2 h

theorem merge_eq {l : List (CInt × CInt)} (hlen : l.length < 2 ^ 31) (hfuel : l.length < fuel) :
    merge fuel l = if ∃ p ∈ l.getLast?, p.2.1 = 0 then none
      else some (coalesceAll l, l ++ [(wrap 0, wrap 0)]) := by
  have hlast : (∃ p ∈ (coalesceAll l).getLast?, p.2.1 = 0) ↔ ∃ p ∈ l.getLast?, p.2.1 = 0 := by
    have hmap (o : Option (CInt × CInt)) :
        (∃ p ∈ o, p.2.1 = 0) ↔ ∃ x ∈ o.map Prod.snd, x.1 = 0 := by
      cases o <;> simp
    rw [hmap, getLast?_coalesceAll, hmap]
  have hloop : loop (l ++ [(wrap 0, wrap 0)]) fuel 0 [] = _ :=
    loop_eq (a := []) (k := 0) rfl rfl
      (by rw [List.length_append]; exact Nat.succ_le_of_lt hlen) hfuel
  rw [merge, hloop, List.nil_append]
  simp only [hlast]
  split <;> rfl

/-- **`merge`** returns the merged intervals exactly if their ends are in order, the last one does
not end at `0`, and their number is a value of an `int`. -/
theorem merges_iff (l : SortedIntervals) :
    Merges l ↔ l.1.length < 2 ^ 31 ∧ (l.1.Pairwise fun p q ↦ p.2 ≤ q.2) ∧
      ∀ p ∈ l.1.getLast?, p.2.1 ≠ 0 := by
  constructor
  · rintro ⟨res, v, ⟨n, hn⟩, hmerged⟩
    have hsome := hn (n + l.1.length + 1) (by omega)
    by_cases hlen : l.1.length < 2 ^ 31
    · rw [merge_eq hlen (by omega)] at hsome
      split at hsome
      next => cases hsome
      next hlast =>
        obtain ⟨rfl, -⟩ := Prod.mk.inj (Option.some.inj hsome)
        exact ⟨hlen, (isMerged_coalesceAll_iff l).1 hmerged, fun p hp h ↦ hlast ⟨p, hp, h⟩⟩
    · rw [merge, loop_eq_none (by rw [List.length_append, List.length_singleton]; omega)
        (by decide)] at hsome
      cases hsome
  · rintro ⟨hlen, hends, hlast⟩
    refine ⟨coalesceAll l.1, l.1 ++ [(wrap 0, wrap 0)], ⟨l.1.length + 1, fun fuel hfuel ↦ ?_⟩,
      (isMerged_coalesceAll_iff l).2 hends⟩
    rw [merge_eq hlen hfuel, if_neg fun ⟨p, hp, h⟩ ↦ hlast p hp h]

/-- The intervals `{1, 10}` and `{2, 3}`. -/
theorem not_forall_merges : ¬ ∀ l : SortedIntervals, Merges l := by
  intro h
  obtain ⟨res, v, ⟨n, hn⟩, hmerged⟩ := h ⟨[(wrap 1, wrap 10), (wrap 2, wrap 3)], by decide⟩
  have hsome := hn (n + 3) (Nat.le_add_right n 3)
  rw [merge_eq (by decide) (show 2 < n + 3 by omega), if_neg (by decide)] at hsome
  obtain ⟨rfl, -⟩ := Prod.mk.inj (Option.some.inj hsome)
  exact absurd ((isMerged_coalesceAll_iff _).1 hmerged) (by decide)

end MergeIntervals
