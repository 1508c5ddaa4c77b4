import MiscCpp.Leetcode.SortArray.QuickSort
import MiscCpp.Library.Tasks

/-!
# Parallel quick sort

`parallelQuickSort` of `leetcode/divideANDconquer/sortArray.cc`. From a difference of `1000` on
`psort` starts two tasks, one for each of the ranges that its partition leaves. They wait for
nothing, so their accesses come in any order.

Each task is a `sort`, which stays in its range, and the ranges are disjoint: the tasks are
independent. What they leave is what `quickSort` leaves, for the same vectors in order
(`parallelQuickSort_iff`).
-/

open Access CInt QuickSort SortArray

namespace ParallelQuickSort

/-- `psort`, and the two tasks that it starts, if it does. -/
def psort (fuel : ℕ) (first last : CInt) :
    Prog CInt (Option (Prog CInt PUnit × Prog CInt PUnit)) :=
  if first ≥ last then pure none
  else do
    let d ← .ofOption (checked (last.1 - first.1))
    if d.1 < 1000 then do
      sort (partition fuel) fuel first last
      pure none
    else do
      let (l, r) ← partition fuel first last
      pure (some (sort (partition fuel) fuel first r, sort (partition fuel) fuel l last))

/-- What `psort` leaves, with the tasks that are started then. -/
def parallelQuickSort (fuel : ℕ) (nums : List CInt) :
    Option (Option (Prog CInt PUnit × Prog CInt PUnit) × List CInt) :=
  (psort fuel (wrap 0) (lastIndex nums.length)).exec nums

/-- In every order of the steps the vector ends as `m'`: without tasks it is left so, and tasks
access the elements of disjoint ranges and are independent. -/
def LeadsTo (m' : List CInt)
    (o : Option (Option (Prog CInt PUnit × Prog CInt PUnit) × List CInt)) : Prop :=
  o = some (none, m') ∨ ∃ first second m r l, o = some (some (first, second), m) ∧
    Tasks.Independent r l ⟨first, second, m⟩ m'

/-- Every order of the steps leads to the same sorted permutation. -/
def SortsInEveryOrder (nums : List CInt) : Prop :=
  ∃ n, ∀ fuel ≥ n, ∃ nums', nums'.Perm nums ∧ nums'.Pairwise (· ≤ ·) ∧
    LeadsTo nums' (parallelQuickSort fuel nums)

variable {b e : CInt} {m m' nums : List CInt} {fuel : ℕ}

theorem LeadsTo.unique {o : Option (Option (Prog CInt PUnit × Prog CInt PUnit) × List CInt)}
    (h : LeadsTo m o) (h' : LeadsTo m' o) : m = m' := by
  rcases h with heq | ⟨p, q, m₁, r, l, heq, hind⟩
  all_goals rcases h' with heq' | ⟨p', q', m₂, r', l', heq', hind'⟩
  all_goals obtain ⟨htasks, hm⟩ := Prod.mk.inj (Option.some.inj (heq.symm.trans heq'))
  · exact hm
  · cases htasks
  · cases htasks
  · obtain ⟨rfl, rfl⟩ := Prod.mk.inj (Option.some.inj htasks)
    obtain rfl := hm
    exact hind.unique hind'

/-- **`psort`** sorts its range, itself or by its tasks. -/
theorem psort_spec (hb : 0 ≤ b.1) (he : e.1 < m.length) (hfuel : m.length < fuel) :
    ∃ m', LeadsTo m' ((psort fuel b e).exec m) ∧ Rearranges b.1 e.1 m m' ∧
      SortedOn b.1 e.1 m' := by
  have hpart := partitions_partition (Nat.le_of_lt hfuel)
  rw [psort]
  by_cases hbe : b ≥ e
  · have hbe' : b.1 ≥ e.1 := hbe
    rw [if_pos hbe]
    exact ⟨m, .inl rfl, .refl _ _ _, fun i j hi hij hj ↦ by omega⟩
  · have hbe' : b.1 < e.1 := not_le.1 hbe
    have he2 := e.2
    have hd : checked (e.1 - b.1) = some ⟨e.1 - b.1, by omega⟩ := dif_pos (by omega)
    rw [if_neg hbe, hd]
    show ∃ m', LeadsTo m' (Prog.exec (if e.1 - b.1 < 1000 then _ else _) m) ∧ _
    split
    · obtain ⟨m', hexec, hrearr, hsorted⟩ := sort_spec hpart hb he
        (show e.1 < b.1 + fuel by omega) (Nat.zero_lt_of_lt hfuel)
      refine ⟨m', .inl ?_, hrearr, hsorted⟩
      exact Prog.exec_bind_of_exec (Prog.exec_of_exec_within hexec) rfl
    · obtain ⟨p, l, r, m₁, hexec, h⟩ := hpart b e m rfl hb (not_le.1 hbe) he
      have hl : b.1 < l.1 := h.left
      have hr : r.1 < e.1 := h.right
      have hlen := h.rearranges.length
      obtain ⟨m₂, hexec₂, hrearr₂, hsorted₂⟩ := sort_spec (m := m₁) (b := b) (e := r)
        (by rwa [hlen]) hb (by omega) (show r.1 < b.1 + fuel by omega) (Nat.zero_lt_of_lt hfuel)
      have hlen₂ := hrearr₂.length.trans hlen
      obtain ⟨m₃, hexec₃, hrearr₃, hsorted₃⟩ := sort_spec (m := m₂) (b := l) (e := e)
        (by rwa [hlen₂]) (by omega) (by omega) (show e.1 < l.1 + fuel by omega)
        (Nat.zero_lt_of_lt hfuel)
      refine ⟨m₃, .inr ⟨_, _, m₁, r.1, l.1, ?_, Tasks.independent_of_exec h.lt hexec₂ hexec₃⟩,
        h.sortedOn hrearr₂ hsorted₂ hrearr₃ hsorted₃⟩
      exact Prog.exec_bind_of_exec (Prog.exec_of_exec_within hexec) rfl

/-- Whatever the order of the steps, it is a permutation that is sorted if the rest is in order. -/
theorem parallelQuickSort_spec (hfuel : nums.length < fuel) :
    ∃ nums', LeadsTo nums' (parallelQuickSort fuel nums) ∧ nums'.Perm nums ∧
      (nums'.Pairwise (· ≤ ·) ↔ RestInOrder nums) := by
  have hzero : (wrap 0).1 = 0 := by decide
  obtain ⟨nums', h, hrearr, hsorted⟩ :=
    psort_spec (b := wrap 0) hzero.ge (lastIndex_lt nums.length) hfuel
  rw [hzero] at hrearr hsorted
  exact ⟨nums', h, hrearr.perm, hrearr.pairwise_iff hsorted⟩

theorem SortsInEveryOrder.restInOrder (h : SortsInEveryOrder nums) : RestInOrder nums := by
  obtain ⟨n, hn⟩ := h
  obtain ⟨m, hleads, -, hiff⟩ :=
    parallelQuickSort_spec (show nums.length < n + nums.length + 1 by omega)
  obtain ⟨m', -, hsorted, hleads'⟩ := hn (n + nums.length + 1) (by omega)
  exact hiff.1 (hleads.unique hleads' ▸ hsorted)

/-- **`parallelQuickSort` sorts in every order** of the steps of its tasks exactly if what is left
behind the last index is in order. -/
theorem parallelQuickSort_iff (nums : List CInt) : SortsInEveryOrder nums ↔ RestInOrder nums := by
  refine ⟨fun h ↦ h.restInOrder, fun h ↦ ⟨nums.length + 1, fun fuel hfuel ↦ ?_⟩⟩
  obtain ⟨nums', hleads, hperm, hiff⟩ := parallelQuickSort_spec hfuel
  exact ⟨nums', hperm, hiff.2 h, hleads⟩

theorem not_forall_parallelQuickSort : ¬ ∀ nums, SortsInEveryOrder nums := fun h ↦
  not_restInOrder (h _).restInOrder

end ParallelQuickSort
