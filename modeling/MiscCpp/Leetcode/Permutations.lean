import MiscCpp.Library.CInt
import MiscCpp.Std.Permutation

/-!
# All the permutations

`nextPermutation` and `permute` of `leetcode/other/permutations.cc`. Each turn of the loop of
`permute` records the arrangement it has and goes to the next one, so what it records from an
arrangement on are the arrangements from there on (`permuteLoop_eq`).
-/

namespace Permutations

open Arrangement Permutation

section Next

variable {α : Type*} [LinearOrder α] {l l' : List α}

def nextPermutation (l : List α) : Option (Bool × List α) := rearrange (fun x y ↦ x < y) l

/-- What `nextPermutation` returns and makes of the range. -/
inductive Advanced (l : List α) : Bool × List α → Prop
  | next {l' : List α} (h : IsNext l l') : Advanced l (true, l')
  | last (h : IsLast l) (hfirst : l.reverse.Pairwise (· ≤ ·)) : Advanced l (false, l.reverse)

theorem nextPermutation_spec (l : List α) : ∃ r, nextPermutation l = some r ∧ Advanced l r := by
  obtain ⟨r, hr⟩ := Rearranged.exists (fun x y : α ↦ x < y) l
  refine ⟨r, rearrange_eq_some.2 hr, ?_⟩
  cases hr with
  | split pre hab hys hhead hchain =>
    have hdesc := compares_lt.pairwise hchain
    simp only [decide_eq_false_iff_not, not_lt, decide_eq_true_eq] at hab hys hdesc
    exact .next ((isNext_of_split hab hys hdesc).append pre)
  | wrap hchain =>
    have hdesc := compares_lt.pairwise hchain
    simp only [decide_eq_false_iff_not, not_lt] at hdesc
    exact .last (isLast_of_pairwise_ge hdesc) (List.pairwise_reverse.2 hdesc)

end Next

/-! ### Enumeration -/

/-- The turns of `do … while (nextPermutation(nums.begin(), nums.end()))`, as many as `fuel` allows,
with `res` and `nums` at the end. -/
def permuteLoop : ℕ → List CInt → List (List CInt) → Option (List (List CInt) × List CInt)
  | 0, _, _ => none
  | fuel + 1, nums, res =>
    match nextPermutation nums with
    | none => none
    | some (true, nums') => permuteLoop fuel nums' (res ++ [nums])
    | some (false, nums') => some (res ++ [nums], nums')

/-- `std::sort(nums.begin(), nums.end())` -/
def sort (nums : List CInt) : List CInt := nums.mergeSort (fun x y ↦ x.1 ≤ y.1)

def permute (fuel : ℕ) (nums : List CInt) : Option (List (List CInt) × List CInt) :=
  permuteLoop fuel (sort nums) []

theorem permuteLoop_eq (nums : List CInt) :
    ∃ rest first, (∀ fuel res, following nums < fuel →
        permuteLoop fuel nums res = some (res ++ rest, first)) ∧
      rest.Pairwise (· < ·) ∧ (∀ m, m ∈ rest ↔ m.Perm nums ∧ nums ≤ m) ∧
      first.Perm nums ∧ first.Pairwise (· ≤ ·) := by
  -- by induction on how many arrangements come after `nums`
  induction hn : following nums using Nat.strong_induction_on generalizing nums with
  | _ n ih =>
    obtain ⟨r, hr, hadvanced⟩ := nextPermutation_spec nums
    cases hadvanced with
    | @next nums' hnext =>
      have hfollowing := hnext.following_lt
      obtain ⟨rest, first, hloop, hlt, hmem, hperm, hfirst⟩ :=
        ih (following nums') (hn ▸ hfollowing) nums' rfl
      refine ⟨nums :: rest, first, fun fuel res hfuel ↦ ?_, ?_, fun m ↦ ?_,
        hperm.trans hnext.perm, hfirst⟩
      · obtain ⟨fuel, rfl⟩ : ∃ n, fuel = n + 1 := ⟨fuel - 1, by omega⟩
        simp only [permuteLoop, hr]
        rw [hloop fuel _ (by omega), List.append_assoc, List.singleton_append]
      · exact List.pairwise_cons.2 ⟨fun m hm ↦ hnext.lt.trans_le ((hmem m).1 hm).2, hlt⟩
      · rw [List.mem_cons, hmem, hnext.perm_and_le_iff]
    | last hlast hfirst =>
      refine ⟨[nums], nums.reverse, fun fuel res hfuel ↦ ?_, List.pairwise_singleton _ _,
        fun m ↦ ?_, List.reverse_perm nums, hfirst⟩
      · obtain ⟨fuel, rfl⟩ : ∃ n, fuel = n + 1 := ⟨fuel - 1, by omega⟩
        simp only [permuteLoop, hr]
      · rw [List.mem_singleton, hlast.perm_and_le_iff]

theorem sort_perm (nums : List CInt) : (sort nums).Perm nums := List.mergeSort_perm nums _

theorem sort_pairwise (nums : List CInt) : (sort nums).Pairwise (· ≤ ·) := by
  refine (List.pairwise_mergeSort (fun x y z hxy hyz ↦ ?_) (fun x y ↦ ?_) nums).imp
    fun h ↦ of_decide_eq_true h
  · exact decide_eq_true ((of_decide_eq_true hxy).trans (of_decide_eq_true hyz))
  · simp only [Bool.or_eq_true, decide_eq_true_eq]
    exact le_total x.1 y.1

/-- **Every arrangement once.** The loop ends; it has recorded the arrangements of `nums` in
ascending order, and `nums` is sorted. -/
theorem permute_complete (nums : List CInt) :
    (∃ res fuel₀, (∀ fuel, fuel₀ ≤ fuel → permute fuel nums = some (res, sort nums)) ∧
      res.Pairwise (· < ·) ∧ ∀ m, m ∈ res ↔ m.Perm nums) ∧
    ∀ l : List CInt, ∃ more l', nextPermutation l = some (more, l') ∧
      (more = true → IsNext l l') ∧ (more = false ↔ IsLast l) := by
  refine ⟨?_, fun l ↦ ?_⟩
  · obtain ⟨res, first, hloop, hlt, hmem, hperm, hfirst⟩ := permuteLoop_eq (sort nums)
    have hfirst_eq : first = sort nums :=
      hperm.eq_of_pairwise (fun x y _ _ ↦ le_antisymm) hfirst (sort_pairwise nums)
    refine ⟨res, following (sort nums) + 1, fun fuel hfuel ↦ ?_, hlt, fun m ↦ ?_⟩
    · rw [permute, hloop fuel [] hfuel, List.nil_append, hfirst_eq]
    · rw [hmem]
      constructor
      · exact fun h ↦ h.1.trans (sort_perm nums)
      · intro hm
        have hm' := hm.trans (sort_perm nums).symm
        exact ⟨hm', le_of_pairwise_le (sort_pairwise nums) hm'⟩
  · obtain ⟨r, hr, hadvanced⟩ := nextPermutation_spec l
    cases hadvanced with
    | @next l' hnext =>
      refine ⟨true, l', hr, fun _ ↦ hnext, iff_of_false Bool.noConfusion fun hlast ↦ ?_⟩
      exact not_lt_of_ge (hlast l' hnext.perm) hnext.lt
    | last hlast _ => exact ⟨false, l.reverse, hr, Bool.noConfusion, iff_of_true rfl hlast⟩

end Permutations
