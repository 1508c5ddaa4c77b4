import Mathlib.Data.List.Sort
import Mathlib.Data.Nat.Notation
import Mathlib.Tactic.Common

/-!
# Sorting and searching with a comparison function

What is documented of a sorting and of a searching function that get a comparison function, and a
function of each kind that has it.

A searching function looks at the list only through the comparison of its key with the elements, so
it is a function of the outcomes of these comparisons. It may rely on their order: first the
elements that are less than the key, then those that are equal to it, then the greater ones.
-/

namespace Search

variable {α : Type*} {cmp : α → α → Ordering}

/-- The result is a permutation of the argument, in ascending order. -/
structure Sorts (cmp : α → α → Ordering) (sort : List α → List α) : Prop where
  perm (l : List α) : (sort l).Perm l
  sorted (l : List α) : (sort l).Pairwise fun a b ↦ (cmp a b).isLE

/-- A sort in place, with enough turns for its loops: it ends with the elements of the list in
ascending order. -/
def SortsInPlace [LE α] (sort : ℕ → List α → Option (List α)) (l : List α) : Prop :=
  ∃ n, ∀ fuel ≥ n, ∃ l', sort fuel l = some l' ∧ l'.Perm l ∧ l'.Pairwise (· ≤ ·)

/-- The outcomes of comparing a key with the elements of a list: where it is greater come first,
then where it is equal, then where it is less. -/
def Partitioned (os : List Ordering) : Prop :=
  os.Pairwise fun o o' ↦ (o = .lt → o' = .lt) ∧ (o = .eq → o' ≠ .gt)

/-- The position of some outcome that is `eq`, if there is one. -/
structure Searches (search : List Ordering → Option ℕ) : Prop where
  found {os : List Ordering} {i : ℕ} (h : search os = some i) : os[i]? = some .eq
  complete {os : List Ordering} (hos : Partitioned os) (h : .eq ∈ os) : (search os).isSome

/-- The comparisons of a key with a sorted list are partitioned. -/
theorem partitioned_of_sorted [Std.TransCmp cmp] {l : List α}
    (hl : l.Pairwise fun a b ↦ (cmp a b).isLE) (key : α) : Partitioned (l.map (cmp key)) := by
  refine List.pairwise_map.2 (hl.imp fun {a b} hab ↦ ⟨fun h ↦ ?_, fun h hgt ↦ ?_⟩)
  · exact Std.TransCmp.lt_of_lt_of_isLE h hab
  · have hle : (cmp key b).isLE := Std.TransCmp.isLE_trans (by rw [h]; rfl) hab
    rw [hgt] at hle
    cases hle

/-! ### Binary search -/

/-- The loop of a binary search between `lo` and `hi`. -/
def binaryLoop (os : List Ordering) : ℕ → ℕ → ℕ → Option ℕ
  | 0, _, _ => none
  | fuel + 1, lo, hi =>
    if lo < hi then
      match os[(lo + hi) / 2]? with
      | none => none
      | some .eq => some ((lo + hi) / 2)
      | some .lt => binaryLoop os fuel lo ((lo + hi) / 2)
      | some .gt => binaryLoop os fuel ((lo + hi) / 2 + 1) hi
    else none

/-- The search in all of the list. -/
def binarySearch (os : List Ordering) : Option ℕ := binaryLoop os os.length 0 os.length

/-- What the search finds is equal. -/
theorem binaryLoop_found {os : List Ordering} {fuel lo hi i : ℕ}
    (h : binaryLoop os fuel lo hi = some i) : os[i]? = some .eq := by
  induction fuel generalizing lo hi with
  | zero => cases h
  | succ fuel ih =>
    rw [binaryLoop] at h
    split at h
    · split at h
      · cases h
      next hmid => exact Option.some.inj h ▸ hmid
      · exact ih h
      · exact ih h
    · cases h

/-- The place of an outcome that is `eq` stays between the bounds. -/
theorem binaryLoop_complete {os : List Ordering} (hos : Partitioned os) {fuel lo hi i : ℕ}
    (hi' : hi ≤ os.length) (hlo : lo ≤ i) (hhi : i < hi) (hfuel : hi ≤ lo + fuel)
    (heq : os[i]? = some .eq) : (binaryLoop os fuel lo hi).isSome := by
  have hpair := List.pairwise_iff_getElem.1 hos
  obtain ⟨hlen, heq'⟩ := List.getElem?_eq_some_iff.1 heq
  induction fuel generalizing lo hi with
  | zero => omega
  | succ fuel ih =>
    have hmid : (lo + hi) / 2 < os.length := by omega
    rw [binaryLoop, if_pos (by omega), List.getElem?_eq_getElem hmid]
    cases ho : os[(lo + hi) / 2] with
    | eq => rfl
    | lt =>
      refine ih (by omega) hlo ?_ (by omega)
      -- Behind an outcome that is `lt` there are only such.
      rcases Nat.lt_trichotomy i ((lo + hi) / 2) with hlt | rfl | hgt
      · exact hlt
      · rw [ho] at heq'
        cases heq'
      · rw [(hpair _ _ hmid hlen hgt).1 ho] at heq'
        cases heq'
    | gt =>
      refine ih hi' ?_ hhi (by omega)
      rcases Nat.lt_trichotomy i ((lo + hi) / 2) with hlt | rfl | hgt
      · exact absurd ho ((hpair _ _ hlen hmid hlt).2 heq')
      · rw [ho] at heq'
        cases heq'
      · exact hgt

/-- **Binary search searches.** -/
theorem searches_binarySearch : Searches binarySearch where
  found h := binaryLoop_found h
  complete {os} hos h := by
    obtain ⟨i, hi, heq⟩ := List.mem_iff_getElem.1 h
    exact binaryLoop_complete hos (Nat.le_refl _) (Nat.zero_le i) hi (by omega)
      (List.getElem?_eq_some_iff.2 ⟨hi, heq⟩)

/-- **Insertion sort sorts.** -/
theorem sorts_insertionSort [Std.TransCmp cmp] :
    Sorts cmp fun l ↦ l.insertionSort fun a b ↦ (cmp a b).isLE where
  perm l := List.perm_insertionSort _ l
  sorted l := by
    have : Std.Total fun a b ↦ ((cmp a b).isLE : Prop) := ⟨fun a b ↦ by
      have hswap : cmp b a = (cmp a b).swap := Std.OrientedCmp.eq_swap
      rw [hswap]
      cases cmp a b <;> simp⟩
    have : IsTrans α fun a b ↦ ((cmp a b).isLE : Prop) := ⟨fun _ _ _ ↦ Std.TransCmp.isLE_trans⟩
    exact List.pairwise_insertionSort _ l

end Search
