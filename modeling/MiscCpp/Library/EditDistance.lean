import MiscCpp.Library.StepCount

/-!
# Edit distance

An edit inserts, deletes or replaces one element anywhere in a list. The recursion `distance` looks
only at the first elements of both lists; no edit lowers it by more than 1 (`distance_edit_le`), and
as many edits as it says are enough (`takes_distance`). So it is the smallest number of edits, in
any order (`isLeast_distance`).

If the first elements are equal, the recursion need not look at the other two cases
(`distance_cons_self`). The same holds for the last elements (`distance_concat_concat`), as the
edits can be read backwards.
-/

namespace EditDistance

open StepCount

variable {α : Type*}

/-- One edit of a word: a letter put in, taken out, or replaced by another. -/
inductive Edit : List α → List α → Prop
  | insert (u v : List α) (x : α) : Edit (u ++ v) (u ++ x :: v)
  | delete (u v : List α) (x : α) : Edit (u ++ x :: v) (u ++ v)
  | replace (u v : List α) (x y : α) : Edit (u ++ x :: v) (u ++ y :: v)

/-- An edit of the tail is an edit of the whole word. -/
theorem Edit.cons {u v : List α} (z : α) (h : Edit u v) : Edit (z :: u) (z :: v) := by
  cases h with
  | insert u v x => exact .insert (z :: u) v x
  | delete u v x => exact .delete (z :: u) v x
  | replace u v x y => exact .replace (z :: u) v x y

/-- An edit read from the back is an edit. -/
theorem Edit.reverse {u v : List α} (h : Edit u v) : Edit u.reverse v.reverse := by
  cases h with
  | insert u v x => simpa using Edit.insert v.reverse u.reverse x
  | delete u v x => simpa using Edit.delete v.reverse u.reverse x
  | replace u v x y => simpa using Edit.replace v.reverse u.reverse x y

theorem takes_cons {k : ℕ} {u v : List α} (z : α) (h : Takes Edit k u v) :
    Takes Edit k (z :: u) (z :: v) := h.map fun _ _ ↦ .cons z

/-- Reversing both words changes nothing about how many edits lead from one to the other. -/
theorem takes_reverse_iff {k : ℕ} {u v : List α} :
    Takes Edit k u.reverse v.reverse ↔ Takes Edit k u v := by
  constructor
  · intro h
    have hrev := h.map (f := List.reverse) fun _ _ ↦ Edit.reverse
    rwa [List.reverse_reverse, List.reverse_reverse] at hrev
  · exact fun h ↦ h.map fun _ _ ↦ Edit.reverse

/-- A word is built from the empty one by one insertion for each letter. -/
theorem takes_insert (ys : List α) : Takes Edit ys.length [] ys := by
  induction ys with
  | nil => exact .refl []
  | cons y ys ih => exact .head (.insert [] [] y) (takes_cons y ih)

/-- A word is emptied by one deletion for each letter. -/
theorem takes_delete (xs : List α) : Takes Edit xs.length xs [] := by
  induction xs with
  | nil => exact .refl []
  | cons x xs ih => exact .head (.delete [] xs x) ih

variable [DecidableEq α]

/-- The edit distance, by recursion on the two first letters: equal ones cost nothing, and unequal
ones cost one edit and the best of the three ways on. -/
def distance : List α → List α → ℕ
  | [], ys => ys.length
  | x :: xs, [] => xs.length + 1
  | x :: xs, y :: ys =>
    min (distance xs ys + if x = y then 0 else 1)
      (min (distance xs (y :: ys)) (distance (x :: xs) ys) + 1)

variable {xs xs' ys : List α} {x y z : α}

theorem distance_nil_right (xs : List α) : distance xs [] = xs.length := by
  cases xs with
  | nil => rw [distance]
  | cons x xs => rw [distance, List.length_cons]

/-! ### One element -/

/-- One more letter on the left costs at most one more edit. -/
theorem distance_cons_left_le (x : α) (xs ys : List α) :
    distance (x :: xs) ys ≤ distance xs ys + 1 := by
  cases ys with
  | nil => rw [distance_nil_right, distance_nil_right, List.length_cons]
  | cons y ys =>
    rw [distance]
    omega

/-- One more letter on the right costs at most one more edit. -/
theorem distance_cons_right_le (y : α) (xs ys : List α) :
    distance xs (y :: ys) ≤ distance xs ys + 1 := by
  cases xs with
  | nil => rw [distance, distance, List.length_cons]
  | cons x xs =>
    rw [distance]
    omega

/-- One more letter on both sides costs at most one more edit. -/
theorem distance_cons_cons_le (x y : α) (xs ys : List α) :
    distance (x :: xs) (y :: ys) ≤ distance xs ys + 1 := by
  rw [distance]
  split <;> omega

/-- What is known of the distance to a list in each of the cases of the recursion. -/
theorem le_distance_cons_cons {d : ℕ} (hboth : d ≤ distance xs ys + if x = y then 0 else 1)
    (hleft : d ≤ distance xs (y :: ys) + 1) (hright : d ≤ distance (x :: xs) ys + 1) :
    d ≤ distance (x :: xs) (y :: ys) := by
  rw [distance]
  omega

/-- Dropping the first letter on the left costs at most one more edit. -/
theorem distance_le_cons_left (x : α) (xs ys : List α) :
    distance xs ys ≤ distance (x :: xs) ys + 1 := by
  induction ys with
  | nil =>
    rw [distance_nil_right, distance_nil_right, List.length_cons]
    omega
  | cons y ys ih =>
    have hle := distance_cons_right_le y xs ys
    have hall : distance xs (y :: ys) - 1 ≤ distance (x :: xs) (y :: ys) :=
      le_distance_cons_cons (by omega) (by omega) (by omega)
    omega

/-- The distance does not depend on the order of the words, since every edit has an inverse. -/
theorem distance_comm (xs ys : List α) : distance xs ys = distance ys xs := by
  induction xs, ys using distance.induct with
  | case1 ys => rw [distance, distance_nil_right]
  | case2 x xs => rw [distance_nil_right, distance]
  | case3 x xs y ys hboth hleft hright =>
    rw [distance, distance, hboth, hleft, hright, Nat.min_comm (distance (y :: ys) xs),
      if_congr eq_comm rfl rfl]

/-- Dropping the first letter on the right costs at most one more edit. -/
theorem distance_le_cons_right (y : α) (xs ys : List α) :
    distance xs ys ≤ distance xs (y :: ys) + 1 := by
  rw [distance_comm xs, distance_comm xs]
  exact distance_le_cons_left y ys xs

/-- **The exchange**: with equal first elements, the other cases are not smaller. -/
theorem distance_cons_self (x : α) (xs ys : List α) :
    distance (x :: xs) (x :: ys) = distance xs ys := by
  have hleft := distance_le_cons_right x xs ys
  have hright := distance_le_cons_left x xs ys
  rw [distance, if_pos rfl]
  omega

/-- The recursion at unequal first letters: one edit and the least of the three neighbours. -/
theorem distance_cons_of_ne (h : x ≠ y) (xs ys : List α) :
    distance (x :: xs) (y :: ys) =
      min (distance xs ys) (min (distance xs (y :: ys)) (distance (x :: xs) ys)) + 1 := by
  rw [distance, if_neg h]
  omega

theorem distance_self (xs : List α) : distance xs xs = 0 := by
  induction xs with
  | nil => rw [distance, List.length_nil]
  | cons x xs ih => rw [distance_cons_self, ih]

/-- No distance exceeds the longer of the two lengths. -/
theorem distance_le (xs ys : List α) : distance xs ys ≤ max xs.length ys.length := by
  induction xs, ys using distance.induct with
  | case1 ys =>
    rw [distance]
    exact Nat.le_max_right _ _
  | case2 x xs =>
    rw [distance]
    exact Nat.le_max_left _ _
  | case3 x xs y ys hboth hleft hright =>
    have hle := distance_cons_cons_le x y xs ys
    rw [List.length_cons, List.length_cons]
    omega

/-! ### One edit -/

/-- Replacing the first letter moves the distance by at most one. -/
theorem distance_replace_le (x y : α) (xs ys : List α) :
    distance (x :: xs) ys ≤ distance (y :: xs) ys + 1 := by
  induction ys with
  | nil =>
    rw [distance_nil_right, distance_nil_right, List.length_cons, List.length_cons]
    omega
  | cons z ys ih =>
    have hboth := distance_cons_cons_le x z xs ys
    have hleft := distance_cons_left_le x xs (z :: ys)
    have hright := distance_cons_right_le z (x :: xs) ys
    have hall : distance (x :: xs) (z :: ys) - 1 ≤ distance (y :: xs) (z :: ys) :=
      le_distance_cons_cons (by omega) (by omega) (by omega)
    omega

/-- An element in front of both lists. -/
theorem distance_context_le (z : α) (h : ∀ ys, distance xs ys ≤ distance xs' ys + 1)
    (ys : List α) : distance (z :: xs) ys ≤ distance (z :: xs') ys + 1 := by
  induction ys with
  | nil =>
    have hnil := h []
    rw [distance_nil_right, distance_nil_right] at hnil ⊢
    exact Nat.succ_le_succ hnil
  | cons w ys ih =>
    have hboth := h ys
    have hleft := h (w :: ys)
    have hall : distance (z :: xs) (w :: ys) - 1 ≤ distance (z :: xs') (w :: ys) := by
      rw [distance]
      exact le_distance_cons_cons (by omega) (by omega) (by omega)
    omega

/-- **No edit** lowers the distance by more than 1. -/
theorem distance_edit_le (h : Edit xs xs') (ys : List α) :
    distance xs ys ≤ distance xs' ys + 1 := by
  have hcontext {v v' : List α} (h : ∀ ys, distance v ys ≤ distance v' ys + 1) (u : List α) :
      ∀ ys, distance (u ++ v) ys ≤ distance (u ++ v') ys + 1 := by
    induction u with
    | nil => exact h
    | cons z u ih => exact distance_context_le z ih
  cases h with
  | insert u v x => exact hcontext (distance_le_cons_left x v) u ys
  | delete u v x => exact hcontext (distance_cons_left_le x v) u ys
  | replace u v x y => exact hcontext (distance_replace_le x y v) u ys

/-! ### As many edits -/

/-- The distance is reached: so many edits do lead from one word to the other. -/
theorem takes_distance (xs ys : List α) : Takes Edit (distance xs ys) xs ys := by
  induction xs, ys using distance.induct with
  | case1 ys =>
    rw [distance]
    exact takes_insert ys
  | case2 x xs =>
    rw [distance]
    exact takes_delete (x :: xs)
  | case3 x xs y ys hboth hleft hright =>
    by_cases hxy : x = y
    · rw [hxy, distance_cons_self]
      exact takes_cons y hboth
    · rw [distance_cons_of_ne hxy]
      have hreplace := Takes.head (Edit.replace [] xs x y) (takes_cons y hboth)
      have hdelete := Takes.head (Edit.delete [] xs x) hleft
      have hinsert := Takes.head (Edit.insert [] (x :: xs) y) (takes_cons y hright)
      rcases Nat.le_total (distance xs (y :: ys)) (distance (x :: xs) ys) with hle | hle
      · rw [Nat.min_eq_left hle]
        rcases Nat.le_total (distance xs ys) (distance xs (y :: ys)) with hle' | hle'
        · rwa [Nat.min_eq_left hle']
        · rwa [Nat.min_eq_right hle']
      · rw [Nat.min_eq_right hle]
        rcases Nat.le_total (distance xs ys) (distance (x :: xs) ys) with hle' | hle'
        · rwa [Nat.min_eq_left hle']
        · rwa [Nat.min_eq_right hle']

/-- **The distance** is the smallest number of edits. -/
theorem isLeast_distance (xs ys : List α) :
    IsLeast {k | Takes Edit k xs ys} (distance xs ys) := by
  have hstep (u v : List α) (h : Edit u v) : (distance · ys) u ≤ (distance · ys) v + 1 :=
    distance_edit_le h ys
  exact isLeast_of_bound hstep (distance_self ys) (takes_distance xs ys)

/-! ### From the last elements -/

/-- The distance is the same read from the back. -/
theorem distance_reverse (xs ys : List α) :
    distance xs.reverse ys.reverse = distance xs ys := by
  have hrev := isLeast_distance xs.reverse ys.reverse
  simp only [takes_reverse_iff] at hrev
  exact hrev.unique (isLeast_distance xs ys)

/-- Equal last letters cost nothing. -/
theorem distance_concat_self (x : α) (xs ys : List α) :
    distance (xs ++ [x]) (ys ++ [x]) = distance xs ys := by
  rw [← distance_reverse, List.reverse_concat, List.reverse_concat, distance_cons_self,
    distance_reverse]

/-- The recursion at unequal last letters, which is the one a table over prefixes computes. -/
theorem distance_concat_of_ne (h : x ≠ y) (xs ys : List α) :
    distance (xs ++ [x]) (ys ++ [y]) =
      min (distance xs ys) (min (distance xs (ys ++ [y])) (distance (xs ++ [x]) ys)) + 1 := by
  rw [← distance_reverse, List.reverse_concat, List.reverse_concat, distance_cons_of_ne h,
    ← List.reverse_concat, ← List.reverse_concat, distance_reverse, distance_reverse,
    distance_reverse]

end EditDistance
