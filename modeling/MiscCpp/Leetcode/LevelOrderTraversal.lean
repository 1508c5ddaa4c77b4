import MiscCpp.Library.CInt
import MiscCpp.Library.Machine
import MiscCpp.Library.TreeLevels

/-!
# The levels of a tree, in vectors that are used as stacks

`levelOrderTraversal` of `leetcode/tree/levelOrderTraversal.cc`. A vector that has been moved from
is empty.

The right child is appended before the left one, and the vector is taken from its back, so the
children of each node come out from left to right, but the nodes of a level are expanded in the
reverse order (`loop_eq`). What is returned is right about narrow trees only, unless values occur
several times (`listsLevels_iff`, `levelOrderTraversal_eq_iff_narrow`).
-/

open Machine TreeLevels

namespace LevelOrderTraversal

/-- `next_level.emplace_back(p)`, if `p` is not null. -/
def emplace (next_level : List (BinaryTree CInt)) : BinaryTree CInt → List (BinaryTree CInt)
  | .nil => next_level
  | p => next_level ++ [p]

/-- The body of the inner loop, for the last node of `cur_level`: `next_level` and `vec`. -/
def visit (s : List (BinaryTree CInt) × List CInt) :
    BinaryTree CInt → Option (List (BinaryTree CInt) × List CInt)
  | .nil => none
  | .node val left right => some (emplace (emplace s.1 right) left, s.2 ++ [val])

/-- The outer loop, for `fuel` turns; the inner one takes `cur_level` from the back. -/
def loop : ℕ → List (BinaryTree CInt) → List (List CInt) → Option (List (List CInt))
  | 0, _, _ => none
  | fuel + 1, cur_level, res => do
    let (next_level, vec) ← exec visit ([], []) cur_level.reverse
    let res := res ++ [vec]
    if next_level.isEmpty then some res else loop fuel next_level res

def levelOrderTraversal (fuel : ℕ) : BinaryTree CInt → Option (List (List CInt))
  | .nil => some []
  | root => loop fuel [root] []

example : levelOrderTraversal 3 (.node (.INT_MAX) (.node .INT_MIN .nil .nil) .nil) =
    some [[.INT_MAX], [.INT_MIN]] := by decide

/-! ### The loops -/

variable {t : BinaryTree CInt} {next : List (BinaryTree CInt)} {vec : List CInt}
  {f : List (BinaryTree CInt)} {res : List (List CInt)} {d fuel : ℕ}

theorem emplace_eq (next : List (BinaryTree CInt)) (t : BinaryTree CInt) :
    emplace next t = next ++ level 0 t := by
  cases t with
  | nil => exact (List.append_nil next).symm
  | node a l r => rfl

/-- **The inner loop** appends the children, from right to left, and the values. -/
theorem exec_visit (hf : ∀ t ∈ f, t ≠ .nil) :
    exec visit (next, vec) f =
      some (next ++ (f.reverse.flatMap children).reverse, vec ++ roots f) := by
  induction f generalizing next vec with
  | nil => rw [exec_nil, List.reverse_nil, List.flatMap_nil, List.reverse_nil, List.append_nil,
      roots, List.filterMap_nil, List.append_nil]
  | cons t f ih =>
    obtain ⟨ht, htail⟩ := List.forall_mem_cons.1 hf
    cases t with
    | nil => exact absurd rfl ht
    | node a l r =>
      have hvisit : visit (next, vec) (.node a l r) =
          some ((next ++ level 0 r) ++ level 0 l, vec ++ [a]) := by
        rw [visit, emplace_eq, emplace_eq]
      have hroots : roots (.node a l r :: f) = a :: roots f := rfl
      have hchildren : (children (.node a l r)).reverse = level 0 r ++ level 0 l := by
        rw [children, List.reverse_append, reverse_level_zero, reverse_level_zero]
      rw [exec_cons, hvisit, Option.bind_some, ih htail, List.reverse_cons, List.flatMap_append,
        List.flatMap_singleton, List.reverse_append, hchildren, hroots]
      simp only [List.append_assoc, List.singleton_append]

/-- **The outer loop** goes on with the level that is exchanged for. -/
theorem loop_eq (hd : d < t.height) (hfuel : t.height ≤ d + fuel) :
    loop fuel (level d (exchange d t)).reverse res =
      some (res ++ (List.range' d (t.height - d)).map fun d ↦ values d (exchange d t)) := by
  induction fuel generalizing d res with
  | zero => omega
  | succ fuel ih =>
    obtain ⟨n, hn⟩ : ∃ n, t.height - d = n + 1 := Nat.exists_eq_succ_of_ne_zero (by omega)
    rw [loop, List.reverse_reverse, exec_visit fun s ↦ ne_nil_of_mem_level, flatMap_children,
      List.nil_append, List.nil_append, hn, List.range'_succ, List.map_cons, Option.bind_eq_bind,
      Option.bind_some]
    dsimp only
    have hempty : (level (d + 1) (exchange (d + 1) t)).reverse.isEmpty ↔ t.height ≤ d + 1 := by
      rw [List.isEmpty_iff, List.reverse_eq_nil_iff, level_exchange_eq_nil_iff]
    by_cases hle : t.height ≤ d + 1
    · obtain rfl : n = 0 := by omega
      rw [if_pos (hempty.2 hle)]
      rfl
    · have hn' : n = t.height - (d + 1) := by omega
      rw [if_neg (mt hempty.1 hle), ih (by omega) (by omega), hn', List.append_assoc]
      rfl

/-! ### The function -/

theorem levelOrderTraversal_eq (hfuel : t.height ≤ fuel) :
    levelOrderTraversal fuel t =
      some ((List.range t.height).map fun d ↦ values d (exchange d t)) := by
  cases t with
  | nil => rfl
  | node a l r =>
    rw [List.range_eq_range']
    exact loop_eq (t := .node a l r) (d := 0) (Nat.succ_pos _) (by omega)

theorem levelOrderTraversal_eq_iff (hfuel : t.height ≤ fuel) :
    levelOrderTraversal fuel t = some ((List.range t.height).map fun d ↦ values d t) ↔
      ∀ d, values d (exchange d t) = values d t := by
  rw [levelOrderTraversal_eq hfuel, Option.some_inj, List.map_inj_left]
  refine ⟨fun h d ↦ ?_, fun h d _ ↦ h d⟩
  by_cases hd : d < t.height
  · exact h d (List.mem_range.2 hd)
  · rw [values_exchange_eq_nil (not_lt.1 hd), values_eq_nil_iff.2 (not_lt.1 hd)]

/-- If no level has a value twice, the levels are returned exactly for the trees in which no node
has two children that both have children. -/
theorem levelOrderTraversal_eq_iff_narrow (h : ∀ d, (values d t).Nodup) (hfuel : t.height ≤ fuel) :
    levelOrderTraversal fuel t = some ((List.range t.height).map fun d ↦ values d t) ↔ Narrow t :=
  (levelOrderTraversal_eq_iff hfuel).trans (forall_values_exchange_iff h)

/-- The values of each level are returned, from left to right. -/
def ListsLevels (t : BinaryTree CInt) : Prop :=
  ∃ n, ∀ fuel ≥ n,
    levelOrderTraversal fuel t = some ((List.range t.height).map fun d ↦ values d t)

/-- **`levelOrderTraversal`** returns the levels exactly if the order of the values in a level stays
the same when the children of the nodes an even distance above it are exchanged. -/
theorem listsLevels_iff (t : BinaryTree CInt) :
    ListsLevels t ↔ ∀ d, values d (exchange d t) = values d t := by
  constructor
  · rintro ⟨n, hn⟩
    exact (levelOrderTraversal_eq_iff (Nat.le_add_left t.height n)).1 (hn _ (Nat.le_add_right n _))
  · exact fun h ↦ ⟨t.height, fun fuel hfuel ↦ (levelOrderTraversal_eq_iff hfuel).2 h⟩

/-- A root with two children that have one child each. -/
theorem not_forall_listsLevels : ¬ ∀ t, ListsLevels t := by
  intro h
  obtain ⟨n, hn⟩ := h (.node (CInt.wrap 3)
    (.node (CInt.wrap 9) (.node (CInt.wrap 1) .nil .nil) .nil)
    (.node (CInt.wrap 20) (.node (CInt.wrap 15) .nil .nil) .nil))
  have heq := (levelOrderTraversal_eq_iff (Nat.le_add_left _ n)).1 (hn _ (Nat.le_add_right n _)) 2
  exact absurd heq (by decide)

end LevelOrderTraversal
