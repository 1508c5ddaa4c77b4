import Mathlib.Algebra.Order.Group.Int
import MiscCpp.Library.CInt
import MiscCpp.Library.RootedSets

/-!
# The maximum path sum of a tree

`maxPathSum` of `leetcode/tree/maxPathSum.cc`, with exact sums.

The inner function calls `maxPathSum` again, and not itself, for both children, so what is added to
the value of a node is the result for a whole subtree and not the best way down. What comes out is
the greatest sum of a connected set of nodes that contains the root (`maxPathSum_eq_gain`). This
need not be a path, and the best path need not contain the root (`findsMax_iff`).
-/

open CInt LinkedTree RootedSets

namespace MaxPathSum

variable {ι : Type*}

/-- `maxSum` reads `root` and not its argument, and its own result is not used. -/
def maxPathSum (val : ι → CInt) : BinaryTree ι → ℤ
  | .nil => 0
  | .node root left right =>
    let l := max 0 (maxPathSum val left)
    let r := max 0 (maxPathSum val right)
    let sum := l + r + (val root).1
    max INT_MIN.1 sum

variable {val : ι → CInt} {t : BinaryTree ι}

/-- The initial value of `res` does not matter. -/
theorem maxPathSum_eq_gain (val : ι → CInt) (t : BinaryTree ι) :
    maxPathSum val t = gain (fun a ↦ (val a).1) t := by
  induction t with
  | nil => rfl
  | node a l r ihl ihr =>
    have hval := (val a).2.1
    have hmin : INT_MIN.1 = -2 ^ 31 := rfl
    rw [maxPathSum, gain, ihl, ihr]
    omega

abbrev NonemptyTree (ι : Type*) := {t : BinaryTree ι // (inorder t).Nodup ∧ t ≠ .nil}

theorem isGreatest_maxPathSum [DecidableEq ι] (val : ι → CInt) (t : NonemptyTree ι) :
    IsGreatest (rootedSums (fun a ↦ (val a).1) t.1) (maxPathSum val t.1) := by
  obtain ⟨t, hnodup, hne⟩ := t
  rw [maxPathSum_eq_gain]
  cases t with
  | nil => exact absurd rfl hne
  | node a l r => exact isGreatest_gain hnodup

/-- The greatest sum over a path is returned. -/
def FindsMax (val : ι → CInt) (t : NonemptyTree ι) : Prop :=
  IsGreatest (pathSums (fun a ↦ (val a).1) t.1) (maxPathSum val t.1)

/-- **`maxPathSum`** returns the greatest path sum exactly if no connected set of nodes with the
root has a greater sum than all paths, and no path has a greater sum than all these sets. -/
theorem findsMax_iff [DecidableEq ι] (val : ι → CInt) (t : NonemptyTree ι) :
    FindsMax val t ↔
      (∀ x ∈ rootedSums (fun a ↦ (val a).1) t.1,
        ∃ y ∈ pathSums (fun a ↦ (val a).1) t.1, x ≤ y) ∧
      ∀ y ∈ pathSums (fun a ↦ (val a).1) t.1,
        ∃ x ∈ rootedSums (fun a ↦ (val a).1) t.1, y ≤ x := by
  obtain ⟨hmem, hupper⟩ := isGreatest_maxPathSum val t
  constructor
  · intro h
    exact ⟨fun x hx ↦ ⟨_, h.1, hupper hx⟩, fun y hy ↦ ⟨_, hmem, h.2 hy⟩⟩
  · rintro ⟨hrooted, hpath⟩
    have hle : ∀ y ∈ pathSums (fun a ↦ (val a).1) t.1, y ≤ maxPathSum val t.1 := by
      intro y hy
      obtain ⟨x, hx, hyx⟩ := hpath y hy
      exact hyx.trans (hupper hx)
    obtain ⟨y, hy, hge⟩ := hrooted _ hmem
    exact ⟨le_antisymm hge (hle y hy) ▸ hy, hle⟩

/-- A root with the value `-1` and a left child with the value `5`. -/
theorem not_forall_findsMax : ¬ ∀ (val : ℕ → CInt) (t : NonemptyTree ℕ), FindsMax val t := by
  intro h
  have hgreatest := h (fun a ↦ if a = 0 then wrap (-1) else wrap 5)
    ⟨.node 0 (.node 1 .nil .nil) .nil, by decide, by decide⟩
  -- The path is the child.
  have hle := hgreatest.2 ⟨1, 1, .nil, by decide, SimpleGraph.Walk.IsPath.nil, rfl⟩
  exact absurd hle (by decide)

end MaxPathSum
