import MiscCpp.Struct.Tree

/-!
# Traversals of a tree with a stack, and the check of a search tree

`Tree::PreorderTraversal` and `Tree::PostorderTraversal` are one loop, `stackLoop`, with the
children taken in the two possible orders; the second one is reversed in the end. So the lemma about
the loop is stated once, for any two functions in the place of `left` and `right`
(`stackLoop_tree`), and used for the tree and for its mirror image.

`Tree::IsBinarySearchTree` compares neighbours of the inorder sequence, which is sorted exactly if
each value is between those of the two subtrees (`sorted_values_iff`).
-/

open LinkedTree

namespace Struct

variable {ι : Type}

namespace Tree

variable (s : Tree ι)

/-! ### The functions -/

/-- `if (node) stk.push(node)` -/
def push : Option ι → List ι → List ι
  | none, stk => stk
  | some node, stk => node :: stk

/-- The loop of `PreorderTraversal` and `PostorderTraversal`, which pushes the child `first` and
then the child `second`. -/
def stackLoop (first second : TreeNode ι → Option ι) :
    ℕ → List ι → List CInt → Option (List CInt)
  | 0, _, _ => none
  | _ + 1, [], ret => some ret
  | fuel + 1, node :: stk, ret => do
    let x ← s.node node
    stackLoop first second fuel (push (second x) (push (first x) stk)) (ret ++ [x.value])

/-- The traversal with a stack, the right child below the left one. -/
def preorderTraversal (fuel : ℕ) : Option (List CInt) :=
  s.stackLoop TreeNode.right TreeNode.left fuel [s.root] []

/-- The traversal in preorder from right to left, reversed. -/
def postorderTraversal (fuel : ℕ) : Option (List CInt) :=
  (s.stackLoop TreeNode.left TreeNode.right fuel [s.root] []).map List.reverse

/-- `std::is_sorted` -/
def isSorted : List CInt → Bool
  | [] => true
  | [_] => true
  | v :: w :: vs => if w < v then false else isSorted (w :: vs)

/-- The inorder traversal gives increasing values. -/
def isBinarySearchTree [DecidableEq ι] (fuel : ℕ) : Option (Bool × Tree ι) :=
  (s.inorderTraversalMorris fuel).map fun (inorder, s) ↦ (isSorted inorder, s)

/-! ### What they are for -/

/-- The values of the nodes `as`. -/
def valuesOf (as : List ι) : List CInt := as.filterMap fun a ↦ (s.node a).map TreeNode.value

/-- At every node no value on the left is greater and none on the right is less. -/
def IsSearchTree : BinaryTree ι → Prop
  | .nil => True
  | .node a l r =>
    (∀ x, s.node a = some x →
      (∀ v ∈ s.values l, v ≤ x.value) ∧ ∀ v ∈ s.values r, x.value ≤ v) ∧
      IsSearchTree l ∧ IsSearchTree r

end Tree

variable {s : Tree ι} {t l r : BinaryTree ι} {p : Option ι} {a : ι} {x : TreeNode ι}
  {first second : TreeNode ι → Option ι} {fuel : ℕ}

/-! ### The loop with a stack -/

theorem valuesOf_cons (hx : s.node a = some x) (as : List ι) :
    s.valuesOf (a :: as) = x.value :: s.valuesOf as :=
  List.filterMap_cons_some (by rw [hx]; rfl)

theorem valuesOf_append (as bs : List ι) : s.valuesOf (as ++ bs) = s.valuesOf as ++ s.valuesOf bs :=
  List.filterMap_append

/-- **The loop** goes through a subtree and is back at the stack below it. -/
theorem stackLoop_tree (hseg : TreeSeg (fun a ↦ (s.node a).bind second)
      (fun a ↦ (s.node a).bind first) p t none)
    (hnode : ∀ a ∈ inorder t, ∃ x, s.node a = some x) (fuel : ℕ) (stk : List ι)
    (ret : List CInt) :
    s.stackLoop first second (fuel + t.numNodes) (Tree.push p stk) ret =
      s.stackLoop first second fuel stk (ret ++ s.valuesOf (preorder t)) := by
  induction t generalizing p fuel stk ret with
  | nil =>
    obtain rfl := hseg
    rw [preorder, Tree.valuesOf, List.filterMap_nil, List.append_nil]
    rfl
  | node a l r ihl ihr =>
    obtain ⟨hnode_l, ⟨x, hx⟩, hnode_r⟩ := forall_mem_inorder_node.1 hnode
    obtain ⟨rfl, hl, hr⟩ := hseg
    simp only [hx, Option.bind_some] at hl hr
    have hfuel : fuel + (l.numNodes + r.numNodes + 1) = fuel + r.numNodes + l.numNodes + 1 := by
      omega
    rw [BinaryTree.numNodes, hfuel, Tree.push, Tree.stackLoop, hx]
    simp only [Option.bind_eq_bind, Option.bind_some]
    rw [ihl hl hnode_l, ihr hr hnode_r, preorder, valuesOf_cons hx, valuesOf_append,
      List.append_assoc, List.append_assoc, List.singleton_append]

theorem stackLoop_some (hseg : TreeSeg (fun a ↦ (s.node a).bind second)
      (fun a ↦ (s.node a).bind first) (some a) t none)
    (hnode : ∀ a ∈ inorder t, ∃ x, s.node a = some x) (hfuel : t.numNodes < fuel) :
    s.stackLoop first second fuel [a] [] = some (s.valuesOf (preorder t)) := by
  obtain ⟨k, hk⟩ : ∃ k, fuel = k + 1 + t.numNodes := ⟨fuel - t.numNodes - 1, by omega⟩
  rw [hk]
  exact stackLoop_tree hseg hnode (k + 1) [] []

/-- **The traversals with a stack** end, and return the values in the order of the recursion. -/
theorem stackTraversals_eq (h : s.Represents t) (hfuel : t.numNodes < fuel) :
    s.preorderTraversal fuel = some (s.valuesOf (preorder t)) ∧
      s.inorderTraversal fuel = some (s.valuesOf (inorder t)) ∧
      s.postorderTraversal fuel = some (s.valuesOf (postorder t)) := by
  refine ⟨stackLoop_some h.seg h.node hfuel, inorderTraversal_some h hfuel, ?_⟩
  have hnode : ∀ a ∈ inorder (mirror t), ∃ x, s.node a = some x := fun a ha ↦ by
    rw [inorder_mirror, List.mem_reverse] at ha
    exact h.node a ha
  rw [Tree.postorderTraversal, stackLoop_some h.seg.mirror hnode (by rwa [numNodes_mirror]),
    Option.map_some, ← reverse_preorder_mirror, Tree.valuesOf, Tree.valuesOf,
    List.filterMap_reverse]

theorem stackTraversals_eq_test :
    testTree.preorderTraversal 6 =
        some [⟨1, by decide⟩, ⟨2, by decide⟩, ⟨3, by decide⟩, ⟨4, by decide⟩, ⟨5, by decide⟩] ∧
      testTree.inorderTraversal 6 =
        some [⟨2, by decide⟩, ⟨1, by decide⟩, ⟨4, by decide⟩, ⟨3, by decide⟩, ⟨5, by decide⟩] ∧
      testTree.postorderTraversal 6 =
        some [⟨2, by decide⟩, ⟨4, by decide⟩, ⟨5, by decide⟩, ⟨3, by decide⟩, ⟨1, by decide⟩] :=
  stackTraversals_eq (t := .node 0 (.node 1 .nil .nil) (.node 2 (.node 3 .nil .nil)
    (.node 4 .nil .nil))) ⟨by simp [testTree, Tree.left, Tree.right], by decide,
      by simp [testTree]⟩ (by decide)

/-! ### The search tree -/

theorem isSorted_iff (vs : List CInt) : Tree.isSorted vs ↔ vs.Pairwise (· ≤ ·) := by
  rw [← List.isChain_iff_pairwise]
  induction vs with
  | nil => exact iff_of_true rfl .nil
  | cons v vs ih =>
    cases vs with
    | nil => exact iff_of_true rfl (.singleton v)
    | cons w vs =>
      rw [Tree.isSorted, List.isChain_cons_cons, ← ih, ← not_lt]
      split
      next hlt => exact iff_of_false Bool.false_ne_true fun h ↦ h.1 hlt
      next hle => exact ⟨fun h ↦ ⟨hle, h⟩, fun h ↦ h.2⟩

/-- The values between two sorted parts. -/
theorem pairwise_middle {vs ws : List CInt} {v : CInt} :
    (vs ++ v :: ws).Pairwise (· ≤ ·) ↔
      ((∀ u ∈ vs, u ≤ v) ∧ ∀ w ∈ ws, v ≤ w) ∧ vs.Pairwise (· ≤ ·) ∧ ws.Pairwise (· ≤ ·) := by
  rw [List.pairwise_append, List.pairwise_cons]
  constructor
  · rintro ⟨hvs, ⟨hv, hws⟩, hcross⟩
    exact ⟨⟨fun u hu ↦ hcross u hu v List.mem_cons_self, hv⟩, hvs, hws⟩
  · rintro ⟨⟨hle, hge⟩, hvs, hws⟩
    refine ⟨hvs, ⟨hge, hws⟩, fun u hu w hw ↦ ?_⟩
    rcases List.mem_cons.1 hw with rfl | hw
    · exact hle u hu
    · exact (hle u hu).trans (hge w hw)

/-- **The inorder sequence** of a tree is sorted if and only if it is a search tree. -/
theorem sorted_values_iff (hnode : ∀ a ∈ inorder t, ∃ x, s.node a = some x) :
    (s.values t).Pairwise (· ≤ ·) ↔ s.IsSearchTree t := by
  induction t with
  | nil => exact iff_of_true .nil trivial
  | node a l r ihl ihr =>
    obtain ⟨hnode_l, ⟨x, hx⟩, hnode_r⟩ := forall_mem_inorder_node.1 hnode
    rw [values_node hx, pairwise_middle, ihl hnode_l, ihr hnode_r, Tree.IsSearchTree]
    refine and_congr_left fun _ ↦ ⟨fun h y hy ↦ ?_, fun h ↦ h x hx⟩
    obtain rfl := Option.some.inj (hx.symm.trans hy)
    exact h

/-- **`IsBinarySearchTree`** tells whether the tree is a search tree, and leaves it as it is. -/
theorem isBinarySearchTree_spec [DecidableEq ι] (h : s.Represents t)
    (hfuel : 2 * t.numNodes < fuel) :
    ∃ b, s.isBinarySearchTree fuel = some (b, s) ∧ (b = true ↔ s.IsSearchTree t) := by
  refine ⟨Tree.isSorted (s.values t), ?_, (isSorted_iff _).trans (sorted_values_iff h.node)⟩
  rw [Tree.isBinarySearchTree, inorderTraversalMorris_some h hfuel, Option.map_some]

theorem isBinarySearchTree_test : ∃ b, testTree.isBinarySearchTree 11 = some (b, testTree) ∧
    (b = true ↔ testTree.IsSearchTree (.node 0 (.node 1 .nil .nil) (.node 2 (.node 3 .nil .nil)
      (.node 4 .nil .nil)))) :=
  isBinarySearchTree_spec ⟨by simp [testTree, Tree.left, Tree.right], by decide,
    by simp [testTree]⟩ (by decide)

end Struct
