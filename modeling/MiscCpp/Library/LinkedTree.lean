import Mathlib.Data.List.Nodup
import Mathlib.Data.Tree.Basic
import Mathlib.Logic.Function.Basic
import Mathlib.Tactic.Common

/-!
# Linked binary trees

A heap of nodes with `left` and `right` pointers, as two functions `ι → Option ι`, and the
predicate `TreeSeg left right p t q`: from the pointer `p` on, the pointers form the tree `t`,
where the rightmost pointer is `q` and all others at the ends are null. With null for `q` it is a
tree; with another `q` it is one that is threaded to `q`.

The rightmost node is the last one in inorder, and redirecting it moves the thread
(`TreeSeg.set_last`).
-/

namespace LinkedTree

open Function

variable {ι : Type*}

/-- The nodes in inorder. -/
def inorder : BinaryTree ι → List ι
  | .nil => []
  | .node a l r => inorder l ++ a :: inorder r

@[simp] theorem inorder_nil : inorder (.nil : BinaryTree ι) = [] := rfl

@[simp] theorem inorder_node (a : ι) (l r : BinaryTree ι) :
    inorder (.node a l r) = inorder l ++ a :: inorder r := rfl

/-- What holds of all nodes of a tree, by its root and its subtrees. -/
theorem forall_mem_inorder_node {P : ι → Prop} {a : ι} {l r : BinaryTree ι} :
    (∀ b ∈ inorder (.node a l r), P b) ↔
      (∀ b ∈ inorder l, P b) ∧ P a ∧ ∀ b ∈ inorder r, P b := by
  rw [inorder_node, List.forall_mem_append, List.forall_mem_cons]

/-- The nodes in preorder. -/
def preorder : BinaryTree ι → List ι
  | .nil => []
  | .node a l r => a :: (preorder l ++ preorder r)

/-- The nodes in postorder. -/
def postorder : BinaryTree ι → List ι
  | .nil => []
  | .node a l r => postorder l ++ (postorder r ++ [a])

/-- The root, if there is one. -/
def root : BinaryTree ι → Option ι
  | .nil => none
  | .node a _ _ => some a

/-- `b` is a child of `a`. -/
def Child : BinaryTree ι → ι → ι → Prop
  | .nil, _, _ => False
  | .node c l r, a, b => a = c ∧ (b ∈ root l ∨ b ∈ root r) ∨ Child l a b ∨ Child r a b

theorem mem_of_mem_root {t : BinaryTree ι} {a : ι} (h : a ∈ root t) : a ∈ inorder t := by
  cases t with
  | nil => cases h
  | node c l r =>
    obtain rfl := Option.some.inj h
    exact List.mem_append_right _ List.mem_cons_self

theorem Child.mem {t : BinaryTree ι} {a b : ι} (h : Child t a b) :
    a ∈ inorder t ∧ b ∈ inorder t := by
  induction t with
  | nil => exact h.elim
  | node c l r ihl ihr =>
    rw [inorder_node, List.mem_append, List.mem_append, List.mem_cons, List.mem_cons]
    rcases h with ⟨rfl, h | h⟩ | h | h
    · exact ⟨Or.inr (Or.inl rfl), Or.inl (mem_of_mem_root h)⟩
    · exact ⟨Or.inr (Or.inl rfl), Or.inr (Or.inr (mem_of_mem_root h))⟩
    · exact ⟨Or.inl (ihl h).1, Or.inl (ihl h).2⟩
    · exact ⟨Or.inr (Or.inr (ihr h).1), Or.inr (Or.inr (ihr h).2)⟩

/-- The tree with the children of every node exchanged. -/
def mirror : BinaryTree ι → BinaryTree ι
  | .nil => .nil
  | .node a l r => .node a (mirror r) (mirror l)

@[simp] theorem numNodes_mirror (t : BinaryTree ι) : (mirror t).numNodes = t.numNodes := by
  induction t with
  | nil => rfl
  | node a l r ihl ihr =>
    rw [mirror, BinaryTree.numNodes, BinaryTree.numNodes, ihl, ihr, Nat.add_comm r.numNodes]

/-- The inorder of the mirrored tree is read from the back. -/
theorem inorder_mirror (t : BinaryTree ι) : inorder (mirror t) = (inorder t).reverse := by
  induction t with
  | nil => rfl
  | node a l r ihl ihr =>
    rw [mirror, inorder_node, inorder_node, ihl, ihr, List.reverse_append, List.reverse_cons,
      List.append_assoc, List.singleton_append]

/-- Postorder is the preorder from right to left, from its end on. -/
theorem reverse_preorder_mirror (t : BinaryTree ι) :
    (preorder (mirror t)).reverse = postorder t := by
  induction t with
  | nil => rfl
  | node a l r ihl ihr =>
    rw [mirror, preorder, postorder, List.reverse_cons, List.reverse_append, ihl, ihr,
      List.append_assoc]

/-- From `p` on through the nodes of the tree, with `q` at the right end. -/
def TreeSeg (left right : ι → Option ι) : Option ι → BinaryTree ι → Option ι → Prop
  | p, .nil, q => p = q
  | p, .node a l r, q =>
    p = some a ∧ TreeSeg left right (left a) l none ∧ TreeSeg left right (right a) r q

variable {left right right' : ι → Option ι} {p q : Option ι} {a m : ι} {t l r : BinaryTree ι}

@[simp] theorem treeSeg_nil : TreeSeg left right p .nil q ↔ p = q := Iff.rfl

@[simp] theorem treeSeg_node : TreeSeg left right p (.node a l r) q ↔
    p = some a ∧ TreeSeg left right (left a) l none ∧ TreeSeg left right (right a) r q := Iff.rfl

/-- The frame rule: a tree depends on the pointers of its own nodes only. -/
theorem TreeSeg.congr (h : TreeSeg left right p t q) (hr : ∀ a ∈ inorder t, right' a = right a) :
    TreeSeg left right' p t q := by
  induction t generalizing p q with
  | nil => exact h
  | node a l r ihl ihr =>
    obtain ⟨hp, hl, hr'⟩ := h
    obtain ⟨heq_l, heq, heq_r⟩ := forall_mem_inorder_node.1 hr
    refine ⟨hp, ihl hl heq_l, ?_⟩
    rw [heq]
    exact ihr hr' heq_r

/-- Exchanging the two pointers of all nodes mirrors the tree. -/
theorem TreeSeg.mirror (h : TreeSeg left right p t none) :
    TreeSeg right left p (mirror t) none := by
  induction t generalizing p with
  | nil => exact h
  | node a l r ihl ihr => exact ⟨h.1, ihr h.2.2, ihl h.2.1⟩

theorem getLast?_node_nil (a : ι) (l : BinaryTree ι) :
    (inorder (.node a l .nil)).getLast? = some a := by
  rw [inorder_node, List.getLast?_append]
  rfl

theorem getLast?_node_node (a b : ι) (l l' r' : BinaryTree ι) :
    (inorder (.node a l (.node b l' r'))).getLast? = (inorder (.node b l' r')).getLast? := by
  have hne : inorder (.node b l' r') ≠ [] := List.append_ne_nil_of_right_ne_nil _ (by simp)
  rw [inorder_node a, List.append_cons, List.getLast?_append_of_ne_nil _ hne]

/-- The nodes of a tree are different if those of the subtrees are, and the root and the subtrees
have none in common. -/
theorem nodup_node : (inorder (.node a l r)).Nodup ↔
    (inorder l).Nodup ∧ (inorder r).Nodup ∧ a ∉ inorder l ∧ a ∉ inorder r ∧
      List.Disjoint (inorder l) (inorder r) := by
  rw [inorder_node, List.nodup_middle, List.nodup_cons, List.mem_append, not_or,
    List.nodup_append']
  tauto

/-- A tree of nodes at different addresses. -/
abbrev NodeTree (ι : Type*) := {t : BinaryTree ι // (inorder t).Nodup}

/-- A pointer to a node leads to a rightmost one. -/
theorem TreeSeg.exists_last (h : TreeSeg left right (some a) t none) :
    ∃ m, (inorder t).getLast? = some m := by
  cases t with
  | nil => cases h
  | node b l r =>
    rw [inorder_node]
    exact ⟨_, (List.getLast?_append_cons ..).trans List.getLast?_cons⟩

/-- The rightmost node is the one that the thread leaves from. -/
theorem TreeSeg.right_last (h : TreeSeg left right p t q)
    (hm : (inorder t).getLast? = some m) : right m = q := by
  induction t generalizing p with
  | nil => cases hm
  | node a l r _ ihr =>
    obtain ⟨-, -, hr⟩ := h
    cases r with
    | nil =>
      rw [getLast?_node_nil] at hm
      obtain rfl := Option.some.inj hm
      exact hr
    | node b l' r' => exact ihr hr (getLast?_node_node a b l l' r' ▸ hm)

variable [DecidableEq ι]

/-- Redirecting the rightmost node moves the thread. -/
theorem TreeSeg.set_last (h : TreeSeg left right p t q) (hnodup : (inorder t).Nodup)
    (hm : (inorder t).getLast? = some m) (q' : Option ι) :
    TreeSeg left (update right m q') p t q' := by
  induction t generalizing p with
  | nil => cases hm
  | node a l r _ ihr =>
    obtain ⟨hp, hl, hr⟩ := h
    obtain ⟨-, hnodup_r, hal, har, hdisj⟩ := nodup_node.1 hnodup
    cases r with
    | nil =>
      rw [getLast?_node_nil] at hm
      obtain rfl := Option.some.inj hm
      exact ⟨hp, hl.congr fun b hb ↦ update_of_ne (ne_of_mem_of_not_mem hb hal) ..,
        update_self ..⟩
    | node b l' r' =>
      rw [getLast?_node_node] at hm
      have hmem := List.mem_of_getLast? hm
      have hne : a ≠ m := (ne_of_mem_of_not_mem hmem har).symm
      refine ⟨hp, hl.congr fun c hc ↦ update_of_ne ?_ .., ?_⟩
      · rintro rfl
        exact hdisj hc hmem
      · rw [update_of_ne hne]
        exact ihr hr hnodup_r hm

end LinkedTree
