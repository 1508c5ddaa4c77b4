import MiscCpp.Library.CInt
import MiscCpp.Library.LinkedTree

/-!
# Traversals of a tree

`Tree::InorderTraversal`, with a stack, and `Tree::InorderTraversalMorris`, which threads the tree:
before it goes down to the left of a node it redirects the rightmost pointer there to the node, and
when it comes back through this pointer it sets it to null again.

One traversal of a subtree takes the loop from the pointer that leads to it to the one that leaves
it at the right, wherever that goes, and ends with the nodes it began with (`morrisLoop_tree`). So
the threads need no invariant of their own: at a node with a left subtree, the subtree is
traversed as one whose right end is the node.
-/

open LinkedTree

namespace Struct

/-! ### The tree -/

/-- A node of `Tree`; the addresses are of any type. -/
structure TreeNode (ι : Type) where
  value : CInt
  left : Option ι
  right : Option ι

/-- The address of `root`, and the nodes. -/
structure Tree (ι : Type) where
  root : ι
  node : ι → Option (TreeNode ι)

variable {ι : Type}

namespace Tree

variable (s : Tree ι)

/-- `node->left` -/
def left (a : ι) : Option ι := (s.node a).bind TreeNode.left

/-- `node->right` -/
def right (a : ι) : Option ι := (s.node a).bind TreeNode.right

/-- The nodes from `root` on are those of the tree `t`, each of them once. -/
structure Represents (t : BinaryTree ι) : Prop where
  seg : TreeSeg s.left s.right (some s.root) t none
  nodup : (inorder t).Nodup
  node : ∀ a ∈ inorder t, ∃ x, s.node a = some x

/-- The values of a tree in inorder. -/
def values (t : BinaryTree ι) : List CInt :=
  (inorder t).filterMap fun a ↦ (s.node a).map TreeNode.value

/-! ### The traversals -/

/-- `while (node)`, the loop that pushes a node and goes to the left, for `fuel` turns. -/
def pushLeft : ℕ → Option ι → List ι → Option (List ι)
  | 0, _, _ => none
  | _ + 1, none, stk => some stk
  | fuel + 1, some node, stk => do
    let x ← s.node node
    pushLeft fuel x.left (node :: stk)

/-- The loop of `InorderTraversal`, with `steps` turns for the inner one. -/
def inorderLoop (steps : ℕ) : ℕ → Option ι → List ι → List CInt → Option (List CInt)
  | 0, _, _, _ => none
  | fuel + 1, node, stk, ret => do
    let stk ← s.pushLeft steps node stk
    match stk with
    | [] => some ret
    | node :: stk =>
      let x ← s.node node
      inorderLoop steps fuel x.right stk (ret ++ [x.value])

/-- The traversal with a stack. -/
def inorderTraversal (fuel : ℕ) : Option (List CInt) :=
  s.inorderLoop fuel fuel (some s.root) [] []

variable [DecidableEq ι]

/-- `a->right = q` -/
def setRight (a : ι) (q : Option ι) : Option (Tree ι) :=
  (s.node a).map fun x ↦ { s with node := Function.update s.node a (some { x with right := q }) }

/-- `while (prev->right && prev->right != node)` -/
def goRight (node : ι) : ℕ → ι → Option ι
  | 0, _ => none
  | fuel + 1, prev => do
    let x ← s.node prev
    match x.right with
    | none => some prev
    | some next => if next = node then some prev else goRight node fuel next

/-- The loop of `InorderTraversalMorris`. -/
def morrisLoop (steps : ℕ) : ℕ → Tree ι → Option ι → List CInt → Option (List CInt × Tree ι)
  | 0, _, _, _ => none
  | _ + 1, s, none, ret => some (ret, s)
  | fuel + 1, s, some node, ret => do
    let x ← s.node node
    match x.left with
    | some l =>
      let prev ← s.goRight node steps l
      let y ← s.node prev
      match y.right with
      | none =>
        let s ← s.setRight prev (some node)
        let x ← s.node node
        morrisLoop steps fuel s x.left ret
      | some _ =>
        let s ← s.setRight prev none
        let x ← s.node node
        morrisLoop steps fuel s x.right (ret ++ [x.value])
    | none => morrisLoop steps fuel s x.right (ret ++ [x.value])

/-- The traversal with threads in place of a stack, which takes them out again. -/
def inorderTraversalMorris (fuel : ℕ) : Option (List CInt × Tree ι) :=
  morrisLoop fuel fuel s (some s.root) []

end Tree

/-! ### The fields of a node -/

variable {s s' : Tree ι} {t l r : BinaryTree ι} {p q : Option ι} {a b c m : ι}
  {x x' y : TreeNode ι}
  {steps fuel : ℕ} {stk : List ι} {ret : List CInt}

theorem left_eq (hx : s.node a = some x) : s.left a = x.left := by
  rw [Tree.left, hx]
  rfl

theorem right_eq (hx : s.node a = some x) : s.right a = x.right := by
  rw [Tree.right, hx]
  rfl

theorem values_nil : s.values .nil = [] := rfl

theorem values_node (hx : s.node a = some x) :
    s.values (.node a l r) = s.values l ++ x.value :: s.values r := by
  rw [Tree.values, inorder_node, List.filterMap_append,
    List.filterMap_cons_some (b := x.value) (by rw [hx]; rfl)]
  rfl

/-! ### The traversal with a stack -/

/-- The stack after the nodes from the root of the tree down to the left. -/
def leftSpine : BinaryTree ι → List ι → List ι
  | .nil, stk => stk
  | .node a l _, stk => leftSpine l (a :: stk)

theorem pushLeft_eq (hseg : TreeSeg s.left s.right p t none)
    (hnode : ∀ a ∈ inorder t, ∃ x, s.node a = some x) (hsteps : t.numNodes < steps)
    (stk : List ι) : s.pushLeft steps p stk = some (leftSpine t stk) := by
  induction t generalizing p steps stk with
  | nil =>
    obtain ⟨steps, rfl⟩ := Nat.exists_eq_succ_of_ne_zero (Nat.ne_of_gt hsteps)
    obtain rfl := hseg
    rfl
  | node a l r ihl _ =>
    obtain ⟨steps, rfl⟩ := Nat.exists_eq_succ_of_ne_zero (Nat.ne_of_gt (Nat.zero_lt_of_lt hsteps))
    obtain ⟨rfl, hl, -⟩ := hseg
    obtain ⟨hnode_l, ⟨x, hx⟩, -⟩ := forall_mem_inorder_node.1 hnode
    rw [left_eq hx] at hl
    rw [BinaryTree.numNodes] at hsteps
    rw [Tree.pushLeft, hx]
    exact ihl hl hnode_l (by omega) _

/-- **The loop** goes through a subtree and is back at the stack it began with. -/
theorem inorderLoop_tree (hseg : TreeSeg s.left s.right p t none)
    (hnode : ∀ a ∈ inorder t, ∃ x, s.node a = some x) (hsteps : t.numNodes < steps)
    (fuel : ℕ) (stk : List ι) (ret : List CInt) :
    s.inorderLoop steps (fuel + t.numNodes) p stk ret =
      s.inorderLoop steps fuel none stk (ret ++ s.values t) := by
  induction t generalizing p fuel stk ret with
  | nil =>
    obtain rfl := hseg
    rw [values_nil, List.append_nil]
    rfl
  | node a l r ihl ihr =>
    obtain ⟨hnode_l, ⟨x, hx⟩, hnode_r⟩ := forall_mem_inorder_node.1 hnode
    have hpush := pushLeft_eq hseg hnode hsteps stk
    obtain ⟨rfl, hl, hr⟩ := hseg
    rw [BinaryTree.numNodes] at hsteps ⊢
    have hsteps_l : l.numNodes < steps := by omega
    have hpush_l := pushLeft_eq hl hnode_l hsteps_l (a :: stk)
    have hempty : s.pushLeft steps none (a :: stk) = some (a :: stk) := by
      obtain ⟨steps, rfl⟩ := Nat.exists_eq_succ_of_ne_zero (Nat.ne_of_gt (Nat.zero_lt_of_lt hsteps))
      rfl
    calc s.inorderLoop steps (fuel + (l.numNodes + r.numNodes + 1)) (some a) stk ret
        = s.inorderLoop steps (fuel + r.numNodes + 1 + l.numNodes) (s.left a) (a :: stk) ret := by
          rw [show fuel + (l.numNodes + r.numNodes + 1) =
              fuel + r.numNodes + l.numNodes + 1 by omega, Nat.add_right_comm _ 1,
            Tree.inorderLoop, Tree.inorderLoop, hpush, hpush_l, leftSpine]
      _ = s.inorderLoop steps (fuel + r.numNodes + 1) none (a :: stk) (ret ++ s.values l) :=
          ihl hl hnode_l hsteps_l _ _ _
      _ = s.inorderLoop steps (fuel + r.numNodes) (s.right a) stk
            (ret ++ s.values l ++ [x.value]) := by
          rw [Tree.inorderLoop, hempty, right_eq hx]
          simp only [Option.bind_eq_bind, Option.bind_some, hx]
      _ = s.inorderLoop steps fuel none stk (ret ++ s.values l ++ [x.value] ++ s.values r) :=
          ihr hr hnode_r (by omega) _ _ _
      _ = s.inorderLoop steps fuel none stk (ret ++ s.values (.node a l r)) := by
          rw [values_node hx, List.append_assoc, List.append_assoc, List.singleton_append]

/-- The traversal with a stack returns the values in inorder. -/
theorem inorderTraversal_some (h : s.Represents t) (hfuel : t.numNodes < fuel) :
    s.inorderTraversal fuel = some (s.values t) := by
  obtain ⟨k, hk⟩ : ∃ k, fuel = k + 1 + t.numNodes := ⟨fuel - t.numNodes - 1, by omega⟩
  have hloop := inorderLoop_tree h.seg h.node hfuel (k + 1) [] []
  have hempty : s.pushLeft fuel none [] = some [] := by rw [hk, Nat.add_right_comm]; rfl
  rw [← hk, List.nil_append, Tree.inorderLoop, hempty] at hloop
  exact hloop

/-! ### The threaded traversal -/

variable [DecidableEq ι]

/-- **A write** of `right` leaves all other fields. -/
theorem setRight_spec (hy : s.node m = some y) (q : Option ι) :
    ∃ s', s.setRight m q = some s' ∧ s'.left = s.left ∧ s'.right = Function.update s.right m q ∧
      (∀ a, (s'.node a).map TreeNode.value = (s.node a).map TreeNode.value) ∧
      s'.setRight m y.right = some s := by
  refine ⟨_, by rw [Tree.setRight, hy, Option.map_some], funext fun a ↦ ?_, funext fun a ↦ ?_,
    fun a ↦ ?_, ?_⟩
  · rcases eq_or_ne a m with rfl | hne
    · simp only [Tree.left, Function.update_self, hy, Option.bind_some]
    · simp only [Tree.left, Function.update_of_ne hne]
  · rcases eq_or_ne a m with rfl | hne
    · simp only [Tree.right, Function.update_self, Option.bind_some]
    · simp only [Tree.right, Function.update_of_ne hne]
  · rcases eq_or_ne a m with rfl | hne
    · simp only [Function.update_self, hy, Option.map_some]
    · simp only [Function.update_of_ne hne]
  · simp only [Tree.setRight, Function.update_self, Option.map_some, Function.update_idem]
    rw [Function.update_eq_self_iff.2 hy.symm]

/-- **The inner loop** finds the rightmost node, in a tree that is threaded to `a` as in one that is
not threaded. -/
theorem goRight_eq (hseg : TreeSeg s.left s.right (some b) t q)
    (hm : (inorder t).getLast? = some m) (ha : a ∉ inorder t) (hq : q = none ∨ q = some a)
    (hnode : ∀ a ∈ inorder t, ∃ x, s.node a = some x) (hsteps : t.numNodes ≤ steps) :
    s.goRight a steps b = some m := by
  induction t generalizing b steps with
  | nil => cases hm
  | node c l r _ ihr =>
    rw [BinaryTree.numNodes] at hsteps
    obtain ⟨steps, rfl⟩ := Nat.exists_eq_succ_of_ne_zero (n := steps) (by omega)
    obtain ⟨hb, -, hr⟩ := hseg
    obtain rfl := Option.some.inj hb
    obtain ⟨x, hx⟩ := hnode b (List.mem_append_right _ List.mem_cons_self)
    rw [right_eq hx] at hr
    rw [Tree.goRight, hx]
    simp only [Option.bind_eq_bind, Option.bind_some]
    cases r with
    | nil =>
      rw [getLast?_node_nil] at hm
      rw [treeSeg_nil] at hr
      rw [hr]
      rcases hq with rfl | rfl
      · exact hm
      · exact (if_pos rfl).trans hm
    | node d l' r' =>
      rw [getLast?_node_node] at hm
      have hmem : ∀ c ∈ inorder (.node d l' r'), c ∈ inorder (.node b l (.node d l' r')) :=
        fun c hc ↦ List.mem_append_right _ (List.mem_cons_of_mem b hc)
      have hne : d ≠ a :=
        ne_of_mem_of_not_mem (hmem d (List.mem_append_right _ List.mem_cons_self)) ha
      have hright := hr.1
      rw [hright] at hr ⊢
      simp only [if_neg hne]
      exact ihr hr hm (fun h ↦ ha (hmem a h)) (fun c hc ↦ hnode c (hmem c hc)) (by omega)

/-- A turn at a node without a left subtree. -/
theorem morrisLoop_none (hx : s.node a = some x) (hl : s.left a = none) :
    Tree.morrisLoop steps (fuel + 1) s (some a) ret =
      Tree.morrisLoop steps fuel s (s.right a) (ret ++ [x.value]) := by
  rw [left_eq hx] at hl
  rw [Tree.morrisLoop, hx, right_eq hx]
  simp only [Option.bind_eq_bind, Option.bind_some, hl]

/-- A turn that threads the left subtree to the node. -/
theorem morrisLoop_thread (hx : s.node a = some x) (hl : s.left a = some b)
    (hgo : s.goRight a steps b = some m) (hy : s.node m = some y) (hm : y.right = none)
    (hset : s.setRight m (some a) = some s') (hx' : s'.node a = some x')
    (hl' : s'.left a = some b) :
    Tree.morrisLoop steps (fuel + 1) s (some a) ret =
      Tree.morrisLoop steps fuel s' (some b) ret := by
  rw [left_eq hx] at hl
  rw [left_eq hx'] at hl'
  rw [Tree.morrisLoop, hx]
  simp only [Option.bind_eq_bind, Option.bind_some, hl, hgo, hy, hm, hset, hx', hl']

/-- A turn that takes the thread away. -/
theorem morrisLoop_unthread (hx : s.node a = some x) (hl : s.left a = some b)
    (hgo : s.goRight a steps b = some m) (hy : s.node m = some y) (hm : y.right = some c)
    (hset : s.setRight m none = some s') (hx' : s'.node a = some x') :
    Tree.morrisLoop steps (fuel + 1) s (some a) ret =
      Tree.morrisLoop steps fuel s' (s'.right a) (ret ++ [x'.value]) := by
  rw [left_eq hx] at hl
  rw [Tree.morrisLoop, hx, right_eq hx']
  simp only [Option.bind_eq_bind, Option.bind_some, hl, hgo, hy, hm, hset, hx']

/-- The threads of a left subtree: the loop goes down with the thread to `a` in place, and when it
is back at `a` it goes on with the nodes as they were. -/
theorem exists_threaded (hx : s.node a = some x) (hl : s.left a = some b)
    (hseg : TreeSeg s.left s.right (some b) t none) (hnodup : (inorder t).Nodup)
    (ha : a ∉ inorder t) (hnode : ∀ a ∈ inorder t, ∃ x, s.node a = some x)
    (hsteps : t.numNodes ≤ steps) :
    ∃ s', TreeSeg s'.left s'.right (some b) t (some a) ∧
      (∀ a, (s'.node a).map TreeNode.value = (s.node a).map TreeNode.value) ∧
      (∀ fuel ret, Tree.morrisLoop steps (fuel + 1) s (some a) ret =
        Tree.morrisLoop steps fuel s' (some b) ret) ∧
      ∀ fuel ret, Tree.morrisLoop steps (fuel + 1) s' (some a) ret =
        Tree.morrisLoop steps fuel s (s.right a) (ret ++ [x.value]) := by
  obtain ⟨m, hm⟩ := hseg.exists_last
  have hmem := List.mem_of_getLast? hm
  obtain ⟨y, hy⟩ := hnode m hmem
  obtain ⟨s', hset, hleft, hright, hvalue, hback⟩ := setRight_spec hy (some a)
  have hexists : ∀ c x, s.node c = some x → ∃ x', s'.node c = some x' ∧ x'.value = x.value := by
    intro c x hc
    have hval := hvalue c
    rw [hc, Option.map_some, Option.map_eq_some_iff] at hval
    exact hval
  obtain ⟨x', hx', -⟩ := hexists a x hx
  obtain ⟨y', hy', -⟩ := hexists m y hy
  have hseg' : TreeSeg s'.left s'.right (some b) t (some a) := by
    rw [hleft, hright]
    exact hseg.set_last hnodup hm (some a)
  have hnull : y.right = none := right_eq hy ▸ hseg.right_last hm
  have hthread : y'.right = some a := right_eq hy' ▸ hseg'.right_last hm
  have hnode' : ∀ c ∈ inorder t, ∃ x, s'.node c = some x := fun c hc ↦
    (hnode c hc).elim fun z hz ↦ (hexists c z hz).imp fun _ ↦ And.left
  rw [hnull] at hback
  exact ⟨s', hseg', hvalue,
    fun fuel ret ↦ morrisLoop_thread hx hl (goRight_eq hseg hm ha (.inl rfl) hnode hsteps) hy hnull
      hset hx' (hleft ▸ hl),
    fun fuel ret ↦ morrisLoop_unthread hx' (hleft ▸ hl)
      (goRight_eq hseg' hm ha (.inr rfl) hnode' hsteps) hy' hthread hback hx⟩

/-- **The loop** goes through a subtree, from the pointer to it to the one that leaves it, and ends
with the nodes it began with. -/
theorem morrisLoop_tree (hseg : TreeSeg s.left s.right p t q) (hnodup : (inorder t).Nodup)
    (hnode : ∀ a ∈ inorder t, ∃ x, s.node a = some x) (hsteps : t.numNodes ≤ steps) :
    ∃ n ≤ 2 * t.numNodes, ∀ fuel ret, Tree.morrisLoop steps (fuel + n) s p ret =
      Tree.morrisLoop steps fuel s q (ret ++ s.values t) := by
  induction t generalizing s p q with
  | nil =>
    obtain rfl := hseg
    exact ⟨0, Nat.zero_le _, fun fuel ret ↦ by rw [values_nil, List.append_nil, Nat.add_zero]⟩
  | node a l r ihl ihr =>
    obtain ⟨hnode_l, ⟨x, hx⟩, hnode_r⟩ := forall_mem_inorder_node.1 hnode
    obtain ⟨rfl, hl, hr⟩ := hseg
    obtain ⟨hnodup_l, hnodup_r, hal, -, -⟩ := nodup_node.1 hnodup
    rw [BinaryTree.numNodes] at hsteps
    obtain ⟨nr, hnr, hright⟩ := ihr hr hnodup_r hnode_r (by omega)
    cases l with
    | nil =>
      refine ⟨nr + 1, by simp only [BinaryTree.numNodes]; omega, fun fuel ret ↦ ?_⟩
      rw [← Nat.add_assoc, morrisLoop_none hx hl, hright, values_node hx, values_nil,
        List.nil_append, List.append_assoc, List.singleton_append]
    | node b l₁ l₂ =>
      have hb : s.left a = some b := hl.1
      have hsteps_l : (BinaryTree.node b l₁ l₂).numNodes ≤ steps := by omega
      rw [hb] at hl
      obtain ⟨s', hseg', hvalue, hthread, hunthread⟩ :=
        exists_threaded hx hb hl hnodup_l hal hnode_l hsteps_l
      have hnode' : ∀ c ∈ inorder (.node b l₁ l₂), ∃ x, s'.node c = some x := by
        intro c hc
        obtain ⟨z, hz⟩ := hnode_l c hc
        have hval := hvalue c
        rw [hz, Option.map_some, Option.map_eq_some_iff] at hval
        exact hval.imp fun _ ↦ And.left
      obtain ⟨nl, hnl, hleft⟩ := ihl hseg' hnodup_l hnode' hsteps_l
      have hvalues : s'.values (.node b l₁ l₂) = s.values (.node b l₁ l₂) := by
        simp only [Tree.values, hvalue]
      refine ⟨nr + 1 + nl + 1, by rw [BinaryTree.numNodes]; omega, fun fuel ret ↦ ?_⟩
      rw [← Nat.add_assoc, hthread, ← Nat.add_assoc, hleft, ← Nat.add_assoc, hunthread, hright,
        hvalues, values_node hx, List.append_assoc, List.append_assoc, List.singleton_append]

/-! ### Both traversals -/

/-- The threaded traversal returns them too, and leaves every node as it has been. -/
theorem inorderTraversalMorris_some (h : s.Represents t) (hfuel : 2 * t.numNodes < fuel) :
    s.inorderTraversalMorris fuel = some (s.values t, s) := by
  have hsteps : t.numNodes ≤ fuel := by omega
  obtain ⟨n, hn, hloop⟩ := morrisLoop_tree h.seg h.nodup h.node hsteps
  obtain ⟨k, hk⟩ : ∃ k, fuel = k + 1 + n := ⟨fuel - n - 1, by omega⟩
  have hmorris := hloop (k + 1) []
  rw [← hk, List.nil_append, Tree.morrisLoop] at hmorris
  exact hmorris

/-- **Both traversals** return the values in inorder, and the threaded one leaves every node as it
has been. -/
theorem inorderTraversal_eq (h : s.Represents t) (hfuel : 2 * t.numNodes < fuel) :
    s.inorderTraversal fuel = some (s.values t) ∧
      s.inorderTraversalMorris fuel = some (s.values t, s) :=
  ⟨inorderTraversal_some h (by omega), inorderTraversalMorris_some h hfuel⟩

/-- The tree of the test: `Init({1, 2, 3, 0, 0, 4, 5})`. -/
def testTree : Tree ℕ where
  root := 0
  node n := [⟨⟨1, by decide⟩, some 1, some 2⟩, ⟨⟨2, by decide⟩, none, none⟩,
    ⟨⟨3, by decide⟩, some 3, some 4⟩, ⟨⟨4, by decide⟩, none, none⟩,
    ⟨⟨5, by decide⟩, none, none⟩][n]?

theorem inorderTraversal_eq_test :
    testTree.inorderTraversal 11 =
        some [⟨2, by decide⟩, ⟨1, by decide⟩, ⟨4, by decide⟩, ⟨3, by decide⟩, ⟨5, by decide⟩] ∧
      testTree.inorderTraversalMorris 11 =
        some ([⟨2, by decide⟩, ⟨1, by decide⟩, ⟨4, by decide⟩, ⟨3, by decide⟩, ⟨5, by decide⟩],
          testTree) :=
  inorderTraversal_eq (t := .node 0 (.node 1 .nil .nil) (.node 2 (.node 3 .nil .nil)
    (.node 4 .nil .nil))) ⟨by simp [testTree, Tree.left, Tree.right], by decide,
      by simp [testTree]⟩ (by decide)

end Struct
