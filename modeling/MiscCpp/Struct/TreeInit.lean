import Mathlib.Algebra.GroupWithZero.Nat
import Mathlib.Data.List.Induction
import MiscCpp.Struct.Tree

/-!
# A tree from its level order

`Tree::Init` takes the values of a tree level by level, with 0 for a child that is missing. The
nodes whose children come next are in a queue.

The listing is followed by its trees: `levelOrder ts` lists the children of the roots of `ts`, then
their children, and so on, and the nodes in the queue are those of the roots. A pair of values takes
the first node from the queue to the list of the children of the others and its own
(`addChildren_spec`), so by induction on the listing, two values at a time, the loop makes all the
trees (`buildLoop_spec`).

When the queue has become empty there is nothing left to list. So the loop ends in time if at least
one of the zeros at the end has been dropped, and otherwise takes the front of an empty queue
(`rebuilds_iff`).
-/

open LinkedTree CInt

namespace Struct

/-! ### The function -/

/-- A tree, and the first address that `new` has not given out. -/
structure TreeStore where
  tree : Tree ℕ
  size : ℕ

namespace TreeStore

variable (s : TreeStore)

/-- Write a node. -/
def setNode (a : ℕ) (x : TreeNode ℕ) : TreeStore :=
  { s with tree := { s.tree with node := Function.update s.tree.node a (some x) } }

/-- `if (values[i] != 0)`, with `setChild` for `cur->left = new_node` or `cur->right = new_node`:
the nodes, and the queue. -/
def addChild (setChild : TreeNode ℕ → ℕ → TreeNode ℕ) (cur : ℕ) (value : CInt) (q : List ℕ) :
    Option (TreeStore × List ℕ) :=
  if value.1 ≠ 0 then do
    let new_node := s.size
    let s := { s.setNode new_node ⟨value, none, none⟩ with size := s.size + 1 }
    let x ← s.tree.node cur
    some (s.setNode cur (setChild x new_node), q ++ [new_node])
  else some (s, q)

/-- A new left child, if the listing has a value for it. -/
def addLeft : ℕ → CInt → List ℕ → Option (TreeStore × List ℕ) :=
  s.addChild fun x a ↦ { x with left := some a }

/-- A new right child, if the listing has a value for it. -/
def addRight : ℕ → CInt → List ℕ → Option (TreeStore × List ℕ) :=
  s.addChild fun x a ↦ { x with right := some a }

/-- `for (int i = 1; i < values.size(); ++i)` -/
def initLoop (values : List CInt) : ℕ → CInt → ℕ → List ℕ → TreeStore → Option TreeStore
  | 0, _, _, _, _ => none
  | fuel + 1, i, cur, q, s =>
    if i.1.toNat < values.length then do
      let value ← values[i.1.toNat]?
      let (s, q) ← s.addLeft cur value q
      let i ← i.incr
      if i.1.toNat = values.length then some s
      else do
        let value ← values[i.1.toNat]?
        let (s, q) ← s.addRight cur value q
        match q with
        | [] => none
        | cur :: q => do
          let i ← i.incr
          initLoop values fuel i cur q s
    else some s

/-- `Tree::Init` -/
def init (fuel : ℕ) (values : List CInt) : Option TreeStore := do
  let value ← values[0]?
  let x ← s.tree.node s.tree.root
  initLoop values fuel 1 s.tree.root [] (s.setNode s.tree.root { x with value := value })

/-- `TreeNode *root = new TreeNode(values[0])` -/
def newRoot (value : CInt) : TreeStore where
  tree := ⟨s.size, Function.update s.tree.node s.size (some ⟨value, none, none⟩)⟩
  size := s.size + 1

/-- `initTreeNode`, with the new root as that of the tree. -/
def initTreeNode (fuel : ℕ) (values : List CInt) : Option TreeStore := do
  let value ← values[0]?
  initLoop values fuel 1 s.size [] (s.newRoot value)

end TreeStore

/-! ### The listing -/

/-- The value of the root, and 0 if there is none. -/
def rootValue : BinaryTree CInt → CInt
  | .nil => wrap 0
  | .node v _ _ => v

/-- The tree, if there is one. -/
def nonempty : BinaryTree CInt → List (BinaryTree CInt)
  | .nil => []
  | .node v l r => [.node v l r]

/-- The nodes of a row of trees. -/
def numNodes (ts : List (BinaryTree CInt)) : ℕ := (ts.map BinaryTree.numNodes).sum

theorem numNodes_append (ts ts' : List (BinaryTree CInt)) :
    numNodes (ts ++ ts') = numNodes ts + numNodes ts' := by
  rw [numNodes, List.map_append, List.sum_append, numNodes, numNodes]

theorem numNodes_nonempty (t : BinaryTree CInt) : numNodes (nonempty t) = t.numNodes := by
  cases t <;> simp [numNodes, nonempty]

theorem numNodes_children (v : CInt) (l r : BinaryTree CInt) (ts : List (BinaryTree CInt)) :
    numNodes (ts ++ (nonempty l ++ nonempty r)) + 1 = numNodes (.node v l r :: ts) := by
  rw [numNodes_append, numNodes_append, numNodes_nonempty, numNodes_nonempty]
  simp only [numNodes, List.map_cons, List.sum_cons, BinaryTree.numNodes]
  omega

/-- The children of the roots of the trees, level by level. -/
def levelOrder : List (BinaryTree CInt) → List CInt
  | [] => []
  | .nil :: ts => levelOrder ts
  | .node _ l r :: ts =>
    rootValue l :: rootValue r :: levelOrder (ts ++ (nonempty l ++ nonempty r))
termination_by ts => (numNodes ts, ts.length)
decreasing_by
  · exact Prod.Lex.right' _ (by simp [numNodes]) (Nat.lt_succ_self _)
  · exact Prod.Lex.left _ _ (Nat.lt_of_succ_le (numNodes_children _ l r ts).le)

/-- The values level by level, with all zeros. -/
def listing (t : BinaryTree CInt) : List CInt := rootValue t :: levelOrder [t]

/-- No value is 0. -/
def Nonzero : BinaryTree CInt → Prop
  | .nil => True
  | .node v l r => v.1 ≠ 0 ∧ Nonzero l ∧ Nonzero r

/-- A listing of the tree, without some of the zeros at its end. -/
structure IsListing (t : BinaryTree CInt) (values : List CInt) : Prop where
  ne_nil : t ≠ .nil
  nonzero : Nonzero t
  zeros : ∃ k, values ++ List.replicate k (wrap 0) = listing t

theorem levelOrder_nil : levelOrder [] = [] := by rw [levelOrder]

theorem levelOrder_node (v : CInt) (l r : BinaryTree CInt) (ts : List (BinaryTree CInt)) :
    levelOrder (.node v l r :: ts) =
      rootValue l :: rootValue r :: levelOrder (ts ++ (nonempty l ++ nonempty r)) := by
  rw [levelOrder]

theorem rootValue_eq_zero_iff {t : BinaryTree CInt} (h : Nonzero t) :
    (rootValue t).1 = 0 ↔ t = .nil := by
  cases t with
  | nil => exact iff_of_true rfl rfl
  | node v l r => exact iff_of_false h.1 nofun

theorem forall_nonempty {P : BinaryTree CInt → Prop} {t : BinaryTree CInt}
    (h : t ≠ .nil → P t) : ∀ u ∈ nonempty t, P u := by
  cases t with
  | nil => exact fun u hu ↦ absurd hu List.not_mem_nil
  | node v l r => exact fun u hu ↦ List.mem_singleton.1 hu ▸ h nofun

/-! ### The trees in the store -/

variable {ι : Type} {s s' s₁ : TreeStore} {t l r : BinaryTree CInt} {u : BinaryTree ℕ}
  {p pl pr : Option ℕ} {a cur : ℕ} {q as bs : List ℕ} {us : List (BinaryTree ℕ)}
  {ts ts' : List (BinaryTree CInt)} {x : TreeNode ℕ} {v w : CInt} {rest values : List CInt}

/-- From `p` on the nodes `u` with the values `t`. -/
inductive Tree.Shows (s : Tree ι) : Option ι → BinaryTree ι → BinaryTree CInt → Prop
  | nil : Shows s none .nil .nil
  | node {a : ι} {x : TreeNode ι} {ul ur : BinaryTree ι} {l r : BinaryTree CInt}
    (hx : s.node a = some x) (hl : Shows s x.left ul l) (hr : Shows s x.right ur r) :
    Shows s (some a) (.node a ul ur) (.node x.value l r)

theorem Tree.Shows.eq_none {s : Tree ι} {p : Option ι} {u : BinaryTree ι}
    (h : s.Shows p u .nil) : p = none := by
  cases h
  rfl

theorem Tree.Shows.seg {s : Tree ι} {p : Option ι} {u : BinaryTree ι} (h : s.Shows p u t) :
    TreeSeg s.left s.right p u none ∧ ∀ a ∈ inorder u, ∃ x, s.node a = some x := by
  induction h with
  | nil => exact ⟨rfl, fun a ha ↦ absurd ha List.not_mem_nil⟩
  | @node a x ul ur l r hx hl hr ihl ihr =>
    refine ⟨⟨rfl, left_eq hx ▸ ihl.1, right_eq hx ▸ ihr.1⟩, fun b hb ↦ ?_⟩
    rcases List.mem_append.1 hb with hb | hb
    · exact ihl.2 b hb
    · rcases List.mem_cons.1 hb with rfl | hb
      · exact ⟨x, hx⟩
      · exact ihr.2 b hb

/-- Each address of `as` is the root of a tree of `ts`. -/
inductive Tree.Forest (s : Tree ι) :
    List ι → List (BinaryTree ι) → List (BinaryTree CInt) → Prop
  | nil : Forest s [] [] []
  | cons {a : ι} {u : BinaryTree ι} {t : BinaryTree CInt} {as : List ι}
    {us : List (BinaryTree ι)} {ts : List (BinaryTree CInt)} (h : s.Shows (some a) u t)
    (hs : Forest s as us ts) : Forest s (a :: as) (u :: us) (t :: ts)

/-- The nodes of the trees. -/
def nodes (us : List (BinaryTree ι)) : List ι := us.flatMap inorder

theorem Tree.Forest.append {s : Tree ι} {as bs : List ι} {us : List (BinaryTree ι)}
    (hlen : as.length = ts.length) (h : s.Forest (as ++ bs) us (ts ++ ts')) :
    ∃ us₁ us₂, us = us₁ ++ us₂ ∧ s.Forest as us₁ ts ∧ s.Forest bs us₂ ts' := by
  induction as generalizing us ts with
  | nil =>
    obtain rfl := List.length_eq_zero_iff.1 hlen.symm
    exact ⟨[], us, rfl, .nil, h⟩
  | cons a as ih =>
    cases ts with
    | nil => cases hlen
    | cons t ts =>
      cases h with
      | cons h hs =>
        obtain ⟨us₁, us₂, rfl, h₁, h₂⟩ := ih (Nat.succ.inj hlen) hs
        exact ⟨_ :: us₁, us₂, rfl, .cons h h₁, h₂⟩

/-- The trees below a pointer, which is null if there is none. -/
theorem Tree.Forest.shows {s : Tree ι} {p : Option ι} {us : List (BinaryTree ι)}
    (hp : p = none ↔ t = .nil) (h : s.Forest p.toList us (nonempty t)) :
    ∃ u, s.Shows p u t ∧ nodes us = inorder u := by
  cases t with
  | nil =>
    obtain rfl := hp.2 rfl
    cases h
    exact ⟨.nil, .nil, rfl⟩
  | node v l r =>
    cases p with
    | none => cases hp.1 rfl
    | some a =>
      cases h with
      | cons h hs =>
        cases hs
        exact ⟨_, h, List.append_nil _⟩

/-! ### The children of a node -/

/-- A node whose children are still to be made: it has the value of the root, and null for a child
that there is not. -/
def Tree.Ready (s : Tree ι) (a : ι) : BinaryTree CInt → Prop
  | .nil => False
  | .node v l r => ∃ x, s.node a = some x ∧ x.value = v ∧
      (x.left = none ∨ l ≠ .nil) ∧ (x.right = none ∨ r ≠ .nil)

/-- The node `cur` has become `x`, with the new child `p` for the value `w`. -/
structure Added (s s₁ : TreeStore) (cur : ℕ) (x : TreeNode ℕ) (w : CInt) (p : Option ℕ) :
    Prop where
  null_iff : p = none ↔ w.1 = 0
  node : s₁.tree.node cur = some x
  new : ∀ a ∈ p, s.size ≤ a ∧ a < s₁.size ∧ s₁.tree.node a = some ⟨w, none, none⟩
  size_le : s.size ≤ s₁.size
  frame : ∀ a, a ≠ cur → a < s.size → s₁.tree.node a = s.tree.node a
  root : s₁.tree.root = s.tree.root

theorem addChild_spec (setChild : TreeNode ℕ → ℕ → TreeNode ℕ) (hx : s.tree.node cur = some x)
    (hcur : cur < s.size) (w : CInt) (q : List ℕ) :
    ∃ s₁ p, s.addChild setChild cur w q = some (s₁, q ++ p.toList) ∧
      Added s s₁ cur (p.elim x (setChild x)) w p := by
  by_cases hw : w.1 = 0
  · refine ⟨s, none, ?_, iff_of_true rfl hw, hx, nofun, le_rfl, fun _ _ _ ↦ rfl, rfl⟩
    rw [TreeStore.addChild, if_neg (not_not_intro hw), Option.toList_none, List.append_nil]
  · have hne : cur ≠ s.size := Nat.ne_of_lt hcur
    refine ⟨{ s.setNode s.size ⟨w, none, none⟩ with size := s.size + 1 }.setNode cur
      (setChild x s.size), some s.size, ?_, iff_of_false nofun hw, Function.update_self .., ?_,
      Nat.le_succ _, fun a ha hlt ↦ ?_, rfl⟩
    · rw [TreeStore.addChild, if_pos hw]
      simp only [TreeStore.setNode, Function.update_of_ne hne, hx, Option.bind_eq_bind,
        Option.bind_some]
      rfl
    · rintro a ⟨⟩
      refine ⟨le_rfl, Nat.lt_succ_self _, ?_⟩
      exact (Function.update_of_ne hne.symm ..).trans (Function.update_self ..)
    · exact (Function.update_of_ne ha ..).trans (Function.update_of_ne (Nat.ne_of_lt hlt) ..)

/-- The children of `cur` have been made. -/
structure HasChildren (s s₁ : TreeStore) (cur : ℕ) (v : CInt) (l r : BinaryTree CInt)
    (pl pr : Option ℕ) : Prop where
  node : s₁.tree.node cur = some ⟨v, pl, pr⟩
  left_iff : pl = none ↔ l = .nil
  right_iff : pr = none ↔ r = .nil
  ready : List.Forall₂ s₁.tree.Ready (pl.toList ++ pr.toList) (nonempty l ++ nonempty r)
  nodup : (pl.toList ++ pr.toList).Nodup
  new : ∀ a ∈ pl.toList ++ pr.toList, s.size ≤ a ∧ a < s₁.size
  size_le : s.size ≤ s₁.size
  frame : ∀ a, a ≠ cur → a < s.size → s₁.tree.node a = s.tree.node a
  root : s₁.tree.root = s.tree.root

theorem ready_nonempty (hp : p = none ↔ t = .nil)
    (hnode : ∀ a ∈ p, s.tree.node a = some ⟨rootValue t, none, none⟩) :
    List.Forall₂ s.tree.Ready p.toList (nonempty t) := by
  cases t with
  | nil =>
    obtain rfl := hp.2 rfl
    exact .nil
  | node v l r =>
    cases p with
    | none => cases hp.1 rfl
    | some a => exact .cons ⟨_, hnode a rfl, rfl, .inl rfl, .inl rfl⟩ .nil

/-- **A pair of values**: the children of `cur` are made and put at the end of the queue. -/
theorem addChildren_spec (h : s.tree.Ready cur (.node v l r)) (hl : Nonzero l) (hr : Nonzero r)
    (hcur : cur < s.size) (q : List ℕ) :
    ∃ s₁ pl s₂ pr, s.addLeft cur (rootValue l) q = some (s₁, q ++ pl.toList) ∧
      s₁.addRight cur (rootValue r) (q ++ pl.toList) = some (s₂, q ++ pl.toList ++ pr.toList) ∧
      HasChildren s s₂ cur v l r pl pr := by
  obtain ⟨x, hx, rfl, hxl, hxr⟩ := h
  obtain ⟨s₁, pl, hleft, L⟩ := addChild_spec (fun x a ↦ { x with left := some a }) hx hcur
    (rootValue l) q
  have hpl : pl = none ↔ l = .nil := L.null_iff.trans (rootValue_eq_zero_iff hl)
  have hx₁ : s₁.tree.node cur = some { x with left := pl } := by
    rw [L.node]
    cases pl with
    | none =>
      have hnull : x.left = none := hxl.resolve_right (not_not_intro (hpl.1 rfl))
      exact congrArg (fun p ↦ some { x with left := p }) hnull
    | some a => rfl
  obtain ⟨s₂, pr, hright, R⟩ := addChild_spec (fun x a ↦ { x with right := some a }) hx₁
    (hcur.trans_le L.size_le) (rootValue r) (q ++ pl.toList)
  have hpr : pr = none ↔ r = .nil := R.null_iff.trans (rootValue_eq_zero_iff hr)
  have hx₂ : s₂.tree.node cur = some ⟨x.value, pl, pr⟩ := by
    rw [R.node]
    cases pr with
    | none =>
      have hnull : x.right = none := hxr.resolve_right (not_not_intro (hpr.1 rfl))
      exact congrArg (fun p ↦ some { x with left := pl, right := p }) hnull
    | some a => rfl
  -- the left child is still there after the right one has been made
  have hleft_node : ∀ a ∈ pl, s₂.tree.node a = some ⟨rootValue l, none, none⟩ := fun a ha ↦ by
    obtain ⟨hle, hlt, hnode⟩ := L.new a ha
    rw [R.frame a (Nat.ne_of_gt (hcur.trans_le hle)) hlt, hnode]
  refine ⟨s₁, pl, s₂, pr, hleft, hright, hx₂, hpl, hpr, ?_, ?_, fun a ha ↦ ?_,
    L.size_le.trans R.size_le, fun a ha hlt ↦ ?_, R.root.trans L.root⟩
  · exact List.rel_append (ready_nonempty hpl hleft_node)
      (ready_nonempty hpr fun a ha ↦ (R.new a ha).2.2)
  · refine List.nodup_append.2 ⟨by cases pl <;> simp, by cases pr <;> simp, fun a ha b hb ↦ ?_⟩
    have hlt := (L.new a (Option.mem_toList.1 ha)).2.1
    exact Nat.ne_of_lt (hlt.trans_le (R.new b (Option.mem_toList.1 hb)).1)
  · rcases List.mem_append.1 ha with ha | ha
    · obtain ⟨hle, hlt, -⟩ := L.new a (Option.mem_toList.1 ha)
      exact ⟨hle, hlt.trans_le R.size_le⟩
    · obtain ⟨hle, hlt, -⟩ := R.new a (Option.mem_toList.1 ha)
      exact ⟨L.size_le.trans hle, hlt⟩
  · rw [R.frame a ha (hlt.trans_le L.size_le), L.frame a ha hlt]

/-- The trees of the queue, from those of the queue that a turn has left. -/
theorem HasChildren.forest {s₂ : TreeStore} (hnode : s₂.tree.node cur = some ⟨v, pl, pr⟩)
    (hl : pl = none ↔ l = .nil) (hr : pr = none ↔ r = .nil) (hlen : q.length = ts.length)
    (h : s₂.tree.Forest (q ++ (pl.toList ++ pr.toList)) us (ts ++ (nonempty l ++ nonempty r))) :
    ∃ us', s₂.tree.Forest (cur :: q) us' (.node v l r :: ts) ∧
      (nodes us').Perm (cur :: nodes us) := by
  obtain ⟨uq, uc, rfl, hq, hc⟩ := h.append hlen
  have hlen' : pl.toList.length = (nonempty l).length := by
    cases l with
    | nil => rw [hl.2 rfl]; rfl
    | node v l r =>
      cases pl with
      | none => cases hl.1 rfl
      | some a => rfl
  obtain ⟨ul, ur, rfl, hul, hur⟩ := hc.append hlen'
  obtain ⟨tl, hshow_l, hnodes_l⟩ := hul.shows hl
  obtain ⟨tr, hshow_r, hnodes_r⟩ := hur.shows hr
  refine ⟨.node cur tl tr :: uq, .cons (.node hnode hshow_l hshow_r) hq, ?_⟩
  simp only [nodes, List.flatMap_append, List.flatMap_cons, inorder_node] at hnodes_l hnodes_r ⊢
  rw [hnodes_l, hnodes_r, List.append_assoc, List.cons_append]
  refine List.perm_middle.trans (List.Perm.cons cur ?_)
  rw [← List.append_assoc]
  exact List.perm_append_comm

/-! ### The loop -/

/-- The turns of the loop for the values that are left. -/
def TreeStore.buildLoop : List CInt → ℕ → List ℕ → TreeStore → Option TreeStore
  | [], _, _, s => some s
  | [w], cur, q, s => do
    let (s, _) ← s.addLeft cur w q
    some s
  | w :: w' :: rest, cur, q, s => do
    let (s, q) ← s.addLeft cur w q
    let (s, q) ← s.addRight cur w' q
    match q with
    | [] => none
    | cur :: q => buildLoop rest cur q s

theorem of_drop_eq_cons {k : ℕ} (h : values.drop k = w :: rest) :
    k < values.length ∧ values[k]? = some w ∧ values.drop (k + 1) = rest := by
  have hlt : k < values.length := Nat.lt_of_not_le fun hle ↦ by
    rw [List.drop_eq_nil_of_le hle] at h
    cases h
  have hcons : values[k] :: values.drop (k + 1) = w :: rest :=
    (List.drop_eq_getElem_cons hlt).symm.trans h
  exact ⟨hlt, List.getElem?_eq_some_iff.2 ⟨hlt, (List.cons.inj hcons).1⟩, (List.cons.inj hcons).2⟩

theorem initLoop_eq {fuel : ℕ} {i : CInt} (hlen : values.length < 2 ^ 31) (hi : 0 ≤ i.1)
    (hrest : values.drop i.1.toNat = rest) (hfuel : rest.length < fuel) :
    TreeStore.initLoop values fuel i cur q s = TreeStore.buildLoop rest cur q s := by
  have hincr : ∀ i : CInt, 0 ≤ i.1 → i.1.toNat < values.length →
      ∃ j, i.incr = some j ∧ 0 ≤ j.1 ∧ j.1.toNat = i.1.toNat + 1 := fun i hi hlt ↦
    ⟨⟨i.1 + 1, by omega⟩, dif_pos (by omega), Int.le_add_one hi, Int.toNat_add hi Int.one_nonneg⟩
  induction fuel generalizing i rest cur q s with
  | zero => cases hfuel
  | succ fuel ih =>
    rw [TreeStore.initLoop]
    cases rest with
    | nil => rw [if_neg (Nat.not_lt.2 (List.drop_eq_nil_iff.1 hrest)), TreeStore.buildLoop]
    | cons w rest =>
      obtain ⟨hlt, hw, hrest⟩ := of_drop_eq_cons hrest
      obtain ⟨j, hj, hj0, hij⟩ := hincr i hi hlt
      rw [← hij] at hrest
      rw [if_pos hlt, hw, hj]
      cases rest with
      | nil =>
        have hend : j.1.toNat = values.length :=
          Nat.le_antisymm (hij ▸ hlt) (List.drop_eq_nil_iff.1 hrest)
        simp only [TreeStore.buildLoop, Option.bind_eq_bind, Option.bind_some, if_pos hend]
      | cons w' rest =>
        obtain ⟨hlt', hw', hrest⟩ := of_drop_eq_cons hrest
        obtain ⟨k, hk, hk0, hjk⟩ := hincr j hj0 hlt'
        rw [← hjk] at hrest
        have hturn : ∀ cur q s, TreeStore.initLoop values fuel k cur q s =
            TreeStore.buildLoop rest cur q s := fun cur q s ↦
          ih hk0 hrest (by simp only [List.length_cons] at hfuel; omega)
        simp only [TreeStore.buildLoop, Option.bind_eq_bind, Option.bind_some,
          if_neg (Nat.ne_of_lt hlt'), hw', hk, hturn]

/-- The index is an `int`, so it never comes to the end of a longer listing. -/
theorem initLoop_none {fuel : ℕ} {i : CInt} (hlen : 2 ^ 31 ≤ values.length) :
    TreeStore.initLoop values fuel i cur q s = none := by
  have hlt : ∀ i : CInt, i.1.toNat < values.length := fun i ↦ by
    have hi := i.2
    omega
  induction fuel generalizing i cur q s with
  | zero => rfl
  | succ fuel ih =>
    rw [TreeStore.initLoop, if_pos (hlt i)]
    simp only [Option.bind_eq_bind, Option.bind_eq_none_iff]
    rintro w - ⟨s₁, q₁⟩ - j -
    rw [if_neg (Nat.ne_of_lt (hlt j))]
    simp only [Option.bind_eq_none_iff]
    rintro w' - ⟨s₂, q₂⟩ -
    cases q₂ with
    | nil => rfl
    | cons cur q =>
      simp only [Option.bind_eq_none_iff]
      exact fun k _ ↦ ih

/-- What the loop has made of the nodes `as` and the listing of their trees. -/
structure Rebuilt (s s' : TreeStore) (as : List ℕ) (us : List (BinaryTree ℕ))
    (ts : List (BinaryTree CInt)) : Prop where
  forest : s'.tree.Forest as us ts
  nodup : (nodes us).Nodup
  mem : ∀ a ∈ nodes us, a ∈ as ∨ s.size ≤ a
  frame : ∀ a, a ∉ as → a < s.size → s'.tree.node a = s.tree.node a
  root : s'.tree.root = s.tree.root

/-- The nodes in the queue, whose children are still to be made. -/
structure Pending (s : TreeStore) (as : List ℕ) (ts : List (BinaryTree CInt)) : Prop where
  ready : List.Forall₂ s.tree.Ready as ts
  nodup : as.Nodup
  lt_size : ∀ a ∈ as, a < s.size
  nonzero : ∀ t ∈ ts, Nonzero t

theorem ready_congr (h : List.Forall₂ s.tree.Ready as ts)
    (hnode : ∀ a ∈ as, s'.tree.node a = s.tree.node a) :
    List.Forall₂ s'.tree.Ready as ts := by
  induction h with
  | nil => exact .nil
  | @cons a t as ts h _ ih =>
    refine .cons ?_ (ih fun b hb ↦ hnode b (List.mem_cons_of_mem a hb))
    cases t with
    | nil => exact h
    | node v l r =>
      obtain ⟨x, hx, hrest⟩ := h
      exact ⟨x, (hnode a List.mem_cons_self).trans hx, hrest⟩

/-- The queue after a pair of values. -/
theorem Pending.children {s₂ : TreeStore} (P : Pending s (cur :: q) (.node v l r :: ts))
    (H : HasChildren s s₂ cur v l r pl pr) :
    Pending s₂ (q ++ (pl.toList ++ pr.toList)) (ts ++ (nonempty l ++ nonempty r)) := by
  obtain ⟨hcur, hq⟩ := List.nodup_cons.1 P.nodup
  have hlt : ∀ a ∈ q, a < s.size := fun a ha ↦ P.lt_size a (List.mem_cons_of_mem cur ha)
  obtain ⟨-, hl, hr⟩ := P.nonzero _ List.mem_cons_self
  cases P.ready with
  | cons hready hs =>
  refine ⟨List.rel_append (ready_congr hs fun a ha ↦ ?_) H.ready, ?_, fun a ha ↦ ?_, fun t ht ↦ ?_⟩
  · exact H.frame a (fun heq ↦ hcur (heq ▸ ha)) (hlt a ha)
  · refine List.nodup_append.2 ⟨hq, H.nodup, fun a ha b hb ↦ ?_⟩
    exact Nat.ne_of_lt ((hlt a ha).trans_le (H.new b hb).1)
  · rcases List.mem_append.1 ha with ha | ha
    · exact (hlt a ha).trans_le H.size_le
    · exact (H.new a ha).2
  · rcases List.mem_append.1 ht with ht | ht
    · exact P.nonzero t (List.mem_cons_of_mem _ ht)
    · rcases List.mem_append.1 ht with ht | ht
      · exact forall_nonempty (fun _ ↦ hl) t ht
      · exact forall_nonempty (fun _ ↦ hr) t ht

/-- The trees of the queue, from those of the queue after a pair of values. -/
theorem Rebuilt.node {s₂ : TreeStore} (P : Pending s (cur :: q) (.node v l r :: ts))
    (H : HasChildren s s₂ cur v l r pl pr)
    (B : Rebuilt s₂ s' (q ++ (pl.toList ++ pr.toList)) us (ts ++ (nonempty l ++ nonempty r))) :
    ∃ us', Rebuilt s s' (cur :: q) us' (.node v l r :: ts) := by
  have hcur : cur < s.size := P.lt_size cur List.mem_cons_self
  have hnot : cur ∉ q ++ (pl.toList ++ pr.toList) := fun hmem ↦ by
    rcases List.mem_append.1 hmem with hmem | hmem
    · exact (List.nodup_cons.1 P.nodup).1 hmem
    · exact Nat.not_le.2 hcur (H.new cur hmem).1
  have hnode : s'.tree.node cur = some ⟨v, pl, pr⟩ :=
    (B.frame cur hnot (hcur.trans_le H.size_le)).trans H.node
  have hlen : q.length = ts.length := Nat.succ.inj P.ready.length_eq
  obtain ⟨us', hforest, hperm⟩ := HasChildren.forest hnode H.left_iff H.right_iff hlen B.forest
  have hmem : ∀ a ∈ nodes us, a ∈ q ∨ s.size ≤ a := fun a ha ↦ by
    rcases B.mem a ha with ha | ha
    · exact (List.mem_append.1 ha).imp_right fun ha ↦ (H.new a ha).1
    · exact .inr (H.size_le.trans ha)
  refine ⟨us', hforest, ?_, fun a ha ↦ ?_, fun a ha hlt ↦ ?_, B.root.trans H.root⟩
  · refine hperm.nodup_iff.2 (List.nodup_cons.2 ⟨fun ha ↦ ?_, B.nodup⟩)
    exact (hmem cur ha).elim (List.nodup_cons.1 P.nodup).1 (Nat.not_le.2 hcur)
  · rcases List.mem_cons.1 (hperm.subset ha) with rfl | ha
    · exact .inl List.mem_cons_self
    · exact (hmem a ha).imp_left (List.mem_cons_of_mem cur)
  · have hne : a ≠ cur := fun heq ↦ ha (heq ▸ List.mem_cons_self)
    have hq : a ∉ q ++ (pl.toList ++ pr.toList) := fun hmem ↦ by
      rcases List.mem_append.1 hmem with hmem | hmem
      · exact ha (List.mem_cons_of_mem cur hmem)
      · exact Nat.not_le.2 hlt (H.new a hmem).1
    rw [B.frame a hq (hlt.trans_le H.size_le), H.frame a hne hlt]

/-- Where only zeros are left, the nodes in the queue are leaves. -/
theorem forest_leaves (h : List.Forall₂ s.tree.Ready as ts) (hnonzero : ∀ t ∈ ts, Nonzero t)
    (hzero : ∀ w ∈ levelOrder ts, w.1 = 0) : ∃ us, s.tree.Forest as us ts ∧ nodes us = as := by
  induction h with
  | nil => exact ⟨[], .nil, rfl⟩
  | @cons a t as ts h _ ih =>
    cases t with
    | nil => exact h.elim
    | node v l r =>
      obtain ⟨-, hl, hr⟩ := hnonzero _ List.mem_cons_self
      rw [levelOrder_node, List.forall_mem_cons, List.forall_mem_cons,
        rootValue_eq_zero_iff hl, rootValue_eq_zero_iff hr] at hzero
      obtain ⟨rfl, rfl, hzero⟩ := hzero
      rw [nonempty, List.append_nil, List.append_nil] at hzero
      obtain ⟨⟨v, pl, pr⟩, hx, rfl, hpl, hpr⟩ := h
      obtain rfl : pl = none := hpl.resolve_right fun h ↦ h rfl
      obtain rfl : pr = none := hpr.resolve_right fun h ↦ h rfl
      obtain ⟨us, hforest, hnodes⟩ := ih (fun t ht ↦ hnonzero t (List.mem_cons_of_mem _ ht)) hzero
      refine ⟨.node a .nil .nil :: us, .cons (.node hx .nil .nil) hforest, ?_⟩
      exact congrArg (a :: ·) hnodes

theorem rebuilt_leaves (P : Pending s as ts) {k : ℕ}
    (h : List.replicate k (wrap 0) = levelOrder ts) : ∃ us, Rebuilt s s as us ts := by
  have hzero : ∀ w ∈ levelOrder ts, w.1 = 0 := fun w hw ↦ by
    rw [← h] at hw
    exact congrArg Subtype.val (List.eq_of_mem_replicate hw)
  obtain ⟨us, hforest, hnodes⟩ := forest_leaves P.ready P.nonzero hzero
  exact ⟨us, hforest, hnodes ▸ P.nodup, fun a ha ↦ .inl (hnodes ▸ ha), fun _ _ _ ↦ rfl, rfl⟩

/-- The turn of the loop for the first node of the queue. -/
theorem Pending.turn (P : Pending s (cur :: q) ts) :
    ∃ v l r ts' s₁ pl s₂ pr, ts = .node v l r :: ts' ∧
      s.addLeft cur (rootValue l) q = some (s₁, q ++ pl.toList) ∧
      s₁.addRight cur (rootValue r) (q ++ pl.toList) =
        some (s₂, q ++ pl.toList ++ pr.toList) ∧
      HasChildren s s₂ cur v l r pl pr := by
  obtain ⟨hready, hnodup, hlt, hnonzero⟩ := P
  cases hready with
  | @cons _ t _ ts hready hs =>
    cases t with
    | nil => exact hready.elim
    | node v l r =>
      obtain ⟨-, hl, hr⟩ := hnonzero _ List.mem_cons_self
      obtain ⟨s₁, pl, s₂, pr, hleft, hright, H⟩ :=
        addChildren_spec hready hl hr (hlt cur List.mem_cons_self) q
      exact ⟨v, l, r, ts, s₁, pl, s₂, pr, rfl, hleft, hright, H⟩

/-- **The loop** makes the trees of the queue, if a zero at the end of the listing is missing. -/
theorem buildLoop_spec {k : ℕ} (P : Pending s (cur :: q) ts)
    (h : rest ++ List.replicate (k + 1) (wrap 0) = levelOrder ts) :
    ∃ s' us, TreeStore.buildLoop rest cur q s = some s' ∧ Rebuilt s s' (cur :: q) us ts := by
  induction rest using List.twoStepInduction generalizing cur q s ts with
  | nil =>
    obtain ⟨us, B⟩ := rebuilt_leaves P h
    exact ⟨s, us, rfl, B⟩
  | singleton w =>
    obtain ⟨v, l, r, ts, s₁, pl, s₂, pr, rfl, hleft, hright, H⟩ := P.turn
    rw [levelOrder_node, List.singleton_append, List.replicate_succ, List.cons.injEq,
      List.cons.injEq] at h
    obtain ⟨rfl, hr, h⟩ := h
    -- the right child is one of the zeros
    rw [← hr] at hright
    obtain ⟨rfl, hpr⟩ := Prod.mk.inj (Option.some.inj hright)
    obtain ⟨us, B⟩ := rebuilt_leaves (P.children H) h
    obtain ⟨us', B⟩ := B.node P H
    refine ⟨s₁, us', ?_, B⟩
    rw [TreeStore.buildLoop, hleft]
    rfl
  | cons_cons w w' rest ih _ =>
    obtain ⟨v, l, r, ts, s₁, pl, s₂, pr, rfl, hleft, hright, H⟩ := P.turn
    rw [levelOrder_node, List.cons_append, List.cons_append, List.cons.injEq,
      List.cons.injEq] at h
    obtain ⟨rfl, rfl, h⟩ := h
    have P' := P.children H
    rw [← List.append_assoc] at P'
    cases hq : q ++ pl.toList ++ pr.toList with
    | nil =>
      -- the zero that is missing belongs to a node of the queue
      rw [hq] at P'
      rw [List.forall₂_nil_left_iff.1 P'.ready, levelOrder_nil] at h
      cases (List.append_eq_nil_iff.1 h).2
    | cons cur' q' =>
      rw [hq] at P'
      obtain ⟨s', us, hloop, B⟩ := ih P' h
      rw [← hq, List.append_assoc] at B
      obtain ⟨us', B⟩ := B.node P H
      refine ⟨s', us', ?_, B⟩
      rw [TreeStore.buildLoop, hleft]
      simp only [Option.bind_eq_bind, Option.bind_some, hright, hq]
      exact hloop

/-- **The loop with all zeros** takes the front of an empty queue. -/
theorem buildLoop_none (P : Pending s (cur :: q) ts) :
    TreeStore.buildLoop (levelOrder ts) cur q s = none := by
  generalize hrest : levelOrder ts = rest
  induction rest using List.twoStepInduction generalizing cur q s ts with
  | nil =>
    obtain ⟨v, l, r, ts, -, -, -, -, rfl, -⟩ := P.turn
    rw [levelOrder_node] at hrest
    cases hrest
  | singleton w =>
    obtain ⟨v, l, r, ts, -, -, -, -, rfl, -⟩ := P.turn
    rw [levelOrder_node] at hrest
    cases (List.cons.inj hrest).2
  | cons_cons w w' rest ih _ =>
    obtain ⟨v, l, r, ts, s₁, pl, s₂, pr, rfl, hleft, hright, H⟩ := P.turn
    rw [levelOrder_node, List.cons.injEq, List.cons.injEq] at hrest
    obtain ⟨rfl, rfl, h⟩ := hrest
    have P' := P.children H
    rw [← List.append_assoc] at P'
    rw [TreeStore.buildLoop, hleft]
    simp only [Option.bind_eq_bind, Option.bind_some, hright]
    cases hq : q ++ pl.toList ++ pr.toList with
    | nil => rfl
    | cons cur' q' => exact ih (hq ▸ P') h

/-! ### The children that were there before -/

/-- The node `a` still has the children it had. -/
structure Kept (s s' : TreeStore) (a : ℕ) : Prop where
  size_le : s.size ≤ s'.size
  left : s.tree.left a ≠ none → s'.tree.left a ≠ none
  right : s.tree.right a ≠ none → s'.tree.right a ≠ none

theorem Kept.trans {s'' : TreeStore} (h : Kept s s' a) (h' : Kept s' s'' a) : Kept s s'' a :=
  ⟨h.size_le.trans h'.size_le, h'.left ∘ h.left, h'.right ∘ h.right⟩

/-- The other nodes stay as they are, and `cur` is set to have one child more. -/
theorem addChild_some {setChild : TreeNode ℕ → ℕ → TreeNode ℕ} {q₁ : List ℕ} (ha : a < s.size)
    (h : s.addChild setChild cur w q = some (s₁, q₁)) :
    s.size ≤ s₁.size ∧ (s₁.tree.node a = s.tree.node a ∨
      ∃ x b, s.tree.node a = some x ∧ s₁.tree.node a = some (setChild x b)) := by
  rw [TreeStore.addChild] at h
  split at h
  · obtain ⟨x, hx, h⟩ := Option.bind_eq_some_iff.1 h
    obtain ⟨rfl, -⟩ := Prod.mk.inj (Option.some.inj h)
    have hnew : Function.update s.tree.node s.size (some ⟨w, none, none⟩) a = s.tree.node a :=
      Function.update_of_ne (Nat.ne_of_lt ha) ..
    refine ⟨Nat.le_succ _, ?_⟩
    rcases eq_or_ne a cur with rfl | hne
    · exact .inr ⟨x, s.size, hnew.symm.trans hx, Function.update_self ..⟩
    · exact .inl ((Function.update_of_ne hne ..).trans hnew)
  · obtain ⟨rfl, -⟩ := Prod.mk.inj (Option.some.inj h)
    exact ⟨le_rfl, .inl rfl⟩

theorem addChild_kept {setChild : TreeNode ℕ → ℕ → TreeNode ℕ} {q₁ : List ℕ}
    (hleft : ∀ x b, x.left ≠ none → (setChild x b).left ≠ none)
    (hright : ∀ x b, x.right ≠ none → (setChild x b).right ≠ none) (ha : a < s.size)
    (h : s.addChild setChild cur w q = some (s₁, q₁)) : Kept s s₁ a := by
  obtain ⟨hle, hnode | ⟨x, b, hx, hx₁⟩⟩ := addChild_some ha h
  · refine ⟨hle, ?_, ?_⟩
    · rw [Tree.left, Tree.left, hnode]
      exact id
    · rw [Tree.right, Tree.right, hnode]
      exact id
  · refine ⟨hle, ?_, ?_⟩
    · rw [left_eq hx, left_eq hx₁]
      exact hleft x b
    · rw [right_eq hx, right_eq hx₁]
      exact hright x b

theorem addLeft_kept {q₁ : List ℕ} (ha : a < s.size)
    (h : s.addLeft cur w q = some (s₁, q₁)) : Kept s s₁ a := by
  refine addChild_kept ?_ ?_ ha h
  · exact fun _ _ _ ↦ Option.some_ne_none _
  · exact fun _ _ h ↦ h

theorem addRight_kept {q₁ : List ℕ} (ha : a < s.size)
    (h : s.addRight cur w q = some (s₁, q₁)) : Kept s s₁ a := by
  refine addChild_kept ?_ ?_ ha h
  · exact fun _ _ h ↦ h
  · exact fun _ _ _ ↦ Option.some_ne_none _

/-- Nothing sets a pointer to null. -/
theorem initLoop_kept {fuel : ℕ} {i : CInt} (ha : a < s.size)
    (h : TreeStore.initLoop values fuel i cur q s = some s') : Kept s s' a := by
  induction fuel generalizing i cur q s with
  | zero => cases h
  | succ fuel ih =>
    rw [TreeStore.initLoop] at h
    split at h
    · obtain ⟨w, -, h⟩ := Option.bind_eq_some_iff.1 h
      obtain ⟨⟨s₁, q₁⟩, hleft, h⟩ := Option.bind_eq_some_iff.1 h
      have hkept := addLeft_kept ha hleft
      obtain ⟨j, -, h⟩ := Option.bind_eq_some_iff.1 h
      split at h
      · obtain rfl := Option.some.inj h
        exact hkept
      · obtain ⟨w', -, h⟩ := Option.bind_eq_some_iff.1 h
        obtain ⟨⟨s₂, q₂⟩, hright, h⟩ := Option.bind_eq_some_iff.1 h
        have hkept' := hkept.trans (addRight_kept (ha.trans_le hkept.size_le) hright)
        cases q₂ with
        | nil => cases h
        | cons cur q =>
          obtain ⟨k, -, h⟩ := Option.bind_eq_some_iff.1 h
          exact hkept'.trans (ih (ha.trans_le hkept'.size_le) h)
    · obtain rfl := Option.some.inj h
      exact ⟨le_rfl, id, id⟩

/-! ### The tree that is listed -/

/-- A `Tree`, whose `root` is one of the nodes. -/
structure TreeObject where
  store : TreeStore
  rootNode : TreeNode ℕ
  node_root : store.tree.node store.tree.root = some rootNode
  root_lt : store.tree.root < store.size

/-- From `root` on are the nodes of a tree with the values `t`, each of them once. -/
def TreeStore.Holds (s : TreeStore) (root : ℕ) (t : BinaryTree CInt) : Prop :=
  ∃ u, s.tree.Represents u ∧ s.tree.root = root ∧ s.tree.Shows (some root) u t

/-- `Init` comes to its end without taking the front of an empty queue, and the tree is `t`. -/
def TreeObject.Rebuilds (o : TreeObject) (values : List CInt) (t : BinaryTree CInt) : Prop :=
  ∃ n, ∀ fuel ≥ n, ∃ s, o.store.init fuel values = some s ∧ s.Holds o.store.tree.root t

/-- The listing begins with the root. -/
theorem IsListing.exists_cons (h : IsListing t values) :
    ∃ v l r vs k, t = .node v l r ∧ values = v :: vs ∧
      vs ++ List.replicate k (wrap 0) = levelOrder [t] := by
  obtain ⟨hne, hnonzero, k, hk⟩ := h
  cases t with
  | nil => cases hne rfl
  | node v l r =>
    cases values with
    | nil =>
      -- the value of the root would be one of the zeros
      have hv : v ∈ List.replicate k (wrap 0) := by
        rw [← List.nil_append (List.replicate k _), hk]
        exact List.mem_cons_self
      exact absurd (congrArg Subtype.val (List.eq_of_mem_replicate hv)) hnonzero.1
    | cons w vs =>
      obtain ⟨hw, hvs⟩ := List.cons.inj hk
      exact ⟨v, l, r, vs, k, rfl, congrArg (· :: vs) hw, hvs⟩

/-- **From the root on** the loop makes the tree if and only if the indices are those of an `int`
and a zero at the end is missing. -/
theorem initLoop_iff {root : ℕ} (P : Pending s [root] [.node v l r]) (hroot : s.tree.root = root)
    (h : IsListing (.node v l r) (v :: rest)) :
    (∃ n, ∀ fuel ≥ n, ∃ s', TreeStore.initLoop (v :: rest) fuel 1 root [] s = some s' ∧
      s'.Holds root (.node v l r)) ↔
      (v :: rest).length < 2 ^ 31 ∧ v :: rest ≠ listing (.node v l r) := by
  constructor
  · rintro ⟨n, hn⟩
    obtain ⟨s', hs', -⟩ := hn (n + rest.length + 1) (by omega)
    have hlen : (v :: rest).length < 2 ^ 31 := Nat.lt_of_not_le fun hle ↦ by
      rw [initLoop_none hle] at hs'
      cases hs'
    refine ⟨hlen, fun heq ↦ ?_⟩
    have hall : rest = levelOrder [.node v l r] := (List.cons.inj heq).2
    have hfuel : rest.length < n + rest.length + 1 := Nat.lt_succ_of_le (Nat.le_add_left ..)
    rw [initLoop_eq hlen (by decide) rfl hfuel] at hs'
    have hnone := buildLoop_none P
    rw [← hall] at hnone
    cases hnone.symm.trans hs'
  · rintro ⟨hlen, hne⟩
    obtain ⟨k, hk⟩ := h.zeros
    have hrest : rest ++ List.replicate k (wrap 0) = levelOrder [.node v l r] :=
      (List.cons.inj hk).2
    cases k with
    | zero =>
      rw [List.replicate_zero, List.append_nil] at hk
      exact absurd hk hne
    | succ k =>
      obtain ⟨s', us, hloop, B⟩ := buildLoop_spec P hrest
      refine ⟨rest.length + 1, fun fuel hfuel ↦
        ⟨s', (initLoop_eq hlen (by decide) rfl hfuel).trans hloop, ?_⟩⟩
      have hroot' : s'.tree.root = root := B.root.trans hroot
      cases B.forest with
      | @cons _ u _ _ _ _ hshows hs =>
        cases hs
        have hnodup : (inorder u).Nodup := by
          rw [← List.append_nil (inorder u)]
          exact B.nodup
        obtain ⟨hseg, hnode⟩ := hshows.seg
        exact ⟨u, ⟨hroot'.symm ▸ hseg, hnodup, hnode⟩, hroot', hshows⟩

/-- **`initTreeNode`**, where there is nothing to be replaced. -/
theorem initTreeNode_iff (h : IsListing t values) :
    (∃ n, ∀ fuel ≥ n, ∃ s', s.initTreeNode fuel values = some s' ∧ s'.Holds s.size t) ↔
      values.length < 2 ^ 31 ∧ values ≠ listing t := by
  obtain ⟨v, l, r, rest, -, rfl, rfl, -⟩ := h.exists_cons
  have P : Pending (s.newRoot v) [s.size] [.node v l r] := by
    refine ⟨.cons ⟨_, Function.update_self .., rfl, .inl rfl, .inl rfl⟩ .nil,
      List.nodup_singleton _, ?_, ?_⟩
    · exact List.forall_mem_singleton.2 (Nat.lt_succ_self _)
    · exact List.forall_mem_singleton.2 h.nonzero
  exact initLoop_iff P rfl h

namespace TreeObject

variable {o : TreeObject}

/-- After `root.value = values[0]`. -/
def setRoot (o : TreeObject) (v : CInt) : TreeStore :=
  o.store.setNode o.store.tree.root { o.rootNode with value := v }

theorem init_cons (v : CInt) (vs : List CInt) (fuel : ℕ) :
    o.store.init fuel (v :: vs) =
      TreeStore.initLoop (v :: vs) fuel 1 o.store.tree.root [] (o.setRoot v) := by
  simp only [TreeStore.init, List.getElem?_cons_zero, o.node_root, Option.bind_eq_bind,
    Option.bind_some]
  rfl

theorem pending_root (hnonzero : Nonzero (.node v l r))
    (hl : o.rootNode.left = none ∨ l ≠ .nil) (hr : o.rootNode.right = none ∨ r ≠ .nil) :
    Pending (o.setRoot v) [o.store.tree.root] [.node v l r] := by
  refine ⟨.cons ⟨_, Function.update_self .., rfl, hl, hr⟩ .nil, List.nodup_singleton _, ?_, ?_⟩
  · exact List.forall_mem_singleton.2 o.root_lt
  · exact List.forall_mem_singleton.2 hnonzero

/-- A child that there was and that is not replaced is still there. -/
theorem children_of_holds {fuel : ℕ} (h : o.store.init fuel (v :: rest) = some s)
    (hs : s.Holds o.store.tree.root (.node v l r)) :
    (o.rootNode.left = none ∨ l ≠ .nil) ∧ (o.rootNode.right = none ∨ r ≠ .nil) := by
  rw [init_cons] at h
  have hlt : o.store.tree.root < (o.setRoot v).size := o.root_lt
  have hkept := initLoop_kept hlt h
  have hroot : (o.setRoot v).tree.node o.store.tree.root =
      some { o.rootNode with value := v } := Function.update_self ..
  obtain ⟨u, -, -, hshows⟩ := hs
  cases hshows with
  | node hx hl hr =>
    refine ⟨or_iff_not_imp_left.2 fun hleft hnil ↦ ?_,
      or_iff_not_imp_left.2 fun hright hnil ↦ ?_⟩
    · have hkept := hkept.left (by rwa [left_eq hroot])
      subst hnil
      rw [left_eq hx] at hkept
      exact hkept hl.eq_none
    · have hkept := hkept.right (by rwa [right_eq hroot])
      subst hnil
      rw [right_eq hx] at hkept
      exact hkept hr.eq_none

/-- **`Init`** makes the tree that is listed if and only if the indices are those of an `int`, a
zero at the end is missing and the children the root had before are replaced. -/
theorem rebuilds_iff (h : IsListing t values) : o.Rebuilds values t ↔
    values.length < 2 ^ 31 ∧ values ≠ listing t ∧
      (o.rootNode.left = none ∨ t.left ≠ .nil) ∧ (o.rootNode.right = none ∨ t.right ≠ .nil) := by
  obtain ⟨v, l, r, rest, -, rfl, rfl, -⟩ := h.exists_cons
  constructor
  · intro hrebuilds
    obtain ⟨n, hn⟩ := hrebuilds
    obtain ⟨s, hs, hholds⟩ := hn n le_rfl
    obtain ⟨hl, hr⟩ := children_of_holds hs hholds
    simp only [init_cons] at hn
    obtain ⟨hlen, hne⟩ := (initLoop_iff (pending_root h.nonzero hl hr) rfl h).1 ⟨n, hn⟩
    exact ⟨hlen, hne, hl, hr⟩
  · rintro ⟨hlen, hne, hl, hr⟩
    obtain ⟨n, hn⟩ := (initLoop_iff (pending_root h.nonzero hl hr) rfl h).2 ⟨hlen, hne⟩
    exact ⟨n, fun fuel hfuel ↦ init_cons (o := o) v rest fuel ▸ hn fuel hfuel⟩

/-- A new object, with the root at 0. -/
def default : TreeObject :=
  ⟨⟨⟨0, fun a ↦ if a = 0 then some ⟨wrap 0, none, none⟩ else none⟩, 1⟩, ⟨wrap 0, none, none⟩,
    rfl, Nat.one_pos⟩

/-- The tree of `{1, 2, 3, 0, 0, 4, 5}`. -/
def testValues : BinaryTree CInt :=
  .node (wrap 1) (.node (wrap 2) .nil .nil)
    (.node (wrap 3) (.node (wrap 4) .nil .nil) (.node (wrap 5) .nil .nil))

theorem listing_testValues : listing testValues =
    [1, 2, 3, 0, 0, 4, 5].map wrap ++ List.replicate 4 (wrap 0) := by
  simp [testValues, listing, levelOrder, rootValue, nonempty]

theorem isListing_test : IsListing testValues ([1, 2, 3, 0, 0, 4, 5].map wrap) :=
  ⟨nofun, by simp [testValues, Nonzero, wrap], 4, listing_testValues.symm⟩

theorem rebuilds_test : default.Rebuilds ([1, 2, 3, 0, 0, 4, 5].map wrap) testValues := by
  refine (rebuilds_iff isListing_test).2 ⟨by decide, ?_, .inl rfl, .inl rfl⟩
  rw [listing_testValues]
  exact fun h ↦ absurd (congrArg List.length h) (by decide)

/-- For a single node with both zeros there is no next node in the queue. -/
theorem not_forall_rebuilds : ¬ ∀ (o : TreeObject) (values : List CInt) (t : BinaryTree CInt),
    IsListing t values → o.Rebuilds values t := by
  intro h
  obtain ⟨n, hn⟩ := h default ([1, 0, 0].map wrap) (.node (wrap 1) .nil .nil)
    ⟨nofun, by simp [Nonzero, wrap], 0, by simp [listing, levelOrder, rootValue, nonempty]⟩
  obtain ⟨s, hs, -⟩ := hn (n + 1) (Nat.le_succ n)
  rw [List.map_cons, init_cons] at hs
  cases hs

end TreeObject

end Struct
