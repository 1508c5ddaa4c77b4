import Mathlib.Algebra.BigOperators.Group.Finset.Basic
import Mathlib.Algebra.Order.BigOperators.Group.Finset
import Mathlib.Algebra.Order.Group.Int
import Mathlib.Algebra.Order.Interval.Finset.SuccPred
import Mathlib.Data.Nat.SuccPred
import Mathlib.Order.Bounds.Basic
import Mathlib.Order.Interval.Finset.Nat
import Mathlib.Tactic.Linarith
import MiscCpp.Library.LinkedTree

/-!
# The best choice without neighbours

Out of a finite set, elements are chosen no two of which are neighbours, and the sum of their
weights is to be as large as possible. `IsBest` is the largest sum; it is compositional in three
ways:

* `IsBest.insert`: one more element is chosen, with the best choice from what is no neighbour of it,
  or it is not;
* `IsBest.disjUnion`: two sets without neighbours across them are independent of each other;
* `IsBest.of_adj`: one of two neighbours is not chosen.

On a path, where the neighbours are `i` and `i + 1`, and on a tree, where they are a node and its
children, the first two give the usual recursion over two values (`isBest_Ico_succ`,
`isBest_node`).
-/

namespace NonAdjacent

variable {ι : Type*}

/-- No two elements are neighbours, and none is its own. -/
def Independent (adj : ι → ι → Prop) (S : Finset ι) : Prop := ∀ a ∈ S, ∀ b ∈ S, ¬ adj a b

/-- The sums of the choices from `T`. -/
def sums (adj : ι → ι → Prop) (w : ι → ℤ) (T : Finset ι) : Set ℤ :=
  {v | ∃ S ⊆ T, Independent adj S ∧ ∑ a ∈ S, w a = v}

/-- The value is the greatest sum of a choice from the set. -/
abbrev IsBest (adj : ι → ι → Prop) (w : ι → ℤ) (T : Finset ι) (v : ℤ) : Prop :=
  IsGreatest (sums adj w T) v

variable {adj : ι → ι → Prop} {w : ι → ℤ} {S T T' : Finset ι} {a b : ι} {v v' : ℤ}

theorem Independent.subset (h : Independent adj T) (hsub : S ⊆ T) : Independent adj S :=
  fun a ha b hb ↦ h a (hsub ha) b (hsub hb)

theorem sums_mono (hsub : T ⊆ T') : sums adj w T ⊆ sums adj w T' :=
  fun _ ⟨S, hS, hadj, hsum⟩ ↦ ⟨S, hS.trans hsub, hadj, hsum⟩

/-- A larger set has a better choice or an equal one. -/
theorem IsBest.le (h : IsBest adj w T v) (h' : IsBest adj w T' v') (hsub : T ⊆ T') : v ≤ v' :=
  h'.2 (sums_mono hsub h.1)

/-- Only the neighbours and the weights within the set matter. -/
theorem sums_congr {adj' : ι → ι → Prop} {w' : ι → ℤ}
    (hadj : ∀ a ∈ T, ∀ b ∈ T, adj a b ↔ adj' a b) (hw : ∀ a ∈ T, w a = w' a) :
    sums adj w T = sums adj' w' T := by
  refine Set.ext fun v ↦ exists_congr fun S ↦ and_congr_right fun hS ↦ and_congr ?_ ?_
  · exact forall₂_congr fun a ha ↦ forall₂_congr fun b hb ↦
      not_congr (hadj a (hS ha) b (hS hb))
  · rw [Finset.sum_congr rfl fun a ha ↦ hw a (hS ha)]

theorem isBest_empty : IsBest adj w ∅ 0 := by
  refine ⟨⟨∅, Finset.Subset.refl _, fun a ha ↦ absurd ha (Finset.notMem_empty a),
    Finset.sum_empty⟩, ?_⟩
  rintro _ ⟨S, hS, -, rfl⟩
  rw [Finset.subset_empty.1 hS, Finset.sum_empty]

/-- Choosing nothing is a choice, so the best sum is not negative. -/
theorem IsBest.nonneg (h : IsBest adj w T v) : 0 ≤ v :=
  isBest_empty.le h (Finset.empty_subset T)

/-- Choosing one element is a choice, if it is not its own neighbour. -/
theorem IsBest.weight_le (h : IsBest adj w T v) (ha : a ∈ T) (haa : ¬ adj a a) : w a ≤ v := by
  refine h.2 ⟨{a}, Finset.singleton_subset_iff.2 ha, fun b hb c hc ↦ ?_, Finset.sum_singleton w a⟩
  rwa [Finset.mem_singleton.1 hb, Finset.mem_singleton.1 hc]

section DecidableEq

variable [DecidableEq ι]

/-- **An element more**: it is chosen, or it is not. -/
theorem IsBest.insert (h : IsBest adj w T v) (ha : a ∉ T) (haa : ¬ adj a a)
    (hsub : T' ⊆ T) (hT' : ∀ b ∈ T, b ∈ T' ↔ ¬ adj a b ∧ ¬ adj b a)
    (h' : IsBest adj w T' v') : IsBest adj w (insert a T) (max v (v' + w a)) := by
  constructor
  · rcases max_choice v (v' + w a) with hmax | hmax
    · rw [hmax]
      exact sums_mono (Finset.subset_insert a T) h.1
    · rw [hmax]
      obtain ⟨S, hS, hadj, rfl⟩ := h'.1
      refine ⟨Insert.insert a S, Finset.insert_subset_insert a (hS.trans hsub), ?_, ?_⟩
      · have hother (b : ι) (hb : b ∈ S) := (hT' b (hsub (hS hb))).1 (hS hb)
        intro b hb c hc
        rcases Finset.mem_insert.1 hb with rfl | hbS
        · rcases Finset.mem_insert.1 hc with rfl | hcS
          · exact haa
          · exact (hother c hcS).1
        · rcases Finset.mem_insert.1 hc with rfl | hcS
          · exact (hother b hbS).2
          · exact hadj b hbS c hcS
      · rw [Finset.sum_insert fun hS' ↦ ha (hsub (hS hS')), add_comm]
  · rintro _ ⟨S, hS, hadj, rfl⟩
    rcases em (a ∈ S) with haS | haS
    · refine le_max_of_le_right ?_
      rw [← Finset.sum_erase_add S w haS]
      refine add_le_add_left
        (h'.2 ⟨S.erase a, fun b hb ↦ ?_, hadj.subset (S.erase_subset a), rfl⟩) _
      obtain ⟨hne, hbS⟩ := Finset.mem_erase.1 hb
      have hbT := (Finset.mem_insert.1 (hS hbS)).resolve_left hne
      exact (hT' b hbT).2 ⟨hadj a haS b hbS, hadj b hbS a haS⟩
    · exact le_max_of_le_left (h.2 ⟨S, fun b hb ↦
        (Finset.mem_insert.1 (hS hb)).resolve_left fun heq ↦ haS (heq ▸ hb), hadj, rfl⟩)

/-- **Two sets** without neighbours across them. -/
theorem IsBest.disjUnion (h : IsBest adj w T v) (h' : IsBest adj w T' v')
    (hdisj : Disjoint T T') (hacross : ∀ a ∈ T, ∀ b ∈ T', ¬ adj a b ∧ ¬ adj b a) :
    IsBest adj w (T ∪ T') (v + v') := by
  constructor
  · obtain ⟨S, hS, hadj, rfl⟩ := h.1
    obtain ⟨S', hS', hadj', rfl⟩ := h'.1
    refine ⟨S ∪ S', Finset.union_subset_union hS hS', fun a ha b hb ↦ ?_,
      Finset.sum_union (hdisj.mono hS hS')⟩
    rcases Finset.mem_union.1 ha with ha | ha <;> rcases Finset.mem_union.1 hb with hb | hb
    · exact hadj a ha b hb
    · exact (hacross a (hS ha) b (hS' hb)).1
    · exact (hacross b (hS hb) a (hS' ha)).2
    · exact hadj' a ha b hb
  · rintro _ ⟨S, hS, hadj, rfl⟩
    have hsplit : S = S ∩ T ∪ S ∩ T' := by
      rw [← Finset.inter_union_distrib_left, Finset.inter_eq_left.2 hS]
    rw [hsplit, Finset.sum_union (hdisj.mono Finset.inter_subset_right Finset.inter_subset_right)]
    exact add_le_add
      (h.2 ⟨S ∩ T, Finset.inter_subset_right, hadj.subset Finset.inter_subset_left, rfl⟩)
      (h'.2 ⟨S ∩ T', Finset.inter_subset_right, hadj.subset Finset.inter_subset_left, rfl⟩)

/-- **Of two neighbours**, or of one that is its own neighbour, one is not chosen. -/
theorem IsBest.of_adj (hab : adj a b) (h : IsBest adj w (T.erase a) v)
    (h' : IsBest adj w (T.erase b) v') : IsBest adj w T (max v v') := by
  constructor
  · rcases max_choice v v' with hmax | hmax
    · rw [hmax]
      exact sums_mono (T.erase_subset a) h.1
    · rw [hmax]
      exact sums_mono (T.erase_subset b) h'.1
  · rintro _ ⟨S, hS, hadj, rfl⟩
    rcases em (a ∈ S) with ha | ha
    · have hb : b ∉ S := fun hb ↦ hadj a ha b hb hab
      exact le_max_of_le_right (h'.2 ⟨S, Finset.subset_erase.2 ⟨hS, hb⟩, hadj, rfl⟩)
    · exact le_max_of_le_left (h.2 ⟨S, Finset.subset_erase.2 ⟨hS, ha⟩, hadj, rfl⟩)

end DecidableEq

/-! ### Paths -/

/-- The neighbours on a path. -/
def Next (i j : ℕ) : Prop := j = i + 1

/-- The two values of a loop over a path, one house further. -/
theorem isBest_Ico_succ {w : ℕ → ℤ} {l r : ℕ} (hlr : l ≤ r)
    (hprev : IsBest Next w (Finset.Ico l (r - 1)) v')
    (hcur : IsBest Next w (Finset.Ico l r) v) :
    IsBest Next w (Finset.Ico l (r + 1)) (max v (v' + w r)) := by
  rw [← Finset.insert_Ico_right_eq_Ico_add_one hlr]
  refine hcur.insert (fun h ↦ lt_irrefl r (Finset.mem_Ico.1 h).2) (Nat.succ_ne_self r).symm
    (Finset.Ico_subset_Ico_right (Nat.sub_le r 1)) (fun b hb ↦ ?_) hprev
  rw [Finset.mem_Ico] at hb ⊢
  unfold Next
  omega

/-! ### Trees -/

open LinkedTree

section Trees

variable [DecidableEq ι] {t l r : BinaryTree ι}

/-- The nodes of a tree. -/
def nodes (t : BinaryTree ι) : Finset ι := (inorder t).toFinset

/-- The nodes but the root. -/
def below : BinaryTree ι → Finset ι
  | .nil => ∅
  | .node _ l r => nodes l ∪ nodes r

theorem mem_nodes : b ∈ nodes t ↔ b ∈ inorder t := List.mem_toFinset

theorem nodes_node (a : ι) (l r : BinaryTree ι) :
    nodes (.node a l r) = insert a (below (.node a l r)) := by
  ext b
  rw [mem_nodes, inorder_node, Finset.mem_insert, below, Finset.mem_union, mem_nodes, mem_nodes,
    List.mem_append, List.mem_cons]
  exact or_left_comm

theorem below_subset (t : BinaryTree ι) : below t ⊆ nodes t := by
  cases t with
  | nil => exact Finset.empty_subset _
  | node a l r => exact nodes_node a l r ▸ Finset.subset_insert a _

section Node

variable (hnodup : (inorder (.node a l r)).Nodup)
include hnodup

theorem not_mem_below : a ∉ below (.node a l r) := by
  obtain ⟨-, -, hal, har, -⟩ := nodup_node.1 hnodup
  rw [below, Finset.mem_union, mem_nodes, mem_nodes]
  exact not_or.2 ⟨hal, har⟩

omit hnodup in
/-- The nodes below the root are the ones that are not the root. -/
theorem mem_below_iff (hnodup : (inorder t).Nodup) (hb : b ∈ nodes t) :
    b ∈ below t ↔ b ∉ root t := by
  cases t with
  | nil => exact absurd (mem_nodes.1 hb) List.not_mem_nil
  | node a l r =>
    rw [nodes_node, Finset.mem_insert] at hb
    constructor
    · intro h hroot
      rw [Option.some.inj hroot] at hnodup
      exact not_mem_below hnodup h
    · exact fun hroot ↦ hb.resolve_left fun heq ↦ hroot (congrArg some heq.symm)

/-- Two subtrees have no node in common. -/
theorem disjoint_nodes : Disjoint (nodes l) (nodes r) := by
  obtain ⟨-, -, -, -, hdisj⟩ := nodup_node.1 hnodup
  exact Finset.disjoint_left.2 fun b hl hr ↦ hdisj (mem_nodes.1 hl) (mem_nodes.1 hr)

/-- Within the left subtree, the children are the ones there. -/
theorem child_left_iff {c : ι} (hb : b ∈ nodes l) :
    Child (.node a l r) b c ↔ Child l b c := by
  obtain ⟨-, -, hal, -, hdisj⟩ := nodup_node.1 hnodup
  rw [mem_nodes] at hb
  refine ⟨?_, fun h ↦ .inr (.inl h)⟩
  rintro (⟨rfl, -⟩ | h | h)
  · exact absurd hb hal
  · exact h
  · exact absurd h.mem.1 (hdisj hb)

/-- Within the right subtree, the children are the ones there. -/
theorem child_right_iff {c : ι} (hb : b ∈ nodes r) :
    Child (.node a l r) b c ↔ Child r b c := by
  obtain ⟨-, -, -, har, hdisj⟩ := nodup_node.1 hnodup
  rw [mem_nodes] at hb
  refine ⟨?_, fun h ↦ .inr (.inr h)⟩
  rintro (⟨rfl, -⟩ | h | h)
  · exact absurd hb har
  · exact absurd hb (hdisj h.mem.1)
  · exact h

omit [DecidableEq ι] in
/-- The children of the root are the roots of the subtrees. -/
theorem child_root_iff : Child (.node a l r) a b ↔ b ∈ root l ∨ b ∈ root r := by
  obtain ⟨-, -, hal, har, -⟩ := nodup_node.1 hnodup
  refine ⟨?_, fun h ↦ .inl ⟨rfl, h⟩⟩
  rintro (⟨-, h⟩ | h | h)
  · exact h
  · exact absurd h.mem.1 hal
  · exact absurd h.mem.1 har

omit [DecidableEq ι] in
/-- No node has the root for a child. -/
theorem not_child_root (b : ι) : ¬ Child (.node a l r) b a := by
  obtain ⟨-, -, hal, har, -⟩ := nodup_node.1 hnodup
  rintro (⟨-, h | h⟩ | h | h)
  · exact hal (mem_of_mem_root h)
  · exact har (mem_of_mem_root h)
  · exact hal h.mem.2
  · exact har h.mem.2

/-- **The subtrees** are independent of each other. -/
theorem isBest_union (hT : T ⊆ nodes l) (hT' : T' ⊆ nodes r) (h : IsBest (Child l) w T v)
    (h' : IsBest (Child r) w T' v') : IsBest (Child (.node a l r)) w (T ∪ T') (v + v') := by
  have hdisj := disjoint_nodes hnodup
  refine IsBest.disjUnion ?_ ?_ (hdisj.mono hT hT') fun b hb c hc ↦ ⟨fun hbc ↦ ?_, fun hcb ↦ ?_⟩
  · rwa [IsBest, sums_congr (fun b hb _ _ ↦ child_left_iff hnodup (hT hb)) fun _ _ ↦ rfl]
  · rwa [IsBest, sums_congr (fun b hb _ _ ↦ child_right_iff hnodup (hT' hb)) fun _ _ ↦ rfl]
  · have hmem := mem_nodes.2 ((child_left_iff hnodup (hT hb)).1 hbc).mem.2
    exact Finset.disjoint_left.1 hdisj hmem (hT' hc)
  · have hmem := mem_nodes.2 ((child_right_iff hnodup (hT' hc)).1 hcb).mem.2
    exact Finset.disjoint_left.1 hdisj (hT hb) hmem

/-- What can be chosen with the root. -/
theorem mem_below_union_iff (hb : b ∈ below (.node a l r)) :
    b ∈ below l ∪ below r ↔ ¬ Child (.node a l r) a b ∧ ¬ Child (.node a l r) b a := by
  obtain ⟨hnodup_l, hnodup_r, -, -, hdisj⟩ := nodup_node.1 hnodup
  rw [child_root_iff hnodup, and_iff_left (not_child_root hnodup b), not_or, Finset.mem_union]
  rcases Finset.mem_union.1 hb with hb | hb
  · have hbr : b ∉ inorder r := hdisj (mem_nodes.1 hb)
    rw [mem_below_iff hnodup_l hb, or_iff_left fun h ↦ hbr (mem_nodes.1 (below_subset r h)),
      and_iff_left fun h ↦ hbr (mem_of_mem_root h)]
  · have hbl : b ∉ inorder l := fun h ↦ hdisj h (mem_nodes.1 hb)
    rw [mem_below_iff hnodup_r hb, or_iff_right fun h ↦ hbl (mem_nodes.1 (below_subset l h)),
      and_iff_right fun h ↦ hbl (mem_of_mem_root h)]

/-- The two values of a tree from those of its subtrees. -/
theorem isBest_node {p p' : ℤ} (hl : IsBest (Child l) w (nodes l) v)
    (hr : IsBest (Child r) w (nodes r) v') (hl' : IsBest (Child l) w (below l) p)
    (hr' : IsBest (Child r) w (below r) p') :
    IsBest (Child (.node a l r)) w (below (.node a l r)) (v + v') ∧
      IsBest (Child (.node a l r)) w (nodes (.node a l r)) (max (v + v') (p + p' + w a)) := by
  have hbelow := isBest_union hnodup Finset.Subset.rfl Finset.Subset.rfl hl hr
  refine ⟨hbelow, ?_⟩
  rw [nodes_node]
  exact IsBest.insert hbelow (not_mem_below hnodup) (not_child_root hnodup a)
    (Finset.union_subset_union (below_subset l) (below_subset r))
    (fun b hb ↦ mem_below_union_iff hnodup hb)
    (isBest_union hnodup (below_subset l) (below_subset r) hl' hr')

end Node

end Trees

end NonAdjacent
