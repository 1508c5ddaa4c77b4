import Mathlib.Algebra.BigOperators.Group.Finset.Piecewise
import Mathlib.Algebra.Order.Monoid.Defs
import Mathlib.Combinatorics.SimpleGraph.Paths
import Mathlib.Order.Bounds.Basic
import MiscCpp.Library.LinkedTree

/-!
# Connected sets of nodes at the root

The values of a set of nodes that contains the parents of its nodes, and so the root if it is not
empty. The greatest sum is the value of the root with the greatest sums of both subtrees that are
not negative (`isGreatest_gain`).

`pathSums` has the sums over the paths, which need not be sums of such sets, nor the other way
round.
-/

namespace RootedSets

open LinkedTree

variable {ι M : Type*}

/-- The set contains the parents of its nodes. -/
def Rooted (t : BinaryTree ι) (S : Finset ι) : Prop := ∀ a b, Child t a b → b ∈ S → a ∈ S

section Spec

variable [AddCommMonoid M]

/-- The sums over the connected sets of nodes that contain the root. -/
def rootedSums (val : ι → M) (t : BinaryTree ι) : Set M :=
  {x | ∃ S : Finset ι, S.Nonempty ∧ (∀ a ∈ S, a ∈ inorder t) ∧ Rooted t S ∧ ∑ a ∈ S, val a = x}

/-- The sums over the paths. -/
def pathSums (val : ι → M) (t : BinaryTree ι) : Set M :=
  {x | ∃ (a b : ι) (w : (SimpleGraph.fromRel (Child t)).Walk a b), a ∈ inorder t ∧ w.IsPath ∧
    (w.support.map val).sum = x}

end Spec

/-! ### Sets of nodes -/

variable {t l r : BinaryTree ι} {S T : Finset ι} {a b : ι}

theorem Rooted.left (h : Rooted (.node a l r) S) : Rooted l S :=
  fun b c hbc ↦ h b c (Or.inr (Or.inl hbc))

theorem Rooted.right (h : Rooted (.node a l r) S) : Rooted r S :=
  fun b c hbc ↦ h b c (Or.inr (Or.inr hbc))

/-- A node of the tree brings the root with it. -/
theorem Rooted.root_mem (h : Rooted t S) (hb : b ∈ inorder t) (hbS : b ∈ S) :
    ∃ a ∈ root t, a ∈ S := by
  induction t with
  | nil => cases hb
  | node c l r ihl ihr =>
    refine ⟨c, rfl, ?_⟩
    rcases List.mem_append.1 hb with hb | hb
    · obtain ⟨a, ha, haS⟩ := ihl h.left hb
      exact h c a (Or.inl ⟨rfl, Or.inl ha⟩) haS
    · rcases List.mem_cons.1 hb with rfl | hb
      · exact hbS
      · obtain ⟨a, ha, haS⟩ := ihr h.right hb
        exact h c a (Or.inl ⟨rfl, Or.inr ha⟩) haS

variable [DecidableEq ι]

/-- The root with sets of both subtrees. -/
theorem Rooted.node (hnodup : (inorder (.node a l r)).Nodup) (hS : Rooted l S) (hT : Rooted r T)
    (hSl : ∀ b ∈ S, b ∈ inorder l) (hTr : ∀ b ∈ T, b ∈ inorder r) :
    Rooted (.node a l r) (insert a (S ∪ T)) := by
  obtain ⟨-, -, hal, har, hdisj⟩ := nodup_node.1 hnodup
  rintro b c (⟨rfl, -⟩ | hbc | hbc) hc
  · exact Finset.mem_insert_self b _
  · refine Finset.mem_insert_of_mem (Finset.mem_union_left T (hS b c hbc ?_))
    rcases Finset.mem_insert.1 hc with rfl | hc
    · exact absurd hbc.mem.2 hal
    · exact (Finset.mem_union.1 hc).resolve_right fun hcT ↦ hdisj hbc.mem.2 (hTr c hcT)
  · refine Finset.mem_insert_of_mem (Finset.mem_union_right S (hT b c hbc ?_))
    rcases Finset.mem_insert.1 hc with rfl | hc
    · exact absurd hbc.mem.2 har
    · exact (Finset.mem_union.1 hc).resolve_left fun hcS ↦ hdisj (hSl c hcS) hbc.mem.2

/-! ### Sums -/

section Weight

variable [AddCommMonoid M] (val : ι → M)

/-- The sum of the values of the nodes in the set. -/
def weight (t : BinaryTree ι) (S : Finset ι) : M :=
  ((inorder t).map fun a ↦ if a ∈ S then val a else 0).sum

theorem weight_node : weight val (.node a l r) S =
    weight val l S + weight val r S + if a ∈ S then val a else 0 := by
  rw [weight, inorder_node, List.map_append, List.sum_append, List.map_cons, List.sum_cons,
    add_assoc, add_comm (weight val r S)]
  rfl

/-- The weight of a set is the sum over it. -/
theorem weight_eq_sum (hnodup : (inorder t).Nodup) (hS : ∀ a ∈ S, a ∈ inorder t) :
    weight val t S = ∑ a ∈ S, val a := by
  have hsub : (inorder t).toFinset ∩ S = S :=
    Finset.inter_eq_right.2 fun a ha ↦ List.mem_toFinset.2 (hS a ha)
  rw [weight, ← List.sum_toFinset _ hnodup, Finset.sum_ite_mem, hsub]

theorem weight_congr (h : ∀ a ∈ inorder t, a ∈ S ↔ a ∈ T) : weight val t S = weight val t T := by
  refine congrArg List.sum (List.map_congr_left fun a ha ↦ ?_)
  simp only [h a ha]

/-- Without the root there is nothing. -/
theorem weight_eq_zero (h : Rooted t S) (hroot : ∀ a ∈ root t, a ∉ S) : weight val t S = 0 := by
  refine List.sum_eq_zero fun x hx ↦ ?_
  obtain ⟨b, hb, rfl⟩ := List.mem_map.1 hx
  refine if_neg fun hbS ↦ ?_
  obtain ⟨a, ha, haS⟩ := h.root_mem hb hbS
  exact hroot a ha haS

/-- The weight of sets in the subtrees with the root. -/
theorem weight_insert (hnodup : (inorder (.node a l r)).Nodup) (hSl : ∀ b ∈ S, b ∈ inorder l)
    (hTr : ∀ b ∈ T, b ∈ inorder r) :
    weight val (.node a l r) (insert a (S ∪ T)) = weight val l S + weight val r T + val a := by
  obtain ⟨-, -, hal, har, hdisj⟩ := nodup_node.1 hnodup
  rw [weight_node, if_pos (Finset.mem_insert_self a _)]
  congr 2
  · refine weight_congr val fun b hb ↦ ?_
    have hne : b ≠ a := ne_of_mem_of_not_mem hb hal
    rw [Finset.mem_insert, or_iff_right hne, Finset.mem_union]
    exact or_iff_left fun hbT ↦ hdisj hb (hTr b hbT)
  · refine weight_congr val fun b hb ↦ ?_
    have hne : b ≠ a := ne_of_mem_of_not_mem hb har
    rw [Finset.mem_insert, or_iff_right hne, Finset.mem_union]
    exact or_iff_right fun hbS ↦ hdisj (hSl b hbS) hb

end Weight

/-! ### The greatest sum -/

variable [AddCommMonoid M] [LinearOrder M]

/-- The value of the root and what both subtrees add to it. -/
def gain (val : ι → M) : BinaryTree ι → M
  | .nil => 0
  | .node a l r => max 0 (gain val l) + max 0 (gain val r) + val a

variable {val : ι → M}

/-- The best sets of both subtrees, with the root. -/
theorem exists_weight_eq_gain (hnodup : (inorder (.node a l r)).Nodup)
    (hS : (∀ b ∈ S, b ∈ inorder l) ∧ Rooted l S ∧ weight val l S = max 0 (gain val l))
    (hT : (∀ b ∈ T, b ∈ inorder r) ∧ Rooted r T ∧ weight val r T = max 0 (gain val r)) :
    (∀ b ∈ insert a (S ∪ T), b ∈ inorder (.node a l r)) ∧
      Rooted (.node a l r) (insert a (S ∪ T)) ∧
      weight val (.node a l r) (insert a (S ∪ T)) = gain val (.node a l r) := by
  obtain ⟨hSl, hS, hS_eq⟩ := hS
  obtain ⟨hTr, hT, hT_eq⟩ := hT
  refine ⟨fun b hb ↦ ?_, hS.node hnodup hT hSl hTr, ?_⟩
  · rw [inorder_node, List.mem_append, List.mem_cons]
    rcases Finset.mem_insert.1 hb with rfl | hb
    · exact Or.inr (Or.inl rfl)
    · exact (Finset.mem_union.1 hb).imp (hSl b) fun hbT ↦ Or.inr (hTr b hbT)
  · rw [weight_insert val hnodup hSl hTr, hS_eq, hT_eq, gain]

variable (val) in
/-- Some rooted set reaches the gain, or the empty one is better. -/
theorem exists_weight_eq_max (hnodup : (inorder t).Nodup) :
    ∃ S : Finset ι, (∀ a ∈ S, a ∈ inorder t) ∧ Rooted t S ∧
      weight val t S = max 0 (gain val t) := by
  induction t with
  | nil => exact ⟨∅, fun a ha ↦ absurd ha (Finset.notMem_empty a), fun a b h ↦ h.elim,
      (max_self 0).symm⟩
  | node a l r ihl ihr =>
    obtain ⟨hnodup_l, hnodup_r, -⟩ := nodup_node.1 hnodup
    rcases le_total 0 (gain val (.node a l r)) with hge | hle
    · obtain ⟨S, hS⟩ := ihl hnodup_l
      obtain ⟨T, hT⟩ := ihr hnodup_r
      rw [max_eq_right hge]
      exact ⟨_, exists_weight_eq_gain hnodup hS hT⟩
    · have hempty : Rooted (.node a l r) ∅ := fun b c _ hc ↦ absurd hc (Finset.notMem_empty c)
      refine ⟨∅, fun b hb ↦ absurd hb (Finset.notMem_empty b), hempty, ?_⟩
      rw [max_eq_left hle]
      exact weight_eq_zero val hempty fun b _ ↦ Finset.notMem_empty b

variable [IsOrderedAddMonoid M]

/-- No rooted set exceeds the gain and 0. -/
theorem weight_le_max (h : Rooted t S) : weight val t S ≤ max 0 (gain val t) := by
  induction t with
  | nil => exact le_max_left 0 _
  | node a l r ihl ihr =>
    by_cases ha : a ∈ S
    · refine le_max_of_le_right ?_
      rw [weight_node, if_pos ha]
      exact add_le_add (add_le_add (ihl h.left) (ihr h.right)) le_rfl
    · rw [weight_eq_zero val h fun b hb ↦ Option.some.inj hb ▸ ha]
      exact le_max_left 0 _

/-- No rooted set with the root exceeds the gain. -/
theorem weight_le_gain (h : Rooted (.node a l r) S) (ha : a ∈ S) :
    weight val (.node a l r) S ≤ gain val (.node a l r) := by
  rw [weight_node, if_pos ha]
  exact add_le_add (add_le_add (weight_le_max h.left) (weight_le_max h.right)) le_rfl

/-- **The greatest sum** of a connected set with the root. -/
theorem isGreatest_gain (hnodup : (inorder (.node a l r)).Nodup) :
    IsGreatest (rootedSums val (.node a l r)) (gain val (.node a l r)) := by
  constructor
  · obtain ⟨hnodup_l, hnodup_r, -⟩ := nodup_node.1 hnodup
    obtain ⟨S, hS⟩ := exists_weight_eq_max val hnodup_l
    obtain ⟨T, hT⟩ := exists_weight_eq_max val hnodup_r
    obtain ⟨hmem, hrooted, heq⟩ := exists_weight_eq_gain hnodup hS hT
    exact ⟨_, ⟨a, Finset.mem_insert_self a _⟩, hmem, hrooted,
      (weight_eq_sum val hnodup hmem).symm.trans heq⟩
  · rintro x ⟨S, ⟨b, hb⟩, hmem, hrooted, rfl⟩
    obtain ⟨c, hc, hcS⟩ := hrooted.root_mem (hmem b hb) hb
    obtain rfl := Option.some.inj hc
    rw [← weight_eq_sum val hnodup hmem]
    exact weight_le_gain hrooted hcS

end RootedSets
