import Mathlib.Data.Finset.Card
import MiscCpp.Library.LinkedTree

/-!
# Covers of binary trees

A set of nodes covers a tree if each node is in the set, or its parent or a child is. For lower
bounds on the number of nodes, what a cover of a tree is on its two subtrees: they are covered apart
from their roots if the root is in the set (`Spares.left`), and they are covered themselves if it is
not (`Spares.isCover_left`); a child is in the set then (`IsCover.exists_child`).
-/

namespace TreeCover

open LinkedTree

variable {ι : Type*}

/-- The node is in the set, or its parent or a child of it is. -/
def Covers (t : BinaryTree ι) (S : Finset ι) (b : ι) : Prop :=
  b ∈ S ∨ ∃ a ∈ S, Child t a b ∨ Child t b a

/-- Every node is covered. -/
def IsCover (t : BinaryTree ι) (S : Finset ι) : Prop := ∀ b ∈ inorder t, Covers t S b

/-- All nodes but the root are covered. -/
def Spares (t : BinaryTree ι) (S : Finset ι) : Prop := ∀ b ∈ inorder t, b ∉ root t → Covers t S b

variable {t l r : BinaryTree ι} {S : Finset ι} {a b c : ι}

theorem IsCover.spares (h : IsCover t S) : Spares t S := fun b hb _ ↦ h b hb

/-! ### Subtrees -/

theorem Covers.left (h : Covers l S b) : Covers (.node c l r) S b :=
  h.imp_right fun ⟨a, ha, hab⟩ ↦
    ⟨a, ha, hab.imp (fun h ↦ Or.inr (Or.inl h)) fun h ↦ Or.inr (Or.inl h)⟩

theorem Covers.right (h : Covers r S b) : Covers (.node c l r) S b :=
  h.imp_right fun ⟨a, ha, hab⟩ ↦
    ⟨a, ha, hab.imp (fun h ↦ Or.inr (Or.inr h)) fun h ↦ Or.inr (Or.inr h)⟩

theorem Covers.mono {S' : Finset ι} (h : Covers t S b) (hsub : S ⊆ S') : Covers t S' b :=
  h.imp (fun hb ↦ hsub hb) fun ⟨a, ha, hab⟩ ↦ ⟨a, hsub ha, hab⟩

section Node

variable (hnodup : (inorder (.node c l r)).Nodup)
include hnodup

/-- A node of the left subtree is covered in it, or it is its root and the root is in the set. -/
theorem Covers.of_mem_left (h : Covers (.node c l r) S b) (hb : b ∈ inorder l) :
    Covers l S b ∨ b ∈ root l ∧ c ∈ S := by
  obtain ⟨-, -, hcl, hcr, hdisj⟩ := nodup_node.1 hnodup
  rcases h with h | ⟨a, ha, (⟨rfl, h | h⟩ | h | h) | ⟨rfl, -⟩ | h | h⟩
  · exact Or.inl (Or.inl h)
  · exact Or.inr ⟨h, ha⟩
  · exact absurd (mem_of_mem_root h) (hdisj hb)
  · exact Or.inl (Or.inr ⟨a, ha, Or.inl h⟩)
  · exact absurd h.mem.2 (hdisj hb)
  · exact absurd hb hcl
  · exact Or.inl (Or.inr ⟨a, ha, Or.inr h⟩)
  · exact absurd h.mem.1 (hdisj hb)

/-- A node of the right subtree is covered in it, or it is its root and the root is in the set. -/
theorem Covers.of_mem_right (h : Covers (.node c l r) S b) (hb : b ∈ inorder r) :
    Covers r S b ∨ b ∈ root r ∧ c ∈ S := by
  obtain ⟨-, -, hcl, hcr, hdisj⟩ := nodup_node.1 hnodup
  rcases h with h | ⟨a, ha, (⟨rfl, h | h⟩ | h | h) | ⟨rfl, -⟩ | h | h⟩
  · exact Or.inl (Or.inl h)
  · exact absurd hb (hdisj (mem_of_mem_root h))
  · exact Or.inr ⟨h, ha⟩
  · exact absurd hb (hdisj h.mem.2)
  · exact Or.inl (Or.inr ⟨a, ha, Or.inl h⟩)
  · exact absurd hb hcr
  · exact absurd hb (hdisj h.mem.1)
  · exact Or.inl (Or.inr ⟨a, ha, Or.inr h⟩)

/-- The same for the left subtree, where the root of the tree need not be covered. -/
theorem Spares.covers_left (h : Spares (.node c l r) S) (hb : b ∈ inorder l) :
    Covers l S b ∨ b ∈ root l ∧ c ∈ S := by
  obtain ⟨-, -, hcl, -, -⟩ := nodup_node.1 hnodup
  refine (h b (List.mem_append_left _ hb) fun hroot ↦ ?_).of_mem_left hnodup hb
  exact hcl (Option.some.inj hroot ▸ hb)

theorem Spares.covers_right (h : Spares (.node c l r) S) (hb : b ∈ inorder r) :
    Covers r S b ∨ b ∈ root r ∧ c ∈ S := by
  obtain ⟨-, -, -, hcr, -⟩ := nodup_node.1 hnodup
  refine (h b (List.mem_append_right _ (List.mem_cons_of_mem c hb)) fun hroot ↦ ?_).of_mem_right
    hnodup hb
  exact hcr (Option.some.inj hroot ▸ hb)

theorem Spares.left (h : Spares (.node c l r) S) : Spares l S := fun _ hb hroot ↦
  (h.covers_left hnodup hb).resolve_right fun h ↦ hroot h.1

theorem Spares.right (h : Spares (.node c l r) S) : Spares r S := fun _ hb hroot ↦
  (h.covers_right hnodup hb).resolve_right fun h ↦ hroot h.1

/-- Where the root is not in the set, the left subtree is covered by itself. -/
theorem Spares.isCover_left (h : Spares (.node c l r) S) (hc : c ∉ S) : IsCover l S :=
  fun _ hb ↦ (h.covers_left hnodup hb).resolve_right fun h ↦ hc h.2

theorem Spares.isCover_right (h : Spares (.node c l r) S) (hc : c ∉ S) : IsCover r S :=
  fun _ hb ↦ (h.covers_right hnodup hb).resolve_right fun h ↦ hc h.2

/-- The root is covered by itself or from below. -/
theorem IsCover.exists_child (h : IsCover (.node c l r) S) (hc : c ∉ S) :
    (∃ b ∈ root l, b ∈ S) ∨ ∃ b ∈ root r, b ∈ S := by
  obtain ⟨-, -, hcl, hcr, -⟩ := nodup_node.1 hnodup
  rcases h c (List.mem_append_right _ List.mem_cons_self) with
    h | ⟨a, ha, (⟨-, h | h⟩ | h | h) | ⟨-, h | h⟩ | h | h⟩
  · exact absurd h hc
  · exact absurd (mem_of_mem_root h) hcl
  · exact absurd (mem_of_mem_root h) hcr
  · exact absurd h.mem.2 hcl
  · exact absurd h.mem.2 hcr
  · exact Or.inl ⟨a, h, ha⟩
  · exact Or.inr ⟨a, h, ha⟩
  · exact absurd h.mem.1 hcl
  · exact absurd h.mem.1 hcr

end Node

/-! ### The number of nodes -/

variable [DecidableEq ι]

/-- The number of nodes of the tree that are in the set. -/
def count (t : BinaryTree ι) (S : Finset ι) : ℕ := (inorder t).countP (· ∈ S)

/-- The count of a tree is that of its subtrees, and the root. -/
theorem count_node (c : ι) (l r : BinaryTree ι) (S : Finset ι) :
    count (.node c l r) S = count l S + count r S + if c ∈ S then 1 else 0 := by
  rw [count, inorder_node, List.countP_append, List.countP_cons, count, count]
  simp only [decide_eq_true_iff]
  omega

/-- No more nodes are counted than the set has. -/
theorem count_le_card (hnodup : (inorder t).Nodup) (S : Finset ι) : count t S ≤ S.card := by
  rw [count, List.countP_eq_length_filter, ← List.toFinset_card_of_nodup (hnodup.filter _)]
  refine Finset.card_le_card fun a ha ↦ ?_
  rw [List.mem_toFinset, List.mem_filter, decide_eq_true_iff] at ha
  exact ha.2

end TreeCover
