import Mathlib.Combinatorics.SimpleGraph.Walk.Operations
import MiscCpp.Library.LinkedTree
import MiscCpp.Library.PairCount

/-!
# Paths between the leaves of a binary tree

From a node the parents lead up to the root (`Climbs`). A path between two nodes that has at most
`d` edges is there exactly if the nodes have a common ancestor `k` and `i` edges above them with
`k + i ≤ d` (`exists_walk_iff`).

The ways from all leaves to the root (`paths`) are built from those of the two subtrees. So the
pairs of leaves at most `d` edges apart are those of the subtrees, and the pairs of a leaf of each
with distances to the root that do not add up to more than `d` (`countPairs_paths_node`).
-/

namespace LeafPaths

open LinkedTree PairCount

variable {ι : Type*}

/-- From the pointer on, the parents are the nodes of the list. -/
def Climbs (parent : ι → Option ι) : Option ι → List ι → Prop
  | n, [] => n = none
  | n, a :: p => n = some a ∧ Climbs parent (parent a) p

/-- From `a` it is `k` edges up to `c`. -/
def Above (C : ι → ι → Prop) : ℕ → ι → ι → Prop
  | 0, a, c => a = c
  | k + 1, a, c => ∃ b, C b a ∧ Above C k b c

/-- A common node ends ways of at most `d` steps altogether. -/
def Near (d : ℕ) (p q : List ι) : Prop :=
  ∃ (k i : ℕ) (c : ι), p[k]? = some c ∧ q[i]? = some c ∧ k + i ≤ d

variable {parent : ι → Option ι} {n : Option ι} {a b c : ι} {p p' q q' : List ι} {d k i : ℕ}

theorem Near.symm (h : Near d p q) : Near d q p := by
  obtain ⟨k, i, c, hk, hi, hle⟩ := h
  exact ⟨i, k, c, hi, hk, by omega⟩

theorem Near.mono {d' : ℕ} (h : Near d p q) (hle : d ≤ d') : Near d' p q := by
  obtain ⟨k, i, c, hk, hi, hki⟩ := h
  exact ⟨k, i, c, hk, hi, hki.trans hle⟩

theorem Climbs.head (h : Climbs parent (some a) p) : p[0]? = some a := by
  cases p with
  | nil => cases h
  | cons b p =>
    obtain rfl := Option.some.inj h.1
    rfl

/-- There is one way up. -/
theorem Climbs.unique (h : Climbs parent n p) (h' : Climbs parent n p') : p = p' := by
  induction p generalizing n p' with
  | nil =>
    cases p' with
    | nil => rfl
    | cons b p' => cases h.symm.trans h'.1
  | cons a p ih =>
    cases p' with
    | nil => cases h.1.symm.trans h'
    | cons b p' =>
      obtain rfl := Option.some.inj (h.1.symm.trans h'.1)
      rw [ih h.2 h'.2]

/-- What is above a node of the way is the way from there on. -/
theorem Climbs.drop (h : Climbs parent n p) (hk : p[k]? = some c) :
    Climbs parent (some c) (p.drop k) := by
  induction p generalizing n k with
  | nil => cases hk
  | cons a p ih =>
    cases k with
    | zero =>
      obtain rfl := Option.some.inj hk
      exact ⟨rfl, h.2⟩
    | succ k => exact ih h.2 hk

/-- The next node of the way is the parent. -/
theorem Climbs.getElem?_succ (h : Climbs parent n p) (hk : p[k]? = some c) :
    p[k + 1]? = parent c := by
  have hdrop := h.drop hk
  rw [show p[k + 1]? = (p.drop k)[1]? by rw [List.getElem?_drop]]
  cases heq : p.drop k with
  | nil =>
    rw [heq] at hdrop
    cases hdrop
  | cons a q =>
    rw [heq] at hdrop
    obtain ⟨hc, hq⟩ := hdrop
    obtain rfl := Option.some.inj hc
    rw [List.getElem?_cons_succ]
    cases q with
    | nil => exact hq.symm
    | cons b q => exact hq.1.symm

/-! ### Walks -/

section Walk

variable {C : ι → ι → Prop}

/-- Up along the parents is a walk. -/
theorem exists_walk_of_above (hirr : ∀ a, ¬ C a a) (h : Above C k a c) :
    ∃ w : (SimpleGraph.fromRel C).Walk a c, w.length = k := by
  induction k generalizing a with
  | zero =>
    obtain rfl : a = c := h
    exact ⟨.nil, rfl⟩
  | succ k ih =>
    obtain ⟨b, hb, h⟩ := h
    obtain ⟨w, hw⟩ := ih h
    have hadj : (SimpleGraph.fromRel C).Adj a b := ⟨fun heq ↦ hirr b (heq ▸ hb), Or.inr hb⟩
    exact ⟨.cons hadj w, by rw [SimpleGraph.Walk.length_cons, hw]⟩

variable (hC : ∀ a b, C a b ↔ parent b = some a)
include hC

/-- A walk leads up to a common node and down again, in no more steps. -/
theorem exists_near_of_walk (w : (SimpleGraph.fromRel C).Walk a b)
    (hq : Climbs parent (some b) q) : ∃ p, Climbs parent (some a) p ∧ Near w.length p q := by
  induction w with
  | nil => exact ⟨q, hq, 0, 0, _, hq.head, hq.head, le_rfl⟩
  | @cons x y z hadj w ih =>
    obtain ⟨p, hp, k, i, c, hk, hi, hle⟩ := ih hq
    rw [SimpleGraph.Walk.length_cons]
    rcases hadj.2 with hadj | hadj
    · -- The first step goes down.
      have hparent := (hC x y).1 hadj
      cases p with
      | nil => cases hp
      | cons y' p =>
        obtain rfl := Option.some.inj hp.1
        refine ⟨p, hparent ▸ hp.2, ?_⟩
        cases k with
        | zero =>
          obtain rfl := Option.some.inj hk
          have hx := (hparent ▸ hp.2 : Climbs parent (some x) p).head
          exact ⟨0, i + 1, x, hx, (hq.getElem?_succ hi).trans hparent, by omega⟩
        | succ k => exact ⟨k, i, c, hk, hi, by omega⟩
    · have hparent := (hC y x).1 hadj
      exact ⟨x :: p, ⟨rfl, hparent.symm ▸ hp⟩, k + 1, i, c, hk, hi, by omega⟩

/-- What is above a node is its way up, edge by edge. -/
theorem above_iff (hp : Climbs parent (some a) p) : Above C k a c ↔ p[k]? = some c := by
  induction k generalizing a p with
  | zero => rw [Above, hp.head, Option.some_inj]
  | succ k ih =>
    cases p with
    | nil => cases hp
    | cons a' p =>
      obtain ⟨ha, hp⟩ := hp
      obtain rfl := Option.some.inj ha
      rw [Above, List.getElem?_cons_succ]
      constructor
      · rintro ⟨b, hb, h⟩
        exact (ih ((hC b a).1 hb ▸ hp)).1 h
      · intro h
        cases hb : parent a with
        | none =>
          rw [hb] at hp
          cases p with
          | nil => cases h
          | cons b p => cases hp.1
        | some b => exact ⟨b, (hC b a).2 hb, (ih (hb ▸ hp)).2 h⟩

/-- **The path between two nodes** leads over a common ancestor. -/
theorem exists_walk_iff (hirr : ∀ a, ¬ C a a) (hp : Climbs parent (some a) p)
    (hq : Climbs parent (some b) q) :
    (∃ w : (SimpleGraph.fromRel C).Walk a b, w.length ≤ d) ↔ Near d p q := by
  constructor
  · rintro ⟨w, hle⟩
    obtain ⟨p', hp', hnear⟩ := exists_near_of_walk hC w hq
    rw [hp.unique hp']
    exact hnear.mono hle
  · rintro ⟨k, i, c, hk, hi, hle⟩
    obtain ⟨w, hw⟩ := exists_walk_of_above hirr ((above_iff hC hp).2 hk)
    obtain ⟨w', hw'⟩ := exists_walk_of_above hirr ((above_iff hC hq).2 hi)
    refine ⟨w.append w'.reverse, ?_⟩
    rw [SimpleGraph.Walk.length_append, SimpleGraph.Walk.length_reverse]
    omega

end Walk

/-! ### The leaves of a tree -/

/-- The comparison of a pointer with null. -/
def isNull : BinaryTree ι → Bool
  | .nil => true
  | .node _ _ _ => false

/-- The leaves from left to right. -/
def leaves : BinaryTree ι → List ι
  | .nil => []
  | .node a l r => if isNull l && isNull r then [a] else leaves l ++ leaves r

/-- The ways from the leaves to the root. -/
def paths : BinaryTree ι → List (List ι)
  | .nil => []
  | .node a l r => if isNull l && isNull r then [[a]] else (paths l ++ paths r).map (· ++ [a])

variable {t l r : BinaryTree ι}

theorem isNull_iff : isNull t = true ↔ t = .nil := by
  cases t with
  | nil => exact iff_of_true rfl rfl
  | node a l r => exact iff_of_false Bool.false_ne_true fun h ↦ by cases h

theorem leaf_iff : (isNull l && isNull r) = true ↔ l = .nil ∧ r = .nil := by
  rw [Bool.and_eq_true, isNull_iff, isNull_iff]

/-- The leaves are nodes, in the order of the traversal. -/
theorem leaves_sublist (t : BinaryTree ι) : (leaves t).Sublist (inorder t) := by
  induction t with
  | nil => exact .slnil
  | node a l r ihl ihr =>
    rw [leaves, inorder_node]
    split
    · exact (List.singleton_sublist.2 List.mem_cons_self).trans (List.sublist_append_right _ _)
    · exact ihl.append (ihr.cons a)

/-- A node without children. -/
def IsLeaf (t : BinaryTree ι) (a : ι) : Prop := a ∈ inorder t ∧ ∀ b, ¬ Child t a b

/-- The leaves are the nodes without children. -/
theorem mem_leaves_iff (hnodup : (inorder t).Nodup) : a ∈ leaves t ↔ IsLeaf t a := by
  induction t with
  | nil => exact iff_of_false List.not_mem_nil fun h ↦ List.not_mem_nil h.1
  | node c l r ihl ihr =>
    obtain ⟨hnodup_l, hnodup_r, hcl, hcr, hdisj⟩ := nodup_node.1 hnodup
    rw [leaves]
    split
    next hleaf =>
      obtain ⟨rfl, rfl⟩ := leaf_iff.1 hleaf
      refine ⟨fun ha ↦ ⟨ha, fun b h ↦ ?_⟩, fun h ↦ h.1⟩
      rcases h with ⟨-, h | h⟩ | h | h <;> cases h
    next hleaf =>
      rw [List.mem_append, ihl hnodup_l, ihr hnodup_r, IsLeaf, IsLeaf, IsLeaf, inorder_node,
        List.mem_append, List.mem_cons]
      constructor
      · rintro (⟨ha, h⟩ | ⟨ha, h⟩)
        · refine ⟨Or.inl ha, fun b hb ↦ ?_⟩
          rcases hb with ⟨rfl, -⟩ | hb | hb
          · exact hcl ha
          · exact h b hb
          · exact hdisj ha hb.mem.1
        · refine ⟨Or.inr (Or.inr ha), fun b hb ↦ ?_⟩
          rcases hb with ⟨rfl, -⟩ | hb | hb
          · exact hcr ha
          · exact hdisj hb.mem.1 ha
          · exact h b hb
      · rintro ⟨ha | rfl | ha, h⟩
        · exact Or.inl ⟨ha, fun b hb ↦ h b (Or.inr (Or.inl hb))⟩
        · refine absurd (leaf_iff.2 ⟨?_, ?_⟩) hleaf
          · cases l with
            | nil => rfl
            | node b l' r' => exact absurd (Or.inl ⟨rfl, Or.inl rfl⟩) (h b)
          · cases r with
            | nil => rfl
            | node b l' r' => exact absurd (Or.inl ⟨rfl, Or.inr rfl⟩) (h b)
        · exact Or.inr ⟨ha, fun b hb ↦ h b (Or.inr (Or.inr hb))⟩

theorem mem_paths (hp : p ∈ paths t) : p.getLast? = root t ∧ ∀ x ∈ p, x ∈ inorder t := by
  induction t generalizing p with
  | nil => cases hp
  | node c l r ihl ihr =>
    rw [paths] at hp
    split at hp
    · obtain rfl := List.mem_singleton.1 hp
      refine ⟨rfl, fun x hx ↦ ?_⟩
      obtain rfl := List.mem_singleton.1 hx
      exact List.mem_append_right _ List.mem_cons_self
    · obtain ⟨q, hq, rfl⟩ := List.mem_map.1 hp
      refine ⟨List.getLast?_concat, fun x hx ↦ ?_⟩
      rw [inorder_node, List.mem_append, List.mem_cons]
      rcases List.mem_append.1 hx with hx | hx
      · rcases List.mem_append.1 hq with hq | hq
        · exact Or.inl ((ihl hq).2 x hx)
        · exact Or.inr (Or.inr ((ihr hq).2 x hx))
      · exact Or.inr (Or.inl (List.mem_singleton.1 hx))

theorem length_pos_of_mem_paths (hp : p ∈ paths t) : 0 < p.length := by
  refine List.length_pos_of_ne_nil ?_
  rintro rfl
  cases t with
  | nil => cases hp
  | node c l r => cases (mem_paths hp).1

theorem nodup_of_mem_paths (hnodup : (inorder t).Nodup) (hp : p ∈ paths t) : p.Nodup := by
  induction t generalizing p with
  | nil => cases hp
  | node c l r ihl ihr =>
    obtain ⟨hnodup_l, hnodup_r, hcl, hcr, -⟩ := nodup_node.1 hnodup
    rw [paths] at hp
    split at hp
    · obtain rfl := List.mem_singleton.1 hp
      exact List.nodup_singleton c
    · obtain ⟨q, hq, rfl⟩ := List.mem_map.1 hp
      rcases List.mem_append.1 hq with hq | hq
      · exact List.nodup_append'.2 ⟨ihl hnodup_l hq, List.nodup_singleton c,
          List.disjoint_singleton.2 fun h ↦ hcl ((mem_paths hq).2 c h)⟩
      · exact List.nodup_append'.2 ⟨ihr hnodup_r hq, List.nodup_singleton c,
          List.disjoint_singleton.2 fun h ↦ hcr ((mem_paths hq).2 c h)⟩

/-- The first node of each list is not in the other one. -/
def Apart (p q : List ι) : Prop :=
  (∀ c, p[0]? = some c → c ∉ q) ∧ ∀ c, q[0]? = some c → c ∉ p

/-- A common node at the end does not bring the first nodes into the other way. -/
theorem apart_append (h : Apart p q) (hp : 0 < p.length) (hq : 0 < q.length) (hap : a ∉ p)
    (haq : a ∉ q) : Apart (p ++ [a]) (q ++ [a]) := by
  constructor
  · intro c hc hmem
    rw [List.getElem?_append_left hp] at hc
    rcases List.mem_append.1 hmem with hmem | hmem
    · exact h.1 c hc hmem
    · exact hap (List.mem_singleton.1 hmem ▸ List.mem_of_getElem? hc)
  · intro c hc hmem
    rw [List.getElem?_append_left hq] at hc
    rcases List.mem_append.1 hmem with hmem | hmem
    · exact h.2 c hc hmem
    · exact haq (List.mem_singleton.1 hmem ▸ List.mem_of_getElem? hc)

/-- No leaf is above another one. -/
theorem pairwise_apart (hnodup : (inorder t).Nodup) : (paths t).Pairwise Apart := by
  induction t with
  | nil => exact .nil
  | node c l r ihl ihr =>
    obtain ⟨hnodup_l, hnodup_r, hcl, hcr, hdisj⟩ := nodup_node.1 hnodup
    rw [paths]
    split
    · exact List.pairwise_singleton _ _
    · have hmem {p : List ι} (hp : p ∈ paths l ++ paths r) : 0 < p.length ∧ c ∉ p := by
        rcases List.mem_append.1 hp with hp | hp
        · exact ⟨length_pos_of_mem_paths hp, fun h ↦ hcl ((mem_paths hp).2 c h)⟩
        · exact ⟨length_pos_of_mem_paths hp, fun h ↦ hcr ((mem_paths hp).2 c h)⟩
      have happend : (paths l ++ paths r).Pairwise Apart := by
        refine List.pairwise_append.2 ⟨ihl hnodup_l, ihr hnodup_r, fun p hp q hq ↦ ?_⟩
        have hp' := (mem_paths hp).2
        have hq' := (mem_paths hq).2
        exact ⟨fun x hx h ↦ hdisj (hp' x (List.mem_of_getElem? hx)) (hq' x h),
          fun x hx h ↦ hdisj (hp' x h) (hq' x (List.mem_of_getElem? hx))⟩
      refine List.pairwise_map.2 (happend.imp_of_mem fun {p q} hp hq h ↦ ?_)
      exact apart_append h (hmem hp).1 (hmem hq).1 (hmem hp).2 (hmem hq).2

theorem length_paths (t : BinaryTree ι) : (paths t).length = (leaves t).length := by
  induction t with
  | nil => rfl
  | node c l r ihl ihr =>
    rw [paths, leaves]
    split
    · rfl
    · rw [List.length_map, List.length_append, List.length_append, ihl, ihr]

/-! ### Parents -/

/-- The parents of the nodes, with `n` for the root. -/
def Linked (parent : ι → Option ι) : BinaryTree ι → Option ι → Prop
  | .nil, _ => True
  | .node a l r, n => parent a = n ∧ Linked parent l (some a) ∧ Linked parent r (some a)

/-- The link depends on the parents of the tree's own nodes only. -/
theorem Linked.congr {parent' : ι → Option ι} (h : Linked parent t n)
    (heq : ∀ a ∈ inorder t, parent' a = parent a) : Linked parent' t n := by
  induction t generalizing n with
  | nil => trivial
  | node c l r ihl ihr =>
    obtain ⟨heq_l, heq_c, heq_r⟩ := forall_mem_inorder_node.1 heq
    exact ⟨heq_c.trans h.1, ihl h.2.1 heq_l, ihr h.2.2 heq_r⟩

/-- The ways climb up. -/
theorem Linked.climbs (h : Linked parent t n) (hq : Climbs parent n q) :
    List.Forall₂ (fun a p ↦ Climbs parent (some a) (p ++ q)) (leaves t) (paths t) := by
  induction t generalizing n q with
  | nil => exact .nil
  | node c l r ihl ihr =>
    obtain ⟨rfl, hl, hr⟩ := h
    rw [leaves, paths]
    split
    · exact .cons ⟨rfl, hq⟩ .nil
    · have hc : Climbs parent (some c) (c :: q) := ⟨rfl, hq⟩
      refine List.forall₂_map_right_iff.2 ?_
      simp only [List.append_assoc]
      exact List.rel_append (ihl hl hc) (ihr hr hc)

/-- The parent of a node is the one whose child it is; the root has `n`. -/
theorem Linked.parent_iff (h : Linked parent t n) (hnodup : (inorder t).Nodup)
    (hb : b ∈ inorder t) : parent b = some a ↔ Child t a b ∨ b ∈ root t ∧ n = some a := by
  induction t generalizing n with
  | nil => cases hb
  | node c l r ihl ihr =>
    obtain ⟨hnodup_l, hnodup_r, hcl, hcr, hdisj⟩ := nodup_node.1 hnodup
    obtain ⟨rfl, hl, hr⟩ := h
    rcases List.mem_append.1 hb with hb' | hb'
    · rw [ihl hl hnodup_l hb']
      constructor
      · rintro (h | ⟨h, heq⟩)
        · exact Or.inl (Or.inr (Or.inl h))
        · exact Or.inl (Or.inl ⟨(Option.some.inj heq).symm, Or.inl h⟩)
      · rintro ((⟨rfl, h | h⟩ | h | h) | ⟨h, -⟩)
        · exact Or.inr ⟨h, rfl⟩
        · exact absurd (mem_of_mem_root h) (hdisj hb')
        · exact Or.inl h
        · exact absurd h.mem.2 (hdisj hb')
        · exact absurd (Option.some.inj h ▸ hb') hcl
    rcases List.mem_cons.1 hb' with rfl | hb''
    · constructor
      · exact fun h ↦ Or.inr ⟨rfl, h⟩
      · rintro ((⟨rfl, h | h⟩ | h | h) | ⟨-, h⟩)
        · exact absurd (mem_of_mem_root h) hcl
        · exact absurd (mem_of_mem_root h) hcr
        · exact absurd h.mem.2 hcl
        · exact absurd h.mem.2 hcr
        · exact h
    · rw [ihr hr hnodup_r hb'']
      constructor
      · rintro (h | ⟨h, heq⟩)
        · exact Or.inl (Or.inr (Or.inr h))
        · exact Or.inl (Or.inl ⟨(Option.some.inj heq).symm, Or.inr h⟩)
      · rintro ((⟨rfl, h | h⟩ | h | h) | ⟨h, -⟩)
        · exact absurd hb'' (hdisj (mem_of_mem_root h))
        · exact Or.inr ⟨h, rfl⟩
        · exact absurd hb'' (hdisj h.mem.2)
        · exact Or.inl h
        · exact absurd (Option.some.inj h ▸ hb'') hcr

theorem not_child_self (hnodup : (inorder t).Nodup) (a : ι) : ¬ Child t a a := by
  induction t with
  | nil => exact id
  | node c l r ihl ihr =>
    obtain ⟨hnodup_l, hnodup_r, hcl, hcr, -⟩ := nodup_node.1 hnodup
    rintro (⟨rfl, h | h⟩ | h | h)
    · exact hcl (mem_of_mem_root h)
    · exact hcr (mem_of_mem_root h)
    · exact ihl hnodup_l h
    · exact ihr hnodup_r h

/-! ### Pairs of leaves -/

/-- Another common node at the ends changes nothing, if there is one already. -/
theorem near_append_iff (hpq : p.getLast? = q.getLast?) (hne : p ≠ []) (hp : a ∉ p) (hq : a ∉ q) :
    Near d (p ++ [a]) (q ++ [a]) ↔ Near d p q := by
  constructor
  · rintro ⟨k, i, c, hk, hi, hle⟩
    by_cases hlt : k < p.length
    · rw [List.getElem?_append_left hlt] at hk
      have hc : c ≠ a := ne_of_mem_of_not_mem (List.mem_of_getElem? hk) hp
      by_cases hlt' : i < q.length
      · rw [List.getElem?_append_left hlt'] at hi
        exact ⟨k, i, c, hk, hi, hle⟩
      · rw [List.getElem?_append_right (not_lt.1 hlt')] at hi
        exact absurd (List.mem_singleton.1 (List.mem_of_getElem? hi)) hc
    · rw [List.getElem?_append_right (not_lt.1 hlt)] at hk
      obtain rfl := List.mem_singleton.1 (List.mem_of_getElem? hk)
      have hlt' : ¬ i < q.length := fun hlt' ↦ hq <| by
        rw [List.getElem?_append_left hlt'] at hi
        exact List.mem_of_getElem? hi
      refine ⟨p.length - 1, q.length - 1, p.getLast hne, ?_, ?_, by omega⟩
      · rw [← List.getLast?_eq_getElem?, List.getLast?_eq_some_getLast hne]
      · rw [← List.getLast?_eq_getElem?, ← hpq, List.getLast?_eq_some_getLast hne]
  · rintro ⟨k, i, c, hk, hi, hle⟩
    exact ⟨k, i, c, (List.getElem?_append_left (List.getElem?_eq_some_iff.1 hk).1).trans hk,
      (List.getElem?_append_left (List.getElem?_eq_some_iff.1 hi).1).trans hi, hle⟩

/-- If there is none, it is the only one. -/
theorem near_append_iff_of_disjoint (hpq : p.Disjoint q) (hp : a ∉ p) (hq : a ∉ q) :
    Near d (p ++ [a]) (q ++ [a]) ↔ p.length + q.length ≤ d := by
  constructor
  · rintro ⟨k, i, c, hk, hi, hle⟩
    have hk' : ¬ k < p.length := fun hlt ↦ by
      rw [List.getElem?_append_left hlt] at hk
      have hmem := List.mem_of_getElem? hk
      rcases List.mem_append.1 (List.mem_of_getElem? hi) with h | h
      · exact hpq hmem h
      · exact hp (List.mem_singleton.1 h ▸ hmem)
    have hi' : ¬ i < q.length := fun hlt ↦ by
      rw [List.getElem?_append_left hlt] at hi
      have hmem := List.mem_of_getElem? hi
      rcases List.mem_append.1 (List.mem_of_getElem? hk) with h | h
      · exact hpq h hmem
      · exact hq (List.mem_singleton.1 h ▸ hmem)
    omega
  · exact fun hle ↦ ⟨p.length, q.length, a, List.getElem?_concat_length,
      List.getElem?_concat_length, hle⟩

/-- The number of leaves that are `i` edges below the root. -/
def hist (t : BinaryTree ι) (i : ℕ) : ℕ := (paths t).countP (·.length - 1 = i)

theorem hist_le (t : BinaryTree ι) (i : ℕ) : hist t i ≤ (leaves t).length :=
  length_paths t ▸ List.countP_le_length

/-- A tree whose root is no leaf has no leaf at depth 0. -/
theorem hist_node_zero (a : ι) (hleaf : ¬ (isNull l && isNull r) = true) :
    hist (.node a l r) 0 = 0 := by
  rw [hist, paths, if_neg hleaf, List.countP_eq_zero]
  intro p hp
  obtain ⟨q, hq, rfl⟩ := List.mem_map.1 hp
  have hpos : 0 < q.length := by
    rcases List.mem_append.1 hq with hq | hq
    · exact length_pos_of_mem_paths hq
    · exact length_pos_of_mem_paths hq
  rw [List.length_append, List.length_singleton, decide_eq_true_iff]
  omega

/-- The leaves of a depth are those of the subtrees, one edge further up. -/
theorem hist_node_succ (a : ι) (hleaf : ¬ (isNull l && isNull r) = true) (i : ℕ) :
    hist (.node a l r) (i + 1) = hist l i + hist r i := by
  have hcount (u : BinaryTree ι) :
      (paths u).countP ((fun p : List ι ↦ decide (p.length - 1 = i + 1)) ∘ (· ++ [a])) =
        hist u i := by
    refine List.countP_congr fun p hp ↦ ?_
    have hpos := length_pos_of_mem_paths hp
    rw [Function.comp_apply, List.length_append, List.length_singleton, decide_eq_true_iff,
      decide_eq_true_iff]
    omega
  rw [hist, paths, if_neg hleaf, List.countP_map, List.countP_append, hcount, hcount]

/-- **The pairs of leaves** of a tree by its subtrees. -/
theorem countPairs_paths_node (hnodup : (inorder (.node a l r)).Nodup)
    (hleaf : ¬ (isNull l && isNull r) = true) :
    countPairs (Near d) (paths (.node a l r)) =
      countPairs (Near d) (paths l) + countPairs (Near d) (paths r) +
        ∑ i ∈ Finset.range d, ∑ j ∈ Finset.range (d - 1 - i), hist l i * hist r j := by
  obtain ⟨-, -, hal, har, hdisj⟩ := nodup_node.1 hnodup
  have hl {p : List ι} (hp : p ∈ paths l) : a ∉ p := fun h ↦ hal ((mem_paths hp).2 a h)
  have hr {p : List ι} (hp : p ∈ paths r) : a ∉ p := fun h ↦ har ((mem_paths hp).2 a h)
  rw [paths, if_neg hleaf, countPairs_map, countPairs_append]
  refine congrArg₂ (· + ·) (congrArg₂ (· + ·) ?_ ?_) ?_
  · exact countPairs_congr fun p hp q hq ↦ near_append_iff
      ((mem_paths hp).1.trans (mem_paths hq).1.symm)
      (List.ne_nil_of_length_pos (length_pos_of_mem_paths hp)) (hl hp) (hl hq)
  · exact countPairs_congr fun p hp q hq ↦ near_append_iff
      ((mem_paths hp).1.trans (mem_paths hq).1.symm)
      (List.ne_nil_of_length_pos (length_pos_of_mem_paths hp)) (hr hp) (hr hq)
  · refine Eq.trans (cross_congr fun p hp q hq ↦ ?_)
      (cross_add_le (fun p : List ι ↦ p.length - 1) d (paths l) (paths r))
    have hpos_p := length_pos_of_mem_paths hp
    have hpos_q := length_pos_of_mem_paths hq
    rw [near_append_iff_of_disjoint (fun x hxp hxq ↦ hdisj ((mem_paths hp).2 x hxp)
      ((mem_paths hq).2 x hxq)) (hl hp) (hr hq)]
    omega

end LeafPaths
