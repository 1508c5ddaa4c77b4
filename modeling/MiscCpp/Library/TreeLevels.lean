import Mathlib.Algebra.Group.Nat.Even
import Mathlib.Data.List.Nodup
import Mathlib.Data.Tree.Basic
import Mathlib.Order.Lattice
import Mathlib.Tactic.Common

/-!
# The levels of a tree

The subtrees at a depth from left to right, and what becomes of the order if each level is read from
the back to the front when the next one is put together (`flatMap_children`): above a level, the
nodes at an even distance have their children exchanged.

In a tree whose levels have no value twice this is the order from left to right exactly if no node
has two children that both have children (`values_exchange_iff`).
-/

namespace TreeLevels

variable {α : Type*} {t l r : BinaryTree α} {d : ℕ} {a : α}

/-- The trees of a depth, from left to right. -/
def level : ℕ → BinaryTree α → List (BinaryTree α)
  | _, .nil => []
  | 0, .node a l r => [.node a l r]
  | d + 1, .node _ l r => level d l ++ level d r

/-- The children that are there. -/
def children : BinaryTree α → List (BinaryTree α)
  | .nil => []
  | .node _ l r => level 0 l ++ level 0 r

/-- The values at the roots. -/
def roots (f : List (BinaryTree α)) : List α :=
  f.filterMap fun t ↦ match t with
    | .nil => none
    | .node a _ _ => some a

/-- The values of a depth, from left to right. -/
def values (d : ℕ) (t : BinaryTree α) : List α := roots (level d t)

/-- The tree with the children exchanged at the nodes that are an even distance above the
depth `d`. -/
def exchange : ℕ → BinaryTree α → BinaryTree α
  | _, .nil => .nil
  | 0, .node a l r => .node a l r
  | d + 1, .node a l r =>
    if Even d then .node a (exchange d l) (exchange d r) else .node a (exchange d r) (exchange d l)

/-- No node has two children that both have children. -/
def Narrow : BinaryTree α → Prop
  | .nil => True
  | .node _ l r => (l.height ≤ 1 ∨ r.height ≤ 1) ∧ Narrow l ∧ Narrow r

/-! ### Levels -/

theorem level_nil (d : ℕ) : level d (.nil : BinaryTree α) = [] := by
  cases d <;> rfl

theorem level_eq_nil_iff : level d t = [] ↔ t.height ≤ d := by
  induction t generalizing d with
  | nil => exact iff_of_true (level_nil d) (Nat.zero_le d)
  | node a l r ihl ihr =>
    cases d with
    | zero => exact iff_of_false (List.cons_ne_nil _ _) (Nat.not_succ_le_zero _)
    | succ d =>
      rw [level, List.append_eq_nil_iff, ihl, ihr, BinaryTree.height, Nat.succ_le_succ_iff,
        Nat.max_le]

theorem ne_nil_of_mem_level {s : BinaryTree α} (h : s ∈ level d t) : s ≠ .nil := by
  induction t generalizing d with
  | nil =>
    rw [level_nil] at h
    cases h
  | node a l r ihl ihr =>
    cases d with
    | zero =>
      obtain rfl := List.mem_singleton.1 h
      exact fun h ↦ by cases h
    | succ d => exact (List.mem_append.1 h).elim ihl ihr

theorem reverse_level_zero (t : BinaryTree α) : (level 0 t).reverse = level 0 t := by
  cases t <;> rfl

theorem exchange_nil (d : ℕ) : exchange d (.nil : BinaryTree α) = .nil := by
  cases d <;> rfl

/-- The trees of the depth that is exchanged for are the same ones. -/
theorem level_exchange_succ (d : ℕ) (a : α) (l r : BinaryTree α) :
    level (d + 1) (exchange (d + 1) (.node a l r)) =
      if Even d then level d (exchange d l) ++ level d (exchange d r)
      else level d (exchange d r) ++ level d (exchange d l) := by
  rw [exchange]
  split <;> rfl

theorem level_zero_exchange (t : BinaryTree α) : level 0 (exchange 0 t) = level 0 t := by
  cases t <;> rfl

/-- Exchanging children keeps the height. -/
theorem level_exchange_eq_nil_iff : level d (exchange d t) = [] ↔ t.height ≤ d := by
  induction t generalizing d with
  | nil =>
    rw [exchange_nil]
    exact level_eq_nil_iff
  | node a l r ihl ihr =>
    cases d with
    | zero => exact iff_of_false (List.cons_ne_nil _ _) (Nat.not_succ_le_zero _)
    | succ d =>
      have hheight : (BinaryTree.node a l r).height ≤ d + 1 ↔ l.height ≤ d ∧ r.height ≤ d := by
        rw [BinaryTree.height, Nat.succ_le_succ_iff, Nat.max_le]
      rw [level_exchange_succ, hheight]
      split
      · rw [List.append_eq_nil_iff, ihl, ihr]
      · rw [List.append_eq_nil_iff, ihl, ihr, and_comm]

/-- **The next level**, if this one is read from the back to the front. -/
theorem flatMap_children (d : ℕ) (t : BinaryTree α) :
    (level d (exchange d t)).reverse.flatMap children = level (d + 1) (exchange (d + 1) t) := by
  induction d generalizing t with
  | zero =>
    cases t with
    | nil => rfl
    | node a l r =>
      rw [level_zero_exchange, level_exchange_succ, if_pos (by decide), level_zero_exchange,
        level_zero_exchange]
      exact List.append_nil _
  | succ d ih =>
    cases t with
    | nil => rfl
    | node a l r =>
      rw [level_exchange_succ, level_exchange_succ (d + 1), ← ih l, ← ih r]
      by_cases hd : Even d
      · rw [if_pos hd, if_neg (by rwa [Nat.even_add_one, not_not]), List.reverse_append,
          List.flatMap_append]
      · rw [if_neg hd, if_pos (by rwa [Nat.even_add_one]), List.reverse_append,
          List.flatMap_append]

/-! ### Values -/

theorem roots_append (f g : List (BinaryTree α)) : roots (f ++ g) = roots f ++ roots g :=
  List.filterMap_append

/-- The values one level further down are those of the two subtrees. -/
theorem values_succ (d : ℕ) (a : α) (l r : BinaryTree α) :
    values (d + 1) (.node a l r) = values d l ++ values d r := roots_append _ _

/-- The same after the exchange, where every second level has its subtrees exchanged. -/
theorem values_exchange_succ (d : ℕ) (a : α) (l r : BinaryTree α) :
    values (d + 1) (exchange (d + 1) (.node a l r)) =
      if Even d then values d (exchange d l) ++ values d (exchange d r)
      else values d (exchange d r) ++ values d (exchange d l) := by
  rw [values, level_exchange_succ]
  split <;> exact roots_append _ _

theorem values_zero_exchange (t : BinaryTree α) : values 0 (exchange 0 t) = values 0 t :=
  congrArg roots (level_zero_exchange t)

theorem values_eq_nil_iff : values d t = [] ↔ t.height ≤ d := by
  induction t generalizing d with
  | nil =>
    rw [values, level_nil]
    exact iff_of_true rfl (Nat.zero_le d)
  | node a l r ihl ihr =>
    cases d with
    | zero => exact iff_of_false (List.cons_ne_nil a []) (Nat.not_succ_le_zero _)
    | succ d =>
      rw [values_succ, List.append_eq_nil_iff, ihl, ihr, BinaryTree.height, Nat.succ_le_succ_iff,
        Nat.max_le]

/-- Exchanging children keeps the number of values of a depth. -/
theorem length_values_exchange (d : ℕ) (t : BinaryTree α) :
    (values d (exchange d t)).length = (values d t).length := by
  induction t generalizing d with
  | nil => rw [exchange_nil]
  | node a l r ihl ihr =>
    cases d with
    | zero => rfl
    | succ d =>
      rw [values_exchange_succ, values_succ, List.length_append, ← ihl, ← ihr]
      split
      · rw [List.length_append]
      · rw [List.length_append, Nat.add_comm]

theorem values_exchange_eq_nil (h : t.height ≤ d) : values d (exchange d t) = [] := by
  rw [← List.length_eq_zero_iff, length_values_exchange, values_eq_nil_iff.2 h, List.length_nil]

/-- **A narrow tree** has at most one child with nodes an odd distance below it. -/
theorem values_exchange_of_narrow (h : Narrow t) (d : ℕ) :
    values d (exchange d t) = values d t := by
  induction d generalizing t with
  | zero => exact values_zero_exchange t
  | succ d ih =>
    cases t with
    | nil => rfl
    | node a l r =>
      obtain ⟨hheight, hl, hr⟩ := h
      rw [values_exchange_succ, values_succ, ih hl, ih hr]
      by_cases hd : Even d
      · rw [if_pos hd]
      · have hpos : 1 ≤ d := Nat.one_le_iff_ne_zero.2 fun hzero ↦ hd (hzero ▸ Even.zero)
        rw [if_neg hd]
        rcases hheight with hheight | hheight
        · rw [values_eq_nil_iff.2 (hheight.trans hpos), List.append_nil, List.nil_append]
        · rw [values_eq_nil_iff.2 (hheight.trans hpos), List.append_nil, List.nil_append]

/-- If one child has no nodes at an odd depth, the order in the children follows from that in the
tree. -/
theorem values_exchange_children
    (h : ∀ d, values d (exchange d (.node a l r)) = values d (.node a l r))
    (hheight : l.height ≤ 1 ∨ r.height ≤ 1) (d : ℕ) :
    values d (exchange d l) = values d l ∧ values d (exchange d r) = values d r := by
  have hsucc := h (d + 1)
  rw [values_exchange_succ, values_succ] at hsucc
  by_cases hd : Even d
  · rw [if_pos hd] at hsucc
    exact List.append_inj hsucc (length_values_exchange d l)
  · have hpos : 1 ≤ d := Nat.one_le_iff_ne_zero.2 fun hzero ↦ hd (hzero ▸ Even.zero)
    rw [if_neg hd] at hsucc
    rcases hheight with hheight | hheight
    · have hle := hheight.trans hpos
      rw [values_exchange_eq_nil hle, values_eq_nil_iff.2 hle] at hsucc ⊢
      rw [List.append_nil, List.nil_append] at hsucc
      exact ⟨rfl, hsucc⟩
    · have hle := hheight.trans hpos
      rw [values_exchange_eq_nil hle, values_eq_nil_iff.2 hle] at hsucc ⊢
      rw [List.append_nil, List.nil_append] at hsucc
      exact ⟨hsucc, rfl⟩

/-- If the values two levels down are all different and in order, one of the children has no
children. -/
theorem height_le_one_or (hnodup : (values 2 (.node a l r)).Nodup)
    (h : values 2 (exchange 2 (.node a l r)) = values 2 (.node a l r)) :
    l.height ≤ 1 ∨ r.height ≤ 1 := by
  have hone (t : BinaryTree α) : values 1 (exchange 1 t) = values 1 t := by
    cases t with
    | nil => rfl
    | node a l r =>
      rw [values_exchange_succ, if_pos Even.zero, values_zero_exchange, values_zero_exchange,
        values_succ]
  rw [values_exchange_succ, values_succ, if_neg (by decide), hone, hone] at h
  rw [values_succ] at hnodup
  by_contra hheight
  obtain ⟨hl, hr⟩ := not_or.1 hheight
  -- The first value of the level is the first one of both children.
  obtain ⟨x, v, hv⟩ := List.exists_cons_of_ne_nil (mt values_eq_nil_iff.1 hl)
  obtain ⟨y, w, hw⟩ := List.exists_cons_of_ne_nil (mt values_eq_nil_iff.1 hr)
  rw [hv, hw, List.cons_append, List.cons_append] at h
  rw [hv, hw] at hnodup
  refine (List.nodup_append'.1 hnodup).2.2 List.mem_cons_self ?_
  rw [← (List.cons.inj h).1]
  exact List.mem_cons_self

/-- **Levels without a value twice** are in order exactly if the tree is narrow. -/
theorem forall_values_exchange_iff (hnodup : ∀ d, (values d t).Nodup) :
    (∀ d, values d (exchange d t) = values d t) ↔ Narrow t := by
  refine ⟨fun h ↦ ?_, values_exchange_of_narrow⟩
  induction t with
  | nil => exact trivial
  | node a l r ihl ihr =>
    have hheight := height_le_one_or (hnodup 2) (h 2)
    have hchildren := values_exchange_children h hheight
    have happend (d : ℕ) : (values d l ++ values d r).Nodup := values_succ d a l r ▸ hnodup (d + 1)
    exact ⟨hheight, ihl (fun d ↦ (List.nodup_append'.1 (happend d)).1) fun d ↦ (hchildren d).1,
      ihr (fun d ↦ (List.nodup_append'.1 (happend d)).2.1) fun d ↦ (hchildren d).2⟩

end TreeLevels
