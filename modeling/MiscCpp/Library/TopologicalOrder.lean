import Mathlib.Data.Fintype.Pigeonhole
import Mathlib.Logic.Relation
import Mathlib.Tactic.Common

/-!
# Topological orders

A list of vertices in which each one comes after all that have an edge to it (`Ordered`), for a
graph that may have cycles.

No vertex that can be reached from a cycle is in such a list (`Ordered.not_behindCycle`). And if
each vertex that is not in it has an edge from another one that is not, then all those that are not
can be reached from a cycle (`behindCycle_of_predecessor`): so the list is as long as it can be.
-/

open Relation

namespace TopologicalOrder

variable {V : Type*} {E : V → V → Prop} {u v : V} {xs : List V}

/-- A vertex that can be reached from a cycle. -/
def BehindCycle (E : V → V → Prop) (v : V) : Prop := ∃ c, TransGen E c c ∧ ReflTransGen E c v

/-- Distinct vertices, each after all those with an edge to it. -/
structure Ordered (E : V → V → Prop) (xs : List V) : Prop where
  nodup : xs.Nodup
  before : ∀ ys v zs, xs = ys ++ v :: zs → ∀ u, E u v → u ∈ ys

theorem ordered_nil : Ordered E [] where
  nodup := List.nodup_nil
  before ys v zs h := absurd h (by simp)

/-- A node whose predecessors are all there can be put last. -/
theorem Ordered.concat (h : Ordered E xs) (hv : v ∉ xs) (hbefore : ∀ u, E u v → u ∈ xs) :
    Ordered E (xs ++ [v]) where
  nodup := List.nodup_append.2 ⟨h.nodup, List.nodup_singleton v, fun a ha b hb ↦
    List.mem_singleton.1 hb ▸ ne_of_mem_of_not_mem ha hv⟩
  before ys w zs heq := by
    rcases List.eq_nil_or_concat zs with rfl | ⟨zs, z, rfl⟩
    · obtain ⟨rfl, hw⟩ := List.append_inj' heq rfl
      obtain rfl := List.singleton_inj.1 hw
      exact hbefore
    · rw [List.concat_eq_append, ← List.cons_append, ← List.append_assoc] at heq
      exact h.before ys w zs (List.append_inj' heq rfl).1

variable [DecidableEq V]

/-- The source of an edge comes before its target. -/
theorem Ordered.idxOf_lt (h : Ordered E xs) (hv : v ∈ xs) (huv : E u v) :
    u ∈ xs ∧ xs.idxOf u < xs.idxOf v := by
  obtain ⟨ys, zs, rfl⟩ := List.append_of_mem hv
  have hu := h.before ys v zs rfl u huv
  obtain ⟨-, -, hdisjoint⟩ := List.nodup_append.1 h.nodup
  have hvys : v ∉ ys := fun hmem ↦ hdisjoint v hmem v List.mem_cons_self rfl
  refine ⟨List.mem_append_left _ hu, ?_⟩
  rw [List.idxOf_append_of_mem hu, List.idxOf_append_of_notMem hvys, List.idxOf_cons_self]
  exact List.idxOf_lt_length_of_mem hu

/-- A node comes behind all that lead to it. -/
theorem Ordered.idxOf_lt_of_transGen (h : Ordered E xs) (huv : TransGen E u v) (hv : v ∈ xs) :
    u ∈ xs ∧ xs.idxOf u < xs.idxOf v := by
  induction huv with
  | single huv => exact h.idxOf_lt hv huv
  | tail _ hwv ih =>
    obtain ⟨hw, hlt⟩ := h.idxOf_lt hv hwv
    obtain ⟨hu, hlt'⟩ := ih hw
    exact ⟨hu, Nat.lt_trans hlt' hlt⟩

/-- No node of the order is on a cycle or behind one. -/
theorem Ordered.not_behindCycle (h : Ordered E xs) (hv : v ∈ xs) : ¬ BehindCycle E v := by
  rintro ⟨c, hcycle, hcv⟩
  have hc : c ∈ xs := by
    rcases reflTransGen_iff_eq_or_transGen.1 hcv with rfl | hcv
    · exact hv
    · exact (h.idxOf_lt_of_transGen hcv hv).1
  exact Nat.lt_irrefl _ (h.idxOf_lt_of_transGen hcycle hc).2

omit [DecidableEq V] in
/-- Where one can always go back along an edge, one has come from a cycle. -/
theorem behindCycle_of_predecessor {S : Set V} (hS : S.Finite)
    (hpred : ∀ v ∈ S, ∃ u ∈ S, E u v) (hv : v ∈ S) : BehindCycle E v := by
  choose! f hmem hedge using hpred
  have hback : ∀ n, f^[n] v ∈ S ∧ ReflTransGen E (f^[n] v) v := by
    intro n
    induction n with
    | zero => exact ⟨hv, .refl⟩
    | succ n ih =>
      rw [Function.iterate_succ_apply']
      exact ⟨hmem _ ih.1, .head (hedge _ ih.1) ih.2⟩
  have hcycle : ∀ u ∈ S, ∀ n, f^[n] u ∈ S ∧ TransGen E (f^[n + 1] u) u := by
    intro u hu n
    induction n with
    | zero => exact ⟨hu, .single (hedge u hu)⟩
    | succ n ih =>
      rw [Function.iterate_succ_apply'] at ih
      rw [Function.iterate_succ_apply', Function.iterate_succ_apply', Function.iterate_succ_apply']
      exact ⟨hmem _ ih.1, .head (hedge _ (hmem _ ih.1)) ih.2⟩
  -- two of the steps back have come to the same vertex
  have := hS.to_subtype
  obtain ⟨m, n, hne, heq⟩ :=
    Finite.exists_ne_map_eq_of_infinite fun n ↦ (⟨f^[n] v, (hback n).1⟩ : S)
  have hclosed : ∀ m n, m < n → f^[m] v = f^[n] v → BehindCycle E v := by
    intro m n hlt heq
    obtain ⟨k, rfl⟩ := Nat.exists_eq_add_of_lt hlt
    refine ⟨f^[m] v, ?_, (hback m).2⟩
    have hround := (hcycle _ (hback m).1 k).2
    rwa [← Function.iterate_add_apply, Nat.add_comm, ← Nat.add_assoc, ← heq] at hround
  have heq : f^[m] v = f^[n] v := congrArg Subtype.val heq
  rcases Nat.lt_or_gt_of_ne hne with hlt | hlt
  · exact hclosed m n hlt heq
  · exact hclosed n m hlt heq.symm

end TopologicalOrder
