import Mathlib.Data.Finset.Card
import MiscCpp.Library.Connectivity
import MiscCpp.Library.ParentForest

/-!
# Classes as trees

A forest of parent pointers whose trees are the classes of joined points: pointing a node at its
root changes nothing (`Joins.compress`), and linking two roots adds a pair (`Joins.link`).

A path of parents in a finite set is shorter than the set is large (`RootAfter.lt_card`), also if
nothing else bounds it.
-/

open Connectivity Function

namespace ParentForest

variable {α : Type*} {p : α → α} {C : Finset α} {R S : α → α → Prop} {x y r s : α} {j k : ℕ}

/-! ### The length of a path -/

/-- The path of parents from `x` ends at `r` after `k` links. -/
inductive RootAfter (p : α → α) : ℕ → α → α → Prop
  | root {x : α} (h : p x = x) : RootAfter p 0 x x
  | step {k : ℕ} {x r : α} (h : p x ≠ x) (hr : RootAfter p k (p x) r) : RootAfter p (k + 1) x r

/-- What is reached after some steps and is its own parent is the root. -/
theorem RootAfter.rootOf (h : RootAfter p k x r) : RootOf p x r := by
  induction h with
  | root h => exact .root h
  | step h _ ih => exact .step h ih

/-- A root is reached after some steps. -/
theorem RootOf.exists_after (h : RootOf p x r) : ∃ k, RootAfter p k x r := by
  induction h with
  | root h => exact ⟨0, .root h⟩
  | step h _ ih =>
    obtain ⟨k, hk⟩ := ih
    exact ⟨k + 1, .step h hk⟩

/-- The number of steps to the root is determined. -/
theorem RootAfter.unique (h : RootAfter p k x r) (h' : RootAfter p j x s) : k = j := by
  induction h generalizing j with
  | root h =>
    cases h' with
    | root => rfl
    | step hne => exact absurd h hne
  | step hne _ ih =>
    cases h' with
    | root h => exact absurd h hne
    | step _ h' => exact congrArg (· + 1) (ih h')

/-- One link further the path is not longer. -/
theorem RootAfter.parent (h : RootAfter p k x r) : ∃ j ≤ k, RootAfter p j (p x) r := by
  cases h with
  | root h => exact ⟨0, Nat.le_refl 0, by rw [h]; exact .root h⟩
  | step _ h => exact ⟨_, Nat.le_succ _, h⟩

/-- At each distance from the root the path has a node. -/
theorem RootAfter.exists_node (h : RootAfter p k x r) (hx : x ∈ C) (hclosed : ∀ x ∈ C, p x ∈ C)
    (hj : j ≤ k) : ∃ y ∈ C, RootAfter p j y r := by
  induction h with
  | root h =>
    obtain rfl := Nat.le_zero.1 hj
    exact ⟨_, hx, .root h⟩
  | @step k x r hne h ih =>
    rcases Nat.le_succ_iff.1 hj with hle | rfl
    · exact ih (hclosed x hx) hle
    · exact ⟨x, hx, .step hne h⟩

/-- **A path** does not come back to a node. -/
theorem RootAfter.lt_card (h : RootAfter p k x r) (hx : x ∈ C) (hclosed : ∀ x ∈ C, p x ∈ C) :
    k < C.card := by
  have hnode : ∀ j, ∃ y, j ∈ Finset.range (k + 1) → y ∈ C ∧ RootAfter p j y r := fun j ↦ by
    by_cases hj : j ∈ Finset.range (k + 1)
    · obtain ⟨y, hy, hyr⟩ := h.exists_node hx hclosed (Nat.lt_succ_iff.1 (Finset.mem_range.1 hj))
      exact ⟨y, fun _ ↦ ⟨hy, hyr⟩⟩
    · exact ⟨x, fun hmem ↦ absurd hmem hj⟩
  choose node hnode using hnode
  have hcard := Finset.card_le_card_of_injOn node (fun j hj ↦ (hnode j hj).1)
    fun i hi j hj heq ↦ (hnode i hi).2.unique (heq ▸ (hnode j hj).2)
  rwa [Finset.card_range] at hcard

/-! ### The classes -/

/-- The trees of the nodes `C` are the classes of the points that `R` joins. -/
structure Joins (p : α → α) (C : Finset α) (R : α → α → Prop) : Prop where
  closed : ∀ x ∈ C, p x ∈ C
  rooted : ∀ x ∈ C, ∃ r, RootOf p x r
  joined : ∀ x ∈ C, ∀ y ∈ C, ∀ r s, RootOf p x r → RootOf p y s → (r = s ↔ Joined R x y)

theorem Joins.congr (J : Joins p C R) (h : ∀ x y, Joined R x y ↔ Joined S x y) : Joins p C S where
  closed := J.closed
  rooted := J.rooted
  joined x hx y hy r s hr hs := (J.joined x hx y hy r s hr hs).trans (h x y)

/-- Each node is a root, and nothing is joined. -/
theorem joins_id (hR : ∀ x y, ¬ R x y) (hp : ∀ x ∈ C, p x = x) : Joins p C R where
  closed x hx := (hp x hx).symm ▸ hx
  rooted x hx := ⟨x, .root (hp x hx)⟩
  joined x hx y hy r s hr hs := by
    obtain rfl := hr.eq_of_fixed (hp x hx)
    obtain rfl := hs.eq_of_fixed (hp y hy)
    constructor
    · rintro rfl
      exact .refl R _
    · exact fun h ↦ (h.eq_of_isolated fun w ↦ ⟨hR _ w, hR w _⟩).symm

variable [DecidableEq α]

/-- **Compression** changes no class. -/
theorem Joins.compress (J : Joins p C R) (hx : x ∈ C) (h : RootOf p x r) :
    Joins (update p x r) C R where
  closed y hy := by
    rcases eq_or_ne y x with rfl | hyx
    · rw [update_self]
      exact h.mem hy J.closed
    · rw [update_of_ne hyx]
      exact J.closed y hy
  rooted y hy := (J.rooted y hy).imp fun _ ↦ (rootOf_compress_iff h).2
  joined y hy z hz s t hs ht :=
    J.joined y hy z hz s t ((rootOf_compress_iff h).1 hs) ((rootOf_compress_iff h).1 ht)

/-- **Linking the roots** of `x` and `y` adds their pair. -/
theorem Joins.link (J : Joins p C R) (hx : x ∈ C) (hy : y ∈ C) (hr : RootOf p x r)
    (hs : RootOf p y s) (hrs : r ≠ s) : Joins (update p s r) C (Adding R x y) := by
  have hroot : ∀ {z q}, RootOf p z q → RootOf (update p s r) z (if q = s then r else q) :=
    fun {z q} hq ↦ by
      rw [rootOf_link_iff hr.fixed hs.fixed hrs]
      split
      next heq => exact .inr ⟨heq ▸ hq, rfl⟩
      next hne => exact .inl ⟨hq, hne⟩
  refine ⟨fun z hz ↦ ?_, fun z hz ↦ ?_, fun u hu v hv t t' ht ht' ↦ ?_⟩
  · rcases eq_or_ne z s with rfl | hzs
    · rw [update_self]
      exact hr.mem hx J.closed
    · rw [update_of_ne hzs]
      exact J.closed z hz
  · obtain ⟨q, hq⟩ := J.rooted z hz
    exact ⟨_, hroot hq⟩
  · obtain ⟨q, hq⟩ := J.rooted u hu
    obtain ⟨q', hq'⟩ := J.rooted v hv
    rw [joined_add, ← J.joined u hu v hv q q' hq hq', ← J.joined u hu x hx q r hq hr,
      ← J.joined y hy v hv s q' hs hq', ← J.joined u hu y hy q s hq hs,
      ← J.joined x hx v hv r q' hr hq', ht.unique (hroot hq), ht'.unique (hroot hq')]
    split <;> split <;> grind

/-! ### Parents in a vector -/

/-- `parent[x]` -/
def parents (parent : List ℕ) (x : ℕ) : ℕ := parent[x]?.getD x

variable {parent : List ℕ} {i : ℕ}

theorem getElem?_eq_parents (h : i < parent.length) : parent[i]? = some (parents parent i) := by
  rw [parents, List.getElem?_eq_getElem h, Option.getD_some]

theorem parents_set (h : i < parent.length) (j : ℕ) :
    parents (parent.set i j) = update (parents parent) i j := by
  funext x
  rcases eq_or_ne x i with rfl | hne
  · rw [update_self, parents, List.getElem?_set_self h, Option.getD_some]
  · rw [update_of_ne hne, parents, List.getElem?_set_ne hne.symm, parents]

end ParentForest
