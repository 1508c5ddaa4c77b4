import MiscCpp.Library.CInt
import MiscCpp.Library.NonAdjacent

/-!
# Robbing houses in a tree

`rob` of `leetcode/tree/houseRobber3.cc`.

The two values for a node are the best sum without it and the best sum with it, so the function
returns the greatest sum of a set of houses without a house and its parent (`rob_iff_isBest`), and
nothing where that is not an `int`: no partial sum overflows before.
-/

open CInt LinkedTree NonAdjacent

namespace HouseRobber3

variable {ι : Type*}

/-- The inner function: the values without the node and with it. -/
def robHelper (val : ι → CInt) : BinaryTree ι → Option (CInt × CInt)
  | .nil => some (wrap 0, wrap 0)
  | .node a l r => do
    let left ← robHelper val l
    let right ← robHelper val r
    let without ← checked ((max left.1 left.2).1 + (max right.1 right.2).1)
    let sum ← checked ((val a).1 + left.1.1)
    some (without, ← checked (sum.1 + right.1.1))

def rob (val : ι → CInt) (root : BinaryTree ι) : Option CInt := do
  let res ← robHelper val root
  some (max res.1 res.2)

/-- The tree of the `main` function. -/
example : rob (fun i : Fin 5 ↦ [wrap 3, wrap 2, wrap 3, wrap 3, wrap 1][i])
    (.node 0 (.node 1 .nil (.node 3 .nil .nil)) (.node 2 .nil (.node 4 .nil .nil))) =
      some (wrap 7) := by decide

variable [DecidableEq ι] {val : ι → CInt} {t l r : BinaryTree ι} {a : ι}

/-- The two values are the best ones, as far as they fit. -/
structure Holds (val : ι → CInt) (t : BinaryTree ι) (p q : ℤ) : Prop where
  below : IsBest (Child t) (fun a ↦ (val a).1) (below t) p
  nodes : IsBest (Child t) (fun a ↦ (val a).1) (nodes t) (max p q)
  min : -2 ^ 31 ≤ q
  eq_some : ∀ without with_, robHelper val t = some (without, with_) ↔ without.1 = p ∧ with_.1 = q

theorem Holds.node {p q p' q' : ℤ} (hnodup : (inorder (.node a l r)).Nodup)
    (hl : Holds val l p q) (hr : Holds val r p' q') :
    Holds val (.node a l r) (max p q + max p' q') (p + p' + (val a).1) := by
  obtain ⟨hbelow, hnodes⟩ := isBest_node hnodup hl.nodes hr.nodes hl.below hr.below
  have hp := hl.below.nonneg
  have hp' := hr.below.nonneg
  have hval := (val a).2
  refine ⟨hbelow, hnodes, by omega, fun without with_ ↦ ?_⟩
  constructor
  · intro h
    obtain ⟨⟨l₀, l₁⟩, hleft, h⟩ := Option.bind_eq_some_iff.1 h
    obtain ⟨⟨r₀, r₁⟩, hright, h⟩ := Option.bind_eq_some_iff.1 h
    obtain ⟨without', hwithout, h⟩ := Option.bind_eq_some_iff.1 h
    obtain ⟨sum, hsum, h⟩ := Option.bind_eq_some_iff.1 h
    obtain ⟨with', hwith, h⟩ := Option.bind_eq_some_iff.1 h
    obtain ⟨rfl, rfl⟩ := Prod.mk.inj (Option.some.inj h)
    obtain ⟨rfl, rfl⟩ := (hl.eq_some l₀ l₁).1 hleft
    obtain ⟨rfl, rfl⟩ := (hr.eq_some r₀ r₁).1 hright
    rw [checked_eq_some hwithout, checked_eq_some hwith, checked_eq_some hsum, coe_max, coe_max]
    exact ⟨rfl, show (val a).1 + l₀.1 + r₀.1 = _ by omega⟩
  · rintro ⟨hwithout, hwith⟩
    have hlt := without.2.2
    have hmin := hl.min
    have hmin' := hr.min
    -- The values of the subtrees are not greater than the one without the node.
    obtain ⟨⟨hp1, hq1⟩, hp1', hq1'⟩ : (p < 2 ^ 31 ∧ q < 2 ^ 31) ∧ p' < 2 ^ 31 ∧ q' < 2 ^ 31 := by
      omega
    have hsum := checked_bind (val a) hp hp'
    rw [show (val a).1 + p + p' = with_.1 by omega, checked_coe] at hsum
    obtain ⟨sum, hsum, hwith'⟩ := Option.bind_eq_some_iff.1 hsum
    have hmax : (max (⟨p, by omega, hp1⟩ : CInt) ⟨q, hmin, hq1⟩).1 +
        (max (⟨p', by omega, hp1'⟩ : CInt) ⟨q', hmin', hq1'⟩).1 = without.1 := by
      rw [coe_max, coe_max, hwithout]
    rw [robHelper, (hl.eq_some ⟨p, by omega, hp1⟩ ⟨q, hmin, hq1⟩).2 ⟨rfl, rfl⟩,
      (hr.eq_some ⟨p', by omega, hp1'⟩ ⟨q', hmin', hq1'⟩).2 ⟨rfl, rfl⟩]
    show ((checked _).bind fun without ↦ (checked ((val a).1 + p)).bind fun sum ↦
      (checked (sum.1 + p')).bind fun with_ ↦ some (without, with_)) = _
    rw [hmax, checked_coe, Option.bind_some, hsum, Option.bind_some, hwith']
    rfl

theorem exists_holds (val : ι → CInt) (hnodup : (inorder t).Nodup) : ∃ p q, Holds val t p q := by
  induction t with
  | nil =>
    refine ⟨0, 0, isBest_empty, isBest_empty, by decide, fun without with_ ↦ ?_⟩
    rw [robHelper, Option.some_inj, Prod.mk_inj, eq_comm (b := without), eq_comm (b := with_),
      Subtype.ext_iff, Subtype.ext_iff]
    rfl
  | node a l r ihl ihr =>
    obtain ⟨hnodup_l, hnodup_r, -⟩ := nodup_node.1 hnodup
    obtain ⟨p, q, hl⟩ := ihl hnodup_l
    obtain ⟨p', q', hr⟩ := ihr hnodup_r
    exact ⟨_, _, hl.node hnodup hr⟩

/-- **`rob`** returns the greatest sum of a set of houses without neighbours, if it is an `int`. -/
theorem rob_iff_isBest (val : ι → CInt) (t : NodeTree ι) (x : CInt) :
    rob val t.1 = some x ↔ IsBest (Child t.1) (fun a ↦ (val a).1) (nodes t.1) x.1 := by
  obtain ⟨p, q, h⟩ := exists_holds val t.2
  have hrob : rob val t.1 = some x ↔ x.1 = max p q := by
    constructor
    · intro hx
      obtain ⟨⟨without, with_⟩, hres, hx⟩ := Option.bind_eq_some_iff.1 hx
      obtain ⟨rfl, rfl⟩ := (h.eq_some without with_).1 hres
      rw [← Option.some.inj hx, coe_max]
    · intro hx
      have hlt := x.2.2
      have hmin := h.min
      have hp := h.below.nonneg
      rw [rob, (h.eq_some ⟨p, by omega, by omega⟩ ⟨q, hmin, by omega⟩).2 ⟨rfl, rfl⟩]
      refine congrArg some (Subtype.ext ?_)
      rw [coe_max, hx]
  rw [hrob]
  exact ⟨fun hx ↦ hx ▸ h.nodes, fun hx ↦ hx.unique h.nodes⟩

end HouseRobber3
