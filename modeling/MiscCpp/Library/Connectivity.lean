import Mathlib.Logic.Relation
import Mathlib.Tactic.Common

/-!
# Points joined by pairs

The equivalence relation that a relation generates, as a union of pairs sees it: adding one pair
unites two classes (`joined_add`).
-/

namespace Connectivity

variable {V β : Type*} {R S : V → V → Prop} {u v w x y : V}

/-- `u` and `v` are joined by pairs of `R`, in either direction. -/
def Joined (R : V → V → Prop) : V → V → Prop := Relation.EqvGen R

theorem Joined.of (h : R u v) : Joined R u v := .rel _ _ h

theorem Joined.refl (R : V → V → Prop) (u : V) : Joined R u u := Relation.EqvGen.refl u

theorem Joined.symm (h : Joined R u v) : Joined R v u := Relation.EqvGen.symm _ _ h

theorem Joined.trans (h : Joined R u v) (h' : Joined R v w) : Joined R u w :=
  Relation.EqvGen.trans _ _ _ h h'

/-- What is joined by pairs that are joined is joined. -/
theorem Joined.lift (h : Joined R u v) (hRS : ∀ u v, R u v → Joined S u v) : Joined S u v := by
  induction h with
  | rel u v h => exact hRS u v h
  | refl u => exact .refl S u
  | symm u v _ ih => exact ih.symm
  | trans u v w _ _ ih ih' => exact ih.trans ih'

/-- More relations join as much. -/
theorem Joined.mono (h : Joined R u v) (hRS : ∀ u v, R u v → S u v) : Joined S u v :=
  h.lift fun u v huv ↦ .of (hRS u v huv)

/-- What every pair agrees on, points that are joined agree on. -/
theorem Joined.apply_eq (h : Joined R u v) {f : V → β} (hf : ∀ u v, R u v → f u = f v) :
    f u = f v := by
  induction h with
  | rel u v h => exact hf u v h
  | refl u => rfl
  | symm u v _ ih => exact ih.symm
  | trans u v w _ _ ih ih' => exact ih.trans ih'

/-- A point in no pair is joined with itself only. -/
theorem Joined.eq_of_isolated (h : Joined R u v) (hu : ∀ w, ¬ R u w ∧ ¬ R w u) : v = u := by
  have hprop : (u = u) = (v = u) := by
    refine h.apply_eq (f := fun w ↦ w = u) fun a b hab ↦ ?_
    rw [eq_iff_iff]
    constructor
    · rintro rfl
      exact absurd hab (hu b).1
    · rintro rfl
      exact absurd hab (hu a).2
  exact hprop.mp rfl

/-- Points that are joined from one side of a cut to the other: a pair crosses it. -/
theorem Joined.exists_crossing (h : Joined R u v) {P : V → Prop} (hu : P u) (hv : ¬ P v) :
    ∃ a b, R a b ∧ (P a ↔ ¬ P b) := by
  by_contra hnone
  have hprop : P u = P v := h.apply_eq fun a b hab ↦ by
    rw [eq_iff_iff]
    by_contra hne
    exact hnone ⟨a, b, hab, by tauto⟩
  exact hv (hprop.mp hu)

/-! ### One more pair -/

/-- The relation with the pair of `x` and `y` added. -/
def Adding (R : V → V → Prop) (x y : V) : V → V → Prop := fun u v ↦ R u v ∨ u = x ∧ v = y

/-- **A pair unites two classes.** -/
theorem joined_add : Joined (Adding R x y) u v ↔
    Joined R u v ∨ Joined R u x ∧ Joined R y v ∨ Joined R u y ∧ Joined R x v := by
  constructor
  · intro h
    induction h with
    | rel u v h =>
      rcases h with h | ⟨rfl, rfl⟩
      · exact .inl (.of h)
      · exact .inr (.inl ⟨.refl R _, .refl R _⟩)
    | refl u => exact .inl (.refl R u)
    | symm u v _ ih =>
      rcases ih with h | ⟨h, h'⟩ | ⟨h, h'⟩
      · exact .inl h.symm
      · exact .inr (.inr ⟨h'.symm, h.symm⟩)
      · exact .inr (.inl ⟨h'.symm, h.symm⟩)
    | trans u v w _ _ ih ih' =>
      rcases ih with h | ⟨hu, hv⟩ | ⟨hu, hv⟩
      · rcases ih' with h' | ⟨hv', hw⟩ | ⟨hv', hw⟩
        · exact .inl (h.trans h')
        · exact .inr (.inl ⟨h.trans hv', hw⟩)
        · exact .inr (.inr ⟨h.trans hv', hw⟩)
      · rcases ih' with h' | ⟨-, hw⟩ | ⟨-, hw⟩
        · exact .inr (.inl ⟨hu, hv.trans h'⟩)
        · exact .inr (.inl ⟨hu, hw⟩)
        · exact .inl (hu.trans hw)
      · rcases ih' with h' | ⟨-, hw⟩ | ⟨-, hw⟩
        · exact .inr (.inr ⟨hu, hv.trans h'⟩)
        · exact .inl (hu.trans hw)
        · exact .inr (.inr ⟨hu, hw⟩)
  · have hmono : ∀ {a b}, Joined R a b → Joined (Adding R x y) a b :=
      fun h ↦ h.mono fun _ _ ↦ .inl
    have hxy : Joined (Adding R x y) x y := .of (.inr ⟨rfl, rfl⟩)
    rintro (h | ⟨h, h'⟩ | ⟨h, h'⟩)
    · exact hmono h
    · exact ((hmono h).trans hxy).trans (hmono h')
    · exact ((hmono h).trans hxy.symm).trans (hmono h')

/-- A pair of points that are joined already changes nothing. -/
theorem joined_add_of_joined (h : Joined R x y) :
    Joined (Adding R x y) u v ↔ Joined R u v := by
  rw [joined_add]
  constructor
  · rintro (h' | ⟨h₁, h₂⟩ | ⟨h₁, h₂⟩)
    · exact h'
    · exact (h₁.trans h).trans h₂
    · exact (h₁.trans h.symm).trans h₂
  · exact .inl

end Connectivity
