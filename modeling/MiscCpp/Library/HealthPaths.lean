import Mathlib.Algebra.Order.Ring.Int
import Mathlib.Order.Bounds.Basic

/-!
# Paths that have to be survived

On a path, a health is changed by the value of each vertex, and it has to be positive after each of
them. What is needed more than one at the start is the `deficit` of the values (`survives_iff`),
which is found from the end of the path backwards: it is never negative, so what is left over at a
vertex does not count in front of it.

The least deficit of all paths from a vertex (`IsNeed`) is found from those of its successors
(`IsNeed.step`).
-/

namespace HealthPaths

/-- The health `h` stays positive, when the values are added to it one after the other. -/
def Survives : ℤ → List ℤ → Prop
  | _, [] => True
  | h, x :: xs => 1 ≤ h + x ∧ Survives (h + x) xs

/-- What is needed more than one. -/
def deficit : List ℤ → ℤ
  | [] => 0
  | x :: xs => max 0 (deficit xs - x)

theorem deficit_nonneg (xs : List ℤ) : 0 ≤ deficit xs := by
  cases xs with
  | nil => exact le_refl 0
  | cons x xs => exact le_max_left _ _

/-- **The health that is needed** at the start. -/
theorem survives_iff {h : ℤ} (hpos : 1 ≤ h) {xs : List ℤ} :
    Survives h xs ↔ deficit xs + 1 ≤ h := by
  induction xs generalizing h with
  | nil => exact iff_of_true trivial hpos
  | cons x xs ih =>
    have hnonneg := deficit_nonneg xs
    rw [Survives, deficit]
    constructor
    · rintro ⟨hx, hxs⟩
      have hle := (ih hx).1 hxs
      omega
    · intro hle
      have hx : 1 ≤ h + x := by omega
      exact ⟨hx, (ih hx).2 (by omega)⟩

variable {ι : Type*} {r : ι → ι → Prop} {w : ι → ℤ} {p q a b : ι} {ps : List ι} {x y : ℤ}

/-- The vertices of a path to `q`. -/
inductive Path (r : ι → ι → Prop) (q : ι) : ι → List ι → Prop
  | last : Path r q q [q]
  | step {p p' : ι} {ps : List ι} (h : r p p') (hps : Path r q p' ps) : Path r q p (p :: ps)

/-- The deficits of the paths from `p` to `q`. -/
def deficits (r : ι → ι → Prop) (w : ι → ℤ) (q p : ι) : Set ℤ :=
  {x | ∃ ps, Path r q p ps ∧ deficit (ps.map w) = x}

/-- The least deficit of a path from `p` to `q`. -/
def IsNeed (r : ι → ι → Prop) (w : ι → ℤ) (q p : ι) (x : ℤ) : Prop := IsLeast (deficits r w q p) x

/-- At the end of the paths. -/
theorem isNeed_last (hq : ∀ p, ¬ r q p) : IsNeed r w q q (max 0 (0 - w q)) := by
  constructor
  · exact ⟨[q], Path.last, rfl⟩
  · rintro x ⟨ps, hps, rfl⟩
    cases hps with
    | last => exact le_rfl
    | step h _ => exact absurd h (hq _)

/-- **In front of the end**, with two successors. -/
theorem IsNeed.step (hx : IsNeed r w q a x) (hy : IsNeed r w q b y) (hpq : p ≠ q)
    (hr : ∀ p', r p p' ↔ p' = a ∨ p' = b) : IsNeed r w q p (max 0 (min x y - w p)) := by
  constructor
  · rcases le_total x y with hle | hle
    · obtain ⟨ps, hps, rfl⟩ := hx.1
      exact ⟨p :: ps, Path.step ((hr a).2 (Or.inl rfl)) hps, by rw [min_eq_left hle]; rfl⟩
    · obtain ⟨ps, hps, rfl⟩ := hy.1
      exact ⟨p :: ps, Path.step ((hr b).2 (Or.inr rfl)) hps, by rw [min_eq_right hle]; rfl⟩
  · rintro z ⟨ps, hps, rfl⟩
    cases hps with
    | last => exact absurd rfl hpq
    | @step _ p' ps h hps =>
      -- A lesser deficit behind `p` is a lesser one from `p` on.
      refine max_le_max_left 0 (sub_le_sub_right ?_ (w p))
      rcases (hr p').1 h with rfl | rfl
      · exact (min_le_left x y).trans (hx.2 ⟨ps, hps, rfl⟩)
      · exact (min_le_right x y).trans (hy.2 ⟨ps, hps, rfl⟩)

/-- The same with one successor. -/
theorem IsNeed.step_one (hx : IsNeed r w q a x) (hpq : p ≠ q) (hr : ∀ p', r p p' ↔ p' = a) :
    IsNeed r w q p (max 0 (x - w p)) := by
  have hstep := hx.step hx hpq fun p' ↦ (hr p').trans or_self_iff.symm
  rwa [min_self] at hstep

/-- **The least health** with which some path is survived. -/
theorem IsNeed.isLeast (hx : IsNeed r w q p x) :
    IsLeast {h | 1 ≤ h ∧ ∃ ps, Path r q p ps ∧ Survives h (ps.map w)} (x + 1) := by
  obtain ⟨ps, hps, hdef⟩ := hx.1
  have hnonneg := deficit_nonneg (ps.map w)
  constructor
  · have hpos : 1 ≤ x + 1 := by omega
    exact ⟨hpos, ps, hps, (survives_iff hpos).2 (by omega)⟩
  · rintro h ⟨hpos, qs, hqs, hsurvives⟩
    have hle := hx.2 ⟨qs, hqs, rfl⟩
    have hneed := (survives_iff hpos).1 hsurvives
    omega

end HealthPaths
