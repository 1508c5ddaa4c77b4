import Mathlib.Tactic.Common

/-!
# Loops with a condition

A loop whose condition and body may be undefined, with fuel for its turns.

What the turns keep, the loop keeps (`run_invariant`); if the turns are defined and a measure
falls, the loop ends (`exists_run`, and `exists_run_index` if the condition is a test).
-/

namespace WhileLoop

variable {σ : Type*} (cond : σ → Option Bool) (body : σ → Option σ)

/-- Turns of a loop until its body stops it, as far as the fuel goes. -/
def run : ℕ → σ → Option σ
  | 0, _ => none
  | fuel + 1, s => (cond s).bind fun continues ↦
    if continues then (body s).bind (run fuel) else some s

variable {cond body} {I : σ → Prop} {fuel : ℕ} {s t : σ}

/-- **The invariant rule** for a loop that has ended. -/
theorem run_invariant
    (hstep : ∀ s t, I s → cond s = some true → body s = some t → I t) (hs : I s)
    (h : run cond body fuel s = some t) : I t ∧ cond t = some false := by
  induction fuel generalizing s with
  | zero => cases h
  | succ fuel ih =>
    obtain ⟨continues, hcond, h⟩ := Option.bind_eq_some_iff.1 h
    cases continues with
    | false =>
      obtain rfl := Option.some.inj h
      exact ⟨hs, hcond⟩
    | true =>
      obtain ⟨u, hbody, h⟩ := Option.bind_eq_some_iff.1 h
      exact ih (hstep s u hs hcond hbody) h

/-- **A loop ends** if its turns are defined and a measure falls. -/
theorem exists_run (measure : σ → ℕ)
    (hstep : ∀ s, I s → cond s = some false ∨
      cond s = some true ∧ ∃ t, body s = some t ∧ I t ∧ measure t < measure s)
    (hs : I s) (hfuel : measure s < fuel) :
    ∃ t, run cond body fuel s = some t ∧ I t ∧ cond t = some false := by
  induction fuel generalizing s with
  | zero => exact absurd hfuel (Nat.not_lt_zero _)
  | succ fuel ih =>
    rw [run]
    rcases hstep s hs with hcond | ⟨hcond, t, hbody, ht, hlt⟩
    · exact ⟨s, by rw [hcond]; rfl, hs, hcond⟩
    · obtain ⟨u, hu⟩ := ih ht (by omega)
      refine ⟨u, ?_, hu.2⟩
      rw [hcond, Option.bind_some, if_pos rfl, hbody, Option.bind_some, hu.1]

/-- The same, if the invariant speaks of an index, such as a position, and the condition is a test
of it. -/
theorem exists_run_index {κ : Type*} {I P : κ → σ → Prop} [∀ k s, Decidable (P k s)]
    (measure : σ → ℕ) (hcond : ∀ k s, I k s → cond s = some (decide (P k s)))
    (hstep : ∀ k s, I k s → P k s → ∃ l t, body s = some t ∧ I l t ∧ measure t < measure s)
    {k : κ} (hs : I k s) (hfuel : measure s < fuel) :
    ∃ l t, run cond body fuel s = some t ∧ I l t ∧ ¬ P l t := by
  have hturn (s : σ) (hs : ∃ k, I k s) : cond s = some false ∨
      cond s = some true ∧ ∃ t, body s = some t ∧ (∃ k, I k t) ∧ measure t < measure s := by
    obtain ⟨k, hk⟩ := hs
    rw [hcond k s hk]
    by_cases hP : P k s
    · obtain ⟨l, t, hbody, hl, hlt⟩ := hstep k s hk hP
      exact Or.inr ⟨by rw [decide_eq_true hP], t, hbody, ⟨l, hl⟩, hlt⟩
    · exact Or.inl (by rw [decide_eq_false hP])
  obtain ⟨t, hrun, ⟨l, hl⟩, hend⟩ := exists_run measure hturn ⟨k, hs⟩ hfuel
  rw [hcond l t hl, Option.some_inj, decide_eq_false_iff_not] at hend
  exact ⟨l, t, hrun, hl, hend⟩

end WhileLoop
