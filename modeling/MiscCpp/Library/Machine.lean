import Mathlib.Data.List.Basic
import Mathlib.Data.List.Induction
import Mathlib.Tactic.Common

/-!
# Runs of a partial step function

A **machine** is a step function `step : σ → α → Option σ`: from a state and an action to the next
state, undefined (`none`) where the action is not possible or its effect is not defined. A run is a
list of actions, executed from left to right; it is defined when each of its steps is.

Five things are packaged once for every machine below:

* `exec_invariant`: what holds at the start and is preserved by each step **that meets a step
  condition** holds at the end of every run whose steps all meet the condition;
* `exists_exec_range`: the same for a loop that counts, with an invariant that may depend on the
  counter; the loop is defined as well;
* `exec_simulates`: what one step of a machine follows, its runs follow;
* `always_of_invariant`, `always_congr` and `always_congr_of_always`: the passage from a statement
  about one step, under an invariant, to the statement about every step of a run;
* `forall_prefix_iff`: the same for a statement about every state of a run, where a step that does
  not meet the condition shows; `exists_prefix_iff` if the steps are to be defined as well, and
  `exists_exec_iff` if only that is asked.

Step conditions are relations between the state before the step and the action taken. The predicate
`Always` says that each step of a run meets one.
-/

namespace Machine

variable {σ α : Type*} (step : σ → α → Option σ)

/-- Execute a list of actions. -/
def exec (s : σ) (as : List α) : Option σ := as.foldlM step s

@[simp] theorem exec_nil (s : σ) : exec step s [] = some s := rfl

@[simp] theorem exec_cons (s : σ) (a : α) (as : List α) :
    exec step s (a :: as) = (step s a).bind (exec step · as) := rfl

theorem exec_append (s : σ) (as bs : List α) :
    exec step s (as ++ bs) = (exec step s as).bind (exec step · bs) := by
  simp only [exec, List.foldlM_append]
  rfl

theorem exec_append_of_exec {s t : σ} {as : List α} (h : exec step s as = some t)
    (bs : List α) : exec step s (as ++ bs) = exec step t bs := by
  rw [exec_append, h, Option.bind_some]

theorem exec_concat (s : σ) (as : List α) (a : α) :
    exec step s (as ++ [a]) = (exec step s as).bind (step · a) := by
  rw [exec_append]
  cases exec step s as with
  | none => rfl
  | some t => simp

/-- A defined run splits at every point into two defined runs. -/
theorem exec_append_eq_some {s u : σ} {as bs : List α} :
    exec step s (as ++ bs) = some u ↔
      ∃ t, exec step s as = some t ∧ exec step t bs = some u := by
  rw [exec_append, Option.bind_eq_some_iff]

/-! ### Step conditions along a run -/

/-- Each step of the run from `s` along `as` meets `P`. Steps after an undefined one are not
reached, and nothing is asked of them. -/
def Always (P : σ → α → Prop) : σ → List α → Prop
  | _, [] => True
  | s, a :: as => P s a ∧ ∀ t, step s a = some t → Always P t as

/-- Along a given run a decidable condition can be checked step by step. -/
instance decidableAlways (P : σ → α → Prop) [∀ s a, Decidable (P s a)] :
    ∀ s as, Decidable (Always step P s as)
  | _, [] => isTrue trivial
  | s, a :: as =>
    match h : step s a with
    | none => decidable_of_iff (P s a) (by simp [Always, h])
    | some t =>
      have := decidableAlways P t as
      decidable_of_iff (P s a ∧ Always step P t as) (by simp [Always, h])

variable {step} {P Q : σ → α → Prop}

@[simp] theorem always_nil (s : σ) : Always step P s [] := trivial

/-- The condition along a run, by its first step. -/
theorem always_cons {s : σ} {a : α} {as : List α} :
    Always step P s (a :: as) ↔ P s a ∧ ∀ t, step s a = some t → Always step P t as :=
  Iff.rfl

/-- The same, where the first step is known. -/
theorem always_cons_of_step {s t : σ} {a : α} {as : List α} (h : step s a = some t) :
    Always step P s (a :: as) ↔ P s a ∧ Always step P t as := by
  refine and_congr_right fun _ ↦ ⟨fun hall ↦ hall t h, fun ht u hu ↦ ?_⟩
  obtain rfl := Option.some.inj (h.symm.trans hu)
  exact ht

theorem always_append {s : σ} {as bs : List α} :
    Always step P s (as ++ bs) ↔
      Always step P s as ∧ ∀ t, exec step s as = some t → Always step P t bs := by
  induction as generalizing s with
  | nil => simp
  | cons a as ih =>
    rw [List.cons_append, always_cons, always_cons]
    constructor
    · rintro ⟨ha, h⟩
      refine ⟨⟨ha, fun t ht ↦ (ih.1 (h t ht)).1⟩, fun u hu ↦ ?_⟩
      rw [exec_cons, Option.bind_eq_some_iff] at hu
      obtain ⟨t, ht, hu⟩ := hu
      exact (ih.1 (h t ht)).2 u hu
    · rintro ⟨⟨ha, h⟩, h'⟩
      refine ⟨ha, fun t ht ↦ ih.2 ⟨h t ht, fun u hu ↦ h' u ?_⟩⟩
      rw [exec_cons, ht, Option.bind_some, hu]

/-- The condition holds at the step taken after any prefix of the run. -/
theorem always_step {s t : σ} {as bs : List α} {a : α}
    (h : Always step P s (as ++ a :: bs)) (ht : exec step s as = some t) : P t a :=
  ((always_append.1 h).2 t ht).1

theorem always_mono (hPQ : ∀ s a, P s a → Q s a) {s : σ} {as : List α}
    (h : Always step P s as) : Always step Q s as := by
  induction as generalizing s with
  | nil => trivial
  | cons a as ih => exact ⟨hPQ s a h.1, fun t ht ↦ ih (h.2 t ht)⟩

theorem always_of_forall (h : ∀ s a, P s a) (s : σ) (as : List α) : Always step P s as := by
  induction as generalizing s with
  | nil => trivial
  | cons a as ih => exact ⟨h s a, fun t _ ↦ ih t⟩

/-- Two step conditions that agree at the actions of a run agree along it. -/
theorem always_congr_of_mem {as : List α} (h : ∀ s, ∀ a ∈ as, (P s a ↔ Q s a)) {s : σ} :
    Always step P s as ↔ Always step Q s as := by
  induction as generalizing s with
  | nil => exact Iff.rfl
  | cons a as ih =>
    rw [always_cons, always_cons, h s a List.mem_cons_self]
    exact and_congr_right fun _ ↦ forall₂_congr fun t _ ↦
      ih fun s b hb ↦ h s b (List.mem_cons_of_mem a hb)

/-- A condition on the actions alone need only be checked for those of the run. -/
theorem always_of_mem {as : List α} (h : ∀ s, ∀ a ∈ as, P s a) (s : σ) : Always step P s as :=
  (always_congr_of_mem (Q := fun _ _ ↦ True) fun s a ha ↦ iff_true_intro (h s a ha)).2
    (always_of_forall (fun _ _ ↦ trivial) s as)

/-- Two conditions along a run. -/
theorem always_and {s : σ} {as : List α} :
    Always step (fun s a ↦ P s a ∧ Q s a) s as ↔ Always step P s as ∧ Always step Q s as := by
  induction as generalizing s with
  | nil => simp
  | cons a as ih =>
    simp only [always_cons, ih]
    constructor
    · rintro ⟨⟨hp, hq⟩, h⟩
      exact ⟨⟨hp, fun t ht ↦ (h t ht).1⟩, hq, fun t ht ↦ (h t ht).2⟩
    · rintro ⟨⟨hp, h⟩, hq, h'⟩
      exact ⟨⟨hp, hq⟩, fun t ht ↦ ⟨h t ht, h' t ht⟩⟩

/-- What each defined step has, every step of a defined run has. -/
theorem always_of_exec (hP : ∀ s a t, step s a = some t → P s a) {s t : σ} {as : List α}
    (h : exec step s as = some t) : Always step P s as := by
  induction as generalizing s with
  | nil => trivial
  | cons a as ih =>
    obtain ⟨u, hu, h⟩ := Option.bind_eq_some_iff.1 h
    refine ⟨hP s a u hu, fun v hv ↦ ?_⟩
    obtain rfl := Option.some.inj (hu.symm.trans hv)
    exact ih h

/-- Two machines that do the same in the states of an invariant have the same runs. -/
theorem exec_congr_of_mem {step' : σ → α → Option σ} {I : σ → Prop} {as : List α}
    (hstep : ∀ s, ∀ a ∈ as, ∀ t, I s → step s a = some t → I t)
    (heq : ∀ s, ∀ a ∈ as, I s → step s a = step' s a) {s : σ} (hs : I s) :
    exec step s as = exec step' s as := by
  induction as generalizing s with
  | nil => rfl
  | cons a as ih =>
    rw [exec_cons, exec_cons, ← heq s a List.mem_cons_self hs]
    refine Option.bind_congr fun t ht ↦ ih (fun s b hb ↦ hstep s b (List.mem_cons_of_mem a hb))
      (fun s b hb ↦ heq s b (List.mem_cons_of_mem a hb)) ?_
    exact hstep s a List.mem_cons_self t hs ht

/-! ### Invariants -/

/-- **The invariant rule.** What a step meeting `P` preserves, a run whose steps meet `P`
preserves. -/
theorem exec_invariant {I : σ → Prop}
    (hstep : ∀ s a t, I s → P s a → step s a = some t → I t) {s t : σ} {as : List α}
    (hs : I s) (hP : Always step P s as) (h : exec step s as = some t) : I t := by
  induction as generalizing s with
  | nil => exact Option.some.inj h ▸ hs
  | cons a as ih =>
    rw [exec_cons, Option.bind_eq_some_iff] at h
    obtain ⟨u, hu, h⟩ := h
    exact ih (hstep s a u hs hP.1 hu) (hP.2 u hu) h

/-- The invariant rule without a step condition. -/
theorem exec_invariant' {I : σ → Prop} (hstep : ∀ s a t, I s → step s a = some t → I t)
    {s t : σ} {as : List α} (hs : I s) (h : exec step s as = some t) : I t := by
  induction as generalizing s with
  | nil => exact Option.some.inj h ▸ hs
  | cons a as ih =>
    rw [exec_cons, Option.bind_eq_some_iff] at h
    obtain ⟨u, hu, h⟩ := h
    exact ih (hstep s a u hs hu) h

/-- What an invariant gives at each step meeting `P`, every step of a run meeting `P` has. -/
theorem always_of_invariant {I : σ → Prop}
    (hstep : ∀ s a t, I s → P s a → step s a = some t → I t)
    (hQ : ∀ s a, I s → P s a → Q s a) {s : σ} {as : List α} (hs : I s)
    (hP : Always step P s as) : Always step Q s as := by
  induction as generalizing s with
  | nil => trivial
  | cons a as ih =>
    exact ⟨hQ s a hs hP.1, fun t ht ↦ ih (hstep s a t hs hP.1 ht) (hP.2 t ht)⟩

/-- Under an invariant of all steps, two step conditions that agree at each step agree along every
run. -/
theorem always_congr {I : σ → Prop} (hstep : ∀ s a t, I s → step s a = some t → I t)
    (hPQ : ∀ s a, I s → (P s a ↔ Q s a)) {s : σ} {as : List α} (hs : I s) :
    Always step P s as ↔ Always step Q s as := by
  induction as generalizing s with
  | nil => simp
  | cons a as ih =>
    rw [always_cons, always_cons, hPQ s a hs]
    exact and_congr_right fun _ ↦ forall₂_congr fun t ht ↦ ih (hstep s a t hs ht)

/-- The same in runs whose steps meet `H`, if the invariant is only kept by steps that meet `P` as
well. -/
theorem always_congr_of_always {I : σ → Prop} {H : σ → α → Prop}
    (hstep : ∀ s a t, I s → H s a → P s a → step s a = some t → I t)
    (hPQ : ∀ s a, I s → H s a → (P s a ↔ Q s a)) {s : σ} {as : List α} (hs : I s)
    (hH : Always step H s as) : Always step P s as ↔ Always step Q s as := by
  induction as generalizing s with
  | nil => simp
  | cons a as ih =>
    rw [always_cons, always_cons, ← hPQ s a hs hH.1]
    exact and_congr_right fun hP ↦
      forall₂_congr fun t ht ↦ ih (hstep s a t hs hH.1 hP ht) (hH.2 t ht)

/-- **What a run shows at every state.** If steps that meet `P` keep an invariant which gives `Q`,
and the others lead to a state without `Q`, then all states of a run have `Q` exactly if all its
steps meet `P`. -/
theorem forall_prefix_iff {I Q : σ → Prop} (hQ : ∀ s, I s → Q s)
    (hstep : ∀ s a t, I s → P s a → step s a = some t → I t)
    (hbad : ∀ s a, I s → ¬ P s a → ∃ t, step s a = some t ∧ ¬ Q t) {s : σ} {as : List α}
    (hs : I s) :
    (∀ bs t, bs <+: as → exec step s bs = some t → Q t) ↔ Always step P s as := by
  induction as generalizing s with
  | nil =>
    refine iff_of_true (fun bs t hbs h ↦ ?_) trivial
    obtain rfl := List.prefix_nil.1 hbs
    exact Option.some.inj h ▸ hQ s hs
  | cons a as ih =>
    rw [always_cons]
    constructor
    · intro h
      have ha : P s a := by
        by_contra ha
        obtain ⟨t, ht, hnot⟩ := hbad s a hs ha
        refine hnot (h [a] t (List.prefix_append [a] as) ?_)
        rw [exec_cons, ht]
        rfl
      refine ⟨ha, fun t ht ↦ (ih (hstep s a t hs ha ht)).1 fun bs u hbs hu ↦ ?_⟩
      exact h (a :: bs) u (List.cons_prefix_cons.2 ⟨rfl, hbs⟩) (by rw [exec_cons, ht]; exact hu)
    · rintro ⟨ha, h⟩ bs u hbs hu
      cases bs with
      | nil => exact Option.some.inj hu ▸ hQ s hs
      | cons b bs =>
        obtain ⟨rfl, htail⟩ := List.cons_prefix_cons.1 hbs
        obtain ⟨t, ht, hu⟩ := Option.bind_eq_some_iff.1 hu
        exact (ih (hstep s b t hs ha ht)).2 (h t ht) bs u htail hu

/-- The same for runs that are defined: here a step that does not meet `P` may also be undefined. -/
theorem exists_prefix_iff {I Q : σ → Prop} (hQ : ∀ s, I s → Q s)
    (hstep : ∀ s a, I s → P s a → ∃ t, step s a = some t ∧ I t)
    (hbad : ∀ s a t, I s → ¬ P s a → step s a = some t → ¬ Q t) {s : σ} {as : List α}
    (hs : I s) :
    (∀ bs, bs <+: as → ∃ t, exec step s bs = some t ∧ Q t) ↔ Always step P s as := by
  induction as generalizing s with
  | nil =>
    refine iff_of_true (fun bs hbs ↦ ?_) trivial
    obtain rfl := List.prefix_nil.1 hbs
    exact ⟨s, rfl, hQ s hs⟩
  | cons a as ih =>
    rw [always_cons]
    constructor
    · intro h
      obtain ⟨t, ht, hq⟩ := h [a] (List.prefix_append [a] as)
      have ha : P s a := by
        by_contra ha
        obtain ⟨u, hu, hut⟩ := Option.bind_eq_some_iff.1 ht
        obtain rfl := Option.some.inj hut
        exact hbad s a u hs ha hu hq
      obtain ⟨u, hu, hI⟩ := hstep s a hs ha
      refine ⟨ha, fun v hv ↦ ?_⟩
      obtain rfl := Option.some.inj (hu.symm.trans hv)
      refine (ih hI).1 fun bs hbs ↦ ?_
      obtain ⟨w, hw, hq'⟩ := h (a :: bs) (List.cons_prefix_cons.2 ⟨rfl, hbs⟩)
      rw [exec_cons, hu] at hw
      exact ⟨w, hw, hq'⟩
    · rintro ⟨ha, h⟩ bs hbs
      cases bs with
      | nil => exact ⟨s, rfl, hQ s hs⟩
      | cons b bs =>
        obtain ⟨rfl, htail⟩ := List.cons_prefix_cons.1 hbs
        obtain ⟨u, hu, hI⟩ := hstep s b hs ha
        obtain ⟨t, ht, hq⟩ := (ih hI).2 (h u hu) bs htail
        exact ⟨t, by rw [exec_cons, hu]; exact ht, hq⟩

/-- A run is defined exactly if its steps meet what makes a step defined. -/
theorem exists_exec_iff {I : σ → Prop} {as : List α}
    (hstep : ∀ s, ∀ a ∈ as, ∀ t, I s → step s a = some t → I t)
    (hP : ∀ s, ∀ a ∈ as, I s → ((∃ t, step s a = some t) ↔ P s a)) {s : σ} (hs : I s) :
    (∃ t, exec step s as = some t) ↔ Always step P s as := by
  induction as generalizing s with
  | nil => exact iff_of_true ⟨s, rfl⟩ trivial
  | cons a as ih =>
    have hrest := fun t (ht : I t) ↦ ih (fun s b hb ↦ hstep s b (List.mem_cons_of_mem a hb))
      (fun s b hb ↦ hP s b (List.mem_cons_of_mem a hb)) ht
    have hkeep := fun t ↦ hstep s a List.mem_cons_self t hs
    rw [always_cons, ← hP s a List.mem_cons_self hs, exec_cons]
    constructor
    · rintro ⟨u, hu⟩
      obtain ⟨t, ht, hu⟩ := Option.bind_eq_some_iff.1 hu
      refine ⟨⟨t, ht⟩, fun t' ht' ↦ ?_⟩
      obtain rfl := Option.some.inj (ht.symm.trans ht')
      exact (hrest t (hkeep t ht)).1 ⟨u, hu⟩
    · rintro ⟨⟨t, ht⟩, h⟩
      obtain ⟨u, hu⟩ := (hrest t (hkeep t ht)).2 (h t ht)
      exact ⟨u, by rw [ht, Option.bind_some, hu]⟩

/-! ### Simulation -/

/-- A machine that follows each step of another one follows its runs. -/
theorem exec_simulates {τ : Type*} {step : σ → α → Option σ} {step' : τ → α → Option τ}
    {R : σ → τ → Prop}
    (hstep : ∀ s t a t', R s t → step' t a = some t' → ∃ s', step s a = some s' ∧ R s' t')
    {s : σ} {t t' : τ} {as : List α} (hR : R s t) (h : exec step' t as = some t') :
    ∃ s', exec step s as = some s' ∧ R s' t' := by
  induction as generalizing s t with
  | nil => exact ⟨s, rfl, Option.some.inj h ▸ hR⟩
  | cons a as ih =>
    rw [exec_cons, Option.bind_eq_some_iff] at h
    obtain ⟨u, hu, h⟩ := h
    obtain ⟨v, hv, hR'⟩ := hstep s t a u hR hu
    obtain ⟨s', hs', hR''⟩ := ih hR' h
    exact ⟨s', by rw [exec_cons, hv, Option.bind_some, hs'], hR''⟩

/-! ### Counted runs -/

/-- A loop over `0, …, n - 1` is defined and keeps an invariant that each of its turns keeps. -/
theorem exists_exec_range {step : σ → ℕ → Option σ} {I : ℕ → σ → Prop} {n : ℕ}
    (hstep : ∀ k s, k < n → I k s → ∃ t, step s k = some t ∧ I (k + 1) t) {s : σ} (hs : I 0 s) :
    ∃ t, exec step s (List.range n) = some t ∧ I n t := by
  induction n with
  | zero => exact ⟨s, rfl, hs⟩
  | succ n ih =>
    obtain ⟨t, ht, hI⟩ := ih fun k s hk ↦ hstep k s (by omega)
    obtain ⟨u, hu, hI'⟩ := hstep n t (by omega) hI
    refine ⟨u, ?_, hI'⟩
    rw [List.range_succ, exec_concat, ht, Option.bind_some, hu]

/-- The same for `m, …, n - 1`. -/
theorem exists_exec_drop_range {step : σ → ℕ → Option σ} {I : ℕ → σ → Prop} {m n : ℕ}
    (hmn : m ≤ n)
    (hstep : ∀ k s, m ≤ k → k < n → I k s → ∃ t, step s k = some t ∧ I (k + 1) t) {s : σ}
    (hs : I m s) : ∃ t, exec step s ((List.range n).drop m) = some t ∧ I n t := by
  induction n with
  | zero =>
    obtain rfl := Nat.le_zero.1 hmn
    exact ⟨s, rfl, hs⟩
  | succ n ih =>
    rcases Nat.lt_or_eq_of_le hmn with hlt | rfl
    · have hle := Nat.le_of_lt_succ hlt
      obtain ⟨t, ht, hI⟩ := ih hle fun k s hk hlt ↦ hstep k s hk (by omega)
      obtain ⟨u, hu, hI'⟩ := hstep n t hle (by omega) hI
      refine ⟨u, ?_, hI'⟩
      rw [List.range_succ, List.drop_append_of_le_length (by rwa [List.length_range]), exec_concat,
        ht, Option.bind_some, hu]
    · refine ⟨s, ?_, hs⟩
      rw [List.drop_of_length_le (Nat.le_of_eq List.length_range)]
      rfl

/-- The same for `n - 1, …, 0`. -/
theorem exists_exec_reverse_range {step : σ → ℕ → Option σ} {I : ℕ → σ → Prop} {n : ℕ}
    (hstep : ∀ k s, k < n → I (k + 1) s → ∃ t, step s k = some t ∧ I k t) {s : σ} (hs : I n s) :
    ∃ t, exec step s (List.range n).reverse = some t ∧ I 0 t := by
  induction n generalizing s with
  | zero => exact ⟨s, rfl, hs⟩
  | succ n ih =>
    obtain ⟨t, ht, hI⟩ := hstep n s (by omega) hs
    obtain ⟨u, hu, hI'⟩ := ih (fun k s hk ↦ hstep k s (by omega)) hI
    refine ⟨u, ?_, hI'⟩
    rw [List.range_succ, List.reverse_concat, exec_cons, ht, Option.bind_some, hu]

/-- The same for any list, with an invariant that may depend on the actions taken. -/
theorem exists_exec_list {step : σ → α → Option σ} {I : List α → σ → Prop} {as : List α}
    (hstep : ∀ done, ∀ a ∈ as, ∀ s, I done s → ∃ t, step s a = some t ∧ I (done ++ [a]) t) {s : σ}
    (hs : I [] s) : ∃ t, exec step s as = some t ∧ I as t := by
  induction as using List.reverseRecOn with
  | nil => exact ⟨s, rfl, hs⟩
  | append_singleton as a ih =>
    obtain ⟨t, ht, hI⟩ := ih fun done b hb ↦ hstep done b (List.mem_append_left [a] hb)
    obtain ⟨u, hu, hI'⟩ := hstep as a (List.mem_append_right as List.mem_cons_self) t hI
    refine ⟨u, ?_, hI'⟩
    rw [exec_concat, ht, Option.bind_some, hu]

/-- What an action must have for its step to be defined, each action of a defined run has. -/
theorem forall_of_exec {step : σ → α → Option σ} {P : α → Prop}
    (hP : ∀ s a t, step s a = some t → P a) {s t : σ} {as : List α}
    (h : exec step s as = some t) : ∀ a ∈ as, P a := by
  induction as generalizing s with
  | nil => exact fun a ha ↦ by cases ha
  | cons b bs ih =>
    obtain ⟨u, hu, h⟩ := Option.bind_eq_some_iff.1 h
    intro a ha
    rcases List.mem_cons.1 ha with rfl | ha
    · exact hP s a u hu
    · exact ih h a ha

end Machine
