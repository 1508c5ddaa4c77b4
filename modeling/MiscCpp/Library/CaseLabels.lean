import Mathlib.Data.List.Infix
import Mathlib.Data.List.Nodup
import Mathlib.Tactic.Common

/-!
# A switch into the middle of a statement

In C a `case` label may be anywhere in the statement of its `switch`, also inside of loops. A
function that leaves a statement at `line = L; return v; case L:;` and enters it again with `switch
(line)` takes up what it was doing: it is a **generator** that is called step by step.

Statements work on variables of a type `σ` which are kept from call to call. What is to be done is a
list of statements; `run` does it up to the next value, and leaves what is to be done then. `resume`
is where `switch (line)` jumps to: the statements behind a label, outwards through what is around
it. With distinct labels both are the same (`run_yielded`), so a call takes up what the generator
has left to do (`Distinct.enter_eq`).
-/

namespace CaseLabels

/-- Statements, some of which leave the function. -/
inductive Stmt (σ α : Type*) where
  /-- An assignment, which may be undefined. -/
  | act (f : σ → Option σ)
  | seq (s t : Stmt σ α)
  | branch (c : σ → Bool) (s t : Stmt σ α)
  /-- `while (c) s` -/
  | loop (c : σ → Bool) (s : Stmt σ α)
  /-- `line = label; return value; case label:;` -/
  | yield (label : ℕ) (value : σ → α)
  /-- Leave for good. By the time the value is read, the variables may be gone: an expression that
  uses them is undefined then. -/
  | stop (value : Option σ → Option α)

namespace Stmt

variable {σ α : Type*}

/-- The labels of the statements. -/
def labels : Stmt σ α → List ℕ
  | act _ | stop _ => []
  | seq s t | branch _ s t => s.labels ++ t.labels
  | loop _ s => s.labels
  | yield label _ => [label]

/-- What is to be done behind a label of `s`, with `k` behind `s`. -/
def resume (label : ℕ) : Stmt σ α → List (Stmt σ α) → Option (List (Stmt σ α))
  | act _, _ | stop _, _ => none
  | seq s t, k => (s.resume label (t :: k)).or (t.resume label k)
  | branch _ s t, k => (s.resume label k).or (t.resume label k)
  | loop c s, k => s.resume label (loop c s :: k)
  | yield label' _, k => if label' = label then some k else none

end Stmt

/-- Where a run of statements leaves. -/
inductive Outcome (σ α : Type*) where
  /-- At a label, with what is to be done behind it. -/
  | yielded (label : ℕ) (value : α) (vars : σ) (rest : List (Stmt σ α))
  /-- For good, with the value not yet read. -/
  | stopped (value : Option σ → Option α) (vars : σ)
  /-- At the end. -/
  | finished (vars : σ)
  | undefined
  | running

variable {σ α : Type*} {body s s' : Stmt σ α} {k k' : List (Stmt σ α)} {vars vars' : σ}
  {label : ℕ} {value : α} {fuel : ℕ}

open Stmt

/-- Do what is to be done up to the next value. -/
def run : ℕ → List (Stmt σ α) → σ → Outcome σ α
  | 0, _, _ => .running
  | _ + 1, [], vars => .finished vars
  | fuel + 1, act f :: k, vars =>
    match f vars with
    | none => .undefined
    | some vars => run fuel k vars
  | fuel + 1, seq s t :: k, vars => run fuel (s :: t :: k) vars
  | fuel + 1, branch c s t :: k, vars => run fuel (if c vars then s :: k else t :: k) vars
  | fuel + 1, loop c s :: k, vars => run fuel (if c vars then s :: loop c s :: k else k) vars
  | _ + 1, yield label value :: k, vars => .yielded label (value vars) vars k
  | _ + 1, stop value :: _, vars => .stopped value vars

/-! ### Places in a statement -/

/-- The place of `s'` with `k'` behind it, in `s` with `k` behind it. -/
inductive Within : Stmt σ α → List (Stmt σ α) → Stmt σ α → List (Stmt σ α) → Prop
  | here {s : Stmt σ α} {k : List (Stmt σ α)} : Within s k s k
  | seqLeft {s t s' : Stmt σ α} {k k' : List (Stmt σ α)} :
      Within s (t :: k) s' k' → Within (seq s t) k s' k'
  | seqRight {s t s' : Stmt σ α} {k k' : List (Stmt σ α)} :
      Within t k s' k' → Within (seq s t) k s' k'
  | branchLeft {c : σ → Bool} {s t s' : Stmt σ α} {k k' : List (Stmt σ α)} :
      Within s k s' k' → Within (branch c s t) k s' k'
  | branchRight {c : σ → Bool} {s t s' : Stmt σ α} {k k' : List (Stmt σ α)} :
      Within t k s' k' → Within (branch c s t) k s' k'
  | body {c : σ → Bool} {s s' : Stmt σ α} {k k' : List (Stmt σ α)} :
      Within s (loop c s :: k) s' k' → Within (loop c s) k s' k'

theorem Within.trans {s'' : Stmt σ α} {k'' : List (Stmt σ α)} (h : Within s k s' k')
    (h' : Within s' k' s'' k'') : Within s k s'' k'' := by
  induction h with
  | here => exact h'
  | seqLeft _ ih => exact .seqLeft (ih h')
  | seqRight _ ih => exact .seqRight (ih h')
  | branchLeft _ ih => exact .branchLeft (ih h')
  | branchRight _ ih => exact .branchRight (ih h')
  | body _ ih => exact .body (ih h')

/-- A label that no statement has is not resumed at. -/
theorem resume_of_notMem (h : label ∉ s.labels) : s.resume label k = none := by
  induction s generalizing k with
  | act | stop => rfl
  | seq s t ihs iht =>
    rw [labels, List.mem_append, not_or] at h
    rw [resume, ihs h.1, iht h.2, Option.or_none]
  | branch c s t ihs iht =>
    rw [labels, List.mem_append, not_or] at h
    rw [resume, ihs h.1, iht h.2, Option.or_none]
  | loop c s ih => exact ih h
  | yield label' value =>
    rw [labels, List.mem_singleton] at h
    exact if_neg (Ne.symm h)

/-- The label of a `yield` within the body is one of its labels. -/
theorem Within.mem_labels {value : σ → α} (h : Within s k (yield label value) k') :
    label ∈ s.labels := by
  generalize hy : yield label value = y at h
  induction h with
  | here => exact hy ▸ List.mem_singleton_self label
  | seqLeft _ ih | branchLeft _ ih => exact List.mem_append_left _ (ih hy)
  | seqRight _ ih | branchRight _ ih => exact List.mem_append_right _ (ih hy)
  | body _ ih => exact ih hy

/-- **The jump to a label** leads behind it, if there is no other one of its number. -/
theorem Within.resume_eq {value : σ → α} (h : Within s k (yield label value) k')
    (hnodup : s.labels.Nodup) : s.resume label k = some k' := by
  generalize hy : yield label value = y at h
  induction h with
  | here =>
    subst hy
    exact if_pos rfl
  | seqLeft _ ih | branchLeft _ ih =>
    rw [labels, List.nodup_append] at hnodup
    rw [resume, ih hnodup.1 hy]
    rfl
  | seqRight hin ih | branchRight hin ih =>
    subst hy
    rw [labels, List.nodup_append] at hnodup
    rw [resume, ih hnodup.2.1 rfl, resume_of_notMem, Option.none_or]
    exact fun hmem ↦ hnodup.2.2 label hmem label hin.mem_labels rfl
  | body _ ih =>
    rw [resume]
    exact ih hnodup hy

/-- All that is to be done is at its place in `body`. -/
def Inside (body : Stmt σ α) (k : List (Stmt σ α)) : Prop :=
  ∀ s k', s :: k' <:+ k → Within body [] s k'

theorem Inside.tail (h : Inside body (s :: k)) : Inside body k :=
  fun s k' hsuffix ↦ h s k' (hsuffix.trans (List.suffix_cons _ _))

theorem Inside.head (h : Inside body (s :: k)) : Within body [] s k := h s k List.suffix_rfl

theorem Inside.cons (h : Inside body k) (hs : Within body [] s k) : Inside body (s :: k) := by
  intro s' k' hsuffix
  rcases List.suffix_cons_iff.1 hsuffix with heq | hsuffix
  · cases heq
    exact hs
  · exact h s' k' hsuffix

theorem inside_self (body : Stmt σ α) : Inside body [body] :=
  Inside.cons (fun _ _ h ↦ absurd (List.suffix_nil.1 h) (List.cons_ne_nil _ _)) .here

/-- **A run stays inside** its statement, so that `resume` finds what it leaves. -/
theorem run_yielded {rest : List (Stmt σ α)} (h : Inside body k) (hnodup : body.labels.Nodup)
    (hrun : run fuel k vars = .yielded label value vars' rest) :
    Inside body rest ∧ body.resume label [] = some rest := by
  induction fuel generalizing k vars with
  | zero => exact nomatch hrun
  | succ fuel ih =>
    rcases k with - | ⟨s, k⟩
    · exact nomatch hrun
    have hs := h.head
    rcases s with f | ⟨s, t⟩ | ⟨c, s, t⟩ | ⟨c, s⟩ | ⟨label', value'⟩ | value'
    · rw [run] at hrun
      split at hrun
      · exact nomatch hrun
      · exact ih h.tail hrun
    · rw [run] at hrun
      exact ih ((h.tail.cons (hs.trans (.seqRight .here))).cons (hs.trans (.seqLeft .here))) hrun
    · rw [run] at hrun
      refine ih ?_ hrun
      split
      · exact h.tail.cons (hs.trans (.branchLeft .here))
      · exact h.tail.cons (hs.trans (.branchRight .here))
    · rw [run] at hrun
      refine ih ?_ hrun
      split
      · exact h.cons (hs.trans (.body .here))
      · exact h.tail
    · rw [run] at hrun
      cases hrun
      exact ⟨h.tail, hs.resume_eq hnodup⟩
    · exact nomatch hrun

/-! ### Where a call goes on -/

/-- `switch (line) { case 0: body }`: a line without a label leads behind the statement. -/
def enter (body : Stmt σ α) (line : ℕ) : List (Stmt σ α) :=
  if line = 0 then [body] else (body.resume line []).getD []

/-- No two labels of a statement are the same, and none is that of its begin. -/
structure Distinct (body : Stmt σ α) : Prop where
  nodup : body.labels.Nodup
  zero_notMem : 0 ∉ body.labels

/-- Where the function goes on is what the generator has to do. -/
theorem Distinct.enter_eq {rest : List (Stmt σ α)} (h : Distinct body) (hin : Inside body k)
    (hrun : run fuel k vars = .yielded label value vars' rest) :
    Inside body rest ∧ enter body label = rest := by
  obtain ⟨hrest, hresume⟩ := run_yielded hin h.nodup hrun
  refine ⟨hrest, ?_⟩
  have hne : label ≠ 0 := by
    rintro rfl
    rw [resume_of_notMem h.zero_notMem] at hresume
    exact nomatch hresume
  rw [enter, if_neg hne, hresume, Option.getD_some]

end CaseLabels
