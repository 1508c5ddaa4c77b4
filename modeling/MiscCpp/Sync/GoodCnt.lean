import Mathlib.Algebra.BigOperators.Group.Finset.Basic
import Mathlib.Algebra.Order.BigOperators.Group.Finset
import Mathlib.Algebra.Order.Ring.Int
import Mathlib.Data.Fintype.BigOperators
import Mathlib.Tactic.Linarith
import MiscCpp.Library.CInt
import MiscCpp.Library.Machine

/-!
# A counter under a semaphore

The two threads of `main` each add `1` to `cnt` as often as `niters` says, between `P` and `V` of a
semaphore with the value `1`. `cnt++` is a load and a store, and the steps of the threads interleave
in whatever way.

**No update is lost and no thread waits for ever**: each run that cannot go on has ended with
`2 * niters` in `cnt` (`report_of_exec`). The invariant is that the semaphore and the threads
between `P` and `V` always make `1` and that `cnt` is what the threads have done (`Inv`).

`sem_wait` fails if a signal interrupts it. `P` then says so and returns, so that the thread goes on
without the semaphore. The results are for runs in which this does not happen.
-/

open Function

namespace GoodCnt

/-- Where a thread is in its loop, with what it has loaded of `cnt`. -/
inductive Pc where
  | test
  | p
  | load
  | store (reg : ℤ)
  | v
  | done

/-- A thread with its loop variable. -/
structure Thread where
  pc : Pc
  i : ℤ

/-- The counter, the semaphore and the threads. -/
structure State (Tid : Type*) where
  cnt : ℤ
  mutex : ℕ
  thread : Tid → Thread

/-- A thread takes its next step, or its wait is interrupted. -/
inductive Event (Tid : Type*) where
  | turn (t : Tid)
  | interrupted (t : Tid)

variable {Tid : Type*} [DecidableEq Tid]

/-- The thread goes on. -/
def State.goto (st : State Tid) (t : Tid) (pc : Pc) (i : ℤ) : State Tid :=
  { st with thread := update st.thread t ⟨pc, i⟩ }

/-- A step of a thread. `P` waits for the semaphore; an overflow of `cnt` is undefined. -/
def step (niters : CInt) (st : State Tid) : Event Tid → Option (State Tid)
  | .turn t =>
    match st.thread t with
    | ⟨.test, i⟩ => if i < niters.1 then some (st.goto t .p i) else some (st.goto t .done i)
    | ⟨.p, i⟩ =>
      if st.mutex = 0 then none else some { st.goto t .load i with mutex := st.mutex - 1 }
    | ⟨.load, i⟩ => some (st.goto t (.store st.cnt) i)
    | ⟨.store reg, i⟩ =>
      if reg + 1 < 2 ^ 63 then some { st.goto t .v i with cnt := reg + 1 } else none
    | ⟨.v, i⟩ => some { st.goto t .test (i + 1) with mutex := st.mutex + 1 }
    | ⟨.done, _⟩ => none
  | .interrupted t =>
    match st.thread t with
    | ⟨.p, i⟩ => some (st.goto t .load i)
    | _ => none

/-- `main` has initialised the semaphore and created the threads. -/
def initial : State Tid := ⟨0, 1, fun _ ↦ ⟨.test, 0⟩⟩

/-- What `main` prints after both threads have ended. -/
def report (niters : CInt) (cnt : ℤ) : String :=
  if cnt ≠ 2 * niters.1 then "BOOM! cnt=" ++ toString cnt ++ "\n"
  else "OK cnt=" ++ toString cnt ++ "\n"

/-! ### The invariant -/

/-- Between `P` and `V`. -/
def Thread.inside : Thread → ℤ
  | ⟨.load, _⟩ | ⟨.store _, _⟩ | ⟨.v, _⟩ => 1
  | _ => 0

/-- What a thread has added to `cnt`. -/
def Thread.added : Thread → ℤ
  | ⟨.v, i⟩ => i + 1
  | ⟨_, i⟩ => i

/-- The steps that a thread has made. -/
def Thread.steps : Thread → ℤ
  | ⟨.test, i⟩ => 5 * i
  | ⟨.p, i⟩ | ⟨.done, i⟩ => 5 * i + 1
  | ⟨.load, i⟩ => 5 * i + 2
  | ⟨.store _, i⟩ => 5 * i + 3
  | ⟨.v, i⟩ => 5 * i + 4

/-- The loop variable. -/
def Thread.Valid (niters : CInt) : Thread → Prop
  | ⟨.test, i⟩ => 0 ≤ i ∧ i ≤ max niters.1 0
  | ⟨.done, i⟩ => i = max niters.1 0
  | ⟨_, i⟩ => 0 ≤ i ∧ i < niters.1

variable [Fintype Tid] {niters : CInt}

/-- **The semaphore and the counter**, after `n` steps. -/
structure Inv (niters : CInt) (n : ℕ) (st : State Tid) : Prop where
  mutex : st.mutex + ∑ t, (st.thread t).inside = 1
  cnt : st.cnt = ∑ t, (st.thread t).added
  reg : ∀ t reg i, st.thread t = ⟨.store reg, i⟩ → reg = st.cnt
  valid : ∀ t, (st.thread t).Valid niters
  steps : n = ∑ t, (st.thread t).steps

theorem sum_goto (f : Thread → ℤ) (st : State Tid) (t : Tid) (pc : Pc) (i : ℤ) :
    ∑ u, f ((st.goto t pc i).thread u) = ∑ u, f (st.thread u) + (f ⟨pc, i⟩ - f (st.thread t)) := by
  have hsplit (u : Tid) : f ((st.goto t pc i).thread u) =
      f (st.thread u) + if u = t then f ⟨pc, i⟩ - f (st.thread t) else 0 := by
    rw [State.goto]
    dsimp only
    split
    next h =>
      rw [h, update_self]
      exact (add_sub_cancel _ _).symm
    next h => rw [update_of_ne h, Int.add_zero]
  rw [Finset.sum_congr rfl fun u _ ↦ hsplit u, Finset.sum_add_distrib, Finset.sum_ite_eq',
    if_pos (Finset.mem_univ _)]

theorem Thread.inside_nonneg (th : Thread) : 0 ≤ th.inside := by
  rcases th with ⟨_ | _ | _ | _ | _ | _, i⟩ <;> dsimp only [inside] <;> decide

variable {n : ℕ} {st st' : State Tid} {t : Tid} {pc : Pc} {i cnt : ℤ} {mutex : ℕ}

omit [DecidableEq Tid] in
/-- **Mutual exclusion.** -/
theorem Inv.eq_of_inside (h : Inv niters n st) {u : Tid} (ht : (st.thread t).inside = 1)
    (hu : (st.thread u).inside = 1) : t = u := by
  classical
  by_contra hne
  have hpair : ∑ s ∈ ({t, u} : Finset Tid), (st.thread s).inside = 2 := by
    rw [Finset.sum_pair hne, ht, hu]
    rfl
  have hle := Finset.sum_le_univ_sum_of_nonneg (s := {t, u}) fun s ↦ (st.thread s).inside_nonneg
  have := h.mutex
  omega

/-- What a step of one thread has to keep. -/
theorem Inv.goto (h : Inv niters n st)
    (hmutex : mutex + Thread.inside ⟨pc, i⟩ = st.mutex + (st.thread t).inside)
    (hcnt : cnt + (st.thread t).added = st.cnt + Thread.added ⟨pc, i⟩)
    (hreg : ∀ reg, pc = .store reg → reg = cnt)
    (hother : cnt = st.cnt ∨ (st.thread t).inside = 1) (hvalid : Thread.Valid niters ⟨pc, i⟩)
    (hsteps : Thread.steps ⟨pc, i⟩ = (st.thread t).steps + 1) :
    Inv niters (n + 1) { st.goto t pc i with cnt := cnt, mutex := mutex } := by
  refine ⟨?_, ?_, fun u reg j hu ↦ ?_, fun u ↦ ?_, ?_⟩
  · dsimp only
    have := h.mutex
    rw [sum_goto]
    omega
  · dsimp only
    have := h.cnt
    rw [sum_goto]
    omega
  · dsimp only [State.goto] at hu ⊢
    rcases eq_or_ne u t with rfl | hne
    · rw [update_self] at hu
      cases hu
      exact hreg reg rfl
    · rw [update_of_ne hne] at hu
      rcases hother with rfl | ht
      · exact h.reg u reg j hu
      · exact absurd (h.eq_of_inside (by rw [hu]; rfl) ht) hne
  · dsimp only [State.goto]
    rcases eq_or_ne u t with rfl | hne
    · rw [update_self]
      exact hvalid
    · rw [update_of_ne hne]
      exact h.valid u
  · dsimp only
    have := h.steps
    rw [sum_goto]
    omega

omit [DecidableEq Tid] in
theorem inv_initial : Inv niters 0 (initial : State Tid) := by
  refine ⟨?_, ?_, fun t reg i h ↦ (nomatch h), fun t ↦ ⟨le_rfl, le_max_right _ _⟩, ?_⟩
  · show 1 + ∑ _, 0 = (1 : ℤ)
    rw [Finset.sum_const_zero, Int.add_zero]
  · exact (Finset.sum_const_zero).symm
  · exact (Finset.sum_const_zero).symm

theorem Inv.turn (h : Inv niters n st) (hstep : step niters st (.turn t) = some st') :
    Inv niters (n + 1) st' := by
  have hvalid := h.valid t
  rw [step] at hstep
  split at hstep
  next i ht =>
    rw [ht] at hvalid
    have hvalid : 0 ≤ i ∧ i ≤ max niters.1 0 := hvalid
    split at hstep
    next hlt =>
      cases hstep
      exact h.goto (by rw [ht]; rfl) (by rw [ht]; rfl) (fun _ h ↦ nomatch h) (.inl rfl)
        ⟨hvalid.1, hlt⟩ (by rw [ht]; rfl)
    next hge =>
      cases hstep
      exact h.goto (by rw [ht]; rfl) (by rw [ht]; rfl) (fun _ h ↦ nomatch h) (.inl rfl)
        (le_antisymm hvalid.2 (max_le (Int.not_lt.1 hge) hvalid.1)) (by rw [ht]; rfl)
  next i ht =>
    rw [ht] at hvalid
    split at hstep
    next => exact nomatch hstep
    next hpos =>
      cases hstep
      exact h.goto (by rw [ht]; dsimp only [Thread.inside]; omega) (by rw [ht]; rfl)
        (fun _ h ↦ nomatch h) (.inl rfl) hvalid (by rw [ht]; dsimp only [Thread.steps]; omega)
  next i ht =>
    rw [ht] at hvalid
    cases hstep
    exact h.goto (by rw [ht]; rfl) (by rw [ht]; rfl) (fun _ h ↦ by cases h; rfl) (.inl rfl) hvalid
      (by rw [ht]; dsimp only [Thread.steps]; omega)
  next reg i ht =>
    rw [ht] at hvalid
    have hreg := h.reg t reg i ht
    split at hstep
    next =>
      cases hstep
      exact h.goto (by rw [ht]; rfl) (by rw [ht, hreg]; dsimp only [Thread.added]; omega)
        (fun _ h ↦ nomatch h) (.inr (by rw [ht]; rfl)) hvalid
        (by rw [ht]; dsimp only [Thread.steps]; omega)
    next => exact nomatch hstep
  next i ht =>
    rw [ht] at hvalid
    have hvalid : 0 ≤ i ∧ i < niters.1 := hvalid
    cases hstep
    exact h.goto (by rw [ht]; dsimp only [Thread.inside]; omega) (by rw [ht]; rfl)
      (fun _ h ↦ nomatch h) (.inl rfl) ⟨by omega, le_max_of_le_left (by omega)⟩
      (by rw [ht]; dsimp only [Thread.steps]; omega)
  next => exact nomatch hstep

/-! ### The program -/

theorem inv_of_exec {ts : List Tid}
    (hexec : Machine.exec (step niters) initial (ts.map .turn) = some st) :
    Inv niters ts.length st := by
  induction ts using List.reverseRecOn generalizing st with
  | nil =>
    cases hexec
    exact inv_initial
  | append_singleton ts t ih =>
    rw [List.map_append, List.map_singleton, Machine.exec_concat, Option.bind_eq_some_iff] at hexec
    obtain ⟨st₁, hexec, hstep⟩ := hexec
    rw [List.length_append, List.length_singleton]
    exact (ih hexec).turn hstep

omit [DecidableEq Tid] in
theorem Inv.steps_le (h : Inv niters n st) (t : Tid) :
    (st.thread t).steps ≤ 5 * max niters.1 0 + 1 := by
  have hvalid := h.valid t
  generalize st.thread t = th at hvalid ⊢
  rcases th with ⟨_ | _ | _ | _ | _ | _, i⟩
  all_goals
    dsimp only [Thread.Valid, Thread.steps] at hvalid ⊢
    omega

omit [DecidableEq Tid] in
theorem Inv.added_le (h : Inv niters n st) (t : Tid) : (st.thread t).added ≤ max niters.1 0 := by
  have hvalid := h.valid t
  generalize st.thread t = th at hvalid ⊢
  rcases th with ⟨_ | _ | _ | _ | _ | _, i⟩
  all_goals
    dsimp only [Thread.Valid, Thread.added] at hvalid ⊢
    omega

/-- Only a thread that has ended or one that waits for another one can not go on. -/
theorem Inv.isSome_turn {st : State Bool} (h : Inv niters n st) {t : Bool}
    (hdone : ∀ i, st.thread t ≠ ⟨.done, i⟩)
    (hwait : ∀ i, st.thread t = ⟨.p, i⟩ → st.mutex ≠ 0) : (step niters st (.turn t)).isSome := by
  rw [step]
  split
  next => split <;> rfl
  next i ht => rw [if_neg (hwait i ht), Option.isSome_some]
  next => rfl
  next reg i ht =>
    have hcnt := h.cnt
    rw [Fintype.sum_bool] at hcnt
    have := h.added_le true
    have := h.added_le false
    have := niters.2
    rw [if_pos (by rw [h.reg t reg i ht]; omega), Option.isSome_some]
  next => rfl
  next i ht => exact absurd ht (hdone i)

theorem Inv.done_of_stuck {st : State Bool} (h : Inv niters n st)
    (hstuck : ∀ t, step niters st (.turn t) = none) (t : Bool) :
    ∃ i, st.thread t = ⟨.done, i⟩ := by
  by_contra hdone
  have hgo {u : Bool} (hu : ∀ i, st.thread u ≠ ⟨.done, i⟩)
      (hwait : ∀ i, st.thread u = ⟨.p, i⟩ → st.mutex ≠ 0) : False := by
    have := h.isSome_turn hu hwait
    rw [hstuck u] at this
    exact nomatch this
  rcases Nat.eq_zero_or_pos st.mutex with hzero | hpos
  · -- the one that has the semaphore goes on
    obtain ⟨u, hu⟩ : ∃ u, 0 < (st.thread u).inside := by
      by_contra hnone
      push Not at hnone
      have hmutex := h.mutex
      rw [Fintype.sum_bool] at hmutex
      have := hnone true
      have := hnone false
      omega
    refine hgo (u := u) (fun i hu' ↦ ?_) fun i hu' ↦ ?_
    · rw [hu'] at hu
      exact lt_irrefl 0 hu
    · rw [hu'] at hu
      exact absurd hu (lt_irrefl 0)
  · exact hgo (fun i hi ↦ hdone ⟨i, hi⟩) fun _ _ ↦ hpos.ne'

/-- **The run ends, and no update is lost**: each turn is one of `5 * niters + 1` of its thread, and
when no thread can go on both have ended and `cnt` is right. It is not what `main` expects if
`niters` is negative. -/
theorem report_of_exec {ts : List Bool} {st : State Bool}
    (hexec : Machine.exec (step niters) initial (ts.map .turn) = some st) :
    ts.length ≤ 2 * (5 * max niters.1 0 + 1) ∧ ((∀ t, step niters st (.turn t) = none) →
      (∀ t, ∃ i, st.thread t = ⟨.done, i⟩) ∧ report niters st.cnt =
        if 0 ≤ niters.1 then "OK cnt=" ++ toString (2 * niters.1) ++ "\n"
        else "BOOM! cnt=0\n") := by
  have h := inv_of_exec hexec
  refine ⟨?_, fun hstuck ↦ ⟨h.done_of_stuck hstuck, ?_⟩⟩
  · have hsteps := h.steps
    rw [Fintype.sum_bool] at hsteps
    have := h.steps_le true
    have := h.steps_le false
    omega
  · have hadded (t : Bool) : (st.thread t).added = max niters.1 0 := by
      obtain ⟨i, hi⟩ := h.done_of_stuck hstuck t
      have hvalid := h.valid t
      rw [hi] at hvalid ⊢
      exact hvalid
    have hcnt : st.cnt = 2 * max niters.1 0 := by
      rw [h.cnt, Fintype.sum_bool, hadded, hadded, Int.two_mul]
    rw [report, hcnt]
    split
    next hne =>
      rw [if_neg fun hle ↦ hne (by rw [max_eq_left hle])]
      rw [max_eq_right (by omega)]
      rfl
    next heq =>
      rw [if_pos (by omega), max_eq_left (by omega)]

theorem report_of_exec_one : ∃ st, Machine.exec (step 1) initial
      ([true, false, false, false, false, false, true, true, true, false, true, true].map .turn) =
        some st ∧ report 1 st.cnt = "OK cnt=2\n" := by
  have hexec : Machine.exec (step 1) initial
      ([true, false, false, false, false, false, true, true, true, false, true, true].map .turn) =
        some _ := rfl
  exact ⟨_, hexec, ((report_of_exec hexec).2 (Bool.forall_bool.2 ⟨rfl, rfl⟩)).2⟩

end GoodCnt
