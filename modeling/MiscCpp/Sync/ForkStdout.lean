import Mathlib.Algebra.BigOperators.Group.List.Basic
import Mathlib.Algebra.Order.Ring.Nat
import Mathlib.Tactic.Common
import Mathlib.Tactic.Ring
import MiscCpp.Library.Machine

/-!
# Processes with a copy of the output buffer

`main` forks in each turn of its loop and then writes `#` and the result of `fork` to `std::cout`. A
child starts with a copy of what is in the buffer of its parent, and the buffer gets written when
the process ends, after two calls of `wait`. With the flush that is commented out nothing stays in
the buffer.

The comment of the program says how many marks are printed: 8, or 6 with the flush. Here this is
proved for any number of turns and in whatever way the processes are scheduled (`out_of_exec`): each
step uses up one of a number of steps that is known from the start (`Pc.steps`), what a process will
still print is known too (`Proc.marks`), and there is a step as long as a process has not ended.
-/

namespace ForkStdout

/-- Where a process is; `pid` is what `fork` has returned, and `wait n` has `n` calls before it. -/
inductive Pc where
  | fork (i : ℕ)
  | print (i pid : ℕ)
  | wait (n : ℕ)
  | zombie
  | reaped
  deriving DecidableEq

/-- A process with its parent and the marks in its buffer. -/
structure Proc where
  parent : Option ℕ
  pc : Pc
  buffer : List ℕ
  deriving DecidableEq

/-- The processes in the order of their creation, and what has been printed. -/
structure State where
  procs : List Proc
  out : List ℕ

/-- A process takes a step, where `pid` is the number of the child if it forks one, or it waits for
the child that is given. -/
inductive Event where
  | turn (k pid : ℕ)
  | reap (k child : ℕ)

/-- Write a process. -/
def State.set (st : State) (k : ℕ) (p : Proc) : State := { st with procs := st.procs.set k p }

/-- A mark goes to the buffer, which `flush` empties. -/
def print (flush : Bool) (st : State) (k : ℕ) (p : Proc) (i pid : ℕ) : State :=
  if flush then
    { st.set k ⟨p.parent, .fork (i + 1), []⟩ with out := st.out ++ (p.buffer ++ [pid]) }
  else st.set k ⟨p.parent, .fork (i + 1), p.buffer ++ [pid]⟩

/-- The program with `rounds` for its `2`. `wait` fails at once if there is no child. -/
def step (rounds : ℕ) (flush : Bool) (st : State) : Event → Option State
  | .turn k pid =>
    st.procs[k]?.bind fun p ↦
      match p.pc with
      | .fork i =>
        if i < rounds then
          some { st with procs := st.procs.set k ⟨p.parent, .print i pid, p.buffer⟩ ++
            [⟨some k, .print i 0, p.buffer⟩] }
        else some (st.set k ⟨p.parent, .wait 2, p.buffer⟩)
      | .print i pid => some (print flush st k p i pid)
      | .wait 0 => some { st.set k ⟨p.parent, .zombie, []⟩ with out := st.out ++ p.buffer }
      | .wait (n + 1) =>
        if ∀ c ∈ st.procs, c.parent = some k → c.pc = .reaped then
          some (st.set k ⟨p.parent, .wait n, p.buffer⟩)
        else none
      | _ => none
  | .reap k child =>
    st.procs[k]?.bind fun p ↦ st.procs[child]?.bind fun c ↦
      match p.pc with
      | .wait (n + 1) =>
        if c.parent = some k ∧ c.pc = .zombie then
          some ((st.set k ⟨p.parent, .wait n, p.buffer⟩).set child ⟨c.parent, .reaped, []⟩)
        else none
      | _ => none

/-- One process, with nothing in its buffer. -/
def initial : State := ⟨[⟨none, .fork 0, []⟩], []⟩

/-! ### What is still to come -/

/-- The marks of a process and its children, with `r` turns to go and `b` marks in the buffer. -/
def marks (flush : Bool) : ℕ → ℕ → ℕ
  | 0, b => b
  | r + 1, b => 2 * if flush then b + 1 + marks flush r 0 else marks flush r (b + 1)

/-- The steps of a process and its children: two for each turn, and the waits and the end. -/
def steps : ℕ → ℕ
  | 0 => 4
  | r + 1 => 1 + 2 * (1 + steps r)

variable (rounds : ℕ) (flush : Bool)

/-- The marks that a process and its descendants are still going to put out. -/
def Proc.marks (p : Proc) : ℕ :=
  match p.pc with
  | .fork i => ForkStdout.marks flush (rounds - i) p.buffer.length
  | .print i _ =>
    if flush then p.buffer.length + 1 + ForkStdout.marks flush (rounds - (i + 1)) 0
    else ForkStdout.marks flush (rounds - (i + 1)) (p.buffer.length + 1)
  | .wait _ => p.buffer.length
  | _ => 0

/-- The steps that are left to a process and its descendants. -/
def Proc.steps (p : Proc) : ℕ :=
  match p.pc with
  | .fork i => ForkStdout.steps (rounds - i)
  | .print i _ => 1 + ForkStdout.steps (rounds - (i + 1))
  | .wait n => n + 1
  | _ => 0

/-- What has been printed and what is to come, after `n` steps. -/
structure Inv (n : ℕ) (st : State) : Prop where
  marks : st.out.length + (st.procs.map (Proc.marks rounds flush)).sum =
    ForkStdout.marks flush rounds 0
  steps : n + (st.procs.map (Proc.steps rounds)).sum = ForkStdout.steps rounds
  parent : ∀ (c : ℕ) (p : Proc), st.procs[c]? = some p → ∀ k, p.parent = some k → k < c

theorem marks_false (r b : ℕ) : marks false r b = (b + r) * 2 ^ r := by
  induction r generalizing b with
  | zero => simp [marks]
  | succ r ih =>
    rw [marks, if_neg Bool.false_ne_true, ih]
    ring

theorem marks_true (r : ℕ) : marks true r 0 = 2 ^ (r + 1) - 2 := by
  induction r with
  | zero => rfl
  | succ r ih =>
    have hpos : 2 ≤ 2 ^ (r + 1) := Nat.le_self_pow (Nat.succ_ne_zero r) 2
    rw [marks, if_pos rfl, ih, Nat.pow_succ 2 (r + 1)]
    omega

/-- One process in place of another one. -/
theorem sum_set (f : Proc → ℕ) {procs : List Proc} {k : ℕ} {p : Proc} (h : procs[k]? = some p)
    (q : Proc) : ((procs.set k q).map f).sum + f p = (procs.map f).sum + f q := by
  induction procs generalizing k with
  | nil => exact nomatch h
  | cons x xs ih =>
    rcases k with - | k
    · cases h
      rw [List.set_cons_zero, List.map_cons, List.map_cons, List.sum_cons, List.sum_cons]
      ring
    · rw [List.set_cons_succ, List.map_cons, List.map_cons, List.sum_cons, List.sum_cons]
      have := ih h
      omega

variable {rounds flush} {n k : ℕ} {st st' : State} {p : Proc} {pc : Pc} {buffer : List ℕ}

theorem inv_initial : Inv rounds flush 0 initial := by
  refine ⟨?_, ?_, fun c p hc k hk ↦ ?_⟩
  · show 0 + (ForkStdout.marks flush rounds 0 + 0) = _
    omega
  · show 0 + (ForkStdout.steps rounds + 0) = _
    omega
  · rcases c with - | c
    · cases hc
      exact nomatch hk
    · exact nomatch hc

theorem Inv.parent_set (h : Inv rounds flush n st) (hk : st.procs[k]? = some p) (c : ℕ) (q : Proc)
    (hc : (st.procs.set k ⟨p.parent, pc, buffer⟩)[c]? = some q) (j : ℕ) (hj : q.parent = some j) :
    j < c := by
  rcases eq_or_ne k c with rfl | hne
  · rw [List.getElem?_set_self (List.getElem?_eq_some_iff.1 hk).1] at hc
    cases hc
    exact h.parent k p hk j hj
  · rw [List.getElem?_set_ne hne] at hc
    exact h.parent c q hc j hj

/-- One process alone goes on. -/
theorem Inv.set (h : Inv rounds flush n st) (hk : st.procs[k]? = some p) {out : List ℕ} {d : ℕ}
    (hmarks : out.length + Proc.marks rounds flush ⟨p.parent, pc, buffer⟩ =
      st.out.length + p.marks rounds flush)
    (hsteps : Proc.steps rounds ⟨p.parent, pc, buffer⟩ + d = p.steps rounds) :
    Inv rounds flush (n + d) { st.set k ⟨p.parent, pc, buffer⟩ with out := out } := by
  refine ⟨?_, ?_, h.parent_set hk⟩
  · have hsum := sum_set (Proc.marks rounds flush) hk ⟨p.parent, pc, buffer⟩
    have := h.marks
    dsimp only [State.set]
    omega
  · have hsum := sum_set (Proc.steps rounds) hk ⟨p.parent, pc, buffer⟩
    have := h.steps
    dsimp only [State.set]
    omega

/-- A child has the same marks and steps before it as its parent has. -/
theorem Inv.fork (h : Inv rounds flush n st) (hk : st.procs[k]? = some p) {i : ℕ}
    (hpc : p.pc = .fork i) (hi : i < rounds) (pid : ℕ) :
    Inv rounds flush (n + 1) { st with
      procs := st.procs.set k ⟨p.parent, .print i pid, p.buffer⟩ ++
        [⟨some k, .print i 0, p.buffer⟩] } := by
  obtain ⟨r, hr⟩ : ∃ r, rounds - i = r + 1 := ⟨rounds - (i + 1), by omega⟩
  have hr' : rounds - (i + 1) = r := by omega
  refine ⟨?_, ?_, fun c q hc j hj ↦ ?_⟩
  · have hsum := sum_set (Proc.marks rounds flush) hk ⟨p.parent, .print i pid, p.buffer⟩
    have hp : p.marks rounds flush =
        2 * Proc.marks rounds flush ⟨p.parent, .print i pid, p.buffer⟩ := by
      rw [Proc.marks, Proc.marks, hpc]
      dsimp only
      rw [hr, hr', ForkStdout.marks]
    have hchild : Proc.marks rounds flush ⟨some k, .print i 0, p.buffer⟩ =
        Proc.marks rounds flush ⟨p.parent, .print i pid, p.buffer⟩ := rfl
    have := h.marks
    rw [List.map_append, List.sum_append, List.map_singleton, List.sum_singleton, hchild]
    dsimp only
    omega
  · have hsum := sum_set (Proc.steps rounds) hk ⟨p.parent, .print i pid, p.buffer⟩
    have hp : p.steps rounds =
        1 + 2 * Proc.steps rounds ⟨p.parent, .print i pid, p.buffer⟩ := by
      rw [Proc.steps, Proc.steps, hpc]
      dsimp only
      rw [hr, hr', ForkStdout.steps]
    have hchild : Proc.steps rounds ⟨some k, .print i 0, p.buffer⟩ =
        Proc.steps rounds ⟨p.parent, .print i pid, p.buffer⟩ := rfl
    have := h.steps
    rw [List.map_append, List.sum_append, List.map_singleton, List.sum_singleton, hchild]
    omega
  · rw [List.getElem?_append] at hc
    split at hc
    next => exact h.parent_set hk c q hc j hj
    next hc' =>
      have hlt := (List.getElem?_eq_some_iff.1 hk).1
      rw [List.length_set] at hc'
      obtain rfl := List.mem_singleton.1 (List.mem_of_getElem? hc)
      cases hj
      omega

theorem Inv.step {e : Event} (h : Inv rounds flush n st)
    (hstep : step rounds flush st e = some st') :
    Inv rounds flush (n + 1) st' := by
  rcases e with ⟨k, pid⟩ | ⟨k, child⟩
  · rw [ForkStdout.step, Option.bind_eq_some_iff] at hstep
    obtain ⟨p, hk, hstep⟩ := hstep
    split at hstep
    next i hpc =>
      split at hstep
      next hi =>
        cases hstep
        exact h.fork hk hpc hi pid
      next hi =>
        cases hstep
        have hzero : rounds - i = 0 := by omega
        refine h.set hk ?_ ?_
        · rw [Proc.marks, Proc.marks, hpc]
          dsimp only
          rw [hzero, ForkStdout.marks]
        · rw [Proc.steps, Proc.steps, hpc]
          dsimp only
          rw [hzero, ForkStdout.steps]
    next i pid hpc =>
      cases hstep
      have hsteps : Proc.steps rounds ⟨p.parent, .fork (i + 1), []⟩ + 1 = p.steps rounds := by
        rw [Proc.steps, Proc.steps, hpc]
        dsimp only
        omega
      rw [print]
      split
      next hflush =>
        refine h.set hk ?_ hsteps
        rw [Proc.marks, Proc.marks, hpc, List.length_append, List.length_append,
          List.length_singleton]
        dsimp only
        rw [if_pos hflush, List.length_nil]
        omega
      next hflush =>
        refine h.set hk ?_ hsteps
        rw [Proc.marks, Proc.marks, hpc]
        dsimp only
        rw [if_neg hflush, List.length_append, List.length_singleton]
    next hpc =>
      cases hstep
      refine h.set hk ?_ ?_
      · rw [Proc.marks, Proc.marks, hpc, List.length_append, Nat.add_zero]
      · rw [Proc.steps, Proc.steps, hpc]
    next m hpc =>
      split at hstep
      next =>
        cases hstep
        refine h.set hk ?_ ?_
        · rw [Proc.marks, Proc.marks, hpc]
        · rw [Proc.steps, Proc.steps, hpc]
      next => exact nomatch hstep
    next => exact nomatch hstep
  · rw [ForkStdout.step, Option.bind_eq_some_iff] at hstep
    obtain ⟨p, hk, hstep⟩ := hstep
    obtain ⟨c, hchild, hstep⟩ := Option.bind_eq_some_iff.1 hstep
    split at hstep
    next m hpc =>
      split at hstep
      next hc =>
        cases hstep
        have hne : k ≠ child := by
          rintro rfl
          cases hk.symm.trans hchild
          exact nomatch hpc.symm.trans hc.2
        have hset : Inv rounds flush (n + 1)
            { st.set k ⟨p.parent, .wait m, p.buffer⟩ with out := st.out } := by
          refine h.set hk ?_ ?_
          · rw [Proc.marks, Proc.marks, hpc]
          · rw [Proc.steps, Proc.steps, hpc]
        have hchild' : (st.procs.set k ⟨p.parent, .wait m, p.buffer⟩)[child]? = some c := by
          rw [List.getElem?_set_ne hne, hchild]
        refine hset.set (d := 0) hchild' ?_ ?_
        · rw [Proc.marks, Proc.marks, hc.2]
          rfl
        · rw [Proc.steps, Proc.steps, hc.2]
      next => exact nomatch hstep
    next => exact nomatch hstep

theorem inv_of_exec {es : List Event}
    (hexec : Machine.exec (step rounds flush) initial es = some st) :
    Inv rounds flush es.length st := by
  induction es using List.reverseRecOn generalizing st with
  | nil =>
    cases hexec
    exact inv_initial
  | append_singleton es e ih =>
    rw [Machine.exec_concat, Option.bind_eq_some_iff] at hexec
    obtain ⟨st₁, hexec, hstep⟩ := hexec
    rw [List.length_append, List.length_singleton]
    exact (ih hexec).step hstep

/-! ### The end -/

/-- **Nobody waits for ever**: of the processes that have not ended the last one can go on, since
its children have ended. -/
theorem Inv.ended_of_stuck (h : Inv rounds flush n st)
    (hstuck : ∀ e, ForkStdout.step rounds flush st e = none)
    (hk : st.procs[k]? = some p) : p.pc = .zombie ∨ p.pc = .reaped := by
  induction hm : st.procs.length - k using Nat.strong_induction_on generalizing k p with
  | _ m ih =>
  have hlt := (List.getElem?_eq_some_iff.1 hk).1
  have hturn := hstuck (.turn k 0)
  rw [ForkStdout.step, hk, Option.bind_some] at hturn
  rcases hpc : p.pc with i | ⟨i, pid⟩ | m | - | -
  · rw [hpc] at hturn
    dsimp only at hturn
    split at hturn <;> exact nomatch hturn
  · rw [hpc] at hturn
    exact nomatch hturn
  · rcases m with - | m
    · rw [hpc] at hturn
      exact nomatch hturn
    · rw [hpc] at hturn
      dsimp only at hturn
      split at hturn
      next => exact nomatch hturn
      next hchildren =>
        push Not at hchildren
        obtain ⟨c, hc, hparent, hrunning⟩ := hchildren
        obtain ⟨j, hj⟩ := List.mem_iff_getElem?.1 hc
        have hkj := h.parent j c hj k hparent
        have hjlt := (List.getElem?_eq_some_iff.1 hj).1
        have hzombie := (ih _ (by omega) hj rfl).resolve_right hrunning
        have hreap := hstuck (.reap k j)
        rw [ForkStdout.step, hk, Option.bind_some, hj, Option.bind_some, hpc] at hreap
        dsimp only at hreap
        rw [if_pos ⟨hparent, hzombie⟩] at hreap
        exact nomatch hreap
  · exact .inl rfl
  · exact .inr rfl

theorem sum_eq_zero {f : Proc → ℕ} {procs : List Proc} (h : ∀ p ∈ procs, f p = 0) :
    (procs.map f).sum = 0 :=
  List.sum_eq_zero fun v hv ↦ by
    obtain ⟨p, hp, rfl⟩ := List.mem_map.1 hv
    exact h p hp

/-- **What is printed**: all runs have the same length, and when no process can go on all have ended
and there are `rounds * 2 ^ rounds` marks, or `2 ^ (rounds + 1) - 2` with the flush. -/
theorem out_of_exec {es : List Event}
    (hexec : Machine.exec (step rounds flush) initial es = some st) :
    es.length ≤ steps rounds ∧ ((∀ e, step rounds flush st e = none) →
      (∀ p ∈ st.procs, p.pc = .zombie ∨ p.pc = .reaped) ∧ es.length = steps rounds ∧
      st.out.length = if flush then 2 ^ (rounds + 1) - 2 else rounds * 2 ^ rounds) := by
  have h := inv_of_exec hexec
  refine ⟨Nat.le.intro h.steps, fun hstuck ↦ ?_⟩
  have hended (p : Proc) (hp : p ∈ st.procs) : p.pc = .zombie ∨ p.pc = .reaped := by
    obtain ⟨k, hk⟩ := List.mem_iff_getElem?.1 hp
    exact h.ended_of_stuck hstuck hk
  have hmarks := h.marks
  rw [sum_eq_zero fun p hp ↦ by rcases hended p hp with hpc | hpc <;> rw [Proc.marks, hpc],
    Nat.add_zero] at hmarks
  have hsteps := h.steps
  rw [sum_eq_zero fun p hp ↦ by rcases hended p hp with hpc | hpc <;> rw [Proc.steps, hpc],
    Nat.add_zero] at hsteps
  refine ⟨hended, hsteps, ?_⟩
  rw [hmarks]
  split
  next hflush => rw [hflush, marks_true]
  next hflush => rw [eq_false_of_ne_true hflush, marks_false, Nat.zero_add]

theorem step_eq_none (hended : ∀ p ∈ st.procs, p.pc = .zombie ∨ p.pc = .reaped) (e : Event) :
    step rounds flush st e = none := by
  rcases e with ⟨k, pid⟩ | ⟨k, child⟩
  · rw [step]
    rcases hk : st.procs[k]? with - | p
    · rfl
    · rcases hended p (List.mem_of_getElem? hk) with hpc | hpc <;> rw [Option.bind_some, hpc]
  · rw [step]
    rcases hk : st.procs[k]? with - | p
    · rfl
    · rw [Option.bind_some]
      rcases st.procs[child]? with - | c
      · rfl
      · rcases hended p (List.mem_of_getElem? hk) with hpc | hpc <;> rw [Option.bind_some, hpc]

/-- A run of the program as it is: the child of the first child ends first. -/
def mainRun : List Event :=
  [.turn 0 100, .turn 0 0, .turn 1 0, .turn 1 101, .turn 0 102, .turn 0 0, .turn 1 0, .turn 2 0,
    .turn 3 0, .turn 2 0, .turn 2 0, .turn 2 0, .turn 2 0, .turn 1 0, .reap 1 2, .turn 1 0,
    .turn 1 0, .turn 3 0, .turn 3 0, .turn 3 0, .turn 3 0, .turn 0 0, .reap 0 3, .reap 0 1,
    .turn 0 0]

theorem out_of_exec_main : ∃ st, Machine.exec (step 2 false) initial mainRun = some st ∧
    st.out = [0, 0, 0, 101, 100, 0, 100, 102] ∧ st.out.length = 2 * 2 ^ 2 := by
  have hexec : Machine.exec (step 2 false) initial mainRun = some _ := rfl
  exact ⟨_, hexec, by decide, ((out_of_exec hexec).2 (step_eq_none (by decide))).2.2⟩

end ForkStdout
