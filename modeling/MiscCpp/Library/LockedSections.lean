import Mathlib.Algebra.BigOperators.Group.Finset.Basic
import Mathlib.Algebra.Order.BigOperators.Group.Finset
import Mathlib.Algebra.Order.Ring.Int
import Mathlib.Data.Fintype.BigOperators
import Mathlib.Data.Set.Function
import Mathlib.Logic.Function.Basic
import MiscCpp.Library.Machine

/-!
# Sections under locks

Threads run sections of loads and stores on shared variables, each behind the locks of all the
variables that it touches. A lock is taken and given back one at a time and in any order, as
long as the thread is not in a section: this covers a semaphore, a `lock_guard` and the unspecified
tries of `std::lock`.

The steps of different sections interleave. In each run **a section is atomic at its end**: with
`base` for the memory after the sections that have ended, one after another, the memory of a section
that is going on is what it has made of `base` so far, and all other memory is `base`
(`Inv`). So when no section is going on, the memory is that of a serial run (`serial_of_exec`).
-/

open Function

namespace LockedSections

variable {Tid Var Val Reg ι : Type*}

/-- A load to the registers of the thread, or a store from them, which may be undefined. -/
inductive Op (Var Val Reg : Type*) where
  | load (x : Var) (f : Reg → Val → Reg)
  | store (x : Var) (g : Reg → Option Val)

/-- The variable that an operation accesses. -/
def Op.var : Op Var Val Reg → Var
  | load x _ | store x _ => x

/-- A section with its locks, which has those of all its variables. -/
structure Section (Var Val Reg : Type*) where
  locks : List Var
  regs : Reg
  ops : List (Op Var Val Reg)
  var_mem : ∀ op ∈ ops, op.var ∈ locks

section Ops

variable [DecidableEq Var]

/-- An operation on the registers of the thread and the memory. -/
def Op.run : Op Var Val Reg → Reg → (Var → Val) → Option (Reg × (Var → Val))
  | load x f, r, m => some (f r (m x), m)
  | store x g, r, m => (g r).map fun v ↦ (r, update m x v)

/-- The operations of a section, one after another, as long as they are defined. -/
def runOps : List (Op Var Val Reg) → Reg → (Var → Val) → Option (Reg × (Var → Val))
  | [], r, m => some (r, m)
  | op :: ops, r, m => (op.run r m).bind fun (r, m) ↦ runOps ops r m

/-- All of a section at once. -/
def Section.run (s : Section Var Val Reg) (m : Var → Val) : Option (Var → Val) :=
  (runOps s.ops s.regs m).map Prod.snd

/-- Sections one after another. -/
def serial (code : ι → Section Var Val Reg) : List (Tid × ι) → (Var → Val) → Option (Var → Val)
  | [], m => some m
  | (_, i) :: log, m => ((code i).run m).bind (serial code log)

variable {ops ops' : List (Op Var Val Reg)} {op : Op Var Val Reg} {r r' : Reg} {m m' n : Var → Val}
  {locks : List Var}

theorem runOps_append :
    runOps (ops ++ ops') r m = (runOps ops r m).bind fun (r, m) ↦ runOps ops' r m := by
  induction ops generalizing r m with
  | nil => rfl
  | cons op ops ih =>
    rw [List.cons_append, runOps, runOps]
    rcases op.run r m with - | ⟨r', m'⟩
    · rfl
    · exact ih

theorem runOps_concat :
    runOps (ops ++ [op]) r m = (runOps ops r m).bind fun (r, m) ↦ op.run r m := by
  rw [runOps_append]
  refine congrArg _ (funext fun p ↦ ?_)
  exact Option.bind_fun_some _

theorem serial_concat {code : ι → Section Var Val Reg} {log : List (Tid × ι)} {t : Tid} {i : ι} :
    serial code (log ++ [(t, i)]) m = (serial code log m).bind (code i).run := by
  induction log generalizing m with
  | nil =>
    show ((code i).run m).bind some = (code i).run m
    exact Option.bind_fun_some _
  | cons p log ih =>
    rw [List.cons_append, serial, serial]
    rcases (code p.2).run m with - | m'
    · rfl
    · exact ih

/-- An operation only sees and only changes its variable. -/
theorem Op.run_congr (h : op.run r m = some (r', m')) (heq : n op.var = m op.var) :
    ∃ n', op.run r n = some (r', n') ∧ n' op.var = m' op.var ∧
      ∀ x ≠ op.var, n' x = n x ∧ m' x = m x := by
  rcases op with ⟨x, f⟩ | ⟨x, g⟩
  · cases h
    refine ⟨n, ?_, heq, fun _ _ ↦ ⟨rfl, rfl⟩⟩
    rw [Op.run, show n x = m x from heq]
  · rw [Op.run, Option.map_eq_some_iff] at h
    obtain ⟨v, hv, h⟩ := h
    cases h
    refine ⟨update n x v, by rw [Op.run, hv, Option.map_some], ?_, fun y hy ↦ ⟨?_, ?_⟩⟩
    · rw [Op.var, update_self, update_self]
    · exact update_of_ne hy _ _
    · exact update_of_ne hy _ _

/-- Operations only see what is under their locks, and nothing else is changed. -/
theorem runOps_congr (hops : ∀ op ∈ ops, op.var ∈ locks) (h : runOps ops r m = some (r', m'))
    (heq : ∀ x ∈ locks, n x = m x) :
    ∃ n', runOps ops r n = some (r', n') ∧ (∀ x ∈ locks, n' x = m' x) ∧
      ∀ x ∉ locks, n' x = n x ∧ m' x = m x := by
  induction ops generalizing r m n with
  | nil =>
    cases h
    exact ⟨n, rfl, heq, fun _ _ ↦ ⟨rfl, rfl⟩⟩
  | cons op ops ih =>
    rw [runOps, Option.bind_eq_some_iff] at h
    obtain ⟨⟨r₁, m₁⟩, hop, h⟩ := h
    have hvar := hops op List.mem_cons_self
    obtain ⟨n₁, hop', hsame, hother⟩ := Op.run_congr hop (heq op.var hvar)
    obtain ⟨n', hrun, hlocks, hframe⟩ := ih (fun op hop ↦ hops op (List.mem_cons_of_mem _ hop)) h
      (n := n₁) fun x hx ↦ by
        rcases eq_or_ne x op.var with rfl | hne
        · exact hsame
        · rw [(hother x hne).1, (hother x hne).2, heq x hx]
    refine ⟨n', by rw [runOps, hop', Option.bind_some]; exact hrun, hlocks, fun x hx ↦ ?_⟩
    have hne : x ≠ op.var := fun heq ↦ hx (heq ▸ hvar)
    exact ⟨(hframe x hx).1.trans (hother x hne).1, (hframe x hx).2.trans (hother x hne).2⟩

end Ops

/-! ### Threads -/

/-- The shared memory and its locks, the sections that are to be done by each thread, and what is
left of the first one of those if the thread is in it. `log` has the sections that have ended. -/
structure State (Tid Var Val Reg ι : Type*) where
  mem : Var → Val
  held : Var → Option Tid
  todo : Tid → List ι
  inside : Tid → Option (Reg × List (Op Var Val Reg))
  log : List (Tid × ι)

/-- What a thread can do next. -/
inductive Action (Tid Var : Type*) where
  | acquire (t : Tid) (x : Var)
  | release (t : Tid) (x : Var)
  | enter (t : Tid)
  | op (t : Tid)
  | leave (t : Tid)

variable [DecidableEq Tid] [DecidableEq Var] (code : ι → Section Var Val Reg)

/-- The locks of the next section. -/
def State.wanted (st : State Tid Var Val Reg ι) (t : Tid) : List Var :=
  match st.todo t with
  | [] => []
  | i :: _ => (code i).locks

/-- A thread takes the locks of its next section and gives back locks outside its sections. -/
def step (st : State Tid Var Val Reg ι) : Action Tid Var → Option (State Tid Var Val Reg ι)
  | .acquire t x =>
    if st.held x = none ∧ (st.inside t).isNone ∧ x ∈ st.wanted code t then
      some { st with held := update st.held x (some t) }
    else none
  | .release t x =>
    if st.held x = some t ∧ (st.inside t).isNone then
      some { st with held := update st.held x none }
    else none
  | .enter t =>
    match st.inside t, st.todo t with
    | none, i :: _ =>
      if ∀ x ∈ (code i).locks, st.held x = some t then
        some { st with inside := update st.inside t (some ((code i).regs, (code i).ops)) }
      else none
    | _, _ => none
  | .op t =>
    match st.inside t with
    | some (r, op :: ops) =>
      (op.run r st.mem).map fun (r, m) ↦
        { st with mem := m, inside := update st.inside t (some (r, ops)) }
    | _ => none
  | .leave t =>
    match st.inside t, st.todo t with
    | some (_, []), i :: todo =>
      some { st with
        todo := update st.todo t todo
        inside := update st.inside t none
        log := st.log ++ [(t, i)] }
    | _, _ => none

/-- Nothing has been done. -/
def initial (mem : Var → Val) (todo : Tid → List ι) :
    State Tid Var Val Reg ι := ⟨mem, fun _ ↦ none, todo, fun _ ↦ none, []⟩

/-- What is under the locks of a section that is going on. -/
def Covered (st : State Tid Var Val Reg ι) (x : Var) : Prop :=
  ∃ t i todo, (st.inside t).isSome ∧ st.todo t = i :: todo ∧ x ∈ (code i).locks

/-- **The memory** is `base`, but for what the sections that are going on have made of it. -/
structure Inv (init base : Var → Val) (st : State Tid Var Val Reg ι) : Prop where
  serial : serial code st.log init = some base
  inside : ∀ t r ops, st.inside t = some (r, ops) → ∃ i todo pre n, st.todo t = i :: todo ∧
    (code i).ops = pre ++ ops ∧ (∀ x ∈ (code i).locks, st.held x = some t) ∧
    runOps pre (code i).regs base = some (r, n) ∧ ∀ x ∈ (code i).locks, st.mem x = n x
  outside : ∀ x, ¬ Covered code st x → st.mem x = base x

/-- The sections of a thread that are done and those that are to be done. -/
def Complete (todo : Tid → List ι) (st : State Tid Var Val Reg ι) : Prop :=
  ∀ t, (st.log.filter (·.1 = t)).map Prod.snd ++ st.todo t = todo t

variable {code} {init base : Var → Val} {st st' : State Tid Var Val Reg ι}
  {todo : Tid → List ι}

omit [DecidableEq Tid] in
/-- At the start no section is going on, and nothing has been done. -/
theorem inv_initial (mem : Var → Val) (todo : Tid → List ι) :
    Inv code mem mem (initial mem todo) :=
  ⟨rfl, fun _ _ _ h ↦ (nomatch h), fun _ _ ↦ rfl⟩

omit [DecidableEq Tid] in
/-- Two sections that are going on have no lock in common. -/
theorem Inv.eq_of_lock (h : Inv code init base st) {t u : Tid} {p q : Reg × List (Op Var Val Reg)}
    (ht : st.inside t = some p) (hu : st.inside u = some q) {i j : ι}
    {rest rest' : List ι} (hs : st.todo t = i :: rest)
    (hs' : st.todo u = j :: rest') {x : Var} (hx : x ∈ (code i).locks)
    (hx' : x ∈ (code j).locks) : t = u := by
  obtain ⟨i₁, _, _, _, htodo, _, hheld, _⟩ := h.inside t p.1 p.2 ht
  obtain ⟨i₂, _, _, _, htodo', _, hheld', _⟩ := h.inside u q.1 q.2 hu
  cases hs.symm.trans htodo
  cases hs'.symm.trans htodo'
  exact Option.some.inj ((hheld x hx).symm.trans (hheld' x hx'))

omit [DecidableEq Tid] in
/-- A lock that is taken changes no memory. -/
theorem Inv.acquire (h : Inv code init base st) {t : Tid} {x : Var} (hx : st.held x = none) :
    Inv code init base { st with held := update st.held x (some t) } := by
  refine ⟨h.serial, fun u r ops hu ↦ ?_, h.outside⟩
  obtain ⟨i, rest, pre, n, htodo, hops, hheld, hrun, hmem⟩ := h.inside u r ops hu
  refine ⟨i, rest, pre, n, htodo, hops, fun y hy ↦ ?_, hrun, hmem⟩
  dsimp only
  rw [update_of_ne, hheld y hy]
  rintro rfl
  exact nomatch (hheld y hy).symm.trans hx

omit [DecidableEq Tid] in
/-- A lock that is given back outside the sections changes no memory. -/
theorem Inv.release (h : Inv code init base st) {t : Tid} {x : Var} (hx : st.held x = some t)
    (ht : st.inside t = none) : Inv code init base { st with held := update st.held x none } := by
  refine ⟨h.serial, fun u r ops hu ↦ ?_, h.outside⟩
  obtain ⟨i, rest, pre, n, htodo, hops, hheld, hrun, hmem⟩ := h.inside u r ops hu
  refine ⟨i, rest, pre, n, htodo, hops, fun y hy ↦ ?_, hrun, hmem⟩
  dsimp only
  rw [update_of_ne, hheld y hy]
  rintro rfl
  obtain rfl : u = t := Option.some.inj ((hheld y hy).symm.trans hx)
  exact nomatch hu.symm.trans ht

/-- A section starts with `base` under its locks. -/
theorem Inv.enter (h : Inv code init base st) {t : Tid} {i : ι}
    {rest : List ι} (ht : st.inside t = none) (hs : st.todo t = i :: rest)
    (hheld : ∀ x ∈ (code i).locks, st.held x = some t) :
    Inv code init base
      { st with inside := update st.inside t (some ((code i).regs, (code i).ops)) } := by
  refine ⟨h.serial, fun u r ops hu ↦ ?_, fun x hx ↦ h.outside x fun hcovered ↦ hx ?_⟩
  · rcases eq_or_ne u t with rfl | hne
    · dsimp only at hu
      rw [update_self] at hu
      cases hu
      refine ⟨i, rest, [], base, hs, rfl, hheld, rfl, fun x hx ↦ h.outside x ?_⟩
      rintro ⟨u', j, rest', hsome, hs', hx'⟩
      obtain ⟨q, hq⟩ := Option.isSome_iff_exists.1 hsome
      obtain ⟨i₁, _, _, _, htodo, _, hheld', _⟩ := h.inside u' q.1 q.2 hq
      cases hs'.symm.trans htodo
      cases (hheld x hx).symm.trans (hheld' x hx')
      exact nomatch hq.symm.trans ht
    · dsimp only at hu
      rw [update_of_ne hne] at hu
      exact h.inside u r ops hu
  · obtain ⟨u, j, rest', hsome, hs', hx'⟩ := hcovered
    refine ⟨u, j, rest', ?_, hs', hx'⟩
    rcases eq_or_ne u t with rfl | hne
    · rw [ht] at hsome
      exact nomatch hsome
    · dsimp only
      rw [update_of_ne hne]
      exact hsome

/-- An operation goes on with what its section has made of `base`. -/
theorem Inv.op (h : Inv code init base st) {t : Tid} {r r' : Reg} {op : Op Var Val Reg}
    {ops : List (Op Var Val Reg)} {m : Var → Val} (ht : st.inside t = some (r, op :: ops))
    (hop : op.run r st.mem = some (r', m)) :
    Inv code init base { st with mem := m, inside := update st.inside t (some (r', ops)) } := by
  obtain ⟨i, rest, pre, n, hs, hops, hheld, hrun, hmem⟩ := h.inside t r (op :: ops) ht
  have hvar : op.var ∈ (code i).locks :=
    (code i).var_mem op (hops ▸ List.mem_append_right _ List.mem_cons_self)
  obtain ⟨n', hop', hsame, hother⟩ := Op.run_congr hop (hmem op.var hvar).symm
  refine ⟨h.serial, fun u r₁ ops₁ hu ↦ ?_, fun x hx ↦ ?_⟩
  · rcases eq_or_ne u t with rfl | hne
    · dsimp only at hu
      rw [update_self] at hu
      cases hu
      refine ⟨i, rest, pre ++ [op], n', hs, by rw [List.append_assoc]; exact hops, hheld, ?_,
        fun x hx ↦ ?_⟩
      · rw [runOps_concat, hrun, Option.bind_some]
        exact hop'
      · rcases eq_or_ne x op.var with rfl | hne
        · exact hsame.symm
        · dsimp only
          rw [(hother x hne).1, (hother x hne).2, hmem x hx]
    · dsimp only at hu
      rw [update_of_ne hne] at hu
      obtain ⟨j, rest', pre', n₁, hs', hops', hheld', hrun', hmem'⟩ := h.inside u r₁ ops₁ hu
      refine ⟨j, rest', pre', n₁, hs', hops', hheld', hrun', fun x hx ↦ ?_⟩
      rw [← hmem' x hx]
      refine (hother x ?_).2
      rintro rfl
      exact hne (h.eq_of_lock hu ht hs' hs hx hvar)
  · have hcovered : ¬ Covered code st x := by
      rintro ⟨u, j, rest', hsome, hs', hx'⟩
      refine hx ⟨u, j, rest', ?_, hs', hx'⟩
      rcases eq_or_ne u t with rfl | hne
      · dsimp only
        rw [update_self]
        rfl
      · dsimp only
        rw [update_of_ne hne]
        exact hsome
    rw [← h.outside x hcovered]
    refine (hother x ?_).2
    rintro rfl
    exact hcovered ⟨t, i, rest, by rw [ht]; rfl, hs, hvar⟩

/-- **The end of a section**: all of it is done to `base` at once. -/
theorem Inv.leave (h : Inv code init base st) {t : Tid} {r : Reg} {i : ι}
    {rest : List ι} (ht : st.inside t = some (r, []))
    (hs : st.todo t = i :: rest) :
    ∃ base', Inv code init base' { st with
      todo := update st.todo t rest
      inside := update st.inside t none
      log := st.log ++ [(t, i)] } := by
  obtain ⟨i₁, rest₁, pre, n, hs₁, hops, hheld, hrun, hmem⟩ := h.inside t r [] ht
  cases hs.symm.trans hs₁
  rw [List.append_nil] at hops
  subst hops
  obtain ⟨n', hrun', -, hframe⟩ := runOps_congr (code i).var_mem hrun fun _ _ ↦ rfl
  refine ⟨n, ?_, fun u r₁ ops₁ hu ↦ ?_, fun x hx ↦ ?_⟩
  · rw [serial_concat, h.serial, Option.bind_some, Section.run, hrun]
    rfl
  · have hne : u ≠ t := by
      rintro rfl
      dsimp only at hu
      rw [update_self] at hu
      exact nomatch hu
    dsimp only at hu ⊢
    rw [update_of_ne hne] at hu ⊢
    obtain ⟨j, rest', pre', n₁, hs', hops', hheld', hrun₁, hmem'⟩ := h.inside u r₁ ops₁ hu
    -- what the section under way sees of `base` has not changed
    obtain ⟨n₂, hrun₂, hlocks, -⟩ := runOps_congr (n := n)
      (fun op hop ↦ (code j).var_mem op (hops' ▸ List.mem_append_left _ hop)) hrun₁ fun x hx ↦
        (hframe x fun hx' ↦ hne (h.eq_of_lock hu ht hs' hs hx hx')).2
    exact ⟨j, rest', pre', n₂, hs', hops', hheld', hrun₂, fun x hx ↦ (hmem' x hx).trans
      (hlocks x hx).symm⟩
  · rcases em (x ∈ (code i).locks) with hlock | hlock
    · exact hmem x hlock
    · refine (h.outside x ?_).trans (hframe x hlock).2.symm
      rintro ⟨u, j, rest', hsome, hs', hx'⟩
      have hne : u ≠ t := by
        rintro rfl
        cases hs.symm.trans hs'
        exact hlock hx'
      refine hx ⟨u, j, rest', ?_, ?_, hx'⟩
      · dsimp only
        rw [update_of_ne hne]
        exact hsome
      · dsimp only
        rw [update_of_ne hne]
        exact hs'

/-- **A step** keeps the invariant. -/
theorem Inv.step (h : Inv code init base st) {a : Action Tid Var}
    (hstep : step code st a = some st') :
    ∃ base', Inv code init base' st' := by
  rcases a with ⟨t, x⟩ | ⟨t, x⟩ | t | t | t
  · rw [LockedSections.step] at hstep
    split at hstep
    next hc =>
      cases hstep
      exact ⟨base, h.acquire hc.1⟩
    next => exact nomatch hstep
  · rw [LockedSections.step] at hstep
    split at hstep
    next hc =>
      cases hstep
      exact ⟨base, h.release hc.1 (Option.isNone_iff_eq_none.1 hc.2)⟩
    next => exact nomatch hstep
  · rw [LockedSections.step] at hstep
    split at hstep
    next i rest ht hs =>
      split at hstep
      next hheld =>
        cases hstep
        exact ⟨base, h.enter ht hs hheld⟩
      next => exact nomatch hstep
    next => exact nomatch hstep
  · rw [LockedSections.step] at hstep
    split at hstep
    next r op ops ht =>
      obtain ⟨⟨r', m⟩, hop, heq⟩ := Option.map_eq_some_iff.1 hstep
      cases heq
      exact ⟨base, h.op ht hop⟩
    next => exact nomatch hstep
  · rw [LockedSections.step] at hstep
    split at hstep
    next r i rest ht hs =>
      cases hstep
      exact h.leave ht hs
    next => exact nomatch hstep

/-- No section is lost or repeated. -/
theorem Complete.step (h : Complete todo st) {a : Action Tid Var}
    (hstep : step code st a = some st') :
    Complete todo st' := by
  rcases a with ⟨t, x⟩ | ⟨t, x⟩ | t | t | t
  all_goals
    rw [LockedSections.step] at hstep
    split at hstep
  · cases hstep
    exact h
  · exact nomatch hstep
  · cases hstep
    exact h
  · exact nomatch hstep
  · split at hstep
    · cases hstep
      exact h
    · exact nomatch hstep
  · exact nomatch hstep
  · obtain ⟨⟨r', m⟩, -, heq⟩ := Option.map_eq_some_iff.1 hstep
    cases heq
    exact h
  · exact nomatch hstep
  · next r i rest ht hs =>
      cases hstep
      intro u
      dsimp only
      rcases eq_or_ne u t with rfl | hne
      · rw [← h u, update_self, hs, List.filter_append, List.filter_cons_of_pos (by simp),
          List.map_append, List.append_assoc]
        rfl
      · rw [← h u, update_of_ne hne, List.filter_append,
          List.filter_cons_of_neg (by simpa using hne.symm), List.filter_nil, List.append_nil]
  · exact nomatch hstep

/-- **Every run is serial**: the memory outside of the sections that are going on is that of the
sections that have ended, one after another in the order of their ends, each thread's in its own
order. -/
theorem serial_of_exec {mem : Var → Val} {as : List (Action Tid Var)}
    (hexec : Machine.exec (step code) (initial mem todo) as = some st) :
    ∃ base, Inv code mem base st ∧ Complete todo st :=
  Machine.exec_invariant' (I := fun st ↦ ∃ base, Inv code mem base st ∧ Complete todo st)
    (fun _ _ _ ⟨_, hinv, hcomplete⟩ hstep ↦
      (hinv.step hstep).imp fun _ hinv ↦ ⟨hinv, hcomplete.step hstep⟩)
    ⟨mem, inv_initial mem todo, fun _ ↦ rfl⟩ hexec

/-- When no section is going on, the memory is that of a serial run. -/
theorem mem_of_exec {mem : Var → Val} {as : List (Action Tid Var)}
    (hexec : Machine.exec (step code) (initial mem todo) as = some st)
    (hidle : ∀ t, st.inside t = none) :
    serial code st.log mem = some st.mem ∧ Complete todo st := by
  obtain ⟨base, hinv, hcomplete⟩ := serial_of_exec hexec
  have hmem : st.mem = base := funext fun x ↦ hinv.outside x fun ⟨t, _, _, hsome, _, _⟩ ↦ by
    rw [hidle t] at hsome
    exact nomatch hsome
  exact ⟨hmem ▸ hinv.serial, hcomplete⟩

/-- A sum over all that has been done, thread by thread. -/
theorem sum_log [Fintype Tid] {M : Type*} [AddCommMonoid M] (d : ι → M) (log : List (Tid × ι)) :
    (log.map fun p ↦ d p.2).sum =
      ∑ t, (((log.filter (·.1 = t)).map Prod.snd).map d).sum := by
  induction log with
  | nil => exact (Finset.sum_const_zero).symm
  | cons p log ih =>
    have hcons (t : Tid) : ((((p :: log).filter (·.1 = t)).map Prod.snd).map d).sum =
        (if p.1 = t then d p.2 else 0) +
          (((log.filter (·.1 = t)).map Prod.snd).map d).sum := by
      rw [List.filter_cons]
      split
      next h =>
        rw [if_pos (by simpa using h)]
        rfl
      next h => rw [if_neg (by simpa using h), zero_add]
    rw [Finset.sum_congr rfl fun t _ ↦ hcons t, Finset.sum_add_distrib, ← ih, List.map_cons,
      List.sum_cons, Finset.sum_ite_eq, if_pos (Finset.mem_univ _)]

omit [DecidableEq Var] in
/-- When all is done, a sum over the log is the sum over all sections. -/
theorem Complete.sum_log [Fintype Tid] {M : Type*} [AddCommMonoid M] (h : Complete todo st)
    (hdone : ∀ t, st.todo t = []) (d : ι → M) :
    (st.log.map fun p ↦ d p.2).sum = ∑ t, ((todo t).map d).sum := by
  rw [LockedSections.sum_log]
  refine Finset.sum_congr rfl fun t _ ↦ ?_
  rw [← h t, hdone t, List.append_nil]

/-! ### Runs to the end -/

/-- A log that may still become one of all sections. -/
def Legit (todo : Tid → List ι) (log : List (Tid × ι)) : Prop :=
  ∀ t, (log.filter (·.1 = t)).map Prod.snd <+: todo t

omit [DecidableEq Var] in
/-- A log so far has at most the sum of all sections, if no section counts negatively. -/
theorem Legit.sum_le [Fintype Tid] {log : List (Tid × ι)} (h : Legit todo log) {d : ι → ℤ}
    (hd : ∀ i, 0 ≤ d i) : (log.map fun p ↦ d p.2).sum ≤ ∑ t, ((todo t).map d).sum := by
  rw [sum_log]
  refine Finset.sum_le_sum fun t _ ↦ ?_
  obtain ⟨rest, hrest⟩ := h t
  rw [← hrest, List.map_append, List.sum_append]
  refine le_add_of_nonneg_right (List.sum_nonneg fun v hv ↦ ?_)
  obtain ⟨i, -, rfl⟩ := List.mem_map.1 hv
  exact hd i

omit [DecidableEq Var] in
/-- A log with the next section of a thread may still become one of all. -/
theorem Complete.legit_concat (h : Complete todo st) {t : Tid} {i : ι}
    {rest : List ι} (hs : st.todo t = i :: rest) :
    Legit todo (st.log ++ [(t, i)]) := by
  intro u
  rw [← h u, List.filter_append, List.map_append]
  refine List.prefix_append_right_inj _ |>.2 ?_
  rcases eq_or_ne u t with rfl | hne
  · rw [List.filter_cons_of_pos (by simp), hs]
    exact ⟨rest, rfl⟩
  · rw [List.filter_cons_of_neg (by simpa using hne.symm)]
    exact List.nil_prefix

omit [DecidableEq Tid] in
/-- Whether an operation is defined is a matter of the registers. -/
theorem Op.isSome_run {op : Op Var Val Reg} {r : Reg} {m n : Var → Val} (h : (op.run r m).isSome) :
    (op.run r n).isSome := by
  rcases op with ⟨x, f⟩ | ⟨x, g⟩
  · rfl
  · rw [Op.run, Option.isSome_map] at h ⊢
    exact h

/-- What a run has done of the sections of `todo`, from the memory `mem`. -/
structure Reached (code : ι → Section Var Val Reg) (mem : Var → Val) (todo : Tid → List ι)
    (st : State Tid Var Val Reg ι) : Prop where
  inv : ∃ base, Inv code mem base st
  complete : Complete todo st

/-- One step more of a run. -/
theorem Reached.step {mem : Var → Val} (h : Reached code mem todo st) {a : Action Tid Var}
    (hstep : step code st a = some st') : Reached code mem todo st' := by
  obtain ⟨base, hinv⟩ := h.inv
  exact ⟨hinv.step hstep, h.complete.step hstep⟩

omit [DecidableEq Tid] in
/-- A thread without sections left is in none. -/
theorem Inv.inside_eq_none (h : Inv code init base st) {t : Tid} (ht : st.todo t = []) :
    st.inside t = none := by
  rcases hinside : st.inside t with - | ⟨r, ops⟩
  · rfl
  · obtain ⟨i, rest, -, -, hs, -⟩ := h.inside t r ops hinside
    exact nomatch ht.symm.trans hs

/-- A section that is going on can be finished, and nothing else changes for the other threads. -/
theorem Reached.finish {mem : Var → Val} (h : Reached code mem todo st)
    (hserial : ∀ log, Legit todo log → (serial code log mem).isSome) {t : Tid} {r : Reg}
    {ops : List (Op Var Val Reg)} (ht : st.inside t = some (r, ops)) :
    ∃ as st', Machine.exec (LockedSections.step code) st as = some st' ∧ Reached code mem todo st' ∧
      st'.inside t = none ∧ (∃ i, st.todo t = i :: st'.todo t) ∧
      ∀ u ≠ t, st'.inside u = st.inside u ∧ st'.todo u = st.todo u := by
  induction ops generalizing st r with
  | nil =>
    obtain ⟨base, hinv⟩ := h.inv
    obtain ⟨i, rest, -, -, hs, -⟩ := hinv.inside t r [] ht
    have hstep : LockedSections.step code st (.leave t) = some { st with
        todo := update st.todo t rest
        inside := update st.inside t none
        log := st.log ++ [(t, i)] } := by
      rw [LockedSections.step, ht, hs]
    refine ⟨[.leave t], _, by rw [Machine.exec_cons, hstep]; rfl, h.step hstep, update_self .., ?_,
      fun u hu ↦ ⟨update_of_ne hu _ _, update_of_ne hu _ _⟩⟩
    exact ⟨i, by dsimp only; rw [update_self, hs]⟩
  | cons op ops ih =>
    obtain ⟨base, hinv⟩ := h.inv
    obtain ⟨i, rest, pre, n, hs, hops, -, hrun, -⟩ := hinv.inside t r (op :: ops) ht
    -- the whole section is defined in a serial run
    have hsome := hserial _ (h.complete.legit_concat hs)
    rw [serial_concat, hinv.serial, Option.bind_some, Section.run, Option.isSome_map, hops,
      runOps_append, hrun, Option.bind_some] at hsome
    have hop : (op.run r st.mem).isSome :=
      Op.isSome_run (Option.isSome_of_isSome_bind hsome)
    obtain ⟨⟨r', m⟩, hop⟩ := Option.isSome_iff_exists.1 hop
    have hstep : LockedSections.step code st (.op t) = some { st with
        mem := m, inside := update st.inside t (some (r', ops)) } := by
      rw [LockedSections.step, ht]
      dsimp only
      rw [hop]
      rfl
    obtain ⟨as, st', hexec, hreached, hinside, hdone, hother⟩ :=
      ih (h.step hstep) (update_self ..)
    refine ⟨.op t :: as, st', by rw [Machine.exec_cons, hstep]; exact hexec, hreached, hinside,
      hdone, fun u hu ↦ ?_⟩
    rw [(hother u hu).1, (hother u hu).2]
    exact ⟨update_of_ne hu _ _, rfl⟩

/-- Outside of all sections a thread can get the locks it needs. -/
theorem Reached.locks {mem : Var → Val} (h : Reached code mem todo st)
    (hidle : ∀ u, st.inside u = none) (t : Tid) {xs : List Var} (hxs : xs ⊆ st.wanted code t) :
    ∃ as st', Machine.exec (LockedSections.step code) st as = some st' ∧ Reached code mem todo st' ∧
      st'.inside = st.inside ∧ st'.todo = st.todo ∧ ∀ x ∈ xs, st'.held x = some t := by
  induction xs with
  | nil => exact ⟨[], st, rfl, h, rfl, rfl, fun x hx ↦ absurd hx List.not_mem_nil⟩
  | cons x xs ih =>
    obtain ⟨as, st₁, hexec, hreached, hinside, htodo, hheld⟩ :=
      ih fun y hy ↦ hxs (List.mem_cons_of_mem _ hy)
    have hwanted : x ∈ st₁.wanted code t := by
      rw [State.wanted, htodo]
      exact hxs List.mem_cons_self
    have hidle₁ (u : Tid) : st₁.inside u = none := by rw [hinside, hidle]
    have htake (st₂ : State Tid Var Val Reg ι) (hx : st₂.held x = none) (hu : st₂.inside t = none)
        (hwanted : x ∈ st₂.wanted code t) : LockedSections.step code st₂ (.acquire t x) =
          some { st₂ with held := update st₂.held x (some t) } := by
      rw [LockedSections.step, if_pos ⟨hx, Option.isNone_iff_eq_none.2 hu, hwanted⟩]
    have hmem (st₂ : State Tid Var Val Reg ι) (hst₂ : ∀ y ≠ x, st₂.held y = st₁.held y) :
        ∀ y ∈ x :: xs, update st₂.held x (some t) y = some t := by
      intro y hy
      rcases eq_or_ne y x with rfl | hne
      · exact update_self ..
      · rw [update_of_ne hne, hst₂ y hne]
        exact hheld y ((List.mem_cons.1 hy).resolve_left hne)
    rcases hx : st₁.held x with - | u
    · have hstep := htake st₁ hx (hidle₁ t) hwanted
      refine ⟨as ++ [.acquire t x], _, ?_, hreached.step hstep, hinside, htodo,
        hmem st₁ fun _ _ ↦ rfl⟩
      rw [Machine.exec_append_of_exec (LockedSections.step code) hexec, Machine.exec_cons, hstep]
      rfl
    · -- the holder gives it back
      have hback : LockedSections.step code st₁ (.release u x) =
          some { st₁ with held := update st₁.held x none } := by
        rw [LockedSections.step, if_pos ⟨hx, Option.isNone_iff_eq_none.2 (hidle₁ u)⟩]
      have hstep := htake { st₁ with held := update st₁.held x none } (update_self ..) (hidle₁ t)
        hwanted
      refine ⟨as ++ [.release u x, .acquire t x], _, ?_, (hreached.step hback).step hstep, hinside,
        htodo, hmem _ fun y hy ↦ update_of_ne hy _ _⟩
      rw [Machine.exec_append_of_exec (LockedSections.step code) hexec, Machine.exec_cons, hback,
        Option.bind_some, Machine.exec_cons, hstep]
      rfl

variable [Fintype Tid]

/-- **No deadlock**: if the sections are defined one after another in whatever order, then from each
state that a run reaches all of them can be brought to their end. -/
theorem Reached.exists_done {mem : Var → Val} (h : Reached code mem todo st)
    (hserial : ∀ log, Legit todo log → (serial code log mem).isSome) :
    ∃ as st', Machine.exec (LockedSections.step code) st as = some st' ∧
      Reached code mem todo st' ∧ ∀ t, st'.todo t = [] := by
  induction hn : ∑ t, (st.todo t).length using Nat.strong_induction_on generalizing st with
  | _ n ih =>
  -- it is enough to bring one section to its end
  have hnext {as : List (Action Tid Var)} {st₁ : State Tid Var Val Reg ι} {t : Tid}
      (hexec : Machine.exec (LockedSections.step code) st as = some st₁)
      (h₁ : Reached code mem todo st₁)
      (hdone : ∃ i, st.todo t = i :: st₁.todo t) (hother : ∀ u ≠ t, st₁.todo u = st.todo u) :
      ∃ as st', Machine.exec (LockedSections.step code) st as = some st' ∧
        Reached code mem todo st' ∧
        ∀ t, st'.todo t = [] := by
    have hlt : ∑ u, (st₁.todo u).length < n := by
      rw [← hn]
      refine Finset.sum_lt_sum (fun u _ ↦ ?_) ⟨t, Finset.mem_univ t, ?_⟩
      · rcases eq_or_ne u t with rfl | hne
        · obtain ⟨i, hs⟩ := hdone
          rw [hs, List.length_cons]
          exact Nat.le_succ _
        · rw [hother u hne]
      · obtain ⟨i, hs⟩ := hdone
        rw [hs, List.length_cons]
        exact Nat.lt_succ_self _
    obtain ⟨as', st', hexec', hreached, hnil⟩ := ih _ hlt h₁ rfl
    refine ⟨as ++ as', st', ?_, hreached, hnil⟩
    rw [Machine.exec_append_of_exec (LockedSections.step code) hexec]
    exact hexec'
  by_cases hidle : ∀ t, st.inside t = none
  · by_cases hnil : ∀ t, st.todo t = []
    · exact ⟨[], st, rfl, h, hnil⟩
    · push Not at hnil
      obtain ⟨t, ht⟩ := hnil
      obtain ⟨i, rest, hs⟩ := List.exists_cons_of_ne_nil ht
      have hwanted : (code i).locks ⊆ st.wanted code t := by
        rw [State.wanted, hs]
        exact List.Subset.refl _
      obtain ⟨as, st₁, hexec, h₁, hinside, htodo, hheld⟩ := h.locks hidle t hwanted
      have henter : LockedSections.step code st₁ (.enter t) = some { st₁ with
          inside := update st₁.inside t (some ((code i).regs, (code i).ops)) } := by
        rw [LockedSections.step, hinside, hidle t, htodo, hs]
        exact if_pos hheld
      obtain ⟨as', st', hexec', hreached, -, hdone, hother⟩ :=
        (h₁.step henter).finish hserial (update_self ..)
      have hexec₂ : Machine.exec (LockedSections.step code) st (as ++ .enter t :: as') =
          some st' := by
        rw [Machine.exec_append_of_exec (LockedSections.step code) hexec, Machine.exec_cons, henter]
        exact hexec'
      refine hnext (t := t) hexec₂ hreached ?_ fun u hu ↦ ?_
      · rw [← htodo]
        exact hdone
      · rw [← htodo]
        exact (hother u hu).2
  · push Not at hidle
    obtain ⟨t, ht⟩ := hidle
    obtain ⟨⟨r, ops⟩, ht⟩ := Option.ne_none_iff_exists'.1 ht
    obtain ⟨as, st', hexec, hreached, -, hdone, hother⟩ := h.finish hserial ht
    exact hnext hexec hreached hdone fun u hu ↦ (hother u hu).2

end LockedSections
