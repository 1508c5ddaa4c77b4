import Mathlib.Logic.Function.Basic
import Mathlib.Tactic.Common
import MiscCpp.Library.Machine

/-!
# A singleton with double-checked locking

`getSingleton1Instance` looks at `instance_`, and if that is null takes the mutex, looks once more,
and constructs the object if `instance_` is still null. Any number of threads call it as often as
they like. The loads and stores of `instance_` are sequentially consistent, so that their steps
interleave.

**One object**: at most one is constructed, and every call returns it (`returned_of_exec`). What
makes the second look enough is that only the owner of the mutex constructs and stores (`Inv`). A
construction that throws gives back the mutex, and the next call tries again.
-/

open Function

namespace Singleton

/-- Where a thread is in `getSingleton1Instance`; `idle` is outside of it. -/
inductive Pc where
  | idle
  | first
  | lock
  | second
  | construct
  | store (tmp : ℕ)
  | throwing
  | unlock
  | load

/-- The pointer `instance_`, with 0 for null, the mutex with its owner, the objects that have been
constructed and what the calls have returned. -/
structure State (Tid : Type*) where
  instance_ : ℕ
  mutex : Option Tid
  pc : Tid → Pc
  constructed : List ℕ
  returned : List (Tid × ℕ)

/-- `construct` is `new Singleton1()`, which gives an address or throws. -/
inductive Event (Tid : Type*) where
  | call (t : Tid)
  | turn (t : Tid)
  | construct (t : Tid) (address : Option ℕ)

/-- The thread of an event. -/
def Event.tid {Tid : Type*} : Event Tid → Tid
  | call t | turn t | construct t _ => t

variable {Tid : Type*} [DecidableEq Tid]

/-- The thread goes on. -/
def State.goto (st : State Tid) (t : Tid) (pc : Pc) : State Tid :=
  { st with pc := update st.pc t pc }

/-- The next access of a thread, or a step of the construction. -/
def step (st : State Tid) : Event Tid → Option (State Tid)
  | .call t =>
    match st.pc t with
    | .idle => some (st.goto t .first)
    | _ => none
  | .turn t =>
    match st.pc t with
    | .first => some (st.goto t (if st.instance_ = 0 then .lock else .load))
    | .lock =>
      match st.mutex with
      | none => some { st.goto t .second with mutex := some t }
      | some _ => none
    | .second => some (st.goto t (if st.instance_ = 0 then .construct else .unlock))
    | .store tmp => some { st.goto t .unlock with instance_ := tmp }
    | .throwing => some { st.goto t .idle with mutex := none }
    | .unlock => some { st.goto t .load with mutex := none }
    | .load => some { st.goto t .idle with returned := st.returned ++ [(t, st.instance_)] }
    | _ => none
  | .construct t address =>
    match st.pc t with
    | .construct =>
      match address with
      | none => some (st.goto t .throwing)
      | some 0 => none
      | some (a + 1) =>
        some { st.goto t (.store (a + 1)) with constructed := st.constructed ++ [a + 1] }
    | _ => none

/-- No thread has called, and there is no instance. -/
def initial : State Tid := ⟨0, none, fun _ ↦ .idle, [], []⟩

/-! ### The invariant -/

/-- In the scope of the `lock_guard`. -/
def Pc.inside : Pc → Bool
  | second | construct | store _ | throwing | unlock => true
  | _ => false

/-- What a thread knows of the object. -/
def Pc.Knows (instance_ : ℕ) (constructed : List ℕ) : Pc → Prop
  | construct => instance_ = 0 ∧ constructed = []
  | store tmp => tmp ≠ 0 ∧ instance_ = 0 ∧ constructed = [tmp]
  | unlock | load => instance_ ≠ 0
  | _ => True

/-- **One object**: it is the one that `instance_` points to, or its store is still to come. -/
structure Inv (st : State Tid) : Prop where
  owner : ∀ t, st.mutex = some t ↔ (st.pc t).inside
  knows : ∀ t, (st.pc t).Knows st.instance_ st.constructed
  stored : st.instance_ ≠ 0 → st.constructed = [st.instance_]
  null : st.instance_ = 0 → st.constructed = [] ∨ ∃ t tmp, st.pc t = .store tmp
  returned : ∀ r ∈ st.returned, st.instance_ ≠ 0 ∧ r.2 = st.instance_

variable {st st' : State Tid} {t : Tid} {pc : Pc}

omit [DecidableEq Tid] in
theorem inv_initial : Inv (initial : State Tid) :=
  ⟨fun _ ↦ iff_of_false nofun nofun, fun _ ↦ trivial, fun h ↦ absurd rfl h, fun _ ↦ .inl rfl,
    fun _ h ↦ absurd h List.not_mem_nil⟩

omit [DecidableEq Tid] in
theorem Inv.eq_of_inside (h : Inv st) {u : Tid} (ht : (st.pc t).inside) (hu : (st.pc u).inside) :
    u = t :=
  Option.some.inj (((h.owner u).2 hu).symm.trans ((h.owner t).2 ht))

/-- The mutex stays, or the thread takes it or gives it back. -/
theorem Inv.owner_goto (h : Inv st) {mutex : Option Tid}
    (hmutex : mutex = st.mutex ∧ pc.inside = (st.pc t).inside ∨
      st.mutex = none ∧ mutex = some t ∧ pc.inside ∨
      st.mutex = some t ∧ mutex = none ∧ pc.inside = false) (u : Tid) :
    mutex = some u ↔ (update st.pc t pc u).inside := by
  rcases eq_or_ne u t with rfl | hne
  · rw [update_self]
    rcases hmutex with ⟨rfl, hpc⟩ | ⟨-, rfl, hpc⟩ | ⟨-, rfl, hpc⟩
    · rw [hpc]
      exact h.owner u
    · exact iff_of_true rfl hpc
    · exact iff_of_false nofun (by rw [hpc]; exact Bool.false_ne_true)
  · rw [update_of_ne hne, ← h.owner u]
    rcases hmutex with ⟨rfl, -⟩ | ⟨hnone, rfl, -⟩ | ⟨hsome, rfl, -⟩
    · rfl
    · rw [hnone]
      exact iff_of_false (fun heq ↦ hne (Option.some.inj heq).symm) nofun
    · rw [hsome]
      exact iff_of_false nofun fun heq ↦ hne (Option.some.inj heq).symm

/-- A step that does not touch the object. -/
theorem Inv.goto (h : Inv st) {mutex : Option Tid}
    (hmutex : mutex = st.mutex ∧ pc.inside = (st.pc t).inside ∨
      st.mutex = none ∧ mutex = some t ∧ pc.inside ∨
      st.mutex = some t ∧ mutex = none ∧ pc.inside = false)
    (hknows : pc.Knows st.instance_ st.constructed) (hstore : ∀ tmp, st.pc t ≠ .store tmp) :
    Inv { st.goto t pc with mutex := mutex } := by
  refine ⟨h.owner_goto hmutex, fun u ↦ ?_, h.stored, fun hnull ↦ (h.null hnull).imp id ?_,
    h.returned⟩
  · dsimp only [State.goto]
    rcases eq_or_ne u t with rfl | hne
    · rw [update_self]
      exact hknows
    · rw [update_of_ne hne]
      exact h.knows u
  · rintro ⟨u, tmp, hu⟩
    have hne : u ≠ t := by
      rintro rfl
      exact hstore tmp hu
    refine ⟨u, tmp, ?_⟩
    dsimp only [State.goto]
    rw [update_of_ne hne, hu]

/-- The owner of the mutex is the only one that knows whether there is an object. -/
theorem Inv.knows_goto (h : Inv st) {instance_ : ℕ} {constructed : List ℕ}
    (ht : (st.pc t).inside) (hknows : pc.Knows instance_ constructed)
    (hinstance : st.instance_ ≠ 0 → instance_ ≠ 0) (u : Tid) :
    (update st.pc t pc u).Knows instance_ constructed := by
  rcases eq_or_ne u t with rfl | hne
  · rw [update_self]
    exact hknows
  · rw [update_of_ne hne]
    have hu := h.knows u
    have hinside : ¬ (st.pc u).inside := fun hu ↦ hne (h.eq_of_inside ht hu)
    generalize st.pc u = pc at hu hinside ⊢
    rcases pc with - | - | - | - | - | tmp | - | - | -
    · trivial
    · trivial
    · trivial
    · trivial
    · exact absurd rfl hinside
    · exact absurd rfl hinside
    · trivial
    · exact absurd rfl hinside
    · exact hinstance hu

theorem Inv.construct (h : Inv st) (ht : st.pc t = .construct) (a : ℕ) :
    Inv { st.goto t (.store (a + 1)) with constructed := st.constructed ++ [a + 1] } := by
  have hknows := h.knows t
  rw [ht] at hknows
  obtain ⟨hnull, hnil⟩ := hknows
  rw [hnil, List.nil_append]
  refine ⟨h.owner_goto (.inl ⟨rfl, by rw [ht]; rfl⟩),
    h.knows_goto (by rw [ht]; rfl) ⟨Nat.succ_ne_zero a, hnull, rfl⟩ id,
    fun hne ↦ absurd hnull hne, fun _ ↦ .inr ⟨t, a + 1, update_self ..⟩, h.returned⟩

theorem Inv.store (h : Inv st) {tmp : ℕ} (ht : st.pc t = .store tmp) :
    Inv { st.goto t .unlock with instance_ := tmp } := by
  have hknows := h.knows t
  rw [ht] at hknows
  obtain ⟨hne, hnull, hone⟩ := hknows
  refine ⟨h.owner_goto (.inl ⟨rfl, by rw [ht]; rfl⟩),
    h.knows_goto (by rw [ht]; rfl) hne fun hne ↦ absurd hnull hne, fun _ ↦ hone,
    fun heq ↦ absurd heq hne, fun r hr ↦ absurd hnull (h.returned r hr).1⟩

theorem Inv.step (h : Inv st) {e : Event Tid} (hstep : step st e = some st') : Inv st' := by
  rcases e with t | t | ⟨t, address⟩
  · rw [Singleton.step] at hstep
    split at hstep
    next ht =>
      cases hstep
      exact h.goto (.inl ⟨rfl, by rw [ht]; rfl⟩) trivial (by simp [ht])
    next => exact nomatch hstep
  · have hknows := h.knows t
    rw [Singleton.step] at hstep
    split at hstep
    next ht =>
      cases hstep
      refine h.goto (.inl ⟨rfl, ?_⟩) ?_ (by simp [ht])
      · rw [ht]
        split <;> rfl
      · split
        next => trivial
        next hne => exact hne
    next ht =>
      split at hstep
      next hfree =>
        cases hstep
        exact h.goto (.inr (.inl ⟨hfree, rfl, rfl⟩)) trivial (by simp [ht])
      next => exact nomatch hstep
    next ht =>
      cases hstep
      refine h.goto (.inl ⟨rfl, ?_⟩) ?_ (by simp [ht])
      · rw [ht]
        split <;> rfl
      · split
        next hnull =>
          refine ⟨hnull, (h.null hnull).resolve_right ?_⟩
          rintro ⟨u, tmp, hu⟩
          obtain rfl := h.eq_of_inside (t := t) (by rw [ht]; rfl) (by rw [hu]; rfl)
          exact nomatch ht.symm.trans hu
        next hne => exact hne
    next tmp ht =>
      cases hstep
      exact h.store ht
    next ht =>
      cases hstep
      exact h.goto (.inr (.inr ⟨(h.owner t).2 (by rw [ht]; rfl), rfl, rfl⟩)) trivial (by simp [ht])
    next ht =>
      cases hstep
      rw [ht] at hknows
      exact h.goto (.inr (.inr ⟨(h.owner t).2 (by rw [ht]; rfl), rfl, rfl⟩)) hknows (by simp [ht])
    next ht =>
      cases hstep
      rw [ht] at hknows
      have hgoto : Inv (st.goto t .idle) :=
        h.goto (.inl ⟨rfl, by rw [ht]; rfl⟩) trivial (by simp [ht])
      refine ⟨hgoto.owner, hgoto.knows, hgoto.stored, hgoto.null, fun r hr ↦ ?_⟩
      rcases List.mem_append.1 hr with hr | hr
      · exact h.returned r hr
      · rw [List.mem_singleton.1 hr]
        exact ⟨hknows, rfl⟩
    next => exact nomatch hstep
  · rcases address with - | - | a
    all_goals
      rw [Singleton.step] at hstep
      split at hstep
    next ht =>
      cases hstep
      exact h.goto (.inl ⟨rfl, by rw [ht]; rfl⟩) trivial (by simp [ht])
    next => exact nomatch hstep
    next => exact nomatch hstep
    next => exact nomatch hstep
    next ht =>
      cases hstep
      exact h.construct ht a
    next => exact nomatch hstep

omit [DecidableEq Tid] in
theorem Inv.constructed_of_returned (h : Inv st) {r : Tid × ℕ} (hr : r ∈ st.returned) :
    r.2 ≠ 0 ∧ st.constructed = [r.2] := by
  obtain ⟨hne, heq⟩ := h.returned r hr
  exact ⟨heq ▸ hne, heq ▸ h.stored hne⟩

omit [DecidableEq Tid] in
theorem Inv.length_constructed_le (h : Inv st) : st.constructed.length ≤ 1 := by
  rcases eq_or_ne st.instance_ 0 with hnull | hne
  · rcases h.null hnull with hnil | ⟨t, tmp, ht⟩
    · rw [hnil]
      exact Nat.zero_le 1
    · have hknows := h.knows t
      rw [ht] at hknows
      rw [hknows.2.2]
      exact Nat.le_refl 1
  · rw [h.stored hne]
    exact Nat.le_refl 1

/-- A call goes on, but for one that waits for the mutex. -/
theorem exists_step (hidle : st.pc t ≠ .idle) (hlock : st.pc t = .lock → st.mutex = none) :
    ∃ e, e.tid = t ∧ (step st e).isSome := by
  rcases ht : st.pc t with - | - | - | - | - | tmp | - | - | -
  · exact absurd ht hidle
  · exact ⟨.turn t, rfl, by rw [step, ht]; rfl⟩
  · exact ⟨.turn t, rfl, by rw [step, ht, hlock ht]; rfl⟩
  · exact ⟨.turn t, rfl, by rw [step, ht]; rfl⟩
  · exact ⟨.construct t none, rfl, by rw [step, ht]; rfl⟩
  · exact ⟨.turn t, rfl, by rw [step, ht]; rfl⟩
  · exact ⟨.turn t, rfl, by rw [step, ht]; rfl⟩
  · exact ⟨.turn t, rfl, by rw [step, ht]; rfl⟩
  · exact ⟨.turn t, rfl, by rw [step, ht]; rfl⟩

/-- **Every call returns the one object**, whatever the threads and their steps are, and no call
waits but for another one that goes on. -/
theorem returned_of_exec {es : List (Event Tid)} (hexec : Machine.exec step initial es = some st) :
    (st.constructed.length ≤ 1 ∧ ∀ r ∈ st.returned, r.2 ≠ 0 ∧ st.constructed = [r.2]) ∧
      ∀ t, st.pc t ≠ .idle → (∃ e, e.tid = t ∧ (step st e).isSome) ∨
        ∃ u, st.mutex = some u ∧ ∃ e, e.tid = u ∧ (step st e).isSome := by
  have h : Inv st := Machine.exec_invariant' (fun _ _ _ h hstep ↦ h.step hstep) inv_initial hexec
  refine ⟨⟨h.length_constructed_le, fun r hr ↦ h.constructed_of_returned hr⟩, fun t hidle ↦ ?_⟩
  rcases hmutex : st.mutex with - | u
  · exact .inl (exists_step hidle fun _ ↦ hmutex)
  · have hinside := (h.owner u).1 hmutex
    refine .inr ⟨u, rfl, exists_step (fun hu ↦ ?_) fun hu ↦ ?_⟩
    · rw [hu] at hinside
      exact nomatch hinside
    · rw [hu] at hinside
      exact nomatch hinside

/-- Two threads see null; the first one to construct fails. -/
def twoCalls : List (Event Bool) :=
  [.call true, .call false, .turn true, .turn false, .turn true, .turn true, .construct true none,
    .turn true, .turn false, .turn false, .construct false (some 7), .turn false, .call true,
    .turn true, .turn false, .turn true, .turn false]

theorem returned_of_exec_twoCalls : ∃ st, Machine.exec step initial twoCalls = some st ∧
    st.returned = [(true, 7), (false, 7)] ∧
      ∀ r ∈ st.returned, r.2 ≠ 0 ∧ st.constructed = [r.2] := by
  have hexec : Machine.exec step initial twoCalls = some _ := rfl
  exact ⟨_, hexec, rfl, (returned_of_exec hexec).1.2⟩

end Singleton
