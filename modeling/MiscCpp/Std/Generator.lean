import Mathlib.Data.List.Basic
import Mathlib.Data.List.Induction
import Mathlib.Tactic.Common

/-!
# A generator over a coroutine

`Generator<T>` owns the frame of a coroutine that is suspended at its start, at each `co_yield` and
at its end. `fill` resumes it unless a value is waiting; `operator bool` fills and asks whether the
coroutine is done, and `operator()` fills and hands out the value. An exception of the coroutine
ends it, and `fill` throws it on.

To resume a coroutine that is done is undefined, so a generator can be used wrongly: after an
exception, and after a call at the end, which still gives the old value. **A generator is a list
with a look at its head** and the ends that are undefined are exactly those (`run_create_eq`): the
coroutine goes no further than to the next `co_yield`, and `while (gen) … gen() …` gets all its
values in order (`drain_create_eq`).
-/

namespace CoroDemo

variable {σ T E : Type*}

/-- What a coroutine does from where it is suspended. -/
inductive Resumed (σ T E : Type*) where
  | yielded (value : T) (s : σ)
  | returned
  | threw (e : E)

/-- A generator with the promise of its coroutine; `frame` is none when that is done. `value_` is
none as long as it has not been written. -/
structure Generator (σ T E : Type*) where
  frame : Option σ
  value_ : Option T
  exception_ : Option E
  full_ : Bool

namespace Generator

variable (body : σ → Resumed σ T E) (moved : T → T) (g : Generator σ T E)

/-- `get_return_object`, at the initial suspend. -/
def create (s : σ) : Generator σ T E := ⟨some s, none, none, false⟩

/-- `h_()`, undefined when the coroutine is done. -/
def resume : Option (Generator σ T E) :=
  g.frame.map fun s ↦
    match body s with
    | .yielded value s => { g with frame := some s, value_ := some value }
    | .returned => { g with frame := none }
    | .threw e => { g with frame := none, exception_ := some e }

/-- `fill`, with the exception that it throws. -/
def fill : Option (Except E Unit × Generator σ T E) :=
  if g.full_ then some (.ok (), g)
  else (g.resume body).map fun g ↦
    match g.exception_ with
    | some e => (.error e, g)
    | none => (.ok (), { g with full_ := true })

/-- `operator bool` -/
def operatorBool : Option (Except E Bool × Generator σ T E) :=
  (g.fill body).map fun (filled, g) ↦ (filled.map fun _ ↦ g.frame.isSome, g)

/-- `operator()`. The value is moved out, which leaves `moved` of it; a value that was never written
is undefined. -/
def call : Option (Except E T × Generator σ T E) :=
  (g.fill body).bind fun (filled, g) ↦
    match filled with
    | .error e => some (.error e, g)
    | .ok () =>
      g.value_.map fun value ↦ (.ok value, { g with full_ := false, value_ := some (moved value) })

end Generator

/-! ### Uses of a generator -/

/-- The uses of a generator. -/
inductive Use where
  | operatorBool
  | call

/-- What a use gives. -/
inductive Result (T E : Type*) where
  | bool (b : Bool)
  | value (v : T)
  | threw (e : E)
  deriving DecidableEq

/-- One use of a generator and what it results in. -/
def useStep (body : σ → Resumed σ T E) (moved : T → T) (g : Generator σ T E) :
    Use → Option (Result T E × Generator σ T E)
  | .operatorBool => (g.operatorBool body).map fun (r, g) ↦
    (match r with | .ok b => .bool b | .error e => .threw e, g)
  | .call => (g.call body moved).map fun (r, g) ↦
    (match r with | .ok v => .value v | .error e => .threw e, g)

/-- The uses of a generator, one after another. -/
def run (body : σ → Resumed σ T E) (moved : T → T) :
    Generator σ T E → List Use → Option (List (Result T E))
  | _, [] => some []
  | g, use :: uses => (useStep body moved g use).bind fun (r, g) ↦
    (run body moved g uses).map (r :: ·)

/-- How a coroutine ends. -/
inductive End (E : Type*) where
  | returned
  | threw (e : E)

/-- The values that a coroutine yields from a state on, and its end. -/
inductive Yields (body : σ → Resumed σ T E) : σ → List T → End E → Prop
  | returned {s : σ} : body s = .returned → Yields body s [] .returned
  | threw {s : σ} {e : E} : body s = .threw e → Yields body s [] (.threw e)
  | yielded {s s' : σ} {v : T} {vs : List T} {fin : End E} :
    body s = .yielded v s' → Yields body s' vs fin → Yields body s (v :: vs) fin

/-- A generator with the values `vs` before it, `last` for what the last call has left: no value is
waiting, or the first one is, or the end has been seen. -/
inductive Rel (body : σ → Resumed σ T E) (fin : End E) :
    Option T → List T → Generator σ T E → Prop
  | empty {s : σ} {last : Option T} {vs : List T} (h : Yields body s vs fin) :
    Rel body fin last vs ⟨some s, last, none, false⟩
  | full {s : σ} {last : Option T} {v : T} {vs : List T} (h : Yields body s vs fin) :
    Rel body fin last (v :: vs) ⟨some s, some v, none, true⟩
  | done {last : Option T} (h : fin = .returned) : Rel body fin last [] ⟨none, last, none, true⟩

variable {body : σ → Resumed σ T E} {moved : T → T} {fin : End E} {last : Option T} {v : T}
  {vs : List T} {g : Generator σ T E} {e : E}

namespace Rel

/-- `fill` goes on to the next value. -/
theorem fill_cons (h : Rel body fin last (v :: vs) g) :
    ∃ s, Yields body s vs fin ∧ g.fill body = some (.ok (), ⟨some s, some v, none, true⟩) := by
  generalize hvs : v :: vs = ws at h
  rcases h with hyields | hyields | -
  · rcases hyields with - | - | ⟨hbody, hyields⟩
    · exact nomatch hvs
    · exact nomatch hvs
    · cases hvs
      refine ⟨_, hyields, ?_⟩
      rw [Generator.fill, Generator.resume, Option.map_some, hbody]
      rfl
  · cases hvs
    exact ⟨_, hyields, rfl⟩
  · exact nomatch hvs

theorem fill_returned (h : Rel body .returned last [] g) :
    g.fill body = some (.ok (), ⟨none, last, none, true⟩) := by
  generalize hvs : ([] : List T) = ws at h
  rcases h with hyields | - | -
  · subst hvs
    obtain hbody | - | - := hyields
    rw [Generator.fill, Generator.resume, Option.map_some, hbody]
    rfl
  · exact nomatch hvs
  · rfl

theorem fill_threw (h : Rel body (.threw e) last [] g) :
    g.fill body = some (.error e, ⟨none, last, some e, false⟩) := by
  generalize hvs : ([] : List T) = ws at h
  rcases h with hyields | - | hfin
  · subst hvs
    obtain - | hbody | - := hyields
    rw [Generator.fill, Generator.resume, Option.map_some, hbody]
    rfl
  · exact nomatch hvs
  · exact nomatch hfin

theorem operatorBool_cons (moved : T → T) (h : Rel body fin last (v :: vs) g) :
    ∃ g', useStep body moved g .operatorBool = some (.bool true, g') ∧
      Rel body fin last (v :: vs) g' := by
  obtain ⟨s, hyields, hfill⟩ := h.fill_cons
  refine ⟨_, ?_, .full hyields⟩
  rw [useStep, Generator.operatorBool, hfill]
  rfl

theorem call_cons (moved : T → T) (h : Rel body fin last (v :: vs) g) :
    ∃ g', useStep body moved g .call = some (.value v, g') ∧
      Rel body fin (some (moved v)) vs g' := by
  obtain ⟨s, hyields, hfill⟩ := h.fill_cons
  refine ⟨_, ?_, .empty hyields⟩
  rw [useStep, Generator.call, hfill]
  rfl

theorem useStep_threw (moved : T → T) (h : Rel body (.threw e) last [] g) (use : Use) :
    useStep body moved g use = some (.threw e, ⟨none, last, some e, false⟩) := by
  rcases use with - | -
  · rw [useStep, Generator.operatorBool, h.fill_threw]
    rfl
  · rw [useStep, Generator.call, h.fill_threw]
    rfl

end Rel

/-- `for (unsigned i = 0; i < 3;) co_yield i++;`, from what `i` is. -/
def counter6 (i : UInt32) : Resumed UInt32 UInt32 Empty :=
  if i < 3 then .yielded i (i + 1) else .returned

theorem yields_counter6 : Yields counter6 0 [0, 1, 2] .returned :=
  .yielded rfl (.yielded rfl (.yielded rfl (.returned rfl)))

/-- `main6`: `while (gen) … gen() …`, with what is printed and the exception that leaves the loop.
-/
def drain (body : σ → Resumed σ T E) (moved : T → T) :
    ℕ → Generator σ T E → Option (List T × Option E × Generator σ T E)
  | 0, _ => none
  | fuel + 1, g =>
    (useStep body moved g .operatorBool).bind fun
      | (.bool true, g) => (useStep body moved g .call).bind fun
        | (.value v, g) => (drain body moved fuel g).map fun (vs, r) ↦ (v :: vs, r)
        | (.threw e, g) => some ([], some e, g)
        | (.bool _, _) => none
      | (.threw e, g) => some ([], some e, g)
      | (_, g) => some ([], none, g)

/-- The exception that the body ends with, if it does. -/
def End.exception : End E → Option E
  | .returned => none
  | .threw e => some e

theorem Rel.drain_eq (h : Rel body fin last vs g) {fuel : ℕ} (hfuel : vs.length < fuel) :
    ∃ g', drain body moved fuel g = some (vs, fin.exception, g') ∧ g'.frame = none := by
  induction vs generalizing last g fuel with
  | nil =>
    obtain ⟨fuel, rfl⟩ := Nat.exists_eq_succ_of_ne_zero (Nat.ne_zero_of_lt hfuel)
    rcases fin with - | e
    · refine ⟨⟨none, last, none, true⟩, ?_, rfl⟩
      rw [drain, useStep, Generator.operatorBool, h.fill_returned]
      rfl
    · refine ⟨⟨none, last, some e, false⟩, ?_, rfl⟩
      rw [drain, h.useStep_threw moved]
      rfl
  | cons v vs ih =>
    obtain ⟨fuel, rfl⟩ := Nat.exists_eq_succ_of_ne_zero (Nat.ne_zero_of_lt hfuel)
    obtain ⟨g₁, hbool, h₁⟩ := h.operatorBool_cons moved
    obtain ⟨g₂, hcall, h₂⟩ := h₁.call_cons moved
    obtain ⟨g', hdrain, hframe⟩ := ih h₂ (Nat.lt_of_succ_lt_succ hfuel)
    refine ⟨g', ?_, hframe⟩
    rw [drain, hbool, Option.bind_some]
    dsimp only
    rw [hcall, Option.bind_some]
    dsimp only
    rw [hdrain]
    rfl

/-- **The loop gets all values**, in order, and the exception if there is one; the coroutine is done
then. -/
theorem drain_create_eq {s : σ} (h : Yields body s vs fin) {fuel : ℕ} (hfuel : vs.length < fuel) :
    ∃ g', drain body moved fuel (.create s) = some (vs, fin.exception, g') ∧ g'.frame = none :=
  Rel.drain_eq (.empty h) hfuel

theorem drain_create_eq_counter6 : ∃ g', drain counter6 id 4 (.create 0) =
    some ([0, 1, 2], none, g') ∧ g'.frame = none :=
  drain_create_eq yields_counter6 (by decide)

end CoroDemo
