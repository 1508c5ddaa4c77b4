import Mathlib.Logic.Function.Basic
import MiscCpp.Library.CInt
import MiscCpp.Library.CaseLabels
import MiscCpp.Library.Machine

/-!
# Coroutines from macros

`utils/coroutine.h`: a function body between `scrBegin` and `scrFinish`, or between `ccrBegin` and
`ccrFinish`, is the statement of a `switch` on a line number, and `scrReturn` and `ccrReturn` leave
it at a `case` label (`MiscCpp.Library.CaseLabels`).

The static version keeps the line and the variables in the function. Its first calls return the
values of the generator that the body describes, and then the value of `scrFinish`
(`scrCalls_values`); `crFinish` of `putty_coroutine.cpp` and `duff_device.h` returns nothing.

The re-entrant version keeps them in a structure that it allocates and frees itself. Any number of
contexts may be in use: whatever the order of the calls, each of them is a **generator of its own**,
and memory is allocated for those that run and for nothing else (`exec_generators`). `ccrStop(z)`
frees the structure first, so that `z` must not use its variables.
-/

open CaseLabels Function Machine

namespace CoroutineMacros

variable {σ α : Type*} {body : Stmt σ α} {fuel n : ℕ}

/-! ### Static coroutines -/

/-- The static variables of a function. -/
structure Static (σ : Type*) where
  scrLine : ℕ
  vars : σ

/-- A call, with the value of `scrFinish` if it has one: to leave a function without a value is
undefined. At the end `scrLine` stays as it is. -/
def scrCall (fuel : ℕ) (body : Stmt σ α) (finish : Option (σ → α)) (f : Static σ) :
    Option (α × Static σ) :=
  match run fuel (enter body f.scrLine) f.vars with
  | .yielded label value vars _ => some (value, ⟨label, vars⟩)
  | .stopped value vars => (value (some vars)).map fun v ↦ (v, ⟨f.scrLine, vars⟩)
  | .finished vars => finish.map fun z ↦ (z vars, ⟨f.scrLine, vars⟩)
  | .undefined | .running => none

/-- The values of `n` calls. -/
def scrCalls (fuel : ℕ) (body : Stmt σ α) (finish : Option (σ → α)) :
    ℕ → Static σ → Option (List α)
  | 0, _ => some []
  | n + 1, f =>
    (scrCall fuel body finish f).bind fun (v, f) ↦
      (scrCalls fuel body finish n f).map (v :: ·)

/-- A generator that is asked for a value: it has `g.1` to do, and at its end it stays where it is.
-/
def ask (fuel : ℕ) (finish : Option (σ → α)) (g : List (Stmt σ α) × σ) :
    Option (α × List (Stmt σ α) × σ) :=
  match run fuel g.1 g.2 with
  | .yielded _ value vars rest => some (value, rest, vars)
  | .stopped value vars => (value (some vars)).map fun v ↦ (v, g.1, vars)
  | .finished vars => finish.map fun z ↦ (z vars, g.1, vars)
  | .undefined | .running => none

/-- A number of calls of one generator. -/
def asks (fuel : ℕ) (finish : Option (σ → α)) : ℕ → List (Stmt σ α) × σ → Option (List α)
  | 0, _ => some []
  | n + 1, g => (ask fuel finish g).bind fun (v, g) ↦ (asks fuel finish n g).map (v :: ·)

theorem scrCalls_eq_asks (h : Distinct body) (finish : Option (σ → α)) {f : Static σ}
    (hin : Inside body (enter body f.scrLine)) :
    scrCalls fuel body finish n f = asks fuel finish n (enter body f.scrLine, f.vars) := by
  induction n generalizing f with
  | zero => rfl
  | succ n ih =>
    rw [scrCalls, asks, scrCall, ask]
    dsimp only
    split
    next label value vars' rest hrun =>
      obtain ⟨hrest, heq⟩ := h.enter_eq hin hrun
      rw [Option.bind_some, Option.bind_some, ih (f := ⟨label, vars'⟩) (heq ▸ hrest), heq]
    next value vars' hrun =>
      rcases value (some vars') with - | v
      · rfl
      · rw [Option.map_some, Option.map_some, Option.bind_some, Option.bind_some,
          ih (f := ⟨_, vars'⟩) hin]
    next vars' hrun =>
      rcases finish with - | z
      · rfl
      · rw [Option.map_some, Option.map_some, Option.bind_some, Option.bind_some,
          ih (f := ⟨_, vars'⟩) hin]
    all_goals rfl

/-- **A static coroutine** gives the values of the generator that its body describes, for any body
with one `scrReturn` in a line and any number of calls. Behind its end it goes on from the last
`scrReturn` again. -/
theorem scrCalls_values (h : Distinct body) (finish : Option (σ → α)) (vars : σ) :
    scrCalls fuel body finish n ⟨0, vars⟩ = asks fuel finish n ([body], vars) :=
  scrCalls_eq_asks h finish (inside_self body)

/-- `for (i = 0; i < 10; i++) crReturn(i);` with `i` as the variables. -/
def functionBody (line : ℕ) : Stmt CInt CInt :=
  .seq (.act fun _ ↦ CInt.checked 0)
    (.loop (fun i ↦ decide (i.1 < 10)) (.seq (.yield line id) (.act CInt.incr)))

/-- `function` of `putty_coroutine.cpp`. -/
def function : Stmt CInt CInt := functionBody 12

/-- `duff_device_test_function` -/
def duffDeviceTestFunction : Stmt CInt CInt := functionBody 14

variable {line : ℕ}

theorem distinct_functionBody (hline : line ≠ 0) : Distinct (functionBody line) :=
  ⟨List.nodup_singleton line, mt List.mem_singleton.1 hline.symm⟩

/-- The third call of `function`. -/
theorem scrCalls_values_function :
    scrCalls 5 function none 3 ⟨0, CInt.wrap 0⟩ = asks 5 none 3 ([function], CInt.wrap 0) :=
  scrCalls_values (distinct_functionBody (by decide)) none (CInt.wrap 0)

example : (scrCalls 5 function none 10 ⟨0, CInt.wrap 7⟩).map (List.map Subtype.val) =
    some [0, 1, 2, 3, 4, 5, 6, 7, 8, 9] := by decide

example : scrCalls 5 duffDeviceTestFunction none 11 ⟨0, CInt.wrap 7⟩ = none := by decide

/-! ### Re-entrant coroutines -/

/-- `struct ccrContextTag` -/
structure Tag (σ : Type*) where
  ccrLine : ℕ
  vars : σ

variable {ι : Type*} [DecidableEq ι]

/-- The allocated structures by their address, the `ccrContext` variables of the callers, where `0`
is the null pointer, and the values that have been returned. -/
structure World (ι σ α : Type*) where
  heap : ℕ → Option (Tag σ)
  ctx : ι → ℕ
  log : List (ι × α)

/-- What a caller does. A call comes with the answer of `malloc` and what is in that memory, in case
it is asked for. -/
inductive Action (ι σ : Type*) where
  | call (i : ι) (malloc : Option ℕ) (garbage : σ)
  | abort (i : ι)

namespace World

variable (w : World ι σ α)

/-- `free(*ccrParam); *ccrParam = 0;`, undefined for memory that is not allocated. -/
def free (i : ι) : Option (World ι σ α) :=
  if w.ctx i = 0 then some w
  else (w.heap (w.ctx i)).map fun _ ↦
    { w with heap := update w.heap (w.ctx i) none, ctx := update w.ctx i 0 }

/-- `ccrBegin` up to the `switch`. If `malloc` fails, `x->ccrLine` is an access to the null pointer.
-/
def begin (i : ι) (malloc : Option ℕ) (garbage : σ) : Option (World ι σ α) :=
  if w.ctx i = 0 then
    malloc.map fun a ↦
      { w with heap := update w.heap a (some ⟨0, garbage⟩), ctx := update w.ctx i a }
  else some w

def give (i : ι) (v : α) : World ι σ α := { w with log := w.log ++ [(i, v)] }

/-- The `switch` of `ccrBegin` up to `ccrFinish(fin)`. `ccrStop(z)` frees the structure before it
reads `z`. -/
def switch (fuel : ℕ) (body : Stmt σ α) (fin : α) (i : ι) : Option (World ι σ α) :=
  (w.heap (w.ctx i)).bind fun x ↦
    match run fuel (enter body x.ccrLine) x.vars with
    | .yielded label value vars _ =>
      some ({ w with heap := update w.heap (w.ctx i) (some ⟨label, vars⟩) }.give i value)
    | .stopped value _ => (w.free i).bind fun w ↦ (value none).map (w.give i)
    | .finished _ => (w.free i).map (·.give i fin)
    | .undefined | .running => none

/-- A call of the function with `&z` for the variable `z` of `i`. -/
def call (fuel : ℕ) (body : Stmt σ α) (fin : α) (i : ι) (malloc : Option ℕ) (garbage : σ) :
    Option (World ι σ α) :=
  (w.begin i malloc garbage).bind (·.switch fuel body fin i)

def step (fuel : ℕ) (body : Stmt σ α) (fin : α) (w : World ι σ α) :
    Action ι σ → Option (World ι σ α)
  | .call i malloc garbage => w.call fuel body fin i malloc garbage
  | .abort i => w.free i

/-- `malloc` gives memory that is not in use. -/
def Fresh : Action ι σ → Prop
  | .call i malloc _ => w.ctx i = 0 → ∀ a ∈ malloc, a ≠ 0 ∧ w.heap a = none
  | .abort _ => True

instance (a : Action ι σ) : Decidable (w.Fresh a) :=
  match a with
  | .call i malloc _ =>
    inferInstanceAs (Decidable (w.ctx i = 0 → ∀ a ∈ malloc, a ≠ 0 ∧ w.heap a = none))
  | .abort _ => inferInstanceAs (Decidable True)

def initial : World ι σ α := ⟨fun _ ↦ none, fun _ ↦ 0, []⟩

end World

/-- A generator for each context that is in use, and the values they have given. -/
structure Generators (ι σ α : Type*) where
  gens : ι → Option (List (Stmt σ α) × σ)
  log : List (ι × α)

namespace Generators

variable (g : Generators ι σ α)

/-- The generator of `i` goes on with `k`. When it stops, its variables are gone before the value is
read. -/
def advance (fuel : ℕ) (fin : α) (i : ι) (k : List (Stmt σ α)) (vars : σ) :
    Option (Generators ι σ α) :=
  match run fuel k vars with
  | .yielded _ value vars rest =>
    some ⟨update g.gens i (some (rest, vars)), g.log ++ [(i, value)]⟩
  | .stopped value _ =>
    (value none).map fun v ↦ ⟨update g.gens i none, g.log ++ [(i, v)]⟩
  | .finished _ => some ⟨update g.gens i none, g.log ++ [(i, fin)]⟩
  | .undefined | .running => none

/-- A generator starts when there is none, and it ends with its body or when it is aborted. -/
def step (fuel : ℕ) (body : Stmt σ α) (fin : α) (g : Generators ι σ α) :
    Action ι σ → Option (Generators ι σ α)
  | .call i malloc garbage =>
    match g.gens i with
    | none => malloc.bind fun _ ↦ g.advance fuel fin i [body] garbage
    | some (k, vars) => g.advance fuel fin i k vars
  | .abort i => some { g with gens := update g.gens i none }

def initial : Generators ι σ α := ⟨fun _ ↦ none, []⟩

end Generators

/-- **The contexts are generators**: a variable that is not null points to a structure of its own,
whose line is where the generator goes on, and no other memory is allocated. -/
structure Rel (body : Stmt σ α) (w : World ι σ α) (g : Generators ι σ α) : Prop where
  log : w.log = g.log
  null : ∀ i, g.gens i = none → w.ctx i = 0
  tag : ∀ i k vars, g.gens i = some (k, vars) → w.ctx i ≠ 0 ∧
    ∃ line, w.heap (w.ctx i) = some ⟨line, vars⟩ ∧ enter body line = k ∧ Inside body k
  own : ∀ i j, w.ctx i ≠ 0 → w.ctx i = w.ctx j → i = j
  live : ∀ a, (w.heap a).isSome → ∃ i, w.ctx i = a ∧ (g.gens i).isSome

namespace Rel

variable {w : World ι σ α} {g : Generators ι σ α} {i : ι}

omit [DecidableEq ι] in
theorem give (h : Rel body w g) (i : ι) (v : α) :
    Rel body (w.give i v) ⟨g.gens, g.log ++ [(i, v)]⟩ :=
  ⟨congrArg (· ++ [(i, v)]) h.log, h.null, h.tag, h.own, h.live⟩

omit [DecidableEq ι] in
/-- A pointer that is in use is not the one of another variable. -/
theorem ne (h : Rel body w g) {j : ι} (hi : w.ctx i ≠ 0) (hj : j ≠ i) : w.ctx j ≠ w.ctx i :=
  fun heq ↦ hj (h.own j i (heq ▸ hi) heq)

/-- A structure that is in use is written. -/
theorem write (h : Rel body w g) {k rest : List (Stmt σ α)} {vars vars' : σ} {line : ℕ}
    (hi : g.gens i = some (k, vars)) (henter : enter body line = rest) (hrest : Inside body rest) :
    Rel body { w with heap := update w.heap (w.ctx i) (some ⟨line, vars'⟩) }
      { g with gens := update g.gens i (some (rest, vars')) } := by
  obtain ⟨hne0, -⟩ := h.tag i k vars hi
  refine ⟨h.log, fun j hj ↦ ?_, fun j k' vars'' hj ↦ ?_, h.own, fun a ha ↦ ?_⟩
  all_goals dsimp only at *
  · rcases eq_or_ne j i with rfl | hne
    · rw [update_self] at hj
      exact nomatch hj
    · rw [update_of_ne hne] at hj
      exact h.null j hj
  · rcases eq_or_ne j i with rfl | hne
    · rw [update_self] at hj
      cases hj
      exact ⟨hne0, line, update_self .., henter, hrest⟩
    · rw [update_of_ne hne] at hj
      obtain ⟨hj0, line', hline, henter'⟩ := h.tag j k' vars'' hj
      exact ⟨hj0, line', (update_of_ne (h.ne hne0 hne) _ _).trans hline, henter'⟩
  · rcases eq_or_ne a (w.ctx i) with rfl | hne
    · exact ⟨i, rfl, by rw [update_self]; rfl⟩
    · rw [update_of_ne hne] at ha
      obtain ⟨j, rfl, hj⟩ := h.live a ha
      refine ⟨j, rfl, ?_⟩
      rw [update_of_ne (fun heq ↦ hne (congrArg w.ctx heq))]
      exact hj

/-- The end of a generator frees its structure. -/
theorem free (h : Rel body w g) (i : ι) :
    ∃ w', w.free i = some w' ∧ Rel body w' { g with gens := update g.gens i none } := by
  rcases hi : g.gens i with - | ⟨k, vars⟩
  · refine ⟨w, if_pos (h.null i hi), ?_⟩
    rw [← hi, update_eq_self]
    exact h
  · obtain ⟨hne0, line, hline, -⟩ := h.tag i k vars hi
    refine ⟨{ w with heap := update w.heap (w.ctx i) none, ctx := update w.ctx i 0 }, ?_, ?_⟩
    · rw [World.free, if_neg hne0, hline, Option.map_some]
    · refine ⟨h.log, fun j hj ↦ ?_, fun j k' vars' hj ↦ ?_, fun j j' hj heq ↦ ?_, fun a ha ↦ ?_⟩
      all_goals dsimp only at *
      · rcases eq_or_ne j i with rfl | hne
        · exact update_self ..
        · rw [update_of_ne hne] at hj ⊢
          exact h.null j hj
      · rcases eq_or_ne j i with rfl | hne
        · rw [update_self] at hj
          exact nomatch hj
        · rw [update_of_ne hne] at hj ⊢
          obtain ⟨hj0, line', hline', henter'⟩ := h.tag j k' vars' hj
          exact ⟨hj0, line', (update_of_ne (h.ne hne0 hne) _ _).trans hline', henter'⟩
      · have hji : j ≠ i := by
          rintro rfl
          exact hj (update_self ..)
        rw [update_of_ne hji] at hj heq
        have hj'i : j' ≠ i := by
          rintro rfl
          rw [update_self] at heq
          exact hj heq
        rw [update_of_ne hj'i] at heq
        exact h.own j j' hj heq
      · have hai : a ≠ w.ctx i := by
          rintro rfl
          rw [update_self] at ha
          exact nomatch ha
        rw [update_of_ne hai] at ha
        obtain ⟨j, rfl, hj⟩ := h.live a ha
        have hji : j ≠ i := fun heq ↦ hai (congrArg w.ctx heq)
        exact ⟨j, update_of_ne hji _ _, by rw [update_of_ne hji]; exact hj⟩

/-- A generator starts with a structure that `malloc` gives. -/
theorem alloc (h : Rel body w g) {a : ℕ} (garbage : σ) (hi : g.gens i = none) (ha : a ≠ 0)
    (hfresh : w.heap a = none) :
    Rel body { w with heap := update w.heap a (some ⟨0, garbage⟩), ctx := update w.ctx i a }
      { g with gens := update g.gens i (some ([body], garbage)) } := by
  -- no variable points there
  have hunused (j : ι) : w.ctx j ≠ a := by
    rintro rfl
    rcases hj : g.gens j with - | ⟨k, vars⟩
    · exact ha (h.null j hj)
    · obtain ⟨-, line, hline, -⟩ := h.tag j k vars hj
      exact nomatch hfresh.symm.trans hline
  refine ⟨h.log, fun j hj ↦ ?_, fun j k' vars' hj ↦ ?_, fun j j' hj heq ↦ ?_, fun b hb ↦ ?_⟩
  all_goals dsimp only at *
  · rcases eq_or_ne j i with rfl | hne
    · rw [update_self] at hj
      exact nomatch hj
    · rw [update_of_ne hne] at hj ⊢
      exact h.null j hj
  · rcases eq_or_ne j i with rfl | hne
    · rw [update_self] at hj ⊢
      cases hj
      exact ⟨ha, 0, update_self .., if_pos rfl, inside_self body⟩
    · rw [update_of_ne hne] at hj ⊢
      obtain ⟨hj0, line', hline', henter'⟩ := h.tag j k' vars' hj
      exact ⟨hj0, line', (update_of_ne (hunused j) _ _).trans hline', henter'⟩
  · rcases eq_or_ne j i with rfl | hji
    · rcases eq_or_ne j' j with rfl | hne
      · rfl
      · rw [update_self, update_of_ne hne] at heq
        exact absurd heq.symm (hunused j')
    · rw [update_of_ne hji] at hj heq
      rcases eq_or_ne j' i with rfl | hne
      · rw [update_self] at heq
        exact absurd heq (hunused j)
      · rw [update_of_ne hne] at heq
        exact h.own j j' hj heq
  · rcases eq_or_ne b a with rfl | hne
    · exact ⟨i, update_self .., by rw [update_self]; rfl⟩
    · rw [update_of_ne hne] at hb
      obtain ⟨j, rfl, hj⟩ := h.live b hb
      have hji : j ≠ i := by
        rintro rfl
        rw [hi] at hj
        exact nomatch hj
      exact ⟨j, update_of_ne hji _ _, by rw [update_of_ne hji]; exact hj⟩

/-- **The switch** goes on as the generator does. -/
theorem switch (h : Rel body w g) (fuel : ℕ) (hdistinct : Distinct body) (fin : α)
    {k : List (Stmt σ α)} {vars : σ} (hi : g.gens i = some (k, vars)) :
    Option.Rel (Rel body) (w.switch fuel body fin i) (g.advance fuel fin i k vars) := by
  obtain ⟨-, line, hline, henter, hin⟩ := h.tag i k vars hi
  obtain ⟨w', hfree, hw'⟩ := h.free i
  rw [World.switch, Generators.advance, hline, Option.bind_some]
  dsimp only
  rw [henter, hfree]
  split
  next label value vars' rest hrun =>
    obtain ⟨hrest, heq⟩ := hdistinct.enter_eq hin hrun
    exact .some ((h.write hi heq hrest).give i value)
  next value _ _ =>
    rw [Option.bind_some]
    rcases value none with - | v
    · exact .none
    · exact .some (hw'.give i v)
  next => exact .some (hw'.give i fin)
  next => exact .none
  next => exact .none

/-- **A step** of a caller is one of its generator. -/
theorem step (h : Rel body w g) (fuel : ℕ) (hdistinct : Distinct body) (fin : α) {a : Action ι σ}
    (hfresh : w.Fresh a) :
    Option.Rel (Rel body) (w.step fuel body fin a) (g.step fuel body fin a) := by
  rcases a with ⟨i, malloc, garbage⟩ | i
  · rw [World.step, World.call, World.begin, Generators.step]
    rcases hi : g.gens i with - | ⟨k, vars⟩
    · have hnull := h.null i hi
      rw [if_pos hnull]
      rcases malloc with - | a
      · exact .none
      · obtain ⟨ha, hnone⟩ := hfresh hnull a rfl
        have hstart := (h.alloc garbage hi ha hnone).switch fuel hdistinct fin
          (update_self ..)
        rw [Generators.advance] at hstart
        dsimp only at hstart
        simp only [update_idem] at hstart
        exact hstart
    · rw [if_neg (h.tag i k vars hi).1]
      exact h.switch fuel hdistinct fin hi
  · obtain ⟨w', hfree, hw'⟩ := h.free i
    rw [World.step, hfree]
    exact .some hw'

/-- **Runs** of callers are runs of generators. -/
theorem exec (h : Rel body w g) (fuel : ℕ) (hdistinct : Distinct body) (fin : α)
    {as : List (Action ι σ)} (hfresh : Always (World.step fuel body fin) World.Fresh w as) :
    Option.Rel (Rel body) (exec (World.step fuel body fin) w as)
      (exec (Generators.step fuel body fin) g as) := by
  induction as generalizing w g with
  | nil => exact .some h
  | cons a as ih =>
    obtain ⟨ha, hrest⟩ := hfresh
    have hstep := h.step fuel hdistinct fin ha
    rw [exec_cons, exec_cons]
    rcases hw : w.step fuel body fin a with - | w' <;>
      rcases hg : g.step fuel body fin a with - | g'
    · exact .none
    · rw [hw, hg] at hstep
      exact nomatch hstep
    · rw [hw, hg] at hstep
      exact nomatch hstep
    · rw [hw, hg] at hstep
      rcases hstep with ⟨hstep⟩ | -
      exact ih hstep (hrest w' hw)

omit [DecidableEq ι] in
theorem initial (body : Stmt σ α) : Rel body (World.initial : World ι σ α) .initial :=
  ⟨rfl, fun _ _ ↦ rfl, fun _ _ _ h ↦ (nomatch h), fun _ _ h _ ↦ (absurd rfl h),
    fun _ h ↦ (nomatch h)⟩

end Rel

/-- **Re-entrant coroutines are generators**: in each run of callers, in whatever order they call
the function and abort it, every call is defined if the body is, returns the value of the caller's
own generator, and the memory that is allocated at the end is that of the generators that run. -/
theorem exec_generators (h : Distinct body) (fin : α) (as : List (Action ι σ))
    (hfresh : Always (World.step fuel body fin) World.Fresh World.initial as) :
    (exec (World.step fuel body fin) World.initial as).map World.log =
        (exec (Generators.step fuel body fin) Generators.initial as).map Generators.log ∧
      ∀ w g, exec (World.step fuel body fin) World.initial as = some w →
        exec (Generators.step fuel body fin) Generators.initial as = some g →
        ∀ a, (w.heap a).isSome ↔ ∃ i, w.ctx i = a ∧ (g.gens i).isSome := by
  have hexec := (Rel.initial (ι := ι) body).exec fuel h fin hfresh
  rcases hw : exec (World.step fuel body fin) World.initial as with - | w <;>
    rcases hg : exec (Generators.step fuel body fin) Generators.initial as with - | g
  · exact ⟨rfl, fun _ _ h ↦ nomatch h⟩
  · rw [hw, hg] at hexec
    exact nomatch hexec
  · rw [hw, hg] at hexec
    exact nomatch hexec
  · rw [hw, hg] at hexec
    rcases hexec with ⟨hrel⟩ | -
    refine ⟨congrArg some hrel.log, ?_⟩
    rintro w' g' ⟨⟩ ⟨⟩ a
    refine ⟨hrel.live a, ?_⟩
    rintro ⟨i, rfl, hi⟩
    obtain ⟨⟨k, vars⟩, hi⟩ := Option.isSome_iff_exists.1 hi
    obtain ⟨-, line, hline, -⟩ := hrel.tag i k vars hi
    rw [hline]
    rfl

/-- Two callers in turn, and one of them gives up. -/
def twoCallers : List (Action (Fin 2) CInt) :=
  [.call 0 (some 16) (CInt.wrap 5), .call 1 (some 32) (CInt.wrap 6), .call 0 none (CInt.wrap 0),
    .abort 1, .call 0 none (CInt.wrap 0), .call 1 (some 32) (CInt.wrap 7)]

theorem exec_generators_two :
    (exec (World.step 5 function (CInt.wrap (-1))) World.initial twoCallers).map World.log =
        (exec (Generators.step 5 function (CInt.wrap (-1))) Generators.initial twoCallers).map
          Generators.log ∧
      ∀ w g, exec (World.step 5 function (CInt.wrap (-1))) World.initial twoCallers = some w →
        exec (Generators.step 5 function (CInt.wrap (-1))) Generators.initial twoCallers = some g →
        ∀ a, (w.heap a).isSome ↔ ∃ i, w.ctx i = a ∧ (g.gens i).isSome :=
  exec_generators (distinct_functionBody (by decide)) (CInt.wrap (-1)) twoCallers (by decide)

/-- `ccrStop(foo->i)` -/
example : (World.initial : World (Fin 1) CInt CInt).call 5 (.stop id) (CInt.wrap (-1)) 0 (some 16)
    (CInt.wrap 5) = none := rfl

end CoroutineMacros
