import Mathlib.Data.List.Induction
import Mathlib.Data.List.Nodup
import Mathlib.Tactic.Common
import MiscCpp.Coroutine.Runtime

/-!
# The call stack of a thread

What `call_stack` is for is said by `Calls`: the coroutines that are active, innermost first, each
resumed by the one behind it in the list; a resume puts a coroutine in front, a yield drops the
first one. There is no bound on the nesting.

`Wf rt active` says that a runtime state lays out the list `active`: `call_stack` holds it, the
coroutine that runs is its first element, and every other coroutine that has started is suspended in
a context that holds its own registers. Every step keeps it, for the list the step leads to
(`Wf.step`), as long as a coroutine is not released or reset while it is active.

The array has 128 positions and `CoResume` does not look at the nesting depth. So the array keeps up
with `Calls` exactly as long as no more than 127 resumes are pending
(`callStackOk_iff`).
-/

open Function

namespace CoRoutine

/-! ### What one switch does -/

/-- The fields of a coroutine that switches do not write. -/
def Coroutine.fixed (x : Coroutine) : Bool × Bool × Bool × ℕ :=
  (x.start, x.isMain, x.isShareStack, x.stackMem)

namespace Runtime

/-- The parts of the state that no phase of `CoSwap` writes. -/
structure Keeps (rt rt' : Runtime) : Prop where
  callStack : rt'.env.callStack = rt.env.callStack
  callStackSize : rt'.env.callStackSize = rt.env.callStackSize
  nextCo : rt'.nextCo = rt.nextCo
  nextStack : rt'.nextStack = rt.nextStack
  share : rt'.share = rt.share
  cos : ∀ d, (rt'.cos d).map Coroutine.fixed = (rt.cos d).map Coroutine.fixed

theorem Keeps.refl (rt : Runtime) : Keeps rt rt := ⟨rfl, rfl, rfl, rfl, rfl, fun _ ↦ rfl⟩

theorem Keeps.trans {rt₁ rt₂ rt₃ : Runtime} (h : Keeps rt₁ rt₂) (h' : Keeps rt₂ rt₃) :
    Keeps rt₁ rt₃ :=
  ⟨h'.callStack.trans h.callStack, h'.callStackSize.trans h.callStackSize,
    h'.nextCo.trans h.nextCo, h'.nextStack.trans h.nextStack, h'.share.trans h.share,
    fun d ↦ (h'.cos d).trans (h.cos d)⟩

variable {rt rt' : Runtime} {curr pending d : CoId} {sp : ℕ} {x : Coroutine}

/-- Switching out saves the stack pointer; the bytes of the stack are noted as a history. -/
theorem switchOut_cases (h : rt.switchOut curr sp = some rt') :
    ∃ c, rt.cos curr = some c ∧
      rt' = { rt.setCo curr { c with stackSp := sp } with
        out := update rt.out curr (some (sp, (rt.stackMems c.stackMem).bytes)) } := by
  rw [switchOut] at h
  cases hc : rt.cos curr with
  | none => simp [hc] at h
  | some c => exact ⟨c, rfl, by simpa [hc] using h.symm⟩

/-- Saving a stack changes the saved part of its coroutine. -/
theorem stackBufferSave_cases (h : rt.stackBufferSave d = some rt') :
    ∃ x, rt.cos d = some x ∧ rt' = rt.setCo d (savedCo (rt.stackMems x.stackMem) x) := by
  rw [stackBufferSave] at h
  split at h
  · cases h
  next x hx => exact ⟨x, hx, (Option.some.inj h).symm⟩

/-- A coroutine with a stack of its own takes none; another one takes the shared stack. -/
theorem occupyStack_cases (h : rt.occupyStack pending = some rt') :
    ∃ p, rt.cos pending = some p ∧
      (p.isShareStack = false ∧
          rt' = { rt with env := { rt.env with pendingCo := none, occupyCo := none } } ∨
        p.isShareStack = true ∧ (∀ o, (rt.stackMems p.stackMem).occupyCo = some o → o = pending) ∧
          rt' = rt.takeStack pending p ∨
        p.isShareStack = true ∧ ∃ o, (rt.stackMems p.stackMem).occupyCo = some o ∧ o ≠ pending ∧
          (rt.takeStack pending p).stackBufferSave o = some rt') := by
  rw [occupyStack] at h
  split at h
  · cases h
  next p hp =>
    refine ⟨p, hp, ?_⟩
    split at h
    next hs =>
      split at h
      next o ho =>
        split at h
        next hop => exact .inr (.inr ⟨hs, o, ho, hop, h⟩)
        next hop =>
          refine .inr (.inl ⟨hs, fun o' ho' ↦ ?_, (Option.some.inj h).symm⟩)
          rw [ho] at ho'
          exact Option.some.inj ho' ▸ not_not.1 hop
      next ho =>
        refine .inr (.inl ⟨hs, fun o' ho' ↦ ?_, (Option.some.inj h).symm⟩)
        rw [ho] at ho'
        cases ho'
    next hs => exact .inl ⟨Bool.not_eq_true _ ▸ hs, (Option.some.inj h).symm⟩

/-- The restore step changes nothing, or copies the saved contents of the pending coroutine. -/
theorem restoreStack_cases (h : rt.restoreStack = some rt') :
    rt' = rt ∨ ∃ o c p buf, rt.env.occupyCo = some o ∧ rt.env.pendingCo = some c ∧ o ≠ c ∧
      rt.cos c = some p ∧ p.saveBuffer = some buf ∧ 0 < p.saveSize ∧
      rt' = rt.setStack p.stackMem (copyBack (rt.stackMems p.stackMem) p buf) := by
  rw [restoreStack] at h
  split at h
  next o c ho hc =>
    split at h
    next hoc =>
      split at h
      · cases h
      next p hp =>
        split at h
        next buf hbuf =>
          split at h
          next hpos =>
            exact .inr ⟨o, c, p, buf, ho, hc, hoc, hp, hbuf, hpos, (Option.some.inj h).symm⟩
          next => exact .inl (Option.some.inj h).symm
        next => exact .inl (Option.some.inj h).symm
    next => exact .inl (Option.some.inj h).symm
  next => exact .inl (Option.some.inj h).symm

/-- The registers of the one coroutine are saved, and those of the other one loaded. -/
theorem coCtxSwap_cases (h : rt.coCtxSwap curr pending = some rt') :
    ∃ c p, rt.cos curr = some c ∧ (rt.saveCtx curr c).cos pending = some p ∧
      (rt.saveCtx curr c).loadCtx p.ctx = some rt' := by
  rw [coCtxSwap] at h
  split at h
  · cases h
  next c hc =>
    split at h
    · cases h
    next p hp => exact ⟨c, p, hc, hp, h⟩

/-- Loading the registers enters a coroutine or goes on where it was switched out. -/
theorem loadCtx_cases {ctx : CoCtx} (h : rt.loadCtx ctx = some rt') :
    ∃ co, ctx = .entry co ∧ rt' = { rt with running := co } ∨
      ctx = .saved co ∧ { rt with running := co }.restoreStack = some rt' := by
  cases ctx with
  | zeroed => cases h
  | entry co => exact ⟨co, .inl ⟨rfl, (Option.some.inj h).symm⟩⟩
  | saved co => exact ⟨co, .inr ⟨rfl, h⟩⟩

/-! The effect of each phase on the fields the call stack depends on. -/

/-- A write to a coroutine that leaves its fixed fields keeps the runtime. -/
theorem setCo_keeps (hx : rt.cos d = some x) {y : Coroutine} (hy : y.fixed = x.fixed) :
    Keeps rt (rt.setCo d y) := by
  refine ⟨rfl, rfl, rfl, rfl, rfl, fun e ↦ ?_⟩
  rcases eq_or_ne e d with rfl | he
  · simp [setCo, hx, hy]
  · simp [setCo, he]

/-- The context of a coroutine. -/
def ctxOf (rt : Runtime) (d : CoId) : Option CoCtx := (rt.cos d).map Coroutine.ctx

/-- A write to a coroutine changes its own registers only. -/
theorem ctxOf_setCo (e : CoId) (y : Coroutine) :
    (rt.setCo d y).ctxOf e = if e = d then some y.ctx else rt.ctxOf e := by
  rcases eq_or_ne e d with rfl | he
  · simp [ctxOf, setCo]
  · simp [ctxOf, setCo, he]

theorem ctxOf_eq (hx : rt.cos d = some x) : rt.ctxOf d = some x.ctx := by
  rw [ctxOf, hx, Option.map_some]

/-- A rewrite of a record that keeps the context keeps all contexts. -/
theorem ctxOf_setCo_of_eq (hx : rt.cos d = some x) {y : Coroutine} (hy : y.ctx = x.ctx) :
    (rt.setCo d y).ctxOf = rt.ctxOf := by
  funext e
  rw [ctxOf_setCo]
  split
  next he => rw [he, ctxOf_eq hx, hy]
  next => rfl

/-- Switching out touches neither registers nor stacks. -/
theorem switchOut_spec (h : rt.switchOut curr sp = some rt') :
    Keeps rt rt' ∧ rt'.ctxOf = rt.ctxOf ∧ rt'.running = rt.running ∧
      rt'.stackMems = rt.stackMems := by
  obtain ⟨c, hc, rfl⟩ := switchOut_cases h
  have hk := setCo_keeps hc (y := { c with stackSp := sp }) rfl
  exact ⟨⟨rfl, rfl, rfl, rfl, rfl, hk.cos⟩, ctxOf_setCo_of_eq hc rfl, rfl, rfl⟩

/-- Saving a stack touches neither registers nor stacks. -/
theorem stackBufferSave_spec (h : rt.stackBufferSave d = some rt') :
    Keeps rt rt' ∧ rt'.ctxOf = rt.ctxOf ∧ rt'.running = rt.running ∧ rt'.stackMems = rt.stackMems ∧
      rt'.env = rt.env := by
  obtain ⟨x, hx, rfl⟩ := stackBufferSave_cases h
  exact ⟨setCo_keeps hx rfl, ctxOf_setCo_of_eq hx rfl, rfl, rfl, rfl⟩

/-- The occupant of a stack memory after `pending` was given its stack. -/
def occupantAfter (rt : Runtime) (pending : CoId) (p : Coroutine) (m : ℕ) : Option CoId :=
  if p.isShareStack = true ∧ m = p.stackMem then some pending else (rt.stackMems m).occupyCo

/-- Taking a shared stack makes its coroutine the occupant. -/
theorem takeStack_spec (rt : Runtime) (pending : CoId) (p : Coroutine)
    (hs : p.isShareStack = true) :
    Keeps rt (rt.takeStack pending p) ∧
      ∀ m, ((rt.takeStack pending p).stackMems m).occupyCo = rt.occupantAfter pending p m := by
  refine ⟨⟨rfl, rfl, rfl, rfl, rfl, fun _ ↦ rfl⟩, fun m ↦ ?_⟩
  rcases eq_or_ne m p.stackMem with rfl | hm
  · simp [takeStack, setStack, occupantAfter, hs]
  · simp [takeStack, setStack, occupantAfter, hm]

/-- After the stacks are switched, the pending coroutine occupies its shared stack, if it has
one. -/
theorem occupyStack_spec (h : rt.occupyStack pending = some rt') :
    ∃ p, rt.cos pending = some p ∧ Keeps rt rt' ∧ rt'.ctxOf = rt.ctxOf ∧
      rt'.running = rt.running ∧
      ∀ m, (rt'.stackMems m).occupyCo = rt.occupantAfter pending p m := by
  obtain ⟨p, hp, ⟨hs, rfl⟩ | ⟨hs, -, rfl⟩ | ⟨hs, o, -, -, ho⟩⟩ := occupyStack_cases h
  · exact ⟨p, hp, ⟨rfl, rfl, rfl, rfl, rfl, fun _ ↦ rfl⟩, rfl, rfl,
      fun m ↦ by simp [occupantAfter, hs]⟩
  · obtain ⟨hk, hocc⟩ := takeStack_spec rt pending p hs
    exact ⟨p, hp, hk, rfl, rfl, hocc⟩
  · obtain ⟨hk, hocc⟩ := takeStack_spec rt pending p hs
    obtain ⟨hk', hctx, hrun, hst, -⟩ := stackBufferSave_spec ho
    exact ⟨p, hp, hk.trans hk', hctx, hrun, fun m ↦ by rw [hst, hocc]⟩

/-- Restoring a stack writes its bytes only. -/
theorem restoreStack_spec (h : rt.restoreStack = some rt') :
    Keeps rt rt' ∧ rt'.cos = rt.cos ∧ rt'.running = rt.running ∧ rt'.out = rt.out ∧
      ∀ m, (rt'.stackMems m).occupyCo = (rt.stackMems m).occupyCo := by
  obtain rfl | ⟨o, c, p, buf, -, -, -, -, -, -, rfl⟩ := restoreStack_cases h
  · exact ⟨.refl _, rfl, rfl, rfl, fun _ ↦ rfl⟩
  · refine ⟨⟨rfl, rfl, rfl, rfl, rfl, fun _ ↦ rfl⟩, rfl, rfl, rfl, fun m ↦ ?_⟩
    rcases eq_or_ne m p.stackMem with rfl | hm
    · simp [setStack, copyBack]
    · simp [setStack, hm]

/-- `co_ctx_swap` stores the registers of the running body in `curr`, and goes on with the body
whose registers the context of `pending` then holds. -/
theorem coCtxSwap_spec (h : rt.coCtxSwap curr pending = some rt') :
    Keeps rt rt' ∧ (∃ c, rt.cos curr = some c) ∧
      (∀ d, rt'.ctxOf d = if d = curr then some (.saved rt.running) else rt.ctxOf d) ∧
      (rt'.ctxOf pending = some (.entry rt'.running) ∨
        rt'.ctxOf pending = some (.saved rt'.running)) ∧
      ∀ m, (rt'.stackMems m).occupyCo = (rt.stackMems m).occupyCo := by
  obtain ⟨c, p, hc, hp, hload⟩ := coCtxSwap_cases h
  have hk : Keeps rt (rt.saveCtx curr c) := setCo_keeps hc rfl
  obtain ⟨co, ⟨hctx, rfl⟩ | ⟨hctx, hres⟩⟩ := loadCtx_cases hload
  · refine ⟨⟨rfl, rfl, rfl, rfl, rfl, hk.cos⟩, ⟨c, hc⟩,
      fun d ↦ ctxOf_setCo d _, .inl ?_, fun m ↦ rfl⟩
    exact (ctxOf_eq hp).trans (congrArg some hctx)
  · obtain ⟨hk', hcos, hrun, -, hocc⟩ := restoreStack_spec hres
    have hsave : Keeps rt { rt.saveCtx curr c with running := co } :=
      ⟨rfl, rfl, rfl, rfl, rfl, hk.cos⟩
    have hctxOf : rt'.ctxOf = (rt.saveCtx curr c).ctxOf := by
      funext d
      rw [ctxOf, hcos]
      rfl
    refine ⟨hsave.trans hk', ⟨c, hc⟩, fun d ↦ ?_, .inr ?_, hocc⟩
    · rw [hctxOf]
      exact ctxOf_setCo d _
    · rw [hctxOf, hrun, ctxOf_eq hp, hctx]

/-- **One switch**, as far as the call stack and the contexts are concerned. -/
theorem coSwap_spec (h : rt.coSwap curr pending sp = some rt') :
    Keeps rt rt' ∧ (∃ c, rt.cos curr = some c) ∧
      (∀ d, rt'.ctxOf d = if d = curr then some (.saved rt.running) else rt.ctxOf d) ∧
      (rt'.ctxOf pending = some (.entry rt'.running) ∨
        rt'.ctxOf pending = some (.saved rt'.running)) ∧
      ∃ p, rt.cos pending = some p ∧
        ∀ m, (rt'.stackMems m).occupyCo = rt.occupantAfter pending p m := by
  rw [coSwap, Option.bind_eq_some_iff] at h
  obtain ⟨rt₁, h₁, h⟩ := h
  rw [Option.bind_eq_some_iff] at h
  obtain ⟨rt₂, h₂, h₃⟩ := h
  obtain ⟨c, hc, -⟩ := switchOut_cases h₁
  obtain ⟨hk₁, hctx₁, hrun₁, hst₁⟩ := switchOut_spec h₁
  obtain ⟨p₁, hp₁, hk₂, hctx₂, hrun₂, hocc₂⟩ := occupyStack_spec h₂
  obtain ⟨hk₃, -, hctx₃, hrun₃, hocc₃⟩ := coCtxSwap_spec h₃
  refine ⟨(hk₁.trans hk₂).trans hk₃, ⟨c, hc⟩, fun d ↦ ?_, hrun₃, ?_⟩
  · rw [hctx₃, hctx₂, hctx₁, hrun₂, hrun₁]
  · -- The record of the pending coroutine may have been written by `switchOut`, not its stack.
    have hfixed := hk₁.cos pending
    cases hp : rt.cos pending with
    | none => simp [hp₁, hp] at hfixed
    | some p =>
      refine ⟨p, rfl, fun m ↦ ?_⟩
      have heq : p₁.fixed = p.fixed := by simpa [hp₁, hp] using hfixed
      simp only [Coroutine.fixed, Prod.mk.injEq] at heq
      rw [hocc₃, hocc₂]
      simp only [occupantAfter, heq, hst₁]

/-! ### When a switch is defined -/

/-- The same coroutines are there. -/
theorem Keeps.isSome (hk : Keeps rt rt') (d : CoId) : (rt'.cos d).isSome = (rt.cos d).isSome := by
  have := congrArg Option.isSome (hk.cos d)
  simpa using this

/-- The fixed fields are the ones before the step. -/
theorem Keeps.map_fixed (hk : Keeps rt rt') {x' : Coroutine} (hx' : rt'.cos d = some x') :
    ∃ x, rt.cos d = some x ∧ x'.start = x.start ∧ x'.isMain = x.isMain ∧
      x'.isShareStack = x.isShareStack ∧ x'.stackMem = x.stackMem := by
  have h := hk.cos d
  cases hx : rt.cos d with
  | none => simp [hx, hx'] at h
  | some x => exact ⟨x, rfl, by simpa [hx, hx', Coroutine.fixed] using h⟩

/-- The fixed fields are the ones after the step. -/
theorem Keeps.map_fixed' (hk : Keeps rt rt') (hx : rt.cos d = some x) :
    ∃ x', rt'.cos d = some x' ∧ x'.start = x.start ∧ x'.isMain = x.isMain ∧
      x'.isShareStack = x.isShareStack ∧ x'.stackMem = x.stackMem := by
  obtain ⟨x', hx'⟩ := Option.isSome_iff_exists.1 ((hk.isSome d).trans (by rw [hx]; rfl))
  obtain ⟨y, hy, h⟩ := hk.map_fixed hx'
  rw [hx] at hy
  exact ⟨x', hx', Option.some.inj hy ▸ h⟩

/-- Every occupant of a stack memory exists. -/
def OccupantsExist (rt : Runtime) : Prop :=
  ∀ m o, (rt.stackMems m).occupyCo = some o → (rt.cos o).isSome

/-- Switching the stacks is defined when the coroutines are there. -/
theorem occupyStack_defined (hp : (rt.cos pending).isSome) (hocc : rt.OccupantsExist) :
    ∃ rt', rt.occupyStack pending = some rt' ∧
      ∀ c, rt'.env.pendingCo = some c → c = pending := by
  obtain ⟨p, hp⟩ := Option.isSome_iff_exists.1 hp
  rw [occupyStack, hp]
  dsimp only
  split
  next =>
    split
    next o ho =>
      split
      next =>
        obtain ⟨x, hx⟩ := Option.isSome_iff_exists.1 (hocc _ o ho)
        obtain ⟨rt', h'⟩ : ∃ rt', (rt.takeStack pending p).stackBufferSave o = some rt' := by
          rw [stackBufferSave, show (rt.takeStack pending p).cos o = some x from hx]
          exact ⟨_, rfl⟩
        refine ⟨rt', h', fun c hc ↦ ?_⟩
        rw [(stackBufferSave_spec h').2.2.2.2] at hc
        exact (Option.some.inj hc).symm
      next => exact ⟨_, rfl, fun c hc ↦ (Option.some.inj hc).symm⟩
    next => exact ⟨_, rfl, fun c hc ↦ (Option.some.inj hc).symm⟩
  next => exact ⟨_, rfl, fun c hc ↦ by simp at hc⟩

/-- Restoring a stack is defined when its coroutine is there. -/
theorem restoreStack_defined (h : ∀ c, rt.env.pendingCo = some c → (rt.cos c).isSome) :
    (rt.restoreStack).isSome := by
  rw [restoreStack]
  split
  next o c _ hc =>
    obtain ⟨p, hp⟩ := Option.isSome_iff_exists.1 (h c hc)
    split
    · rw [hp]
      dsimp only
      split
      · split <;> rfl
      · rfl
    · rfl
  next => rfl

/-- A switch is defined between coroutines that exist, to one whose context holds registers. -/
theorem coSwap_defined (hc : (rt.cos curr).isSome) (hp : (rt.cos pending).isSome)
    (hocc : rt.OccupantsExist)
    (hctx : pending ≠ curr → ∃ co, rt.ctxOf pending = some (.entry co) ∨
      rt.ctxOf pending = some (.saved co)) (sp : ℕ) :
    ∃ rt', rt.coSwap curr pending sp = some rt' := by
  obtain ⟨c, hc⟩ := Option.isSome_iff_exists.1 hc
  obtain ⟨rt₁, h₁⟩ : ∃ rt₁, rt.switchOut curr sp = some rt₁ := by simp [switchOut, hc]
  obtain ⟨hk₁, hctx₁, -, hst₁⟩ := switchOut_spec h₁
  have hocc₁ : rt₁.OccupantsExist := fun m o ho ↦ by
    rw [hk₁.isSome]
    exact hocc m o (hst₁ ▸ ho)
  obtain ⟨rt₂, h₂, hpend⟩ := occupyStack_defined (hk₁.isSome pending ▸ hp) hocc₁
  obtain ⟨-, -, hk₂, hctx₂, -, -⟩ := occupyStack_spec h₂
  have hk := hk₁.trans hk₂
  have hctxOf : rt₂.ctxOf = rt.ctxOf := hctx₂.trans hctx₁
  obtain ⟨c₂, hc₂⟩ : ∃ c₂, rt₂.cos curr = some c₂ :=
    Option.isSome_iff_exists.1 ((hk.isSome curr).trans (by rw [hc]; rfl))
  have hks : Keeps rt₂ (rt₂.saveCtx curr c₂) := setCo_keeps hc₂ rfl
  obtain ⟨p, hp'⟩ : ∃ p, (rt₂.saveCtx curr c₂).cos pending = some p :=
    Option.isSome_iff_exists.1 (((hk.trans hks).isSome pending).trans hp)
  -- The context of the pending coroutine holds registers: its own, or those just saved.
  have hregs : ∃ co, p.ctx = .entry co ∨ p.ctx = .saved co := by
    have hp'' := ctxOf_eq hp'
    rw [saveCtx, ctxOf_setCo, hctxOf] at hp''
    split at hp''
    next => exact ⟨_, .inr (Option.some.inj hp'').symm⟩
    next hne =>
      obtain ⟨co, hco⟩ := hctx hne
      rw [hp''] at hco
      exact ⟨co, hco.imp Option.some.inj Option.some.inj⟩
  obtain ⟨co, hco⟩ := hregs
  rw [coSwap, h₁, Option.bind_some, h₂, Option.bind_some]
  rw [coCtxSwap, hc₂]
  dsimp only
  rw [hp']
  dsimp only
  obtain hco | hco := hco <;> rw [hco]
  · exact ⟨_, rfl⟩
  · refine Option.isSome_iff_exists.1 (restoreStack_defined fun d hd ↦ ?_)
    rw [hpend d hd]
    exact ((hk.trans hks).isSome pending).trans hp

end Runtime

/-! ### States that lay out a list of active coroutines -/

open CoRoutine.Runtime

/-- The call stack holds the coroutines `active`, innermost first, and the records of the coroutines
and of the occupants of the stack memories are in order. -/
structure Laid (rt : Runtime) (active : List CoId) : Prop where
  size_eq : rt.env.callStackSize = active.length
  slot_eq : ∀ i, i < active.length → rt.env.callStack i = active.reverse[i]?
  le_limit : active.length ≤ callStackLimit
  main : active.getLast? = some 0
  exists_of_mem : ∀ c ∈ active, (rt.cos c).isSome
  started : ∀ c ∈ active, ∀ x, rt.cos c = some x → x.isShareStack = true → x.start = true
  lt_next : ∀ c x, rt.cos c = some x → c < rt.nextCo
  occupant : ∀ m o, (rt.stackMems m).occupyCo = some o →
    ∃ x, rt.cos o = some x ∧ x.start = true ∧ x.isShareStack = true ∧ x.stackMem = m

/-- Between two steps the innermost coroutine runs, and the context of every other coroutine that
has started, or is active, holds its own registers. -/
structure Wf (rt : Runtime) (active : List CoId) : Prop extends Laid rt active where
  running_eq : active.head? = some rt.running
  saved : ∀ c x, rt.cos c = some x → c ≠ rt.running → x.start = true ∨ c ∈ active →
    x.ctx = .saved c

variable {rt rt' : Runtime} {active : List CoId} {c co : CoId} {x : Coroutine} {sp : ℕ}

/-- At the start the main coroutine runs alone. -/
theorem wf_initial (share : ShareStack) (coFunc : ℕ) (buffer : ℕ → ℕ) (mainBuffer : ℕ) :
    Wf (initial share coFunc buffer mainBuffer) [0] where
  size_eq := rfl
  slot_eq i hi := by
    obtain rfl : i = 0 := by simpa using hi
    rfl
  le_limit := by decide
  main := rfl
  exists_of_mem c hc := by
    obtain rfl := List.mem_singleton.1 hc
    rfl
  started c hc x hx hs := by
    obtain rfl := List.mem_singleton.1 hc
    cases hx
    cases hs
  lt_next c x hx := by
    simp only [initial] at hx ⊢
    by_cases hc : c = 0
    · exact hc ▸ Nat.zero_lt_one
    · simp [hc] at hx
  occupant m o ho := by
    simp only [initial] at ho
    split at ho <;> cases ho
  running_eq := rfl
  saved c x hx hc h := by
    simp only [initial] at hx hc
    simp [hc] at hx

/-- Every occupant of a stack is a coroutine that is there. -/
theorem Laid.occupantsExist (L : Laid rt active) : rt.OccupantsExist := fun m o ho ↦ by
  obtain ⟨x, hx, -⟩ := L.occupant m o ho
  rw [hx]
  rfl

/-- The entries of `call_stack`, counted from the top. -/
theorem Laid.callAt (L : Laid rt active) {k : ℕ} (hk : k < active.length) :
    rt.env.callAt (rt.env.callStackSize - (k + 1)) = active[k]? := by
  have hlim := L.le_limit
  have hidx : ((rt.env.callStackSize : ℤ) - (k + 1)).toNat = active.length - 1 - k := by
    rw [L.size_eq]; omega
  rw [CoEnv.callAt, if_pos (by rw [L.size_eq]; omega), hidx, L.slot_eq _ (by omega),
    List.getElem?_reverse (by omega)]
  congr 1
  omega

/-- Below the bottom of the call stack there is nothing to read. -/
theorem Laid.callAt_below (L : Laid rt active) {k : ℕ} (hk : active.length ≤ k) :
    rt.env.callAt (rt.env.callStackSize - (k + 1)) = none := by
  rw [CoEnv.callAt, if_neg (by rw [L.size_eq]; omega)]

/-- The running coroutine is on top of the call stack. -/
theorem Wf.eq_cons (W : Wf rt active) : ∃ rest, active = rt.running :: rest := by
  have h := W.running_eq
  cases active with
  | nil => cases h
  | cons a rest => exact ⟨rest, by rw [Option.some.inj h]⟩

theorem Wf.running_mem (W : Wf rt active) : rt.running ∈ active := by
  obtain ⟨rest, h⟩ := W.eq_cons
  simp [h]

/-- `call_stack[call_stack_size - 1]` is the coroutine that runs. -/
theorem Wf.callAt_top (W : Wf rt active) :
    rt.env.callAt (rt.env.callStackSize - 1) = some rt.running := by
  obtain ⟨rest, h⟩ := W.eq_cons
  have := W.callAt (k := 0) (by simp [h])
  simpa [h] using this

/-! ### What the steps do to the list -/

/-- A switch to the first coroutine of the list, from the coroutine that runs. -/
theorem Laid.coSwap (L : Laid rt active) (hhead : active.head? = some co)
    (hsaved : ∀ c x, rt.cos c = some x → c ≠ rt.running → x.start = true ∨ c ∈ active →
      x.ctx = .saved c ∨ c = co ∧ x.ctx = .entry co)
    (h : rt.coSwap rt.running co sp = some rt') : Wf rt' active ∧ rt'.running = co := by
  obtain ⟨hk, -, hctx, hrun, p, hp, hocc⟩ := coSwap_spec h
  have hmem : co ∈ active := List.mem_of_head? hhead
  have hrunning : rt'.running = co := by
    have hco := hctx co
    split at hco
    next hcr =>
      rw [hco] at hrun
      simpa [hcr, eq_comm] using hrun
    next hcr =>
      rw [ctxOf_eq hp] at hco
      rw [hco] at hrun
      rcases hsaved co p hp hcr (.inr hmem) with hs | ⟨-, hs⟩ <;> simpa [hs, eq_comm] using hrun
  refine ⟨⟨⟨?_, ?_, L.le_limit, L.main, ?_, ?_, ?_, ?_⟩, ?_, ?_⟩, hrunning⟩
  · rw [hk.callStackSize, L.size_eq]
  · rw [hk.callStack]
    exact L.slot_eq
  · exact fun c hc ↦ (hk.isSome c).trans (L.exists_of_mem c hc)
  · intro c hc x' hx' hs
    obtain ⟨x, hx, hst, -, hsh, -⟩ := hk.map_fixed hx'
    rw [hst]
    exact L.started c hc x hx (hsh ▸ hs)
  · intro c x' hx'
    obtain ⟨x, hx, -⟩ := hk.map_fixed hx'
    rw [hk.nextCo]
    exact L.lt_next c x hx
  · intro m o ho
    rw [hocc, occupantAfter] at ho
    split at ho
    next hm =>
      obtain rfl := Option.some.inj ho
      obtain ⟨x', hx', hst, -, hsh, hmem'⟩ := hk.map_fixed' hp
      exact ⟨x', hx', hst.trans (L.started co hmem p hp hm.1), hsh.trans hm.1,
        hmem'.trans hm.2.symm⟩
    next =>
      obtain ⟨x, hx, hst, hsh, hm⟩ := L.occupant m o ho
      obtain ⟨x', hx', hst', -, hsh', hm'⟩ := hk.map_fixed' hx
      exact ⟨x', hx', hst'.trans hst, hsh'.trans hsh, hm'.trans hm⟩
  · rw [hrunning, hhead]
  · intro c x' hx' hc h
    obtain ⟨x, hx, hst, -⟩ := hk.map_fixed hx'
    have hc' := hctx c
    rw [ctxOf_eq hx', ctxOf_eq hx] at hc'
    split at hc'
    next hcr => rw [Option.some.inj hc', hcr]
    next hcr =>
      rw [Option.some.inj hc']
      rcases hsaved c x hx hcr (hst ▸ h) with hs | ⟨hs, -⟩
      · exact hs
      · exact absurd (hs.trans hrunning.symm) hc

/-! `CoResume` and `CoYield`: the state at the entry of `CoSwap`. -/

/-- Starting a coroutine changes neither the call stack nor the occupants of the stacks. -/
theorem startCo_fields (rt : Runtime) (co : CoId) (x : Coroutine) :
    (rt.startCo co x).env = rt.env ∧ (rt.startCo co x).nextCo = rt.nextCo ∧
      (rt.startCo co x).running = rt.running ∧
      ∀ m, ((rt.startCo co x).stackMems m).occupyCo = (rt.stackMems m).occupyCo := by
  rw [startCo]
  split
  · exact ⟨rfl, rfl, rfl, fun _ ↦ rfl⟩
  · refine ⟨rfl, rfl, rfl, fun m ↦ ?_⟩
    rcases eq_or_ne m x.stackMem with rfl | hm
    · simp [coCtxMake, setStack, setCo]
    · simp [coCtxMake, setStack, setCo, hm]

/-- `CoResume` touches the record of the resumed coroutine only, and leaves it started. -/
theorem startCo_cos (hx : rt.cos co = some x) :
    (∀ d, d ≠ co → (rt.startCo co x).cos d = rt.cos d) ∧
      ∃ y, (rt.startCo co x).cos co = some y ∧ y.start = true ∧
        y.isShareStack = x.isShareStack ∧ y.stackMem = x.stackMem ∧
        y.ctx = if x.start then x.ctx else .entry co := by
  rw [startCo]
  split
  next hs => exact ⟨fun _ _ ↦ rfl, x, hx, hs, rfl, rfl, by simp⟩
  next hs =>
    exact ⟨fun d hd ↦ by simp [coCtxMake, setCo, setStack, hd],
      { x with ctx := .entry co, start := true }, by simp [coCtxMake, setCo], rfl, rfl, rfl,
      by simp⟩

/-- `CoResume` is a switch to the resumed coroutine, from the coroutine that runs, with the resumed
coroutine on the call stack. -/
theorem coResume_eq_some (W : Wf rt active) :
    rt.coResume co sp = some rt' ↔ ∃ x, rt.cos co = some x ∧ active.length < callStackLimit ∧
      ((rt.startCo co x).pushed co).coSwap rt.running co sp = some rt' := by
  rw [coResume, W.callAt_top]
  cases hx : rt.cos co with
  | none => simp
  | some x =>
    simp only [pushCall, (startCo_fields rt co x).1, W.size_eq, Option.some.injEq,
      exists_eq_left']
    split
    next h => simp [h]
    next h => simp [h]

/-- After the push the call stack has one coroutine more. -/
theorem Wf.laid_pushed (W : Wf rt active) (hx : rt.cos co = some x)
    (hlim : active.length < callStackLimit) :
    Laid ((rt.startCo co x).pushed co) (co :: active) := by
  obtain ⟨henv, hnext, -, hocc⟩ := startCo_fields rt co x
  obtain ⟨hother, y, hy, hstart, hshare, hmem, -⟩ := startCo_cos hx
  refine ⟨?_, fun i hi ↦ ?_, hlim, ?_, fun c hc ↦ ?_, fun c hc z hz hs ↦ ?_, fun c z hz ↦ ?_,
    fun m o ho ↦ ?_⟩
  · simp [pushed, henv, W.size_eq]
  · simp only [pushed, henv, W.size_eq, List.reverse_cons]
    rcases Nat.lt_succ_iff_lt_or_eq.1 hi with hi | rfl
    · rw [update_of_ne (Nat.ne_of_lt hi), W.slot_eq i hi,
        List.getElem?_append_left (by simpa using hi)]
    · simp
  · obtain ⟨rest, h⟩ := W.eq_cons
    rw [← W.main, h, List.getLast?_cons_cons]
  · change ((rt.startCo co x).cos c).isSome
    rcases eq_or_ne c co with rfl | h
    · rw [hy]; rfl
    · rw [hother c h]
      exact W.exists_of_mem c (List.mem_of_ne_of_mem h hc)
  · change (rt.startCo co x).cos c = some z at hz
    rcases eq_or_ne c co with rfl | h
    · rw [hy] at hz
      exact Option.some.inj hz ▸ hstart
    · rw [hother c h] at hz
      exact W.started c (List.mem_of_ne_of_mem h hc) z hz hs
  · change (rt.startCo co x).cos c = some z at hz
    change c < (rt.startCo co x).nextCo
    rw [hnext]
    rcases eq_or_ne c co with rfl | h
    · exact W.lt_next c x hx
    · exact W.lt_next c z (hother c h ▸ hz)
  · change ((rt.startCo co x).stackMems m).occupyCo = some o at ho
    change ∃ z, (rt.startCo co x).cos o = some z ∧ _
    rw [hocc] at ho
    obtain ⟨z, hz, hst, hsh, hm⟩ := W.occupant m o ho
    rcases eq_or_ne o co with rfl | h
    · rw [hx] at hz
      obtain rfl := Option.some.inj hz
      exact ⟨y, hy, hstart, hshare.trans hsh, hmem.trans hm⟩
    · exact ⟨z, (hother o h).trans hz, hst, hsh, hm⟩

/-- After the push every coroutine but the running one is saved, or at its entry if it is the new
one. -/
theorem Wf.saved_pushed (W : Wf rt active) (hx : rt.cos co = some x) (c : CoId) (z : Coroutine)
    (hz : ((rt.startCo co x).pushed co).cos c = some z)
    (hc : c ≠ ((rt.startCo co x).pushed co).running)
    (h : z.start = true ∨ c ∈ co :: active) :
    z.ctx = .saved c ∨ c = co ∧ z.ctx = .entry co := by
  obtain ⟨-, -, hrun, -⟩ := startCo_fields rt co x
  obtain ⟨hother, y, hy, -, -, -, hctx⟩ := startCo_cos hx
  change (rt.startCo co x).cos c = some z at hz
  change c ≠ (rt.startCo co x).running at hc
  rw [hrun] at hc
  rcases eq_or_ne c co with rfl | hco
  · rw [hy] at hz
    obtain rfl := Option.some.inj hz
    split at hctx
    next hs => exact .inl (hctx.trans (W.saved c x hx hc (.inl hs)))
    next => exact .inr ⟨rfl, hctx⟩
  · rw [hother c hco] at hz
    refine .inl (W.saved c z hz hc (h.imp_right ?_))
    exact List.mem_of_ne_of_mem hco

/-- **`CoResume` transfers control to the resumed coroutine**, which becomes the innermost one. -/
theorem Wf.coResume (W : Wf rt active) (h : rt.coResume co sp = some rt') :
    Wf rt' (co :: active) := by
  obtain ⟨x, hx, hlim, h⟩ := (coResume_eq_some W).1 h
  have hrun : ((rt.startCo co x).pushed co).running = rt.running := (startCo_fields rt co x).2.2.1
  rw [← hrun] at h
  exact ((W.laid_pushed hx hlim).coSwap rfl (W.saved_pushed hx) h).1

/-- `CoResume` is defined as long as the call stack has a free position. -/
theorem Wf.coResume_defined (W : Wf rt active) (hco : (rt.cos co).isSome)
    (hlim : active.length < callStackLimit) (sp : ℕ) : ∃ rt', rt.coResume co sp = some rt' := by
  obtain ⟨x, hx⟩ := Option.isSome_iff_exists.1 hco
  have L := W.laid_pushed hx hlim
  have hrun : ((rt.startCo co x).pushed co).running = rt.running := (startCo_fields rt co x).2.2.1
  have hctx : co ≠ rt.running → ∃ d, ((rt.startCo co x).pushed co).ctxOf co = some (.entry d) ∨
      ((rt.startCo co x).pushed co).ctxOf co = some (.saved d) := fun hne ↦ by
    obtain ⟨y, hy⟩ := Option.isSome_iff_exists.1 (L.exists_of_mem co (by simp))
    rw [ctxOf_eq hy]
    rcases W.saved_pushed hx co y hy (hrun.symm ▸ hne) (.inr (by simp)) with hs | ⟨-, hs⟩
    · exact ⟨co, .inr (congrArg some hs)⟩
    · exact ⟨co, .inl (congrArg some hs)⟩
  obtain ⟨rt', h⟩ := coSwap_defined
    (L.exists_of_mem rt.running (List.mem_cons_of_mem _ W.running_mem))
    (L.exists_of_mem co (by simp)) L.occupantsExist hctx sp
  exact ⟨rt', (coResume_eq_some W).2 ⟨x, hx, hlim, h⟩⟩

/-- `CoYield` is a switch from the coroutine that runs to the one below it on the call stack. -/
theorem coYield_eq_some (W : Wf rt active) :
    rt.coYield sp = some rt' ↔ ∃ last, active[1]? = some last ∧
      rt.popped.coSwap rt.running last sp = some rt' := by
  rw [coYield, W.callAt_top]
  by_cases hk : 1 < active.length
  · have h : rt.env.callAt (rt.env.callStackSize - 2) = active[1]? := W.callAt hk
    obtain ⟨last, hlast⟩ : ∃ last, active[1]? = some last := ⟨_, List.getElem?_eq_getElem hk⟩
    simp [h, hlast]
  · have h : rt.env.callAt (rt.env.callStackSize - 2) = none :=
      W.callAt_below (k := 1) (Nat.le_of_not_lt hk)
    have hnone : active[1]? = none := List.getElem?_eq_none (Nat.le_of_not_lt hk)
    simp [h, hnone]

/-- After the pop the call stack has one coroutine less. -/
theorem Wf.laid_popped (W : Wf rt active) {last : CoId} (hlast : active[1]? = some last) :
    Laid rt.popped active.tail ∧ active.tail.head? = some last := by
  obtain ⟨rest, hact⟩ := W.eq_cons
  subst hact
  cases rest with
  | nil => simp at hlast
  | cons l rest =>
    obtain rfl : l = last := by simpa using hlast
    refine ⟨⟨?_, fun i hi ↦ ?_, ?_, ?_, fun c hc ↦ ?_, fun c hc ↦ ?_, W.lt_next, W.occupant⟩, rfl⟩
    · simp [popped, W.size_eq]
    · have := W.slot_eq i (Nat.lt_succ_of_lt hi)
      rw [List.reverse_cons, List.getElem?_append_left (by simpa using hi)] at this
      exact this
    · exact Nat.le_of_succ_le W.le_limit
    · have := W.main
      rwa [List.getLast?_cons_cons] at this
    · exact W.exists_of_mem c (List.mem_cons_of_mem _ hc)
    · exact W.started c (List.mem_cons_of_mem _ hc)

/-- **`CoYield` transfers control to the coroutine that resumed the current one**, the next in the
list. -/
theorem Wf.coYield (W : Wf rt active) (h : rt.coYield sp = some rt') : Wf rt' active.tail := by
  obtain ⟨last, hlast, h⟩ := (coYield_eq_some W).1 h
  obtain ⟨L, hhead⟩ := W.laid_popped hlast
  refine (L.coSwap hhead (fun c x hx hc h ↦ .inl (W.saved c x hx hc (h.imp_right ?_))) h).1
  exact List.mem_of_mem_tail

/-- **A yield is defined** if there is a coroutine below the running one. -/
theorem Wf.coYield_defined (W : Wf rt active) (hlen : 2 ≤ active.length) (sp : ℕ) :
    ∃ rt', rt.coYield sp = some rt' := by
  obtain ⟨last, hlast⟩ : ∃ last, active[1]? = some last := ⟨_, List.getElem?_eq_getElem hlen⟩
  obtain ⟨L, hhead⟩ := W.laid_popped hlast
  have hmem : last ∈ active.tail := List.mem_of_head? hhead
  have hctx : last ≠ rt.running → ∃ d, rt.popped.ctxOf last = some (.entry d) ∨
      rt.popped.ctxOf last = some (.saved d) := fun hne ↦ by
    obtain ⟨y, hy⟩ := Option.isSome_iff_exists.1 (L.exists_of_mem last hmem)
    have hs := W.saved last y hy hne (.inr (List.mem_of_mem_tail hmem))
    exact ⟨last, .inr (by rw [ctxOf_eq hy, hs])⟩
  have hrun : (rt.popped.cos rt.running).isSome := W.exists_of_mem rt.running W.running_mem
  obtain ⟨rt', h⟩ := coSwap_defined hrun (L.exists_of_mem last hmem) L.occupantsExist hctx sp
  exact ⟨rt', (coYield_eq_some W).2 ⟨last, hlast, h⟩⟩

/-! The steps that do not switch. -/

/-- Rewriting a record keeps a state in order, if the rewrite keeps what the call stack depends
on. -/
theorem Wf.setCo (W : Wf rt active) (hx : rt.cos co = some x) {y : Coroutine}
    (hy : y.fixed = x.fixed) (hctx : y.ctx = x.ctx) : Wf (rt.setCo co y) active := by
  have hk : Keeps rt (rt.setCo co y) := setCo_keeps hx hy
  have hctxOf := ctxOf_setCo_of_eq hx hctx
  refine ⟨⟨W.size_eq, W.slot_eq, W.le_limit, W.main, fun c hc ↦ ?_, fun c hc z hz hs ↦ ?_,
    fun c z hz ↦ ?_, fun m o ho ↦ ?_⟩, W.running_eq, fun c z hz hc h ↦ ?_⟩
  · exact (hk.isSome c).trans (W.exists_of_mem c hc)
  · obtain ⟨z', hz', hst, -, hsh, -⟩ := hk.map_fixed hz
    exact hst.trans (W.started c hc z' hz' (hsh ▸ hs))
  · obtain ⟨z', hz', -⟩ := hk.map_fixed hz
    exact W.lt_next c z' hz'
  · obtain ⟨z, hz, hst, hsh, hm⟩ := W.occupant m o ho
    obtain ⟨z', hz', hst', -, hsh', hm'⟩ := hk.map_fixed' hz
    exact ⟨z', hz', hst'.trans hst, hsh'.trans hsh, hm'.trans hm⟩
  · obtain ⟨z', hz', hst, -⟩ := hk.map_fixed hz
    have := ctxOf_eq hz
    rw [hctxOf, ctxOf_eq hz'] at this
    rw [← Option.some.inj this]
    exact W.saved c z' hz' hc (hst ▸ h)

/-- Writing a stack memory keeps a state in order, if the occupant stays. -/
theorem Wf.setStack (W : Wf rt active) {m : ℕ} {mem : StackMem}
    (hmem : mem.occupyCo = (rt.stackMems m).occupyCo) : Wf (rt.setStack m mem) active := by
  refine ⟨⟨W.size_eq, W.slot_eq, W.le_limit, W.main, W.exists_of_mem, W.started, W.lt_next,
    fun m' o ho ↦ W.occupant m' o ?_⟩, W.running_eq, W.saved⟩
  rcases eq_or_ne m' m with rfl | hm
  · simpa [Runtime.setStack, hmem] using ho
  · simpa [Runtime.setStack, hm] using ho

/-- A body writes to the stack that it runs on. -/
theorem runBody_eq_some {bytes : ℕ → UInt8} (h : rt.runBody bytes = some rt') :
    ∃ x, rt.cos rt.running = some x ∧
      rt' = rt.setStack x.stackMem { rt.stackMems x.stackMem with bytes := bytes } := by
  rw [Runtime.runBody] at h
  split at h
  · cases h
  next x hx => exact ⟨x, hx, (Option.some.inj h).symm⟩

/-- A body that ends is marked and yields. -/
theorem coFuncEnd_eq_some (h : rt.coFuncEnd sp = some rt') :
    ∃ x, rt.cos rt.running = some x ∧
      (rt.setCo rt.running { x with ended := true }).coYield sp = some rt' := by
  rw [Runtime.coFuncEnd] at h
  split at h
  · cases h
  next x hx => exact ⟨x, hx, h⟩

/-- A body keeps the call stack. -/
theorem Wf.runBody (W : Wf rt active) {bytes : ℕ → UInt8} (h : rt.runBody bytes = some rt') :
    Wf rt' active := by
  obtain ⟨x, -, rfl⟩ := runBody_eq_some h
  exact W.setStack rfl

/-- A body that ends leaves the call stack. -/
theorem Wf.coFuncEnd (W : Wf rt active) (h : rt.coFuncEnd sp = some rt') :
    Wf rt' active.tail := by
  obtain ⟨x, hx, h⟩ := coFuncEnd_eq_some h
  exact (W.setCo hx (y := { x with ended := true }) rfl rfl).coYield h

/-- A new coroutine keeps the call stack. -/
theorem Wf.coCreate (W : Wf rt active) (attr : CoAttr) (buffer : ℕ) :
    Wf (rt.coCreate attr buffer) active := by
  have hnew : ∀ c x, rt.cos c = some x → c ≠ rt.nextCo := fun c x hx ↦
    Nat.ne_of_lt (W.lt_next c x hx)
  have hmem : ∀ c ∈ active, c ≠ rt.nextCo := fun c hc ↦ by
    obtain ⟨x, hx⟩ := Option.isSome_iff_exists.1 (W.exists_of_mem c hc)
    exact hnew c x hx
  -- Either way the new record is unstarted and has the next number.
  have hcos : ∃ y, (rt.coCreate attr buffer).cos = update rt.cos rt.nextCo (some y) ∧
      y.start = false := by
    rw [Runtime.coCreate]
    split
    · exact ⟨_, rfl, rfl⟩
    · exact ⟨_, rfl, rfl⟩
  obtain ⟨henv, hnext, hrun⟩ : (rt.coCreate attr buffer).env = rt.env ∧
      (rt.coCreate attr buffer).nextCo = rt.nextCo + 1 ∧
      (rt.coCreate attr buffer).running = rt.running := by
    rw [Runtime.coCreate]
    split <;> exact ⟨rfl, rfl, rfl⟩
  have hocc : ∀ m o, ((rt.coCreate attr buffer).stackMems m).occupyCo = some o →
      (rt.stackMems m).occupyCo = some o := by
    intro m o ho
    rw [Runtime.coCreate] at ho
    split at ho
    · exact ho
    · by_cases hm : m = rt.nextStack
      · simp [hm, stackMemAlloc] at ho
      · simpa [hm] using ho
  obtain ⟨y, hy, hstart⟩ := hcos
  refine ⟨⟨?_, ?_, W.le_limit, W.main, fun c hc ↦ ?_, fun c hc z hz hs ↦ ?_, fun c z hz ↦ ?_,
    fun m o ho ↦ ?_⟩, ?_, fun c z hz hc h ↦ ?_⟩
  · rw [henv, W.size_eq]
  · rw [henv]
    exact W.slot_eq
  · rw [hy, update_of_ne (hmem c hc)]
    exact W.exists_of_mem c hc
  · rw [hy, update_of_ne (hmem c hc)] at hz
    exact W.started c hc z hz hs
  · rw [hnext]
    by_cases hc : c = rt.nextCo
    · exact hc ▸ Nat.lt_succ_self _
    · rw [hy, update_of_ne hc] at hz
      exact Nat.lt_succ_of_lt (W.lt_next c z hz)
  · obtain ⟨z, hz, h⟩ := W.occupant m o (hocc m o ho)
    exact ⟨z, by rw [hy, update_of_ne (hnew o z hz), hz], h⟩
  · rw [hrun, W.running_eq]
  · rw [hrun] at hc
    rcases eq_or_ne c rt.nextCo with rfl | hcn
    · rw [hy, update_self] at hz
      obtain rfl := Option.some.inj hz
      exact absurd rfl (hmem _ (h.resolve_left (by simp [hstart])))
    · rw [hy, update_of_ne hcn] at hz
      exact W.saved c z hz hc h

/-- Only the occupant itself vacates a stack memory. -/
theorem vacate_occupyCo {mem : StackMem} {o : CoId} :
    (mem.vacate co).occupyCo = some o ↔ mem.occupyCo = some o ∧ o ≠ co := by
  rw [StackMem.vacate]
  split
  next h =>
    rw [h]
    constructor
    · intro h'; cases h'
    · rintro ⟨h', hne⟩; exact absurd (Option.some.inj h').symm hne
  next h => exact ⟨fun h' ↦ ⟨h', fun e ↦ h (e ▸ h')⟩, And.left⟩

/-- The records outside the call stack may go: one that is not active is dropped or no longer
started, together with its place on a stack memory. -/
theorem Wf.dropCo (W : Wf rt active) (hco : co ∉ active) {cos : CoId → Option Coroutine}
    {stackMems : ℕ → StackMem} (hcos : ∀ d, d ≠ co → cos d = rt.cos d)
    (hnew : ∀ y, cos co = some y → y.start = false ∧ (rt.cos co).isSome)
    (hocc : ∀ m o, (stackMems m).occupyCo = some o → (rt.stackMems m).occupyCo = some o ∧ o ≠ co) :
    Wf { rt with cos := cos, stackMems := stackMems } active := by
  have hne : ∀ c ∈ active, c ≠ co := fun c hc e ↦ hco (e ▸ hc)
  refine ⟨⟨W.size_eq, W.slot_eq, W.le_limit, W.main, fun c hc ↦ ?_, fun c hc z hz hs ↦ ?_,
    fun c z hz ↦ ?_, fun m o ho ↦ ?_⟩, W.running_eq, fun c z hz hc h ↦ ?_⟩
  · change (cos c).isSome
    rw [hcos c (hne c hc)]
    exact W.exists_of_mem c hc
  · change cos c = some z at hz
    rw [hcos c (hne c hc)] at hz
    exact W.started c hc z hz hs
  · change cos c = some z at hz
    rcases eq_or_ne c co with rfl | hc
    · obtain ⟨x, hx⟩ := Option.isSome_iff_exists.1 (hnew z hz).2
      exact W.lt_next c x hx
    · exact W.lt_next c z (hcos c hc ▸ hz)
  · obtain ⟨ho, hoc⟩ := hocc m o ho
    obtain ⟨z, hz, h⟩ := W.occupant m o ho
    exact ⟨z, (hcos o hoc).trans hz, h⟩
  · change cos c = some z at hz
    rcases eq_or_ne c co with rfl | hcc
    · rcases h with h | h
      · rw [(hnew z hz).1] at h; cases h
      · exact absurd h hco
    · rw [hcos c hcc] at hz
      exact W.saved c z hz hc h

/-- After `co` has vacated its stack memory it occupies none. -/
theorem Wf.occupyCo_vacated (W : Wf rt active) (hx : rt.cos co = some x) {m : ℕ} {o : CoId}
    (ho : ((rt.setStack x.stackMem ((rt.stackMems x.stackMem).vacate co)).stackMems m).occupyCo =
      some o) : (rt.stackMems m).occupyCo = some o ∧ o ≠ co := by
  rcases eq_or_ne m x.stackMem with rfl | hm
  · simp only [Runtime.setStack, update_self] at ho
    exact vacate_occupyCo.1 ho
  · simp only [Runtime.setStack, update_of_ne hm] at ho
    refine ⟨ho, fun hoc ↦ hm ?_⟩
    obtain ⟨z, hz, -, -, hzm⟩ := W.occupant m o ho
    rw [hoc, hx] at hz
    rw [Option.some.inj hz, hzm]

/-- A released coroutine is gone, and on a shared stack it is the occupant no longer. -/
theorem coRelease_eq_some (h : rt.coRelease co = some rt') : ∃ x, rt.cos co = some x ∧
    (x.isShareStack = true ∧
      rt' = { rt.setStack x.stackMem ((rt.stackMems x.stackMem).vacate co) with
        cos := update rt.cos co none } ∨
      x.isShareStack = false ∧ rt' = { rt with cos := update rt.cos co none }) := by
  rw [Runtime.coRelease] at h
  split at h
  · cases h
  next x hx =>
    refine ⟨x, hx, ?_⟩
    obtain rfl := Option.some.inj h
    split
    next hs => exact .inl ⟨hs, rfl⟩
    next hs => exact .inr ⟨Bool.eq_false_iff.2 hs, rfl⟩

/-- Releasing a coroutine that is not active keeps the call stack. -/
theorem Wf.coRelease (W : Wf rt active) (hco : co ∉ active)
    (h : rt.coRelease co = some rt') : Wf rt' active := by
  have hgone : ∀ y, update rt.cos co none co = some y →
      y.start = false ∧ (rt.cos co).isSome := fun y hy ↦ by simp at hy
  obtain ⟨x, hx, ⟨-, rfl⟩ | ⟨hs, rfl⟩⟩ := coRelease_eq_some h
  · exact W.dropCo hco (fun d hd ↦ update_of_ne hd _ _) hgone fun m o ↦ W.occupyCo_vacated hx
  · refine W.dropCo hco (fun d hd ↦ update_of_ne hd _ _) hgone fun m o ho ↦ ⟨ho, fun hoc ↦ ?_⟩
    -- A coroutine on a stack of its own occupies no shared stack.
    obtain ⟨z, hz, -, hsh, -⟩ := W.occupant m o ho
    rw [hoc, hx] at hz
    obtain rfl := Option.some.inj hz
    exact Bool.false_ne_true (hs.symm.trans hsh)

theorem resetCo_start (x : Coroutine) : (resetCo x).start = false := by
  rw [resetCo]
  split <;> rfl

/-- A reset coroutine leaves its stack and can be started anew. -/
theorem coReset_eq_some (h : rt.coReset co = some rt') : rt' = rt ∨ ∃ x, rt.cos co = some x ∧
    rt' = (rt.setCo co (resetCo x)).setStack x.stackMem
      ((rt.stackMems x.stackMem).vacate co) := by
  rw [Runtime.coReset] at h
  split at h
  · cases h
  next x hx =>
    split at h
    · exact .inl (Option.some.inj h).symm
    · exact .inr ⟨x, hx, (Option.some.inj h).symm⟩

/-- Resetting a coroutine that is not active keeps the call stack. -/
theorem Wf.coReset (W : Wf rt active) (hco : co ∉ active) (h : rt.coReset co = some rt') :
    Wf rt' active := by
  obtain rfl | ⟨x, hx, rfl⟩ := coReset_eq_some h
  · exact W
  · refine W.dropCo hco (fun d hd ↦ update_of_ne hd _ _) (fun y hy ↦ ?_)
      fun m o ho ↦ W.occupyCo_vacated hx ho
    simp only [Runtime.setCo, update_self] at hy
    exact ⟨Option.some.inj hy ▸ resetCo_start x, by rw [hx]; rfl⟩

/-- The active coroutines after an action. -/
def activeAfter (active : List CoId) : Action → List CoId
  | .resume co _ => co :: active
  | .yield _ | .finish _ => active.tail
  | _ => active

/-- The action leaves the active coroutines in place: it releases or resets none of them. -/
def SparesActive (active : List CoId) : Action → Prop
  | .release co | .reset co => co ∉ active
  | _ => True

/-- **Every step keeps the call stack in order.** -/
theorem Wf.step (W : Wf rt active) {a : Action} (hspare : SparesActive active a)
    (h : step rt a = some rt') : Wf rt' (activeAfter active a) := by
  cases a with
  | create attr buffer => exact Option.some.inj h ▸ W.coCreate attr buffer
  | resume co sp => exact W.coResume h
  | yield sp => exact W.coYield h
  | finish sp => exact W.coFuncEnd h
  | release co => exact W.coRelease hspare h
  | reset co => exact W.coReset hspare h
  | run bytes => exact W.runBody h

/-- A step that leaves the height of the call stack leaves control where it is. -/
theorem Wf.step_running (W : Wf rt active) {a : Action} (hspare : SparesActive active a)
    (h : CoRoutine.step rt a = some rt') (hsize : rt'.env.callStackSize = rt.env.callStackSize) :
    rt'.running = rt.running := by
  have W' := W.step hspare h
  rw [W'.size_eq, W.size_eq] at hsize
  obtain ⟨rest, hact⟩ := W.eq_cons
  have hrun := W'.running_eq
  cases a with
  | resume co sp => simp [activeAfter] at hsize
  | yield sp | finish sp => simp [activeAfter, hact] at hsize
  | create attr buffer => simpa [activeAfter, hact, eq_comm] using hrun
  | release co | reset co => simpa [activeAfter, hact, eq_comm] using hrun
  | run bytes => simpa [activeAfter, hact, eq_comm] using hrun

/-! ### The call discipline, and how far the array follows it -/

/-- The call discipline of a thread, without an array: how many coroutines there are, and which are
active, innermost first. Each active coroutine was resumed by the one behind it. -/
structure Calls where
  created : ℕ
  active : List CoId

namespace Calls

/-- At first the main coroutine is the only one. -/
def initial : Calls := ⟨1, [0]⟩

/-- The calls of a disciplined thread: a coroutine that is active is not resumed, and the main
coroutine does not yield. -/
def step (s : Calls) : Action → Option Calls
  | .create _ _ => some { s with created := s.created + 1 }
  | .resume co _ =>
    if co < s.created ∧ co ∉ s.active then some { s with active := co :: s.active } else none
  | .yield _ | .finish _ =>
    match s.active with
    | _ :: last :: rest => some { s with active := last :: rest }
    | _ => none
  | .run _ => some s
  | .release _ | .reset _ => none

end Calls

/-- The number of resumes among the actions. -/
def resumes (acts : List Action) : ℕ :=
  acts.countP fun a ↦ match a with | .resume _ _ => true | _ => false

/-- The number of yields among the actions; the end of a coroutine's function is one. -/
def yields (acts : List Action) : ℕ :=
  acts.countP fun a ↦ match a with | .yield _ | .finish _ => true | _ => false

/-- The array follows the discipline: its first entry is the main coroutine, its entries are the
active coroutines without repetition, and the innermost one runs. -/
structure Follows (rt : Runtime) (s : Calls) : Prop where
  main : rt.env.callStack 0 = some 0
  size : rt.env.callStackSize = s.active.length
  entries : ∀ i, i < s.active.length → rt.env.callStack i = s.active.reverse[i]?
  nodup : s.active.Nodup
  running : s.active.head? = some rt.running

/-- After each part of the run the calls were all defined, so that no position outside the array was
read or written, the array follows the discipline, and it has one entry more than there are resumes
not yet yielded back. -/
def CallStackOk (rt₀ : Runtime) (acts : List Action) : Prop :=
  ∀ pre, pre <+: acts → ∃ s rt, Machine.exec Calls.step .initial pre = some s ∧
    Machine.exec step rt₀ pre = some rt ∧ Follows rt s ∧
    rt.env.callStackSize + yields pre = 1 + resumes pre

/-- The simulation relation: the runtime lays out the active coroutines, and the coroutines are
those created. -/
structure Tracks (rt : Runtime) (s : Calls) : Prop where
  wf : Wf rt s.active
  exists_iff : ∀ c, (rt.cos c).isSome ↔ c < s.created
  nextCo_eq : rt.nextCo = s.created
  nodup : s.active.Nodup

/-- The runtime and the abstract calls agree at the start. -/
theorem tracks_initial (share : ShareStack) (coFunc : ℕ) (buffer : ℕ → ℕ) (mainBuffer : ℕ) :
    Tracks (initial share coFunc buffer mainBuffer) .initial where
  wf := wf_initial share coFunc buffer mainBuffer
  exists_iff c := by
    simp only [initial, Calls.initial, Nat.lt_one_iff]
    by_cases hc : c = 0 <;> simp [hc]
  nextCo_eq := rfl
  nodup := List.nodup_singleton 0

/-- The active coroutines of the runtime are those of the abstract calls. -/
theorem Tracks.follows {s : Calls} (T : Tracks rt s) : Follows rt s where
  main := by
    have hlen : 0 < s.active.length := by
      obtain ⟨rest, h⟩ := T.wf.eq_cons
      simp [h]
    rw [T.wf.slot_eq 0 hlen, ← List.head?_eq_getElem?, List.head?_reverse, T.wf.main]
  size := T.wf.size_eq
  entries := T.wf.slot_eq
  nodup := T.nodup
  running := T.wf.running_eq

/-- Which coroutines exist does not change in a switch. -/
theorem Tracks.of_switch {s s' : Calls} (T : Tracks rt s) (W : Wf rt' s'.active)
    (hcos : ∀ c, (rt'.cos c).isSome = (rt.cos c).isSome) (hnext : rt'.nextCo = rt.nextCo)
    (hcreated : s'.created = s.created) (hnodup : s'.active.Nodup) : Tracks rt' s' :=
  ⟨W, fun c ↦ by rw [hcos, T.exists_iff, hcreated], by rw [hnext, T.nextCo_eq, hcreated], hnodup⟩

/-- A resume creates and releases no coroutine. -/
theorem Wf.coResume_cos (W : Wf rt active) (h : rt.coResume co sp = some rt') :
    (∀ d, (rt'.cos d).isSome = (rt.cos d).isSome) ∧ rt'.nextCo = rt.nextCo := by
  obtain ⟨x, hx, -, h⟩ := (coResume_eq_some W).1 h
  obtain ⟨hk, -⟩ := coSwap_spec h
  obtain ⟨hother, y, hy, -⟩ := startCo_cos hx
  refine ⟨fun d ↦ (hk.isSome d).trans ?_, hk.nextCo.trans (startCo_fields rt co x).2.1⟩
  change ((rt.startCo co x).cos d).isSome = _
  rcases eq_or_ne d co with rfl | hd
  · rw [hy, hx]; rfl
  · rw [hother d hd]

/-- A yield creates and releases no coroutine. -/
theorem Wf.coYield_cos (W : Wf rt active) (h : rt.coYield sp = some rt') :
    (∀ d, (rt'.cos d).isSome = (rt.cos d).isSome) ∧ rt'.nextCo = rt.nextCo := by
  obtain ⟨last, -, h⟩ := (coYield_eq_some W).1 h
  obtain ⟨hk, -⟩ := coSwap_spec h
  exact ⟨hk.isSome, hk.nextCo⟩

theorem Wf.coFuncEnd_eq (W : Wf rt active) (sp : ℕ) :
    ∃ x, rt.cos rt.running = some x ∧
      rt.coFuncEnd sp = (rt.setCo rt.running { x with ended := true }).coYield sp ∧
      Wf (rt.setCo rt.running { x with ended := true }) active := by
  obtain ⟨x, hx⟩ := Option.isSome_iff_exists.1 (W.exists_of_mem rt.running W.running_mem)
  refine ⟨x, hx, by rw [Runtime.coFuncEnd, hx], W.setCo hx rfl rfl⟩

/-- A yield, of a coroutine that is finished or not, where another coroutine is below. -/
theorem Tracks.coYield {s : Calls} (T : Tracks rt s) {c last : CoId} {rest : List CoId}
    (hs : s.active = c :: last :: rest) (sp : ℕ) :
    ∃ rt', rt.coYield sp = some rt' ∧ Tracks rt' { s with active := last :: rest } := by
  obtain ⟨rt', h⟩ := T.wf.coYield_defined (by simp [hs]) sp
  obtain ⟨hcos, hnext⟩ := T.wf.coYield_cos h
  have hnodup := T.nodup
  rw [hs] at hnodup
  refine ⟨rt', h, T.of_switch ?_ hcos hnext rfl (List.nodup_cons.1 hnodup).2⟩
  have := T.wf.coYield h
  rwa [hs] at this

/-- The end of a body returns to the coroutine below. -/
theorem Tracks.coFuncEnd {s : Calls} (T : Tracks rt s) {c last : CoId} {rest : List CoId}
    (hs : s.active = c :: last :: rest) (sp : ℕ) :
    ∃ rt', rt.coFuncEnd sp = some rt' ∧ Tracks rt' { s with active := last :: rest } := by
  obtain ⟨x, hx, heq, W⟩ := T.wf.coFuncEnd_eq sp
  have T' : Tracks (rt.setCo rt.running { x with ended := true }) s := by
    refine T.of_switch W (fun d ↦ ?_) rfl rfl T.nodup
    exact (setCo_keeps hx (y := { x with ended := true }) rfl).isSome d
  rw [heq]
  exact T'.coYield hs sp

/-- A new coroutine is one more in both. -/
theorem Tracks.coCreate {s : Calls} (T : Tracks rt s) (attr : CoAttr) (buffer : ℕ) :
    Tracks (rt.coCreate attr buffer) { s with created := s.created + 1 } := by
  have hcos : ∃ y, (rt.coCreate attr buffer).cos = update rt.cos rt.nextCo (some y) ∧
      (rt.coCreate attr buffer).nextCo = rt.nextCo + 1 := by
    rw [Runtime.coCreate]
    split
    · exact ⟨_, rfl, rfl⟩
    · exact ⟨_, rfl, rfl⟩
  obtain ⟨y, hy, hnext⟩ := hcos
  refine ⟨T.wf.coCreate attr buffer, fun c ↦ ?_, by rw [hnext, T.nextCo_eq], T.nodup⟩
  rw [hy]
  rcases eq_or_ne c rt.nextCo with rfl | hc
  · simp [T.nextCo_eq]
  · rw [update_of_ne hc, T.exists_iff]
    exact ⟨Nat.lt_succ_of_lt, fun h ↦
      Nat.lt_of_le_of_ne (Nat.le_of_lt_succ h) (T.nextCo_eq ▸ hc)⟩

/-- **One disciplined step**: the array follows it, if the nesting afterwards is within the
array. -/
theorem Tracks.step {s s' : Calls} (T : Tracks rt s) {a : Action}
    (hs : Calls.step s a = some s') (hlim : s'.active.length ≤ callStackLimit) :
    ∃ rt', step rt a = some rt' ∧ Tracks rt' s' := by
  cases a with
  | create attr buffer =>
    obtain rfl := Option.some.inj hs
    exact ⟨_, rfl, T.coCreate attr buffer⟩
  | resume co sp =>
    obtain ⟨h, hs⟩ := Option.ite_none_right_eq_some.1 hs
    obtain rfl := Option.some.inj hs
    obtain ⟨rt', h'⟩ := T.wf.coResume_defined ((T.exists_iff co).2 h.1)
      (Nat.lt_of_succ_le hlim) sp
    obtain ⟨hcos, hnext⟩ := T.wf.coResume_cos h'
    exact ⟨rt', h', T.of_switch (T.wf.coResume h') hcos hnext rfl
      (List.nodup_cons.2 ⟨h.2, T.nodup⟩)⟩
  | yield sp =>
    rw [Calls.step] at hs
    split at hs
    next c last rest hact =>
      obtain rfl := Option.some.inj hs
      exact T.coYield hact sp
    next => cases hs
  | finish sp =>
    rw [Calls.step] at hs
    split at hs
    next c last rest hact =>
      obtain rfl := Option.some.inj hs
      exact T.coFuncEnd hact sp
    next => cases hs
  | release co => cases hs
  | reset co => cases hs
  | run bytes =>
    obtain rfl := Option.some.inj hs
    obtain ⟨x, hx⟩ :=
      Option.isSome_iff_exists.1 (T.wf.exists_of_mem rt.running T.wf.running_mem)
    have h : rt.runBody bytes = some (rt.setStack x.stackMem
        { rt.stackMems x.stackMem with bytes := bytes }) := by
      rw [Runtime.runBody, hx]
    exact ⟨_, h, T.of_switch (T.wf.runBody h) (fun _ ↦ rfl) rfl rfl T.nodup⟩

/-- The discipline counts: one coroutine is active for each resume not yet yielded back, and the
main one. -/
theorem Calls.length_active {s s' : Calls} {a : Action} (h : Calls.step s a = some s') :
    s'.active.length + yields [a] = s.active.length + resumes [a] := by
  cases a with
  | create attr buffer => obtain rfl := Option.some.inj h; rfl
  | resume co sp =>
    obtain ⟨-, h⟩ := Option.ite_none_right_eq_some.1 h
    obtain rfl := Option.some.inj h
    rfl
  | yield sp | finish sp =>
    rw [Calls.step] at h
    split at h
    next hact => obtain rfl := Option.some.inj h; rw [hact]; rfl
    next => cases h
  | release co => cases h
  | reset co => cases h
  | run bytes => obtain rfl := Option.some.inj h; rfl

/-- The active coroutines are counted by the resumes and the yields. -/
theorem Calls.length_active_exec {s : Calls} {acts : List Action}
    (h : Machine.exec Calls.step .initial acts = some s) :
    s.active.length + yields acts = 1 + resumes acts := by
  induction acts using List.reverseRecOn generalizing s with
  | nil => obtain rfl := Option.some.inj h; rfl
  | append_singleton acts a ih =>
    rw [Machine.exec_concat, Option.bind_eq_some_iff] at h
    obtain ⟨t, ht, h⟩ := h
    have hstep := Calls.length_active h
    have hbefore := ih ht
    rw [resumes, yields, List.countP_append, List.countP_append]
    rw [resumes, yields] at hstep hbefore
    omega

variable {rt₀ : Runtime} {acts : List Action}

/-- A disciplined run that never nests deeper than the array: the array follows it to the end. -/
theorem Tracks.exec (T₀ : Tracks rt₀ .initial) {s : Calls}
    (hs : Machine.exec Calls.step .initial acts = some s)
    (hlim : ∀ pre, pre <+: acts → resumes pre ≤ 127 + yields pre) :
    ∃ rt, Machine.exec CoRoutine.step rt₀ acts = some rt ∧ Tracks rt s := by
  induction acts using List.reverseRecOn generalizing s with
  | nil => obtain rfl := Option.some.inj hs; exact ⟨rt₀, rfl, T₀⟩
  | append_singleton acts a ih =>
    have hlen := Calls.length_active_exec hs
    have hall := hlim _ (List.prefix_refl _)
    rw [Machine.exec_concat, Option.bind_eq_some_iff] at hs
    obtain ⟨t, ht, hs⟩ := hs
    obtain ⟨rt, hrt, T⟩ := ih ht fun pre hpre ↦
      hlim pre (hpre.trans (List.prefix_append acts [a]))
    obtain ⟨rt', hstep, T'⟩ := T.step hs (by rw [callStackLimit]; omega)
    exact ⟨rt', by rw [Machine.exec_concat, hrt, Option.bind_some, hstep], T'⟩

/-- A disciplined step that nests deeper than the array is undefined: `CoResume` writes behind
`call_stack`. -/
theorem Tracks.step_overflow {s s' : Calls} (T : Tracks rt s) {a : Action}
    (hs : Calls.step s a = some s') (hlim : callStackLimit < s'.active.length) :
    CoRoutine.step rt a = none := by
  have hle := T.wf.le_limit
  have hlen := Calls.length_active hs
  -- Only a resume makes the list longer.
  cases a with
  | resume co sp =>
    rw [Option.eq_none_iff_forall_ne_some]
    intro rt' h
    obtain ⟨x, -, hlt, -⟩ := (coResume_eq_some T.wf).1 h
    have : s'.active.length = s.active.length + 1 := hlen
    omega
  | create attr buffer | run bytes =>
    have : s'.active.length = s.active.length := hlen
    omega
  | yield sp | finish sp =>
    have : s'.active.length + 1 = s.active.length := hlen
    omega
  | release co => cases hs
  | reset co => cases hs

/-- Where the run of the runtime is defined, it follows the discipline. -/
theorem Tracks.of_exec (T₀ : Tracks rt₀ .initial) {s : Calls}
    (hs : Machine.exec Calls.step .initial acts = some s)
    (h : Machine.exec CoRoutine.step rt₀ acts = some rt) : Tracks rt s := by
  induction acts using List.reverseRecOn generalizing s rt with
  | nil => obtain rfl := Option.some.inj hs; exact Option.some.inj h ▸ T₀
  | append_singleton acts a ih =>
    rw [Machine.exec_concat, Option.bind_eq_some_iff] at hs h
    obtain ⟨t, ht, hs⟩ := hs
    obtain ⟨rt₁, hrt₁, h⟩ := h
    have T := ih ht hrt₁
    by_cases hlim : s.active.length ≤ callStackLimit
    · obtain ⟨rt', h', T'⟩ := T.step hs hlim
      rw [h] at h'
      exact Option.some.inj h' ▸ T'
    · rw [T.step_overflow hs (Nat.lt_of_not_le hlim)] at h
      cases h

/-- The discipline allows every part of a run it allows. -/
theorem Calls.exec_prefix {pre : List Action} (hpre : pre <+: acts)
    (h : (Machine.exec Calls.step .initial acts).isSome) :
    ∃ s, Machine.exec Calls.step .initial pre = some s := by
  obtain ⟨rest, rfl⟩ := hpre
  obtain ⟨s, h⟩ := Option.isSome_iff_exists.1 h
  obtain ⟨t, ht, -⟩ := (Machine.exec_append_eq_some Calls.step).1 h
  exact ⟨t, ht⟩

/-- A run within the array has no more than 127 calls open at any time. -/
theorem resumes_le_of_callStackOk (T₀ : Tracks rt₀ .initial) (h : CallStackOk rt₀ acts)
    {pre : List Action} (hpre : pre <+: acts) : resumes pre ≤ 127 + yields pre := by
  obtain ⟨s, rt, hs, hrt, -⟩ := h pre hpre
  have hlim := (T₀.of_exec hs hrt).wf.le_limit
  have hlen := Calls.length_active_exec hs
  rw [callStackLimit] at hlim
  omega

/-- And with no more than 127 open calls a run stays within the array. -/
theorem callStackOk_of_resumes_le (T₀ : Tracks rt₀ .initial)
    (h : (Machine.exec Calls.step .initial acts).isSome)
    (hlim : ∀ pre, pre <+: acts → resumes pre ≤ 127 + yields pre) : CallStackOk rt₀ acts := by
  intro pre hpre
  obtain ⟨s, hs⟩ := Calls.exec_prefix hpre h
  obtain ⟨rt, hrt, T⟩ := T₀.exec hs fun p hp ↦ hlim p (hp.trans hpre)
  refine ⟨s, rt, hs, hrt, T.follows, ?_⟩
  rw [T.wf.size_eq]
  exact Calls.length_active_exec hs

/-- **The call stack of a thread**: along a disciplined run the array follows the discipline, and no
position outside it is read or written, exactly if at no point more than 127 resumes are not yet
yielded back. -/
theorem callStackOk_iff (share : ShareStack) (coFunc : ℕ) (buffer : ℕ → ℕ) (mainBuffer : ℕ)
    (acts : List Action) (h : (Machine.exec Calls.step .initial acts).isSome) :
    CallStackOk (initial share coFunc buffer mainBuffer) acts ↔
      ∀ pre, pre <+: acts → resumes pre ≤ 127 + yields pre := by
  have T₀ := tracks_initial share coFunc buffer mainBuffer
  exact ⟨fun hok pre ↦ resumes_le_of_callStackOk T₀ hok, callStackOk_of_resumes_le T₀ h⟩

/-- A shared stack with one stack memory of 4 KB. -/
def oneStack : ShareStack := ⟨0, 4096, 1, Nat.one_pos⟩

/-- The main coroutine resumes a new coroutine, which yields. -/
theorem callStackOk_one_call :
    CallStackOk (initial oneStack 0 (fun _ ↦ 0) 0) [.create {} 0, .resume 1 0, .yield 0] := by
  refine (callStackOk_iff oneStack 0 (fun _ ↦ 0) 0 _ (by decide)).2 fun pre hpre ↦ ?_
  have hle : resumes pre ≤ pre.length := List.countP_le_length
  have hlen := hpre.length_le
  simp only [List.length_cons, List.length_nil] at hlen
  omega

/-- 128 coroutines, each of which resumes the next one. -/
def deepCalls : List Action :=
  List.replicate 128 (.create {} 0) ++ (List.range 128).map fun i ↦ .resume (i + 1) 0

/-- The run is disciplined, and writes behind the array. -/
theorem not_callStackOk_deepCalls :
    (Machine.exec Calls.step .initial deepCalls).isSome ∧
      ¬ CallStackOk (initial oneStack 0 (fun _ ↦ 0) 0) deepCalls := by
  refine ⟨by decide +kernel, fun h ↦ ?_⟩
  have hle := resumes_le_of_callStackOk (tracks_initial ..) h (List.prefix_refl _)
  have hres : resumes deepCalls = 128 := by decide +kernel
  have hyld : yields deepCalls = 0 := by decide +kernel
  omega

end CoRoutine
