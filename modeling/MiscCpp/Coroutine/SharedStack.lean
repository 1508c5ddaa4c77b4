import MiscCpp.Coroutine.CallStack

/-!
# The contents of shared stacks

Coroutines on one stack memory use the same addresses. What one of them left there when it was
switched out is kept in one of two places: on the stack itself, as long as the coroutine occupies
it, or in its `save_buffer`. `Safe` says this of one coroutine, and every step keeps it for every
started coroutine but the one that runs.

A switch back to a coroutine then finds its contents exactly as they were left (`HandsBackExact`),
with two exceptions in the code:

* the copy back from `save_buffer` is skipped when the stack has no occupant, which is what
  `CoFree` and `CoReset` of the occupant leave behind (`FindsOccupant`);
* the first start of a coroutine writes the address of `CoFunc` near the base of the stack before
  the occupant there has been saved (`SparesOccupant`).

With both ruled out at every step, every run hands the contents back (`always_handsBackExact`).
Everything is relative to the addresses `P` of each stack memory that are looked at: with all of
them this is the whole of `[stack_sp, stack_bp)`, without those of the entry slot the second
exception is void.
-/

open Function

namespace CoRoutine

open CoRoutine.Runtime

/-! ### Statement -/

/-- The coroutine an action hands control to. -/
def target (rt : Runtime) : Action → Option CoId
  | .resume co _ => some co
  | .yield _ | .finish _ => rt.env.callAt (rt.env.callStackSize - 2)
  | _ => none

/-- The coroutine is on the call stack. -/
def OnCallStack (rt : Runtime) (co : CoId) : Prop :=
  ∃ i < rt.env.callStackSize, rt.env.callStack i = some co

instance (rt : Runtime) (co : CoId) : Decidable (OnCallStack rt co) :=
  inferInstanceAs (Decidable (∃ i < rt.env.callStackSize, rt.env.callStack i = some co))

/-- No coroutine on the call stack is released or reset. -/
def SparesCallStack (rt : Runtime) : Action → Prop
  | .release co | .reset co => ¬ OnCallStack rt co
  | _ => True

instance : ∀ rt a, Decidable (SparesCallStack rt a)
  | rt, .release co | rt, .reset co => inferInstanceAs (Decidable (¬ OnCallStack rt co))
  | _, .create _ _ | _, .resume _ _ | _, .yield _ | _, .finish _ | _, .run _ =>
    inferInstanceAs (Decidable True)

section

variable (P : ℕ → ℕ → Prop)

/-- Where the action hands control back to a coroutine on a shared stack that was already started,
the stack then holds, from its `stack_sp` up to `stack_bp`, the bytes that were there when the
coroutine was switched out. Of a stack memory `m` only the addresses with `P m` are asked for. -/
def HandsBackExact (rt : Runtime) (a : Action) : Prop :=
  ∀ rt', step rt a = some rt' → ∀ co ∈ target rt a, ∀ x ∈ rt.cos co,
    x.isShareStack = true → x.start = true →
    ∃ x' w, rt'.cos co = some x' ∧ rt'.out co = some (x'.stackSp, w) ∧
      ∀ addr, x'.stackSp ≤ addr → addr < (rt'.stackMems x'.stackMem).stackBp →
        P x'.stackMem addr → (rt'.stackMems x'.stackMem).bytes addr = w addr

/-- A coroutine that was already started and is handed control back finds its stack occupied: by
itself or by the coroutine that was on it since. -/
def FindsOccupant (rt : Runtime) (a : Action) : Prop :=
  ∀ co ∈ target rt a, ∀ x ∈ rt.cos co, x.isShareStack = true → x.start = true →
    co ≠ rt.running → (rt.stackMems x.stackMem).occupyCo.isSome

/-- What the first start of `x` writes on its stack, the stack already holds, or it lies outside
what the suspended occupant has there. -/
def WritesBeside (rt : Runtime) (x : Coroutine) : Prop :=
  ∀ o ∈ (rt.stackMems x.stackMem).occupyCo, o ≠ rt.running → ∀ y ∈ rt.cos o, ∀ i < 8,
    y.stackSp ≤ entrySlot x + i → entrySlot x + i < (rt.stackMems x.stackMem).stackBp →
      P x.stackMem (entrySlot x + i) →
        rt.entryBytes x (rt.stackMems x.stackMem).bytes (entrySlot x + i) =
          (rt.stackMems x.stackMem).bytes (entrySlot x + i)

/-- The first start of a coroutine leaves alone what a suspended occupant has on the stack. -/
def SparesOccupant (rt : Runtime) (a : Action) : Prop :=
  ∀ co ∈ target rt a, ∀ x ∈ rt.cos co, x.isShareStack = true → x.start = false →
    WritesBeside P rt x

instance (rt : Runtime) (a : Action) : Decidable (FindsOccupant rt a) :=
  inferInstanceAs (Decidable (∀ co ∈ target rt a, ∀ x ∈ rt.cos co, _ → _ → _ → _))

variable [∀ m addr, Decidable (P m addr)]

instance (rt : Runtime) (x : Coroutine) : Decidable (WritesBeside P rt x) :=
  inferInstanceAs (Decidable (∀ o ∈ (rt.stackMems x.stackMem).occupyCo, _ → ∀ y ∈ rt.cos o,
    ∀ i < 8, _ → _ → _ → _))

instance (rt : Runtime) (a : Action) : Decidable (SparesOccupant P rt a) :=
  inferInstanceAs (Decidable (∀ co ∈ target rt a, ∀ x ∈ rt.cos co, _ → _ → WritesBeside P rt x))

end

/-! ### Where the contents are -/

/-- What the record of a coroutine says about its stack. -/
def Coroutine.left (x : Coroutine) : Bool × Bool × ℕ × ℕ × ℕ × Option (List UInt8) :=
  (x.start, x.isShareStack, x.stackMem, x.stackSp, x.saveSize, x.saveBuffer)

section

variable (rt : Runtime) (P : ℕ → ℕ → Prop) (x : Coroutine) (w : ℕ → UInt8)

/-- The contents `w` are on the stack. -/
def OnStack : Prop :=
  ∀ addr, x.stackSp ≤ addr → addr < (rt.stackMems x.stackMem).stackBp → P x.stackMem addr →
    (rt.stackMems x.stackMem).bytes addr = w addr

/-- The contents `w` are in the `save_buffer`. -/
def Saved : Prop :=
  ∃ buf, x.saveBuffer = some buf ∧ x.saveSize = buf.length ∧
    buf.length = (rt.stackMems x.stackMem).stackBp - x.stackSp ∧
    ∀ i < buf.length, P x.stackMem (x.stackSp + i) → buf.getD i 0 = w (x.stackSp + i)

/-- What a coroutine on a shared stack left there when it was last switched out is on the stack, if
the coroutine occupies it, and in its `save_buffer` otherwise. -/
def Safe (co : CoId) : Prop :=
  ∀ x, rt.cos co = some x → x.isShareStack = true → x.start = true →
    ∃ w, rt.out co = some (x.stackSp, w) ∧
      ((rt.stackMems x.stackMem).occupyCo = some co → OnStack rt P x w) ∧
      ((rt.stackMems x.stackMem).occupyCo ≠ some co → Saved rt P x w)

end

variable {rt rt' : Runtime} {P : ℕ → ℕ → Prop} {active : List CoId} {co pending : CoId}
  {x : Coroutine} {sp : ℕ}

/-- **When a coroutine stays safe**: its record and its last switch are kept, it neither takes its
stack nor gives it up, and the contents stay if they are on the stack. -/
theorem Safe.of_left (S : Safe rt P co)
    (hleft : ∀ x', rt'.cos co = some x' → ∃ x, rt.cos co = some x ∧ x'.left = x.left)
    (hout : rt'.out co = rt.out co)
    (hmem : ∀ x, rt.cos co = some x → x.isShareStack = true → x.start = true →
      (rt'.stackMems x.stackMem).stackBp = (rt.stackMems x.stackMem).stackBp ∧
      ((rt'.stackMems x.stackMem).occupyCo = some co ↔
        (rt.stackMems x.stackMem).occupyCo = some co) ∧
      ((rt.stackMems x.stackMem).occupyCo = some co → ∀ addr, x.stackSp ≤ addr →
        addr < (rt.stackMems x.stackMem).stackBp → P x.stackMem addr →
        (rt'.stackMems x.stackMem).bytes addr = (rt.stackMems x.stackMem).bytes addr)) :
    Safe rt' P co := by
  intro x' hx' hs' hst'
  obtain ⟨x, hx, hl⟩ := hleft x' hx'
  simp only [Coroutine.left, Prod.mk.injEq] at hl
  obtain ⟨hst, hs, hm, hsp, hsize, hbuf⟩ := hl
  rw [hst] at hst'
  rw [hs] at hs'
  obtain ⟨hbp, hocc, hbytes⟩ := hmem x hx hs' hst'
  obtain ⟨w, hw, hon, hsaved⟩ := S x hx hs' hst'
  refine ⟨w, by rw [hout, hsp, hw], fun ho ↦ ?_, fun ho ↦ ?_⟩
  · rw [hm, hocc] at ho
    intro addr hge hlt hP
    rw [hsp] at hge
    rw [hm, hbp] at hlt
    rw [hm] at hP ⊢
    rw [hbytes ho addr hge hlt hP]
    exact hon ho addr hge hlt hP
  · rw [hm, ne_eq, hocc] at ho
    obtain ⟨buf, h₁, h₂, h₃, h₄⟩ := hsaved ho
    exact ⟨buf, hbuf.trans h₁, hsize.trans h₂, by rw [hm, hbp, hsp, h₃],
      fun i hi ↦ by rw [hm, hsp]; exact h₄ i hi⟩

/-- A step that leaves the stack memories alone keeps what keeps its record. -/
theorem Safe.of_stacks_eq (S : Safe rt P co)
    (hleft : ∀ x', rt'.cos co = some x' → ∃ x, rt.cos co = some x ∧ x'.left = x.left)
    (hout : rt'.out co = rt.out co) (hstacks : rt'.stackMems = rt.stackMems) : Safe rt' P co :=
  S.of_left hleft hout fun _ _ _ _ ↦ by simp [hstacks]

theorem setCo_left {d : CoId} (hx : rt.cos d = some x) {y : Coroutine} (hy : y.left = x.left)
    (e : CoId) (z : Coroutine) (hz : (rt.setCo d y).cos e = some z) :
    ∃ z', rt.cos e = some z' ∧ z.left = z'.left := by
  rcases eq_or_ne e d with rfl | he
  · simp only [setCo, update_self, Option.some.injEq] at hz
    exact ⟨x, hx, hz ▸ hy⟩
  · simp only [setCo, update_of_ne he] at hz
    exact ⟨z, hz, rfl⟩

/-! ### The phases of a switch -/

/-- Every occupant of a stack memory is a started coroutine on that stack. -/
def OccupantsOnStack (rt : Runtime) : Prop :=
  ∀ m o, (rt.stackMems m).occupyCo = some o →
    ∃ x, rt.cos o = some x ∧ x.start = true ∧ x.isShareStack = true ∧ x.stackMem = m

/-- A coroutine that is switched out is safe: it occupies its stack. -/
theorem switchOut_safe (h : rt.switchOut co sp = some rt')
    (hocc : ∀ x, rt.cos co = some x → x.isShareStack = true →
      (rt.stackMems x.stackMem).occupyCo = some co) {d : CoId} (S : d ≠ co → Safe rt P d) :
    Safe rt' P d := by
  obtain ⟨c, hc, rfl⟩ := switchOut_cases h
  rcases eq_or_ne d co with rfl | hd
  · intro x hx hs _
    simp only [setCo, update_self, Option.some.injEq] at hx
    subst hx
    refine ⟨(rt.stackMems c.stackMem).bytes, by simp, fun _ _ _ _ _ ↦ rfl, fun hne ↦ ?_⟩
    exact absurd (hocc c hc hs) hne
  · refine (S hd).of_stacks_eq (fun x' hx' ↦ ⟨x', ?_, rfl⟩) (update_of_ne hd _ _) rfl
    simpa [setCo, hd] using hx'

/-- `StackBufferSave` of the occupant `o`, after `pending` has taken the stack. -/
theorem stackBufferSave_safe {o d : CoId} {p : Coroutine}
    (ho : (rt.stackMems p.stackMem).occupyCo = some o) (hop : o ≠ pending)
    (hon : OccupantsOnStack rt) (h : (rt.takeStack pending p).stackBufferSave o = some rt')
    (hd : d ≠ pending) (S : Safe rt P d) : Safe rt' P d := by
  obtain ⟨x, hx, rfl⟩ := stackBufferSave_cases h
  change rt.cos o = some x at hx
  obtain ⟨x', hx', -, -, hm⟩ := hon _ o ho
  obtain rfl : x = x' := Option.some.inj (hx.symm.trans hx')
  rcases eq_or_ne d o with rfl | hdo
  · intro y hy hs hst
    simp only [setCo, update_self, Option.some.injEq] at hy
    subst hy
    obtain ⟨w, hw, hstack, -⟩ := S x hx hs hst
    refine ⟨w, hw, fun hocc ↦ ?_, fun _ ↦ ?_⟩
    · -- The stack is now the pending coroutine's.
      simp [savedCo, setCo, takeStack, setStack, hm] at hocc
      exact absurd hocc.symm hd
    · have hstack := hstack (hm ▸ ho)
      refine ⟨_, rfl, by simp [savedCo], ?_, fun i hi hP ↦ ?_⟩
      · simp [savedCo, setCo, takeStack, setStack, hm]
      · simp only [takeStack, setStack, hm, update_self, List.length_map,
          List.length_range] at hi
        have := hstack (x.stackSp + i) (Nat.le_add_right _ _) (by rw [hm]; omega) hP
        change _ = w (x.stackSp + i)
        simpa [takeStack, setStack, hm, List.getD_eq_getElem?_getD, hi] using this
  · refine S.of_left (fun z hz ↦ ⟨z, ?_, rfl⟩) rfl fun y hy _ _ ↦ ?_
    · simpa [setCo, takeStack, setStack, hdo] using hz
    · by_cases hym : y.stackMem = p.stackMem
      · have h₁ : some o ≠ some d := fun e ↦ hdo (Option.some.inj e).symm
        have h₂ : some pending ≠ some d := fun e ↦ hd (Option.some.inj e).symm
        simp [setCo, takeStack, setStack, hym, ho, h₁, h₂]
      · simp [setCo, takeStack, setStack, hym]

/-- The coroutine that takes its stack is the occupant then, and the other coroutines stay safe. -/
theorem occupyStack_safe (h : rt.occupyStack pending = some rt') (hon : OccupantsOnStack rt)
    {d : CoId} (hd : d ≠ pending) (S : Safe rt P d) : Safe rt' P d := by
  obtain ⟨p, hp, ⟨-, rfl⟩ | ⟨-, hocc, rfl⟩ | ⟨-, o, ho, hop, ho'⟩⟩ := occupyStack_cases h
  · exact S.of_stacks_eq (fun z hz ↦ ⟨z, hz, rfl⟩) rfl rfl
  · refine S.of_left (fun z hz ↦ ⟨z, hz, rfl⟩) rfl fun y hy _ _ ↦ ?_
    by_cases hym : y.stackMem = p.stackMem
    · have h₁ : (rt.stackMems p.stackMem).occupyCo ≠ some d := fun e ↦ hd (hocc d e)
      have h₂ : some pending ≠ some d := fun e ↦ hd (Option.some.inj e).symm
      simp [takeStack, setStack, hym, h₁, h₂]
    · simp [takeStack, setStack, hym]
  · exact stackBufferSave_safe ho hop hon ho' hd S

/-- What the restore step of the pending coroutine goes by: it is the last occupant itself and its
contents are on the stack, or another coroutine was and its contents are saved. -/
def Restores (rt : Runtime) (P : ℕ → ℕ → Prop) (pending : CoId) (x : Coroutine)
    (w : ℕ → UInt8) : Prop :=
  rt.env.occupyCo = some pending ∧ rt.env.pendingCo = some pending ∧ OnStack rt P x w ∨
    ∃ o, o ≠ pending ∧ rt.env.occupyCo = some o ∧ rt.env.pendingCo = some pending ∧
      Saved rt P x w

/-- A pending coroutine that was safe and finds its stack occupied is ready to be restored. -/
theorem occupyStack_restores (h : rt.occupyStack pending = some rt')
    (hx : rt.cos pending = some x) (hs : x.isShareStack = true) (hst : x.start = true)
    (S : Safe rt P pending) (hsome : (rt.stackMems x.stackMem).occupyCo.isSome) :
    ∃ w, rt'.cos pending = some x ∧ rt'.out pending = some (x.stackSp, w) ∧
      Restores rt' P pending x w := by
  obtain ⟨w, hw, hstack, hsaved⟩ := S x hx hs hst
  refine ⟨w, ?_⟩
  obtain ⟨p, hp, ⟨hns, -⟩ | ⟨-, hocc, rfl⟩ | ⟨-, o, ho, hop, ho'⟩⟩ := occupyStack_cases h
  · rw [hx] at hp
    rw [Option.some.inj hp, hns] at hs
    cases hs
  · obtain rfl : x = p := Option.some.inj (hx.symm.trans hp)
    obtain ⟨o, ho⟩ := Option.isSome_iff_exists.1 hsome
    rw [hocc o ho] at ho
    refine ⟨hx, hw, .inl ⟨ho, rfl, fun addr hge hlt hP ↦ ?_⟩⟩
    simp only [takeStack, setStack, update_self] at hlt ⊢
    exact hstack ho addr hge hlt hP
  · obtain rfl : x = p := Option.some.inj (hx.symm.trans hp)
    have hne : (rt.stackMems x.stackMem).occupyCo ≠ some pending := fun e ↦
      hop (Option.some.inj (ho.symm.trans e))
    obtain ⟨y, hy, rfl⟩ := stackBufferSave_cases ho'
    obtain ⟨buf, h₁, h₂, h₃, h₄⟩ := hsaved hne
    refine ⟨?_, hw, .inr ⟨o, hop, ho, rfl, buf, h₁, h₂, ?_, h₄⟩⟩
    · simpa [setCo, takeStack, setStack, hop.symm] using hx
    · simpa [setCo, takeStack, setStack] using h₃

theorem occupyStack_pendingCo (h : rt.occupyStack pending = some rt') (c : CoId)
    (hc : rt'.env.pendingCo = some c) :
    c = pending ∧ ∀ p, rt.cos pending = some p →
      (rt'.stackMems p.stackMem).occupyCo = some pending := by
  obtain ⟨p, hp, -, -, -, hocc⟩ := occupyStack_spec h
  obtain ⟨p', hp', ⟨-, rfl⟩ | ⟨hs, -, rfl⟩ | ⟨hs, o, -, -, ho⟩⟩ := occupyStack_cases h
  · simp at hc
  all_goals
    obtain rfl : p = p' := Option.some.inj (hp.symm.trans hp')
    refine ⟨?_, fun q hq ↦ ?_⟩
  · exact (Option.some.inj hc).symm
  · obtain rfl : p = q := Option.some.inj (hp.symm.trans hq)
    rw [hocc, occupantAfter, if_pos ⟨hs, rfl⟩]
  · rw [(stackBufferSave_spec ho).2.2.2.2] at hc
    exact (Option.some.inj hc).symm
  · obtain rfl : p = q := Option.some.inj (hp.symm.trans hq)
    rw [hocc, occupantAfter, if_pos ⟨hs, rfl⟩]

/-- The restore step writes on the stack of the pending coroutine only, which occupies it. -/
theorem restoreStack_safe (h : rt.restoreStack = some rt')
    (hpend : ∀ c, rt.env.pendingCo = some c → c ≠ co ∧ ∀ p, rt.cos c = some p →
      (rt.stackMems p.stackMem).occupyCo = some c) (S : Safe rt P co) : Safe rt' P co := by
  obtain rfl | ⟨o, c, p, buf, -, hc, -, hp, -, -, rfl⟩ := restoreStack_cases h
  · exact S
  · obtain ⟨hne, hocc⟩ := hpend c hc
    refine S.of_left (fun z hz ↦ ⟨z, hz, rfl⟩) rfl fun y hy _ _ ↦ ?_
    by_cases hym : y.stackMem = p.stackMem
    · have h₁ : some c ≠ some co := fun e ↦ hne (Option.some.inj e)
      simp [setStack, copyBack, hym, hocc p hp, h₁]
    · simp [setStack, hym]

/-- After the restore step the contents of the pending coroutine are on its stack. -/
theorem restoreStack_onStack {w : ℕ → UInt8} (h : rt.restoreStack = some rt')
    (hx : rt.cos pending = some x) (R : Restores rt P pending x w) : OnStack rt' P x w := by
  obtain ⟨hocc, hpend, hstack⟩ | ⟨o, hop, hocc, hpend, buf, hbuf, hsize, hlen, hget⟩ := R
  · rw [restoreStack, hocc, hpend] at h
    simp only [ne_eq, not_true_eq_false, ↓reduceIte, Option.some.injEq] at h
    exact h ▸ hstack
  · rw [restoreStack, hocc, hpend] at h
    simp only [ne_eq, hop, not_false_eq_true, ↓reduceIte, hx, hbuf] at h
    split at h
    next hpos =>
      obtain rfl := Option.some.inj h
      intro addr hge hlt hP
      simp only [setStack, copyBack, update_self] at hlt ⊢
      -- The address lies in the part that is copied.
      have hi : addr - x.stackSp < buf.length := by omega
      have haddr : x.stackSp + (addr - x.stackSp) = addr := Nat.add_sub_cancel' hge
      rw [if_pos ⟨hge, by omega⟩, hget _ hi (haddr.symm ▸ hP), haddr]
    next hpos =>
      obtain rfl := Option.some.inj h
      intro addr hge hlt hP
      omega

/-! ### A switch -/

variable {curr d : CoId}

theorem coSwap_cases (h : rt.coSwap curr pending sp = some rt') :
    ∃ rt₁ rt₂, rt.switchOut curr sp = some rt₁ ∧ rt₁.occupyStack pending = some rt₂ ∧
      rt₂.coCtxSwap curr pending = some rt' := by
  rw [coSwap, Option.bind_eq_some_iff] at h
  obtain ⟨rt₁, h₁, h⟩ := h
  rw [Option.bind_eq_some_iff] at h
  obtain ⟨rt₂, h₂, h₃⟩ := h
  exact ⟨rt₁, rt₂, h₁, h₂, h₃⟩

theorem OccupantsOnStack.switchOut (hon : OccupantsOnStack rt)
    (h : rt.switchOut curr sp = some rt') : OccupantsOnStack rt' := by
  obtain ⟨hk, -, -, hst⟩ := switchOut_spec h
  intro m o ho
  rw [hst] at ho
  obtain ⟨x, hx, h₁, h₂, h₃⟩ := hon m o ho
  obtain ⟨x', hx', h₁', -, h₂', h₃'⟩ := hk.map_fixed' hx
  exact ⟨x', hx', h₁'.trans h₁, h₂'.trans h₂, h₃'.trans h₃⟩

/-- The register contents that `co_ctx_swap` stores are no part of what a coroutine left. -/
theorem saveCtx_safe {c : Coroutine} (hc : rt.cos curr = some c) (S : Safe rt P d) :
    Safe (rt.saveCtx curr c) P d :=
  S.of_stacks_eq (setCo_left hc (y := { c with ctx := .saved rt.running }) rfl d) rfl rfl

theorem coCtxSwap_safe (h : rt.coCtxSwap curr pending = some rt')
    (hpend : ∀ c, rt.env.pendingCo = some c → c ≠ d ∧ ∀ p, rt.cos c = some p →
      (rt.stackMems p.stackMem).occupyCo = some c) (S : Safe rt P d) : Safe rt' P d := by
  obtain ⟨c, p, hc, -, hload⟩ := coCtxSwap_cases h
  have S' := saveCtx_safe hc S
  obtain ⟨co, ⟨-, rfl⟩ | ⟨-, hres⟩⟩ := loadCtx_cases hload
  · exact S'
  · refine restoreStack_safe hres (fun e he ↦ ?_) S'
    obtain ⟨hne, hocc⟩ := hpend e he
    refine ⟨hne, fun q hq ↦ ?_⟩
    obtain ⟨q', hq', -, -, -, hm⟩ := (setCo_keeps hc (y := { c with ctx := .saved rt.running })
      rfl).map_fixed hq
    rw [hm]
    exact hocc q' hq'

/-- **A switch keeps the coroutines safe** that it does not switch to, the one that is switched out
included. -/
theorem coSwap_safe (h : rt.coSwap curr pending sp = some rt') (hon : OccupantsOnStack rt)
    (hocc : ∀ x, rt.cos curr = some x → x.isShareStack = true →
      (rt.stackMems x.stackMem).occupyCo = some curr)
    (hd : d ≠ pending) (S : d ≠ curr → Safe rt P d) : Safe rt' P d := by
  obtain ⟨rt₁, rt₂, h₁, h₂, h₃⟩ := coSwap_cases h
  have S₂ := occupyStack_safe h₂ (hon.switchOut h₁) hd (switchOut_safe h₁ hocc S)
  obtain ⟨p, hp, hk, -⟩ := occupyStack_spec h₂
  refine coCtxSwap_safe h₃ (fun c hc ↦ ?_) S₂
  obtain ⟨rfl, hocc₂⟩ := occupyStack_pendingCo h₂ c hc
  refine ⟨hd.symm, fun q hq ↦ ?_⟩
  obtain ⟨q', hq', -, -, -, hm⟩ := hk.map_fixed hq
  rw [hm]
  exact hocc₂ q' hq'

/-- **A switch hands back what was left**: the coroutine it switches to, if it was safe and finds
its stack occupied, has its contents on the stack afterwards. -/
theorem coSwap_onStack (h : rt.coSwap curr pending sp = some rt')
    (hocc : ∀ x, rt.cos curr = some x → x.isShareStack = true →
      (rt.stackMems x.stackMem).occupyCo = some curr)
    (hx : rt.cos pending = some x) (hs : x.isShareStack = true) (hst : x.start = true)
    (S : pending ≠ curr → Safe rt P pending)
    (hctx : pending ≠ curr → x.ctx = .saved pending)
    (hsome : pending ≠ curr → (rt.stackMems x.stackMem).occupyCo.isSome) :
    ∃ x' w, rt'.cos pending = some x' ∧ rt'.out pending = some (x'.stackSp, w) ∧
      OnStack rt' P x' w := by
  obtain ⟨rt₁, rt₂, h₁, h₂, h₃⟩ := coSwap_cases h
  obtain ⟨hk₁, hctx₁, hrun₁, hst₁⟩ := switchOut_spec h₁
  obtain ⟨p, -, hk₂, hctx₂, hrun₂, -⟩ := occupyStack_spec h₂
  obtain ⟨x₁, hx₁, hstart₁, -, hshare₁, hmem₁⟩ := hk₁.map_fixed' hx
  have hsome₁ : (rt₁.stackMems x₁.stackMem).occupyCo.isSome := by
    rw [hst₁, hmem₁]
    rcases eq_or_ne pending curr with rfl | hpc
    · rw [hocc x hx hs]; rfl
    · exact hsome hpc
  obtain ⟨w, hx₂, hw, R⟩ := occupyStack_restores h₂ hx₁ (hshare₁.trans hs) (hstart₁.trans hst)
    (switchOut_safe h₁ hocc S) hsome₁
  obtain ⟨c, p, hc, hp, hload⟩ := coCtxSwap_cases h₃
  -- The record of the pending coroutine differs from `x₁` in its context at most.
  obtain ⟨ctx, rfl⟩ : ∃ ctx, p = { x₁ with ctx := ctx } := by
    rcases eq_or_ne pending curr with rfl | hpc
    · obtain rfl : c = x₁ := Option.some.inj (hc.symm.trans hx₂)
      simp only [saveCtx, setCo, update_self, Option.some.injEq] at hp
      exact ⟨_, hp.symm⟩
    · simp only [saveCtx, setCo, update_of_ne hpc, hx₂, Option.some.injEq] at hp
      exact ⟨_, hp.symm⟩
  -- It is suspended inside `CoSwap`, so that the restore step runs.
  have hsaved : ∃ co, ctx = .saved co := by
    rcases eq_or_ne pending curr with rfl | hpc
    · simp only [saveCtx, setCo, update_self, Option.some.injEq] at hp
      exact ⟨_, (congrArg Coroutine.ctx hp).symm⟩
    · have hold : rt₂.ctxOf pending = some (.saved pending) := by
        rw [hctx₂, hctx₁, ctxOf_eq hx, hctx hpc]
      simp only [saveCtx, setCo, update_of_ne hpc] at hp
      rw [ctxOf_eq hp] at hold
      exact ⟨_, Option.some.inj hold⟩
  obtain ⟨co, rfl⟩ := hsaved
  obtain ⟨co', ⟨hentry, -⟩ | ⟨hco, hres⟩⟩ := loadCtx_cases hload
  · cases hentry
  · obtain ⟨-, hcos, -, hout, -⟩ := restoreStack_spec hres
    refine ⟨_, w, (congrFun hcos pending).trans hp, (congrFun hout pending).trans hw, ?_⟩
    exact restoreStack_onStack hres hp R

/-! ### Every step keeps the contents -/

/-- Between two steps: the coroutines of the shared stack are on its stack memories and the others
are not, the coroutine that runs occupies its stack, and every other one is safe. -/
structure Kept (rt : Runtime) (P : ℕ → ℕ → Prop) (active : List CoId) : Prop
    extends Wf rt active where
  placed : ∀ c x, rt.cos c = some x → (x.isShareStack = true ↔ x.stackMem < rt.share.count)
  le_next : rt.share.count ≤ rt.nextStack
  occupies : ∀ x, rt.cos rt.running = some x → x.isShareStack = true →
    (rt.stackMems x.stackMem).occupyCo = some rt.running
  safe : ∀ c, c ≠ rt.running → Safe rt P c

theorem kept_initial (P : ℕ → ℕ → Prop) (share : ShareStack) (coFunc : ℕ) (buffer : ℕ → ℕ)
    (mainBuffer : ℕ) : Kept (initial share coFunc buffer mainBuffer) P [0] where
  toWf := wf_initial share coFunc buffer mainBuffer
  placed c x hx := by
    rcases eq_or_ne c 0 with rfl | hc
    · obtain rfl := Option.some.inj hx
      simp [newCo, initial]
    · simp [initial, hc] at hx
  le_next := Nat.le_succ _
  occupies x hx hs := by
    obtain rfl := Option.some.inj hx
    cases hs
  safe c hc x hx := by
    have hc : c ≠ 0 := hc
    simp [initial, hc] at hx

/-- A switch from a state that is in order but for the pending coroutine. -/
theorem kept_of_coSwap (hon : OccupantsOnStack rt)
    (hplaced : ∀ c x, rt.cos c = some x → (x.isShareStack = true ↔ x.stackMem < rt.share.count))
    (hle : rt.share.count ≤ rt.nextStack)
    (hocc : ∀ x, rt.cos rt.running = some x → x.isShareStack = true →
      (rt.stackMems x.stackMem).occupyCo = some rt.running)
    (S : ∀ d, d ≠ rt.running → d ≠ pending → Safe rt P d)
    (h : rt.coSwap rt.running pending sp = some rt') (W : Wf rt' active)
    (hrun : rt'.running = pending) : Kept rt' P active := by
  obtain ⟨hk, -, -, -, p, hp, hocc'⟩ := coSwap_spec h
  refine ⟨W, fun c x hx ↦ ?_, ?_, fun x hx hs ↦ ?_, fun c hc ↦ ?_⟩
  · obtain ⟨y, hy, -, -, hsh, hm⟩ := hk.map_fixed hx
    rw [hsh, hm, hk.share]
    exact hplaced c y hy
  · rw [hk.share, hk.nextStack]
    exact hle
  · rw [hrun] at hx
    obtain ⟨y, hy, -, -, hsh, hm⟩ := hk.map_fixed hx
    obtain rfl : p = y := Option.some.inj (hp.symm.trans hy)
    rw [hocc', occupantAfter, if_pos ⟨hsh.symm.trans hs, hm⟩, hrun]
  · rw [hrun] at hc
    exact coSwap_safe h hon hocc hc fun hcr ↦ S c hcr hc

/-- The first start of a coroutine keeps the others safe, if it spares the occupant of its stack. -/
theorem Kept.startCo_safe (K : Kept rt P active) (hx : rt.cos co = some x)
    (hspare : SparesOccupant P rt (.resume co sp)) (hd : d ≠ rt.running) (hdc : d ≠ co) :
    Safe (rt.startCo co x) P d := by
  obtain ⟨hother, -⟩ := startCo_cos hx
  rw [startCo]
  split
  next => exact K.safe d hd
  next hst =>
    have hst : x.start = false := by simpa using hst
    refine (K.safe d hd).of_left (fun z hz ↦ ⟨z, ?_, rfl⟩) rfl fun y hy hs _ ↦ ?_
    · simpa [coCtxMake, setCo, setStack, hdc] using hz
    · by_cases hym : y.stackMem = x.stackMem
      · have hxs : x.isShareStack = true := by
          rw [K.placed co x hx, ← hym]
          exact (K.placed d y hy).1 hs
        refine ⟨by simp [coCtxMake, setCo, setStack, hym],
          by simp [coCtxMake, setCo, setStack, hym], fun ho addr hge hlt hP ↦ ?_⟩
        simp only [coCtxMake, setCo, setStack, hym, update_self]
        rw [hym] at ho hlt hP
        by_cases haddr : entrySlot x ≤ addr ∧ addr < entrySlot x + 8
        · obtain ⟨i, rfl⟩ := Nat.exists_eq_add_of_le haddr.1
          exact hspare co rfl x hx hxs hst d ho hd y hy i (by omega) hge hlt hP
        · rw [entryBytes, if_neg haddr]
      · simp [coCtxMake, setCo, setStack, hym]

theorem Kept.coResume (K : Kept rt P active) (hspare : SparesOccupant P rt (.resume co sp))
    (h : rt.coResume co sp = some rt') : Kept rt' P (co :: active) := by
  obtain ⟨x, hx, hlim, h⟩ := (coResume_eq_some K.toWf).1 h
  obtain ⟨-, -, hrun, hocc⟩ := startCo_fields rt co x
  obtain ⟨hother, y, hy, -, hsh, hm, -⟩ := startCo_cos hx
  have hshare : (rt.startCo co x).share = rt.share ∧
      (rt.startCo co x).nextStack = rt.nextStack := by
    rw [startCo]
    split <;> exact ⟨rfl, rfl⟩
  have hrun' : ((rt.startCo co x).pushed co).running = rt.running := hrun
  rw [← hrun'] at h
  have L := K.toWf.laid_pushed hx hlim
  obtain ⟨W', hrunning⟩ := L.coSwap rfl (K.toWf.saved_pushed hx) h
  have hplaced : ∀ c z, (rt.startCo co x).cos c = some z →
      (z.isShareStack = true ↔ z.stackMem < rt.share.count) := fun c z hz ↦ by
    rcases eq_or_ne c co with rfl | hc
    · obtain rfl : y = z := Option.some.inj (hy.symm.trans hz)
      rw [hsh, hm]
      exact K.placed c x hx
    · exact K.placed c z (hother c hc ▸ hz)
  refine kept_of_coSwap L.occupant (fun c z hz ↦ ?_) ?_ (fun z hz hs ↦ ?_)
    (fun d hd hdc ↦ ?_) h W' hrunning
  · change _ ↔ _ < (rt.startCo co x).share.count
    rw [hshare.1]
    exact hplaced c z hz
  · change (rt.startCo co x).share.count ≤ (rt.startCo co x).nextStack
    rw [hshare.1, hshare.2]
    exact K.le_next
  · change (rt.startCo co x).cos (rt.startCo co x).running = some z at hz
    change ((rt.startCo co x).stackMems z.stackMem).occupyCo = some (rt.startCo co x).running
    rw [hocc, hrun]
    rw [hrun] at hz
    by_cases hc : rt.running = co
    · rw [← hc] at hx hy
      rw [hc] at hz
      obtain rfl : y = z := Option.some.inj (hy.symm.trans (hc ▸ hz))
      rw [hm]
      exact K.occupies x hx (hsh ▸ hs)
    · rw [hother _ hc] at hz
      exact K.occupies z hz hs
  · exact K.startCo_safe hx hspare (hrun' ▸ hd) hdc

/-- `CoResume` of a started coroutine hands back what it left. -/
theorem Kept.coResume_onStack (K : Kept rt P active) (h : rt.coResume co sp = some rt')
    (hx : rt.cos co = some x) (hs : x.isShareStack = true) (hst : x.start = true)
    (hsome : co ≠ rt.running → (rt.stackMems x.stackMem).occupyCo.isSome) :
    ∃ x' w, rt'.cos co = some x' ∧ rt'.out co = some (x'.stackSp, w) ∧ OnStack rt' P x' w := by
  obtain ⟨y, hy, -, h⟩ := (coResume_eq_some K.toWf).1 h
  obtain rfl : x = y := Option.some.inj (hx.symm.trans hy)
  rw [startCo, if_pos hst] at h
  -- Only the call stack has changed before the switch.
  exact coSwap_onStack h K.occupies hx hs hst (K.safe co)
    (fun hc ↦ K.saved co x hx hc (.inl hst)) hsome

theorem Kept.coYield (K : Kept rt P active) (h : rt.coYield sp = some rt') :
    Kept rt' P active.tail := by
  obtain ⟨last, hlast, h'⟩ := (coYield_eq_some K.toWf).1 h
  obtain ⟨L, hhead⟩ := K.toWf.laid_popped hlast
  obtain ⟨W', hrunning⟩ := L.coSwap hhead
    (fun c x hx hc hmem ↦ .inl (K.saved c x hx hc (hmem.imp_right List.mem_of_mem_tail))) h'
  exact kept_of_coSwap L.occupant K.placed K.le_next K.occupies
    (fun d hd _ ↦ K.safe d hd) h' W' hrunning

/-- `CoYield` hands back what the coroutine below left. -/
theorem Kept.coYield_onStack (K : Kept rt P active) (h : rt.coYield sp = some rt')
    (hlast : rt.env.callAt (rt.env.callStackSize - 2) = some co)
    (hx : rt.cos co = some x) (hs : x.isShareStack = true) (hst : x.start = true)
    (hsome : co ≠ rt.running → (rt.stackMems x.stackMem).occupyCo.isSome) :
    ∃ x' w, rt'.cos co = some x' ∧ rt'.out co = some (x'.stackSp, w) ∧ OnStack rt' P x' w := by
  rw [Runtime.coYield, hlast, K.callAt_top] at h
  exact coSwap_onStack h K.occupies hx hs hst (K.safe co)
    (fun hc ↦ K.saved co x hx hc (.inl hst)) hsome

/-- A record may be rewritten where the rewrite keeps what it says about the stack. -/
theorem Kept.setCo {y : Coroutine} (K : Kept rt P active) (hx : rt.cos co = some x)
    (hy : y.left = x.left) (W : Wf (rt.setCo co y) active) : Kept (rt.setCo co y) P active := by
  have hleft := setCo_left hx hy
  refine ⟨W, fun c z hz ↦ ?_, K.le_next, fun z hz hs ↦ ?_, fun c hc ↦ ?_⟩
  · obtain ⟨z', hz', hl⟩ := hleft c z hz
    simp only [Coroutine.left, Prod.mk.injEq] at hl
    rw [hl.2.1, hl.2.2.1]
    exact K.placed c z' hz'
  · obtain ⟨z', hz', hl⟩ := hleft _ z hz
    simp only [Coroutine.left, Prod.mk.injEq] at hl
    rw [hl.2.2.1]
    exact K.occupies z' hz' (hl.2.1 ▸ hs)
  · exact (K.safe c hc).of_stacks_eq (hleft c) rfl rfl

theorem Kept.coFuncEnd_eq (K : Kept rt P active) (h : rt.coFuncEnd sp = some rt') :
    ∃ x, rt.cos rt.running = some x ∧
      Kept (rt.setCo rt.running { x with ended := true }) P active ∧
      (rt.setCo rt.running { x with ended := true }).coYield sp = some rt' := by
  obtain ⟨x, hx, heq, W⟩ := K.toWf.coFuncEnd_eq sp
  exact ⟨x, hx, K.setCo hx rfl W, heq ▸ h⟩

/-- The body that runs writes on its own stack, which no other coroutine occupies. -/
theorem Kept.runBody (K : Kept rt P active) {bytes : ℕ → UInt8}
    (h : rt.runBody bytes = some rt') : Kept rt' P active := by
  have W := K.toWf.runBody h
  obtain ⟨x, hx, rfl⟩ := runBody_eq_some h
  refine ⟨W, K.placed, K.le_next, fun y hy hs ↦ ?_, fun c hc ↦ ?_⟩
  · obtain rfl : x = y := Option.some.inj (hx.symm.trans hy)
    simpa [setStack] using K.occupies x hx hs
  · refine (K.safe c hc).of_left (fun z hz ↦ ⟨z, hz, rfl⟩) rfl fun y hy hs _ ↦ ?_
    by_cases hym : y.stackMem = x.stackMem
    · have hxs : x.isShareStack = true := by
        rw [K.placed _ x hx, ← hym]
        exact (K.placed c y hy).1 hs
      have hne : some rt.running ≠ some c := fun e ↦ hc (Option.some.inj e).symm
      simp [setStack, hym, K.occupies x hx hxs, hne]
    · simp [setStack, hym]

theorem Kept.coCreate (K : Kept rt P active) (attr : CoAttr) (buffer : ℕ) :
    Kept (rt.coCreate attr buffer) P active := by
  have hrunne : rt.running ≠ rt.nextCo := by
    obtain ⟨x, hx⟩ := Option.isSome_iff_exists.1 (K.exists_of_mem _ K.toWf.running_mem)
    exact Nat.ne_of_lt (K.lt_next _ x hx)
  refine ⟨K.toWf.coCreate attr buffer, ?_, ?_, ?_, ?_⟩ <;> rw [Runtime.coCreate] <;>
    split
  · intro c x hx
    rcases eq_or_ne c rt.nextCo with rfl | hc
    · obtain rfl : _ = x := by simpa using hx
      simpa [newCo] using Nat.mod_lt _ rt.share.count_pos
    · exact K.placed c x (by simpa [hc] using hx)
  · intro c x hx
    rcases eq_or_ne c rt.nextCo with rfl | hc
    · obtain rfl : _ = x := by simpa using hx
      simpa [newCo] using K.le_next
    · exact K.placed c x (by simpa [hc] using hx)
  · exact K.le_next
  · exact Nat.le_succ_of_le K.le_next
  · intro x hx
    exact K.occupies x (by simpa [hrunne] using hx)
  · intro x hx hs
    have hx : rt.cos rt.running = some x := by simpa [hrunne] using hx
    have hm : x.stackMem ≠ rt.nextStack :=
      Nat.ne_of_lt (Nat.lt_of_lt_of_le ((K.placed _ x hx).1 hs) K.le_next)
    simpa [hm] using K.occupies x hx hs
  · intro c hc x hx hs hst
    rcases eq_or_ne c rt.nextCo with rfl | hcn
    · obtain rfl : _ = x := by simpa using hx
      cases hst
    · exact K.safe c hc x (by simpa [hcn] using hx) hs hst
  · intro c hc
    rcases eq_or_ne c rt.nextCo with rfl | hcn
    · intro x hx hs hst
      obtain rfl : _ = x := by simpa using hx
      cases hst
    · refine (K.safe c hc).of_left (fun z hz ↦ ⟨z, by simpa [hcn] using hz, rfl⟩) rfl
        fun y hy hs _ ↦ ?_
      have hm : y.stackMem ≠ rt.nextStack :=
        Nat.ne_of_lt (Nat.lt_of_lt_of_le ((K.placed c y hy).1 hs) K.le_next)
      simp [hm]

/-- A coroutine that is not active may be dropped or lose its start, and vacate stack memories. -/
theorem Kept.dropCo (K : Kept rt P active) {cos : CoId → Option Coroutine}
    {stackMems : ℕ → StackMem}
    (W : Wf { rt with cos := cos, stackMems := stackMems } active) (hco : co ∉ active)
    (hcos : ∀ d, d ≠ co → cos d = rt.cos d)
    (hnew : ∀ y, cos co = some y → y.start = false ∧
      ∃ x, rt.cos co = some x ∧ y.isShareStack = x.isShareStack ∧ y.stackMem = x.stackMem)
    (hstacks : ∀ m, stackMems m = rt.stackMems m ∨ stackMems m = (rt.stackMems m).vacate co) :
    Kept { rt with cos := cos, stackMems := stackMems } P active := by
  have hmem : ∀ m, (stackMems m).stackBp = (rt.stackMems m).stackBp ∧
      (stackMems m).bytes = (rt.stackMems m).bytes := fun m ↦ by
    rcases hstacks m with h | h <;> rw [h] <;> exact ⟨rfl, rfl⟩
  have hocc : ∀ m c, c ≠ co →
      ((stackMems m).occupyCo = some c ↔ (rt.stackMems m).occupyCo = some c) := fun m c hc ↦ by
    rcases hstacks m with h | h
    · rw [h]
    · rw [h, vacate_occupyCo]
      exact and_iff_left hc
  have hrun : rt.running ≠ co := fun e ↦ hco (e ▸ K.toWf.running_mem)
  refine ⟨W, fun c x hx ↦ ?_, K.le_next, fun x hx hs ↦ ?_, fun c hc ↦ ?_⟩
  · change cos c = some x at hx
    rcases eq_or_ne c co with rfl | hcc
    · obtain ⟨-, y, hy, hsh, hm⟩ := hnew x hx
      rw [hsh, hm]
      exact K.placed c y hy
    · exact K.placed c x (hcos c hcc ▸ hx)
  · change cos rt.running = some x at hx
    rw [hcos _ hrun] at hx
    exact (hocc _ _ hrun).2 (K.occupies x hx hs)
  · rcases eq_or_ne c co with rfl | hcc
    · intro x hx _ hst
      rw [(hnew x hx).1] at hst
      cases hst
    · refine (K.safe c hc).of_left (fun z hz ↦ ⟨z, (hcos c hcc).symm.trans hz, rfl⟩) rfl
        fun y hy hs _ ↦ ⟨(hmem _).1, hocc _ c hcc, fun _ addr _ _ _ ↦ ?_⟩
      exact congrFun (hmem _).2 addr

theorem setStack_vacate (m n : ℕ) :
    (rt.setStack m ((rt.stackMems m).vacate co)).stackMems n = rt.stackMems n ∨
      (rt.setStack m ((rt.stackMems m).vacate co)).stackMems n = (rt.stackMems n).vacate co := by
  rcases eq_or_ne n m with rfl | hn
  · exact .inr (update_self ..)
  · exact .inl (update_of_ne hn ..)

theorem Kept.coRelease (K : Kept rt P active) (hco : co ∉ active)
    (h : rt.coRelease co = some rt') : Kept rt' P active := by
  have W := K.toWf.coRelease hco h
  have hgone : ∀ y, update rt.cos co none co = some y → y.start = false ∧
      ∃ x, rt.cos co = some x ∧ y.isShareStack = x.isShareStack ∧ y.stackMem = x.stackMem :=
    fun y hy ↦ by simp at hy
  obtain ⟨x, -, ⟨-, rfl⟩ | ⟨-, rfl⟩⟩ := coRelease_eq_some h
  · exact K.dropCo W hco (fun d hd ↦ update_of_ne hd _ _) hgone (setStack_vacate _)
  · exact K.dropCo W hco (fun d hd ↦ update_of_ne hd _ _) hgone fun _ ↦ .inl rfl

theorem resetCo_fields (x : Coroutine) :
    (resetCo x).start = false ∧ (resetCo x).isShareStack = x.isShareStack ∧
      (resetCo x).stackMem = x.stackMem := by
  rw [resetCo]
  split <;> exact ⟨rfl, rfl, rfl⟩

theorem Kept.coReset (K : Kept rt P active) (hco : co ∉ active)
    (h : rt.coReset co = some rt') : Kept rt' P active := by
  have W := K.toWf.coReset hco h
  obtain rfl | ⟨x, hx, rfl⟩ := coReset_eq_some h
  · exact K
  · refine K.dropCo W hco (fun d hd ↦ update_of_ne hd _ _) (fun y hy ↦ ?_) (setStack_vacate _)
    simp only [Runtime.setCo, update_self, Option.some.injEq] at hy
    subst hy
    obtain ⟨h₁, h₂, h₃⟩ := resetCo_fields x
    exact ⟨h₁, x, hx, h₂, h₃⟩

/-- **Every step keeps the contents**, if the first start of a coroutine spares the occupant of its
stack. -/
theorem Kept.step (K : Kept rt P active) {a : Action} (hspare : SparesActive active a)
    (hfirst : SparesOccupant P rt a) (h : step rt a = some rt') :
    Kept rt' P (activeAfter active a) := by
  cases a with
  | create attr buffer => exact Option.some.inj h ▸ K.coCreate attr buffer
  | resume co sp => exact K.coResume hfirst h
  | yield sp => exact K.coYield h
  | finish sp =>
    obtain ⟨x, -, K', h⟩ := K.coFuncEnd_eq h
    exact K'.coYield h
  | release co => exact K.coRelease hspare h
  | reset co => exact K.coReset hspare h
  | run bytes => exact K.runBody h

/-- **Every switch hands back what was left**, where it finds the stack occupied. -/
theorem Kept.handsBackExact (K : Kept rt P active) {a : Action} (hfind : FindsOccupant rt a) :
    HandsBackExact P rt a := by
  intro rt' h co hco x hx hs hst
  have hsome := hfind co hco x hx hs hst
  cases a with
  | resume co' sp =>
    obtain rfl := Option.some.inj hco
    exact K.coResume_onStack h hx hs hst hsome
  | yield sp => exact K.coYield_onStack h hco hx hs hst hsome
  | finish sp =>
    obtain ⟨y, hy, K', h⟩ := K.coFuncEnd_eq h
    have hk := setCo_keeps hy (y := { y with ended := true }) rfl
    obtain ⟨x', hx', hst', -, hs', hm'⟩ := hk.map_fixed' hx
    refine K'.coYield_onStack h hco hx' (hs'.trans hs) (hst'.trans hst) fun hne ↦ ?_
    rw [hm']
    exact hsome hne
  | create attr buffer => cases hco
  | release co => cases hco
  | reset co => cases hco
  | run bytes => cases hco

/-! ### Runs -/

/-- The call stack holds the active coroutines. -/
theorem Wf.onCallStack_iff (W : Wf rt active) : OnCallStack rt co ↔ co ∈ active := by
  rw [← List.mem_reverse, List.mem_iff_getElem?]
  constructor
  · rintro ⟨i, hi, h⟩
    rw [W.size_eq] at hi
    exact ⟨i, (W.slot_eq i hi).symm.trans h⟩
  · rintro ⟨i, h⟩
    have hi : i < active.length := by
      simpa using (List.getElem?_eq_some_iff.1 h).1
    exact ⟨i, W.size_eq.symm ▸ hi, (W.slot_eq i hi).trans h⟩

theorem Wf.sparesActive (W : Wf rt active) {a : Action} (h : SparesCallStack rt a) :
    SparesActive active a := by
  cases a with
  | release co | reset co => exact fun hmem ↦ h (W.onCallStack_iff.2 hmem)
  | create | resume | yield | finish | run => trivial

variable {share : ShareStack} {coFunc : ℕ} {buffer : ℕ → ℕ} {mainBuffer : ℕ} {acts : List Action}

/-- **Shared-stack contents survive switching**: in every run in which no coroutine on the call
stack is released or reset, every switch back to a started coroutine finds an occupant on its stack
and every first start spares the suspended occupant of its stack, each switch hands back exactly
what the coroutine left. -/
theorem always_handsBackExact (P : ℕ → ℕ → Prop)
    (hspare : Machine.Always step SparesCallStack (initial share coFunc buffer mainBuffer) acts)
    (hfind : Machine.Always step FindsOccupant (initial share coFunc buffer mainBuffer) acts)
    (hfirst : Machine.Always step (SparesOccupant P) (initial share coFunc buffer mainBuffer)
      acts) :
    Machine.Always step (HandsBackExact P) (initial share coFunc buffer mainBuffer) acts := by
  have hP := Machine.always_and.2 ⟨hspare, Machine.always_and.2 ⟨hfind, hfirst⟩⟩
  refine Machine.always_of_invariant (I := fun rt ↦ ∃ active, Kept rt P active) ?_ ?_
    ⟨[0], kept_initial P share coFunc buffer mainBuffer⟩ hP
  · rintro rt a rt' ⟨active, K⟩ ⟨hs, -, hf⟩ h
    exact ⟨_, K.step (K.toWf.sparesActive hs) hf h⟩
  · rintro rt a ⟨active, K⟩ ⟨-, hf, -⟩
    exact K.handsBackExact hf

/-- Two coroutines take turns on one stack: what each of them has left there is saved when the other
one comes, and restored. The first one has zeros where the second one starts. -/
theorem always_handsBackExact_two_coroutines :
    Machine.Always step (HandsBackExact fun _ _ ↦ True)
      (initial oneStack 0 (fun _ ↦ 65536) 0)
      [.create { shareStack := true } 0, .create { shareStack := true } 0,
        .resume 1 0, .run fun addr ↦ if addr < 69600 then 0xAA else 0, .yield 69000,
        .resume 2 0, .run fun _ ↦ 0xBB, .yield 69100, .resume 1 0, .yield 69000, .resume 2 0] :=
  always_handsBackExact _ (by decide +kernel) (by decide +kernel) (by decide +kernel)

/-- The contents of one address, compared as in `HandsBackExact`. -/
def handsBackAt (addr : ℕ) (rt : Runtime) (a : Action) : Bool :=
  match step rt a, target rt a with
  | some rt', some co =>
    match rt.cos co, rt'.cos co, rt'.out co with
    | some x, some x', some (_, w) =>
      !(x.isShareStack && x.start && decide (x'.stackSp ≤ addr) &&
          decide (addr < (rt'.stackMems x'.stackMem).stackBp)) ||
        (rt'.stackMems x'.stackMem).bytes addr == w addr
    | _, _, _ => true
  | _, _ => true

theorem HandsBackExact.handsBackAt {rt : Runtime} {a : Action}
    (h : HandsBackExact (fun _ _ ↦ True) rt a) (addr : ℕ) : handsBackAt addr rt a = true := by
  rw [CoRoutine.handsBackAt]
  split
  next rt' co hrt' hco =>
    split
    next x x' sp w hx hx' hw =>
      simp only [Bool.or_eq_true, Bool.not_eq_true', Bool.and_eq_false_imp, Bool.and_eq_true,
        decide_eq_true_eq, beq_iff_eq, decide_eq_false_iff_not]
      refine or_iff_not_imp_left.2 fun hne ↦ ?_
      simp only [and_imp, not_forall, not_not] at hne
      obtain ⟨hs, hst, hge, hlt⟩ := hne
      obtain ⟨y, v, hy, hv, hbytes⟩ := h rt' hrt' co hco x hx hs hst
      obtain rfl : x' = y := Option.some.inj (hx'.symm.trans hy)
      obtain rfl : w = v := congrArg Prod.snd (Option.some.inj (hw.symm.trans hv))
      exact hbytes addr hge hlt trivial
    next => rfl
  next => rfl

/-- Two coroutines on one stack. The second one is the occupant when it is released. -/
def releasedOccupant : List Action :=
  [.create { shareStack := true } 0, .create { shareStack := true } 0, .resume 1 0,
    .resume 2 69000, .yield 69000, .yield 69000, .resume 2 0, .run fun _ ↦ 0xCC, .yield 69000,
    .release 2, .resume 1 0]

/-- Where the occupant has been released, the contents of the other coroutine on the stack are not
handed back: the last resume finds those of the released coroutine. -/
theorem not_always_handsBackExact_releasedOccupant :
    Machine.Always step SparesCallStack (initial oneStack 0 (fun _ ↦ 65536) 0) releasedOccupant ∧
      ¬ Machine.Always step (HandsBackExact fun _ _ ↦ True)
        (initial oneStack 0 (fun _ ↦ 65536) 0) releasedOccupant := by
  refine ⟨by decide +kernel, fun h ↦ ?_⟩
  have h' : Machine.Always step (fun rt a ↦ handsBackAt 69100 rt a = true)
      (initial oneStack 0 (fun _ ↦ 65536) 0) releasedOccupant :=
    Machine.always_mono (fun rt a hexact ↦ hexact.handsBackAt 69100) h
  revert h'
  decide +kernel

end CoRoutine
