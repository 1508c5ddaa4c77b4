import Mathlib.Data.Fin.VecNotation
import Mathlib.Data.Fintype.Basic
import Mathlib.Logic.Relation
import Mathlib.Tactic.FinCases
import MiscCpp.Library.X86

/-!
# The context switch

`co_ctx_swap` and `CoCtxMake`, on the machine. A `co_ctx` is at an address, with its fourteen words
`regs`; the runtime (`MiscCpp.Coroutine.Runtime`) has the coroutine whose registers they hold in
their place, and this is why it may: in a run of a thread whose coroutines keep off the contexts of
those that wait, what a coroutine finds when it is switched to is what it left
(`returns_to_caller`), or the entry that `CoCtxMake` has prepared (`enters`). The invariant is
`Inv`: the contexts of those that wait have the words that are recorded of them.

The stacks may overlap, as shared ones do: a switch takes the return address from the context and
not from the stack.
-/

open Function X86

namespace CtxSwap

/-! ### `co_ctx_swap` -/

/-- The first half of `co_ctx_swap`: the registers go to the context at `%rdi`. -/
def saves : List Instr :=
  [.lea 0 .rsp .rax, .store .rax 104 .rdi, .store .rbx 96 .rdi, .store .rcx 88 .rdi,
    .store .rdx 80 .rdi, .load 0 .rax .rax, .store .rax 72 .rdi, .store .rsi 64 .rdi,
    .store .rdi 56 .rdi, .store .rbp 48 .rdi, .store .r8 40 .rdi, .store .r9 32 .rdi,
    .store .r12 24 .rdi, .store .r13 16 .rdi, .store .r14 8 .rdi, .store .r15 0 .rdi,
    .xor .rax .rax]

/-- The second half: those of the context at `%rsi` are loaded, and its code goes on. -/
def restores : List Instr :=
  [.load 48 .rsi .rbp, .load 104 .rsi .rsp, .load 0 .rsi .r15, .load 8 .rsi .r14,
    .load 16 .rsi .r13, .load 24 .rsi .r12, .load 32 .rsi .r9, .load 40 .rsi .r8,
    .load 56 .rsi .rdi, .load 80 .rsi .rdx, .load 88 .rsi .rcx, .load 96 .rsi .rbx,
    .lea 8 .rsp .rsp, .push 72 .rsi, .load 64 .rsi .rsi, .ret]

def coCtxSwap : List Instr := saves ++ restores

/-- What `regs` of a `co_ctx` gets: the registers, and the return address. -/
def ctxRegs (s : State) : Fin 14 → Word :=
  ![s.regs .r15, s.regs .r14, s.regs .r13, s.regs .r12, s.regs .r9, s.regs .r8, s.regs .rbp,
    s.regs .rdi, s.regs .rsi, load s.mem (s.regs .rsp), s.regs .rdx, s.regs .rcx, s.regs .rbx,
    s.regs .rsp]

/-- The registers of a `co_ctx` by their place in it, but for `%rsp`. -/
def slot : Reg → Option (Fin 14)
  | .r15 => some 0
  | .r14 => some 1
  | .r13 => some 2
  | .r12 => some 3
  | .r9 => some 4
  | .r8 => some 5
  | .rbp => some 6
  | .rdi => some 7
  | .rsi => some 8
  | .rdx => some 10
  | .rcx => some 11
  | .rbx => some 12
  | .rax | .rsp | .r10 | .r11 => none

/-- The bytes of `regs`. -/
abbrev ctxRegion (ctx : Word) : Set Word := region ctx 112

/-- The context at `ctx` has these words. -/
def Holds (m : Memory) (ctx : Word) (w : Fin 14 → Word) : Prop :=
  ∀ k : Fin 14, load m (ctx + BitVec.ofNat 64 (8 * k)) = w k

variable {s : State} {m m' : Memory} {ctx : Word} {w : Fin 14 → Word}

theorem field_subset (ctx : Word) {i : ℕ} (hi : i + 8 ≤ 112) :
    region (ctx + BitVec.ofNat 64 i) 8 ⊆ ctxRegion ctx := region_add_subset hi (by decide)

theorem Holds.congr (h : Holds m ctx w) (heq : ∀ x ∈ ctxRegion ctx, m' x = m x) :
    Holds m' ctx w := by
  intro k
  rw [← h k]
  exact load_congr fun x hx ↦ heq x (field_subset ctx (by omega) hx)

/-- The order in which the words are stored. -/
def saveOrder : List (Fin 14) := [13, 12, 11, 10, 9, 8, 7, 6, 5, 4, 3, 2, 1, 0]

/-- **Saving** writes the context, and of the registers it only changes `%rax`. -/
theorem exec_saves (hstack : Disjoint (region (s.regs .rsp) 8) (ctxRegion (s.regs .rdi))) :
    (s.exec saves).regs = update s.regs .rax 0 ∧
      (s.exec saves).mem = storeFields (s.regs .rdi) (ctxRegs s) saveOrder s.mem := by
  constructor
  · simp [saves, State.execInstr, State.addr]
  · -- the return address is read when four words are stored
    have hret : load (storeFields (s.regs .rdi) (ctxRegs s) [13, 12, 11, 10] s.mem) (s.regs .rsp) =
        load s.mem (s.regs .rsp) :=
      load_congr fun x hx ↦ storeFields_of_notMem (by decide) (Set.disjoint_left.1 hstack hx)
    simp [storeFields, ctxRegs] at hret
    simp [saves, saveOrder, State.execInstr, State.addr, storeFields, ctxRegs, hret]

/-- The registers behind the second half. -/
def loaded (s : State) (w : Fin 14 → Word) : Reg → Word
  | .rsp => w 13 + 8
  | r => ((slot r).map w).getD (s.regs r)

/-- **Restoring** loads the registers, and the return address goes to the stack and is taken from
there. -/
theorem exec_restores (h : Holds s.mem (s.regs .rsi) w)
    (hstack : Disjoint (region (w 13) 8) (ctxRegion (s.regs .rsi))) :
    s.exec restores = ⟨loaded s w, w 9, store s.mem (w 13) (w 9)⟩ := by
  have hr15 : load s.mem (s.regs .rsi) = w 0 := by simpa using h 0
  have hr14 : load s.mem (s.regs .rsi + 8#64) = w 1 := h 1
  have hr13 : load s.mem (s.regs .rsi + 16#64) = w 2 := h 2
  have hr12 : load s.mem (s.regs .rsi + 24#64) = w 3 := h 3
  have hr9 : load s.mem (s.regs .rsi + 32#64) = w 4 := h 4
  have hr8 : load s.mem (s.regs .rsi + 40#64) = w 5 := h 5
  have hrbp : load s.mem (s.regs .rsi + 48#64) = w 6 := h 6
  have hrdi : load s.mem (s.regs .rsi + 56#64) = w 7 := h 7
  have hret : load s.mem (s.regs .rsi + 72#64) = w 9 := h 9
  have hrdx : load s.mem (s.regs .rsi + 80#64) = w 10 := h 10
  have hrcx : load s.mem (s.regs .rsi + 88#64) = w 11 := h 11
  have hrbx : load s.mem (s.regs .rsi + 96#64) = w 12 := h 12
  have hrsp : load s.mem (s.regs .rsi + 104#64) = w 13 := h 13
  -- `%rsi` is loaded behind the push
  have hrsi : load (store s.mem (w 13) (w 9)) (s.regs .rsi + 64#64) = w 8 :=
    (load_store_of_disjoint (hstack.mono_right (field_subset _ (i := 64) (by decide))).symm).trans
      (h 8)
  simp only [restores, State.exec_cons, State.exec_nil, State.execInstr, State.addr, State.setReg]
  simp [hr15, hr14, hr13, hr12, hr9, hr8, hrbp, hrdi, hret, hrdx, hrcx, hrbx, hrsp, hrsi]
  funext r
  cases r <;> simp [loaded, slot]

/-- **A switch** saves the caller's registers and goes on with the other context. -/
theorem exec_coCtxSwap (hstack : Disjoint (region (s.regs .rsp) 8) (ctxRegion (s.regs .rdi)))
    (hctx : Disjoint (ctxRegion (s.regs .rdi)) (ctxRegion (s.regs .rsi)))
    (h : Holds s.mem (s.regs .rsi) w)
    (hstack' : Disjoint (region (w 13) 8) (ctxRegion (s.regs .rsi))) :
    s.exec coCtxSwap = ⟨loaded { s with regs := update s.regs .rax 0 } w, w 9,
      store (storeFields (s.regs .rdi) (ctxRegs s) saveOrder s.mem) (w 13) (w 9)⟩ := by
  obtain ⟨hregs, hmem⟩ := exec_saves hstack
  have hrsi : (s.exec saves).regs .rsi = s.regs .rsi := by rw [hregs]; rfl
  have hholds : Holds (s.exec saves).mem ((s.exec saves).regs .rsi) w := by
    rw [hrsi, hmem]
    exact h.congr fun x hx ↦ storeFields_of_notMem (by decide) (Set.disjoint_right.1 hctx hx)
  rw [coCtxSwap, State.exec_append, exec_restores hholds (hrsi ▸ hstack'), hmem]
  refine congrArg (State.mk · _ _) (funext fun r ↦ ?_)
  cases r <;> simp [loaded, slot, hregs]

/-- The words of a context that goes on with the function `pfn` of two arguments. -/
def entryRegs (pfn s1 s2 sp : Word) : Fin 14 → Word :=
  ![0, 0, 0, 0, 0, 0, 0, s1, s2, pfn, 0, 0, 0, sp]

/-- `sp` of `CoCtxMake`. -/
def entrySp (ssSp ssSize : Word) : Word := (ssSp + ssSize - 8) &&& (-16)

/-- `CoCtxMake` on memory: `regs` is cleared, `pfn` goes to the stack and four words to `regs`. -/
def coCtxMake (m : Memory) (ctx pfn s1 s2 sp : Word) : Memory :=
  storeFields ctx (entryRegs pfn s1 s2 sp) [13, 9, 7, 8]
    (store (storeFields ctx (0 : Fin 14 → Word) (List.finRange 14) m) sp pfn)

theorem holds_coCtxMake {pfn s1 s2 sp : Word} (hsp : Disjoint (region sp 8) (ctxRegion ctx)) :
    Holds (coCtxMake m ctx pfn s1 s2 sp) ctx (entryRegs pfn s1 s2 sp) := by
  intro k
  have hcleared : load (store (storeFields ctx (0 : Fin 14 → Word) (List.finRange 14) m) sp pfn)
      (ctx + BitVec.ofNat 64 (8 * k)) = 0 := by
    rw [load_store_of_disjoint (hsp.mono_right (field_subset ctx (by omega))).symm,
      load_storeFields (by decide), if_pos (List.mem_finRange k)]
    rfl
  rw [coCtxMake, load_storeFields (by decide)]
  split
  next => rfl
  next hk =>
    rw [hcleared]
    revert hk
    fin_cases k <;> simp [entryRegs]

theorem coCtxMake_of_notMem {pfn s1 s2 sp x : Word} (hctx : x ∉ ctxRegion ctx)
    (hsp : x ∉ region sp 8) : coCtxMake m ctx pfn s1 s2 sp x = m x := by
  rw [coCtxMake, storeFields_of_notMem (by decide) hctx, store_of_notMem hsp,
    storeFields_of_notMem (by decide) hctx]

/-- The entry of a function finds its stack as the calling convention has it. -/
theorem toNat_entrySp (ssSp ssSize : Word) :
    (entrySp ssSp ssSize).toNat = (ssSp + ssSize - 8).toNat / 16 * 16 := by
  have hlt := (ssSp + ssSize - 8).isLt
  have hmask : (-16 : Word).toNat = (2 ^ 60 - 1) * 2 ^ 4 := rfl
  rw [entrySp, BitVec.toNat_and, hmask]
  refine Nat.eq_of_testBit_eq fun i ↦ ?_
  rw [show (16 : ℕ) = 2 ^ 4 from rfl, Nat.testBit_and, Nat.testBit_mul_two_pow,
    Nat.testBit_mul_two_pow, Nat.testBit_two_pow_sub_one, Nat.testBit_div_two_pow]
  rcases lt_or_ge i 4 with hi | hi
  · rw [decide_eq_false (not_le.2 hi), Bool.false_and, Bool.false_and, Bool.and_false]
  · rw [decide_eq_true hi, Bool.true_and, Bool.true_and, Nat.sub_add_cancel hi]
    rcases lt_or_ge i 64 with hi' | hi'
    · rw [decide_eq_true (by omega), Bool.and_true]
    · rw [Nat.testBit_lt_two_pow (hlt.trans_le (Nat.pow_le_pow_right (by decide) hi')),
        Bool.false_and]

/-! ### Runs -/

variable {ι : Type*} [DecidableEq ι]

/-- The machine with the coroutine that runs. `asleep` records the words with which the others wait
in their contexts. -/
structure Thread (ι : Type*) where
  machine : State
  running : ι
  asleep : ι → Option (Fin 14 → Word)

/-- What happens on a thread whose coroutines have their contexts at `ctx`. -/
inductive Step (ctx : ι → Word) : Thread ι → Thread ι → Prop
  /-- The running coroutine computes, and keeps off the contexts of those that wait. -/
  | compute {t : Thread ι} {s : State} :
      (∀ i w, t.asleep i = some w → ∀ x ∈ ctxRegion (ctx i), s.mem x = t.machine.mem x) →
      Step ctx t { t with machine := s }
  /-- `CoCtxMake` in the first `CoResume` of a coroutine. Its stack is beside all contexts. -/
  | make {t : Thread ι} (i : ι) (pfn s1 s2 sp : Word) :
      i ≠ t.running → t.asleep i = none →
      (∀ j, Disjoint (region sp 8) (ctxRegion (ctx j))) →
      Step ctx t { t with
        machine := { t.machine with mem := coCtxMake t.machine.mem (ctx i) pfn s1 s2 sp }
        asleep := update t.asleep i (some (entryRegs pfn s1 s2 sp)) }
  /-- `CoReset`: the context is not to be used again. -/
  | reset {t : Thread ι} (i : ι) : i ≠ t.running →
      Step ctx t { t with asleep := update t.asleep i none }
  /-- `co_ctx_swap(&curr->ctx, &pending->ctx)`, called on a stack that is beside all contexts. -/
  | swap {t : Thread ι} (j : ι) (w : Fin 14 → Word) :
      t.asleep j = some w → t.machine.regs .rdi = ctx t.running → t.machine.regs .rsi = ctx j →
      (∀ i, Disjoint (region (t.machine.regs .rsp) 8) (ctxRegion (ctx i))) →
      Step ctx t ⟨t.machine.exec coCtxSwap, j,
        update (update t.asleep t.running (some (ctxRegs t.machine))) j none⟩

/-- The contexts of those that wait have what is recorded, beside the stacks on which they wait. -/
structure Inv (ctx : ι → Word) (t : Thread ι) : Prop where
  running : t.asleep t.running = none
  holds : ∀ i w, t.asleep i = some w → Holds t.machine.mem (ctx i) w
  stack : ∀ i w, t.asleep i = some w → ∀ j, Disjoint (region (w 13) 8) (ctxRegion (ctx j))

variable {ctx : ι → Word} {t t' : Thread ι}

theorem holds_storeFields (m : Memory) (ctx : Word) (w : Fin 14 → Word) :
    Holds (storeFields ctx w saveOrder m) ctx w := by
  intro k
  rw [load_storeFields (by decide), if_pos]
  revert k
  decide

omit [DecidableEq ι] in
/-- A switch does what it says on the machine. -/
theorem Inv.exec_coCtxSwap (hctx : Pairwise (Disjoint on fun i ↦ ctxRegion (ctx i)))
    (h : Inv ctx t) {j : ι} {w : Fin 14 → Word} (hj : t.asleep j = some w)
    (hrdi : t.machine.regs .rdi = ctx t.running) (hrsi : t.machine.regs .rsi = ctx j)
    (hstack : ∀ i, Disjoint (region (t.machine.regs .rsp) 8) (ctxRegion (ctx i))) :
    t.running ≠ j ∧ t.machine.exec coCtxSwap =
      ⟨loaded { t.machine with regs := update t.machine.regs .rax 0 } w, w 9,
        store (storeFields (ctx t.running) (ctxRegs t.machine) saveOrder t.machine.mem)
          (w 13) (w 9)⟩ := by
  have hne : t.running ≠ j := fun heq ↦ by
    rw [← heq, h.running] at hj
    exact nomatch hj
  refine ⟨hne, ?_⟩
  rw [CtxSwap.exec_coCtxSwap (hrdi ▸ hstack _) (by rw [hrdi, hrsi]; exact hctx hne)
    (hrsi ▸ h.holds j w hj) (hrsi ▸ h.stack j w hj j), hrdi]

/-- **A step** keeps the contexts of those that wait. -/
theorem Inv.step (hctx : Pairwise (Disjoint on fun i ↦ ctxRegion (ctx i))) (h : Inv ctx t)
    (hstep : Step ctx t t') : Inv ctx t' := by
  rcases hstep with hframe | ⟨i, pfn, s1, s2, sp, hi, hnone, hsp⟩ | ⟨i, hi⟩ |
    ⟨j, w, hj, hrdi, hrsi, hstack⟩
  · exact ⟨h.running, fun i w hi ↦ (h.holds i w hi).congr (hframe i w hi), h.stack⟩
  · refine ⟨?_, fun k w hk ↦ ?_, fun k w hk ↦ ?_⟩
    · exact (update_of_ne hi.symm _ _).trans h.running
    all_goals dsimp only at hk ⊢
    · rcases eq_or_ne k i with rfl | hne
      · rw [update_self] at hk
        exact Option.some.inj hk ▸ holds_coCtxMake (hsp k)
      · rw [update_of_ne hne] at hk
        refine (h.holds k w hk).congr fun x hx ↦ coCtxMake_of_notMem ?_ ?_
        · exact Set.disjoint_left.1 (hctx hne) hx
        · exact Set.disjoint_right.1 (hsp k) hx
    · rcases eq_or_ne k i with rfl | hne
      · rw [update_self] at hk
        exact Option.some.inj hk ▸ hsp
      · rw [update_of_ne hne] at hk
        exact h.stack k w hk
  · refine ⟨?_, fun k w hk ↦ ?_, fun k w hk ↦ ?_⟩
    · exact (update_of_ne hi.symm _ _).trans h.running
    all_goals
      dsimp only at hk ⊢
      rcases eq_or_ne k i with rfl | hne
      · rw [update_self] at hk
        exact nomatch hk
      · rw [update_of_ne hne] at hk
        first | exact h.holds k w hk | exact h.stack k w hk
  · obtain ⟨hne, hexec⟩ := h.exec_coCtxSwap hctx hj hrdi hrsi hstack
    rw [hexec]
    refine ⟨update_self .., fun k w' hk ↦ ?_, fun k w' hk ↦ ?_⟩
    all_goals
      dsimp only at hk ⊢
      rcases eq_or_ne k j with rfl | hkj
      · rw [update_self] at hk
        exact nomatch hk
      rw [update_of_ne hkj] at hk
    · -- the slot of the return address is beside the contexts
      have hslot : ∀ x ∈ ctxRegion (ctx k), store (storeFields (ctx t.running)
          (ctxRegs t.machine) saveOrder t.machine.mem) (w 13) (w 9) x =
          storeFields (ctx t.running) (ctxRegs t.machine) saveOrder t.machine.mem x :=
        fun x hx ↦ store_of_notMem (Set.disjoint_right.1 (h.stack j w hj k) hx)
      rcases eq_or_ne k t.running with rfl | hkr
      · rw [update_self] at hk
        exact Option.some.inj hk ▸ (holds_storeFields _ _ _).congr hslot
      · rw [update_of_ne hkr] at hk
        refine (h.holds k w' hk).congr fun x hx ↦ (hslot x hx).trans ?_
        exact storeFields_of_notMem (by decide) (Set.disjoint_left.1 (hctx hkr) hx)
    · rcases eq_or_ne k t.running with rfl | hkr
      · rw [update_self] at hk
        exact Option.some.inj hk ▸ hstack
      · rw [update_of_ne hkr] at hk
        exact h.stack k w' hk

/-- What goes on with the words of a context: the registers are as in it, the stack is one word
shorter, the code continues at the return address, and the switch has returned `0`. -/
structure Resumes (s : State) (w : Fin 14 → Word) : Prop where
  regs : ∀ r k, slot r = some k → s.regs r = w k
  rsp : s.regs .rsp = w 13 + 8
  rip : s.rip = w 9
  rax : s.regs .rax = 0

/-- A coroutine that comes to run goes on with what is recorded of it. -/
theorem Inv.resumes (hctx : Pairwise (Disjoint on fun i ↦ ctxRegion (ctx i))) (h : Inv ctx t)
    {i : ι} {w : Fin 14 → Word} (hi : t.asleep i = some w) (hstep : Step ctx t t')
    (hrun : t'.running = i) : Resumes t'.machine w := by
  have hne : t.running ≠ i := fun heq ↦ by
    rw [← heq, h.running] at hi
    exact nomatch hi
  rcases hstep with _ | _ | _ | ⟨j, w', hj, hrdi, hrsi, hstack⟩
  · exact absurd hrun hne
  · exact absurd hrun hne
  · exact absurd hrun hne
  · obtain rfl : j = i := hrun
    obtain rfl : w' = w := Option.some.inj (hj.symm.trans hi)
    obtain ⟨-, hexec⟩ := h.exec_coCtxSwap hctx hj hrdi hrsi hstack
    rw [hexec]
    refine ⟨fun r k hk ↦ ?_, rfl, rfl, ?_⟩
    · cases r <;> cases hk <;> rfl
    · rfl

theorem Inv.run (hctx : Pairwise (Disjoint on fun i ↦ ctxRegion (ctx i))) (h : Inv ctx t)
    (hrun : Relation.ReflTransGen (Step ctx) t t') : Inv ctx t' := by
  induction hrun with
  | refl => exact h
  | tail _ hstep ih => exact ih.step hctx hstep

/-- A step in which `i` goes on waiting. -/
def SleepsOn (ctx : ι → Word) (i : ι) (t t' : Thread ι) : Prop :=
  Step ctx t t' ∧ (t.asleep i).isSome ∧ (t'.asleep i).isSome

/-- What is recorded of a coroutine stays as long as it waits. -/
theorem Inv.asleep_eq {i : ι} (h : Inv ctx t) (hstep : SleepsOn ctx i t t') :
    t'.asleep i = t.asleep i := by
  obtain ⟨hstep, hsome, hsome'⟩ := hstep
  have hawake : i ≠ t.running := fun heq ↦ by
    rw [heq, h.running] at hsome
    exact nomatch hsome
  rcases hstep with _ | ⟨k, _, _, _, _, _, hnone, _⟩ | ⟨k, _⟩ | ⟨j, w, hj, _, _, _⟩
  · rfl
  · refine update_of_ne (fun heq ↦ ?_) _ _
    rw [heq, hnone] at hsome
    exact nomatch hsome
  all_goals dsimp only at hsome' ⊢
  · refine update_of_ne (fun heq ↦ ?_) _ _
    rw [heq, update_self] at hsome'
    exact nomatch hsome'
  · rw [update_of_ne, update_of_ne hawake]
    intro heq
    rw [heq, update_self] at hsome'
    exact nomatch hsome'

theorem Inv.sleeps (hctx : Pairwise (Disjoint on fun i ↦ ctxRegion (ctx i))) (h : Inv ctx t) {i : ι}
    (hrun : Relation.ReflTransGen (SleepsOn ctx i) t t') :
    Inv ctx t' ∧ t'.asleep i = t.asleep i := by
  induction hrun with
  | refl => exact ⟨h, rfl⟩
  | tail _ hstep ih => exact ⟨ih.1.step hctx hstep.1, (ih.1.asleep_eq hstep).trans ih.2⟩

/-! ### Two coroutines -/

/-- The main coroutine and another one. -/
def twoCtx (i : Bool) : Word := if i then 0x2000 else 0x1000

theorem disjoint_twoCtx : Pairwise (Disjoint on fun i ↦ ctxRegion (twoCtx i)) := by
  intro i j hne
  refine Set.disjoint_left.2 fun x hx hx' ↦ hne ?_
  have hlt : (x - twoCtx i).toNat < 112 := hx
  have hlt' : (x - twoCtx j).toNat < 112 := hx'
  cases i <;> cases j <;> simp only [twoCtx, if_true, Bool.false_eq_true, if_false] at hlt hlt'
  · rfl
  · bv_omega
  · bv_omega
  · rfl

theorem disjoint_stack {sp : Word} (hsp : 0x3000 ≤ sp.toNat ∧ sp.toNat < 0x5000) (i : Bool) :
    Disjoint (region sp 8) (ctxRegion (twoCtx i)) := by
  refine Set.disjoint_left.2 fun x hx hx' ↦ ?_
  have hlt : (x - sp).toNat < 8 := hx
  have hlt' : (x - twoCtx i).toNat < 112 := hx'
  cases i <;> simp only [twoCtx, if_true, Bool.false_eq_true, if_false] at hlt'
  · bv_omega
  · bv_omega

/-- The main coroutine calls `co_ctx_swap(&main, &other)` on its stack at `sp`. -/
def calls (main other sp : Word) (mem : Memory) : State where
  regs r := if r = .rdi then main else if r = .rsi then other else if r = .rsp then sp else 7
  rip := 0
  mem := mem

theorem calls_mem (main other sp : Word) (mem : Memory) : (calls main other sp mem).mem = mem := rfl

/-- The other coroutine has not started. -/
def before : Thread Bool := ⟨calls 0x1000 0x2000 0x3000 fun _ ↦ 0, false, fun _ ↦ none⟩

/-- `CoCtxMake` for it, with a stack of 256 bytes. -/
def made : Thread Bool where
  machine := { before.machine with
    mem := coCtxMake before.machine.mem (twoCtx true) 0x400 5 6 (entrySp 0x4000 0x100) }
  running := false
  asleep := update before.asleep true (some (entryRegs 0x400 5 6 (entrySp 0x4000 0x100)))

theorem inv_before : Inv twoCtx before :=
  ⟨rfl, fun _ _ h ↦ (nomatch h), fun _ _ h ↦ (nomatch h)⟩

theorem step_made : Step twoCtx before made :=
  .make true 0x400 5 6 _ (by decide) rfl (disjoint_stack (by decide))

/-- The other coroutine runs. -/
def entered : Thread Bool where
  machine := made.machine.exec coCtxSwap
  running := true
  asleep := update (update made.asleep false (some (ctxRegs made.machine))) true none

theorem step_entered : Step twoCtx made entered :=
  .swap true _ rfl rfl rfl (disjoint_stack (by decide))

/-- It computes, and calls `co_ctx_swap(&other, &main)`. -/
def calling : Thread Bool :=
  { entered with machine := calls 0x2000 0x1000 0x40e0 entered.machine.mem }

theorem step_calling : Step twoCtx entered calling :=
  .compute fun _ _ _ x _ ↦ congrFun (calls_mem 0x2000 0x1000 0x40e0 entered.machine.mem) x

/-- The main coroutine runs again. -/
def returned : Thread Bool where
  machine := calling.machine.exec coCtxSwap
  running := false
  asleep := update (update calling.asleep true (some (ctxRegs calling.machine))) false none

theorem step_returned : Step twoCtx calling returned :=
  .swap false _ rfl rfl rfl (disjoint_stack (by decide))

/-! ### What a coroutine finds -/

/-- **A switch returns to its caller**: whatever the other coroutines do until somebody switches
back, the caller of `co_ctx_swap` finds its registers as they were, its stack pointer behind the
return address and the code at that address, as if the call had returned at once. -/
theorem returns_to_caller {t₀ t₁ t₂ t₃ : Thread ι} {i : ι}
    (hctx : Pairwise (Disjoint on fun i ↦ ctxRegion (ctx i))) (h : Inv ctx t₀)
    (hi : t₀.running = i) (hout : Step ctx t₀ t₁) (hi₁ : t₁.running ≠ i)
    (hsleep : Relation.ReflTransGen (SleepsOn ctx i) t₁ t₂) (hin : Step ctx t₂ t₃)
    (hi₃ : t₃.running = i) :
    (∀ r, (slot r).isSome → t₃.machine.regs r = t₀.machine.regs r) ∧
      t₃.machine.regs .rsp = t₀.machine.regs .rsp + 8 ∧
      t₃.machine.rip = load t₀.machine.mem (t₀.machine.regs .rsp) ∧ t₃.machine.regs .rax = 0 := by
  have hrecord : t₁.asleep i = some (ctxRegs t₀.machine) := by
    rcases hout with _ | _ | _ | ⟨j, w, hj, _, _, _⟩
    · exact absurd hi hi₁
    · exact absurd hi hi₁
    · exact absurd hi hi₁
    · dsimp only at hi₁ ⊢
      rw [update_of_ne hi₁.symm, hi, update_self]
  obtain ⟨h₂, hasleep⟩ := (h.step hctx hout).sleeps hctx hsleep
  obtain ⟨hregs, hrsp, hrip, hrax⟩ := h₂.resumes hctx (hasleep.trans hrecord) hin hi₃
  refine ⟨fun r hr ↦ ?_, hrsp, hrip, hrax⟩
  obtain ⟨k, hk⟩ := Option.isSome_iff_exists.1 hr
  rw [hregs r k hk]
  cases r <;> cases hk <;> rfl

/-- To the other coroutine and back. -/
theorem returns_to_caller_two :
    (∀ r, (slot r).isSome → returned.machine.regs r = made.machine.regs r) ∧
      returned.machine.regs .rsp = made.machine.regs .rsp + 8 ∧
      returned.machine.rip = load made.machine.mem (made.machine.regs .rsp) ∧
      returned.machine.regs .rax = 0 :=
  returns_to_caller disjoint_twoCtx (inv_before.step disjoint_twoCtx step_made) rfl step_entered
    (by decide) (.single ⟨step_calling, rfl, rfl⟩) step_returned rfl

/-- **A coroutine starts** with the function of `CoCtxMake` and its two arguments, on its own stack,
which is aligned as behind a call. -/
theorem enters {t₀ t₁ t₂ t₃ : Thread ι} {i : ι} {pfn s1 s2 ssSp ssSize : Word}
    (hctx : Pairwise (Disjoint on fun i ↦ ctxRegion (ctx i))) (h : Inv ctx t₀)
    (hmake : Step ctx t₀ t₁) (hi : t₁.asleep i = some (entryRegs pfn s1 s2 (entrySp ssSp ssSize)))
    (hsleep : Relation.ReflTransGen (SleepsOn ctx i) t₁ t₂) (hin : Step ctx t₂ t₃)
    (hi₃ : t₃.running = i) :
    t₃.machine.rip = pfn ∧ t₃.machine.regs .rdi = s1 ∧ t₃.machine.regs .rsi = s2 ∧
      t₃.machine.regs .rsp = entrySp ssSp ssSize + 8 ∧ (t₃.machine.regs .rsp).toNat % 16 = 8 := by
  obtain ⟨h₂, hasleep⟩ := (h.step hctx hmake).sleeps hctx hsleep
  obtain ⟨hregs, hrsp, hrip, -⟩ := h₂.resumes hctx (hasleep.trans hi) hin hi₃
  refine ⟨hrip, hregs .rdi 7 rfl, hregs .rsi 8 rfl, hrsp, ?_⟩
  have hrsp' : t₃.machine.regs .rsp = entrySp ssSp ssSize + 8 := hrsp
  have hsp := toNat_entrySp ssSp ssSize
  rw [hrsp', BitVec.toNat_add, show (8 : Word).toNat = 8 from rfl]
  omega

/-- At `0x400`, with the stack below `0x4100`. -/
theorem enters_two : entered.machine.rip = 0x400 ∧ entered.machine.regs .rdi = 5 ∧
    entered.machine.regs .rsi = 6 ∧
      entered.machine.regs .rsp = entrySp 0x4000 0x100 + 8 ∧
        (entered.machine.regs .rsp).toNat % 16 = 8 :=
  enters disjoint_twoCtx inv_before step_made rfl .refl step_entered rfl

end CtxSwap
