import Mathlib.Algebra.Group.Nat.Defs
import Mathlib.Data.Int.Notation
import Mathlib.Logic.Function.Basic
import MiscCpp.Library.Machine

/-!
# The coroutine runtime

`co_routine.cpp` without the event loop: `CoCreate`, `CoResume`, `CoYield`, `CoFunc`, `CoRelease`,
`CoReset` and `CoSwap`, with the call stack of the thread and the stack memories the coroutines run
on. Coroutines and stack memories are named by the order of their creation; coroutine `0` is the
main coroutine of the thread.

A pointer to a coroutine that does not exist (any more) is dereferenced to `none`, and so is a
position of `call_stack` outside the array: what follows is then undefined.

**What runs.** `co_ctx_swap` exchanges register contents, not call-stack entries: which body runs is
a fact about the saved contexts. So the state records `running`, the coroutine whose body is being
executed, and a context records whose registers it holds. That `running` is the innermost entry of
`call_stack` is then a theorem about the code (`MiscCpp.Coroutine.CallStack`).

**Stack contents.** Each stack memory has its bytes, by address. The body of the running coroutine
may write any bytes on its own stack (`Action.run`); the runtime itself writes there in `CoCtxMake`
and in the restore step of `CoSwap`. The address of the local variable `sp` of `CoSwap` is not
determined by the source, so it is a parameter of each switch.
-/

open Function

namespace CoRoutine

/-- Coroutines, in the order of their creation. -/
abbrev CoId := ℕ

/-- What the registers of a `co_ctx` hold: nothing yet, the entry of `CoFunc` for a coroutine, or
the body of a coroutine that `co_ctx_swap` suspended inside `CoSwap`. -/
inductive CoCtx where
  | zeroed
  | entry (co : CoId)
  | saved (co : CoId)
  deriving DecidableEq, Repr

/-- `coroutine_t`, with the two fields of its `co_ctx` that say where its stack is. -/
structure Coroutine where
  ctx : CoCtx
  ssSp : ℕ
  ssSize : ℕ
  start : Bool
  ended : Bool
  isMain : Bool
  isShareStack : Bool
  stackMem : ℕ
  stackSp : ℕ
  saveSize : ℕ
  saveBuffer : Option (List UInt8)

/-- `stack_mem_t`, with the contents of its buffer by address. -/
structure StackMem where
  occupyCo : Option CoId
  stackSize : ℕ
  stackBuffer : ℕ
  stackBp : ℕ
  bytes : ℕ → UInt8

/-- The occupant of a stack memory gives it up: `occupy_co = nullptr` if it is `co`. -/
def StackMem.vacate (mem : StackMem) (co : CoId) : StackMem :=
  { mem with occupyCo := if mem.occupyCo = some co then none else mem.occupyCo }

/-- `share_stack_t`. Its `stack_array` holds the stack memories `0, …, count - 1`. -/
structure ShareStack where
  allocIdx : ℕ
  stackSize : ℕ
  count : ℕ
  count_pos : 0 < count

/-- `co_attr_t`; `shareStack` says whether the pointer to the shared stack is set. -/
structure CoAttr where
  stackSize : ℤ := 128 * 1024
  shareStack : Bool := false

/-- `co_env_t`, without its epoll part. -/
structure CoEnv where
  callStack : ℕ → Option CoId
  callStackSize : ℕ
  pendingCo : Option CoId
  occupyCo : Option CoId

/-- The number of positions of `call_stack`. -/
def callStackLimit : ℕ := 128

/-- The entry of `call_stack` at a position; undefined outside the array. -/
def CoEnv.callAt (env : CoEnv) (i : ℤ) : Option CoId :=
  if 0 ≤ i ∧ i < callStackLimit then env.callStack i.toNat else none

/-- The state of the runtime. `coFunc` is the address of `CoFunc`; `out` is a history variable that
the code does not have: the stack pointer and the stack contents with which each coroutine was last
switched out. -/
structure Runtime where
  env : CoEnv
  cos : CoId → Option Coroutine
  nextCo : ℕ
  stackMems : ℕ → StackMem
  nextStack : ℕ
  share : ShareStack
  coFunc : ℕ
  running : CoId
  out : CoId → Option (ℕ × (ℕ → UInt8))

namespace Runtime

variable (rt : Runtime)

/-- Write a coroutine. -/
def setCo (c : CoId) (x : Coroutine) : Runtime :=
  { rt with cos := update rt.cos c (some x) }

/-- Write a stack. -/
def setStack (m : ℕ) (mem : StackMem) : Runtime :=
  { rt with stackMems := update rt.stackMems m mem }

/-! ### `CoCreate` -/

/-- The stack size `CoCreate` settles on: in `(0, 8 MB]`, rounded up to 4 KB. -/
def alignStackSize (size : ℤ) : ℤ :=
  let size :=
    if size ≤ 0 then 128 * 1024
    else if size > 8 * 1024 * 1024 then 8 * 1024 * 1024
    else size
  if size % 0x1000 ≠ 0 then size - size % 0x1000 + 0x1000 else size

/-- `StackMemAlloc`, at the address `buffer` that `malloc` returned. -/
def stackMemAlloc (size buffer : ℕ) : StackMem where
  occupyCo := none
  stackSize := size
  stackBuffer := buffer
  stackBp := buffer + size
  bytes _ := 0

/-- The record `CoCreate` fills in. -/
def newCo (share : Bool) (mem : ℕ) (ssSp ssSize : ℕ) : Coroutine where
  ctx := .zeroed
  ssSp := ssSp
  ssSize := ssSize
  start := false
  ended := false
  isMain := false
  isShareStack := share
  stackMem := mem
  stackSp := 0
  saveSize := 0
  saveBuffer := none

/-- `CoCreate`: on the next stack of the shared stack (`StackMemGet`), or on a stack of its own. -/
def coCreate (attr : CoAttr) (buffer : ℕ) : Runtime :=
  if attr.shareStack then
    let m := rt.share.allocIdx % rt.share.count
    let x := newCo true m (rt.stackMems m).stackBuffer rt.share.stackSize
    { rt with
      cos := update rt.cos rt.nextCo (some x)
      nextCo := rt.nextCo + 1
      share := { rt.share with allocIdx := (rt.share.allocIdx + 1) % 2 ^ 32 } }
  else
    let size := (alignStackSize attr.stackSize).toNat
    let x := newCo false rt.nextStack buffer size
    { rt with
      cos := update rt.cos rt.nextCo (some x)
      nextCo := rt.nextCo + 1
      stackMems := update rt.stackMems rt.nextStack (stackMemAlloc size buffer)
      nextStack := rt.nextStack + 1 }

/-! ### `CoSwap` -/

/-- `curr->stack_sp = &sp`. -/
def switchOut (curr : CoId) (sp : ℕ) : Option Runtime :=
  match rt.cos curr with
  | none => none
  | some c => some
      { rt.setCo curr { c with stackSp := sp } with
        out := update rt.out curr (some (sp, (rt.stackMems c.stackMem).bytes)) }

/-- The record `StackBufferSave` leaves, of a coroutine on `mem`. -/
def savedCo (mem : StackMem) (x : Coroutine) : Coroutine :=
  let len := mem.stackBp - x.stackSp
  { x with
    saveBuffer := some ((List.range len).map fun i ↦ mem.bytes (x.stackSp + i))
    saveSize := len }

/-- `StackBufferSave(co)`: the used part of the stack goes to a buffer. -/
def stackBufferSave (co : CoId) : Option Runtime :=
  match rt.cos co with
  | none => none
  | some x => some (rt.setCo co (savedCo (rt.stackMems x.stackMem) x))

/-- `CoSwap` takes the stack for the pending coroutine and notes the last occupant. -/
def takeStack (pending : CoId) (p : Coroutine) : Runtime :=
  let mem := rt.stackMems p.stackMem
  { rt.setStack p.stackMem { mem with occupyCo := some pending } with
    env := { rt.env with pendingCo := some pending, occupyCo := mem.occupyCo } }

/-- `CoSwap` before the context switch: the pending coroutine takes its stack, and what the last
occupant had there is saved. -/
def occupyStack (pending : CoId) : Option Runtime :=
  match rt.cos pending with
  | none => none
  | some p =>
    if p.isShareStack then
      match (rt.stackMems p.stackMem).occupyCo with
      | some occupy =>
        if occupy ≠ pending then (rt.takeStack pending p).stackBufferSave occupy
        else some (rt.takeStack pending p)
      | none => some (rt.takeStack pending p)
    else some { rt with env := { rt.env with pendingCo := none, occupyCo := none } }

/-- `memcpy` of a saved stack back to the stack. -/
def copyBack (mem : StackMem) (x : Coroutine) (buf : List UInt8) : StackMem :=
  { mem with
    bytes := fun a ↦
      if x.stackSp ≤ a ∧ a < x.stackSp + x.saveSize then buf.getD (a - x.stackSp) 0
      else mem.bytes a }

/-- `CoSwap` after the context switch: the contents saved for the coroutine that now runs are copied
back to its stack. -/
def restoreStack : Option Runtime :=
  match rt.env.occupyCo, rt.env.pendingCo with
  | some occupy, some pending =>
    if occupy ≠ pending then
      match rt.cos pending with
      | none => none
      | some p =>
        match p.saveBuffer with
        | some buf =>
          if 0 < p.saveSize then
            some (rt.setStack p.stackMem (copyBack (rt.stackMems p.stackMem) p buf))
          else some rt
        | none => some rt
    else some rt
  | _, _ => some rt

/-- The registers of the running body go to the context of `curr`. -/
def saveCtx (curr : CoId) (c : Coroutine) : Runtime :=
  rt.setCo curr { c with ctx := .saved rt.running }

/-- What the body whose registers are loaded does first: a coroutine that starts enters `CoFunc`, a
suspended one goes on behind the `co_ctx_swap` of its own `CoSwap`. -/
def loadCtx : CoCtx → Option Runtime
  | .zeroed => none
  | .entry co => some { rt with running := co }
  | .saved co => { rt with running := co }.restoreStack

/-- `co_ctx_swap`: save the registers of one coroutine and load those of the other. -/
def coCtxSwap (curr pending : CoId) : Option Runtime :=
  match rt.cos curr with
  | none => none
  | some c =>
    match (rt.saveCtx curr c).cos pending with
    | none => none
    | some p => (rt.saveCtx curr c).loadCtx p.ctx

/-- `CoSwap(curr, pending)`: switch the stacks and the registers, and restore what was saved. -/
def coSwap (curr pending : CoId) (sp : ℕ) : Option Runtime :=
  (rt.switchOut curr sp).bind fun rt ↦
    (rt.occupyStack pending).bind fun rt ↦ rt.coCtxSwap curr pending

/-! ### `CoResume` and `CoYield` -/

/-- The address `CoCtxMake` writes the address of `CoFunc` to. -/
def entrySlot (x : Coroutine) : ℕ := (x.ssSp + x.ssSize - 8) / 16 * 16

/-- The stack bytes after that write, lowest byte first. -/
def entryBytes (x : Coroutine) (bytes : ℕ → UInt8) : ℕ → UInt8 := fun a ↦
  if entrySlot x ≤ a ∧ a < entrySlot x + 8 then
    UInt8.ofNat (rt.coFunc / 256 ^ (a - entrySlot x))
  else bytes a

/-- `CoCtxMake` and `co->start = 1`, for a coroutine that has not started. -/
def coCtxMake (co : CoId) (x : Coroutine) : Runtime :=
  let mem := rt.stackMems x.stackMem
  (rt.setStack x.stackMem { mem with bytes := rt.entryBytes x mem.bytes }).setCo co
    { x with ctx := .entry co, start := true }

/-- `CoResume` starts a coroutine that has not started. -/
def startCo (co : CoId) (x : Coroutine) : Runtime :=
  if x.start then rt else rt.coCtxMake co x

/-- The state after `env->call_stack[env->call_stack_size++] = co`. -/
def pushed (co : CoId) : Runtime :=
  { rt with env := { rt.env with
    callStack := update rt.env.callStack rt.env.callStackSize (some co)
    callStackSize := rt.env.callStackSize + 1 } }

/-- That write is defined inside the array only. -/
def pushCall (co : CoId) : Option Runtime :=
  if rt.env.callStackSize < callStackLimit then some (rt.pushed co) else none

/-- `CoResume(co)`: push the coroutine on the call stack and switch to it. -/
def coResume (co : CoId) (sp : ℕ) : Option Runtime :=
  match rt.env.callAt (rt.env.callStackSize - 1), rt.cos co with
  | some curr, some x => ((rt.startCo co x).pushCall co).bind (·.coSwap curr co sp)
  | _, _ => none

/-- The state after `env->call_stack_size--`. -/
def popped : Runtime :=
  { rt with env := { rt.env with callStackSize := rt.env.callStackSize - 1 } }

/-- `CoYield()`: pop the running coroutine and switch back to the one below it. -/
def coYield (sp : ℕ) : Option Runtime :=
  match rt.env.callAt (rt.env.callStackSize - 2), rt.env.callAt (rt.env.callStackSize - 1) with
  | some last, some curr => rt.popped.coSwap curr last sp
  | _, _ => none

/-- `CoFunc` behind the coroutine's function: `co->end = 1; CoYield()`. -/
def coFuncEnd (sp : ℕ) : Option Runtime :=
  match rt.cos rt.running with
  | none => none
  | some x => (rt.setCo rt.running { x with ended := true }).coYield sp

/-! ### `CoRelease` and `CoReset` -/

/-- `CoRelease`, which is `CoFree`. The stack of its own that a coroutine may have goes with it. -/
def coRelease (co : CoId) : Option Runtime :=
  match rt.cos co with
  | none => none
  | some x =>
    let rt :=
      if x.isShareStack then rt.setStack x.stackMem ((rt.stackMems x.stackMem).vacate co)
      else rt
    some { rt with cos := update rt.cos co none }

/-- The record `CoReset` leaves: not started, and without saved contents. -/
def resetCo (x : Coroutine) : Coroutine :=
  let x := { x with start := false, ended := false }
  if x.saveBuffer.isSome then { x with saveBuffer := none, saveSize := 0 } else x

/-- `CoReset(co)`: a coroutine that has been started can be started anew. -/
def coReset (co : CoId) : Option Runtime :=
  match rt.cos co with
  | none => none
  | some x =>
    if !x.start || x.isMain then some rt
    else
      let rt := rt.setCo co (resetCo x)
      some (rt.setStack x.stackMem ((rt.stackMems x.stackMem).vacate co))

/-- The running body writes on its own stack. -/
def runBody (bytes : ℕ → UInt8) : Option Runtime :=
  match rt.cos rt.running with
  | none => none
  | some x => some (rt.setStack x.stackMem { rt.stackMems x.stackMem with bytes := bytes })

end Runtime

/-! ### Steps -/

/-- What the running body does next. -/
inductive Action where
  | create (attr : CoAttr) (buffer : ℕ)
  | resume (co : CoId) (sp : ℕ)
  | yield (sp : ℕ)
  | finish (sp : ℕ)
  | release (co : CoId)
  | reset (co : CoId)
  | run (bytes : ℕ → UInt8)

/-- The runtime after one action. -/
def step (rt : Runtime) : Action → Option Runtime
  | .create attr buffer => some (rt.coCreate attr buffer)
  | .resume co sp => rt.coResume co sp
  | .yield sp => rt.coYield sp
  | .finish sp => rt.coFuncEnd sp
  | .release co => rt.coRelease co
  | .reset co => rt.coReset co
  | .run bytes => rt.runBody bytes

/-- The state after `CurrThreadEnvInit` and `ShareStackAlloc`: the main coroutine, on a stack of its
own, is the only entry of the call stack. -/
def initial (share : ShareStack) (coFunc : ℕ) (buffer : ℕ → ℕ) (mainBuffer : ℕ) : Runtime :=
  let size := (Runtime.alignStackSize (128 * 1024)).toNat
  { env :=
      { callStack := update (fun _ ↦ none) 0 (some 0)
        callStackSize := 1
        pendingCo := none
        occupyCo := none }
    cos := update (fun _ ↦ none) 0
      (some { Runtime.newCo false share.count mainBuffer size with isMain := true })
    nextCo := 1
    stackMems := fun m ↦
      if m = share.count then Runtime.stackMemAlloc size mainBuffer
      else Runtime.stackMemAlloc share.stackSize (buffer m)
    nextStack := share.count + 1
    share := share
    coFunc := coFunc
    running := 0
    out := fun _ ↦ none }

end CoRoutine
