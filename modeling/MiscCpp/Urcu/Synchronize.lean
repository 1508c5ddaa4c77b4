import Mathlib.Logic.Function.Iterate
import MiscCpp.Urcu.Reader
import MiscCpp.Urcu.ReaderList

/-!
# Waiting for the readers

`wait_for_readers`, interleaved with the steps of the readers, and `synchronize_rcu`, behind the
queue of the waiting writers. The registry lock keeps the lists to the writer; what changes under it
are the words of the readers.

A scan that finds all readers in an old critical section ends, and the test behind it, an
assignment, ends the call. A scan that moves a reader goes on in the list that it has moved it to,
and never comes back. So a call returns only after one scan that has found nothing but old readers,
and keeps its promise only by not returning, or if there is no reader at all
(`waitsForReaders_iff`); `synchronize_rcu` never returns if some reader is registered and none is in
a critical section (`not_synchronizesRight`).
-/

open Function

namespace Urcu

def RCU_QS_ACTIVE_ATTEMPTS : ℕ := 100

/-- What the threads share: `gp`, the lists, and the words of the readers. -/
structure Rcu where
  lists : ReaderLists
  readers : ReaderId → RcuReader
  gpCtr : BitVec 64
  futex : BitVec 32

namespace Rcu

/-- `wake_up_gp`. -/
def wakeUpGp (s : Rcu) : Rcu := if s.futex = -1 then { s with futex := 0 } else s

/-- A step of the thread of a reader. The outermost `rcu_read_unlock` wakes up the writer. -/
def readerStep (s : Rcu) (reader : ReaderId) (a : ReaderAction) : Option Rcu :=
  ((s.readers reader).step s.gpCtr a).map fun r ↦
    let s' := { s with readers := update s.readers reader r }
    if a = .unlock ∧ (s.readers reader).rcuReadOngoing = 1 then s'.wakeUpGp else s'

end Rcu

/-! ### `wait_for_readers` -/

/-- The three lists that `wait_for_readers` is called with. -/
structure WaitArgs where
  inputReaders : Addr
  curSnapReaders : Option Addr
  qsReaders : Addr

/-- Where the writer is: at the node `it` of a scan, between two scans, without the registry lock,
or behind the call. -/
inductive WaitPc where
  | scan (it : Addr)
  | between
  | returned
  deriving DecidableEq

/-- A call in progress, with a history: the readers that a scan has found inactive, or active in the
current phase when `cur_snap_readers` is given. -/
structure WaitForReaders where
  rcu : Rcu
  pc : WaitPc
  waitLoops : BitVec 32
  observed : ReaderId → Bool

/-- A step of the writer or of a reader. -/
inductive WaitAction where
  | writer
  | reader (reader : ReaderId) (a : ReaderAction)

namespace WaitForReaders

variable (args : WaitArgs) (w : WaitForReaders)

/-- `wait_loops >= RCU_QS_ACTIVE_ATTEMPTS`. -/
def slow : Bool := decide (w.waitLoops.toNat ≥ RCU_QS_ACTIVE_ATTEMPTS)

/-- The loop, up to the scan. -/
def startScan : WaitForReaders :=
  let w := { w with waitLoops := w.waitLoops + 1, pc := .scan args.inputReaders }
  if w.slow then { w with rcu := { w.rcu with futex := w.rcu.futex - 1 } } else w

/-- Where a node is moved. Without `cur_snap_readers` the first case falls through. -/
def destination : RcuReaderState → Option Addr
  | .activeCurrent => some (args.curSnapReaders.getD args.qsReaders)
  | .inactive => some args.qsReaders
  | .activeOld => none

/-- The states in which a reader counts as observed. -/
def observes : RcuReaderState → Bool
  | .activeCurrent => args.curSnapReaders.isSome
  | .inactive => true
  | .activeOld => false

/-- The body of the scan, for a node. A node without a reader is the head of a list. -/
def examine (it : Addr) : WaitForReaders :=
  match w.rcu.lists.node it with
  | none => w
  | some reader =>
    let state := readerState w.rcu.gpCtr (w.rcu.readers reader).ctr
    let lists :=
      match destination args state with
      | some dst => w.rcu.lists.readerMove it dst
      | none => w.rcu.lists
    { w with
      rcu := { w.rcu with lists := lists }
      observed := if observes args state then update w.observed reader true else w.observed }

/-- `input_readers->next = input_readers`: an assignment, with the pointer as its value. -/
def emptyTest (l : ReaderLists) (input : Addr) : ReaderLists × Option Addr :=
  (l.setNext input input, some input)

/-- Behind the scan. -/
def endScan : WaitForReaders :=
  match emptyTest w.rcu.lists args.inputReaders with
  | (lists, some _) =>
    let futex := if w.slow then 0 else w.rcu.futex
    { w with rcu := { w.rcu with lists := lists, futex := futex }, pc := .returned }
  | (lists, none) => { w with rcu := { w.rcu with lists := lists }, pc := .between }

/-- A step of the writer: a node of the scan, or the start of another scan. Between the scans it may
have to wait in `wait_gp`. -/
def writerStep : Option WaitForReaders :=
  match w.pc with
  | .scan it =>
    let w := w.examine args it
    let it := w.rcu.lists.next it
    some (if it = args.inputReaders then w.endScan args else { w with pc := .scan it })
  | .between => if w.slow ∧ w.rcu.futex = -1 then none else some (w.startScan args)
  | .returned => none

def step : WaitAction → Option WaitForReaders
  | .writer => w.writerStep args
  | .reader reader a => (w.rcu.readerStep reader a).map fun rcu ↦ { w with rcu := rcu }

/-- The start of a call. -/
def start (rcu : Rcu) : WaitForReaders :=
  startScan args { rcu := rcu, pc := .between, waitLoops := 0, observed := fun _ ↦ false }

end WaitForReaders

/-! ### `synchronize_rcu` -/

/-- A call of `synchronize_rcu` by the first thread in the queue, which has the locks. -/
inductive SyncRcu where
  | locked (rcu : Rcu)
  | first (curSnapReaders qsReaders : Addr) (w : WaitForReaders)
  | second (curSnapReaders qsReaders : Addr) (w : WaitForReaders)
  | done (rcu : Rcu)

namespace SyncRcu

/-- The arguments of the two calls of `wait_for_readers`. -/
def firstArgs (curSnapReaders qsReaders : Addr) : WaitArgs :=
  ⟨registryReaderList, some curSnapReaders, qsReaders⟩

/-- The arguments of the second call, which snaps no readers. -/
def secondArgs (curSnapReaders qsReaders : Addr) : WaitArgs := ⟨curSnapReaders, none, qsReaders⟩

/-- The quiescent readers go back to the registry. -/
def putBack (rcu : Rcu) (qsReaders : Addr) : Rcu :=
  if rcu.lists.next qsReaders ≠ qsReaders then
    { rcu with lists := rcu.lists.readerSplice qsReaders registryReaderList }
  else rcu

/-- A step, while the readers do nothing. A call that has to wait stays where it is. -/
def step : SyncRcu → SyncRcu
  | locked rcu =>
    if rcu.lists.next registryReaderList = registryReaderList then done rcu
    else
      let cur := rcu.lists.fresh
      let qs := rcu.lists.fresh + 1
      let rcu := { rcu with lists := rcu.lists.allocHead.allocHead }
      first cur qs (.start (firstArgs cur qs) rcu)
  | first cur qs w =>
    match w.pc with
    | .returned =>
      let rcu := { w.rcu with gpCtr := w.rcu.gpCtr ^^^ RCU_GP_CTR_PHASE }
      second cur qs (.start (secondArgs cur qs) rcu)
    | _ => first cur qs ((w.writerStep (firstArgs cur qs)).getD w)
  | second cur qs w =>
    match w.pc with
    | .returned => done (putBack w.rcu qs)
    | _ => second cur qs ((w.writerStep (secondArgs cur qs)).getD w)
  | done rcu => done rcu

end SyncRcu

/-! ### What they are to do -/

/-- The arguments are circular lists without common nodes: the input has the nodes `xs`. -/
structure WaitStart (args : WaitArgs) (l : ReaderLists) (xs ys zs : List Addr) : Prop where
  input : Circular l args.inputReaders xs
  curSnap : ∀ c, args.curSnapReaders = some c → Circular l c ys ∧ l.node c = none
  qs : Circular l args.qsReaders zs ∧ l.node args.qsReaders = none
  head : l.node args.inputReaders = none
  node : ∀ x ∈ xs, (l.node x).isSome
  disjoint_curSnap : ∀ c, args.curSnapReaders = some c →
    ∀ a ∈ args.inputReaders :: xs, a ∉ c :: ys
  disjoint_qs : ∀ a ∈ args.inputReaders :: xs, a ∉ args.qsReaders :: zs

/-- The call returns only after every reader of the input has been found quiescent. -/
def WaitsForReaders (l : ReaderLists) (xs : List Addr) (w : WaitForReaders) : Prop :=
  w.pc = .returned → ∀ x ∈ xs, ∀ reader, l.node x = some reader → w.observed reader = true

/-- If the writer looks at a reader in this step, it finds it in an old critical section. -/
def SeesOld (w : WaitForReaders) : WaitAction → Prop
  | .writer => ∀ it reader, w.pc = .scan it → w.rcu.lists.node it = some reader →
    readerState w.rcu.gpCtr (w.rcu.readers reader).ctr = .activeOld
  | .reader _ _ => True

/-- Some reader that the writer has looked at was not in an old critical section. -/
def FoundNotOld (args : WaitArgs) (w : WaitForReaders) (acts : List WaitAction) : Prop :=
  ¬ Machine.Always (WaitForReaders.step args) SeesOld w acts

/-- How often the writer looks at a node, as long as it is in its first scan. -/
def writerSteps (acts : List WaitAction) : ℕ :=
  acts.countP fun | .writer => true | .reader _ _ => false

/-- `synchronize_rcu` returns, having flipped the phase, and the readers are in the registry as
before. -/
def SynchronizesRight (rcu : Rcu) : Prop :=
  ∃ k rcu', SyncRcu.step^[k] (.locked rcu) = .done rcu' ∧
    rcu'.gpCtr = rcu.gpCtr ^^^ RCU_GP_CTR_PHASE ∧
    ∀ xs, Registered rcu.lists xs → ∃ ys, Registered rcu'.lists ys ∧ ys.Perm xs

/-! ### A scan that has moved nothing -/

variable {args : WaitArgs} {l : ReaderLists} {xs ys zs : List Addr} {w w' : WaitForReaders}
  {rcu rcu' : Rcu} {reader : ReaderId} {it : Addr}

theorem lists_wakeUpGp (rcu : Rcu) : rcu.wakeUpGp.lists = rcu.lists := by
  rw [Rcu.wakeUpGp]
  split <;> rfl

/-- The readers leave the lists alone. -/
theorem lists_readerStep {a : ReaderAction} (h : rcu.readerStep reader a = some rcu') :
    rcu'.lists = rcu.lists := by
  obtain ⟨r, -, rfl⟩ := Option.map_eq_some_iff.1 h
  show (if _ then _ else _ : Rcu).lists = _
  split
  · exact lists_wakeUpGp _
  · rfl

/-- The scan has only seen old readers, in `k` steps: the lists are as at the start, and it is at
the next node of the input list. Or it has ended. -/
structure Scanning (args : WaitArgs) (l : ReaderLists) (xs : List Addr) (k : ℕ)
    (w : WaitForReaders) : Prop where
  observed : ∀ reader, w.observed reader = false
  pc : w.pc = .returned ∧ k = xs.length + 1 ∨
    w.rcu.lists = l ∧ ∃ it, (args.inputReaders :: xs)[k]? = some it ∧ w.pc = .scan it

/-- The scan has moved a reader: it is in nodes that do not lead back to the input list. -/
structure Astray (args : WaitArgs) (w : WaitForReaders) (R : Set Addr) : Prop where
  closed : Closed w.rcu.lists R
  curSnap : ∀ c, args.curSnapReaders = some c → c ∈ R ∧ w.rcu.lists.node c = none
  qs : args.qsReaders ∈ R ∧ w.rcu.lists.node args.qsReaders = none
  input : args.inputReaders ∉ R
  pc : ∃ it ∈ R, w.pc = .scan it

theorem scanning_start (hl : rcu.lists = l) : Scanning args l xs 0 (.start args rcu) := by
  rw [WaitForReaders.start, WaitForReaders.startScan]
  split
  · exact ⟨fun _ ↦ rfl, .inr ⟨hl, _, rfl, rfl⟩⟩
  · exact ⟨fun _ ↦ rfl, .inr ⟨hl, _, rfl, rfl⟩⟩

/-- The scan ends behind the last node, and not before. -/
theorem Scanning.returned_iff {k : ℕ} (h : Scanning args l xs k w) :
    w.pc = .returned ↔ xs.length < k := by
  obtain ⟨hret, rfl⟩ | ⟨-, it, hit, hpc⟩ := h.pc
  · exact iff_of_true hret (Nat.lt_succ_self _)
  · obtain ⟨hk, -⟩ := List.getElem?_eq_some_iff.1 hit
    refine iff_of_false (hpc ▸ nofun) (Nat.not_lt.2 (Nat.lt_succ_iff.1 ?_))
    exact hk

/-- A node without a reader, or of an old one, is passed over. -/
theorem examine_eq_self (h : ∀ reader, w.rcu.lists.node it = some reader →
    readerState w.rcu.gpCtr (w.rcu.readers reader).ctr = .activeOld) : w.examine args it = w := by
  rw [WaitForReaders.examine]
  split
  next => rfl
  next reader hnode =>
    simp only [h reader hnode]
    rfl

/-- Another one is moved. -/
theorem examine_of_not_old (args : WaitArgs) (hnode : w.rcu.lists.node it = some reader)
    (hnot : readerState w.rcu.gpCtr (w.rcu.readers reader).ctr ≠ .activeOld) :
    ∃ dst, (some dst = args.curSnapReaders ∨ dst = args.qsReaders) ∧
      (w.examine args it).rcu.lists = w.rcu.lists.readerMove it dst ∧
      (w.examine args it).pc = w.pc := by
  rw [WaitForReaders.examine]
  simp only [hnode]
  rcases hstate : readerState w.rcu.gpCtr (w.rcu.readers reader).ctr with _ | _ | _
  · refine ⟨args.curSnapReaders.getD args.qsReaders, ?_, rfl, trivial⟩
    rcases args.curSnapReaders with _ | c
    · exact .inr rfl
    · exact .inl rfl
  · exact absurd hstate hnot
  · exact ⟨args.qsReaders, .inr rfl, rfl, trivial⟩

/-- **A step of a scan that has moved nothing**, at an old reader or a head. -/
theorem Scanning.writer_old {k : ℕ} (W : WaitStart args l xs ys zs) (h : Scanning args l xs k w)
    (hs : w.writerStep args = some w') (hold : SeesOld w .writer) :
    Scanning args l xs (k + 1) w' := by
  rw [WaitForReaders.writerStep] at hs
  obtain ⟨hpc, -⟩ | ⟨hlists, it, hit, hpc⟩ := h.pc
  · rw [hpc] at hs
    cases hs
  · rw [hpc] at hs
    obtain rfl := Option.some.inj hs
    rw [examine_eq_self (hold it · hpc), hlists]
    obtain hnext | ⟨hnext, rfl⟩ := W.input.next_getElem? hit
    · have hne : l.next it ≠ args.inputReaders := fun heq ↦
        (List.nodup_cons.1 W.input.nodup).1 (heq ▸ List.mem_of_getElem? hnext)
      rw [if_neg hne]
      exact ⟨h.observed, .inr ⟨hlists, _, hnext, rfl⟩⟩
    · rw [if_pos hnext]
      exact ⟨h.observed, .inl ⟨rfl, rfl⟩⟩

/-- **The step that moves the first reader** leads astray. -/
theorem Scanning.writer_not_old {k : ℕ} (W : WaitStart args l xs ys zs) (h : Scanning args l xs k w)
    (hs : w.writerStep args = some w') (hnot : ¬ SeesOld w .writer) : ∃ R, Astray args w' R := by
  simp only [SeesOld, not_forall] at hnot
  obtain ⟨it, reader, hpc, hnode, hnot⟩ := hnot
  obtain ⟨hret, -⟩ | ⟨hlists, it', hit, hpc'⟩ := h.pc
  · rw [hret] at hpc
    cases hpc
  have hit := List.mem_of_getElem? hit
  obtain rfl : it' = it := WaitPc.scan.inj (hpc'.symm.trans hpc)
  obtain ⟨dst, hdst, hmove, -⟩ := examine_of_not_old args hnode hnot
  rw [hlists] at hnode hmove
  -- the node is not the head, so its neighbours are in the input list, and are not the node
  have hmem : it' ∈ xs := by
    rcases List.mem_cons.1 hit with rfl | hmem
    · rw [W.head] at hnode
      cases hnode
    · exact hmem
  let R : Set Addr :=
    {a | a = it' ∨ (∃ c, args.curSnapReaders = some c ∧ a ∈ c :: ys) ∨ a ∈ args.qsReaders :: zs}
  have hout : ∀ a ∈ args.inputReaders :: xs, a ≠ it' → a ∉ R := by
    rintro a ha hne (heq | ⟨c, hc, hac⟩ | haq)
    · exact hne heq
    · exact W.disjoint_curSnap c hc a ha hac
    · exact W.disjoint_qs a ha haq
  have hbut : ClosedBut l R it' := by
    rintro a (heq | ⟨c, hc, hac⟩ | haq) hne
    · exact absurd heq hne
    · obtain ⟨hnext, hprev⟩ := (W.curSnap c hc).1.mem hac
      exact ⟨.inr (.inl ⟨c, hc, hnext⟩), .inr (.inl ⟨c, hc, hprev⟩)⟩
    · obtain ⟨hnext, hprev⟩ := W.qs.1.mem haq
      exact ⟨.inr (.inr hnext), .inr (.inr hprev)⟩
  have hheads : (∀ c, args.curSnapReaders = some c → c ∈ R) ∧ args.qsReaders ∈ R :=
    ⟨fun c hc ↦ .inr (.inl ⟨c, hc, List.mem_cons_self⟩), .inr (.inr List.mem_cons_self)⟩
  have hdstR : dst ∈ R ∧ dst ≠ it' := by
    obtain hc | rfl := hdst
    · exact ⟨hheads.1 dst hc.symm,
        fun h ↦ W.disjoint_curSnap dst hc.symm it' hit (h ▸ List.mem_cons_self)⟩
    · exact ⟨hheads.2, fun h ↦ W.disjoint_qs it' hit (h ▸ List.mem_cons_self)⟩
  have hneigh : l.next it' ∉ R ∧ l.prev it' ∉ R :=
    ⟨hout _ (W.input.mem hit).1 (W.input.ne hmem).1, hout _ (W.input.mem hit).2 (W.input.ne hmem).2⟩
  have hclosed : Closed (l.readerMove it' dst) R :=
    closed_readerMove hbut (.inl rfl) hdstR.1 hdstR.2 (.inr hneigh)
  have hinput : args.inputReaders ∉ R :=
    hout _ List.mem_cons_self fun h ↦ (List.nodup_cons.1 W.input.nodup).1 (h ▸ hmem)
  have hnext : (w.examine args it').rcu.lists.next it' ∈ R := by
    rw [hmove]
    exact (hclosed it' (.inl rfl)).1
  have hne : (w.examine args it').rcu.lists.next it' ≠ args.inputReaders := fun heq ↦
    hinput (heq ▸ hnext)
  rw [WaitForReaders.writerStep, hpc] at hs
  simp only [if_neg hne, Option.some.injEq] at hs
  subst hs
  refine ⟨R, ?_, fun c hc ↦ ⟨hheads.1 c hc, ?_⟩, ⟨hheads.2, ?_⟩, hinput, _, hnext, rfl⟩
  · show Closed (w.examine args it').rcu.lists R
    rwa [hmove]
  · show (w.examine args it').rcu.lists.node c = none
    rw [hmove, node_readerMove, (W.curSnap c hc).2]
  · show (w.examine args it').rcu.lists.node args.qsReaders = none
    rw [hmove, node_readerMove, W.qs.2]

/-! ### A scan that is astray -/

variable {R : Set Addr}

/-- **A scan that is astray stays astray.** -/
theorem Astray.writer (h : Astray args w R) (hs : w.writerStep args = some w') :
    Astray args w' R := by
  obtain ⟨it, hit, hpc⟩ := h.pc
  have hlists : Closed (w.examine args it).rcu.lists R ∧
      (w.examine args it).rcu.lists.node = w.rcu.lists.node := by
    by_cases hold : ∀ reader, w.rcu.lists.node it = some reader →
        readerState w.rcu.gpCtr (w.rcu.readers reader).ctr = .activeOld
    · rw [examine_eq_self hold]
      exact ⟨h.closed, rfl⟩
    · simp only [not_forall] at hold
      obtain ⟨reader, hnode, hnot⟩ := hold
      obtain ⟨dst, hdst, hmove, -⟩ := examine_of_not_old args hnode hnot
      have hdstR : dst ∈ R ∧ w.rcu.lists.node dst = none := by
        obtain hc | rfl := hdst
        · exact h.curSnap dst hc.symm
        · exact h.qs
      have hne : dst ≠ it := by
        rintro rfl
        rw [hdstR.2] at hnode
        cases hnode
      rw [hmove, node_readerMove]
      refine ⟨closed_readerMove (fun a ha _ ↦ h.closed a ha) hit hdstR.1 hne ?_, rfl⟩
      exact .inl (h.closed it hit)
  have hnext := (hlists.1 it hit).1
  have hne : (w.examine args it).rcu.lists.next it ≠ args.inputReaders := fun heq ↦
    h.input (heq ▸ hnext)
  rw [WaitForReaders.writerStep, hpc] at hs
  simp only [if_neg hne, Option.some.injEq] at hs
  subst hs
  exact ⟨hlists.1, fun c hc ↦ ⟨(h.curSnap c hc).1, hlists.2 ▸ (h.curSnap c hc).2⟩,
    ⟨h.qs.1, hlists.2 ▸ h.qs.2⟩, h.input, _, hnext, rfl⟩

theorem Astray.step {act : WaitAction} (h : Astray args w R) (hs : w.step args act = some w') :
    Astray args w' R := by
  cases act with
  | writer => exact h.writer hs
  | reader reader a =>
    obtain ⟨rcu, hrcu, rfl⟩ := Option.map_eq_some_iff.1 hs
    have hlists := lists_readerStep hrcu
    exact ⟨hlists ▸ h.closed, fun c hc ↦ hlists ▸ h.curSnap c hc, hlists ▸ h.qs, h.input, h.pc⟩

theorem Astray.not_returned (h : Astray args w R) : w.pc ≠ .returned := by
  obtain ⟨it, -, hpc⟩ := h.pc
  rw [hpc]
  exact nofun

/-! ### Runs of `wait_for_readers` -/

/-- **A step of a scan that has moved nothing.** -/
theorem Scanning.step {act : WaitAction} {k : ℕ} (W : WaitStart args l xs ys zs)
    (h : Scanning args l xs k w) (hs : w.step args act = some w') :
    SeesOld w act ∧ Scanning args l xs (k + writerSteps [act]) w' ∨
      ¬ SeesOld w act ∧ ∃ R, Astray args w' R := by
  cases act with
  | writer =>
    by_cases hold : SeesOld w .writer
    · exact .inl ⟨hold, h.writer_old W hs hold⟩
    · exact .inr ⟨hold, h.writer_not_old W hs hold⟩
  | reader reader a =>
    obtain ⟨rcu, hrcu, rfl⟩ := Option.map_eq_some_iff.1 hs
    refine .inl ⟨trivial, h.observed, h.pc.imp_right fun ⟨hlists, hpc⟩ ↦ ⟨?_, hpc⟩⟩
    exact (lists_readerStep hrcu).trans hlists

/-- **A run**: as long as the scan sees only old readers it moves nothing, and afterwards it is
astray. -/
theorem Scanning.exec {acts : List WaitAction} {k : ℕ} (W : WaitStart args l xs ys zs)
    (h : Scanning args l xs k w) (hs : Machine.exec (WaitForReaders.step args) w acts = some w') :
    ¬ FoundNotOld args w acts ∧ Scanning args l xs (k + writerSteps acts) w' ∨
      FoundNotOld args w acts ∧ ∃ R, Astray args w' R := by
  induction acts generalizing w k with
  | nil => exact .inl ⟨not_not.2 trivial, Option.some.inj hs ▸ h⟩
  | cons act acts ih =>
    obtain ⟨w₁, h₁, hs⟩ := Option.bind_eq_some_iff.1 hs
    have hfound : FoundNotOld args w (act :: acts) ↔
        ¬ (SeesOld w act ∧ ¬ FoundNotOld args w₁ acts) := by
      rw [FoundNotOld, Machine.always_cons, FoundNotOld, not_not]
      refine not_congr (and_congr_right fun _ ↦ ⟨fun hall ↦ hall w₁ h₁, fun hall t ht ↦ ?_⟩)
      obtain rfl := Option.some.inj (h₁.symm.trans ht)
      exact hall
    rw [hfound]
    have hsteps : writerSteps ([act] ++ acts) = writerSteps [act] + writerSteps acts :=
      List.countP_append
    rw [List.singleton_append] at hsteps
    rw [hsteps, ← Nat.add_assoc]
    obtain ⟨hold, hw₁⟩ | ⟨hnot, R, hw₁⟩ := h.step W h₁
    · obtain ⟨hno, hw'⟩ | ⟨hyes, hw'⟩ := ih hw₁ hs
      · exact .inl ⟨not_not.2 ⟨hold, hno⟩, hw'⟩
      · exact .inr ⟨fun hall ↦ hall.2 hyes, hw'⟩
    · refine .inr ⟨fun hall ↦ hnot hall.1, R, ?_⟩
      exact Machine.exec_invariant' (I := fun w ↦ Astray args w R) (fun _ _ _ ha ↦ ha.step) hw₁ hs

/-- **Exactly when `wait_for_readers` keeps its promise**: there is no reader, or the scan has found
one that is not in an old critical section, and will never return; or it has not seen all nodes yet.
-/
theorem waitsForReaders_iff {acts : List WaitAction} (W : WaitStart args rcu.lists xs ys zs)
    (h : Machine.exec (WaitForReaders.step args) (.start args rcu) acts = some w) :
    WaitsForReaders rcu.lists xs w ↔
      xs = [] ∨ FoundNotOld args (.start args rcu) acts ∨ writerSteps acts ≤ xs.length := by
  obtain ⟨hno, hw⟩ | ⟨hyes, R, hw⟩ := (scanning_start rfl).exec W h
  · rw [Nat.zero_add] at hw
    constructor
    · intro hwaits
      rcases Nat.lt_or_ge xs.length (writerSteps acts) with hlt | hle
      · have hret := hw.returned_iff.2 hlt
        refine .inl (List.eq_nil_iff_forall_not_mem.2 fun x hx ↦ ?_)
        obtain ⟨reader, hreader⟩ := Option.isSome_iff_exists.1 (W.node x hx)
        have hobs := hwaits hret x hx reader hreader
        rw [hw.observed] at hobs
        cases hobs
      · exact .inr (.inr hle)
    · rintro (rfl | hfound | hle)
      · exact fun _ x hx ↦ absurd hx List.not_mem_nil
      · exact absurd hfound hno
      · exact fun hret ↦ absurd (hw.returned_iff.1 hret) (Nat.not_lt.2 hle)
  · exact iff_of_true (fun h ↦ absurd h hw.not_returned) (.inr (.inl hyes))

/-! ### Runs of `synchronize_rcu` -/

theorem Circular.allocHead {head : Addr} (C : Circular l head xs) (hfresh : l.fresh ∉ head :: xs) :
    Circular l.allocHead head xs := by
  have hne : ∀ a ∈ head :: xs, a ≠ l.fresh := fun a ha ↦ ne_of_mem_of_not_mem ha hfresh
  exact C.congr fun a ha ↦ ⟨update_of_ne (hne a ha) .., update_of_ne (hne a ha) ..⟩

theorem circular_allocHead (l : ReaderLists) : Circular l.allocHead l.fresh [] :=
  ⟨update_self .., update_self .., trivial, List.nodup_singleton _⟩

theorem node_allocHead (a : Addr) (ha : a ≠ l.fresh) : l.allocHead.node a = l.node a :=
  update_of_ne ha ..

/-- The first call of `wait_for_readers` gets the registry and two empty lists. -/
theorem waitStart_first (h : Registered l xs) :
    WaitStart (SyncRcu.firstArgs l.fresh (l.fresh + 1)) l.allocHead.allocHead xs [] [] := by
  have hlt : ∀ a ∈ registryReaderList :: xs, a ≠ l.fresh ∧ a ≠ l.fresh + 1 := fun a ha ↦ by
    have hlt : a < l.fresh := h.lt_fresh a ha
    exact ⟨Nat.ne_of_lt hlt, Nat.ne_of_lt (Nat.lt_succ_of_lt hlt)⟩
  have hnode : ∀ a ∈ registryReaderList :: xs, l.allocHead.allocHead.node a = l.node a := fun a ha ↦
    (node_allocHead a (hlt a ha).2).trans (node_allocHead a (hlt a ha).1)
  have hcur : ∀ c, (SyncRcu.firstArgs l.fresh (l.fresh + 1)).curSnapReaders = some c →
      c = l.fresh := fun c hc ↦ (Option.some.inj hc).symm
  refine ⟨?_, fun c hc ↦ ?_, ⟨circular_allocHead _, update_self ..⟩, ?_, fun x hx ↦ ?_,
    fun c hc a ha hac ↦ ?_, fun a ha haq ↦ ?_⟩
  · exact (h.circular.allocHead fun hmem ↦ (hlt _ hmem).1 rfl).allocHead
      fun hmem ↦ (hlt _ hmem).2 rfl
  · obtain rfl := hcur c hc
    refine ⟨(circular_allocHead l).allocHead ?_, ?_⟩
    · exact fun hmem ↦ Nat.succ_ne_self l.fresh (List.mem_singleton.1 hmem)
    · exact (node_allocHead _ (Nat.succ_ne_self l.fresh).symm).trans (update_self ..)
  · exact (hnode _ List.mem_cons_self).trans h.head
  · rw [hnode x (List.mem_cons_of_mem _ hx)]
    obtain ⟨reader, hreader, -⟩ := h.node x hx
    rw [hreader]
    rfl
  · obtain rfl := hcur c hc
    exact (hlt a ha).1 (List.mem_singleton.1 hac)
  · exact (hlt a ha).2 (List.mem_singleton.1 haq)

/-- One reader, with the word `ctr`. -/
def oneReader (ctr gpCtr : BitVec 64) : Rcu where
  lists := ReaderLists.initial.readerAdd 7 registryReaderList
  readers _ := ⟨ctr, none⟩
  gpCtr := gpCtr
  futex := 0

theorem registered_oneReader (ctr gpCtr : BitVec 64) :
    Registered (oneReader ctr gpCtr).lists [1] where
  circular := registered_initial.circular.readerAdd (by decide) 7
  head := rfl
  node x hx := by
    obtain rfl := List.mem_singleton.1 hx
    exact ⟨7, rfl, rfl⟩
  list reader x h := by
    rcases eq_or_ne reader 7 with rfl | hne
    · obtain rfl := Option.some.inj h
      exact ⟨List.mem_cons_self, rfl⟩
    · cases (update_of_ne hne ..).symm.trans h
  lt_fresh := show ∀ x ∈ [0, 1], x < 2 by decide

/-- The start of `wait_for_readers` in `synchronize_rcu`, with one reader. -/
def oneReaderWait (ctr gpCtr : BitVec 64) : Rcu :=
  { oneReader ctr gpCtr with lists := (oneReader ctr gpCtr).lists.allocHead.allocHead }

theorem waitStart_oneReader (ctr gpCtr : BitVec 64) :
    WaitStart (SyncRcu.firstArgs 2 3) (oneReaderWait ctr gpCtr).lists [1] [] [] :=
  waitStart_first (registered_oneReader ctr gpCtr)

/-- The reader locks and unlocks while the scan moves it. -/
def lockedMeanwhile : List WaitAction :=
  [.writer, .reader 7 .lock, .reader 7 .store, .writer, .reader 7 .unlock, .writer]

theorem waitsForReaders_lockedMeanwhile : ∃ w,
    Machine.exec (WaitForReaders.step (SyncRcu.firstArgs 2 3))
      (.start (SyncRcu.firstArgs 2 3) (oneReaderWait 0 1)) lockedMeanwhile = some w ∧
    WaitsForReaders (oneReaderWait 0 1).lists [1] w := by
  have hfound : FoundNotOld (SyncRcu.firstArgs 2 3)
      (.start (SyncRcu.firstArgs 2 3) (oneReaderWait 0 1)) lockedMeanwhile := fun hall ↦ by
    have hold := (hall.2 _ rfl).2 _ rfl
    cases (hold.2 _ rfl).1 1 7 rfl rfl
  obtain ⟨w, hw⟩ : ∃ w, Machine.exec (WaitForReaders.step (SyncRcu.firstArgs 2 3))
      (.start (SyncRcu.firstArgs 2 3) (oneReaderWait 0 1)) lockedMeanwhile = some w := ⟨_, rfl⟩
  exact ⟨w, hw, (waitsForReaders_iff (waitStart_oneReader 0 1) hw).2 (.inr (.inl hfound))⟩

/-- A reader that is in an old critical section all the time: the call returns after one scan. -/
theorem not_forall_waitsForReaders :
    ¬ ∀ (args : WaitArgs) (rcu : Rcu) (xs ys zs : List Addr) (acts : List WaitAction)
      (w : WaitForReaders), WaitStart args rcu.lists xs ys zs →
      Machine.exec (WaitForReaders.step args) (.start args rcu) acts = some w →
      WaitsForReaders rcu.lists xs w := by
  intro hall
  have hwaits := hall _ (oneReaderWait 1 (1 ^^^ RCU_GP_CTR_PHASE)) [1] [] [] [.writer, .writer] _
    (waitStart_oneReader _ _) rfl
  cases hwaits rfl 1 List.mem_cons_self 7 rfl

/-- The writer changes neither the readers' words nor the phase. -/
theorem readers_writerStep (hs : w.writerStep args = some w') :
    w'.rcu.readers = w.rcu.readers ∧ w'.rcu.gpCtr = w.rcu.gpCtr := by
  have hexamine (it : Addr) : (w.examine args it).rcu.readers = w.rcu.readers ∧
      (w.examine args it).rcu.gpCtr = w.rcu.gpCtr := by
    rw [WaitForReaders.examine]
    split <;> exact ⟨rfl, rfl⟩
  rw [WaitForReaders.writerStep] at hs
  split at hs
  next it _ =>
    obtain rfl := Option.some.inj hs
    split
    · exact hexamine it
    · exact hexamine it
  next =>
    obtain ⟨-, hs⟩ := Option.ite_none_left_eq_some.1 hs
    obtain rfl := Option.some.inj hs
    rw [WaitForReaders.startScan]
    split <;> exact ⟨rfl, rfl⟩
  next => cases hs

theorem readers_start (args : WaitArgs) (rcu : Rcu) :
    (WaitForReaders.start args rcu).rcu.readers = rcu.readers ∧
      (WaitForReaders.start args rcu).rcu.gpCtr = rcu.gpCtr := by
  rw [WaitForReaders.start, WaitForReaders.startScan]
  split <;> exact ⟨rfl, rfl⟩

/-- A call that will not return, as the readers do nothing: no reader is old, and the scan has not
ended; or it is astray. -/
def Stuck (args : WaitArgs) (l : ReaderLists) (xs : List Addr) (w : WaitForReaders) : Prop :=
  (∃ k, Scanning args l xs k w) ∧ w.pc ≠ .returned ∧ (∀ x ∈ xs, ∀ reader, l.node x = some reader →
      readerState w.rcu.gpCtr (w.rcu.readers reader).ctr ≠ .activeOld) ∨
    ∃ R, Astray args w R

theorem Stuck.not_returned (h : Stuck args l xs w) : w.pc ≠ .returned := by
  obtain ⟨-, hpc, -⟩ | ⟨R, hR⟩ := h
  · exact hpc
  · exact hR.not_returned

/-- **A step of the writer** does not help. -/
theorem Stuck.writer (W : WaitStart args l xs ys zs) (hxs : xs ≠ []) (h : Stuck args l xs w) :
    ∃ w', w.writerStep args = some w' ∧ Stuck args l xs w' := by
  have hdef : ∃ w', w.writerStep args = some w' := by
    obtain ⟨it, hpc⟩ : ∃ it, w.pc = .scan it := by
      obtain ⟨⟨k, -, ⟨hret, -⟩ | ⟨-, it, -, hpc⟩⟩, hne, -⟩ | ⟨R, ⟨-, -, -, -, it, -, hpc⟩⟩ := h
      · exact absurd hret hne
      · exact ⟨it, hpc⟩
      · exact ⟨it, hpc⟩
    rw [WaitForReaders.writerStep, hpc]
    exact ⟨_, rfl⟩
  obtain ⟨w', hw'⟩ := hdef
  refine ⟨w', hw', ?_⟩
  obtain ⟨⟨k, hscan⟩, hne, hnot⟩ | ⟨R, hR⟩ := h
  · by_cases hold : SeesOld w .writer
    · -- the scan is at the head of the list
      obtain ⟨hreaders, hgp⟩ := readers_writerStep hw'
      refine .inl ⟨⟨_, hscan.writer_old W hw' hold⟩, ?_, by rwa [hreaders, hgp]⟩
      obtain ⟨hret, -⟩ | ⟨hlists, it, hit, hpc⟩ := hscan.pc
      · exact absurd hret hne
      have hit := List.mem_of_getElem? hit
      have hhead : it = args.inputReaders := by
        refine (List.mem_cons.1 hit).resolve_right fun hx ↦ ?_
        obtain ⟨reader, hreader⟩ := Option.isSome_iff_exists.1 (W.node it hx)
        exact hnot it hx reader hreader (hold it reader hpc (hlists ▸ hreader))
      have hnext : w.rcu.lists.next it ≠ args.inputReaders := by
        rw [hlists, hhead, W.input.next]
        obtain ⟨x, hx⟩ := Option.isSome_iff_exists.1 (List.isSome_head?.2 hxs)
        rw [hx, Option.getD_some]
        exact fun h ↦ (List.nodup_cons.1 W.input.nodup).1 (h ▸ List.mem_of_head? hx)
      have hself : w.examine args it = w := examine_eq_self (hold it · hpc)
      rw [WaitForReaders.writerStep, hpc] at hw'
      simp only [hself, if_neg hnext, Option.some.injEq] at hw'
      subst hw'
      exact nofun
    · exact .inr (hscan.writer_not_old W hw' hold)
  · exact .inr ⟨R, hR.writer hw'⟩

/-- **A registry without a reader in a critical section**: `synchronize_rcu` is in its first scan
for ever. -/
theorem exists_stuck (h : Registered rcu.lists xs) (hxs : xs ≠ [])
    (hquiet : ∀ reader, (rcu.lists.list reader).isSome → (rcu.readers reader).rcuReadOngoing = 0)
    (k : ℕ) : ∃ w, SyncRcu.step^[k + 1] (.locked rcu) =
        .first rcu.lists.fresh (rcu.lists.fresh + 1) w ∧
      Stuck (SyncRcu.firstArgs rcu.lists.fresh (rcu.lists.fresh + 1)) rcu.lists.allocHead.allocHead
        xs w := by
  have W := waitStart_first h
  induction k with
  | zero =>
    have hnext : rcu.lists.next registryReaderList ≠ registryReaderList := by
      rw [h.circular.next]
      obtain ⟨x, hx⟩ := Option.isSome_iff_exists.1 (List.isSome_head?.2 hxs)
      rw [hx, Option.getD_some]
      exact fun h' ↦ (List.nodup_cons.1 h.circular.nodup).1 (h' ▸ List.mem_of_head? hx)
    refine ⟨_, if_neg hnext, .inl ⟨⟨0, scanning_start rfl⟩, ?_, fun x hx reader hreader ↦ ?_⟩⟩
    · rw [WaitForReaders.start, WaitForReaders.startScan]
      split <;> exact nofun
    · obtain ⟨reader', hnode, hlist⟩ := h.node x hx
      have hlt : x < rcu.lists.fresh := h.lt_fresh x (List.mem_cons_of_mem _ hx)
      rw [node_allocHead _ (Nat.ne_of_lt (Nat.lt_succ_of_lt hlt)),
        node_allocHead _ (Nat.ne_of_lt hlt), hnode] at hreader
      obtain rfl := Option.some.inj hreader
      have hinactive : readerState rcu.gpCtr (rcu.readers reader').ctr = .inactive :=
        if_pos (hquiet reader' (by rw [hlist]; rfl))
      obtain ⟨hreaders, hgp⟩ := readers_start
        (SyncRcu.firstArgs rcu.lists.fresh (rcu.lists.fresh + 1))
        { rcu with lists := rcu.lists.allocHead.allocHead }
      rw [hreaders, hgp]
      show readerState rcu.gpCtr (rcu.readers reader').ctr ≠ .activeOld
      rw [hinactive]
      exact nofun
  | succ k ih =>
    obtain ⟨w, hw, hstuck⟩ := ih
    obtain ⟨w', hw', hstuck'⟩ := hstuck.writer W hxs
    refine ⟨w', ?_, hstuck'⟩
    rw [iterate_succ_apply', hw, SyncRcu.step]
    have hne := hstuck.not_returned
    split
    next hret => exact absurd hret hne
    next => rw [hw', Option.getD_some]

theorem ne_done (h : Registered rcu.lists xs) (hxs : xs ≠ [])
    (hquiet : ∀ reader, (rcu.lists.list reader).isSome → (rcu.readers reader).rcuReadOngoing = 0)
    (k : ℕ) : SyncRcu.step^[k] (.locked rcu) ≠ .done rcu' := by
  cases k with
  | zero => exact nofun
  | succ k =>
    obtain ⟨w, hw, -⟩ := exists_stuck h hxs hquiet k
    rw [hw]
    exact nofun

/-- **`synchronize_rcu` never returns** if some reader is registered and none is in a critical
section: the first reader is moved to the list of the quiescent ones, where it points to itself. -/
theorem not_synchronizesRight {acts : List RegistryAction}
    (h : Machine.exec registryStep .initial acts = some rcu.lists)
    (hreader : ∃ reader, (rcu.lists.list reader).isSome)
    (hquiet : ∀ reader, (rcu.lists.list reader).isSome → (rcu.readers reader).rcuReadOngoing = 0) :
    ¬ SynchronizesRight rcu := by
  rintro ⟨k, rcu', hdone, -⟩
  obtain ⟨xs, hxs⟩ := registered_of_exec h
  obtain ⟨reader, hreader⟩ := hreader
  obtain ⟨x, hx⟩ := Option.isSome_iff_exists.1 hreader
  exact ne_done hxs (List.ne_nil_of_mem (hxs.list reader x hx).1) hquiet k hdone

theorem rcuReadOngoing_oneReader : RcuReader.rcuReadOngoing ⟨0, none⟩ = 0 := by decide

theorem not_synchronizesRight_oneReader : ¬ SynchronizesRight (oneReader 0 1) := by
  have h : Machine.exec registryStep .initial [.register 7] = some (oneReader 0 1).lists := rfl
  exact not_synchronizesRight h ⟨7, rfl⟩ fun _ _ ↦ rcuReadOngoing_oneReader

/-- One registered reader that has never been in a critical section is enough. -/
theorem not_forall_synchronizesRight :
    ¬ ∀ (rcu : Rcu) (acts : List RegistryAction),
      Machine.exec registryStep .initial acts = some rcu.lists →
      (∃ reader, (rcu.lists.list reader).isSome) →
      (∀ reader, (rcu.lists.list reader).isSome → (rcu.readers reader).rcuReadOngoing = 0) →
      SynchronizesRight rcu := by
  intro hall
  obtain ⟨k, rcu', hdone, -⟩ := hall (oneReader 0 1) [.register 7] rfl ⟨7, rfl⟩
    fun _ _ ↦ rcuReadOngoing_oneReader
  exact ne_done (registered_oneReader 0 1) (List.cons_ne_nil _ _)
    (fun _ _ ↦ rcuReadOngoing_oneReader) k hdone

end Urcu
