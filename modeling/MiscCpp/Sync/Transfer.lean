import Mathlib.Algebra.Order.Group.Unbundled.Abs
import Mathlib.Algebra.Order.Ring.Int
import Mathlib.Tactic.Linarith
import MiscCpp.Library.CInt
import MiscCpp.Library.LockedSections

/-!
# Transfers between bank accounts

`transfer` takes the mutexes of both accounts with `std::lock`, a series of tries that is not
specified, moves `amount` from the one balance to the other, each by a load and a store, and gives
back both mutexes. Threads that make any number of transfers between any number of accounts
interleave.

**No money is lost**: `balances_of_exec` says what the balances are at the end and that their sum is
the same whenever no transfer is going on. **No deadlock**: `exists_exec_done`.
-/

open Function LockedSections

namespace BankAccount

variable {Tid Account : Type*}

/-- A call of `transfer`. To lock the mutex of one account twice would be undefined. -/
structure Transfer (Account : Type*) where
  from_ : Account
  to_ : Account
  amount : CInt
  ne : from_ ≠ to_

/-- `from.balance -= amount; to.balance += amount;` under both locks. -/
def transfer (call : Transfer Account) : Section Account CInt CInt where
  locks := [call.from_, call.to_]
  regs := call.amount
  ops := [.load call.from_ fun _ balance ↦ balance,
    .store call.from_ fun balance ↦ CInt.checked (balance.1 - call.amount.1),
    .load call.to_ fun _ balance ↦ balance,
    .store call.to_ fun balance ↦ CInt.checked (balance.1 + call.amount.1)]
  var_mem := by simp [Op.var]

section Gain

variable [DecidableEq Account] (call : Transfer Account) {m m' : Account → CInt} {x : Account}

/-- What a transfer adds to the balance of an account. -/
def Transfer.gain (x : Account) : ℤ :=
  if x = call.to_ then call.amount.1 else if x = call.from_ then -call.amount.1 else 0

theorem Transfer.gain_to : call.gain call.to_ = call.amount.1 := if_pos rfl

theorem Transfer.gain_from : call.gain call.from_ = -call.amount.1 := by
  rw [gain, if_neg call.ne, if_pos rfl]

theorem Transfer.gain_of_ne (hto : x ≠ call.to_) (hfrom : x ≠ call.from_) : call.gain x = 0 := by
  rw [gain, if_neg hto, if_neg hfrom]

theorem run_transfer : (transfer call).run m =
    (CInt.checked ((m call.from_).1 - call.amount.1)).bind fun v ↦
      (CInt.checked ((m call.to_).1 + call.amount.1)).map fun w ↦
        update (update m call.from_ v) call.to_ w := by
  rw [Section.run]
  dsimp only [transfer, runOps, Op.run, Option.bind_some]
  rcases CInt.checked ((m call.from_).1 - call.amount.1) with - | v
  · rfl
  · simp only [Option.map_some, Option.bind_some, update_of_ne call.ne.symm]
    rcases CInt.checked ((m call.to_).1 + call.amount.1) with - | w <;> rfl

/-- **One transfer**, when nothing else happens. -/
theorem run_transfer_eq_some_iff :
    (transfer call).run m = some m' ↔ ∀ x, (m' x).1 = (m x).1 + call.gain x := by
  rw [run_transfer]
  constructor
  · intro h x
    obtain ⟨v, hv, h⟩ := Option.bind_eq_some_iff.1 h
    obtain ⟨w, hw, rfl⟩ := Option.map_eq_some_iff.1 h
    have hv := CInt.checked_eq_some hv
    have hw := CInt.checked_eq_some hw
    rcases eq_or_ne x call.to_ with rfl | hto
    · rw [update_self, hw, call.gain_to]
    rw [update_of_ne hto]
    rcases eq_or_ne x call.from_ with rfl | hfrom
    · rw [update_self, hv, call.gain_from, Int.sub_eq_add_neg]
    · rw [update_of_ne hfrom, call.gain_of_ne hto hfrom, Int.add_zero]
  · intro h
    have hfrom : (m call.from_).1 - call.amount.1 = (m' call.from_).1 := by
      rw [h, call.gain_from, Int.sub_eq_add_neg]
    have hto : (m call.to_).1 + call.amount.1 = (m' call.to_).1 := by rw [h, call.gain_to]
    rw [hfrom, hto, CInt.checked_coe, CInt.checked_coe]
    refine congrArg some (funext fun x ↦ Subtype.ext ?_)
    dsimp only
    rcases eq_or_ne x call.to_ with rfl | hto
    · rw [update_self]
    rw [update_of_ne hto]
    rcases eq_or_ne x call.from_ with rfl | hfrom
    · rw [update_self]
    · rw [update_of_ne hfrom, h, call.gain_of_ne hto hfrom, Int.add_zero]

theorem Transfer.sum_gain [Fintype Account] : ∑ x, call.gain x = 0 := by
  have hsplit (x : Account) : call.gain x = (if x = call.to_ then call.amount.1 else 0) +
      if x = call.from_ then -call.amount.1 else 0 := by
    rw [gain]
    split
    next h => rw [if_neg (h ▸ call.ne.symm), Int.add_zero]
    next => rw [Int.zero_add]
  rw [Finset.sum_congr rfl fun x _ ↦ hsplit x, Finset.sum_add_distrib, Finset.sum_ite_eq',
    Finset.sum_ite_eq', if_pos (Finset.mem_univ _), if_pos (Finset.mem_univ _), Int.add_right_neg]

/-- Transfers one after another. -/
theorem serial_eq_some {log : List (Tid × Transfer Account)} (h : serial transfer log m = some m')
    (x : Account) : (m' x).1 = (m x).1 + (log.map fun p ↦ p.2.gain x).sum := by
  induction log generalizing m with
  | nil =>
    cases h
    exact (Int.add_zero _).symm
  | cons p log ih =>
    obtain ⟨m₁, hrun, h⟩ := Option.bind_eq_some_iff.1 h
    rw [ih h, (run_transfer_eq_some_iff p.2).1 hrun x, List.map_cons, List.sum_cons, Int.add_assoc]

theorem sum_serial [Fintype Account] {log : List (Tid × Transfer Account)}
    (h : serial transfer log m = some m') : ∑ x, (m' x).1 = ∑ x, (m x).1 := by
  induction log generalizing m with
  | nil =>
    cases h
    rfl
  | cons p log ih =>
    obtain ⟨m₁, hrun, h⟩ := Option.bind_eq_some_iff.1 h
    rw [ih h, Finset.sum_congr rfl fun x _ ↦ (run_transfer_eq_some_iff p.2).1 hrun x,
      Finset.sum_add_distrib, p.2.sum_gain, Int.add_zero]

/-- They are defined as long as all that they may do to a balance fits in an `int`. -/
theorem isSome_serial {log : List (Tid × Transfer Account)}
    (h : ∀ x, -2 ^ 31 ≤ (m x).1 - (log.map fun p ↦ |p.2.gain x|).sum ∧
      (m x).1 + (log.map fun p ↦ |p.2.gain x|).sum < 2 ^ 31) :
    (serial transfer log m).isSome := by
  induction log generalizing m with
  | nil => rfl
  | cons p log ih =>
    simp only [List.map_cons, List.sum_cons] at h
    have hrest (x : Account) : 0 ≤ (log.map fun p ↦ |p.2.gain x|).sum :=
      List.sum_nonneg fun v hv ↦ by
        obtain ⟨q, -, rfl⟩ := List.mem_map.1 hv
        exact abs_nonneg _
    have hfit (x : Account) : -2 ^ 31 ≤ (m x).1 + p.2.gain x ∧ (m x).1 + p.2.gain x < 2 ^ 31 := by
      have := h x
      have := hrest x
      have := neg_abs_le (p.2.gain x)
      have := le_abs_self (p.2.gain x)
      constructor <;> linarith
    have hrun : (transfer p.2).run m = some fun x ↦ ⟨(m x).1 + p.2.gain x, hfit x⟩ :=
      (run_transfer_eq_some_iff p.2).2 fun _ ↦ rfl
    rw [serial, hrun, Option.bind_some]
    refine ih fun x ↦ ?_
    have := h x
    have := neg_abs_le (p.2.gain x)
    have := le_abs_self (p.2.gain x)
    dsimp only
    constructor <;> linarith

end Gain

/-! ### Threads -/

/-- The accounts of `main`, `true` for `my_account`. -/
def mainBalance : Bool → CInt
  | true => CInt.wrap 100
  | false => CInt.wrap 50

/-- The threads of `main`, `true` for `t1`. -/
def mainCalls : Bool → List (Transfer Bool)
  | true => [⟨true, false, CInt.wrap 10, nofun⟩]
  | false => [⟨false, true, CInt.wrap 5, nofun⟩]

variable [DecidableEq Tid] [DecidableEq Account] [Fintype Tid] {balance : Account → CInt}
  {calls : Tid → List (Transfer Account)} {as : List (LockedSections.Action Tid Account)}
  {st : State Tid Account CInt CInt (Transfer Account)}

/-- **No money is lost.** Whenever no transfer is going on the sum of the balances is what it was,
and when all transfers have been made each balance is what it should be, in whatever way the threads
interleave. -/
theorem balances_of_exec [Fintype Account]
    (hexec : Machine.exec (step transfer) (initial balance calls) as = some st)
    (hidle : ∀ t, st.inside t = none) :
    ∑ x, (st.mem x).1 = ∑ x, (balance x).1 ∧ ((∀ t, st.todo t = []) → ∀ x,
      (st.mem x).1 = (balance x).1 + ∑ t, ((calls t).map fun call ↦ call.gain x).sum) := by
  obtain ⟨hserial, hcomplete⟩ := mem_of_exec hexec hidle
  refine ⟨sum_serial hserial, fun hdone x ↦ ?_⟩
  rw [serial_eq_some hserial x, hcomplete.sum_log hdone fun call ↦ call.gain x]

/-- A run of `main` in which each thread holds one mutex before `t2` gives its own back. -/
def mainRun : List (LockedSections.Action Bool Bool) :=
  [.acquire true true, .acquire false false, .release false false, .acquire true false, .enter true,
    .op true, .op true, .op true, .op true, .leave true, .release true false, .acquire false false,
    .release true true, .acquire false true, .enter false, .op false, .op false, .op false,
    .op false, .leave false]

theorem balances_of_exec_main :
    ∃ st, Machine.exec (step transfer) (initial mainBalance mainCalls) mainRun = some st ∧
      (st.mem true).1 = 95 ∧ (st.mem false).1 = 55 := by
  have hexec : Machine.exec (step transfer) (initial mainBalance mainCalls) mainRun =
      some _ := rfl
  have hbalances := (balances_of_exec hexec (by decide)).2 (by decide)
  exact ⟨_, hexec, hbalances true, hbalances false⟩

/-- **No deadlock**: if the balances fit in an `int` however the transfers are ordered, then from
every state that the threads can reach all that is left to be done can be done. -/
theorem exists_exec_done
    (hexec : Machine.exec (step transfer) (initial balance calls) as = some st)
    (hfits : ∀ x, -2 ^ 31 ≤ (balance x).1 - ∑ t, ((calls t).map fun call ↦ |call.gain x|).sum ∧
      (balance x).1 + ∑ t, ((calls t).map fun call ↦ |call.gain x|).sum < 2 ^ 31) :
    ∃ as' st', Machine.exec (step transfer) st as' = some st' ∧
      ∀ t, st'.todo t = [] ∧ st'.inside t = none := by
  obtain ⟨base, hinv, hcomplete⟩ := serial_of_exec hexec
  have hserial (log : List (Tid × Transfer Account)) (hlegit : Legit calls log) :
      (serial transfer log balance).isSome :=
    isSome_serial fun x ↦ by
      have hsum := hlegit.sum_le fun call ↦ abs_nonneg (call.gain x)
      have := hfits x
      constructor <;> linarith
  obtain ⟨as', st', hexec', ⟨⟨base', hinv'⟩, -⟩, hdone⟩ :=
    Reached.exists_done ⟨⟨base, hinv⟩, hcomplete⟩ hserial
  exact ⟨as', st', hexec', fun t ↦ ⟨hdone t, hinv'.inside_eq_none (hdone t)⟩⟩

theorem exists_exec_done_main : ∃ st as' st',
    Machine.exec (step transfer) (initial mainBalance mainCalls)
      [.acquire true true, .acquire false false] = some st ∧
    Machine.exec (step transfer) st as' = some st' ∧
      ∀ t, st'.todo t = [] ∧ st'.inside t = none := by
  have hexec : Machine.exec (step transfer) (initial mainBalance mainCalls)
      [.acquire true true, .acquire false false] = some _ := rfl
  obtain ⟨as', st', h⟩ := exists_exec_done hexec (by decide)
  exact ⟨_, as', st', hexec, h⟩

end BankAccount
