import Mathlib.Algebra.Group.Int.Defs
import Mathlib.Algebra.GroupWithZero.Nat
import MiscCpp.Hook.BlockingIO

/-!
# The count of a hooked `write`

The hooked `write` on any kernel: `sys_write_func` may take any part of what it is offered, nothing,
or fail, at each call anew. The calls it makes are recorded as `Offer`s.

Each turn of the loop but the last one gets rid of at least a byte, so induction on what is left of
the buffer gives the end of the loop and its account together (`writeLoop_accounts`). The kernel
of a `History` is one of these kernels, and there the function is the one that
`WaitsRight` speaks of (`write_history_ret`).
-/

namespace CoRoutine

/-- A buffer, not larger than an object can be. -/
structure Buffer where
  bytes : List UInt8
  size_lt : bytes.length < 2 ^ 63

/-- What is below the hooked `write`, with a state of its own: `sys_write_func`, given the bytes it
is offered, and the wait in `poll` before another attempt. -/
structure WriteKernel (σ : Type*) where
  sysWrite : σ → List UInt8 → ℤ × σ
  wait : σ → σ
  le_length (s : σ) (data : List UInt8) : (sysWrite s data).1 ≤ data.length

/-- A call of `sys_write_func`: where in the buffer it begins, the bytes, the result. -/
structure Offer where
  offset : ℕ
  data : List UInt8
  ret : ℤ

def Offer.taken (o : Offer) : List UInt8 := o.data.take o.ret.toNat

/-- The number of bytes that the calls have got rid of. -/
def accepted (os : List Offer) : ℕ := (os.map fun o ↦ o.ret.toNat).sum

/-- What `write` returns. -/
def writeResult (len : ℕ) (ret : ℤ) : ℤ :=
  if ret ≤ 0 ∧ len = 0 then ret else (len : ℤ).bmod (2 ^ 64)

namespace WriteKernel

variable {σ : Type*} (K : WriteKernel σ) (buf : Buffer)

/-- `sys_write_func(fd, (const char *)buf + len, count - len)` -/
def offer (s : σ) (len : ℕ) : Offer × σ :=
  let data := buf.bytes.drop len
  let (ret, s) := K.sysWrite s data
  (⟨len, data, ret⟩, s)

/-- The loop of `write`, as many turns as `fuel` allows: what `write` returns, the calls that are
made, and the kernel after them. -/
def writeLoop : ℕ → σ → ℕ → ℤ → Option (ℤ × List Offer × σ)
  | 0, _, _, _ => none
  | fuel + 1, s, len, ret =>
    if len < buf.bytes.length then
      let (o, s) := K.offer buf (K.wait s) len
      if o.ret ≤ 0 then some (writeResult len o.ret, [o], s)
      else
        (writeLoop fuel s ((len + o.ret) % 2 ^ 64).toNat o.ret).map fun (r, os, s) ↦ (r, o :: os, s)
    else some (writeResult len ret, [], s)

/-- `write(fd, buf, count)`, for the whole buffer. -/
def write (enableSysHook : Bool) (sockets : Sockets) (fd : ℤ) (fuel : ℕ) (s : σ) :
    Option (ℤ × List Offer × σ) :=
  let (o, s) := K.offer buf s 0
  if !enableSysHook then some (o.ret, [o], s)
  else if sockets.directPath fd then some (o.ret, [o], s)
  else if o.ret = 0 then some (0, [o], s)
  else
    (K.writeLoop buf fuel s (if o.ret > 0 then o.ret.toNat else 0) o.ret).map
      fun (r, os, s) ↦ (r, o :: os, s)

end WriteKernel

/-! ### The account -/

/-- Each call offers what is left behind the bytes accepted so far, of which there are `len` at
first, and does not get rid of more. -/
def Consecutive (buf : Buffer) : ℕ → List Offer → Prop
  | _, [] => True
  | len, o :: os =>
    o.offset = len ∧ o.data = buf.bytes.drop len ∧ o.ret ≤ o.data.length ∧
      Consecutive buf (len + o.ret.toNat) os

/-- What `write` returns, against the calls it has made. -/
structure Accounts (buf : Buffer) (ret : ℤ) (os : List Offer) : Prop where
  consecutive : Consecutive buf 0 os
  taken : os.flatMap Offer.taken = buf.bytes.take (accepted os)
  total (h : 0 < accepted os) : ret = accepted os
  nothing (h : accepted os = 0) : (os.map Offer.ret).getLast? = some ret
  short (h : ret < buf.bytes.length) : ∃ o ∈ os, o.ret ≤ 0
  -- a call that follows another one has something to offer, and ends it all if nothing is taken
  rest (o : Offer) (h : o ∈ os.tail) : o.data ≠ []
  went_on (o : Offer) (h : o ∈ os.tail.dropLast) : 0 < o.ret

variable {buf : Buffer} {os : List Offer} {o : Offer} {len : ℕ}

@[simp] theorem accepted_nil : accepted [] = 0 := rfl

@[simp] theorem accepted_cons (o : Offer) (os : List Offer) :
    accepted (o :: os) = o.ret.toNat + accepted os := rfl

/-- The bytes that consecutive calls get rid of are those behind the first `len`, in order. -/
theorem Consecutive.taken (h : Consecutive buf len os) :
    os.flatMap Offer.taken = (buf.bytes.drop len).take (accepted os) := by
  induction os generalizing len with
  | nil => simp
  | cons o os ih =>
    obtain ⟨-, hdata, -, h⟩ := h
    rw [List.flatMap_cons, ih h, Offer.taken, hdata, accepted_cons, List.take_add, List.drop_drop]

/-! ### The loop -/

namespace WriteKernel

variable {σ : Type*} (K : WriteKernel σ)

theorem writeResult_of_pos (hlen : 0 < len) (hsize : len ≤ buf.bytes.length) (ret : ℤ) :
    writeResult len ret = len := by
  have hlt := buf.size_lt
  rw [writeResult, if_neg (by omega)]
  exact Int.bmod_eq_of_le (by omega) (by omega)

/-- What the loop makes of `len` bytes that are gone and the last result `ret`. -/
structure LoopAccounts (buf : Buffer) (len : ℕ) (ret : ℤ) (r : ℤ) (os : List Offer) : Prop where
  consecutive : Consecutive buf len os
  total (h : 0 < len + accepted os) : r = (len + accepted os : ℕ)
  nothing (h : len + accepted os = 0) : (ret :: os.map Offer.ret).getLast? = some r
  short (h : len + accepted os < buf.bytes.length) : ∃ o ∈ os, o.ret ≤ 0
  rest (o : Offer) (h : o ∈ os) : o.data ≠ []
  went_on (o : Offer) (h : o ∈ os.dropLast) : 0 < o.ret
  length_le : os.length ≤ buf.bytes.length - len

namespace LoopAccounts

variable {ret ret' r : ℤ}

/-- The buffer is at its end. -/
theorem done (hret : ret ≤ 0 ∨ 0 < len) (hlen : len = buf.bytes.length) :
    LoopAccounts buf len ret (writeResult len ret) [] where
  consecutive := trivial
  total h := writeResult_of_pos h hlen.le ret
  nothing h := by
    have hlen₀ : len = 0 := h
    simp [writeResult, hlen₀, hret.resolve_right (by omega)]
  short h := absurd h (by simp [hlen])
  rest o ho := absurd ho List.not_mem_nil
  went_on o ho := absurd ho List.not_mem_nil
  length_le := Nat.zero_le _

theorem drop_ne_nil (hlt : len < buf.bytes.length) : buf.bytes.drop len ≠ [] := by
  intro h
  have hlength := congrArg List.length h
  rw [List.length_drop, List.length_nil] at hlength
  omega

/-- Nothing is accepted. -/
theorem failed (hlt : len < buf.bytes.length) (hret : ret' ≤ 0) :
    LoopAccounts buf len ret (writeResult len ret') [⟨len, buf.bytes.drop len, ret'⟩] := by
  have hzero : ret'.toNat = 0 := by omega
  refine ⟨⟨rfl, rfl, by dsimp only; omega, trivial⟩, fun h ↦ ?_, fun h ↦ ?_, fun _ ↦ ?_, ?_, ?_, ?_⟩
  · simp only [accepted_cons, hzero, accepted_nil, Nat.add_zero] at h ⊢
    exact writeResult_of_pos h hlt.le ret'
  · have hlen₀ : len = 0 := by omega
    simp [writeResult, hret, hlen₀]
  · exact ⟨_, List.mem_singleton_self _, hret⟩
  · exact fun o ho ↦ List.mem_singleton.1 ho ▸ drop_ne_nil hlt
  · exact fun o ho ↦ absurd ho List.not_mem_nil
  · simp only [List.length_singleton]
    omega

/-- Some bytes are accepted, and the loop goes on. -/
theorem cons (hlt : len < buf.bytes.length) (hpos : 0 < ret')
    (hle : ret' ≤ (buf.bytes.length - len : ℕ))
    (h : LoopAccounts buf (len + ret'.toNat) ret' r os) :
    LoopAccounts buf len ret r (⟨len, buf.bytes.drop len, ret'⟩ :: os) := by
  have hacc : len + accepted (⟨len, buf.bytes.drop len, ret'⟩ :: os) =
      len + ret'.toNat + accepted os := by
    rw [accepted_cons, Nat.add_assoc]
  refine ⟨⟨rfl, rfl, ?_, h.consecutive⟩, fun h' ↦ ?_, fun h' ↦ ?_, fun h' ↦ ?_, fun o ho ↦ ?_,
    fun o ho ↦ ?_, ?_⟩
  · rw [List.length_drop]
    exact hle
  · rw [hacc] at h' ⊢
    exact h.total h'
  · omega
  · rw [hacc] at h'
    obtain ⟨o, ho, hnot⟩ := h.short h'
    exact ⟨o, List.mem_cons_of_mem _ ho, hnot⟩
  · obtain rfl | ho := List.mem_cons.1 ho
    · exact drop_ne_nil hlt
    · exact h.rest o ho
  · cases os with
    | nil => exact absurd ho List.not_mem_nil
    | cons o' os =>
      rw [List.dropLast_cons_cons] at ho
      obtain rfl | ho := List.mem_cons.1 ho
      · exact hpos
      · exact h.went_on o ho
  · have hlength := h.length_le
    rw [List.length_cons]
    omega

end LoopAccounts

/-- The call of a turn. -/
theorem offer_eq (buf : Buffer) (s : σ) (len : ℕ) :
    ∃ ret s', K.offer buf s len = (⟨len, buf.bytes.drop len, ret⟩, s') ∧
      ret ≤ (buf.bytes.length - len : ℕ) := by
  have hle := K.le_length s (buf.bytes.drop len)
  rw [List.length_drop] at hle
  exact ⟨_, _, rfl, hle⟩

theorem writeLoop_accounts (buf : Buffer) (s : σ) (len : ℕ) (ret : ℤ)
    (hlen : len ≤ buf.bytes.length) (hret : ret ≤ 0 ∨ 0 < len) :
    ∃ r os s', (∀ fuel, buf.bytes.length - len < fuel →
        K.writeLoop buf fuel s len ret = some (r, os, s')) ∧
      LoopAccounts buf len ret r os := by
  -- by induction on what is left of the buffer
  induction hn : buf.bytes.length - len using Nat.strong_induction_on generalizing s len ret with
  | _ n ih =>
    by_cases hlt : len < buf.bytes.length
    · obtain ⟨ret', s₁, hoffer, hle⟩ := K.offer_eq buf (K.wait s) len
      by_cases hret' : ret' ≤ 0
      · refine ⟨_, _, s₁, fun fuel hfuel ↦ ?_, .failed hlt hret'⟩
        obtain ⟨fuel, rfl⟩ : ∃ k, fuel = k + 1 := ⟨fuel - 1, by omega⟩
        simp only [writeLoop, if_pos hlt, hoffer, if_pos hret']
      · have hsum : ((len + ret') % 2 ^ 64).toNat = len + ret'.toNat := by
          have hsize := buf.size_lt
          omega
        obtain ⟨r, os, s', hloop, hacc⟩ := ih (buf.bytes.length - (len + ret'.toNat)) (by omega)
          s₁ (len + ret'.toNat) ret' (by omega) (.inr (by omega)) rfl
        refine ⟨r, _, s', fun fuel hfuel ↦ ?_, hacc.cons hlt (by omega) hle⟩
        obtain ⟨fuel, rfl⟩ : ∃ k, fuel = k + 1 := ⟨fuel - 1, by omega⟩
        simp only [writeLoop, if_pos hlt, hoffer, if_neg hret', hsum, hloop fuel (by omega),
          Option.map_some]
    · refine ⟨_, [], s, fun fuel hfuel ↦ ?_, .done hret (by omega)⟩
      obtain ⟨fuel, rfl⟩ : ∃ k, fuel = k + 1 := ⟨fuel - 1, by omega⟩
      rw [writeLoop, if_neg hlt]

/-- The first call and the loop together. -/
theorem LoopAccounts.accounts {ret r : ℤ} (hle : ret ≤ buf.bytes.length)
    (h : LoopAccounts buf ret.toNat ret r os) : Accounts buf r (⟨0, buf.bytes, ret⟩ :: os) := by
  have hcons : Consecutive buf 0 (⟨0, buf.bytes, ret⟩ :: os) :=
    ⟨rfl, rfl, hle, by rw [Nat.zero_add]; exact h.consecutive⟩
  refine ⟨hcons, ?_, h.total, h.nothing, fun hshort ↦ ?_, h.rest, h.went_on⟩
  · rw [hcons.taken, List.drop_zero]
  · by_cases hret : ret ≤ 0
    · exact ⟨_, List.mem_cons_self, hret⟩
    · have htotal := h.total (by omega)
      obtain ⟨o, ho, hnot⟩ := h.short (by omega)
      exact ⟨o, List.mem_cons_of_mem _ ho, hnot⟩

/-- **The hooked `write`** returns after one call more than there are bytes at most, and accounts
for them. -/
theorem write_accounts {sockets : Sockets} {fd : ℤ} (hblock : sockets.directPath fd = false)
    (buf : Buffer) (s : σ) :
    ∃ r os s', (∀ fuel, buf.bytes.length < fuel →
        K.write buf true sockets fd fuel s = some (r, os, s')) ∧
      os.length ≤ buf.bytes.length + 1 ∧ Accounts buf r os := by
  obtain ⟨ret, s₁, hoffer, hle⟩ := K.offer_eq buf s 0
  rw [List.drop_zero] at hoffer
  rw [Nat.sub_zero] at hle
  by_cases hret : ret = 0
  · refine ⟨0, [⟨0, buf.bytes, ret⟩], s₁, fun fuel _ ↦ ?_, by simp, ?_⟩
    · simp [write, hoffer, hblock, hret]
    · subst hret
      refine ⟨⟨rfl, rfl, hle, trivial⟩, by simp [Offer.taken], fun h ↦ absurd h (lt_irrefl _),
        fun _ ↦ rfl, fun _ ↦ ⟨_, List.mem_singleton_self _, Int.le_refl 0⟩, ?_, ?_⟩
      · exact fun o ho ↦ absurd ho List.not_mem_nil
      · exact fun o ho ↦ absurd ho List.not_mem_nil
  · have hlen : (if ret > 0 then ret.toNat else 0) = ret.toNat := by
      split <;> omega
    obtain ⟨r, os, s', hloop, hacc⟩ :=
      K.writeLoop_accounts buf s₁ ret.toNat ret (by omega) (by omega)
    refine ⟨r, _, s', fun fuel hfuel ↦ ?_, ?_, hacc.accounts hle⟩
    · simp only [write, hoffer, hblock, hret, hlen, hloop fuel (by omega), Bool.not_true,
        Bool.false_eq_true, if_false, Option.map_some]
    · have hlength := hacc.length_le
      rw [List.length_cons]
      omega

/-! ### Kernels -/

/-- The kernel whose `k`th call has the result `results k`, or as much as that call is offered. -/
def ofResults (results : ℕ → ℤ) : WriteKernel ℕ where
  sysWrite k data := (min (results k) data.length, k + 1)
  wait k := k
  le_length k data := Int.min_le_right (results k) data.length

theorem write_accounts_errorFirst :
    let sockets : Sockets :=
      { gSocketInfo := fun _ ↦ some ⟨0, 0, ⟨1, 0⟩, ⟨1, 0⟩⟩, kernel := fun _ ↦ none }
    ∃ r os s', (∀ fuel, 3 < fuel → (ofResults fun k ↦ if k = 1 then 2 else -1).write
        ⟨[104, 105, 33], by decide⟩ true sockets 5 fuel 0 = some (r, os, s')) ∧
      os.length ≤ 4 ∧ Accounts ⟨[104, 105, 33], by decide⟩ r os :=
  write_accounts _ (by decide) ⟨[104, 105, 33], by decide⟩ 0

end WriteKernel

theorem sysWrite_le (h : History) (now sent count : ℕ) : h.sysWrite now sent count ≤ count := by
  rw [History.sysWrite]
  split
  · omega
  · split <;> omega

/-- What a history does, with the time and the bytes gone as its state. -/
def History.kernel (h : History) (info : SocketInfo) : WriteKernel (ℕ × ℕ) where
  sysWrite s data :=
    let ret := h.sysWrite s.1 s.2 data.length
    (ret, s.1, s.2 + ret.toNat)
  wait s := (h.poll (POLLIN ||| POLLERR ||| POLLHUP) info.writeTimeout s.2 s.1, s.2)
  le_length s data := sysWrite_le h s.1 s.2 data.length

theorem writeResult_eq {ret : ℤ} (hret : ret ≤ 0) (hlen : len ≤ buf.bytes.length) :
    writeResult len ret = if len = 0 then ret else len := by
  by_cases hlen₀ : len = 0
  · rw [writeResult, if_pos ⟨hret, hlen₀⟩, if_pos hlen₀]
  · rw [WriteKernel.writeResult_of_pos (by omega) hlen, if_neg hlen₀]

theorem writeLoop_history_ret (h : History) (info : SocketInfo) (buf : Buffer) {ret : ℤ}
    {now fuel fuel' : ℕ} (hlen : len ≤ buf.bytes.length) (hpos : 0 < buf.bytes.length)
    (hfuel : buf.bytes.length - len < fuel) (hfuel' : buf.bytes.length - len ≤ fuel') :
    ((h.kernel info).writeLoop buf fuel (now, len) len ret).map Prod.fst =
      some (h.writeLoop info buf.bytes.length fuel' now len).ret := by
  induction fuel generalizing now len ret fuel' with
  | zero => omega
  | succ fuel ih =>
    by_cases hlt : len < buf.bytes.length
    · obtain ⟨fuel', rfl⟩ : ∃ k, fuel' = k + 1 := ⟨fuel' - 1, by omega⟩
      have hle := sysWrite_le h (h.poll (POLLIN ||| POLLERR ||| POLLHUP) info.writeTimeout len now)
        len (buf.bytes.length - len)
      simp only [WriteKernel.writeLoop, History.writeLoop, if_pos hlt, WriteKernel.offer,
        History.kernel, List.length_drop]
      generalize h.sysWrite (h.poll (POLLIN ||| POLLERR ||| POLLHUP) info.writeTimeout len now)
        len (buf.bytes.length - len) = ret' at hle ⊢
      by_cases hret : ret' ≤ 0
      · rw [if_pos hret, if_pos hret, Option.map_some, writeResult_eq hret hlen]
      · have hsum : ((len + ret') % 2 ^ 64).toNat = len + ret'.toNat := by
          have hsize := buf.size_lt
          omega
        rw [if_neg hret, if_neg hret, hsum, Option.map_map]
        exact ih (by omega) (by omega) (by omega)
    · obtain rfl : len = buf.bytes.length := by omega
      rw [WriteKernel.writeLoop, if_neg hlt, Option.map_some,
        WriteKernel.writeResult_of_pos hpos le_rfl]
      cases fuel' with
      | zero => rfl
      | succ fuel' => rw [History.writeLoop, if_neg hlt]

/-- In a history the function is the `write` of the blocking mode. -/
theorem write_history_ret (h : History) {sockets : Sockets} {fd : ℤ} {info : SocketInfo}
    (hinfo : sockets.socketInfoGet fd = some info) (hblock : ¬ Nonblock info.flag) (buf : Buffer)
    (now : ℕ) {fuel : ℕ} (hfuel : buf.bytes.length < fuel) :
    ((h.kernel info).write buf true sockets fd fuel (now, 0)).map Prod.fst =
      some (h.write info now buf.bytes.length).ret := by
  have hdirect : sockets.directPath fd = false := by
    rw [Sockets.directPath, hinfo]
    exact decide_eq_false hblock
  have hle := sysWrite_le h now 0 buf.bytes.length
  have hzero : buf.bytes.length = 0 → h.sysWrite now 0 buf.bytes.length = 0 := fun h₀ ↦ by
    rw [History.sysWrite, if_pos h₀]
  simp only [WriteKernel.write, History.write, WriteKernel.offer, hdirect, List.drop_zero,
    History.kernel, Bool.not_true, Bool.false_eq_true, if_false, if_neg hblock, Nat.zero_add]
  generalize h.sysWrite now 0 buf.bytes.length = ret at hle hzero ⊢
  by_cases hret : ret = 0
  · rw [if_pos hret, if_pos hret, Option.map_some]
  · have hlen : (if ret > 0 then ret.toNat else 0) = ret.toNat := by
      split <;> omega
    have hpos : 0 < buf.bytes.length := Nat.pos_of_ne_zero (mt hzero hret)
    rw [if_neg hret, if_neg hret, hlen, Option.map_map]
    exact writeLoop_history_ret h info buf (by omega) hpos (by omega) (by omega)

end CoRoutine
