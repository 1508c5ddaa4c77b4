import Mathlib.Data.List.TakeWhile
import Mathlib.Tactic.Ring
import MiscCpp.Library.ByteStream
import MiscCpp.Library.CInt

/-!
# The Rio package

The robust reading and writing of `csapp.c`, on a descriptor whose kernel transfers as many bytes
at a time as it likes and may be interrupted.

The buffered readers share `rio_t`. What is still to be read through it is what is left of its
buffer and what is left of the stream (`Rio.pending`), and each call takes a first part of that
which does not depend on how the kernel has filled the buffer: `rio_readlineb` a line, `rio_readnb`
a number of bytes. So a program that mixes them gets the stream in order, without a loss or a
repetition (`runCalls_readinitb`). An error stops a call early, and costs at most the bytes that
this call has taken already.

`rio_writen` has written all its bytes when it returns `n`, and else a first part (`writen_spec`).
-/

open ByteStream

namespace Tiny

def RIO_BUFSIZE : ℕ := 8192

/-! ### The buffered readers -/

/-- `rio_t`, with `rio_bufptr` as an index of `rio_buf`. -/
structure Rio where
  fd : Source
  cnt : ℤ
  bufptr : ℕ
  buf : List UInt8

/-- `rio_readinitb`, with whatever is in the buffer. -/
def readinitb (fd : Source) (buf : List UInt8) : Rio := ⟨fd, 0, 0, buf⟩

namespace Rio

/-- `while (rp->rio_cnt <= 0)`, with the value if the function returns in the loop. -/
def fill : ℕ → Rio → Option (Option ℤ × Rio)
  | 0, _ => none
  | fuel + 1, rp =>
    if rp.cnt ≤ 0 then
      match rp.fd.read RIO_BUFSIZE with
      | (.failed errno, fd) =>
        if errno ≠ EINTR then some (some (-1), { rp with fd := fd, cnt := -1 })
        else fill fuel { rp with fd := fd, cnt := -1 }
      | (.got bytes, fd) =>
        if bytes.length = 0 then some (some 0, { rp with fd := fd, cnt := 0 })
        else fill fuel ⟨fd, bytes.length, 0, bytes ++ rp.buf.drop bytes.length⟩
    else some (none, rp)

/-- `memcpy(usrbuf, rp->rio_bufptr, cnt)`, undefined outside the buffer. -/
def copy (rp : Rio) (cnt : ℕ) : Option (List UInt8) :=
  if rp.bufptr + cnt ≤ rp.buf.length then some ((rp.buf.drop rp.bufptr).take cnt) else none

/-- The end of `rio_read`: `cnt = n; if (rp->rio_cnt < n) cnt = rp->rio_cnt;`, and that many bytes
are copied. -/
def deliver (rp : Rio) (n : ℕ) : Option (ℤ × List UInt8 × Rio) :=
  let cnt := if rp.cnt < n then rp.cnt.toNat else n
  (rp.copy cnt).map fun bytes ↦
    (cnt, bytes, { rp with bufptr := rp.bufptr + cnt, cnt := rp.cnt - cnt })

/-- The result of `rio_read`, with the bytes that are stored. Each answer of the kernel is used up
in one turn of the loop, and a last turn follows. -/
def read (rp : Rio) (n : ℕ) : Option (ℤ × List UInt8 × Rio) :=
  (fill (rp.fd.answers.length + 2) rp).bind fun (rc, rp) ↦
    match rc with
    | some rc => some (rc, [], rp)
    | none => rp.deliver n

/-- The loop of `rio_readnb`, with what is stored so far. A turn reads one byte at least. -/
def readnbLoop : ℕ → ℕ → List UInt8 → Rio → Option (ℤ × List UInt8 × Rio)
  | 0, _, _, _ => none
  | fuel + 1, nleft, stored, rp =>
    if nleft = 0 then some (stored.length, stored, rp)
    else (rp.read nleft).bind fun (nread, bytes, rp) ↦
      if nread < 0 then some (-1, stored, rp)
      else if nread = 0 then some (stored.length, stored, rp)
      else readnbLoop fuel (nleft - nread.toNat) (stored ++ bytes) rp

/-- `rio_readnb`, with the bytes that are stored. -/
def readnb (rp : Rio) (n : ℕ) : Option (ℤ × List UInt8 × Rio) := readnbLoop (n + 1) n [] rp

/-- The loop of `rio_readlineb`, with what is stored so far. -/
def readlinebLoop (maxlen : ℕ) : ℕ → ℤ → List UInt8 → Rio → Option (ℤ × List UInt8 × Rio)
  | 0, _, _, _ => none
  | fuel + 1, n, stored, rp =>
    if n < maxlen then
      (rp.read 1).bind fun (rc, bytes, rp) ↦
        if rc = 1 then
          (CInt.fit (n + 1)).bind fun n ↦
            if bytes = [newline] then some (n - 1, stored ++ bytes ++ [0], rp)
            else readlinebLoop maxlen fuel n (stored ++ bytes) rp
        else if rc = 0 then
          if n = 1 then some (0, stored, rp) else some (n - 1, stored ++ [0], rp)
        else some (-1, stored, rp)
    else some (n - 1, stored ++ [0], rp)

/-- `rio_readlineb`, with the bytes that are stored. -/
def readlineb (rp : Rio) (maxlen : ℕ) : Option (ℤ × List UInt8 × Rio) :=
  readlinebLoop maxlen (maxlen + 1) 1 [] rp

/-! ### What is still to be read -/

/-- The unread part of the buffer. -/
def unread (rp : Rio) : List UInt8 := (rp.buf.drop rp.bufptr).take rp.cnt.toNat

/-- What the next calls read. -/
def pending (rp : Rio) : List UInt8 := rp.unread ++ rp.fd.bytes

/-- The unread bytes are in the buffer. -/
structure Inv (rp : Rio) : Prop where
  length : rp.buf.length = RIO_BUFSIZE
  le : rp.bufptr + rp.cnt.toNat ≤ RIO_BUFSIZE

variable {rp rp' : Rio} {n k fuel : ℕ}

theorem unread_of_nonpos (h : rp.cnt ≤ 0) : rp.unread = [] := by
  rw [unread, Int.toNat_of_nonpos h, List.take_zero]

theorem Inv.length_unread (h : rp.Inv) : rp.unread.length = rp.cnt.toNat := by
  have hle := h.le
  rw [unread, List.length_take, List.length_drop, h.length]
  omega

/-- How a call has gone on: what it has taken is not to be read any more, and only answers of the
kernel have been used up. -/
structure Takes (rp : Rio) (bytes : List UInt8) (rp' : Rio) : Prop where
  inv : rp'.Inv
  pending : rp.pending = bytes ++ rp'.pending
  answers : rp'.fd.answers <:+ rp.fd.answers

theorem Inv.takes_nil (h : rp.Inv) : rp.Takes [] rp := ⟨h, rfl, List.suffix_rfl⟩

theorem Takes.trans {bytes bytes' : List UInt8} {rp'' : Rio} (h : rp.Takes bytes rp')
    (h' : rp'.Takes bytes' rp'') : rp.Takes (bytes ++ bytes') rp'' where
  inv := h'.inv
  pending := by rw [h.pending, h'.pending, List.append_assoc]
  answers := h'.answers.trans h.answers

theorem Takes.eq_nil {bytes : List UInt8} (h : rp.Takes bytes rp') (hnil : rp.pending = []) :
    bytes = [] ∧ rp'.pending = [] :=
  List.append_eq_nil_iff.1 (h.pending.symm.trans hnil)

theorem Takes.onlyInterrupted {bytes : List UInt8} (h : rp.Takes bytes rp')
    (hfd : rp.fd.OnlyInterrupted) : rp'.fd.OnlyInterrupted := hfd.of_suffix h.answers

/-- **The refill** stops with bytes in the buffer, at the end of the stream, or at an error. -/
theorem fill_spec (h : rp.Inv) (hfuel : rp.fd.answers.length + 1 < fuel) :
    ∃ rc rp', fill fuel rp = some (rc, rp') ∧ rp.Takes [] rp' ∧
      (rc = none ∧ 0 < rp'.cnt ∨ rc = some 0 ∧ rp'.pending = [] ∨
        rc = some (-1) ∧ ¬ rp.fd.OnlyInterrupted) := by
  induction fuel generalizing rp with
  | zero => exact absurd hfuel (Nat.not_lt_zero _)
  | succ fuel ih =>
    rw [fill]
    split
    next hcnt =>
      have hpending : rp.pending = rp.fd.bytes := by
        rw [pending, unread_of_nonpos hcnt, List.nil_append]
      rcases rp.fd.read_cases (by decide : 0 < RIO_BUFSIZE) with
        ⟨n, answers, hpos, hle, hsuffix, heq⟩ | ⟨errno, answers, hanswers, heq⟩
      · rw [heq]
        dsimp only
        split
        next hzero =>
          have hnil : rp.fd.bytes = [] := by
            rw [List.length_take] at hzero
            exact List.length_eq_zero_iff.1 (by omega)
          have hend : Rio.pending ⟨⟨rp.fd.bytes.drop n, answers⟩, 0, rp.bufptr, rp.buf⟩ = [] := by
            rw [pending, unread_of_nonpos le_rfl, hnil, List.drop_nil, List.append_nil]
          refine ⟨_, _, rfl, ⟨⟨h.length, ?_⟩, ?_, hsuffix⟩, .inr (.inl ⟨rfl, hend⟩)⟩
          · exact (Nat.add_le_add_left (Nat.zero_le _) _).trans h.le
          · exact hpending.trans (hnil.trans hend.symm)
        next hne =>
          -- the next turn finds the bytes in the buffer
          obtain ⟨fuel, rfl⟩ : ∃ m, fuel = m + 1 := ⟨fuel - 1, by omega⟩
          have hlength : (rp.fd.bytes.take n).length ≤ RIO_BUFSIZE :=
            (List.length_take_le _ _).trans hle
          have hcnt' : 0 < ((rp.fd.bytes.take n).length : ℤ) :=
            Int.natCast_pos.2 (Nat.pos_of_ne_zero hne)
          refine ⟨none, _, by rw [fill, if_neg (not_le.2 hcnt')], ⟨⟨?_, ?_⟩, ?_, hsuffix⟩,
            .inl ⟨rfl, hcnt'⟩⟩
          · rw [List.length_append, List.length_drop, h.length]
            omega
          · rw [Int.toNat_natCast, Nat.zero_add]
            exact hlength
          · rw [hpending, pending, unread, Int.toNat_natCast, List.drop_zero, List.take_left,
              List.take_append_drop, List.nil_append]
      · rw [heq]
        dsimp only
        have htakes : rp.Takes [] { rp with fd := ⟨rp.fd.bytes, answers⟩, cnt := -1 } := by
          refine ⟨⟨h.length, (Nat.add_le_add_left (Nat.zero_le _) _).trans h.le⟩, ?_, ?_⟩
          · rw [hpending, pending, unread_of_nonpos (Int.neg_nonpos_of_nonneg Int.one_nonneg)]
            rfl
          · rw [hanswers]
            exact List.suffix_cons _ _
        split
        next hne =>
          refine ⟨_, _, rfl, htakes, .inr (.inr ⟨rfl, fun hint ↦ hne (hint errno ?_)⟩)⟩
          rw [hanswers]
          exact List.mem_cons_self
        next =>
          obtain ⟨rc, rp', hfill, htakes', hrc⟩ := ih htakes.inv (by
            rw [hanswers, List.length_cons] at hfuel
            exact Nat.lt_of_succ_lt_succ hfuel)
          refine ⟨rc, rp', hfill, htakes.trans htakes', ?_⟩
          rcases hrc with hrc | hrc | ⟨hrc, hint⟩
          · exact .inl hrc
          · exact .inr (.inl hrc)
          · exact .inr (.inr ⟨hrc, fun hall ↦ hint (htakes.onlyInterrupted hall)⟩)
    next hcnt => exact ⟨none, rp, rfl, h.takes_nil, .inl ⟨rfl, not_le.1 hcnt⟩⟩

theorem deliver_spec (h : rp.Inv) (hcnt : 0 < rp.cnt) (hn : 0 < n) :
    ∃ bytes rp', rp.deliver n = some (bytes.length, bytes, rp') ∧ rp.Takes bytes rp' ∧
      0 < bytes.length ∧ bytes.length ≤ n := by
  set cnt := if rp.cnt < n then rp.cnt.toNat else n with hdef
  obtain ⟨hpos, hle, hle'⟩ : 0 < cnt ∧ cnt ≤ n ∧ cnt ≤ rp.cnt.toNat := by
    rw [hdef]
    split <;> omega
  have hbuf := h.length
  have hin := h.le
  have hcopy : rp.copy cnt = some (rp.unread.take cnt) := by
    rw [copy, if_pos (by omega), unread, List.take_take, Nat.min_eq_left hle']
  have hlength : (rp.unread.take cnt).length = cnt := by
    rw [List.length_take, h.length_unread, Nat.min_eq_left hle']
  have hunread : unread { rp with bufptr := rp.bufptr + cnt, cnt := rp.cnt - cnt } =
      rp.unread.drop cnt := by
    rw [unread, unread, List.drop_take, List.drop_drop]
    congr 1
    show (rp.cnt - cnt).toNat = _
    omega
  refine ⟨rp.unread.take cnt, { rp with bufptr := rp.bufptr + cnt, cnt := rp.cnt - cnt }, ?_,
    ⟨⟨hbuf, ?_⟩, ?_, List.suffix_rfl⟩, ?_⟩
  · rw [deliver, ← hdef, hcopy, hlength]
    rfl
  · show rp.bufptr + cnt + (rp.cnt - cnt).toNat ≤ RIO_BUFSIZE
    omega
  · rw [pending, pending, hunread, ← List.append_assoc, List.take_append_drop]
  · rw [hlength]
    exact ⟨hpos, hle⟩

/-- **`rio_read`** takes some of the bytes asked for, or there are none, or it fails. -/
theorem read_spec (h : rp.Inv) (hn : 0 < n) :
    ∃ rc bytes rp', rp.read n = some (rc, bytes, rp') ∧ rp.Takes bytes rp' ∧
      (rc = bytes.length ∧ 0 < bytes.length ∧ bytes.length ≤ n ∨
        rc = 0 ∧ bytes = [] ∧ rp'.pending = [] ∨
        rc = -1 ∧ bytes = [] ∧ ¬ rp.fd.OnlyInterrupted) := by
  obtain ⟨rc, rp', hfill, htakes, hrc⟩ := fill_spec h (Nat.lt_succ_self _)
  rcases hrc with ⟨rfl, hcnt⟩ | ⟨rfl, hend⟩ | ⟨rfl, hint⟩
  · obtain ⟨bytes, rp'', hdeliver, htakes', hlength⟩ := deliver_spec htakes.inv hcnt hn
    exact ⟨bytes.length, bytes, rp'', by rw [read, hfill]; exact hdeliver, htakes.trans htakes',
      .inl ⟨rfl, hlength⟩⟩
  · exact ⟨0, [], rp', by rw [read, hfill]; rfl, htakes, .inr (.inl ⟨rfl, rfl, hend⟩)⟩
  · exact ⟨-1, [], rp', by rw [read, hfill]; rfl, htakes, .inr (.inr ⟨rfl, rfl, hint⟩)⟩

/-! ### A call -/

theorem readnbLoop_spec (h : rp.Inv) (hfuel : n < fuel) (stored : List UInt8) :
    ∃ rc bytes rp', readnbLoop fuel n stored rp = some (rc, stored ++ bytes, rp') ∧
      rp.Takes bytes rp' ∧ bytes.length ≤ n ∧
      (rc = (stored ++ bytes).length ∧ (bytes.length = n ∨ rp'.pending = []) ∨
        rc = -1 ∧ ¬ rp.fd.OnlyInterrupted) := by
  induction fuel generalizing n stored rp with
  | zero => exact absurd hfuel (Nat.not_lt_zero _)
  | succ fuel ih =>
    rw [readnbLoop]
    split
    next hzero =>
      refine ⟨stored.length, [], rp, ?_, h.takes_nil, Nat.zero_le _, .inl ⟨?_, .inl hzero.symm⟩⟩
      · rw [List.append_nil]
      · rw [List.append_nil]
    next hne =>
      obtain ⟨rc, bytes, rp', hread, htakes, hrc⟩ := read_spec h (Nat.pos_of_ne_zero hne)
      rw [hread, Option.bind_some]
      rcases hrc with ⟨rfl, hpos, hle⟩ | ⟨rfl, rfl, hend⟩ | ⟨rfl, rfl, hint⟩
      · have hneg : ¬ (bytes.length : ℤ) < 0 := not_lt.2 (Int.natCast_nonneg _)
        have hzero : ¬ (bytes.length : ℤ) = 0 := Int.natCast_ne_zero.2 hpos.ne'
        obtain ⟨rc, bytes', rp'', hloop, htakes', hle', hrc⟩ :=
          ih (n := n - bytes.length) htakes.inv (by omega) (stored ++ bytes)
        refine ⟨rc, bytes ++ bytes', rp'', ?_, htakes.trans htakes', ?_, ?_⟩
        · dsimp only
          rw [if_neg hneg, if_neg hzero, Int.toNat_natCast, hloop, List.append_assoc]
        · rw [List.length_append]
          omega
        · rw [← List.append_assoc]
          rcases hrc with ⟨hrc, hall⟩ | ⟨hrc, hint⟩
          · refine .inl ⟨hrc, hall.imp (fun hall ↦ ?_) id⟩
            rw [List.length_append]
            omega
          · exact .inr ⟨hrc, fun hall ↦ hint (htakes.onlyInterrupted hall)⟩
      · refine ⟨stored.length, [], rp', ?_, htakes, Nat.zero_le _, .inl ⟨?_, .inr hend⟩⟩
        · rw [List.append_nil]
          rfl
        · rw [List.append_nil]
      · refine ⟨-1, [], rp', ?_, htakes, Nat.zero_le _, .inr ⟨rfl, hint⟩⟩
        rw [List.append_nil]
        rfl

/-- The loop of `rio_readlineb` reads the rest of a line. The line starts with what is stored, and
`room` bytes may follow. -/
theorem readlinebLoop_spec {room : ℕ} (h : rp.Inv) (stored : List UInt8)
    (hmax : stored.length + 1 + room < 2 ^ 31) (hfuel : room < fuel) :
    ∃ rc out rp', readlinebLoop (stored.length + 1 + room) fuel (stored.length + 1 : ℕ) stored rp =
        some (rc, out, rp') ∧
      (rp.Takes (takeLine room rp.pending).1 rp' ∧
          rc = stored.length + (takeLine room rp.pending).1.length ∧
          out = (if stored = [] ∧ rp.pending = [] ∧ 0 < room then []
            else stored ++ (takeLine room rp.pending).1 ++ [0]) ∨
        (∃ bytes, rp.Takes bytes rp') ∧ rc = -1 ∧ ¬ rp.fd.OnlyInterrupted) := by
  induction room generalizing fuel stored rp with
  | zero =>
    obtain ⟨fuel, rfl⟩ := Nat.exists_eq_succ_of_ne_zero hfuel.ne'
    rw [readlinebLoop, if_neg (lt_irrefl _)]
    refine ⟨_, _, rp, rfl, .inl ⟨h.takes_nil, ?_, ?_⟩⟩
    · show ((stored.length + 1 : ℕ) : ℤ) - 1 = stored.length + (0 : ℕ)
      push_cast
      ring
    · rw [if_neg fun hnil ↦ lt_irrefl 0 hnil.2.2, takeLine, List.append_nil]
  | succ room ih =>
    obtain ⟨fuel, rfl⟩ := Nat.exists_eq_succ_of_ne_zero (Nat.ne_of_gt (Nat.zero_lt_of_lt hfuel))
    obtain ⟨rc, bytes, rp', hread, htakes, hrc⟩ := read_spec h Nat.one_pos
    rw [readlinebLoop, if_pos (Nat.cast_lt.2 (by omega)), hread, Option.bind_some]
    dsimp only
    rcases hrc with ⟨rfl, hpos, hle⟩ | ⟨rfl, rfl, hend⟩ | ⟨rfl, rfl, hint⟩
    · obtain ⟨b, rfl⟩ := List.length_eq_one_iff.1 (le_antisymm hle hpos)
      have hpending : rp.pending = b :: rp'.pending := htakes.pending
      have hfit : CInt.fit ((stored.length + 1 : ℕ) + 1) = some ((stored.length + 1 + 1 : ℕ) : ℤ) :=
        CInt.fit_eq (by omega)
      rw [if_pos (show (([b] : List UInt8).length : ℤ) = 1 from rfl), hfit, Option.bind_some,
        hpending, takeLine]
      rcases eq_or_ne b newline with heq | hne
      · rw [if_pos (congrArg (fun b ↦ [b]) heq), if_pos heq]
        refine ⟨_, _, rp', rfl, .inl ⟨htakes, ?_, ?_⟩⟩
        · show ((stored.length + 1 + 1 : ℕ) : ℤ) - 1 = stored.length + (1 : ℕ)
          push_cast
          ring
        · rw [if_neg fun hnil ↦ List.cons_ne_nil _ _ hnil.2.1]
      · rw [if_neg (mt List.singleton_inj.1 hne), if_neg hne]
        have hlength : (stored ++ [b]).length = stored.length + 1 := List.length_append
        obtain ⟨rc, out, rp'', hloop, hrc⟩ :=
          ih htakes.inv (stored ++ [b]) (by omega) (Nat.lt_of_succ_lt_succ hfuel)
        rw [hlength, Nat.add_right_comm _ 1 room] at hloop
        refine ⟨rc, out, rp'', hloop, hrc.imp ?_ ?_⟩
        · rintro ⟨htakes', hrc, hout⟩
          refine ⟨htakes.trans htakes', ?_, ?_⟩
          · rw [hrc, hlength, Prod.map_fst, List.length_cons]
            push_cast
            ring
          · rw [hout, if_neg fun hnil ↦ List.append_ne_nil_of_right_ne_nil _
              (List.cons_ne_nil b []) hnil.1, if_neg fun hnil ↦ List.cons_ne_nil _ _ hnil.2.1,
              List.append_assoc stored]
            rfl
        · rintro ⟨⟨bytes, htakes'⟩, hrc, hint⟩
          exact ⟨⟨_, htakes.trans htakes'⟩, hrc, fun hall ↦ hint (htakes.onlyInterrupted hall)⟩
    · have hnil : rp.pending = [] := htakes.pending.trans hend
      rw [if_neg (by decide), if_pos rfl, hnil, takeLine]
      split
      next hone =>
        obtain rfl : stored = [] := List.length_eq_zero_iff.1 (by omega)
        exact ⟨_, _, rp', rfl, .inl ⟨htakes, rfl, (if_pos ⟨rfl, rfl, Nat.succ_pos _⟩).symm⟩⟩
      next hone =>
        refine ⟨_, _, rp', rfl, .inl ⟨htakes, ?_, ?_⟩⟩
        · show ((stored.length + 1 : ℕ) : ℤ) - 1 = stored.length + (0 : ℕ)
          push_cast
          ring
        · rw [if_neg fun hnil ↦ hone (by rw [hnil.1]; rfl), List.append_nil]
    · rw [if_neg (by decide), if_neg (by decide)]
      exact ⟨_, _, rp', rfl, .inr ⟨⟨[], htakes⟩, rfl, hint⟩⟩

end Rio

/-! ### Runs of calls -/

/-- A call of one of the buffered readers. -/
inductive Call where
  | readlineb (maxlen : ℕ)
  | readnb (n : ℕ)

namespace Call

/-- The value that is returned, and the bytes that are stored. -/
def run (rp : Rio) : Call → Option ((ℤ × List UInt8) × Rio)
  | readlineb maxlen => (rp.readlineb maxlen).map fun (rc, bytes, rp) ↦ ((rc, bytes), rp)
  | readnb n => (rp.readnb n).map fun (rc, bytes, rp) ↦ ((rc, bytes), rp)

/-- What the call is to take from the bytes that are to come. -/
def taken (bytes : List UInt8) : Call → List UInt8
  | readlineb maxlen => (takeLine (maxlen - 1) bytes).1
  | readnb n => bytes.take n

/-- **What a call is for**: the value and the stored bytes, from the bytes that are to come. A line
is stored with a zero behind it, but for the end of the stream, where nothing is. -/
def result (bytes : List UInt8) (c : Call) : ℤ × List UInt8 :=
  ((c.taken bytes).length,
    match c with
    | readlineb maxlen =>
      if bytes = [] ∧ 1 < maxlen then [] else c.taken bytes ++ [0]
    | readnb _ => c.taken bytes)

/-- There is room for the zero, and lines are counted by an `int`. -/
def Fits : Call → Prop
  | readlineb maxlen => 0 < maxlen ∧ maxlen < 2 ^ 31
  | readnb _ => True

variable {rp rp' : Rio} {c : Call} {cs : List Call} {bytes : List UInt8}

/-- **One call** does what it is for, or an error stops it. -/
theorem run_spec (h : rp.Inv) (hc : c.Fits) :
    ∃ r rp', c.run rp = some (r, rp') ∧
      (rp.Takes (c.taken rp.pending) rp' ∧ r = c.result rp.pending ∨
        (∃ bytes, rp.Takes bytes rp') ∧ r.1 = -1 ∧ ¬ rp.fd.OnlyInterrupted) := by
  rcases c with maxlen | n
  · obtain ⟨hpos, hlt⟩ := hc
    obtain ⟨room, rfl⟩ := Nat.exists_eq_add_of_le hpos
    have hfuel : room < 1 + room + 1 := by omega
    obtain ⟨rc, out, rp', hloop, hcase⟩ :=
      Rio.readlinebLoop_spec h [] (by simpa using hlt) hfuel
    have hread : rp.readlineb (1 + room) = some (rc, out, rp') := by
      simpa [Rio.readlineb] using hloop
    refine ⟨(rc, out), rp', by rw [run, hread]; rfl, hcase.imp ?_ id⟩
    rintro ⟨htakes, hrc, hout⟩
    have hroom : 1 + room - 1 = room := by omega
    refine ⟨by rw [taken, hroom]; exact htakes, Prod.ext ?_ ?_⟩
    · rw [hrc, result, taken, hroom, List.length_nil]
      exact zero_add _
    · rw [hout, result, taken, hroom]
      exact if_congr (by simp) rfl rfl
  · obtain ⟨rc, stored, rp', hloop, htakes, hle, hcase⟩ :=
      Rio.readnbLoop_spec h (Nat.lt_succ_self n) []
    refine ⟨(rc, stored), rp', by rw [run, Rio.readnb, hloop]; rfl, hcase.imp ?_ ?_⟩
    · rintro ⟨hrc, hall⟩
      -- as many bytes as asked for, or all there are
      have hstored : stored = rp.pending.take n := by
        rw [htakes.pending]
        rcases hall with rfl | hend
        · rw [List.take_left]
        · rw [hend, List.append_nil, List.take_of_length_le hle]
      refine ⟨by rw [taken, ← hstored]; exact htakes, Prod.ext ?_ hstored⟩
      rw [hrc, result, taken, ← hstored]
      rfl
    · rintro ⟨hrc, hint⟩
      exact ⟨⟨stored, htakes⟩, hrc, hint⟩

end Call

/-- The results of several calls. -/
def runCalls : List Call → Rio → Option (List (ℤ × List UInt8) × Rio)
  | [], rp => some ([], rp)
  | c :: cs, rp =>
    (c.run rp).bind fun (r, rp) ↦ (runCalls cs rp).map fun (rs, rp) ↦ (r :: rs, rp)

/-- What several calls are for, and the bytes that are to come behind them. -/
def results : List Call → List UInt8 → List (ℤ × List UInt8) × List UInt8
  | [], bytes => ([], bytes)
  | c :: cs, bytes =>
    (results cs (bytes.drop (c.taken bytes).length)).map (c.result bytes :: ·) id

/-- The results before the first failure. -/
def succeeded (rs : List (ℤ × List UInt8)) : List (ℤ × List UInt8) := rs.takeWhile (0 ≤ ·.1)

variable {rp rp' : Rio} {cs : List Call}

theorem Rio.Takes.pending_eq {bytes : List UInt8} (h : rp.Takes bytes rp') :
    rp'.pending = rp.pending.drop bytes.length := by
  rw [h.pending, List.drop_left]

/-- **A run of calls** is defined and only moves on in the stream. Up to the first error its results
are those that are right, and without an error all of them. -/
theorem runCalls_spec (h : rp.Inv) (hcs : ∀ c ∈ cs, c.Fits) :
    ∃ rs rp', runCalls cs rp = some (rs, rp') ∧ (∃ bytes, rp.Takes bytes rp') ∧
      succeeded rs <+: (results cs rp.pending).1 ∧
      (rp.fd.OnlyInterrupted → (rs, rp'.pending) = results cs rp.pending) := by
  induction cs generalizing rp with
  | nil => exact ⟨[], rp, rfl, ⟨[], h.takes_nil⟩, List.prefix_rfl, fun _ ↦ rfl⟩
  | cons c cs ih =>
    obtain ⟨r, rp', hrun, hcase⟩ := c.run_spec h (hcs c List.mem_cons_self)
    have hinv : rp'.Inv := by
      rcases hcase with ⟨htakes, -⟩ | ⟨⟨bytes, htakes⟩, -⟩
      · exact htakes.inv
      · exact htakes.inv
    obtain ⟨rs, rp'', hrest, ⟨bytes', htakes'⟩, hprefix, hall⟩ :=
      ih hinv fun c hc ↦ hcs c (List.mem_cons_of_mem _ hc)
    have hcons : runCalls (c :: cs) rp = some (r :: rs, rp'') := by
      rw [runCalls, hrun, Option.bind_some]
      dsimp only
      rw [hrest, Option.map_some]
    refine ⟨r :: rs, rp'', hcons, ?_⟩
    rcases hcase with ⟨htakes, rfl⟩ | ⟨⟨bytes, htakes⟩, hrc, hint⟩
    · have hrc : 0 ≤ (c.result rp.pending).1 := Int.natCast_nonneg _
      rw [htakes.pending_eq] at hprefix hall
      refine ⟨⟨_, htakes.trans htakes'⟩, ?_, fun hfd ↦ ?_⟩
      · rw [succeeded, List.takeWhile_cons, if_pos (decide_eq_true hrc)]
        exact List.cons_prefix_cons.2 ⟨rfl, hprefix⟩
      · rw [results, ← hall (htakes.onlyInterrupted hfd)]
        rfl
    · have hneg : ¬ 0 ≤ r.1 := by omega
      refine ⟨⟨_, htakes.trans htakes'⟩, ?_, fun hfd ↦ absurd hfd hint⟩
      rw [succeeded, List.takeWhile_cons, if_neg (mt of_decide_eq_true hneg)]
      exact List.nil_prefix

theorem inv_readinitb (fd : Source) {buf : List UInt8} (hbuf : buf.length = RIO_BUFSIZE) :
    (readinitb fd buf).Inv :=
  ⟨hbuf, by rw [readinitb, Int.toNat_zero]; exact Nat.zero_le _⟩

theorem pending_readinitb (fd : Source) (buf : List UInt8) :
    (readinitb fd buf).pending = fd.bytes := by
  rw [Rio.pending, Rio.unread_of_nonpos le_rfl]
  rfl

/-- **The buffered readers** give a program the bytes of the stream in order, and what a call gives
does not depend on how the kernel delivers them: after `rio_readinitb`, with any mixture of the
calls. Up to the first call that fails the results are those on the bytes alone; if the kernel does
nothing but interrupt, finitely often, none fails. -/
theorem runCalls_readinitb (fd : Source) (buf : List UInt8) (cs : List Call)
    (hbuf : buf.length = RIO_BUFSIZE) (hcs : ∀ c ∈ cs, c.Fits) :
    ∃ rs rp, runCalls cs (readinitb fd buf) = some (rs, rp) ∧ rp.pending <:+ fd.bytes ∧
      succeeded rs <+: (results cs fd.bytes).1 ∧
      (fd.OnlyInterrupted → (rs, rp.pending) = results cs fd.bytes) := by
  obtain ⟨rs, rp, hrun, ⟨bytes, htakes⟩, hprefix, hall⟩ :=
    runCalls_spec (inv_readinitb fd hbuf) hcs
  rw [pending_readinitb] at hprefix hall
  exact ⟨rs, rp, hrun, ⟨bytes, (pending_readinitb fd buf) ▸ htakes.pending.symm⟩, hprefix, hall⟩

/-- A line of two bytes and three bytes behind it, one byte at a time and with an interruption. -/
theorem runCalls_readinitb_byBytes :
    ∃ rs rp, runCalls [.readlineb 100, .readnb 2]
        (readinitb ⟨[71, 10, 1, 2, 3], [.deliver 0, .fail EINTR, .deliver 0]⟩
          (List.replicate RIO_BUFSIZE 0)) = some (rs, rp) ∧
      rp.pending <:+ [71, 10, 1, 2, 3] ∧
      succeeded rs <+: (results [.readlineb 100, .readnb 2] [71, 10, 1, 2, 3]).1 ∧
      (Source.OnlyInterrupted ⟨[71, 10, 1, 2, 3], [.deliver 0, .fail EINTR, .deliver 0]⟩ →
        (rs, rp.pending) = results [.readlineb 100, .readnb 2] [71, 10, 1, 2, 3]) :=
  runCalls_readinitb _ _ _ List.length_replicate (by simp [Call.Fits])

/-! ### Without a buffer -/

/-- The loop of `rio_readn`, with what is stored so far. -/
def readnLoop : ℕ → ℕ → List UInt8 → Source → Option (ℤ × List UInt8 × Source)
  | 0, _, _, _ => none
  | fuel + 1, nleft, stored, fd =>
    if nleft = 0 then some (stored.length, stored, fd)
    else
      match fd.read nleft with
      | (.failed errno, fd) =>
        if errno = EINTR then readnLoop fuel nleft stored fd else some (-1, stored, fd)
      | (.got bytes, fd) =>
        if bytes.length = 0 then some (stored.length, stored, fd)
        else readnLoop fuel (nleft - bytes.length) (stored ++ bytes) fd

/-- `rio_readn`. A turn reads one byte at least, or it uses up an answer of the kernel. -/
def readn (fd : Source) (n : ℕ) : Option (ℤ × List UInt8 × Source) :=
  readnLoop (fd.answers.length + n + 1) n [] fd

theorem readnLoop_spec {fuel : ℕ} (n : ℕ) (fd : Source) (hfuel : fd.answers.length + n < fuel)
    (stored : List UInt8) :
    ∃ rc bytes fd', readnLoop fuel n stored fd = some (rc, stored ++ bytes, fd') ∧
      fd.bytes = bytes ++ fd'.bytes ∧
      (rc = (stored ++ bytes).length ∧ bytes = fd.bytes.take n ∨
        rc = -1 ∧ ¬ fd.OnlyInterrupted) := by
  induction fuel generalizing n stored fd with
  | zero => exact absurd hfuel (Nat.not_lt_zero _)
  | succ fuel ih =>
    rw [readnLoop]
    split
    next hzero =>
      refine ⟨stored.length, [], fd, by rw [List.append_nil], rfl, .inl ⟨?_, ?_⟩⟩
      · rw [List.append_nil]
      · rw [hzero, List.take_zero]
    next hne =>
      rcases fd.read_cases (Nat.pos_of_ne_zero hne) with
        ⟨k, answers, hpos, hle, hsuffix, heq⟩ | ⟨errno, answers, hanswers, heq⟩
      · rw [heq]
        dsimp only
        split
        next hzero =>
          have hnil : fd.bytes = [] := by
            rw [List.length_take] at hzero
            exact List.length_eq_zero_iff.1 (by omega)
          refine ⟨stored.length, [], _, by rw [List.append_nil], ?_, .inl ⟨?_, ?_⟩⟩
          · show fd.bytes = fd.bytes.drop k
            rw [hnil, List.drop_nil]
          · rw [List.append_nil]
          · rw [hnil, List.take_nil]
        next hne =>
          have hlength := hsuffix.length_le
          have hk : (fd.bytes.take k).length ≤ k := List.length_take_le _ _
          obtain ⟨rc, bytes, fd', hloop, hbytes, hrc⟩ :=
            ih (n - (fd.bytes.take k).length) ⟨fd.bytes.drop k, answers⟩ (by
              dsimp only
              omega) (stored ++ fd.bytes.take k)
          refine ⟨rc, fd.bytes.take k ++ bytes, fd', by rw [hloop, List.append_assoc], ?_, ?_⟩
          · rw [List.append_assoc, ← hbytes, List.take_append_drop]
          · rw [← List.append_assoc]
            refine hrc.imp (fun ⟨hrc, hall⟩ ↦ ⟨hrc, ?_⟩) fun ⟨hrc, hint⟩ ↦
              ⟨hrc, fun hfd ↦ hint (hfd.of_suffix hsuffix)⟩
            conv_rhs => rw [← List.take_append_drop k fd.bytes, List.take_append]
            rw [hall, List.take_take, Nat.min_eq_right hle]
      · rw [heq]
        dsimp only
        rw [hanswers, List.length_cons] at hfuel
        split
        next =>
          obtain ⟨rc, bytes, fd', hloop, hbytes, hrc⟩ :=
            ih n ⟨fd.bytes, answers⟩ (by dsimp only; omega) stored
          refine ⟨rc, bytes, fd', hloop, hbytes, hrc.imp id fun ⟨hrc, hint⟩ ↦
            ⟨hrc, fun hfd ↦ hint (hfd.of_suffix ?_)⟩⟩
          rw [hanswers]
          exact List.suffix_cons _ _
        next hint =>
          refine ⟨-1, [], ⟨fd.bytes, answers⟩, by rw [List.append_nil], rfl,
            .inr ⟨rfl, fun hfd ↦ hint ?_⟩⟩
          refine hfd errno ?_
          rw [hanswers]
          exact List.mem_cons_self

/-- **`rio_readn`** reads `n` bytes, or all there are, or an error stops it. -/
theorem readn_spec (fd : Source) (n : ℕ) :
    ∃ rc bytes fd', readn fd n = some (rc, bytes, fd') ∧ fd.bytes = bytes ++ fd'.bytes ∧
      (rc = bytes.length ∧ bytes = fd.bytes.take n ∨ rc = -1 ∧ ¬ fd.OnlyInterrupted) :=
  readnLoop_spec n fd (Nat.lt_succ_self _) []

/-- The loop of `rio_writen`, with the bytes that are left; `n` is what it returns at the end. -/
def writenLoop (n : ℕ) : ℕ → List UInt8 → Sink → Option (ℤ × Sink)
  | 0, _, _ => none
  | fuel + 1, left, fd =>
    if left.length = 0 then some (n, fd)
    else
      let (nwritten, fd) := fd.write left
      if nwritten ≤ 0 then
        if fd.errno = EINTR then writenLoop n fuel left fd else some (-1, fd)
      else writenLoop n fuel (left.drop nwritten.toNat) fd

/-- `rio_writen`. Each turn but the last ones uses up an answer of the kernel. -/
def writen (fd : Sink) (bytes : List UInt8) : Option (ℤ × Sink) :=
  writenLoop bytes.length (fd.answers.length + 2) bytes fd

theorem writenLoop_spec {fuel n : ℕ} (fd : Sink) (left : List UInt8)
    (hfuel : fd.answers.length + 1 < fuel) :
    ∃ rc fd', writenLoop n fuel left fd = some (rc, fd') ∧ fd'.answers <:+ fd.answers ∧
      (rc = n ∧ fd'.written = fd.written ++ left ∨
        rc = -1 ∧ (∃ k < left.length, fd'.written = fd.written ++ left.take k) ∧
          ¬ fd.Patient) := by
  induction fuel generalizing fd left with
  | zero => exact absurd hfuel (Nat.not_lt_zero _)
  | succ fuel ih =>
    rw [writenLoop]
    split
    next hzero =>
      refine ⟨n, fd, rfl, List.suffix_rfl, .inl ⟨rfl, ?_⟩⟩
      rw [List.length_eq_zero_iff.1 hzero, List.append_nil]
    next hne =>
      have hpatient (h : fd.Patient) := h.write_pos (Nat.pos_of_ne_zero hne)
      rcases fd.write_cases left with
        ⟨k, answers, hle, hsuffix, hprogress, heq⟩ | ⟨errno, answers, hanswers, heq⟩
      · rw [heq] at hpatient ⊢
        dsimp only at hpatient ⊢
        split
        next hnonpos =>
          obtain rfl : k = 0 := by omega
          have hlt : answers.length < fd.answers.length :=
            hprogress.resolve_left fun heq ↦ hne heq.symm
          have hwritten : fd.written ++ left.take 0 = fd.written := List.append_nil _
          rw [hwritten]
          split
          next =>
            obtain ⟨rc, fd', hloop, hsuffix', hrc⟩ :=
              ih ⟨fd.written, fd.errno, answers⟩ left (by dsimp only; omega)
            exact ⟨rc, fd', hloop, hsuffix'.trans hsuffix, hrc.imp id fun ⟨hrc, hk, hnot⟩ ↦
              ⟨hrc, hk, fun h ↦ hnot (h.of_suffix hsuffix)⟩⟩
          next hint =>
            refine ⟨-1, _, rfl, hsuffix, .inr ⟨rfl, ⟨0, Nat.pos_of_ne_zero hne, ?_⟩, fun h ↦ ?_⟩⟩
            · rw [List.take_zero, List.append_nil]
            · exact (hpatient h).elim (fun hpos ↦ lt_irrefl _ hpos) hint
        next hpos =>
          rw [Int.toNat_natCast]
          rcases hprogress with rfl | hlt
          · -- nothing is left, and one more turn finds that
            obtain ⟨fuel, rfl⟩ : ∃ m, fuel = m + 1 := ⟨fuel - 1, by omega⟩
            rw [List.drop_length, writenLoop, if_pos List.length_nil]
            exact ⟨n, _, rfl, hsuffix, .inl ⟨rfl, by rw [List.take_length]⟩⟩
          · obtain ⟨rc, fd', hloop, hsuffix', hrc⟩ :=
              ih ⟨fd.written ++ left.take k, fd.errno, answers⟩ (left.drop k)
                (by dsimp only; omega)
            refine ⟨rc, fd', hloop, hsuffix'.trans hsuffix, hrc.imp ?_ ?_⟩
            · rintro ⟨hrc, hwritten⟩
              exact ⟨hrc, by rw [hwritten, List.append_assoc, List.take_append_drop]⟩
            · rintro ⟨hrc, ⟨j, hj, hwritten⟩, hnot⟩
              rw [List.length_drop] at hj
              refine ⟨hrc, ⟨k + j, by omega, ?_⟩, fun h ↦ hnot (h.of_suffix hsuffix)⟩
              rw [hwritten, List.append_assoc, List.take_add]
      · rw [heq] at hpatient ⊢
        dsimp only at hpatient ⊢
        have hsuffix : answers <:+ fd.answers := by
          rw [hanswers]
          exact List.suffix_cons _ _
        rw [hanswers, List.length_cons] at hfuel
        rw [if_pos (by decide)]
        split
        next =>
          obtain ⟨rc, fd', hloop, hsuffix', hrc⟩ :=
            ih ⟨fd.written, errno, answers⟩ left (by dsimp only; omega)
          exact ⟨rc, fd', hloop, hsuffix'.trans hsuffix, hrc.imp id fun ⟨hrc, hk, hnot⟩ ↦
            ⟨hrc, hk, fun h ↦ hnot (h.of_suffix hsuffix)⟩⟩
        next hint =>
          refine ⟨-1, _, rfl, hsuffix, .inr ⟨rfl, ⟨0, Nat.pos_of_ne_zero hne, ?_⟩, fun h ↦ ?_⟩⟩
          · rw [List.take_zero, List.append_nil]
          · exact (hpatient h).elim (fun hpos ↦ absurd hpos (by decide)) hint

/-- **`rio_writen`** has written all the bytes in order when it returns their number, and whatever
the kernel does, with finitely many interruptions, the only other end is an error behind a first
part of them. A kernel that takes something or interrupts does not lead there. -/
theorem writen_spec (fd : Sink) (bytes : List UInt8) :
    ∃ rc fd', writen fd bytes = some (rc, fd') ∧ fd'.answers <:+ fd.answers ∧
      (rc = bytes.length ∧ fd'.written = fd.written ++ bytes ∨
        rc = -1 ∧ (∃ k < bytes.length, fd'.written = fd.written ++ bytes.take k) ∧
          ¬ fd.Patient) :=
  writenLoop_spec fd bytes (Nat.lt_succ_self _)

end Tiny
