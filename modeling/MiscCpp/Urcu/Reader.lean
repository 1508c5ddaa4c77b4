import Mathlib.Algebra.Group.Nat.Defs
import Mathlib.Data.Nat.Notation
import Mathlib.Tactic.Common
import MiscCpp.Library.Machine

/-!
# Read-side critical sections

`rcu_read_lock`, `rcu_read_unlock` and `reader_state`. The word `ctr` of a reader packs its nesting
depth, in the low 32 bits, and a phase bit; `gp.ctr` is such a word of depth one, and a writer flips
its phase bit. The outermost `rcu_read_lock` loads `gp.ctr` and stores it as the reader's word;
between the two the phase may flip.

`nestsRight` says that the depth and the phase do not mix: the low bits are the depth, the phase bit
is the one that the outermost lock read, and so `reader_state` tells whether the reader is in a
critical section, and whether the phase has flipped an odd number of times since it began.

The barriers are left out: the steps of all threads are taken one after another.
-/

namespace Urcu

def RCU_GP_CTR_PHASE : BitVec 64 := 1#64 <<< 32
def RCU_GP_CTR_NEST_MASK : BitVec 64 := RCU_GP_CTR_PHASE - 1

/-- What `rcu_reader_state` tells of a reader. -/
inductive RcuReaderState where
  | activeCurrent
  | activeOld
  | inactive
  deriving DecidableEq, Repr

/-- `reader_state`, of a reader whose word is `v`. -/
def readerState (gpCtr v : BitVec 64) : RcuReaderState :=
  if v &&& RCU_GP_CTR_NEST_MASK = 0 then .inactive
  else if (v ^^^ gpCtr) &&& RCU_GP_CTR_PHASE = 0 then .activeCurrent
  else .activeOld

/-- `rcu_reader`, with the value that an `rcu_read_lock` has loaded from `gp.ctr` and not stored
yet. -/
structure RcuReader where
  ctr : BitVec 64
  loaded : Option (BitVec 64)
  deriving DecidableEq

/-- The steps of a reader, with the two accesses of `rcu_read_lock` apart. -/
inductive ReaderAction where
  | lock
  | store
  | unlock
  deriving DecidableEq

namespace RcuReader

/-- `rcu_read_ongoing`. -/
def rcuReadOngoing (r : RcuReader) : BitVec 64 := r.ctr &&& RCU_GP_CTR_NEST_MASK

/-- `rcu_read_lock` up to its store, or as a whole if it is a nested one. -/
def rcuReadLock (gpCtr : BitVec 64) (r : RcuReader) : RcuReader :=
  if r.ctr &&& RCU_GP_CTR_NEST_MASK = 0 then { r with loaded := some gpCtr }
  else { r with ctr := r.ctr + 1 }

/-- `rcu_read_unlock`. Both branches store the same. -/
def rcuReadUnlock (r : RcuReader) : RcuReader :=
  if r.ctr &&& RCU_GP_CTR_NEST_MASK = 1 then { r with ctr := r.ctr - 1 }
  else { r with ctr := r.ctr - 1 }

/-- A step of the reader's thread. In the middle of `rcu_read_lock` it can only go on with that. -/
def step (gpCtr : BitVec 64) (r : RcuReader) : ReaderAction → Option RcuReader
  | .lock => if r.loaded.isSome then none else some (r.rcuReadLock gpCtr)
  | .store => r.loaded.map fun v ↦ { ctr := v, loaded := none }
  | .unlock => if r.loaded.isSome then none else some r.rcuReadUnlock

end RcuReader

/-! ### A reader and the writers -/

/-- A reader and `gp.ctr`, with a history: the nesting depth, the phase that the outermost
`rcu_read_lock` read, and how often the phase has flipped since. -/
structure ReadSide where
  reader : RcuReader
  gpCtr : BitVec 64
  depth : ℕ
  lockPhase : BitVec 64
  flips : ℕ

/-- A step of the reader, or a change of the phase by the writer. -/
inductive ReadSideAction where
  | reader (a : ReaderAction)
  | flip

namespace ReadSide

/-- What the history says after a step of the reader. -/
def record (s : ReadSide) : ReaderAction → ReadSide
  | .lock =>
    if s.depth = 0 then { s with lockPhase := s.gpCtr &&& RCU_GP_CTR_PHASE, flips := 0 }
    else { s with depth := s.depth + 1 }
  | .store => { s with depth := 1 }
  | .unlock => { s with depth := s.depth - 1 }

def step (s : ReadSide) : ReadSideAction → Option ReadSide
  | .reader a => (s.reader.step s.gpCtr a).map fun r ↦ { s.record a with reader := r }
  | .flip => some { s with gpCtr := s.gpCtr ^^^ RCU_GP_CTR_PHASE, flips := s.flips + 1 }

/-- A new reader, and the initial `gp`. -/
def initial : ReadSide where
  reader := ⟨0, none⟩
  gpCtr := 1
  depth := 0
  lockPhase := 0
  flips := 0

/-- The calls are properly nested, with depth below `2 ^ 32`. -/
def Nested (s : ReadSide) : ReadSideAction → Prop
  | .reader .lock => s.depth + 1 < 2 ^ 32
  | .reader .unlock => 0 < s.depth
  | .reader .store | .flip => True

end ReadSide

instance (s : ReadSide) (a : ReadSideAction) : Decidable (s.Nested a) :=
  match a with
  | .reader .lock => inferInstanceAs (Decidable (_ < _))
  | .reader .unlock => inferInstanceAs (Decidable (_ < _))
  | .reader .store | .flip => isTrue trivial

/-- The depth and the phase of the reader's word are right, and `reader_state` tells them. -/
structure NestsRight (s : ReadSide) : Prop where
  nesting : s.reader.rcuReadOngoing.toNat = s.depth
  phase : 0 < s.depth → s.reader.ctr &&& RCU_GP_CTR_PHASE = s.lockPhase
  gp : s.gpCtr &&& RCU_GP_CTR_NEST_MASK = 1
  inactive : readerState s.gpCtr s.reader.ctr = .inactive ↔ s.depth = 0
  old : readerState s.gpCtr s.reader.ctr = .activeOld ↔ 0 < s.depth ∧ s.flips % 2 = 1

/-! ### Words of a depth and a phase -/

/-- The word of the depth `n` and a phase. -/
def word (phase : Bool) (n : ℕ) : BitVec 64 := BitVec.ofNat 64 (n + if phase then 2 ^ 32 else 0)

section Word

variable {p q : Bool} {n : ℕ}

theorem toNat_word (hn : n < 2 ^ 32) : (word p n).toNat = n + if p then 2 ^ 32 else 0 := by
  rw [word, BitVec.toNat_ofNat]
  exact Nat.mod_eq_of_lt (by split <;> omega)

theorem word_nest (hn : n < 2 ^ 32) : (word p n &&& RCU_GP_CTR_NEST_MASK).toNat = n := by
  have hmask : RCU_GP_CTR_NEST_MASK.toNat = 2 ^ 32 - 1 := by decide
  rw [BitVec.toNat_and, hmask, Nat.and_two_pow_sub_one_eq_mod, toNat_word hn]
  split <;> omega

theorem word_phase (hn : n < 2 ^ 32) : word p n &&& RCU_GP_CTR_PHASE = word p 0 := by
  have hpow : RCU_GP_CTR_PHASE = BitVec.twoPow 64 32 := by decide
  have hbit : (word p n).getLsbD 32 = p := by
    rw [BitVec.getLsbD, toNat_word hn, Nat.testBit_eq_decide_div_mod_eq]
    cases p <;> simp <;> omega
  rw [hpow, BitVec.and_twoPow, hbit]
  cases p <;> decide

theorem word_add_one (hn : n + 1 < 2 ^ 32) : word p n + 1 = word p (n + 1) := by
  refine BitVec.eq_of_toNat_eq ?_
  rw [BitVec.toNat_add, toNat_word (by omega), toNat_word hn]
  show (_ + 1) % _ = _
  split <;> omega

theorem word_sub_one (hn : n + 1 < 2 ^ 32) : word p (n + 1) - 1 = word p n := by
  rw [← word_add_one hn, BitVec.add_sub_cancel]

theorem word_flip : word q 1 ^^^ RCU_GP_CTR_PHASE = word (!q) 1 := by
  cases q <;> decide

theorem readerState_word (hn : n < 2 ^ 32) : readerState (word q 1) (word p n) =
    if n = 0 then .inactive else if p = q then .activeCurrent else .activeOld := by
  have hnest : word p n &&& RCU_GP_CTR_NEST_MASK = 0 ↔ n = 0 := by
    rw [← BitVec.toNat_inj, word_nest hn]
    rfl
  have hdistrib : (word p n ^^^ word q 1) &&& RCU_GP_CTR_PHASE =
      (word p n &&& RCU_GP_CTR_PHASE) ^^^ (word q 1 &&& RCU_GP_CTR_PHASE) := by
    refine BitVec.eq_of_getLsbD_eq fun i _ ↦ ?_
    simp only [BitVec.getLsbD_and, BitVec.getLsbD_xor, Bool.and_xor_distrib_right]
  have hphase : (word p n ^^^ word q 1) &&& RCU_GP_CTR_PHASE = 0 ↔ p = q := by
    rw [hdistrib, word_phase hn, word_phase (by omega)]
    cases p <;> cases q <;> decide
  simp only [readerState, hnest, hphase]

end Word

/-! ### The invariant -/

/-- The reader's word has the depth, `gp.ctr` has depth one; in a critical section, and while a lock
has loaded the phase, the phases differ exactly if the number of flips is odd. -/
structure Packed (s : ReadSide) (p q l : Bool) : Prop where
  depth_lt : s.depth < 2 ^ 32
  ctr : s.reader.ctr = word p s.depth
  gp : s.gpCtr = word q 1
  idle : s.reader.loaded.isSome → s.depth = 0 ∧ s.reader.loaded = some (word l 1)
  held : 0 < s.depth → p = l
  lockPhase : 0 < s.depth ∨ s.reader.loaded.isSome →
    s.lockPhase = word l 0 ∧ (l = q ↔ s.flips % 2 = 0)

variable {s s' : ReadSide} {p q l : Bool}

theorem packed_initial : Packed .initial false false false where
  depth_lt := by decide
  ctr := by decide
  gp := by decide
  idle h := by cases h
  held h := absurd h (Nat.lt_irrefl 0)
  lockPhase h := h.elim (fun h ↦ absurd h (Nat.lt_irrefl 0)) fun h ↦ by cases h

theorem Packed.toNestsRight (h : Packed s p q l) : NestsRight s := by
  have hstate := readerState_word (p := p) (q := q) h.depth_lt
  rw [← h.ctr, ← h.gp] at hstate
  refine ⟨?_, fun hpos ↦ ?_, ?_, ?_, ?_⟩
  · rw [RcuReader.rcuReadOngoing, h.ctr, word_nest h.depth_lt]
  · rw [h.ctr, word_phase h.depth_lt, h.held hpos, (h.lockPhase (.inl hpos)).1]
  · rw [h.gp]
    cases q <;> decide
  · rw [hstate]
    split
    next hzero => simp [hzero]
    next hpos => exact iff_of_false (by split <;> simp) hpos
  · rw [hstate]
    rcases Nat.eq_zero_or_pos s.depth with hzero | hpos
    · simp [hzero]
    · obtain rfl := h.held hpos
      have hflips := (h.lockPhase (.inl hpos)).2
      rw [if_neg (by omega), and_iff_right hpos]
      split
      next heq => exact iff_of_false (by simp) (by have := hflips.1 heq; omega)
      next hne => exact iff_of_true rfl (by have := mt hflips.2 hne; omega)

/-- **A step** keeps the words packed. -/
theorem Packed.step (h : Packed s p q l) {a : ReadSideAction} (ha : s.Nested a)
    (hs : s.step a = some s') : ∃ p' q' l', Packed s' p' q' l' := by
  have hnest : s.reader.ctr &&& RCU_GP_CTR_NEST_MASK = 0 ↔ s.depth = 0 := by
    rw [← BitVec.toNat_inj, h.ctr, word_nest h.depth_lt]
    rfl
  cases a with
  | flip =>
    obtain rfl := Option.some.inj hs
    refine ⟨p, !q, l, h.depth_lt, h.ctr, ?_, h.idle, h.held, fun hact ↦ ⟨(h.lockPhase hact).1, ?_⟩⟩
    · show s.gpCtr ^^^ RCU_GP_CTR_PHASE = _
      rw [h.gp, word_flip]
    · have hflips := (h.lockPhase hact).2
      show l = !q ↔ (s.flips + 1) % 2 = 0
      have hnot : (l = !q) ↔ ¬ l = q := by cases l <;> cases q <;> decide
      rw [hnot, hflips]
      omega
  | reader a =>
    obtain ⟨r, hr, rfl⟩ := Option.map_eq_some_iff.1 hs
    cases a with
    | lock =>
      obtain ⟨hidle, hr⟩ := Option.ite_none_left_eq_some.1 hr
      obtain rfl := Option.some.inj hr
      rcases Nat.eq_zero_or_pos s.depth with hzero | hpos
      · -- the outermost lock loads `gp.ctr`
        refine ⟨p, q, q, ?_⟩
        rw [ReadSide.record, if_pos hzero, RcuReader.rcuReadLock, if_pos (hnest.2 hzero)]
        refine ⟨h.depth_lt, h.ctr, h.gp, fun _ ↦ ⟨hzero, congrArg some h.gp⟩, fun hpos ↦ ?_,
          fun _ ↦ ?_⟩
        · exact absurd hzero (Nat.pos_iff_ne_zero.1 hpos)
        · refine ⟨?_, iff_of_true rfl rfl⟩
          show s.gpCtr &&& RCU_GP_CTR_PHASE = _
          rw [h.gp, word_phase (by omega)]
      · refine ⟨p, q, l, ?_⟩
        rw [ReadSide.record, if_neg (by omega), RcuReader.rcuReadLock,
          if_neg fun hz ↦ absurd (hnest.1 hz) (by omega)]
        have hlt : s.depth + 1 < 2 ^ 32 := ha
        refine ⟨hlt, ?_, h.gp, fun hsome ↦ absurd hsome hidle, fun _ ↦ h.held hpos, fun _ ↦ ?_⟩
        · show s.reader.ctr + 1 = _
          rw [h.ctr, word_add_one hlt]
        · exact h.lockPhase (.inl hpos)
    | store =>
      obtain ⟨v, hv, rfl⟩ := Option.map_eq_some_iff.1 hr
      have hsome : s.reader.loaded.isSome := by rw [hv]; rfl
      obtain ⟨-, hloaded⟩ := h.idle hsome
      have hone : 1 < 2 ^ 32 := by omega
      refine ⟨l, q, l, hone, ?_, h.gp, fun hno ↦ absurd hno Bool.false_ne_true, fun _ ↦ rfl,
        fun _ ↦ h.lockPhase (.inr hsome)⟩
      exact Option.some.inj (hv.symm.trans hloaded)
    | unlock =>
      obtain ⟨hidle, hr⟩ := Option.ite_none_left_eq_some.1 hr
      obtain rfl := Option.some.inj hr
      have hpos : 0 < s.depth := ha
      have hlt := h.depth_lt
      have hunlock : s.reader.rcuReadUnlock = { s.reader with ctr := s.reader.ctr - 1 } := by
        rw [RcuReader.rcuReadUnlock, ite_self]
      obtain ⟨n, hn⟩ : ∃ n, s.depth = n + 1 := ⟨s.depth - 1, by omega⟩
      refine ⟨p, q, l, ?_⟩
      rw [hunlock, ReadSide.record]
      refine ⟨by show s.depth - 1 < _; omega, ?_, h.gp, fun hsome ↦ absurd hsome hidle,
        fun _ ↦ h.held hpos, fun _ ↦ h.lockPhase (.inl hpos)⟩
      show s.reader.ctr - 1 = word p (s.depth - 1)
      rw [h.ctr, hn, Nat.add_sub_cancel, word_sub_one (by omega)]

/-- **The depth and the phase of a reader do not mix**, in every run of properly nested locks and
unlocks with flips at any time. -/
theorem nestsRight {acts : List ReadSideAction}
    (hnested : Machine.Always ReadSide.step ReadSide.Nested .initial acts)
    (h : Machine.exec ReadSide.step .initial acts = some s) : NestsRight s := by
  obtain ⟨p, q, l, hpacked⟩ := Machine.exec_invariant (I := fun s ↦ ∃ p q l, Packed s p q l)
    (fun s a s' ⟨_, _, _, hs⟩ ha hstep ↦ hs.step ha hstep) ⟨_, _, _, packed_initial⟩ hnested h
  exact hpacked.toNestsRight

/-- Two nested locks, with flips before, between and after the load and the store of the outer one.
-/
theorem nestsRight_flipsBetween : ∃ s,
    Machine.exec ReadSide.step .initial [.flip, .reader .lock, .flip, .reader .store, .reader .lock,
      .reader .unlock] = some s ∧ s.depth = 1 ∧ s.flips = 1 ∧ NestsRight s := by
  have hdef : (Machine.exec ReadSide.step .initial [.flip, .reader .lock, .flip, .reader .store,
      .reader .lock, .reader .unlock]).map (fun s ↦ (s.depth, s.flips)) = some (1, 1) := by
    decide +kernel
  obtain ⟨s, hs, hhist⟩ := Option.map_eq_some_iff.1 hdef
  exact ⟨s, hs, congrArg Prod.fst hhist, congrArg Prod.snd hhist,
    nestsRight (by decide +kernel) hs⟩

end Urcu
