import MiscCpp.Coroutine.TimingWheel
import MiscCpp.Library.CInt

/-!
# Rotating the wheel

The arithmetic of `TimeoutLinkAllTake` and `TimerItemAdd` on every wheel that the types of its
fields allow: `slot_size` is an `int`, `start` an `unsigned long long` and `start_idx` a
`long long`.

The number of turns is the difference of two times, cut to an `int` before it is compared with
`slot_size`. `turns_eq_min_iff` says for which differences this is the number it should be;
`rotatesRight_iff` adds the one other thing that can go wrong, a `start_idx` at the end of its
range.
-/

open Function

namespace CoRoutine

/-- A wheel that has started, with fields in the range of their types. -/
structure StartedWheel extends TimingWheel where
  size_pos : 0 < slotSize
  size_lt : slotSize < 2 ^ 31
  start_pos : 0 < start
  start_lt : start < 2 ^ 64
  idx_nonneg : 0 ≤ startIdx
  idx_lt : startIdx < 2 ^ 63

namespace StartedWheel

variable (w : StartedWheel) (now : ℕ)

/-- The number of the slots that are to be taken. -/
def dueCount : ℕ := min (now - w.start + 1) w.slotSize

/-- The first slots, counted from `start_idx`. -/
def dueSlots : List ℕ :=
  (List.range (w.dueCount now)).map fun i ↦ (w.startIdx.toNat + i) % w.slotSize

/-- The sums that are computed in a `long long`, and `cnt - 1` in an `int`, stay in range. -/
structure SumsFit : Prop where
  turn (i : ℕ) (hi : i < w.turns now) : w.startIdx + i < 2 ^ 63
  count : -2 ^ 31 ≤ w.turns now - 1
  last : w.startIdx + (w.turns now - 1) < 2 ^ 63

/-- The wheel afterwards: each slot index that `TimerItemAdd` computes is one of a slot, and
`start_idx` has moved as far as the time, if that is less than a round. -/
structure MovedRight (w' : TimingWheel) : Prop where
  slot_lt (diff : ℕ) : w'.slotOf diff < w.slotSize
  idx_nonneg (h : now - w.start < w.slotSize) : 0 ≤ w'.startIdx
  idx_mod (h : now - w.start < w.slotSize) :
    w'.startIdx % w.slotSize = (w.startIdx + (now - w.start)) % w.slotSize

/-- A call of `TimeoutLinkAllTake` at `now`, on whatever lists the wheel has. -/
structure RotatesRight : Prop where
  sums : SumsFit w now
  slot_lt (i : ℕ) (hi : i < w.turns now) : ∃ idx, w.slotIdx i = some idx ∧ idx < w.slotSize
  takes (ep : CoEpoll) (A : TimeoutLink → List ItemId) (L : Listed ep A)
    (htimer : ep.timer = w.toTimingWheel) :
    ∃ ep' A', ep.timeoutLinkAllTake now = some ep' ∧ Listed ep' A' ∧
      (∀ i x, x ∈ A' (.slot i) ↔ x ∈ A (.slot i) ∧ i ∉ w.dueSlots now) ∧
      MovedRight w now ep'.timer

/-- The number of turns survives the conversion to `int`, or what is left is a whole round all the
same, and `start_idx` is not too close to the end of its range. -/
def RotationFits : Prop :=
  (now - w.start + 1 < 2 ^ 31 ∨
    (w.slotSize : ℤ) ≤ ((now - w.start + 1 : ℕ) : ℤ).bmod (2 ^ 32)) ∧
    w.startIdx + w.dueCount now ≤ 2 ^ 63

variable {w : StartedWheel} {now : ℕ}

theorem started_eq : w.started now = w.toTimingWheel := if_neg (Nat.ne_of_gt w.start_pos)

theorem dueCount_pos : 0 < w.dueCount now := Nat.lt_min.2 ⟨Nat.succ_pos _, w.size_pos⟩

theorem dueCount_of_lt (h : now - w.start < w.slotSize) : w.dueCount now = now - w.start + 1 :=
  Nat.min_eq_left h

theorem turns_le : w.turns now ≤ w.slotSize := by
  rw [TimingWheel.turns]
  split <;> omega

theorem turns_eq_iff (hnow : w.start ≤ now) :
    w.turns now = w.dueCount now ↔ now - w.start + 1 < 2 ^ 31 ∨
      (w.slotSize : ℤ) ≤ ((now - w.start + 1 : ℕ) : ℤ).bmod (2 ^ 32) := by
  have hcast : (now : ℤ) - w.start + 1 = (now - w.start + 1 : ℕ) := by omega
  have hsize := w.size_lt
  -- of the number of turns only the lowest 32 bits are kept
  obtain ⟨hle, hlt⟩ := CInt.bmod_bounds (now - w.start + 1 : ℕ)
  have hmod := CInt.bmod_mod (now - w.start + 1 : ℕ)
  rw [TimingWheel.turns, hcast, dueCount]
  generalize ((now - w.start + 1 : ℕ) : ℤ).bmod (2 ^ 32) = b at hle hlt hmod ⊢
  rcases Nat.le_total (now - w.start + 1) w.slotSize with h | h
  · rw [Nat.min_eq_left h]
    split <;> omega
  · rw [Nat.min_eq_right h]
    split <;> omega

theorem mapM_slotIdx {k : ℕ} (hk : w.startIdx = k) (n : ℕ) :
    (List.range n).mapM w.slotIdx =
      some ((List.range n).map fun i ↦ (k + i) % w.slotSize) := by
  have hfun : w.slotIdx = fun i ↦ pure ((k + i) % w.slotSize) := funext (slotIdx_eq hk)
  rw [hfun, List.mapM_pure]
  rfl

theorem timeoutLinkAllTake_eq (hnow : w.start ≤ now) {ep : CoEpoll}
    (htimer : ep.timer = w.toTimingWheel) :
    ∃ ep', ep.timeoutLinkAllTake now = some ep' := by
  have hk : w.startIdx = (w.startIdx.toNat : ℕ) := (Int.toNat_of_nonneg w.idx_nonneg).symm
  simp only [CoEpoll.timeoutLinkAllTake, htimer, started_eq, if_neg (Nat.not_lt.2 hnow),
    mapM_slotIdx hk]
  exact ⟨_, rfl⟩

/-- What `Takes` says of a wheel that has started. -/
theorem takes_eq (hnow : w.start ≤ now) {slots : List ℕ} {w' : TimingWheel}
    (T : Takes w.toTimingWheel now slots w') :
    slots = (List.range (w.turns now).toNat).map
        (fun i ↦ (w.startIdx.toNat + i) % w.slotSize) ∧
      w' = { w.toTimingWheel with
        start := now, startIdx := w.startIdx + (w.turns now - 1) } := by
  have hk : w.startIdx = (w.startIdx.toNat : ℕ) := (Int.toNat_of_nonneg w.idx_nonneg).symm
  cases T with
  | early h =>
    rw [started_eq] at h
    exact absurd hnow (Nat.not_le.2 h)
  | turn h hslots =>
    rw [started_eq, mapM_slotIdx hk] at hslots
    exact ⟨(Option.some.inj hslots).symm, by rw [started_eq]⟩

/-- The slot `n` turns from `start_idx` is among the first `m` if `n` is one of these turns. -/
theorem slot_mem_iff {m n : ℕ} (hm : m ≤ w.slotSize) (hn : n < w.slotSize) (k : ℕ) :
    (k + n) % w.slotSize ∈ (List.range m).map (fun i ↦ (k + i) % w.slotSize) ↔ n < m := by
  simp only [List.mem_map, List.mem_range]
  constructor
  · rintro ⟨i, hi, h⟩
    have hle : (k + n - (k + i)) % w.slotSize = 0 := Nat.sub_mod_eq_zero_of_mod_eq h.symm
    have hge : (k + i - (k + n)) % w.slotSize = 0 := Nat.sub_mod_eq_zero_of_mod_eq h
    rw [Nat.mod_eq_of_lt (by omega)] at hle hge
    omega
  · exact fun h ↦ ⟨n, h, rfl⟩

/-- A wheel with one item, in the slot `i`. -/
def oneItem (w : StartedWheel) (i : ℕ) : CoEpoll where
  links := Links.empty.tailAdd (.slot i) 0
  timer := w.toTimingWheel
  items _ := { expireTime := 0, args := 0, isTimeout := false }
  nextItem := 1

theorem listed_oneItem (i : ℕ) :
    Listed (oneItem w i) (update (fun _ ↦ []) (.slot i) [0]) where
  represents := Links.represents_empty.tailAdd (x := 0) rfl (TimeoutLink.slot i)
  lt_next l x hx := by
    rcases eq_or_ne l (.slot i) with rfl | hl
    · simp_all [oneItem]
    · simp [hl] at hx

/-- **Which slots are emptied.** They are the first ones exactly if there are so many turns. -/
theorem RotatesRight.turns_eq (hnow : w.start ≤ now)
    (h : RotatesRight w now) : w.turns now = w.dueCount now := by
  have hsame (i : ℕ) : i ∈ (List.range (w.turns now).toNat).map
      (fun i ↦ (w.startIdx.toNat + i) % w.slotSize) ↔ i ∈ w.dueSlots now := by
    obtain ⟨ep', A', hep', L', hslots, -⟩ := h.takes (oneItem w i) _ (listed_oneItem i) rfl
    obtain ⟨A'', slots, L'', T, -, -, -, hslots', -⟩ :=
      timeoutLinkAllTake_spec (listed_oneItem i) hep'
    have hmem : (0 : ItemId) ∈ A' (.slot i) ↔ 0 ∈ A'' (.slot i) :=
      (L'.represents.link_iff 0 _).symm.trans (L''.represents.link_iff 0 _)
    rw [hslots, hslots', (takes_eq hnow T).1, update_self] at hmem
    have hnot := hmem.symm
    simp only [List.mem_singleton, true_and] at hnot
    exact not_iff_not.1 hnot
  have hturns : (w.turns now).toNat ≤ w.slotSize := Int.toNat_le.2 turns_le
  have hdue : w.dueCount now ≤ w.slotSize := Nat.min_le_right _ _
  have hpos : 0 < w.dueCount now := dueCount_pos
  by_contra hne
  -- the first slot that is in one of the two ranges only
  have hn : min (w.turns now).toNat (w.dueCount now) < w.slotSize := by omega
  have hiff := hsame ((w.startIdx.toNat + min (w.turns now).toNat (w.dueCount now)) % w.slotSize)
  rw [dueSlots, slot_mem_iff hturns hn, slot_mem_iff hdue hn] at hiff
  omega

theorem RotatesRight.fits (hnow : w.start ≤ now) (h : RotatesRight w now) :
    RotationFits w now := by
  have hturns := h.turns_eq hnow
  refine ⟨(turns_eq_iff hnow).1 hturns, ?_⟩
  have hlast := h.sums.last
  rw [hturns] at hlast
  omega

/-- **`TimeoutLinkAllTake` and the wheel.** It is right exactly if the number of its turns survives
the conversion to `int` and `start_idx` does not run out of its range. -/
theorem rotatesRight_iff (w : StartedWheel) {now : ℕ} (hnow : w.start ≤ now) :
    RotatesRight w now ↔ RotationFits w now := by
  constructor
  · exact fun h ↦ h.fits hnow
  · rintro ⟨hcount, hidx⟩
    have hturns := (turns_eq_iff hnow).2 hcount
    have hpos : 0 < w.dueCount now := dueCount_pos
    have hk : w.startIdx = (w.startIdx.toNat : ℕ) := (Int.toNat_of_nonneg w.idx_nonneg).symm
    have hidx_nonneg := w.idx_nonneg
    refine ⟨⟨fun i hi ↦ by omega, by omega, by omega⟩,
      fun i _ ↦ ⟨_, slotIdx_eq hk i, Nat.mod_lt _ w.size_pos⟩, fun ep A L htimer ↦ ?_⟩
    obtain ⟨ep', hep'⟩ := timeoutLinkAllTake_eq hnow htimer
    obtain ⟨A', slots, L', T, -, -, -, hslots, -⟩ := timeoutLinkAllTake_spec L hep'
    rw [htimer] at T
    obtain ⟨hslots_eq, htimer'⟩ := takes_eq hnow T
    rw [hslots_eq, hturns] at hslots
    refine ⟨ep', A', hep', L', hslots, ?_⟩
    rw [htimer', hturns]
    refine ⟨fun diff ↦ Nat.mod_lt _ w.size_pos, fun _ ↦ ?_, fun hsmall ↦ ?_⟩
    · show 0 ≤ w.startIdx + ((w.dueCount now : ℤ) - 1)
      omega
    · have hmoved : (w.dueCount now : ℤ) - 1 = now - w.start := by
        rw [dueCount_of_lt hsmall]
        omega
      show (w.startIdx + ((w.dueCount now : ℤ) - 1)) % w.slotSize = _
      rw [hmoved]

/-- The wheel of `CoEpollAlloc`, which has 60000 slots. -/
def wheelOf (start : ℕ) (hpos : 0 < start) (hlt : start < 2 ^ 64) : StartedWheel where
  slotSize := 60000
  start := start
  startIdx := 0
  size_pos := by decide
  size_lt := by decide
  start_pos := hpos
  start_lt := hlt
  idx_nonneg := le_rfl
  idx_lt := by decide

/-- A wheel that was made when the clock stood at one second, before it was set. -/
def earlyWheel : StartedWheel := wheelOf 1000 (by decide) (by decide)

theorem rotatesRight_earlyWheel : RotatesRight earlyWheel 61000 :=
  (rotatesRight_iff earlyWheel (by decide)).2 ⟨.inl (by decide), by decide⟩

/-- The clock is set on by `2 ^ 31` milliseconds: no slot is taken. -/
theorem not_forall_rotatesRight :
    ¬ ∀ (w : StartedWheel) (now : ℕ), w.start ≤ now → now < 2 ^ 64 → RotatesRight w now := by
  intro h
  have hnow : earlyWheel.start ≤ 2 ^ 31 + 999 := by decide
  obtain ⟨hcount, -⟩ := (h earlyWheel (2 ^ 31 + 999) hnow (by decide)).fits hnow
  exact absurd hcount (by decide)

end StartedWheel

end CoRoutine
