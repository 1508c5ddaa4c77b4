import MiscCpp.Leetcode.SortArray.LastIndex
import MiscCpp.Library.Access
import MiscCpp.Library.Search

/-!
# Quick sort

`quickSort` of `leetcode/divideANDconquer/sortArray.cc`.

The two scans of a partition have no bounds. What stops them is the pivot in the first turn, and
then the elements that have been exchanged (`turn_spec`), so a partition leaves its range neither
reading nor writing (`partition_spec`). Between the two ranges that are left there may be elements
that are equal to the pivot.

The range of the whole vector ends at `nums.size() - 1` as an `int`, which is another number from
`2 ^ 31 + 1` elements on. Then only a prefix is sorted (`quickSort_iff`).
-/

open Access CInt Search SortArray

namespace QuickSort

/-! ### The program -/

/-- `while (nums[l] < p) ++l;` -/
def scanUp (p : CInt) : ℕ → CInt → Prog CInt CInt
  | 0, _ => .undefined
  | fuel + 1, l => do
    let x ← .get l.1
    if x < p then do
      let l ← .ofOption l.incr
      scanUp p fuel l
    else pure l

/-- `while (nums[r] > p) --r;` -/
def scanDown (p : CInt) : ℕ → CInt → Prog CInt CInt
  | 0, _ => .undefined
  | fuel + 1, r => do
    let x ← .get r.1
    if p < x then do
      let r ← .ofOption r.decr
      scanDown p fuel r
    else pure r

/-- A turn of the outer loop. -/
def turn (p : CInt) (fuel : ℕ) (l r : CInt) : Prog CInt (CInt × CInt) := do
  let l ← scanUp p fuel l
  let r ← scanDown p fuel r
  if l ≤ r then do
    let l' ← .ofOption l.incr
    let r' ← .ofOption r.decr
    .swap l.1 r.1
    pure (l', r')
  else pure (l, r)

/-- `while (l <= r)`, with `steps` turns for the inner loops. -/
def partitionLoop (p : CInt) (steps : ℕ) : ℕ → CInt → CInt → Prog CInt (CInt × CInt)
  | 0, _, _ => .undefined
  | fuel + 1, l, r =>
    if l ≤ r then do
      let (l, r) ← turn p steps l r
      partitionLoop p steps fuel l r
    else pure (l, r)

/-- The part of `sort` before its recursive calls. -/
def partition (fuel : ℕ) (l r : CInt) : Prog CInt (CInt × CInt) := do
  let d ← .ofOption (checked (r.1 - l.1))
  let mid ← .ofOption (checked (l.1 + d.1 / 2))
  let p ← .get mid.1
  partitionLoop p fuel fuel l r

/-- `sort`, with the partition as a parameter. -/
def sort (part : CInt → CInt → Prog CInt (CInt × CInt)) : ℕ → CInt → CInt → Prog CInt PUnit
  | 0, _, _ => .undefined
  | fuel + 1, first, last =>
    if first ≥ last then pure ⟨⟩
    else do
      let (l, r) ← part first last
      sort part fuel first r
      sort part fuel l last

def quickSortWith (part : CInt → CInt → Prog CInt (CInt × CInt)) (fuel : ℕ) (nums : List CInt) :
    Option (List CInt) :=
  ((sort part fuel (wrap 0) (lastIndex nums.length)).exec nums).map Prod.snd

def quickSort (fuel : ℕ) (nums : List CInt) : Option (List CInt) :=
  quickSortWith (partition fuel) fuel nums

/-- The partition that must not leave its range. -/
def partitionWithin (fuel : ℕ) (l r : CInt) : Prog CInt (CInt × CInt) :=
  (partition fuel l r).within l.1 r.1

/-- `quickSort` ends and sorts, and no partition accesses an element outside its range. -/
def SortsWithin (nums : List CInt) : Prop :=
  SortsInPlace quickSort nums ∧
    ∃ n, ∀ fuel ≥ n, quickSortWith (partitionWithin fuel) fuel nums = quickSort fuel nums

/-! ### The scans -/

variable {p x y : CInt} {b e l r : CInt} {u d : ℤ} {m m' : List CInt} {fuel steps : ℕ}

/-- An element that is not less than the pivot stops the first scan. -/
theorem scanUp_spec (hbl : b ≤ l) (hlu : l.1 ≤ u) (hue : u ≤ e.1) (hb : 0 ≤ b.1)
    (hx : get m u = some x) (hpx : p ≤ x) (hfuel : u < l.1 + fuel) :
    ∃ l', ((scanUp p fuel l).within b.1 e.1).exec m = some (l', m) ∧ l ≤ l' ∧ l'.1 ≤ u ∧
      (∃ y, get m l'.1 = some y ∧ p ≤ y) ∧
      ∀ i, l.1 ≤ i → i < l'.1 → ∀ y, get m i = some y → y ≤ p := by
  induction fuel generalizing l with
  | zero => omega
  | succ fuel ih =>
    have hbl' : b.1 ≤ l.1 := hbl
    obtain ⟨hu, hlt⟩ := get_bounds hx
    obtain ⟨y, hy⟩ := exists_get (m := m) (i := l.1) (by omega) (by omega)
    have hget := Prog.exec_get hbl' (hlu.trans hue) hy
    rw [scanUp, Prog.within_bind]
    by_cases hyp : y < p
    · have hne : l.1 ≠ u := by
        rintro rfl
        rw [hx] at hy
        exact absurd (Option.some.inj hy ▸ hyp) (not_lt.2 hpx)
      let l₁ : CInt := ⟨l.1 + 1, by have := e.2; omega⟩
      have hincr : l.incr = some l₁ := dif_pos (by have := e.2; omega)
      have hl₁ : l₁.1 = l.1 + 1 := rfl
      obtain ⟨l', hexec, hle, hl', hstop, hlow⟩ := ih (l := l₁) (show b.1 ≤ l₁.1 by omega)
        (by omega) (by omega)
      refine ⟨l', Prog.exec_bind_of_exec hget ?_, show l.1 ≤ l'.1 from ?_, hl', hstop,
        fun i hi hi' z hz ↦ ?_⟩
      · rwa [if_pos hyp, hincr]
      · have hle' : l₁.1 ≤ l'.1 := hle
        omega
      · rcases eq_or_ne i l.1 with rfl | hil
        · rw [hy] at hz
          exact Option.some.inj hz ▸ hyp.le
        · exact hlow i (by omega) hi' z hz
    · refine ⟨l, Prog.exec_bind_of_exec hget ?_, le_refl _, hlu, ⟨y, hy, not_lt.1 hyp⟩,
        fun i hi hi' ↦ by omega⟩
      rw [if_neg hyp]
      rfl

/-- An element that is not greater than the pivot stops the second scan. -/
theorem scanDown_spec (hre : r ≤ e) (hdr : d ≤ r.1) (hbd : b.1 ≤ d) (he : e.1 < m.length)
    (hx : get m d = some x) (hxp : x ≤ p) (hfuel : r.1 < d + fuel) :
    ∃ r', ((scanDown p fuel r).within b.1 e.1).exec m = some (r', m) ∧ r' ≤ r ∧ d ≤ r'.1 ∧
      (∃ y, get m r'.1 = some y ∧ y ≤ p) ∧
      ∀ i, r'.1 < i → i ≤ r.1 → ∀ y, get m i = some y → p ≤ y := by
  induction fuel generalizing r with
  | zero => omega
  | succ fuel ih =>
    have hre' : r.1 ≤ e.1 := hre
    obtain ⟨hd, hlt⟩ := get_bounds hx
    obtain ⟨y, hy⟩ := exists_get (m := m) (i := r.1) (by omega) (by omega)
    have hget := Prog.exec_get (hbd.trans hdr) hre' hy
    rw [scanDown, Prog.within_bind]
    by_cases hpy : p < y
    · have hne : r.1 ≠ d := by
        rintro rfl
        rw [hx] at hy
        exact absurd (Option.some.inj hy ▸ hpy) (not_lt.2 hxp)
      let r₁ : CInt := ⟨r.1 - 1, by have := r.2; omega⟩
      have hdecr : r.decr = some r₁ := dif_pos (by omega)
      have hr₁ : r₁.1 = r.1 - 1 := rfl
      obtain ⟨r', hexec, hle, hr', hstop, hhigh⟩ := ih (r := r₁) (show r₁.1 ≤ e.1 by omega)
        (by omega) (by omega)
      refine ⟨r', Prog.exec_bind_of_exec hget ?_, show r'.1 ≤ r.1 from ?_, hr', hstop,
        fun i hi hi' z hz ↦ ?_⟩
      · rwa [if_pos hpy, hdecr]
      · have hle' : r'.1 ≤ r₁.1 := hle
        omega
      · rcases eq_or_ne i r.1 with rfl | hir
        · rw [hy] at hz
          exact Option.some.inj hz ▸ hpy.le
        · exact hhigh i hi (by omega) z hz
    · refine ⟨r, Prog.exec_bind_of_exec hget ?_, le_refl _, hdr, ⟨y, hy, not_lt.1 hpy⟩,
        fun i hi hi' ↦ by omega⟩
      rw [if_neg hpy]
      rfl

/-! ### The partition -/

/-- Before `l` there is nothing greater than the pivot, and behind `r` nothing less. -/
structure Split (p : CInt) (b e : ℤ) (m : List CInt) (l r : ℤ) : Prop where
  low : ∀ i, b ≤ i → i < l → ∀ x, get m i = some x → x ≤ p
  high : ∀ i, r < i → i ≤ e → ∀ x, get m i = some x → p ≤ x

/-- What the scans pass over. -/
theorem Split.scan {b e l l' r r' : ℤ} (h : Split p b e m l r)
    (hlow : ∀ i, l ≤ i → i < l' → ∀ x, get m i = some x → x ≤ p)
    (hhigh : ∀ i, r' < i → i ≤ r → ∀ x, get m i = some x → p ≤ x) : Split p b e m l' r' where
  low i hi hi' x hx := by
    rcases lt_or_ge i l with hil | hil
    · exact h.low i hi hil x hx
    · exact hlow i hil hi' x hx
  high i hi hi' x hx := by
    rcases lt_or_ge r i with hir | hir
    · exact h.high i hir hi' x hx
    · exact hhigh i hi hir x hx

/-- The elements where the scans stop, exchanged. -/
theorem Split.swap {b e l r : ℤ} (h : Split p b e m l r) (hlr : l ≤ r) (hx : get m l = some x)
    (hy : get m r = some y) (hpx : p ≤ x) (hyp : y ≤ p) :
    Split p b e ((m.set l.toNat y).set r.toNat x) (l + 1) (r - 1) := by
  have heq : l = r → x = y := fun heq ↦
    Option.some.inj (hx.symm.trans ((congrArg (get m) heq).trans hy))
  refine ⟨fun i hi hi' v hv ↦ ?_, fun i hi hi' v hv ↦ ?_⟩
  · rw [get_swap hx hy] at hv
    split at hv
    next hir => exact Option.some.inj hv ▸ heq (by omega) ▸ hyp
    next hir =>
      split at hv
      next hil => exact Option.some.inj hv ▸ hyp
      next hil => exact h.low i hi (by omega) v hv
  · rw [get_swap hx hy] at hv
    split at hv
    next hir => exact Option.some.inj hv ▸ hpx
    next hir =>
      split at hv
      next hil => exact Option.some.inj hv ▸ heq (by omega) ▸ hpx
      next hil => exact h.high i (by omega) hi' v hv

/-- **A turn** whose scans are stopped at `u` and `d` at the latest. It exchanges two elements, or
it is the last one. -/
theorem turn_spec (hsplit : Split p b.1 e.1 m l.1 r.1) (hb : 0 ≤ b.1) (he : e.1 < m.length)
    (hbl : b ≤ l) (hre : r ≤ e) (hlu : l.1 ≤ u) (hue : u ≤ e.1) (hx : get m u = some x)
    (hpx : p ≤ x) (hbd : b.1 ≤ d) (hdr : d ≤ r.1) (hy : get m d = some y) (hyp : y ≤ p)
    (hmax : u < e.1 ∨ r.1 < e.1) (hfuel : e.1 < b.1 + fuel) :
    ∃ l' r' m', ((turn p fuel l r).within b.1 e.1).exec m = some ((l', r'), m') ∧
      Rearranges b.1 e.1 m m' ∧ Split p b.1 e.1 m' l'.1 r'.1 ∧
      (l.1 ≤ l'.1 ∧ l'.1 ≤ u ∧ d ≤ r'.1 ∧ r'.1 ≤ r.1 ∧ r'.1 < l'.1 ∨
        l.1 < l'.1 ∧ l'.1 ≤ u + 1 ∧ l'.1 ≤ r.1 + 1 ∧ d - 1 ≤ r'.1 ∧ l.1 - 1 ≤ r'.1 ∧
          r'.1 < r.1) := by
  have hbl' : b.1 ≤ l.1 := hbl
  have hre' : r.1 ≤ e.1 := hre
  obtain ⟨l₁, hup, hle, hl₁, ⟨z, hz, hpz⟩, hlow⟩ := scanUp_spec hbl hlu hue hb hx hpx
    (show u < l.1 + fuel by omega)
  obtain ⟨r₁, hdown, hge, hr₁, ⟨w, hw, hwp⟩, hhigh⟩ := scanDown_spec hre hdr hbd he hy hyp
    (show r.1 < d + fuel by omega)
  have hle' : l.1 ≤ l₁.1 := hle
  have hge' : r₁.1 ≤ r.1 := hge
  have hsplit₁ := hsplit.scan hlow hhigh
  rw [turn, Prog.within_bind]
  by_cases hlr : l₁ ≤ r₁
  · have hlr' : l₁.1 ≤ r₁.1 := hlr
    let l' : CInt := ⟨l₁.1 + 1, by have := e.2; omega⟩
    let r' : CInt := ⟨r₁.1 - 1, by have := r₁.2; omega⟩
    have hl' : l'.1 = l₁.1 + 1 := rfl
    have hr' : r'.1 = r₁.1 - 1 := rfl
    have hincr : l₁.incr = some l' := dif_pos (by have := e.2; omega)
    have hdecr : r₁.decr = some r' := dif_pos (by omega)
    have hswap : ((Prog.swap l₁.1 r₁.1).within b.1 e.1).exec m = _ :=
      Prog.exec_swap (by omega) (by omega) (by omega) (by omega) hz hw
    refine ⟨l', r', _, Prog.exec_bind_of_exec hup ?_, rearranges_swap hz hw (by omega) (by omega)
      (by omega) (by omega), hsplit₁.swap hlr hz hw hpz hwp, .inr (by omega)⟩
    rw [Prog.within_bind]
    refine Prog.exec_bind_of_exec hdown ?_
    rw [if_pos hlr, hincr, hdecr]
    show ((Prog.swap l₁.1 r₁.1 >>= fun _ ↦ pure (l', r')).within b.1 e.1).exec m = _
    rw [Prog.within_bind]
    exact Prog.exec_bind_of_exec hswap rfl
  · refine ⟨l₁, r₁, m, Prog.exec_bind_of_exec hup ?_, .refl _ _ _, hsplit₁, .inl ?_⟩
    · rw [Prog.within_bind]
      refine Prog.exec_bind_of_exec hdown ?_
      rw [if_neg hlr]
      rfl
    · have hlr' : r₁.1 < l₁.1 := not_le.1 hlr
      omega

/-- What is left of the range: two shorter ranges, with nothing but the pivot between them. -/
structure Parted (p : CInt) (b e : CInt) (m m' : List CInt) (l r : CInt) : Prop where
  rearranges : Rearranges b.1 e.1 m m'
  split : Split p b.1 e.1 m' l.1 r.1
  lt : r < l
  left : b < l
  right : r < e
  left_le : l ≤ e
  le_right : b.1 ≤ r.1 + 1

/-- **The loop** behind its first turn: the elements before `l` and behind `r` stop the scans. -/
theorem partitionLoop_spec (hsplit : Split p b.1 e.1 m l.1 r.1) (hb : 0 ≤ b.1)
    (he : e.1 < m.length) (hbl : b < l) (hre : r < e) (hle : l ≤ e) (hbr : b.1 ≤ r.1 + 1)
    (hsteps : e.1 < b.1 + steps) (hfuel : r.1 + 1 < l.1 + fuel) (hpos : 0 < fuel) :
    ∃ l' r' m', ((partitionLoop p steps fuel l r).within b.1 e.1).exec m = some ((l', r'), m') ∧
      Parted p b e m m' l' r' := by
  induction fuel generalizing m l r with
  | zero => omega
  | succ fuel ih =>
    have hbl' : b.1 < l.1 := hbl
    have hre' : r.1 < e.1 := hre
    have hle' : l.1 ≤ e.1 := hle
    by_cases hlr : l ≤ r
    · have hlr' : l.1 ≤ r.1 := hlr
      obtain ⟨x, hx⟩ := exists_get (m := m) (i := r.1 + 1) (by omega) (by omega)
      obtain ⟨y, hy⟩ := exists_get (m := m) (i := l.1 - 1) (by omega) (by omega)
      obtain ⟨l₁, r₁, m₁, hturn, hrearr, hsplit₁, hcases⟩ := turn_spec hsplit hb he hbl.le hre.le
        (u := r.1 + 1) (by omega) (by omega) hx (hsplit.high _ (by omega) (by omega) x hx)
        (d := l.1 - 1) (by omega) (by omega) hy (hsplit.low _ (by omega) (by omega) y hy)
        (.inr hre') hsteps
      obtain ⟨l₂, r₂, m₂, hloop, hparted⟩ := ih hsplit₁ (by rwa [hrearr.length])
        (show b.1 < l₁.1 by omega) (show r₁.1 < e.1 by omega) (show l₁.1 ≤ e.1 by omega)
        (by omega) (by omega) (by omega)
      refine ⟨l₂, r₂, m₂, ?_, { hparted with rearranges := hrearr.trans hparted.rearranges }⟩
      rw [partitionLoop, if_pos hlr, Prog.within_bind]
      exact Prog.exec_bind_of_exec hturn hloop
    · refine ⟨l, r, m, ?_, ⟨.refl _ _ _, hsplit, not_le.1 hlr, hbl, hre, hle, hbr⟩⟩
      rw [partitionLoop, if_neg hlr]
      rfl

/-- **The partition** stays in its range. In the first turn the pivot stops the scans. -/
theorem partition_spec (hb : 0 ≤ b.1) (he : e.1 < m.length) (hbe : b < e)
    (hfuel : e.1 < b.1 + fuel) :
    ∃ p l r m', ((partition fuel b e).within b.1 e.1).exec m = some ((l, r), m') ∧
      Parted p b e m m' l r := by
  have hbe' : b.1 < e.1 := hbe
  have hb2 := b.2
  have he2 := e.2
  let k : CInt := ⟨e.1 - b.1, by omega⟩
  let mid : CInt := ⟨b.1 + (e.1 - b.1) / 2, by omega⟩
  have hmid : mid.1 = b.1 + (e.1 - b.1) / 2 := rfl
  have hk : checked (e.1 - b.1) = some k := dif_pos (by omega)
  have hk' : k.1 = e.1 - b.1 := rfl
  have hmid' : checked (b.1 + k.1 / 2) = some mid := dif_pos (by show _ ∧ _; omega)
  obtain ⟨p, hp⟩ := exists_get (m := m) (i := mid.1) (by omega) (by omega)
  have hget : ((Prog.get mid.1).within b.1 e.1).exec m = some (p, m) :=
    Prog.exec_get (by omega) (by omega) hp
  obtain ⟨fuel, rfl⟩ := Nat.exists_eq_succ_of_ne_zero (show fuel ≠ 0 by omega)
  have hsplit : Split p b.1 e.1 m b.1 e.1 := ⟨fun i _ _ ↦ by omega, fun i _ _ ↦ by omega⟩
  obtain ⟨l, r, m₁, hturn, hrearr, hsplit₁, hcases⟩ := turn_spec hsplit hb he (le_refl b)
    (le_refl e) (u := mid.1) (by omega) (by omega) hp (le_refl p) (d := mid.1) (by omega) (by omega)
    hp (le_refl p) (.inl (by omega)) hfuel
  obtain ⟨l', r', m₂, hloop, hparted⟩ := partitionLoop_spec hsplit₁ hb (by rwa [hrearr.length])
    (show b.1 < l.1 by omega) (show r.1 < e.1 by omega) (show l.1 ≤ e.1 by omega) (by omega) hfuel
    (show r.1 + 1 < l.1 + fuel by omega) (by omega)
  refine ⟨p, l', r', m₂, ?_, { hparted with rearranges := hrearr.trans hparted.rearranges }⟩
  rw [partition, hk]
  show ((Prog.ofOption (checked (b.1 + k.1 / 2)) >>= _).within b.1 e.1).exec m = _
  rw [hmid']
  show ((Prog.get mid.1 >>= _).within b.1 e.1).exec m = _
  rw [Prog.within_bind]
  refine Prog.exec_bind_of_exec hget ?_
  rw [partitionLoop, if_pos hbe.le, Prog.within_bind]
  exact Prog.exec_bind_of_exec hturn hloop

/-! ### The recursion -/

/-- A partition that stays in its range, in vectors of `n` elements. -/
def Partitions (part : CInt → CInt → Prog CInt (CInt × CInt)) (n : ℕ) : Prop :=
  ∀ (b e : CInt) (m : List CInt), m.length = n → 0 ≤ b.1 → b < e → e.1 < n →
    ∃ p l r m', ((part b e).within b.1 e.1).exec m = some ((l, r), m') ∧ Parted p b e m m' l r

variable {n : ℕ} {part : CInt → CInt → Prog CInt (CInt × CInt)}

theorem partitions_partition (hfuel : n ≤ fuel) : Partitions (partition fuel) n := by
  rintro b e m rfl hb hbe he
  exact partition_spec hb he hbe (by omega)

theorem partitions_within (hfuel : n ≤ fuel) : Partitions (partitionWithin fuel) n := by
  intro b e m hm hb hbe he
  obtain ⟨p, l, r, m', hexec, hparted⟩ := partitions_partition hfuel b e m hm hb hbe he
  exact ⟨p, l, r, m', (congrArg (Prog.exec · m) (Prog.within_within _ _ _)).trans hexec, hparted⟩

theorem Split.left {l r : ℤ} (h : Split p b.1 e.1 m l r) (hrl : r < l)
    (hm : Rearranges b.1 r m m') : Split p b.1 e.1 m' l r where
  low i hi hi' x hx := by
    rcases le_or_gt i r with hir | hir
    · exact hm.forall (P := (· ≤ p)) (fun j hj hj' ↦ h.low j hj (by omega)) i hi hir x hx
    · exact h.low i hi hi' x ((hm.outside i (by omega)).symm.trans hx)
  high i hi hi' x hx := h.high i hi hi' x ((hm.outside i (by omega)).symm.trans hx)

theorem Split.right {l r : ℤ} (h : Split p b.1 e.1 m l r) (hrl : r < l)
    (hm : Rearranges l e.1 m m') : Split p b.1 e.1 m' l r where
  low i hi hi' x hx := h.low i hi hi' x ((hm.outside i (by omega)).symm.trans hx)
  high i hi hi' x hx := by
    rcases lt_or_ge i l with hil | hil
    · exact h.high i hi hi' x ((hm.outside i (by omega)).symm.trans hx)
    · exact hm.forall (P := (p ≤ ·)) (fun j hj hj' ↦ h.high j (by omega) hj') i hil hi' x hx

/-- With both ranges sorted everything is. -/
theorem Split.sortedOn {l r : ℤ} (h : Split p b.1 e.1 m l r) (hleft : SortedOn b.1 r m)
    (hright : SortedOn l e.1 m) : SortedOn b.1 e.1 m := by
  intro i j hi hij hj x y hx hy
  rcases le_or_gt j r with hjr | hjr
  · exact hleft i j hi hij hjr x y hx hy
  · rcases lt_or_ge i l with hil | hil
    · exact (h.low i hi hil x hx).trans (h.high j hjr hj y hy)
    · exact hright i j hil hij hj x y hx hy

/-- With both ranges sorted one after the other, the whole range is. -/
theorem Parted.sortedOn {m₁ m₂ m₃ : List CInt} (h : Parted p b e m m₁ l r)
    (hm₂ : Rearranges b.1 r.1 m₁ m₂) (hleft : SortedOn b.1 r.1 m₂)
    (hm₃ : Rearranges l.1 e.1 m₂ m₃) (hright : SortedOn l.1 e.1 m₃) :
    Rearranges b.1 e.1 m m₃ ∧ SortedOn b.1 e.1 m₃ := by
  have hl : b.1 < l.1 := h.left
  have hr : r.1 < e.1 := h.right
  have hrl : r.1 < l.1 := h.lt
  have hleft' : SortedOn b.1 r.1 m₃ := fun i j hi hij hj x y hx hy ↦
    hleft i j hi hij hj x y ((hm₃.outside i (by omega)).symm.trans hx)
      ((hm₃.outside j (by omega)).symm.trans hy)
  exact ⟨(h.rearranges.trans (hm₂.mono (le_refl _) hr.le)).trans (hm₃.mono hl.le (le_refl _)),
    ((h.split.left hrl hm₂).right hrl hm₃).sortedOn hleft' hright⟩

/-- **`sort`** sorts its range, and accesses no other element. -/
theorem sort_spec (hpart : Partitions part m.length) (hb : 0 ≤ b.1) (he : e.1 < m.length)
    (hfuel : e.1 < b.1 + fuel) (hpos : 0 < fuel) :
    ∃ m', ((sort part fuel b e).within b.1 e.1).exec m = some (⟨⟩, m') ∧
      Rearranges b.1 e.1 m m' ∧ SortedOn b.1 e.1 m' := by
  induction fuel generalizing m b e with
  | zero => cases hpos
  | succ fuel ih =>
    rw [sort]
    by_cases hbe : b ≥ e
    · have hbe' : b.1 ≥ e.1 := hbe
      refine ⟨m, by rw [if_pos hbe]; rfl, .refl _ _ _, fun i j hi hij hj ↦ ?_⟩
      omega
    · rw [if_neg hbe, Prog.within_bind]
      obtain ⟨p, l, r, m₁, hexec, h⟩ := hpart b e m rfl hb (not_le.1 hbe) he
      have hl : b.1 < l.1 := h.left
      have hr : r.1 < e.1 := h.right
      have hbe' : b.1 < e.1 := not_le.1 hbe
      have hlen := h.rearranges.length
      obtain ⟨m₂, hexec₂, hrearr₂, hsorted₂⟩ := ih (m := m₁) (b := b) (e := r) (by rwa [hlen]) hb
        (by omega) (by omega) (by omega)
      have hlen₂ := hrearr₂.length.trans hlen
      obtain ⟨m₃, hexec₃, hrearr₃, hsorted₃⟩ := ih (m := m₂) (b := l) (e := e) (by rwa [hlen₂])
        (by omega) (by omega) (by omega) (by omega)
      refine ⟨m₃, Prog.exec_bind_of_exec hexec ?_,
        h.sortedOn hrearr₂ hsorted₂ hrearr₃ hsorted₃⟩
      show ((sort part fuel b r >>= fun _ ↦ sort part fuel l e).within b.1 e.1).exec m₁ = _
      rw [Prog.within_bind]
      exact Prog.exec_bind_of_exec (Prog.exec_within_mono (le_refl _) hr.le hexec₂)
        (Prog.exec_within_mono hl.le (le_refl _) hexec₃)

/-- What is done with the partitions kept in their ranges is done. -/
theorem exec_sort_of_within {a : PUnit}
    (h : (sort (partitionWithin steps) fuel b e).exec m = some (a, m')) :
    (sort (partition steps) fuel b e).exec m = some (a, m') := by
  induction fuel generalizing m m' b e with
  | zero => cases h
  | succ fuel ih =>
    rw [sort] at h ⊢
    split at h
    next hbe => rwa [if_pos hbe]
    next hbe =>
      rw [if_neg hbe]
      rw [Prog.exec_bind] at h
      obtain ⟨⟨⟨l, r⟩, m₁⟩, hexec, h⟩ := Option.bind_eq_some_iff.1 h
      refine Prog.exec_bind_of_exec (Prog.exec_of_exec_within hexec) ?_
      simp only [Prog.exec_bind] at h
      obtain ⟨⟨a₂, m₂⟩, hexec₂, h⟩ := Option.bind_eq_some_iff.1 h
      exact Prog.exec_bind_of_exec (ih hexec₂) (ih h)

/-! ### The whole vector -/

/-- A vector of more elements of which the last one is the least. -/
theorem not_restInOrder : ¬ RestInOrder (List.replicate (2 ^ 31) (wrap 1) ++ [wrap 0]) := by
  intro h
  have hlen : (List.replicate (2 ^ 31) (wrap 1) ++ [wrap 0]).length = 2 ^ 31 + 1 := by
    rw [List.length_append, List.length_replicate, List.length_singleton]
  have hsorted : sortedLength (2 ^ 31 + 1) = 0 := by decide +kernel
  have hpair := h.1
  rw [hlen, hsorted, List.drop_zero] at hpair
  have hle := (List.pairwise_append.1 hpair).2.2 (wrap 1)
    (List.mem_replicate.2 ⟨by decide, rfl⟩) (wrap 0) List.mem_cons_self
  exact absurd hle (by decide)

theorem quickSortWith_spec {nums : List CInt} (hpart : Partitions part nums.length)
    (hfuel : nums.length < fuel) :
    ∃ nums', quickSortWith part fuel nums = some nums' ∧
      Rearranges 0 (lastIndex nums.length).1 nums nums' ∧
      SortedOn 0 (lastIndex nums.length).1 nums' := by
  have hlt := lastIndex_lt nums.length
  have hzero : (wrap 0).1 = 0 := by decide
  obtain ⟨nums', hexec, hrearr, hsorted⟩ := sort_spec (b := wrap 0) hpart hzero.ge hlt
    (show _ < (wrap 0).1 + fuel by omega) (Nat.zero_lt_of_lt hfuel)
  rw [hzero] at hrearr hsorted
  exact ⟨nums', by rw [quickSortWith, Prog.exec_of_exec_within hexec, Option.map_some], hrearr,
    hsorted⟩

theorem quickSort_of_within {nums nums' : List CInt}
    (h : quickSortWith (partitionWithin fuel) fuel nums = some nums') :
    quickSort fuel nums = some nums' := by
  obtain ⟨⟨a, m⟩, hexec, rfl⟩ := Option.map_eq_some_iff.1 h
  rw [quickSort, quickSortWith, exec_sort_of_within hexec, Option.map_some]

/-- The run in which the partitions are kept in their ranges, and the run of `quickSort`. -/
theorem quickSort_spec {nums : List CInt} (hfuel : nums.length < fuel) :
    ∃ nums', quickSortWith (partitionWithin fuel) fuel nums = some nums' ∧
      quickSort fuel nums = some nums' ∧ nums'.Perm nums ∧
      (nums'.Pairwise (· ≤ ·) ↔ RestInOrder nums) := by
  obtain ⟨nums', heq, hrearr, hsorted⟩ :=
    quickSortWith_spec (partitions_within (Nat.le_of_lt hfuel)) hfuel
  exact ⟨nums', heq, quickSort_of_within heq, hrearr.perm, hrearr.pairwise_iff hsorted⟩

theorem restInOrder_of_sortsInPlace {nums : List CInt} (h : SortsInPlace quickSort nums) :
    RestInOrder nums := by
  obtain ⟨n, hn⟩ := h
  obtain ⟨nums', -, heq, -, hiff⟩ :=
    quickSort_spec (show nums.length < n + nums.length + 1 by omega)
  obtain ⟨nums'', heq', -, hsorted⟩ := hn (n + nums.length + 1) (by omega)
  obtain rfl := Option.some.inj (heq.symm.trans heq')
  exact hiff.1 hsorted

/-- **`quickSort` sorts**, with its scans in their ranges, exactly if what is left behind the last
index is in order. -/
theorem quickSort_iff (nums : List CInt) : SortsWithin nums ↔ RestInOrder nums := by
  refine ⟨fun h ↦ restInOrder_of_sortsInPlace h.1, fun h ↦ ⟨⟨nums.length + 1, fun fuel hfuel ↦ ?_⟩,
    nums.length + 1, fun fuel hfuel ↦ ?_⟩⟩
  · obtain ⟨nums', -, heq, hperm, hiff⟩ := quickSort_spec hfuel
    exact ⟨nums', heq, hperm, hiff.2 h⟩
  · obtain ⟨nums', hwithin, heq, -⟩ := quickSort_spec hfuel
    rw [hwithin, heq]

theorem not_forall_quickSort : ¬ ∀ nums, SortsWithin nums := fun h ↦
  not_restInOrder (restInOrder_of_sortsInPlace (h _).1)

example : quickSort 8 ([3, 4, 5, 6, 4, 2, 3].map wrap) =
    some ([2, 3, 3, 4, 4, 5, 6].map wrap) := by decide +kernel

end QuickSort
