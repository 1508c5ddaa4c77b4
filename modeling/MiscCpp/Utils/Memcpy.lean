import MiscCpp.Library.RegionCopy

/-!
# Copying memory

`memcpy2` of `utils/memcpy.cc`, on a memory of bytes with addresses of 64 bits.

If the source begins in front of the destination and reaches into it, the bytes are copied from the
last one on, else from the first one on. So no byte is read that has been written: in the first case
what is written is behind what is read next (`memcpy2_spec`).
-/

open Function RegionCopy

namespace Memcpy

/-! ### The program -/

abbrev Address := BitVec 64

abbrev Memory := Address → UInt8

/-- `while (count--) *pdest-- = *psrc--;` -/
def backward : ℕ → Memory → Address → Address → Memory
  | 0, m, _, _ => m
  | count + 1, m, pdest, psrc => backward count (update m pdest (m psrc)) (pdest - 1) (psrc - 1)

/-- `while (count--) *pdest++ = *psrc++;` -/
def forward : ℕ → Memory → Address → Address → Memory
  | 0, m, _, _ => m
  | count + 1, m, pdest, psrc => forward count (update m pdest (m psrc)) (pdest + 1) (psrc + 1)

/-- The pointer that is returned, and the memory. -/
def memcpy2 (m : Memory) (dest src : Address) (count : BitVec 64) : Address × Memory :=
  if dest = 0 ∨ src = 0 then (0, m)
  else if src < dest ∧ dest < src + count then
    (dest, backward count.toNat m (dest + count - 1) (src + count - 1))
  else (dest, forward count.toNat m dest src)

/-! ### Regions -/

/-- The address behind `i` bytes. -/
def cell (p : Address) (i : ℕ) : Address := p + BitVec.ofNat 64 i

variable {m m₀ : Memory} {p dest src : Address} {n k i j : ℕ} {count : BitVec 64}

theorem cell_zero (p : Address) : cell p 0 = p := BitVec.add_zero p

theorem cell_succ (p : Address) (i : ℕ) : cell p (i + 1) = cell p i + 1 := by
  rw [cell, BitVec.ofNat_add, ← BitVec.add_assoc, cell]
  rfl

theorem cell_pred (p : Address) (i : ℕ) : cell p (i + 1) - 1 = cell p i := by
  rw [cell_succ, BitVec.add_sub_cancel]

theorem toNat_cell (h : p.toNat + i < 2 ^ 64) : (cell p i).toNat = p.toNat + i := by
  rw [cell, BitVec.toNat_add, BitVec.toNat_ofNat, Nat.add_mod_mod, Nat.mod_eq_of_lt h]

theorem cell_ne (hd : dest.toNat + i < 2 ^ 64) (hs : src.toNat + j < 2 ^ 64)
    (hne : dest.toNat + i ≠ src.toNat + j) : cell dest i ≠ cell src j := by
  intro heq
  have hnat := congrArg BitVec.toNat heq
  rw [toNat_cell hd, toNat_cell hs] at hnat
  exact hne hnat

/-! ### The loops -/

theorem forward_spec (hsrc : ∀ i j, i < j → j < n → cell src j ≠ cell dest i)
    (hdest : ∀ i j, i < j → j < n → cell dest i ≠ cell dest j)
    (h : Copied m₀ (cell dest) (cell src) 0 k m) {c : ℕ} (hk : k + c = n) :
    Copied m₀ (cell dest) (cell src) 0 n (forward c m (cell dest k) (cell src k)) := by
  induction c generalizing k m with
  | zero => exact hk ▸ h
  | succ c ih =>
    rw [forward, ← cell_succ, ← cell_succ]
    refine ih (h.up (Nat.zero_le k) (fun i _ hi ↦ ?_) fun i _ hi ↦ ?_) (by omega)
    · exact hsrc i k hi (by omega)
    · exact hdest i k hi (by omega)

theorem backward_spec (hsrc : ∀ i j, i < j → j < n → cell src i ≠ cell dest j)
    (hdest : ∀ i j, i < j → j < n → cell dest i ≠ cell dest j)
    (h : Copied m₀ (cell dest) (cell src) k n m) (hk : k ≤ n) :
    Copied m₀ (cell dest) (cell src) 0 n
      (backward k m (cell dest k - 1) (cell src k - 1)) := by
  induction k generalizing m with
  | zero => exact h
  | succ k ih =>
    rw [backward, cell_pred, cell_pred]
    refine ih (h.down hk (fun i hi hin ↦ ?_) fun i hi hin ↦ ?_) (Nat.le_of_succ_le hk)
    · exact hsrc k i hi hin
    · exact (hdest k i hi hin).symm

/-- **`memcpy2`** returns `dest` and copies what was in the source, however the regions overlap. -/
theorem memcpy2_spec (m : Memory) (dest src : Address) (count : BitVec 64) (hdest : dest ≠ 0)
    (hsrc : src ≠ 0) (hd : dest.toNat + count.toNat ≤ 2 ^ 64)
    (hs : src.toNat + count.toNat ≤ 2 ^ 64) :
    (memcpy2 m dest src count).1 = dest ∧
      Copied m (cell dest) (cell src) 0 count.toNat (memcpy2 m dest src count).2 := by
  have hcell (p : Address) : p + count = cell p count.toNat := by
    rw [cell, BitVec.ofNat_toNat, BitVec.setWidth_eq]
  have hinj (i j : ℕ) (hij : i < j) (hj : j < count.toNat) : cell dest i ≠ cell dest j :=
    cell_ne (by omega) (by omega) (by omega)
  rw [memcpy2, if_neg (not_or.2 ⟨hdest, hsrc⟩)]
  by_cases hoverlap : src < dest ∧ dest < src + count
  · rw [if_pos hoverlap, hcell, hcell]
    have hlt : src.toNat < dest.toNat := BitVec.lt_def.1 hoverlap.1
    refine ⟨rfl, backward_spec (fun i j hij hj ↦ ?_) hinj (copied_self ..) le_rfl⟩
    exact cell_ne (by omega) (by omega) (by omega)
  · rw [if_neg hoverlap]
    have hfar : dest.toNat ≤ src.toNat ∨ src.toNat + count.toNat ≤ dest.toNat := by
      by_contra hnear
      obtain ⟨hlt, hreach⟩ := not_or.1 hnear
      refine hoverlap ⟨BitVec.lt_def.2 (not_le.1 hlt), BitVec.lt_def.2 ?_⟩
      rw [hcell, toNat_cell (by omega)]
      exact not_le.1 hreach
    have hforward := forward_spec (fun i j hij hj ↦ ?_) hinj
      (copied_self m (cell dest) (cell src) 0) (Nat.zero_add count.toNat)
    · rw [cell_zero, cell_zero] at hforward
      exact ⟨rfl, hforward⟩
    · exact cell_ne (by omega) (by omega) (by omega)

/-- Four bytes, one address further on. -/
theorem memcpy2_spec_four : (memcpy2 (fun a ↦ UInt8.ofNat a.toNat) 8 7 4).1 = 8 ∧
    Copied (fun a ↦ UInt8.ofNat a.toNat) (cell 8) (cell 7) 0 (4 : BitVec 64).toNat
      (memcpy2 (fun a ↦ UInt8.ofNat a.toNat) 8 7 4).2 :=
  memcpy2_spec _ 8 7 4 (by decide) (by decide) (by decide) (by decide)

end Memcpy
