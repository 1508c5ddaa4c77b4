import Mathlib.Data.Int.Order.Basic
import Mathlib.Data.List.Basic
import Mathlib.Tactic.Common

/-!
# Vectors of vectors

Reading and writing the elements of a vector of vectors. `Filled` says of a table that its entries
are there, and that those that are done are right; one more entry is done with each assignment
(`Filled.put`).
-/

namespace TwoDimensional

variable {β : Type*}

/-- `rows[i][j]` -/
def get (rows : List (List β)) (i j : ℤ) : Option β :=
  if 0 ≤ i ∧ 0 ≤ j then rows[i.toNat]?.bind (·[j.toNat]?) else none

/-- `rows[i][j] = b` -/
def put (rows : List (List β)) (i j : ℤ) (b : β) : Option (List (List β)) :=
  (get rows i j).map fun _ ↦ rows.modify i.toNat (·.set j.toNat b)

variable {rows : List (List β)} {i j m n : ℕ} {b c : β}

theorem get_natCast (rows : List (List β)) (i j : ℕ) : get rows i j = rows[i]?.bind (·[j]?) := by
  rw [get, if_pos ⟨Int.natCast_nonneg i, Int.natCast_nonneg j⟩, Int.toNat_natCast,
    Int.toNat_natCast]

theorem get_replicate (hi : i < m) (hj : j < n) (b : β) :
    get (List.replicate m (List.replicate n b)) i j = some b := by
  rw [get_natCast, List.getElem?_replicate, if_pos hi, Option.bind_some, List.getElem?_replicate,
    if_pos hj]

/-- A write is read back at its own place, and nothing else changes. -/
theorem put_spec (h : get rows i j = some c) (b : β) :
    ∃ rows', put rows i j b = some rows' ∧ get rows' i j = some b ∧
      ∀ i' j' : ℕ, (i' ≠ i ∨ j' ≠ j) → get rows' i' j' = get rows i' j' := by
  refine ⟨rows.modify i (·.set j b), ?_, ?_, fun i' j' hne ↦ ?_⟩
  · rw [put, h, Option.map_some, Int.toNat_natCast, Int.toNat_natCast]
  · rw [get_natCast] at h ⊢
    obtain ⟨row, hrow, hj⟩ := Option.bind_eq_some_iff.1 h
    have hlt : j < row.length := (List.getElem?_eq_some_iff.1 hj).1
    simp [hrow, hlt]
  · rw [get_natCast, get_natCast, List.getElem?_modify]
    cases hrow : rows[i']? with
    | none => rfl
    | some row =>
      by_cases hi : i = i'
      · have hj : j ≠ j' := fun hj ↦ hne.elim (· hi.symm) (· hj.symm)
        simp [hi, List.getElem?_set_ne hj]
      · simp [hi]

/-- The entries up to `m` and `n` are there, and those that are `done` are `right`. -/
def Filled (right : ℕ → ℕ → β → Prop) (m n : ℕ) (done : ℕ → ℕ → Prop) (rows : List (List β)) :
    Prop :=
  ∀ i j, i ≤ m → j ≤ n → ∃ b, get rows i j = some b ∧ (done i j → right i j b)

variable {right : ℕ → ℕ → β → Prop} {done done' : ℕ → ℕ → Prop}

/-- A place that is done reads a right element. -/
theorem Filled.exists_get (h : Filled right m n done rows) (hi : i ≤ m) (hj : j ≤ n)
    (hdone : done i j) :
    ∃ b, get rows i j = some b ∧ right i j b := by
  obtain ⟨b, hb, hright⟩ := h i j hi hj
  exact ⟨b, hb, hright hdone⟩

/-- A right element at one place more. -/
theorem Filled.put (h : Filled right m n done rows) (hi : i ≤ m) (hj : j ≤ n) (hb : right i j b)
    (hdone : ∀ i' j', done' i' j' → (i' ≠ i ∨ j' ≠ j) → done i' j') :
    ∃ rows', put rows i j b = some rows' ∧ Filled right m n done' rows' := by
  obtain ⟨c, hc, -⟩ := h i j hi hj
  obtain ⟨rows', hput, hget, hother⟩ := put_spec hc b
  refine ⟨rows', hput, fun i' j' hi' hj' ↦ ?_⟩
  by_cases hne : i' ≠ i ∨ j' ≠ j
  · obtain ⟨b', hb', hright⟩ := h i' j' hi' hj'
    exact ⟨b', (hother i' j' hne).trans hb', fun hd ↦ hright (hdone i' j' hd hne)⟩
  · obtain ⟨rfl, rfl⟩ : i' = i ∧ j' = j := by omega
    exact ⟨b, hget, fun _ ↦ hb⟩

theorem Filled.mono (h : Filled right m n done rows)
    (hdone : ∀ i j, i ≤ m → j ≤ n → done' i j → done i j) : Filled right m n done' rows := by
  intro i j hi hj
  obtain ⟨b, hb, hright⟩ := h i j hi hj
  exact ⟨b, hb, fun hd ↦ hright (hdone i j hi hj hd)⟩

/-- A new table, in which nothing is done. -/
theorem filled_replicate (m n : ℕ) (b : β) :
    Filled right m n (fun _ _ ↦ False) (List.replicate (m + 1) (List.replicate (n + 1) b)) :=
  fun _ _ hi hj ↦ ⟨b, get_replicate (Nat.lt_succ_of_le hi) (Nat.lt_succ_of_le hj) b, False.elim⟩

end TwoDimensional
