import MiscCpp.Library.Access
import MiscCpp.Library.HealthPaths
import MiscCpp.Library.Machine
import MiscCpp.Library.TwoDimensional

/-!
# The health that is needed in a dungeon

`calculateMinimumHP` of `leetcode/DP/dungeonGame.cc`, with exact arithmetic: all numbers, those of
type `int` too, are integers without bounds.

The array `cur` has what is needed more than one, from each room of a row on. A row is overwritten
from the right (`row_spec`), so of the two rooms behind `(i, j)` the lower one is still in `cur[j]`,
and the right one is in `cur[j + 1]` already.
-/

open Access HealthPaths Machine

namespace DungeonGame

/-! ### The program -/

def need (i : ℤ) : ℤ := if 0 ≤ i then 0 else -i

/-- The values of `j` in `for (int j = n - 2; j >= 0; --j)`. -/
def countdown (n : ℕ) : List ℕ := (List.range (n - 1)).reverse

/-- The body of the first loop. -/
def fillLast (cur : List ℤ) (j : ℕ) : Option (List ℤ) := do
  let cur ← put cur j ((← get cur j) - (← get cur (j + 1)))
  put cur j (need (← get cur j))

/-- The body of the inner loop. -/
def fill (dungeon : List (List ℤ)) (i : ℕ) (cur : List ℤ) (j : ℕ) : Option (List ℤ) := do
  let room ← TwoDimensional.get dungeon i j
  put cur j (need (room - min (← get cur j) (← get cur (j + 1))))

/-- The body of the outer loop. -/
def row (dungeon : List (List ℤ)) (n : ℕ) (cur : List ℤ) (i : ℕ) : Option (List ℤ) := do
  let room ← TwoDimensional.get dungeon i (n - 1)
  let cur ← put cur (n - 1) (need (room - (← get cur (n - 1))))
  exec (fill dungeon i) cur (countdown n)

/-- The rows from the bottom up, each from right to left, in one vector. -/
def calculateMinimumHP (dungeon : List (List ℤ)) : Option ℤ := do
  let m := dungeon.length
  let n := (← get dungeon 0).length
  let cur ← get dungeon (m - 1)
  let cur ← put cur (n - 1) (need (← get cur (n - 1)))
  let cur ← exec fillLast cur (countdown n)
  let cur ← exec (row dungeon n) cur (countdown m)
  some ((← get cur 0) + 1)

example : calculateMinimumHP [[-2, -3, 3], [-5, -10, 1], [10, 30, -5]] = some 7 := by decide +kernel

/-! ### Dungeons -/

/-- A rectangular grid with at least one room. -/
structure Dungeon where
  rows : List (List ℤ)
  width : ℕ
  height_pos : 0 < rows.length
  width_pos : 0 < width
  rectangular : ∀ row ∈ rows, row.length = width

namespace Dungeon

variable (d : Dungeon)

/-- The value of a room. -/
def value (p : ℕ × ℕ) : ℤ := (TwoDimensional.get d.rows p.1 p.2).getD 0

/-- A move right or down. -/
def Move (p q : ℕ × ℕ) : Prop :=
  (q = (p.1, p.2 + 1) ∨ q = (p.1 + 1, p.2)) ∧ q.1 < d.rows.length ∧ q.2 < d.width

/-- The cell with the princess. -/
def bottomRight : ℕ × ℕ := (d.rows.length - 1, d.width - 1)

/-- The right entry for a room. -/
def Right (i : ℕ) (j x : ℤ) : Prop := IsNeed d.Move d.value d.bottomRight (i, j.toNat) x

variable {d} {i j : ℕ} {x y : ℤ} {cur : List ℤ}

theorem get_eq (hi : i < d.rows.length) (hj : j < d.width) :
    TwoDimensional.get d.rows i j = some (d.value (i, j)) := by
  have hj' : j < d.rows[i].length := by rwa [d.rectangular d.rows[i] (List.getElem_mem hi)]
  have hget : TwoDimensional.get d.rows i j = some d.rows[i][j] := by
    rw [TwoDimensional.get_natCast, List.getElem?_eq_getElem hi, Option.bind_some,
      List.getElem?_eq_getElem]
  rw [value, hget, Option.getD_some]

theorem exists_row (hi : i < d.rows.length) :
    ∃ row, Access.get d.rows i = some row ∧
      Entries d.width (fun k x ↦ x = d.value (i, k.toNat)) row := by
  refine ⟨d.rows[i], ?_, d.rectangular d.rows[i] (List.getElem_mem hi), fun k x hx ↦ ?_⟩
  · rw [Access.get_natCast, List.getElem?_eq_getElem hi]
  · have hk := (Access.get_bounds hx).1
    rw [Access.get, if_pos hk] at hx
    rw [value, TwoDimensional.get_natCast, List.getElem?_eq_getElem hi, Option.bind_some, hx,
      Option.getD_some]

theorem need_eq (x y : ℤ) : need (x - y) = max 0 (y - x) := by
  rw [need]
  split <;> omega

theorem right_bottomRight :
    d.Right (d.rows.length - 1) (d.width - 1 : ℕ) (need (d.value d.bottomRight)) := by
  have hlast := isNeed_last (r := d.Move) (w := d.value) (q := d.bottomRight) fun p hp ↦ by
    rcases hp with ⟨rfl | rfl, hrow, hcol⟩
    · exact absurd hcol (by rw [bottomRight]; omega)
    · exact absurd hrow (by rw [bottomRight]; omega)
  rwa [← need_eq, sub_zero] at hlast

/-- In the last row. -/
theorem Right.last_row (hx : d.Right (d.rows.length - 1) (j + 1 : ℕ) x) (hj : j + 1 < d.width) :
    d.Right (d.rows.length - 1) j (need (d.value (d.rows.length - 1, j) - x)) := by
  rw [need_eq]
  refine IsNeed.step_one hx (fun heq ↦ ?_) fun q ↦ ⟨fun hq ↦ ?_, ?_⟩
  · rw [bottomRight, Prod.mk.injEq] at heq
    omega
  · rcases hq with ⟨rfl | rfl, hrow, -⟩
    · rfl
    · exact absurd hrow (by dsimp only; omega)
  · rintro rfl
    exact ⟨Or.inl rfl, Nat.sub_lt d.height_pos Nat.one_pos, hj⟩

/-- In the last column. -/
theorem Right.last_column (hx : d.Right (i + 1) (d.width - 1 : ℕ) x)
    (hi : i + 1 < d.rows.length) :
    d.Right i (d.width - 1 : ℕ) (need (d.value (i, d.width - 1) - x)) := by
  rw [need_eq]
  refine IsNeed.step_one hx (fun heq ↦ ?_) fun q ↦ ⟨fun hq ↦ ?_, ?_⟩
  · rw [bottomRight, Prod.mk.injEq] at heq
    omega
  · rcases hq with ⟨rfl | rfl, -, hcol⟩
    · exact absurd hcol (by dsimp only; omega)
    · rfl
  · rintro rfl
    exact ⟨Or.inr rfl, hi, Nat.sub_lt d.width_pos Nat.one_pos⟩

/-- **Anywhere else**, from the room below and the one to the right. -/
theorem Right.step (hx : d.Right (i + 1) j x) (hy : d.Right i (j + 1 : ℕ) y)
    (hi : i + 1 < d.rows.length) (hj : j + 1 < d.width) :
    d.Right i j (need (d.value (i, j) - min x y)) := by
  rw [need_eq, min_comm]
  refine IsNeed.step hy hx (fun heq ↦ ?_) fun q ↦ ⟨fun hq ↦ hq.1, ?_⟩
  · rw [bottomRight, Prod.mk.injEq] at heq
    omega
  · rintro (rfl | rfl)
    · exact ⟨Or.inl rfl, by dsimp only; omega, hj⟩
    · exact ⟨Or.inr rfl, hi, by dsimp only; omega⟩

/-! ### The loops -/

theorem fillLast_eq (hx : Access.get cur j = some x) (hy : Access.get cur (j + 1) = some y) :
    fillLast cur j = put cur j (need (x - y)) := by
  have hself := get_set_self hx (x - y)
  rw [fillLast, hx, hy, Option.bind_eq_bind, Option.bind_some, Option.bind_some, put_eq hx,
    Option.bind_eq_bind, Option.bind_some, hself, Option.bind_some, put_eq hself, put_eq hx,
    List.set_set]

/-- **The first loop** fills the array for the last row. -/
theorem exec_fillLast (h : Entries d.width
    (Split (d.width - 1 : ℕ) (fun k x ↦ x = d.value (d.rows.length - 1, k.toNat))
      (d.Right (d.rows.length - 1))) cur) :
    ∃ cur', exec fillLast cur (countdown d.width) = some cur' ∧
      Entries d.width (d.Right (d.rows.length - 1)) cur' := by
  have hstep (j : ℕ) (s : List ℤ) (hj : j < d.width - 1) (hs : Entries d.width
      (Split (j + 1 : ℕ) (fun k x ↦ x = d.value (d.rows.length - 1, k.toNat))
        (d.Right (d.rows.length - 1))) s) :
      ∃ t, fillLast s j = some t ∧ Entries d.width
        (Split j (fun k x ↦ x = d.value (d.rows.length - 1, k.toNat))
          (d.Right (d.rows.length - 1))) t := by
    obtain ⟨x, hx, hval⟩ := hs.exists_get (Int.natCast_nonneg j) (by omega)
    obtain ⟨y, hy, hright⟩ := hs.exists_get (Int.natCast_nonneg (j + 1)) (by omega)
    obtain rfl := hval.1 (by omega)
    rw [fillLast_eq hx hy, Int.toNat_natCast]
    exact hs.put_down (Int.natCast_nonneg j) (by omega)
      (Right.last_row (hright.2 le_rfl) (by omega))
  obtain ⟨cur', hexec, hcur'⟩ := exists_exec_reverse_range (I := fun j ↦ Entries d.width
    (Split j (fun k x ↦ x = d.value (d.rows.length - 1, k.toNat))
      (d.Right (d.rows.length - 1)))) hstep h
  exact ⟨cur', hexec, entries_split_zero_iff.1 hcur'⟩

/-- **The body of the outer loop** moves on to the row above. -/
theorem row_spec (hi : i + 1 < d.rows.length) (h : Entries d.width (d.Right (i + 1)) cur) :
    ∃ cur', row d.rows d.width cur i = some cur' ∧ Entries d.width (d.Right i) cur' := by
  have hpos := d.width_pos
  have hlast : ((d.width - 1 : ℕ) : ℤ) = d.width - 1 := by omega
  obtain ⟨x, hx, hright⟩ := h.exists_get (Int.natCast_nonneg (d.width - 1)) (by omega)
  obtain ⟨cur₁, hput, hcur₁⟩ := Entries.put_down (k := (d.width - 1 : ℕ))
    (h.congr fun k y _ hk hy ↦ ⟨fun _ ↦ hy, fun hle ↦ by omega⟩)
    (Int.natCast_nonneg _) (by omega) (Right.last_column hright hi)
  have hstep (j : ℕ) (s : List ℤ) (hj : j < d.width - 1)
      (hs : Entries d.width (Split (j + 1 : ℕ) (d.Right (i + 1)) (d.Right i)) s) :
      ∃ t, fill d.rows i s j = some t ∧
        Entries d.width (Split j (d.Right (i + 1)) (d.Right i)) t := by
    -- `cur[j]` belongs to the row below still, and `cur[j + 1]` to this one.
    obtain ⟨x, hx, hbelow⟩ := hs.exists_get (Int.natCast_nonneg j) (by omega)
    obtain ⟨y, hy, hside⟩ := hs.exists_get (Int.natCast_nonneg (j + 1)) (by omega)
    obtain ⟨t, hput, ht⟩ := hs.put_down (Int.natCast_nonneg j) (by omega)
      (Right.step (hbelow.1 (by omega)) (hside.2 le_rfl) hi (by omega))
    refine ⟨t, ?_, ht⟩
    rw [fill, get_eq (by omega) (by omega), Option.bind_eq_bind, Option.bind_some, hx,
      ← Nat.cast_succ, hy, Option.bind_some, Option.bind_some]
    exact hput
  obtain ⟨cur', hexec, hcur'⟩ := exists_exec_reverse_range
    (I := fun j ↦ Entries d.width (Split j (d.Right (i + 1)) (d.Right i))) hstep hcur₁
  refine ⟨cur', ?_, entries_split_zero_iff.1 hcur'⟩
  rw [row, ← hlast, get_eq (by omega) (by omega), Option.bind_eq_bind, Option.bind_some, hx,
    Option.bind_some, hput, Option.bind_eq_bind, Option.bind_some]
  exact hexec

/-- **The least health** with which some path is survived is returned. -/
theorem calculateMinimumHP_eq (d : Dungeon) :
    ∃ h, calculateMinimumHP d.rows = some h ∧
      IsLeast {h | 1 ≤ h ∧ ∃ path, Path d.Move d.bottomRight (0, 0) path ∧
        Survives h (path.map d.value)} h := by
  have hheight := d.height_pos
  have hwidth := d.width_pos
  have hlast : ((d.width - 1 : ℕ) : ℤ) = d.width - 1 := by omega
  have hlast' : ((d.rows.length - 1 : ℕ) : ℤ) = d.rows.length - 1 := by omega
  obtain ⟨first, hfirst, hlen, -⟩ := exists_row (d := d) hheight
  obtain ⟨cur, hcur, hvalues⟩ := exists_row (d := d) (Nat.sub_lt hheight Nat.one_pos)
  obtain ⟨x, hx, rfl⟩ := hvalues.exists_get (Int.natCast_nonneg (d.width - 1)) (by omega)
  obtain ⟨cur₁, hput, hcur₁⟩ := Entries.put_down (k := (d.width - 1 : ℕ))
    (hvalues.congr fun k y _ hk hy ↦ ⟨fun _ ↦ hy, fun hle ↦ by omega⟩)
    (Int.natCast_nonneg _) (by omega) right_bottomRight
  obtain ⟨cur₂, hexec, hcur₂⟩ := exec_fillLast hcur₁
  obtain ⟨cur₃, hexec', hcur₃⟩ := exists_exec_reverse_range
    (I := fun i ↦ Entries d.width (d.Right i)) (fun i s hi hs ↦ row_spec (by omega) hs) hcur₂
  obtain ⟨h, hh, hneed⟩ := hcur₃.exists_get le_rfl (by omega)
  refine ⟨h + 1, ?_, hneed.isLeast⟩
  rw [Nat.cast_zero] at hfirst
  rw [Int.toNat_natCast] at hx
  rw [bottomRight] at hput
  rw [calculateMinimumHP, hfirst, Option.bind_eq_bind, Option.bind_some, ← hlast', hcur,
    Option.bind_eq_bind, Option.bind_some, hlen, ← hlast, hx, Option.bind_some, hput,
    Option.bind_some, hexec, Option.bind_some, countdown, hexec', Option.bind_some, hh,
    Option.bind_some]

/-- The dungeon of `main`. -/
def mainDungeon : Dungeon where
  rows := [[-2, -3, 3], [-5, -10, 1], [10, 30, -5]]
  width := 3
  height_pos := by decide
  width_pos := by decide
  rectangular := by decide

/-- In the dungeon of `main` the least health is 7. -/
theorem calculateMinimumHP_eq_main : IsLeast {h | 1 ≤ h ∧ ∃ path,
    Path mainDungeon.Move mainDungeon.bottomRight (0, 0) path ∧
      Survives h (path.map mainDungeon.value)} 7 := by
  obtain ⟨h, hh, hleast⟩ := calculateMinimumHP_eq mainDungeon
  have hseven : calculateMinimumHP mainDungeon.rows = some 7 := by decide +kernel
  obtain rfl := Option.some.inj (hh.symm.trans hseven)
  exact hleast

end Dungeon

end DungeonGame
