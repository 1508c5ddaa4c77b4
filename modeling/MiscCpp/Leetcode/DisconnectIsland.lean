import MiscCpp.Library.CInt
import MiscCpp.Library.Islands
import MiscCpp.Library.Machine

/-!
# Disconnecting an island

`minDays` of `leetcode/graph/disconnectIsland.cc`, with the counters of the cells, the trials on the
grid itself and the conversion of the sizes to `int`.

The recursion follows the flood fill of the land that the loops visit (`dfs_spec`), so
`disconnected` decides whether that land has exactly one island (`disconnected_spec`). A trial that
fails leaves the grid as it was, and two removals are always enough: so the answer is right for the
part of the grid that the converted sizes give (`exists_minDaysSized`).

The product of the sizes is an `int`: `minDays` is not defined for a grid of 46341 rows and columns.
-/

open FloodFill Islands Machine

namespace DisconnectIsland

/-! ### The program -/

abbrev Rows := List (List ℤ)

/-- `grid[y][x]` -/
def get (grid : Rows) (c : Cell) : Option ℤ :=
  if 0 ≤ c.1 ∧ 0 ≤ c.2 then grid[c.2.toNat]?.bind (·[c.1.toNat]?) else none

/-- `grid[y][x] = v` -/
def put (grid : Rows) (c : Cell) (v : ℤ) : Option Rows :=
  (get grid c).map fun _ ↦ grid.modify c.2.toNat (·.set c.1.toNat v)

def dirs : List ℤ := [0, 1, 0, -1, 0]

/-- The cells `x + dirs[i]`, `y + dirs[i + 1]`. -/
def next (c : Cell) : List Cell := List.zipWith (fun dx dy ↦ (c.1 + dx, c.2 + dy)) dirs dirs.tail

/-- `y * m + x` -/
def index (m : ℤ) (c : Cell) : ℕ := (c.2 * m + c.1).toNat

/-- The calls nest less deeply than `fuel`. -/
def dfs (grid : Rows) (n m : ℤ) : ℕ → List ℕ → Cell → Option (List ℕ)
  | 0, _, _ => none
  | fuel + 1, seen, c => do
    if c.1 < 0 ∨ c.2 < 0 ∨ m ≤ c.1 ∨ n ≤ c.2 then some seen
    else if (← get grid c) = 0 then some seen
    else
      let count ← seen[index m c]?
      let seen := seen.set (index m c) (count + 1)
      if count ≠ 0 then some seen else exec (dfs grid n m fuel) seen (next c)

/-- The cells that the two loops visit. -/
def cells (n m : ℤ) : List Cell :=
  (List.range n.toNat).flatMap fun (y : ℕ) ↦ (List.range m.toNat).map fun (x : ℕ) ↦ (↑x, ↑y)

/-- `disconnected` from the cells on that are left. -/
def scan (grid : Rows) (n m : ℤ) : List Cell → List ℕ → ℕ → Option Bool
  | [], _, count => some (count = 0)
  | c :: rest, seen, count => do
    if (← get grid c) = 0 then scan grid n m rest seen count
    else if (← seen[index m c]?) ≠ 0 then scan grid n m rest seen count
    else
      let seen ← dfs grid n m (seen.length + 1) seen c
      if 1 < count + 1 then some true else scan grid n m rest seen (count + 1)

/-- Whether the grid does not have exactly one island. -/
def disconnected (grid : Rows) (n m : ℤ) : Option Bool :=
  scan grid n m (cells n m) (List.replicate (n * m).toNat 0) 0

/-- The trials of one removal. -/
def tryCells (n m : ℤ) : List Cell → Rows → Option (ℕ × Rows)
  | [], grid => some (2, grid)
  | c :: rest, grid => do
    if (← get grid c) = 0 then tryCells n m rest grid
    else
      let grid ← put grid c 0
      if ← disconnected grid n m then some (1, grid) else tryCells n m rest (← put grid c 1)

/-- The size `n * m` of `seen` neither overflows nor is negative. -/
def Fits (n m : CInt) : Prop := 0 ≤ n.1 * m.1 ∧ n.1 * m.1 < 2 ^ 31

instance (n m : CInt) : Decidable (Fits n m) := inferInstanceAs (Decidable (_ ∧ _))

/-- The function for the sizes `n` and `m`: the result, and the grid that is left. -/
def minDaysSized (grid : Rows) (n m : CInt) : Option (ℕ × Rows) := do
  if Fits n m then
    if ← disconnected grid n.1 m.1 then some (0, grid)
    else tryCells n.1 m.1 (cells n.1 m.1) grid
  else none

/-- `n = grid.size(), m = grid[0].size()` -/
def minDays (grid : Rows) : Option (ℕ × Rows) := do
  minDaysSized grid (CInt.wrap grid.length) (CInt.wrap (← grid[0]?).length)

example : (minDays [[1, 1, 0, 1], [1, 0, 0, 1], [1, 1, 1, 1]]).map Prod.fst = some 1 := by decide

/-! ### The cells visited -/

/-- The cell is in the grid. -/
def Inside (n m : ℤ) (c : Cell) : Prop := 0 ≤ c.1 ∧ 0 ≤ c.2 ∧ c.1 < m ∧ c.2 < n

variable {grid grid' : Rows} {n m : ℤ} {c d : Cell}

theorem mem_cells : c ∈ cells n m ↔ Inside n m c := by
  rw [cells, List.mem_flatMap]
  constructor
  · rintro ⟨y, hy, hc⟩
    obtain ⟨x, hx, rfl⟩ := List.mem_map.1 hc
    rw [List.mem_range] at hx hy
    refine ⟨?_, ?_, ?_, ?_⟩ <;> simp only <;> omega
  · rintro ⟨hx, hy, hxm, hyn⟩
    refine ⟨c.2.toNat, List.mem_range.2 (by omega), List.mem_map.2
      ⟨c.1.toNat, List.mem_range.2 (by omega), Prod.ext (Int.toNat_of_nonneg hx)
        (Int.toNat_of_nonneg hy)⟩⟩

theorem Inside.row_nonneg (hc : Inside n m c) : 0 ≤ c.2 * m :=
  Int.mul_nonneg hc.2.1 (Int.le_trans hc.1 (Int.le_of_lt hc.2.2.1))

theorem index_lt (hc : Inside n m c) : index m c < (n * m).toNat := by
  have hrow := hc.row_nonneg
  obtain ⟨hx, hy, hxm, hyn⟩ := hc
  have hle : (c.2 + 1) * m ≤ n * m := Int.mul_le_mul_of_nonneg_right (by omega) (by omega)
  rw [Int.add_mul, Int.one_mul] at hle
  rw [index]
  omega

theorem index_inj (hc : Inside n m c) (hd : Inside n m d) (h : index m c = index m d) : c = d := by
  have hcrow := hc.row_nonneg
  have hdrow := hd.row_nonneg
  obtain ⟨hcx, -, hcm, -⟩ := hc
  obtain ⟨hdx, -, hdm, -⟩ := hd
  have heq : c.1 + m * c.2 = d.1 + m * d.2 := by
    rw [index, index] at h
    rw [Int.mul_comm m, Int.mul_comm m]
    omega
  have hx : c.1 = d.1 := by
    have hmod := congrArg (· % m) heq
    simpa only [Int.add_mul_emod_self_left, Int.emod_eq_of_lt hcx hcm,
      Int.emod_eq_of_lt hdx hdm] using hmod
  refine Prod.ext hx (Int.eq_of_mul_eq_mul_left (by omega : m ≠ 0) ?_)
  omega

theorem next_eq (c : Cell) : next c = beside c := by
  simp [next, dirs, beside, Int.sub_eq_add_neg]

/-- The land that the loops visit. -/
def land (grid : Rows) (n m : ℤ) : Finset Cell :=
  (cells n m).toFinset.filter fun c ↦ get grid c = some 1

theorem mem_land : c ∈ land grid n m ↔ Inside n m c ∧ get grid c = some 1 := by
  rw [land, Finset.mem_filter, List.mem_toFinset, mem_cells]

/-- The cells visited are cells of the grid, with a `0` or a `1`. -/
def Binary (grid : Rows) (n m : ℤ) : Prop :=
  ∀ c, Inside n m c → get grid c = some 0 ∨ get grid c = some 1

theorem Binary.get_eq (hgrid : Binary grid n m) (hc : Inside n m c) (hwater : c ∉ land grid n m) :
    get grid c = some 0 :=
  (hgrid c hc).resolve_right fun h ↦ hwater (mem_land.2 ⟨hc, h⟩)

theorem card_land_le : (land grid n m).card ≤ (n * m).toNat := by
  rw [← Finset.card_range (n * m).toNat]
  refine Finset.card_le_card_of_injOn (index m)
    (fun c hc ↦ Finset.mem_range.2 (index_lt (mem_land.1 hc).1)) fun c hc d hd h ↦ ?_
  exact index_inj (mem_land.1 hc).1 (mem_land.1 hd).1 h

/-! ### The recursion -/

variable {seen : List ℕ} {marked marked' : Finset Cell}

/-- The counters show which cells are marked. -/
structure Shows (n m : ℤ) (seen : List ℕ) (marked : Finset Cell) : Prop where
  length : seen.length = (n * m).toNat
  ne_zero_iff : ∀ c, Inside n m c → ∀ k, seen[index m c]? = some k → (k ≠ 0 ↔ c ∈ marked)

theorem shows_initial : Shows n m (List.replicate (n * m).toNat 0) ∅ where
  length := List.length_replicate
  ne_zero_iff c _ k hk := by
    obtain ⟨_, rfl⟩ := List.getElem?_eq_some_iff.1 hk
    rw [List.getElem_replicate]
    exact iff_of_false (not_not_intro rfl) (Finset.notMem_empty c)

theorem Shows.exists_count (h : Shows n m seen marked) (hc : Inside n m c) :
    ∃ k, seen[index m c]? = some k ∧ (k ≠ 0 ↔ c ∈ marked) := by
  have hlt : index m c < seen.length := by
    rw [h.length]
    exact index_lt hc
  exact ⟨_, List.getElem?_eq_getElem hlt, h.ne_zero_iff c hc _ (List.getElem?_eq_getElem hlt)⟩

/-- An increment marks the cell. -/
theorem Shows.incr (h : Shows n m seen marked) (hc : Inside n m c) (k : ℕ) :
    Shows n m (seen.set (index m c) (k + 1)) (insert c marked) where
  length := by rw [List.length_set, h.length]
  ne_zero_iff d hd j hj := by
    rw [Finset.mem_insert]
    by_cases hdc : d = c
    · subst hdc
      rw [List.getElem?_set_self (by rw [h.length]; exact index_lt hc), Option.some.injEq] at hj
      exact iff_of_true (by omega) (.inl rfl)
    · rw [List.getElem?_set_ne fun heq ↦ hdc (index_inj hd hc heq.symm)] at hj
      rw [h.ne_zero_iff d hd j hj, or_iff_right hdc]

/-- **The recursion** follows the flood fill. -/
theorem dfs_spec (hgrid : Binary grid n m) {fuel : ℕ} (h : Shows n m seen marked)
    (hfill : fill beside (land grid n m) fuel marked c = some marked') :
    ∃ seen', dfs grid n m fuel seen c = some seen' ∧ Shows n m seen' marked' := by
  induction fuel generalizing seen marked marked' c with
  | zero => cases hfill
  | succ fuel ih =>
    rw [fill] at hfill
    rw [dfs]
    by_cases hout : c.1 < 0 ∨ c.2 < 0 ∨ m ≤ c.1 ∨ n ≤ c.2
    · have hwater : c ∉ land grid n m := fun hc ↦ by
        obtain ⟨⟨hx, hy, hxm, hyn⟩, -⟩ := mem_land.1 hc
        omega
      rw [if_pos hwater, Option.some.injEq] at hfill
      exact ⟨seen, if_pos hout, hfill ▸ h⟩
    have hin : Inside n m c := ⟨by omega, by omega, by omega, by omega⟩
    rw [if_neg hout]
    by_cases hland : c ∈ land grid n m
    · obtain ⟨k, hk, hmarked⟩ := h.exists_count hin
      rw [if_neg (not_not_intro hland)] at hfill
      rw [(mem_land.1 hland).2]
      simp only [Option.bind_eq_bind, Option.bind_some, hk, if_neg one_ne_zero, next_eq]
      by_cases hc : c ∈ marked
      · -- a marked cell is counted once more, which marks nothing
        rw [if_pos hc, Option.some.injEq] at hfill
        have hincr := h.incr hin k
        rw [Finset.insert_eq_of_mem hc, hfill] at hincr
        exact ⟨_, if_pos (hmarked.2 hc), hincr⟩
      · rw [if_neg hc] at hfill
        rw [if_neg (mt hmarked.1 hc)]
        have hstep : ∀ seen marked c marked', Shows n m seen marked →
            fill beside (land grid n m) fuel marked c = some marked' →
              ∃ seen', dfs grid n m fuel seen c = some seen' ∧ Shows n m seen' marked' :=
          fun _ _ _ _ ↦ ih
        exact exec_simulates hstep (h.incr hin k) hfill
    · rw [if_pos hland, Option.some.injEq] at hfill
      rw [hgrid.get_eq hin hland]
      simp only [Option.bind_eq_bind, Option.bind_some, if_pos]
      exact ⟨seen, rfl, hfill ▸ h⟩

/-! ### The islands -/

/-- **The loops of `disconnected`** from the cells on that are left. -/
theorem scan_spec (hgrid : Binary grid n m) {rest : List Cell} {count : ℕ}
    (hrest : ∀ c ∈ rest, Inside n m c) (h : Shows n m seen marked)
    (hcount : Counted (land grid n m) rest marked count) :
    ∃ b, scan grid n m rest seen count = some b ∧ (b = true ↔ Disconnected (land grid n m)) := by
  induction rest generalizing seen marked count with
  | nil => exact ⟨_, rfl, decide_eq_true_iff.trans hcount.disconnected_iff⟩
  | cons c rest ih =>
    have hin := hrest c List.mem_cons_self
    have hrest' : ∀ c ∈ rest, Inside n m c := fun c hc ↦ hrest c (List.mem_cons_of_mem _ hc)
    obtain ⟨k, hk, hmarked⟩ := h.exists_count hin
    rw [scan]
    by_cases hland : c ∈ land grid n m
    · rw [(mem_land.1 hland).2]
      simp only [Option.bind_eq_bind, Option.bind_some, hk, if_neg one_ne_zero]
      by_cases hc : c ∈ marked
      · rw [if_pos (hmarked.2 hc)]
        exact ih hrest' h (hcount.skip (.inr hc))
      · have hfuel : (land grid n m \ marked).card < seen.length + 1 := by
          rw [h.length]
          exact Nat.lt_succ_of_le ((Finset.card_le_card Finset.sdiff_subset).trans card_land_le)
        obtain ⟨marked', hfill, F⟩ := fill_spec hfuel c
        obtain ⟨seen', hdfs, h'⟩ := dfs_spec hgrid h hfill
        rw [if_neg (mt hmarked.1 hc), hdfs, Option.bind_some]
        obtain ⟨rfl, hcount'⟩ | ⟨rfl, hdisc⟩ := hcount.fill hland hc F
        · -- the first island
          rw [if_neg (by omega)]
          exact ih hrest' h' hcount'
        · exact ⟨true, if_pos (by omega), iff_of_true rfl hdisc⟩
    · rw [hgrid.get_eq hin hland]
      simp only [Option.bind_eq_bind, Option.bind_some, if_pos]
      exact ih hrest' h (hcount.skip (.inl hland))

/-- **`disconnected`** decides whether there is exactly one island. -/
theorem disconnected_spec (hgrid : Binary grid n m) :
    ∃ b, disconnected grid n m = some b ∧ (b = true ↔ Disconnected (land grid n m)) :=
  scan_spec hgrid (fun _ ↦ mem_cells.1) shows_initial
    (.none fun _ hc ↦ mem_cells.2 (mem_land.1 hc).1)

/-! ### The trials -/

theorem get_eq_some {v : ℤ} (h : get grid c = some v) : (0 ≤ c.1 ∧ 0 ≤ c.2) ∧
    ∃ row, grid[c.2.toNat]? = some row ∧ row[c.1.toNat]? = some v := by
  obtain ⟨hnn, h⟩ := Option.ite_none_right_eq_some.1 h
  exact ⟨hnn, Option.bind_eq_some_iff.1 h⟩

/-- A write changes one cell, and writing the old value brings the grid back. -/
theorem put_spec {w : ℤ} (h : get grid c = some w) (v : ℤ) :
    ∃ grid', put grid c v = some grid' ∧ get grid' c = some v ∧
      (∀ d, d ≠ c → get grid' d = get grid d) ∧ put grid' c w = some grid := by
  obtain ⟨hnn, row, hrow, hw⟩ := get_eq_some h
  obtain ⟨hx, hxw⟩ := List.getElem?_eq_some_iff.1 hw
  have hget : get (grid.modify c.2.toNat (·.set c.1.toNat v)) c = some v := by
    rw [get, if_pos hnn, List.getElem?_modify_eq, hrow]
    exact List.getElem?_set_self hx
  refine ⟨_, by rw [put, h, Option.map_some], hget, fun d hd ↦ ?_, ?_⟩
  · by_cases hdnn : 0 ≤ d.1 ∧ 0 ≤ d.2
    · rw [get, get, if_pos hdnn, if_pos hdnn]
      by_cases hy : c.2.toNat = d.2.toNat
      · have hxd : c.1.toNat ≠ d.1.toNat := fun hx ↦ hd (Prod.ext (by omega) (by omega))
        rw [← hy, List.getElem?_modify_eq, hrow]
        exact List.getElem?_set_ne hxd
      · rw [List.getElem?_modify_ne _ _ hy]
    · rw [get, get, if_neg hdnn, if_neg hdnn]
  · rw [put, hget, Option.map_some, List.modify_modify_eq]
    refine congrArg some (List.ext_getElem? fun y ↦ ?_)
    by_cases hy : c.2.toNat = y
    · rw [← hy, List.getElem?_modify_eq, hrow]
      refine congrArg some ?_
      rw [Function.comp_apply, List.set_set, ← hxw, List.set_getElem_self]
    · rw [List.getElem?_modify_ne _ _ hy]

/-- A trial: the cell is water until it is put back. -/
theorem put_zero_spec (hgrid : Binary grid n m) (hland : c ∈ land grid n m) :
    ∃ grid', put grid c 0 = some grid' ∧ Binary grid' n m ∧
      land grid' n m = (land grid n m).erase c ∧ put grid' c 1 = some grid := by
  obtain ⟨grid', hput, hself, hother, hback⟩ := put_spec (mem_land.1 hland).2 0
  refine ⟨grid', hput, fun d hd ↦ ?_, ?_, hback⟩
  · rcases eq_or_ne d c with rfl | hdc
    · exact .inl hself
    · rw [hother d hdc]
      exact hgrid d hd
  · ext d
    rw [Finset.mem_erase, mem_land, mem_land]
    rcases eq_or_ne d c with rfl | hdc
    · rw [hself]
      simp
    · rw [hother d hdc]
      simp [hdc]

/-- **The last line**: no trial is left, or one succeeds. -/
theorem tryCells_spec (hgrid : Binary grid n m) (hone : ¬ Disconnected (land grid n m))
    {rest : List Cell} (hrest : ∀ c ∈ rest, Inside n m c)
    (htried : ∀ c ∈ land grid n m, c ∈ rest ∨ ¬ Disconnected ((land grid n m).erase c)) :
    ∃ grid', tryCells n m rest grid = some (need (land grid n m), grid') := by
  induction rest with
  | nil =>
    rw [need_eq_two hone fun c hc ↦ (htried c hc).resolve_left List.not_mem_nil]
    exact ⟨grid, rfl⟩
  | cons c rest ih =>
    have hin := hrest c List.mem_cons_self
    have hrest' : ∀ c ∈ rest, Inside n m c := fun c hc ↦ hrest c (List.mem_cons_of_mem _ hc)
    rw [tryCells]
    by_cases hland : c ∈ land grid n m
    · obtain ⟨grid', hput, hgrid', hland', hback⟩ := put_zero_spec hgrid hland
      obtain ⟨b, hb, hdisc⟩ := disconnected_spec hgrid'
      rw [hland'] at hdisc
      rw [(mem_land.1 hland).2]
      simp only [Option.bind_eq_bind, Option.bind_some, if_neg one_ne_zero, hput, hb]
      cases b with
      | true =>
        rw [need_eq_one hone hland (hdisc.1 rfl)]
        exact ⟨grid', rfl⟩
      | false =>
        -- the grid is the old one again, with one trial less to make
        rw [if_neg Bool.false_ne_true, hback, Option.bind_some]
        refine ih hrest' fun d hd ↦ ?_
        rcases htried d hd with hmem | hfails
        · rcases List.mem_cons.1 hmem with rfl | hmem
          · exact .inr fun h ↦ Bool.false_ne_true (hdisc.2 h)
          · exact .inl hmem
        · exact .inr hfails
    · rw [hgrid.get_eq hin hland]
      simp only [Option.bind_eq_bind, Option.bind_some, if_pos]
      refine ih hrest' fun d hd ↦ (htried d hd).imp_left fun hmem ↦ ?_
      exact (List.mem_cons.1 hmem).resolve_left fun heq ↦ hland (heq ▸ hd)

/-- **The function** is right for the land that its loops visit. -/
theorem exists_minDaysSized {n m : CInt} (hgrid : Binary grid n.1 m.1) (h : Fits n m) :
    ∃ grid', minDaysSized grid n m = some (need (land grid n.1 m.1), grid') := by
  obtain ⟨b, hb, hdisc⟩ := disconnected_spec hgrid
  rw [minDaysSized, if_pos h, hb]
  cases b with
  | true =>
    rw [need_eq_zero (hdisc.1 rfl)]
    exact ⟨grid, rfl⟩
  | false =>
    exact tryCells_spec hgrid (fun h ↦ Bool.false_ne_true (hdisc.2 h)) (fun _ ↦ mem_cells.1)
      fun c hc ↦ .inl (mem_cells.2 (mem_land.1 hc).1)

/-! ### The answer -/

/-- A grid with rows of one width, of zeros and ones. -/
structure Grid where
  rows : Rows
  width : ℕ
  rows_pos : 0 < rows.length
  width_pos : 0 < width
  rectangular : ∀ row ∈ rows, row.length = width
  binary : ∀ row ∈ rows, ∀ v ∈ row, v = 0 ∨ v = 1

namespace Grid

variable (g : Grid)

def land : Finset Cell := DisconnectIsland.land g.rows g.rows.length g.width

/-- `n` -/
def height : CInt := CInt.wrap g.rows.length

/-- `m` -/
def columns : CInt := CInt.wrap g.width

/-- The land in the part of the grid that the sizes as `int` give. -/
def part : Finset Cell := DisconnectIsland.land g.rows g.height.1 g.columns.1

variable {g}

theorem binary_of_le {n m : ℤ} (hn : n ≤ g.rows.length) (hm : m ≤ g.width) :
    Binary g.rows n m := by
  rintro c ⟨hx, hy, hxm, hyn⟩
  have hylt : c.2.toNat < g.rows.length := by omega
  have hrow := List.getElem_mem hylt
  have hxlt : c.1.toNat < g.rows[c.2.toNat].length := by
    rw [g.rectangular _ hrow]
    omega
  have hget : get g.rows c = some g.rows[c.2.toNat][c.1.toNat] := by
    rw [get, if_pos ⟨hx, hy⟩, List.getElem?_eq_getElem hylt, Option.bind_some,
      List.getElem?_eq_getElem hxlt]
  rw [hget]
  exact (g.binary _ hrow _ (List.getElem_mem hxlt)).imp (congrArg some) (congrArg some)

theorem minDays_eq : minDays g.rows = minDaysSized g.rows g.height g.columns := by
  rw [minDays, List.getElem?_eq_getElem g.rows_pos, Option.bind_eq_bind, Option.bind_some,
    g.rectangular _ (List.getElem_mem g.rows_pos), height, columns]

theorem exists_minDays (h : Fits g.height g.columns) :
    ∃ grid', minDays g.rows = some (need g.part, grid') := by
  rw [minDays_eq]
  exact exists_minDaysSized (g.binary_of_le (CInt.wrap_le (Int.natCast_nonneg _))
    (CInt.wrap_le (Int.natCast_nonneg _))) h

theorem fits_of_minDays {result : ℕ × Rows} (h : minDays g.rows = some result) :
    Fits g.height g.columns := by
  rw [minDays_eq] at h
  exact (Option.ite_none_right_eq_some.1 h).1

/-- `minDays` returns the least number of cells whose removal leaves the grid without exactly one
island, and it is at most two. -/
def MinDaysRight (g : Grid) : Prop :=
  ∃ days grid', minDays g.rows = some (days, grid') ∧ IsLeast (removals g.land) days ∧ days ≤ 2

/-- With sizes that are an `int` the part is the grid. -/
theorem part_eq_land (hrows : g.rows.length < 2 ^ 31) (hwidth : g.width < 2 ^ 31) :
    g.part = g.land := by
  rw [part, land, height, columns, CInt.wrap_of_lt (Int.natCast_nonneg _) (by omega),
    CInt.wrap_of_lt (Int.natCast_nonneg _) (by omega)]

/-- **Exactly when `minDays` is right**: the size of `seen` is an `int`, and the part of the grid
that the converted sizes give needs as many removals as the grid. -/
theorem minDaysRight_iff (g : Grid) :
    g.MinDaysRight ↔ Fits g.height g.columns ∧ need g.part = need g.land := by
  constructor
  · rintro ⟨days, grid', h, hleast, -⟩
    have hfits := fits_of_minDays h
    obtain ⟨grid'', hpart⟩ := exists_minDays hfits
    obtain ⟨rfl, -⟩ := Prod.ext_iff.1 (Option.some.inj (h.symm.trans hpart))
    exact ⟨hfits, hleast.unique (isLeast_need g.land)⟩
  · rintro ⟨hfits, hneed⟩
    obtain ⟨grid', h⟩ := exists_minDays hfits
    rw [hneed] at h
    exact ⟨_, grid', h, isLeast_need g.land, need_le_two g.land⟩

/-- A grid of water. -/
def sea (height width : ℕ) (hheight : 0 < height) (hwidth : 0 < width) : Grid where
  rows := List.replicate height (List.replicate width 0)
  width := width
  rows_pos := by rwa [List.length_replicate]
  width_pos := hwidth
  rectangular row hrow := by rw [List.eq_of_mem_replicate hrow, List.length_replicate]
  binary row hrow v hv := by
    rw [List.eq_of_mem_replicate hrow] at hv
    exact .inl (List.eq_of_mem_replicate hv)

/-- The number of the cells overflows. -/
theorem not_forall_minDaysRight : ¬ ∀ g : Grid, g.MinDaysRight := by
  intro hall
  obtain ⟨days, grid', h, -⟩ := hall (sea 46341 46341 (by decide) (by decide))
  obtain ⟨-, hlt⟩ := fits_of_minDays h
  rw [height, columns, sea, List.length_replicate, CInt.wrap_of_lt (by decide) (by decide)] at hlt
  exact absurd hlt (by decide)

end Grid

end DisconnectIsland
