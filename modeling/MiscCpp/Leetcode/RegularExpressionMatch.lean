import MiscCpp.Library.CInt
import MiscCpp.Library.ItemPattern
import MiscCpp.Library.Machine
import MiscCpp.Library.TwoDimensional

/-!
# Regular expression matching

`isMatch_DP` and `isMatch_recursive` of `leetcode/DP/regularExpressionMatch.cc`, with the table, the
bounds of the strings and the conversion of their sizes to `int`.

The pattern is read as a sequence of items (`items`), and both functions are compared with the
language of these. The table is filled so that its entries are those of the prefixes
(`cell_eq`, from the last item of a prefix), the recursion goes through the suffixes
(`isMatchRecursive_eq`, from the first item).
-/

open ItemPattern Machine

namespace RegularExpressionMatch

/-- `s[i]`; at `s.size()` there is a null character. -/
def charAt (s : List Char) (i : ℤ) : Option Char :=
  if 0 ≤ i then if i.toNat = s.length then some (Char.ofNat 0) else s[i.toNat]? else none

/-- `s[i] == p[j] || p[j] == '.'` -/
def fits (c x : Char) : Bool := c == x || x == '.'

/-! ### The table -/

abbrev Table := List (List Bool)

/-- `dp[i][j]` -/
def Table.get (dp : Table) (i j : ℤ) : Option Bool :=
  if 0 ≤ i ∧ 0 ≤ j then dp[i.toNat]?.bind (·[j.toNat]?) else none

/-- `dp[i][j] = b` -/
def Table.put (dp : Table) (i j : ℤ) (b : Bool) : Option Table :=
  (dp.get i j).map fun _ ↦ dp.modify i.toNat (·.set j.toNat b)

/-- `vector<vector<bool>> dp(m + 1, vector<bool>(n + 1, false))` -/
def newTable (m n : CInt) : Option Table := do
  let rows ← m.incr
  let columns ← n.incr
  if 0 ≤ rows.1 ∧ 0 ≤ columns.1 then
    some (List.replicate rows.1.toNat (List.replicate columns.1.toNat false))
  else none

/-- `j > 1 && p[j - 1] == '*' && dp[0][j - 2]` -/
def emptyCell (p : List Char) (dp : Table) (j : ℤ) : Option Bool :=
  if 1 < j then do
    if (← charAt p (j - 1)) = '*' then dp.get 0 (j - 2) else some false
  else some false

/-- What is assigned to `dp[i][j]` in the second loop. -/
def cell (s p : List Char) (dp : Table) (i j : ℤ) : Option Bool := do
  if (← charAt p (j - 1)) ≠ '*' then
    if ← dp.get (i - 1) (j - 1) then
      some (fits (← charAt s (i - 1)) (← charAt p (j - 1)))
    else some false
  else if ← dp.get i (j - 2) then some true
  else if ← dp.get (i - 1) j then
    some (fits (← charAt s (i - 1)) (← charAt p (j - 2)))
  else some false

/-- The first loop. -/
def fillFirst (p : List Char) (n : CInt) (dp : Table) : Option Table :=
  exec (fun dp (k : ℕ) ↦ do dp.put 0 (k + 1) (← emptyCell p dp (k + 1))) dp (List.range n.1.toNat)

/-- The inner loop for one `i`. -/
def fillRow (s p : List Char) (n : CInt) (dp : Table) (i : ℤ) : Option Table :=
  exec (fun dp (k : ℕ) ↦ do dp.put i (k + 1) (← cell s p dp i (k + 1))) dp (List.range n.1.toNat)

/-- The function for the sizes `m` and `n`. -/
def matchTable (s p : List Char) (m n : CInt) : Option Bool := do
  let dp ← newTable m n
  let dp ← dp.put 0 0 true
  let dp ← fillFirst p n dp
  let dp ← exec (fun dp (k : ℕ) ↦ fillRow s p n dp (k + 1)) dp (List.range m.1.toNat)
  dp.get m.1 n.1

/-- `int m = s.size(), n = p.size()` -/
def isMatchDP (s p : List Char) : Option Bool :=
  matchTable s p (CInt.wrap s.length) (CInt.wrap p.length)

/-! ### The recursion -/

/-- `s.substr(pos)` -/
def substr (s : List Char) (pos : ℕ) : Option (List Char) :=
  if pos ≤ s.length then some (s.drop pos) else none

/-- `!s.empty() && (s[0] == p[0] || p[0] == '.')` -/
def headFits (s p : List Char) : Option Bool := do
  if s.isEmpty then some false else some (fits (← charAt s 0) (← charAt p 0))

/-- The calls nest less deeply than `fuel`. -/
def isMatchRecursive : ℕ → List Char → List Char → Option Bool
  | 0, _, _ => none
  | fuel + 1, s, p => do
    if p.isEmpty then some s.isEmpty
    else if (← charAt p 1) = '*' then
      if ← isMatchRecursive fuel s (← substr p 2) then some true
      else if ← headFits s p then isMatchRecursive fuel (← substr s 1) p
      else some false
    else if ← headFits s p then isMatchRecursive fuel (← substr s 1) (← substr p 1)
    else some false

example : isMatchDP ['a', 'a', 'b'] ['c', '*', 'a', '*', 'b', '*'] = some true := by decide

example : isMatchRecursive 8 ['a', 'a', 'b'] ['c', '*', 'a', '*', 'b', '*'] = some true := by decide

/-! ### The language -/

/-- Each `*` is preceded by a character other than `*`. -/
def WellFormed (p : List Char) : Prop :=
  ∀ i, p[i]? = some '*' → ∃ j x, i = j + 1 ∧ p[j]? = some x ∧ x ≠ '*'

/-- The items of a pattern. -/
def items : List Char → List (Item Char)
  | [] => []
  | x :: '*' :: p => .many (fits · x) :: items p
  | x :: p => .one (fits · x) :: items p

def Matches (s p : List Char) : Prop := s ∈ language (items p)

theorem items_cons_of_ne {x y : Char} (hy : y ≠ '*') (p : List Char) :
    items (x :: y :: p) = .one (fits · x) :: items (y :: p) := by
  rw [items]
  rintro p' h
  exact hy (List.cons.inj h).1

theorem items_concat_one {x : Char} (hx : x ≠ '*') (p : List Char) :
    items (p ++ [x]) = items p ++ [.one (fits · x)] := by
  induction p using items.induct with
  | case1 => rfl
  | case2 y p ih =>
    show items (y :: '*' :: (p ++ [x])) = _
    rw [items, ih, items, List.cons_append]
  | case3 y p hy ih =>
    cases p with
    | nil => exact items_cons_of_ne hx []
    | cons z p =>
      have hz : z ≠ '*' := fun h ↦ hy p (by rw [h])
      show items (y :: z :: (p ++ [x])) = _
      rw [items_cons_of_ne hz, items_cons_of_ne hz, List.cons_append, ← ih]
      rfl

theorem items_concat_many {x : Char} (hx : x ≠ '*') (p : List Char) :
    items (p ++ [x, '*']) = items p ++ [.many (fits · x)] := by
  induction p using items.induct with
  | case1 => rfl
  | case2 y p ih =>
    show items (y :: '*' :: (p ++ [x, '*'])) = _
    rw [items, ih, items, List.cons_append]
  | case3 y p hy ih =>
    cases p with
    | nil => exact items_cons_of_ne hx ['*']
    | cons z p =>
      have hz : z ≠ '*' := fun h ↦ hy p (by rw [h])
      show items (y :: z :: (p ++ [x, '*'])) = _
      rw [items_cons_of_ne hz, items_cons_of_ne hz, List.cons_append, ← ih]
      rfl

/-! ### The entries of the table -/

theorem charAt_of_lt {s : List Char} {i : ℕ} (hi : i < s.length) : charAt s i = some s[i] := by
  rw [charAt, if_pos (Int.natCast_nonneg i), Int.toNat_natCast, if_neg hi.ne,
    List.getElem?_eq_getElem hi]

/-- The entries up to `m` and `n` are there, and those that are `done` are right. -/
def Filled (s p : List Char) (m n : ℕ) (done : ℕ → ℕ → Prop) (dp : Table) : Prop :=
  ∀ i j, i ≤ m → j ≤ n →
    ∃ b : Bool, dp.get i j = some b ∧ (done i j → (b ↔ Matches (s.take i) (p.take j)))

variable {s p : List Char} {m n : ℕ} {done : ℕ → ℕ → Prop} {dp : Table}

theorem filled_iff : Filled s p m n done dp ↔
    TwoDimensional.Filled (fun i j (b : Bool) ↦ b ↔ Matches (s.take i) (p.take j)) m n done dp :=
  Iff.rfl

theorem Filled.put (h : Filled s p m n done dp) {i j : ℕ} (hi : i ≤ m) (hj : j ≤ n) {b : Bool}
    (hb : b ↔ Matches (s.take i) (p.take j)) {done' : ℕ → ℕ → Prop}
    (hdone : ∀ i' j', done' i' j' → (i' ≠ i ∨ j' ≠ j) → done i' j') :
    ∃ dp', dp.put i j b = some dp' ∧ Filled s p m n done' dp' :=
  (filled_iff.1 h).put hi hj hb hdone

theorem matches_nil : Matches s [] ↔ s = [] := mem_language_nil

theorem matches_take_one {i j : ℕ} (hi : i < s.length) (hj : j < p.length) (hx : p[j] ≠ '*') :
    Matches (s.take (i + 1)) (p.take (j + 1)) ↔
      fits s[i] p[j] ∧ Matches (s.take i) (p.take j) := by
  rw [Matches, List.take_succ_eq_append_getElem hi, List.take_succ_eq_append_getElem hj,
    items_concat_one hx, concat_mem_one, Matches]

theorem not_matches_nil_take {j : ℕ} (hj : j < p.length) (hx : p[j] ≠ '*') :
    ¬ Matches [] (p.take (j + 1)) := by
  rw [Matches, List.take_succ_eq_append_getElem hj, items_concat_one hx]
  exact nil_not_mem_concat_one

theorem matches_take_many {j : ℕ} (hj : j + 1 < p.length) (hstar : p[j + 1] = '*')
    (hx : p[j] ≠ '*') (w : List Char) :
    Matches w (p.take (j + 2)) ↔ Matches w (p.take j) ∨
      ∃ v c, w = v ++ [c] ∧ fits c p[j] ∧ Matches v (p.take (j + 2)) := by
  have htake : p.take (j + 2) = p.take j ++ [p[j], '*'] := by
    rw [List.take_succ_eq_append_getElem hj, List.take_succ_eq_append_getElem (by omega), hstar,
      List.append_assoc, List.singleton_append]
  simp only [Matches, htake, items_concat_many hx]
  exact mem_concat_many_iff

theorem WellFormed.star (h : WellFormed p) {j : ℕ} (hj : j < p.length) (hstar : p[j] = '*') :
    ∃ k, j = k + 1 ∧ ∃ hk : k < p.length, p[k] ≠ '*' := by
  obtain ⟨k, x, rfl, hx, hne⟩ := h j (by rw [List.getElem?_eq_getElem hj, hstar])
  obtain ⟨hk, rfl⟩ := List.getElem?_eq_some_iff.1 hx
  exact ⟨k, rfl, hk, hne⟩

/-- An entry of the first row. -/
theorem emptyCell_eq (hp : WellFormed p) (h : Filled s p m n done dp) (hn : n ≤ p.length) {k : ℕ}
    (hk : k < n) (hdone : ∀ j ≤ k, done 0 j) :
    ∃ b, emptyCell p dp (k + 1) = some b ∧ (b ↔ Matches (s.take 0) (p.take (k + 1))) := by
  have hchar : charAt p (k + 1 - 1 : ℤ) = some p[k] := by
    rw [add_sub_cancel_right]
    exact charAt_of_lt (by omega)
  by_cases hx : p[k] = '*'
  · obtain ⟨j, rfl, hj, hne⟩ := hp.star (by omega) hx
    obtain ⟨b, hb, hright⟩ := h 0 j (Nat.zero_le m) (by omega)
    have hindex : ((j + 1 : ℕ) : ℤ) + 1 - 2 = j := by omega
    refine ⟨b, ?_, ?_⟩
    · rw [emptyCell, if_pos (by omega), hchar, hindex]
      simpa [hx] using hb
    · rw [hright (hdone j (by omega)), matches_take_many (by omega) hx hne]
      simp
  · refine ⟨false, ?_, iff_of_false Bool.false_ne_true (not_matches_nil_take (by omega) hx)⟩
    unfold emptyCell
    split
    · rw [hchar]
      simp [hx]
    · rfl

/-- An entry of another row. -/
theorem cell_eq (hp : WellFormed p) (h : Filled s p m n done dp) (hm : m ≤ s.length)
    (hn : n ≤ p.length) {i k : ℕ} (hi : i < m) (hk : k < n) (hprev : ∀ j ≤ n, done i j)
    (hdone : ∀ j ≤ k, done (i + 1) j) :
    ∃ b, cell s p dp (i + 1) (k + 1) = some b ∧
      (b ↔ Matches (s.take (i + 1)) (p.take (k + 1))) := by
  have hchar : charAt p (k + 1 - 1 : ℤ) = some p[k] := by
    rw [add_sub_cancel_right]
    exact charAt_of_lt (by omega)
  have hcharS : charAt s (i + 1 - 1 : ℤ) = some s[i] := by
    rw [add_sub_cancel_right]
    exact charAt_of_lt (by omega)
  by_cases hx : p[k] = '*'
  · -- the item is `p[j]` with a star: without it, or after one character that it takes
    obtain ⟨j, rfl, hj, hne⟩ := hp.star (by omega) hx
    have hindex : ((j + 1 : ℕ) : ℤ) + 1 - 2 = j := by omega
    have hcharP : charAt p (j : ℤ) = some p[j] := charAt_of_lt hj
    obtain ⟨b, hb, hright⟩ := h (i + 1) j hi (by omega)
    obtain ⟨b', hb', hright'⟩ := h i (j + 2) (by omega) hk
    have hright := hright (hdone j (by omega))
    have hright' := hright' (hprev (j + 2) hk)
    have hb : dp.get (i + 1) j = some b := hb
    have hb' : dp.get i ((j + 1 : ℕ) + 1) = some b' := hb'
    refine ⟨b || (b' && fits s[i] p[j]), ?_, ?_⟩
    · rw [cell, hchar, hcharS, hindex, add_sub_cancel_right]
      rw [hb, hb', hcharP]
      cases b <;> cases b' <;> simp [hx]
    · rw [matches_take_many (by omega) hx hne, Bool.or_eq_true, Bool.and_eq_true, hright, hright']
      refine or_congr_right ⟨fun ⟨hmatch, hfits⟩ ↦ ?_, fun ⟨v, c, hv, hfits, hmatch⟩ ↦ ?_⟩
      · exact ⟨_, _, List.take_succ_eq_append_getElem (by omega), hfits, hmatch⟩
      · rw [List.take_succ_eq_append_getElem (by omega)] at hv
        obtain ⟨rfl, hc⟩ := List.append_inj' hv rfl
        exact ⟨hmatch, List.singleton_inj.1 hc ▸ hfits⟩
  · obtain ⟨b, hb, hright⟩ := h i k (by omega) (by omega)
    have hright := hright (hprev k (by omega))
    refine ⟨b && fits s[i] p[k], ?_, ?_⟩
    · rw [cell, hchar, hcharS, add_sub_cancel_right, add_sub_cancel_right, hb]
      cases b <;> simp [hx]
    · rw [matches_take_one (by omega) (by omega) hx, Bool.and_eq_true, hright, and_comm]

/-! ### The loops -/

/-- A table is filled as well where less is asked for. -/
theorem Filled.mono (h : Filled s p m n done dp) {done' : ℕ → ℕ → Prop}
    (hdone : ∀ i j, i ≤ m → j ≤ n → done' i j → done i j) : Filled s p m n done' dp :=
  (filled_iff.1 h).mono hdone

/-- The first row of the table. -/
theorem Filled.fillFirst {n : CInt} (hp : WellFormed p) (hn : n.1.toNat ≤ p.length)
    (h : Filled s p m n.1.toNat (fun _ j ↦ j = 0) dp) :
    ∃ dp', fillFirst p n dp = some dp' ∧
      Filled s p m n.1.toNat (fun i j ↦ j = 0 ∨ i ≤ 0) dp' := by
  let I := fun (k : ℕ) ↦ Filled s p m n.1.toNat fun i j ↦ j = 0 ∨ i = 0 ∧ j ≤ k
  have hturn (k : ℕ) (dp : Table) (hk : k < n.1.toNat) (hI : I k dp) :
      ∃ dp', (do dp.put 0 (k + 1) (← emptyCell p dp (k + 1))) = some dp' ∧ I (k + 1) dp' := by
    obtain ⟨b, hb, hright⟩ := emptyCell_eq hp hI hn hk fun j hj ↦ .inr ⟨rfl, hj⟩
    have hdone (i j : ℕ) (hd : j = 0 ∨ i = 0 ∧ j ≤ k + 1) (hne : i ≠ 0 ∨ j ≠ k + 1) :
        j = 0 ∨ i = 0 ∧ j ≤ k := by omega
    obtain ⟨dp', hput, hI'⟩ := hI.put (Nat.zero_le m) hk hright hdone
    exact ⟨dp', by rw [hb]; exact hput, hI'⟩
  obtain ⟨dp', hdp', hI⟩ := exists_exec_range hturn (h.mono fun i j _ _ hd ↦ by omega)
  exact ⟨dp', hdp', hI.mono fun i j _ hj hd ↦ by omega⟩

/-- A further row of the table. -/
theorem Filled.fillRow {n : CInt} (hp : WellFormed p) (hm : m ≤ s.length)
    (hn : n.1.toNat ≤ p.length) {i : ℕ} (hi : i < m)
    (h : Filled s p m n.1.toNat (fun i' j ↦ j = 0 ∨ i' ≤ i) dp) :
    ∃ dp', fillRow s p n dp (i + 1) = some dp' ∧
      Filled s p m n.1.toNat (fun i' j ↦ j = 0 ∨ i' ≤ i + 1) dp' := by
  let I := fun (k : ℕ) ↦ Filled s p m n.1.toNat fun i' j ↦ j = 0 ∨ i' ≤ i ∨ i' = i + 1 ∧ j ≤ k
  have hturn (k : ℕ) (dp : Table) (hk : k < n.1.toNat) (hI : I k dp) :
      ∃ dp', (do dp.put (i + 1) (k + 1) (← cell s p dp (i + 1) (k + 1))) = some dp' ∧
        I (k + 1) dp' := by
    obtain ⟨b, hb, hright⟩ := cell_eq hp hI hm hn hi hk (fun j _ ↦ .inr (.inl le_rfl))
      fun j hj ↦ .inr (.inr ⟨rfl, hj⟩)
    have hdone (i' j : ℕ) (hd : j = 0 ∨ i' ≤ i ∨ i' = i + 1 ∧ j ≤ k + 1)
        (hne : i' ≠ i + 1 ∨ j ≠ k + 1) : j = 0 ∨ i' ≤ i ∨ i' = i + 1 ∧ j ≤ k := by omega
    obtain ⟨dp', hput, hI'⟩ := hI.put hi hk hright hdone
    exact ⟨dp', by rw [hb]; exact hput, hI'⟩
  obtain ⟨dp', hdp', hI⟩ := exists_exec_range hturn (h.mono fun i' j _ _ hd ↦ by omega)
  exact ⟨dp', hdp', hI.mono fun i' j _ hj hd ↦ by omega⟩

/-- The table can be made, and has an entry at the start. -/
def TableFits (n : CInt) : Prop := 0 ≤ n.1 ∧ n < CInt.INT_MAX

theorem TableFits.incr {n : CInt} (h : TableFits n) : ∃ n', n.incr = some n' ∧ n'.1 = n.1 + 1 := by
  have hlt : n.1 + 1 < 2 ^ 31 := Int.add_lt_of_lt_sub_right h.2
  exact ⟨_, dif_pos hlt, rfl⟩

theorem newTable_eq_some {m n : CInt} (hm : TableFits m) (hn : TableFits n) :
    newTable m n =
      some (List.replicate (m.1.toNat + 1) (List.replicate (n.1.toNat + 1) false)) := by
  obtain ⟨m', hm', hrows⟩ := hm.incr
  obtain ⟨n', hn', hcolumns⟩ := hn.incr
  have hm₀ := hm.1
  have hn₀ := hn.1
  simp only [newTable, hm', hn', Option.bind_eq_bind, Option.bind_some]
  rw [if_pos (by omega), hrows, hcolumns, Int.toNat_add hm₀ (by decide),
    Int.toNat_add hn₀ (by decide)]
  rfl

theorem TableFits.of_incr {n n' : CInt} (h : n.incr = some n') (hpos : 0 < n'.1) :
    TableFits n := by
  unfold CInt.incr at h
  split at h
  · rename_i hlt
    obtain rfl := Option.some.inj h
    exact ⟨Int.le_of_lt_add_one hpos, Int.lt_sub_right_of_add_lt hlt⟩
  · cases h

theorem tableFits_of_put {m n : CInt} {dp dp' : Table} (h : newTable m n = some dp)
    (hput : dp.put 0 0 true = some dp') : TableFits m ∧ TableFits n := by
  unfold newTable at h
  obtain ⟨m', hm', h⟩ := Option.bind_eq_some_iff.1 h
  obtain ⟨n', hn', h⟩ := Option.bind_eq_some_iff.1 h
  split at h
  · obtain rfl := Option.some.inj h
    rw [Table.put, Option.map_eq_some_iff] at hput
    obtain ⟨b, hb, -⟩ := hput
    have hb : _ = some b := (TwoDimensional.get_natCast _ 0 0).symm.trans hb
    obtain ⟨row, hrow, hb⟩ := Option.bind_eq_some_iff.1 hb
    obtain ⟨hrows, rfl⟩ := List.getElem?_eq_some_iff.1 hrow
    have hcolumns := (List.getElem?_eq_some_iff.1 hb).1
    rw [List.length_replicate] at hrows
    rw [List.getElem_replicate, List.length_replicate] at hcolumns
    exact ⟨.of_incr hm' (by omega), .of_incr hn' (by omega)⟩
  · cases h

/-- The table before its first row. -/
theorem filled_initial {m n : ℕ} (hm : m ≤ s.length) :
    ∃ dp, Table.put (List.replicate (m + 1) (List.replicate (n + 1) false)) 0 0 true = some dp ∧
      Filled s p m n (fun _ j ↦ j = 0) dp := by
  have hnew : Filled s p m n (fun i j ↦ j = 0 ∧ i ≠ 0)
      (List.replicate (m + 1) (List.replicate (n + 1) false)) := by
    intro i j hi hj
    refine ⟨false, TwoDimensional.get_replicate (by omega) (by omega) false,
      fun ⟨hj₀, hi₀⟩ ↦ iff_of_false Bool.false_ne_true ?_⟩
    subst hj₀
    rw [List.take_zero, matches_nil, List.take_eq_nil_iff, ← List.length_eq_zero_iff]
    omega
  refine hnew.put (Nat.zero_le m) (Nat.zero_le n) ?_ fun i j hj hne ↦ by omega
  simp [matches_nil]

/-- The table compares the parts of the strings that it is made for. -/
theorem matchTable_eq_some (hp : WellFormed p) {m n : CInt} (hm : TableFits m) (hn : TableFits n)
    (hms : m.1.toNat ≤ s.length) (hnp : n.1.toNat ≤ p.length) :
    ∃ b : Bool, matchTable s p m n = some b ∧
      (b ↔ Matches (s.take m.1.toNat) (p.take n.1.toNat)) := by
  obtain ⟨dp₀, hput, h₀⟩ := filled_initial (p := p) (n := n.1.toNat) hms
  obtain ⟨dp₁, hfirst, h₁⟩ := h₀.fillFirst hp hnp
  have hrow (i : ℕ) (dp : Table) (hi : i < m.1.toNat)
      (h : Filled s p m.1.toNat n.1.toNat (fun i' j ↦ j = 0 ∨ i' ≤ i) dp) :=
    h.fillRow hp hms hnp hi
  obtain ⟨dp₂, hrows, h₂⟩ := exists_exec_range hrow h₁
  obtain ⟨b, hb, hright⟩ := h₂ m.1.toNat n.1.toNat le_rfl le_rfl
  refine ⟨b, ?_, hright (.inr le_rfl)⟩
  rw [Int.toNat_of_nonneg hm.1, Int.toNat_of_nonneg hn.1] at hb
  simp only [matchTable, newTable_eq_some hm hn, Option.bind_eq_bind, Option.bind_some, hput,
    hfirst, hrows, hb]

/-- A table that is used has been allocated. -/
theorem tableFits_of_matchTable {m n : CInt} {b : Bool} (h : matchTable s p m n = some b) :
    TableFits m ∧ TableFits n := by
  obtain ⟨dp, hdp, h⟩ := Option.bind_eq_some_iff.1 h
  obtain ⟨dp', hput, -⟩ := Option.bind_eq_some_iff.1 h
  exact tableFits_of_put hdp hput

/-! ### The recursion against the language -/

/-- Behind a repetition the pattern is well formed. -/
theorem WellFormed.of_cons_star {x : Char} (h : WellFormed (x :: '*' :: p)) : WellFormed p := by
  intro i hi
  obtain ⟨j, y, hj, hy, hne⟩ := h (i + 2) hi
  obtain rfl : j = i + 1 := by omega
  cases i with
  | zero => exact absurd (Option.some.inj hy).symm hne
  | succ i => exact ⟨i, y, rfl, hy, hne⟩

/-- Behind a single character the pattern is well formed. -/
theorem WellFormed.of_cons {x y : Char} (h : WellFormed (x :: y :: p)) (hy : y ≠ '*') :
    WellFormed (y :: p) := by
  intro i hi
  obtain ⟨j, z, hj, hz, hne⟩ := h (i + 1) hi
  obtain rfl : j = i := by omega
  cases j with
  | zero => exact absurd (Option.some.inj hi) hy
  | succ j => exact ⟨j, z, rfl, hz, hne⟩

/-- What follows the first character of a pattern, if that is an item of its own. -/
theorem matches_cons_iff {x : Char} (hstar : p.head? ≠ some '*') :
    (Matches s (x :: p) ↔ ∃ c s', s = c :: s' ∧ fits c x ∧ Matches s' p) := by
  have hitems : items (x :: p) = .one (fits · x) :: items p := by
    cases p with
    | nil => rfl
    | cons y p => exact items_cons_of_ne (fun h ↦ hstar (by rw [h]; rfl)) p
  rw [Matches, hitems]
  cases s with
  | nil => simpa using nil_not_mem_one
  | cons c s => simp [cons_mem_one, Matches]

/-- A repetition in front stands for nothing, or it takes one character and stays. -/
theorem matches_cons_star_iff {x : Char} :
    (Matches s (x :: '*' :: p) ↔
      Matches s p ∨ ∃ c s', s = c :: s' ∧ fits c x ∧ Matches s' (x :: '*' :: p)) :=
  mem_many_iff

theorem charAt_one (x : Char) (p : List Char) :
    ∃ y, charAt (x :: p) 1 = some y ∧ (y = '*' ↔ p.head? = some '*') := by
  cases p with
  | nil => exact ⟨_, rfl, by decide⟩
  | cons y p => exact ⟨y, charAt_of_lt (s := x :: y :: p) (i := 1) (by simp), by simp⟩

/-- The call for a repetition in front. -/
theorem isMatchRecursive_star (fuel : ℕ) (s : List Char) (x : Char) (p : List Char) :
    isMatchRecursive (fuel + 1) s (x :: '*' :: p) =
      (isMatchRecursive fuel s p).bind fun b ↦
        if b then some true
        else match s with
          | [] => some false
          | c :: s' =>
            if fits c x then isMatchRecursive fuel s' (x :: '*' :: p) else some false := by
  cases s <;> rfl

/-- The call for a single character in front. -/
theorem isMatchRecursive_cons (fuel : ℕ) (s : List Char) (x : Char) {p : List Char}
    (hp : p.head? ≠ some '*') :
    isMatchRecursive (fuel + 1) s (x :: p) =
      match s with
      | [] => some false
      | c :: s' => if fits c x then isMatchRecursive fuel s' p else some false := by
  obtain ⟨y, hy, hstar⟩ := charAt_one x p
  have hne : y ≠ '*' := mt hstar.1 hp
  cases s <;> simp only [isMatchRecursive, List.isEmpty_cons, Bool.false_eq_true, if_false, hy,
    Option.bind_eq_bind, Option.bind_some, hne] <;> rfl

/-- **The recursion.** It ends, and tells whether the string is in the language. -/
theorem isMatchRecursive_eq (hp : WellFormed p) {fuel : ℕ} (hfuel : s.length + p.length < fuel) :
    ∃ b : Bool, isMatchRecursive fuel s p = some b ∧ (b ↔ Matches s p) := by
  induction fuel generalizing s p with
  | zero => omega
  | succ fuel ih =>
    cases p with
    | nil => exact ⟨s.isEmpty, rfl, by rw [matches_nil, List.isEmpty_iff]⟩
    | cons x p =>
      rw [List.length_cons] at hfuel
      by_cases hhead : p.head? = some '*'
      · -- the item is starred: none, or one and then the same item again
        obtain ⟨p, rfl⟩ := List.head?_eq_some_iff.1 hhead
        rw [List.length_cons] at hfuel
        obtain ⟨b, hb, hright⟩ := ih (s := s) hp.of_cons_star (by omega)
        rw [isMatchRecursive_star, hb, Option.bind_some, matches_cons_star_iff, ← hright]
        cases b with
        | true => exact ⟨true, rfl, by simp⟩
        | false =>
          cases s with
          | nil => exact ⟨false, rfl, by simp⟩
          | cons c s =>
            rw [List.length_cons] at hfuel
            obtain ⟨b', hb', hright'⟩ := ih (s := s) hp (by simp only [List.length_cons]; omega)
            refine ⟨fits c x && b', ?_, ?_⟩
            · cases hfits : fits c x <;> simp [hb', hfits]
            · simp [hright']
      · -- the first character is an item of its own
        rw [isMatchRecursive_cons _ _ _ hhead, matches_cons_iff hhead]
        cases s with
        | nil => exact ⟨false, rfl, by simp⟩
        | cons c s =>
          rw [List.length_cons] at hfuel
          have hp' : WellFormed p := by
            cases p with
            | nil => exact fun i hi ↦ by simp at hi
            | cons y p => exact hp.of_cons fun h ↦ hhead (by rw [h]; rfl)
          obtain ⟨b', hb', hright'⟩ := ih (s := s) hp' (by omega)
          refine ⟨fits c x && b', ?_, ?_⟩
          · cases hfits : fits c x <;> simp [hb', hfits]
          · simp [hright']

/-! ### Both functions -/

/-- The two functions return the same, in bounds, and it tells whether `s` is in the language of
`p`. -/
def MatchersRight (s p : List Char) : Prop :=
  ∃ (b : Bool) (fuel₀ : ℕ), isMatchDP s p = some b ∧
    (∀ fuel, fuel₀ ≤ fuel → isMatchRecursive fuel s p = some b) ∧ (b ↔ Matches s p)

/-- The sizes as an `int` are sizes for which the table can be made, and what they leave out of the
strings does not matter. -/
structure SizesFit (s p : List Char) : Prop where
  rows : TableFits (CInt.wrap s.length)
  columns : TableFits (CInt.wrap p.length)
  same : Matches (s.take (CInt.wrap s.length).1.toNat) (p.take (CInt.wrap p.length).1.toNat) ↔
    Matches s p

theorem wrap_toNat_le (n : ℕ) : (CInt.wrap n).1.toNat ≤ n :=
  Int.toNat_le.2 (CInt.wrap_le (Int.natCast_nonneg n))

theorem wrap_toNat {n : ℕ} (hn : n < 2 ^ 31) : (CInt.wrap n).1.toNat = n := by
  rw [CInt.wrap_of_lt (Int.natCast_nonneg n) (by omega), Int.toNat_natCast]

theorem tableFits_wrap {n : ℕ} (hn : n < 2 ^ 31 - 1) : TableFits (CInt.wrap n) := by
  have hval : (CInt.wrap n).1 = n := CInt.wrap_of_lt (Int.natCast_nonneg n) (by omega)
  constructor
  · rw [hval]
    exact Int.natCast_nonneg n
  · rw [CInt.lt_INT_MAX_iff, hval]
    omega

/-- Strings shorter than `INT_MAX` are compared as a whole. -/
theorem sizesFit_of_lt (hs : s.length < 2 ^ 31 - 1) (hp : p.length < 2 ^ 31 - 1) :
    SizesFit s p where
  rows := tableFits_wrap hs
  columns := tableFits_wrap hp
  same := by
    rw [wrap_toNat (by omega), wrap_toNat (by omega), List.take_length, List.take_length]

theorem matchersRight_iff (hp : WellFormed p) : MatchersRight s p ↔ SizesFit s p := by
  constructor
  · rintro ⟨b, fuel₀, hdp, -, hright⟩
    obtain ⟨hrows, hcolumns⟩ := tableFits_of_matchTable hdp
    obtain ⟨b', hdp', hright'⟩ := matchTable_eq_some hp hrows hcolumns (wrap_toNat_le s.length)
      (wrap_toNat_le p.length)
    obtain rfl : b = b' := Option.some.inj (hdp.symm.trans hdp')
    exact ⟨hrows, hcolumns, hright'.symm.trans hright⟩
  · intro h
    obtain ⟨b, hdp, hright⟩ := matchTable_eq_some hp h.rows h.columns (wrap_toNat_le s.length)
      (wrap_toNat_le p.length)
    refine ⟨b, s.length + p.length + 1, hdp, fun fuel hfuel ↦ ?_, hright.trans h.same⟩
    obtain ⟨b', hb', hright'⟩ := isMatchRecursive_eq (s := s) hp hfuel
    rw [hb', Option.some.injEq, Bool.eq_iff_iff, hright', hright, h.same]

theorem matchersRight_main :
    MatchersRight ['a', 'a', 'b'] ['c', '*', 'a', '*', 'b', '*'] := by
  refine (matchersRight_iff ?_).2 (sizesFit_of_lt (by simp) (by simp))
  intro i hi
  match i, hi with
  | 1, _ => exact ⟨0, 'c', rfl, rfl, by decide⟩
  | 3, _ => exact ⟨2, 'a', rfl, rfl, by decide⟩
  | 5, _ => exact ⟨4, 'b', rfl, rfl, by decide⟩
  | 0, hi | 2, hi | 4, hi => exact absurd hi (by decide)
  | i + 6, hi => simp at hi

/-- A string of `INT_MAX` characters: `m + 1` overflows. -/
theorem not_forall_matchersRight : ¬ ∀ s p, WellFormed p → MatchersRight s p := by
  intro h
  have hright := h (List.replicate (2 ^ 31 - 1) 'a') [] fun i hi ↦ by simp at hi
  obtain ⟨b, fuel₀, hdp, -⟩ := hright
  have hrows := (tableFits_of_matchTable hdp).1.2
  rw [List.length_replicate] at hrows
  have hval : (CInt.wrap (2 ^ 31 - 1 : ℕ)).1 = (2 ^ 31 - 1 : ℕ) :=
    CInt.wrap_of_lt (Int.natCast_nonneg _) (by decide)
  rw [CInt.lt_INT_MAX_iff, hval] at hrows
  exact absurd hrows (by decide)

end RegularExpressionMatch
