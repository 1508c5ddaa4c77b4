import Mathlib.Algebra.Order.Group.Unbundled.Int
import Mathlib.Data.Prod.Lex
import Mathlib.Data.Tree.Basic
import Mathlib.Order.Bounds.Basic
import MiscCpp.Library.Access
import MiscCpp.Library.CInt
import MiscCpp.Library.Machine
import MiscCpp.Library.OrderedMap

/-!
# The columns of a tree

`verticalTraversal` of `leetcode/tree/verticalTraversal.cc`: a map from the coordinates to sets of
values, from which the columns are put together.

The entries of the map are the nodes with their coordinates, but a value that two nodes have at the
same coordinates is there once (`mem_entries_foldl`). So the columns are complete exactly if this
does not happen (`traverses_iff`).
-/

open Access CInt Machine

namespace VerticalTraversal

/-! ### The program -/

/-- `pair<int, int>`, with its order. -/
abbrev Coordinates := ℤ ×ₗ ℤ

/-- The range of the columns, and the values by their coordinates. -/
structure State where
  min_x : ℤ
  max_x : ℤ
  h : SetMap Coordinates CInt

/-- Enter the nodes with their coordinates, in preorder. -/
def traverse : BinaryTree CInt → ℤ → ℤ → State → Option State
  | .nil, _, _, s => some s
  | .node val left right, x, y, s => do
    let s := ⟨min s.min_x x, max s.max_x x, s.h.insertAt (toLex (x, y)) val⟩
    let s ← traverse left (← fit (x - 1)) (← fit (y + 1)) s
    traverse right (← fit (x + 1)) (← fit (y + 1)) s

/-- The loop over the map, for one of its pairs. -/
def collect (min_x : ℤ) (res : List (List CInt)) (m : Coordinates × List CInt) :
    Option (List (List CInt)) := do
  let x ← fit ((ofLex m.1).1 - min_x)
  put res x ((← get res x) ++ m.2)

/-- The values column by column, from top to bottom. -/
def verticalTraversal : BinaryTree CInt → Option (List (List CInt))
  | .nil => some []
  | root => do
    let s ← traverse root 0 0 ⟨INT_MAX.1, INT_MIN.1, .empty⟩
    let size ← fit ((← fit (s.max_x - s.min_x)) + 1)
    exec (collect s.min_x) (List.replicate size.toNat []) s.h.pairs

example : verticalTraversal (.node (wrap 3) (.node (wrap 9) .nil .nil)
    (.node (wrap 20) (.node (wrap 15) .nil .nil) (.node (wrap 7) .nil .nil))) =
    some [[wrap 9], [wrap 3, wrap 15], [wrap 20], [wrap 7]] := by decide

/-! ### Columns -/

/-- The nodes with their coordinates, for a root at `x` and `y`. -/
def nodes : BinaryTree CInt → ℤ → ℤ → List (Coordinates × CInt)
  | .nil, _, _ => []
  | .node val left right, x, y =>
    (toLex (x, y), val) :: (nodes left (x - 1) (y + 1) ++ nodes right (x + 1) (y + 1))

/-- The depths and the values of the nodes in a column. -/
def columnOf (l : List (Coordinates × CInt)) (x : ℤ) : List (ℤ × CInt) :=
  l.filterMap fun e ↦ if (ofLex e.1).1 = x then some ((ofLex e.1).2, e.2) else none

/-- The columns that have nodes. -/
def columns (t : BinaryTree CInt) : Set ℤ := {x | ∃ e ∈ nodes t 0 0, (ofLex e.1).1 = x}

/-- The values of the nodes in a column, in the order of the depths and then of the values. -/
def IsColumn (t : BinaryTree CInt) (x : ℤ) (vec : List CInt) : Prop :=
  ∃ l : List (ℤ × CInt), l.Perm (columnOf (nodes t 0 0) x) ∧
    (l.Pairwise fun p q ↦ p.1 < q.1 ∨ p.1 = q.1 ∧ p.2 ≤ q.2) ∧ vec = l.map Prod.snd

/-- The columns are returned, from the leftmost to the rightmost one. -/
def Traverses (t : BinaryTree CInt) : Prop :=
  ∃ res lo hi, verticalTraversal t = some res ∧ IsLeast (columns t) lo ∧
    IsGreatest (columns t) hi ∧ (res.length : ℤ) = hi - lo + 1 ∧
    ∀ (i : ℕ) vec, res[i]? = some vec → IsColumn t (lo + i) vec

/-! ### The map -/

variable {t left right : BinaryTree CInt} {s : State} {x y lo : ℤ} {e : Coordinates × CInt}
  {l : List (Coordinates × CInt)} {m : SetMap Coordinates CInt} {res : List (List CInt)}

/-- What the function does with one node. -/
def note (s : State) (e : Coordinates × CInt) : State :=
  ⟨min s.min_x (ofLex e.1).1, max s.max_x (ofLex e.1).1, s.h.insertAt e.1 e.2⟩

/-- **The traversal** takes the nodes one after the other, if the depths fit. -/
theorem traverse_eq (hx : -y ≤ x ∧ x ≤ y) (hy : y < 2 ^ 31) :
    traverse t x y s =
      if y + t.height < 2 ^ 31 then some ((nodes t x y).foldl note s) else none := by
  induction t generalizing x y s with
  | nil =>
    rw [traverse, BinaryTree.height, if_pos (by omega)]
    rfl
  | node val left right ihl ihr =>
    obtain ⟨hge, hle⟩ := hx
    have hheight : ((BinaryTree.node val left right).height : ℤ) =
        max (left.height : ℤ) right.height + 1 := by
      rw [BinaryTree.height]
      omega
    have hnodes : (nodes (.node val left right) x y).foldl note s =
        (nodes right (x + 1) (y + 1)).foldl note ((nodes left (x - 1) (y + 1)).foldl note
          (note s (toLex (x, y), val))) := by
      rw [nodes, List.foldl_cons, List.foldl_append]
    rw [traverse, hnodes, hheight, fit_eq (by omega), Option.bind_eq_bind, Option.bind_some]
    by_cases hfit : y + 1 < 2 ^ 31
    · rw [fit_eq (by omega), Option.bind_eq_bind, Option.bind_some,
        ihl ⟨by omega, by omega⟩ hfit]
      by_cases hl : y + 1 + left.height < 2 ^ 31
      · rw [if_pos hl, Option.bind_some, fit_eq (by omega), Option.bind_some, Option.bind_some,
          ihr ⟨by omega, by omega⟩ hfit]
        by_cases hr : y + 1 + right.height < 2 ^ 31
        · rw [if_pos hr, if_pos (by omega)]
          rfl
        · rw [if_neg hr, if_neg (by omega)]
      · rw [if_neg hl, if_neg (by omega)]
        rfl
    · rw [fit_eq_none (n := y + 1) (by omega), if_neg (by omega)]
      rfl

/-- **The entries** are the nodes. -/
theorem mem_entries_foldl :
    e ∈ (l.foldl note s).h.entries ↔ e ∈ l ∨ e ∈ s.h.entries := by
  induction l generalizing s with
  | nil => exact (or_iff_right List.not_mem_nil).symm
  | cons a l ih =>
    rw [List.foldl_cons, ih, List.mem_cons, or_assoc, or_left_comm]
    exact or_congr_right SetMap.mem_entries_insertAt

theorem isLeast_foldl_min {α β : Type*} [LinearOrder α] (f : β → α) (l : List β) (a : α) :
    IsLeast (insert a {x | ∃ e ∈ l, f e = x}) (l.foldl (fun m e ↦ min m (f e)) a) := by
  induction l generalizing a with
  | nil =>
    refine ⟨Or.inl rfl, fun b hb ↦ ?_⟩
    rcases hb with rfl | ⟨e, he, -⟩
    · exact le_rfl
    · cases he
  | cons b l ih =>
    obtain ⟨hmem, hlower⟩ := ih (min a (f b))
    have hle := hlower (Or.inl rfl)
    refine ⟨?_, fun c hc ↦ ?_⟩
    · rcases hmem with hmem | ⟨e, he, heq⟩
      · rw [List.foldl_cons, hmem]
        rcases min_choice a (f b) with h | h
        · exact Or.inl h
        · exact Or.inr ⟨b, List.mem_cons_self, h.symm⟩
      · exact Or.inr ⟨e, List.mem_cons_of_mem b he, heq⟩
    · rcases hc with rfl | ⟨e, he, rfl⟩
      · exact hle.trans (min_le_left c (f b))
      · rcases List.mem_cons.1 he with rfl | he
        · exact hle.trans (min_le_right a (f e))
        · exact hlower (Or.inr ⟨e, he, rfl⟩)

theorem min_x_foldl (l : List (Coordinates × CInt)) (s : State) :
    (l.foldl note s).min_x = l.foldl (fun m e ↦ min m (ofLex e.1).1) s.min_x := by
  induction l generalizing s with
  | nil => rfl
  | cons e l ih => exact ih (note s e)

theorem max_x_foldl (l : List (Coordinates × CInt)) (s : State) :
    (l.foldl note s).max_x = l.foldl (fun m e ↦ max m (ofLex e.1).1) s.max_x := by
  induction l generalizing s with
  | nil => rfl
  | cons e l ih => exact ih (note s e)

/-- The state before the traversal. -/
def start : State := ⟨INT_MAX.1, INT_MIN.1, .empty⟩

theorem root_mem_columns (val : CInt) (left right : BinaryTree CInt) :
    0 ∈ columns (.node val left right) := ⟨_, List.mem_cons_self, rfl⟩

/-- The bounds of the columns, which the initial values do not change. -/
theorem isLeast_min_x (ht : 0 ∈ columns t) :
    IsLeast (columns t) ((nodes t 0 0).foldl note start).min_x := by
  have hleast := isLeast_foldl_min (fun e : Coordinates × CInt ↦ (ofLex e.1).1) (nodes t 0 0)
    INT_MAX.1
  rw [min_x_foldl]
  refine ⟨hleast.1.resolve_left fun heq ↦ ?_, fun x hx ↦ hleast.2 (Or.inr hx)⟩
  have hle := hleast.2 (Or.inr ht)
  rw [heq] at hle
  exact absurd hle (by decide)

theorem isGreatest_max_x (ht : 0 ∈ columns t) :
    IsGreatest (columns t) ((nodes t 0 0).foldl note start).max_x := by
  have hgreatest := isLeast_foldl_min (α := ℤᵒᵈ) (fun e : Coordinates × CInt ↦ (ofLex e.1).1)
    (nodes t 0 0) INT_MIN.1
  rw [max_x_foldl]
  refine ⟨hgreatest.1.resolve_left fun heq ↦ ?_, fun x hx ↦ hgreatest.2 (Or.inr hx)⟩
  have hle := hgreatest.2 (Or.inr ht)
  rw [heq] at hle
  exact absurd hle (by decide)

/-! ### The result -/

/-- The values of the entries in a column. -/
def gather (l : List (Coordinates × CInt)) (x : ℤ) : List CInt := (columnOf l x).map Prod.snd

theorem columnOf_append (l l' : List (Coordinates × CInt)) (x : ℤ) :
    columnOf (l ++ l') x = columnOf l x ++ columnOf l' x := List.filterMap_append

theorem gather_append (l l' : List (Coordinates × CInt)) (x : ℤ) :
    gather (l ++ l') x = gather l x ++ gather l' x := by
  rw [gather, columnOf_append, List.map_append]
  rfl

theorem gather_cons (e : Coordinates × CInt) (l : List (Coordinates × CInt)) (x : ℤ) :
    gather (e :: l) x = if (ofLex e.1).1 = x then e.2 :: gather l x else gather l x := by
  rw [gather, columnOf, List.filterMap_cons]
  by_cases h : (ofLex e.1).1 = x
  · simp only [if_pos h]
    rfl
  · simp only [if_neg h]
    rfl

/-- The values of one pair of the map are those of its column. -/
theorem gather_map (k : Coordinates) (vals : List CInt) (x : ℤ) :
    gather (vals.map fun a ↦ (k, a)) x = if (ofLex k).1 = x then vals else [] := by
  induction vals with
  | nil => split <;> rfl
  | cons a vals ih =>
    rw [List.map_cons, gather_cons, ih]
    split <;> rfl

/-- **The loop** over the map appends the values of each column. -/
theorem exec_collect {pairs : List (Coordinates × List CInt)}
    (hkeys : ∀ p ∈ pairs, lo ≤ (ofLex p.1).1 ∧ (ofLex p.1).1 < lo + res.length)
    (hlen : res.length < 2 ^ 31) :
    exec (collect lo) res pairs = some (res.mapIdx fun i vec ↦
      vec ++ gather (SetMap.entriesOf pairs) (lo + i)) := by
  induction pairs generalizing res with
  | nil =>
    rw [exec_nil, Option.some_inj]
    refine (List.ext_getElem? fun i ↦ ?_).symm
    rw [List.getElem?_mapIdx]
    cases res[i]? with
    | none => rfl
    | some vec => exact congrArg some (List.append_nil vec)
  | cons p pairs ih =>
    obtain ⟨⟨hge, hlt⟩, hkeys⟩ := List.forall_mem_cons.1 hkeys
    obtain ⟨j, hj⟩ := Int.eq_ofNat_of_zero_le (sub_nonneg.2 hge)
    obtain ⟨vec, hvec⟩ := exists_get (m := res) (i := (ofLex p.1).1 - lo) (by omega) (by omega)
    have hstep : collect lo res p = some (res.set j (vec ++ p.2)) := by
      rw [collect, fit_eq (by omega), Option.bind_eq_bind, Option.bind_some, hvec,
        Option.bind_eq_bind, Option.bind_some, put_eq hvec, hj]
      rfl
    rw [hj, get_natCast] at hvec
    rw [exec_cons, hstep, Option.bind_some, ih (by rwa [List.length_set])
      (by rwa [List.length_set]), Option.some_inj]
    refine List.ext_getElem? fun i ↦ ?_
    rw [List.getElem?_mapIdx, List.getElem?_mapIdx, SetMap.entriesOf_cons, gather_append,
      gather_map]
    by_cases hij : j = i
    · obtain rfl := hij
      rw [List.getElem?_set_self (List.getElem?_eq_some_iff.1 hvec).1, hvec, if_pos (by omega)]
      exact congrArg some (List.append_assoc _ _ _)
    · rw [List.getElem?_set_ne hij, if_neg (by omega)]
      rfl

/-- The map after the traversal. -/
def mapOf (t : BinaryTree CInt) : SetMap Coordinates CInt := ((nodes t 0 0).foldl note start).h

theorem mem_entries_mapOf : e ∈ (mapOf t).entries ↔ e ∈ nodes t 0 0 := by
  rw [mapOf, mem_entries_foldl]
  exact or_iff_left List.not_mem_nil

theorem mapIdx_replicate_nil {α : Type*} (n : ℕ) (f : ℕ → List α) :
    (List.replicate n []).mapIdx (fun i vec ↦ vec ++ f i) = (List.range n).map f := by
  refine List.ext_getElem? fun i ↦ ?_
  rw [List.getElem?_mapIdx, List.getElem?_map, List.getElem?_replicate]
  by_cases hi : i < n
  · rw [if_pos hi, List.getElem?_range hi]
    rfl
  · rw [if_neg hi, List.getElem?_eq_none (by rwa [List.length_range, ← not_lt])]
    rfl

/-- **What is returned** if the depths and the number of columns fit. -/
theorem verticalTraversal_eq {hi : ℤ} (ht : 0 ∈ columns t) (hlo : IsLeast (columns t) lo)
    (hhi : IsGreatest (columns t) hi) :
    verticalTraversal t = if t.height < 2 ^ 31 ∧ hi - lo + 1 < 2 ^ 31 then
      some ((List.range (hi - lo + 1).toNat).map fun i : ℕ ↦ gather (mapOf t).entries (lo + i))
    else none := by
  have heq : verticalTraversal t = (traverse t 0 0 start).bind fun s ↦
      (fit (s.max_x - s.min_x)).bind fun d ↦ (fit (d + 1)).bind fun size ↦
        exec (collect s.min_x) (List.replicate size.toNat []) s.h.pairs := by
    cases t with
    | nil => exact absurd ht fun ⟨e, he, _⟩ ↦ List.not_mem_nil he
    | node val left right => rfl
  have hle : lo ≤ 0 := hlo.2 ht
  have hge : 0 ≤ hi := hhi.2 ht
  rw [heq, traverse_eq (by decide) (by decide), zero_add]
  by_cases hheight : t.height < 2 ^ 31
  · rw [if_pos (by omega), Option.bind_some, (isLeast_min_x ht).unique hlo,
      (isGreatest_max_x ht).unique hhi]
    by_cases hsize : hi - lo + 1 < 2 ^ 31
    · have hkeys : ∀ p ∈ (mapOf t).pairs, lo ≤ (ofLex p.1).1 ∧
          (ofLex p.1).1 < lo + (List.replicate (hi - lo + 1).toNat ([] : List CInt)).length := by
        intro p hp
        obtain ⟨a, ha⟩ := SetMap.exists_mem_entries hp
        have hmem : (ofLex p.1).1 ∈ columns t := ⟨(p.1, a), mem_entries_mapOf.1 ha, rfl⟩
        have hp_lo := hlo.2 hmem
        have hp_hi := hhi.2 hmem
        rw [List.length_replicate]
        omega
      have hexec := exec_collect hkeys (by rw [List.length_replicate]; omega)
      rw [if_pos ⟨hheight, hsize⟩, fit_eq (by omega), Option.bind_some, fit_eq (by omega),
        Option.bind_some]
      exact hexec.trans (congrArg some (mapIdx_replicate_nil _ _))
    · rw [if_neg fun h ↦ hsize h.2]
      by_cases hfit : hi - lo < 2 ^ 31
      · rw [fit_eq (by omega), Option.bind_some, fit_eq_none (by omega)]
        rfl
      · rw [fit_eq_none (by omega)]
        rfl
  · rw [if_neg (by omega), if_neg fun h ↦ hheight h.1]
    rfl

/-- Nodes that are all different are the entries. -/
theorem isColumn_gather (h : (nodes t 0 0).Nodup) (x : ℤ) :
    IsColumn t x (gather (mapOf t).entries x) := by
  have hperm : (mapOf t).entries.Perm (nodes t 0 0) :=
    (List.perm_ext_iff_of_nodup (mapOf t).nodup_entries h).2 fun e ↦ mem_entries_mapOf
  refine ⟨columnOf (mapOf t).entries x, hperm.filterMap _, ?_, rfl⟩
  rw [columnOf, List.pairwise_filterMap]
  refine (mapOf t).pairwise_entries.imp fun {d e} hlt p hp q hq ↦ ?_
  obtain ⟨hd, hp⟩ := Option.ite_none_right_eq_some.1 hp
  obtain ⟨he, hq⟩ := Option.ite_none_right_eq_some.1 hq
  obtain rfl := Option.some.inj hp
  obtain rfl := Option.some.inj hq
  rcases hlt with hlt | ⟨heq, hlt⟩
  · rcases Prod.Lex.lt_iff.1 hlt with hx | ⟨-, hy⟩
    · exact absurd (hd.trans he.symm) hx.ne
    · exact Or.inl hy
  · exact Or.inr ⟨by rw [heq], hlt.le⟩

/-- The columns of the entries are the ones of the nodes exactly if no entry stands for two of
them. -/
theorem forall_isColumn_iff :
    (∀ x ∈ columns t, IsColumn t x (gather (mapOf t).entries x)) ↔ (nodes t 0 0).Nodup := by
  have hnodup := (mapOf t).nodup_entries
  constructor
  · intro h
    have hsub : (mapOf t).entries.Subperm (nodes t 0 0) :=
      List.subperm_of_subset hnodup fun e he ↦ mem_entries_mapOf.1 he
    obtain ⟨l, hl, hsub⟩ := hsub
    obtain ⟨r, hr⟩ := hsub.exists_perm_append
    have hperm : (nodes t 0 0).Perm ((mapOf t).entries ++ r) := hr.trans (hl.append_right r)
    -- No node is left over, since it would be missing in its column.
    have hnil : r = [] := by
      refine List.eq_nil_iff_forall_not_mem.2 fun e he ↦ ?_
      have hmem : (ofLex e.1).1 ∈ columns t :=
        ⟨e, hperm.mem_iff.2 (List.mem_append_right _ he), rfl⟩
      obtain ⟨l, hperm_l, -, heq⟩ := h _ hmem
      have hlen := (hperm_l.trans (hperm.filterMap _)).length_eq
      have hlen' := congrArg List.length heq
      rw [gather, List.length_map, List.length_map] at hlen'
      rw [List.filterMap_append, List.length_append] at hlen
      have hzero : (columnOf r (ofLex e.1).1).length = 0 := by
        have heq_l : (columnOf (mapOf t).entries (ofLex e.1).1).length = l.length := hlen'
        rw [← heq_l] at hlen
        exact Nat.left_eq_add.1 hlen
      refine List.not_mem_nil (a := ((ofLex e.1).2, e.2)) ?_
      rw [← List.length_eq_zero_iff.1 hzero]
      exact List.mem_filterMap.2 ⟨e, he, if_pos rfl⟩
    rw [hperm.nodup_iff, hnil, List.append_nil]
    exact hnodup
  · exact fun h x _ ↦ isColumn_gather h x

/-- What is returned has to be right about the entries. -/
theorem Traverses.isColumn (h : Traverses t) (hroot : 0 ∈ columns t) :
    (∀ x ∈ columns t, IsColumn t x (gather (mapOf t).entries x)) ∧ t.height < 2 ^ 31 ∧
      ∀ lo ∈ columns t, ∀ hi ∈ columns t, hi - lo + 1 < 2 ^ 31 := by
  obtain ⟨res, lo, hi, hres, hlo, hhi, hlen, hcolumn⟩ := h
  rw [verticalTraversal_eq hroot hlo hhi] at hres
  split at hres
  next hfit =>
    obtain rfl := Option.some.inj hres
    refine ⟨fun x hx ↦ ?_, hfit.1, fun lo' hlo' hi' hhi' ↦ ?_⟩
    · have hx_lo := hlo.2 hx
      have hx_hi := hhi.2 hx
      obtain ⟨i, hi⟩ := Int.eq_ofNat_of_zero_le (sub_nonneg.2 hx_lo)
      have hix : lo + (i : ℤ) = x := by omega
      rw [← hix]
      refine hcolumn i _ ?_
      rw [List.getElem?_map, List.getElem?_range (by omega)]
      rfl
    · have hle_lo := hlo.2 hlo'
      have hle_hi := hhi.2 hhi'
      omega
  next => cases hres

/-- **`verticalTraversal`** returns the columns exactly if no two nodes have the same coordinates
and the same value, and the depths and the number of columns are values of an `int`. -/
theorem traverses_iff (val : CInt) (left right : BinaryTree CInt) :
    Traverses (.node val left right) ↔
      (nodes (.node val left right) 0 0).Nodup ∧
        (BinaryTree.node val left right).height < 2 ^ 31 ∧
        ∀ lo ∈ columns (.node val left right), ∀ hi ∈ columns (.node val left right),
          hi - lo + 1 < 2 ^ 31 := by
  have hroot := root_mem_columns val left right
  constructor
  · intro h
    obtain ⟨hcolumn, hfit⟩ := h.isColumn hroot
    exact ⟨forall_isColumn_iff.1 hcolumn, hfit⟩
  · rintro ⟨hnodup, hheight, hsize⟩
    have hleast := isLeast_min_x hroot
    have hgreatest := isGreatest_max_x hroot
    have hlo := hleast.2 hroot
    have hhi := hgreatest.2 hroot
    refine ⟨_, _, _, verticalTraversal_eq hroot hleast hgreatest |>.trans
      (if_pos ⟨hheight, hsize _ hleast.1 _ hgreatest.1⟩), hleast, hgreatest, ?_,
      fun i vec hvec ↦ ?_⟩
    · rw [List.length_map, List.length_range]
      omega
    · rw [List.getElem?_map, Option.map_eq_some_iff] at hvec
      obtain ⟨j, hj, rfl⟩ := hvec
      obtain ⟨hlt, rfl⟩ := List.getElem?_eq_some_iff.1 hj
      rw [List.getElem_range]
      exact isColumn_gather hnodup _

/-- A root with two children that have children of the same value below the root. -/
theorem not_forall_traverses :
    ¬ ∀ val left right, Traverses (.node val left right) := by
  intro h
  obtain ⟨hcolumn, -⟩ := (h (wrap 1) (.node (wrap 2) .nil (.node (wrap 5) .nil .nil))
    (.node (wrap 3) (.node (wrap 5) .nil .nil) .nil)).isColumn (root_mem_columns _ _ _)
  exact absurd (forall_isColumn_iff.1 hcolumn) (by decide)

end VerticalTraversal
