import Mathlib.Algebra.Order.BigOperators.Group.Finset
import Mathlib.Algebra.Order.Ring.Int
import MiscCpp.Library.Access
import MiscCpp.Library.CInt
import MiscCpp.Library.LeafPaths
import MiscCpp.Library.Machine
import MiscCpp.Library.WhileLoop

/-!
# Pairs of leaves that are near each other

`countPairs1` and `countPairs2` of `leetcode/tree/numberOfGoodLeafNodesPairs.cc`, with the overflow
of their integers.

`countPairs1` climbs from each leaf and marks the nodes on the way. The marks that another leaf
meets are found in the order of their distances, so the first one decides (`isGood_eq_one`).
`countPairs2` returns the number of leaves of a subtree for each distance to its root
(`dfs2_spec`). Both count the pairs of different leaves with a path that is not too long
(`countPairs_iff`).
-/

open Access CInt Function LeafPaths LinkedTree Machine PairCount WhileLoop

namespace NumberOfGoodLeafNodesPairs

variable {ι : Type*}

/-! ### Climbing -/

/-- The parents of the nodes, and the leaves so far. -/
structure State (ι : Type*) where
  parents : ι → Option ι
  leaves : List ι

/-- `dfs` of `countPairs1`. -/
def dfs1 [DecidableEq ι] : BinaryTree ι → Option ι → State ι → State ι
  | .nil, _, s => s
  | .node c left right, p, s =>
    let s := { s with parents := update s.parents c p }
    let s := dfs1 left (some c) s
    let s := dfs1 right (some c) s
    if isNull left && isNull right then { s with leaves := s.leaves ++ [c] } else s

/-- `a.count(n) && a[n] + i <= distance`, for the value at `n` -/
def inRange (distance i : ℤ) : Option ℤ → Option Bool
  | none => some false
  | some k => (fit (k + i)).map fun sum ↦ decide (sum ≤ distance)

/-- The loop of `isGood` from `i` on, with its last `turns` turns. -/
def isGood (parents : ι → Option ι) (a : ι → Option ℤ) (distance : ℤ) :
    ℕ → ℤ → Option ι → Option ℤ
  | 0, _, _ => some 0
  | _ + 1, _, none => some 0
  | turns + 1, i, some n => do
    if ← inRange distance i (a n) then some 1
    else isGood parents a distance turns (i + 1) (parents n)

/-- The loop that marks the nodes above a leaf, from `k` on. -/
def mark [DecidableEq ι] (parents : ι → Option ι) : ℕ → ℤ → Option ι → (ι → Option ℤ) → ι → Option ℤ
  | 0, _, _, a => a
  | _ + 1, _, none, a => a
  | turns + 1, k, some n, a => mark parents turns (k + 1) (parents n) (update a n (some k))

/-- The loop over the other leaves, from `j` on. -/
def compare (parents : ι → Option ι) (a : ι → Option ℤ) (distance : ℤ) :
    List ι → ℤ → ℤ → Option ℤ
  | [], _, res => some res
  | n :: leaves, j, res => do
    let good ← isGood parents a distance distance.toNat 0 (some n)
    compare parents a distance leaves (← fit (j + 1)) (← fit (res + good))

/-- The loop over the leaves, from `i` on. -/
def climb [DecidableEq ι] (parents : ι → Option ι) (distance : ℤ) : List ι → ℤ → ℤ → Option ℤ
  | [], _, res => some res
  | n1 :: leaves, i, res => do
    let a := mark parents distance.toNat 0 (some n1) fun _ ↦ none
    let j ← fit (i + 1)
    let res ← compare parents a distance leaves j res
    climb parents distance leaves (← fit (i + 1)) res

/-- Climb from each leaf to the ones before it. -/
def countPairs1 [DecidableEq ι] (root : BinaryTree ι) (distance : CInt) : Option ℤ :=
  let s := dfs1 root none ⟨fun _ ↦ none, []⟩
  climb s.parents distance.1 s.leaves 0 0

/-! ### Histograms -/

/-- `i + j + 2 <= distance`, for `j` and `res` -/
def inReach (distance i : ℤ) (s : ℤ × ℤ) : Option Bool := do
  let sum ← fit (i + s.1)
  some (decide ((← fit (sum + 2)) ≤ distance))

/-- `res += l[i] * r[j];` -/
def multiply (l r : List ℤ) (i : ℤ) (s : ℤ × ℤ) : Option (ℤ × ℤ) := do
  let product ← fit ((← get l i) * (← get r s.1))
  let res ← fit (s.2 + product)
  some (← fit (s.1 + 1), res)

/-- The inner loop over `j`, with `res` before and after it. -/
def convolve (fuel : ℕ) (distance : ℤ) (l r : List ℤ) (res : ℤ) (i : ℕ) : Option ℤ := do
  let s ← run (inReach distance i) (multiply l r i) fuel (0, res)
  some s.2

/-- `f[i + 1] = l[i] + r[i];` -/
def shift (l r f : List ℤ) (i : ℕ) : Option (List ℤ) := do
  put f (i + 1) (← fit ((← get l i) + (← get r i)))

/-- `dfs` of `countPairs2`, with the value of `res` before and after it. -/
def dfs2 (fuel : ℕ) (distance : ℤ) : BinaryTree ι → ℤ → Option (List ℤ × ℤ)
  | .nil, res => do
    let size ← fit (distance + 1)
    some (List.replicate size.toNat 0, res)
  | .node _ left right, res => do
    let size ← fit (distance + 1)
    let f := List.replicate size.toNat 0
    if isNull left && isNull right then some (← put f 0 1, res)
    else
      let (l, res) ← dfs2 fuel distance left res
      let (r, res) ← dfs2 fuel distance right res
      let res ← exec (convolve fuel distance l r) res (List.range distance.toNat)
      let f ← exec (shift l r) f (List.range distance.toNat)
      some (f, res)

/-- Add up the pairs over each node, by the depths of its leaves. -/
def countPairs2 (fuel : ℕ) (root : BinaryTree ι) (distance : CInt) : Option ℤ := do
  let (_, res) ← dfs2 fuel distance.1 root 0
  some res

example : countPairs1 (.node 1 (.node 2 .nil (.node 4 .nil .nil)) (.node 3 .nil .nil)) (wrap 3) =
    some 1 := by decide

example : countPairs2 4 (.node 1 (.node 2 .nil (.node 4 .nil .nil)) (.node 3 .nil .nil)) (wrap 3) =
    some 1 := by decide

/-! ### What `countPairs1` returns -/

section Climb

variable [DecidableEq ι] {parents : ι → Option ι} {a : ι → Option ℤ} {t : BinaryTree ι}
  {s : State ι} {p q : List ι} {n : Option ι} {c : ι} {turns d j k : ℕ} {i x : ℤ}

theorem dfs1_spec (hnodup : (inorder t).Nodup) :
    (dfs1 t n s).leaves = s.leaves ++ leaves t ∧ Linked (dfs1 t n s).parents t n ∧
      ∀ b ∉ inorder t, (dfs1 t n s).parents b = s.parents b := by
  induction t generalizing n s with
  | nil => exact ⟨(List.append_nil _).symm, trivial, fun b _ ↦ rfl⟩
  | node c l r ihl ihr =>
    obtain ⟨hnodup_l, hnodup_r, hcl, hcr, hdisj⟩ := nodup_node.1 hnodup
    obtain ⟨s₁, hs₁⟩ : ∃ s₁, dfs1 l (some c) { s with parents := update s.parents c n } = s₁ :=
      ⟨_, rfl⟩
    obtain ⟨s₂, hs₂⟩ : ∃ s₂, dfs1 r (some c) s₁ = s₂ := ⟨_, rfl⟩
    have heq : dfs1 (.node c l r) n s =
        if isNull l && isNull r then { s₂ with leaves := s₂.leaves ++ [c] } else s₂ := by
      rw [dfs1, hs₁, hs₂]
    have hl := ihl hnodup_l (n := some c) (s := { s with parents := update s.parents c n })
    have hr := ihr hnodup_r (n := some c) (s := s₁)
    rw [hs₁] at hl
    rw [hs₂] at hr
    obtain ⟨hleaves_l, hlinked_l, hframe_l⟩ := hl
    obtain ⟨hleaves_r, hlinked_r, hframe_r⟩ := hr
    have hparents : (dfs1 (.node c l r) n s).parents = s₂.parents := by
      rw [heq]
      split <;> rfl
    rw [hparents, heq]
    refine ⟨?_, ⟨?_, hlinked_l.congr fun b hb ↦ hframe_r b (hdisj hb), hlinked_r⟩, fun b hb ↦ ?_⟩
    · rw [leaves]
      split
      next hleaf =>
        obtain ⟨rfl, rfl⟩ := leaf_iff.1 hleaf
        rw [hleaves_r, hleaves_l, leaves, List.append_nil, List.append_nil]
      next => rw [hleaves_r, hleaves_l, List.append_assoc]
    · exact (hframe_r c hcr).trans ((hframe_l c hcl).trans (update_self ..))
    · rw [inorder_node, List.mem_append, List.mem_cons, not_or, not_or] at hb
      obtain ⟨hbl, hne, hbr⟩ := hb
      exact (hframe_r b hbr).trans ((hframe_l b hbl).trans (update_of_ne hne ..))

/-- The marks are the numbers of the nodes on the way. -/
theorem mark_eq (hp : Climbs parents n p) (hnodup : p.Nodup) (turns : ℕ) (i : ℤ) :
    (∀ k < turns, p[k]? = some c → mark parents turns i n a c = some (i + k)) ∧
      ((∀ k < turns, p[k]? ≠ some c) → mark parents turns i n a c = a c) := by
  induction turns generalizing n p a i with
  | zero => exact ⟨fun k hk ↦ absurd hk (Nat.not_lt_zero k), fun _ ↦ rfl⟩
  | succ turns ih =>
    cases p with
    | nil =>
      obtain rfl : n = none := hp
      exact ⟨fun k _ hk ↦ absurd hk (by simp), fun _ ↦ rfl⟩
    | cons b p =>
      obtain ⟨rfl, hp⟩ := hp
      obtain ⟨hb, hnodup⟩ := List.nodup_cons.1 hnodup
      -- No later turn meets `b` again, so its mark stays.
      obtain ⟨hmark, hframe⟩ := ih (a := update a b (some i)) hp hnodup (i + 1)
      rw [mark]
      constructor
      · intro k hk hget
        cases k with
        | zero =>
          obtain rfl := Option.some.inj hget
          rw [hframe fun k _ hk ↦ hb (List.mem_of_getElem? hk), update_self, Int.natCast_zero,
            add_zero]
        | succ k =>
          rw [hmark k (Nat.lt_of_succ_lt_succ hk) hget, Option.some_inj]
          omega
      · intro h
        have hne : c ≠ b := fun heq ↦ h 0 (Nat.zero_lt_succ _) (heq ▸ rfl)
        rw [hframe fun k hk ↦ h (k + 1) (Nat.succ_lt_succ hk), update_of_ne hne]

/-- The marks of a leaf. -/
def Marked (d : ℕ) (p : List ι) (a : ι → Option ℤ) : Prop :=
  ∀ c x, a c = some x ↔ ∃ k < d, p[k]? = some c ∧ x = k

theorem marked_mark (hp : Climbs parents n p) (hnodup : p.Nodup) (d : ℕ) :
    Marked d p (mark parents d 0 n fun _ ↦ none) := by
  intro c x
  obtain ⟨hmark, hframe⟩ := mark_eq (c := c) (a := fun _ ↦ none) hp hnodup d 0
  constructor
  · intro h
    by_cases hex : ∃ k < d, p[k]? = some c
    · obtain ⟨k, hk, hget⟩ := hex
      rw [hmark k hk hget, Option.some_inj] at h
      exact ⟨k, hk, hget, by omega⟩
    · rw [hframe fun k hk hget ↦ hex ⟨k, hk, hget⟩] at h
      cases h
  · rintro ⟨k, hk, hget, rfl⟩
    rw [hmark k hk hget, zero_add]

omit [DecidableEq ι] in
/-- A mark that is met decides if no sum before it is undefined. -/
theorem isGood_eq_one (hq : Climbs parents n q) (hj : j < turns) (hget : q[j]? = some c)
    (hc : a c = some x) (hle : x + (i + j) ≤ d) (hd : (d : ℤ) < 2 ^ 31)
    (hfit : ∀ j' ≤ j, ∀ c' x', q[j']? = some c' → a c' = some x' →
      0 ≤ x' + (i + j') ∧ x' + (i + j') ≤ x + (i + j)) :
    isGood parents a d turns i n = some 1 := by
  induction turns generalizing n q i j with
  | zero => exact absurd hj (Nat.not_lt_zero j)
  | succ turns ih =>
    cases q with
    | nil => cases hget
    | cons b q =>
      obtain ⟨rfl, hq⟩ := hq
      have hrest (hpos : 0 < j) : isGood parents a d turns (i + 1) (parents b) = some 1 := by
        obtain ⟨j, rfl⟩ := Nat.exists_eq_succ_of_ne_zero hpos.ne'
        refine ih hq (Nat.lt_of_succ_lt_succ hj) hget (by omega) fun j' hj' c' x' hget' hc' ↦ ?_
        have h := hfit (j' + 1) (Nat.succ_le_succ hj') c' x' hget' hc'
        omega
      rw [isGood]
      cases hb : a b with
      | none =>
        rw [inRange, Option.bind_eq_bind, Option.bind_some, if_neg Bool.false_ne_true]
        refine hrest (Nat.pos_of_ne_zero ?_)
        rintro rfl
        obtain rfl := Option.some.inj hget
        cases hb.symm.trans hc
      | some y =>
        have h := hfit 0 (Nat.zero_le j) b y rfl hb
        rw [inRange, fit_eq (by omega), Option.map_some, Option.bind_eq_bind, Option.bind_some]
        split
        next => rfl
        next hgt =>
          refine hrest (Nat.pos_of_ne_zero ?_)
          rintro rfl
          rw [decide_eq_true_iff] at hgt
          omega

omit [DecidableEq ι] in
/-- The sums of the marks of a list are those of its head and its tail. -/
theorem forall_fits_cons_iff {b : ι} : (∀ j < turns + 1, ∀ c x, (b :: q)[j]? = some c →
    a c = some x → x + (i + j) < 2 ^ 31) ↔ (∀ y, a b = some y → y + i < 2 ^ 31) ∧
      ∀ j < turns, ∀ c x, q[j]? = some c → a c = some x → x + (i + 1 + j) < 2 ^ 31 := by
  constructor
  · refine fun h ↦ ⟨fun y hy ↦ ?_, fun j hj c x hget hc ↦ ?_⟩
    · have h := h 0 (Nat.zero_lt_succ _) b y rfl hy
      omega
    · have h := h (j + 1) (Nat.succ_lt_succ hj) c x hget hc
      omega
  · rintro ⟨hfirst, h⟩ j hj c x hget hc
    cases j with
    | zero =>
      obtain rfl := Option.some.inj hget
      have h := hfirst x hc
      omega
    | succ j =>
      have h := h j (Nat.lt_of_succ_lt_succ hj) c x hget hc
      omega

omit [DecidableEq ι] in
/-- If no mark decides, the result depends on the sums. -/
theorem isGood_eq_some_iff (hq : Climbs parents n q)
    (hgt : ∀ j < turns, ∀ c x, q[j]? = some c → a c = some x →
      0 ≤ x + (i + j) ∧ d < x + (i + j)) :
    isGood parents a d turns i n = some x ↔ x = 0 ∧
      ∀ j < turns, ∀ c x, q[j]? = some c → a c = some x → x + (i + j) < 2 ^ 31 := by
  induction turns generalizing n q i with
  | zero =>
    rw [isGood, Option.some_inj, eq_comm]
    exact ⟨fun h ↦ ⟨h, fun j hj ↦ absurd hj (Nat.not_lt_zero j)⟩, fun h ↦ h.1⟩
  | succ turns ih =>
    cases q with
    | nil =>
      obtain rfl : n = none := hq
      rw [isGood, Option.some_inj, eq_comm]
      exact ⟨fun h ↦ ⟨h, fun j _ c x hget ↦ by cases hget⟩, fun h ↦ h.1⟩
    | cons b q =>
      obtain ⟨rfl, hq⟩ := hq
      have hrest := ih (i := i + 1) hq fun j hj c x hget hc ↦ by
        have h := hgt (j + 1) (Nat.succ_lt_succ hj) c x hget hc
        omega
      rw [isGood, forall_fits_cons_iff]
      cases hb : a b with
      | none =>
        rw [inRange, Option.bind_eq_bind, Option.bind_some, if_neg Bool.false_ne_true, hrest]
        simp only [reduceCtorEq, false_imp_iff, implies_true, true_and]
      | some y =>
        have h := hgt 0 (Nat.zero_lt_succ _) b y rfl hb
        simp only [Option.some_inj, forall_eq']
        by_cases hlt : y + i < 2 ^ 31
        · have hle : ¬ (y + i ≤ d) := by omega
          rw [inRange, fit_eq (by omega), Option.map_some, Option.bind_eq_bind, Option.bind_some,
            decide_eq_false hle, if_neg Bool.false_ne_true, hrest]
          simp only [hlt, true_and]
        · rw [inRange, fit_eq_none (by omega)]
          exact iff_of_false (fun h ↦ by cases h) fun h ↦ hlt h.2.1

/-- A common node is above both lists, at distances that add up to no `int`. -/
def Exceeds (d : ℕ) (p q : List ι) : Prop :=
  ∃ (k i : ℕ) (c : ι), k < d ∧ i < d ∧ p[k]? = some c ∧ q[i]? = some c ∧ 2 ^ 31 ≤ k + i

omit [DecidableEq ι] in
/-- **`isGood`** finds the marks of a leaf that is near enough. -/
theorem isGood_iff {n m : Option ι} (hp : Climbs parents n p) (hq : Climbs parents m q)
    (hnodup : p.Nodup) (hapart : Apart p q) (ha : Marked d p a) (hd : d < 2 ^ 31) :
    isGood parents a d d 0 m = some x ↔
      (Near d p q → x = 1) ∧ (¬ Near d p q → x = 0 ∧ ¬ Exceeds d p q) := by
  by_cases hnear : Near d p q
  · obtain ⟨k, i, c, hk, hi, hle⟩ := id hnear
    have hk0 : k ≠ 0 := by
      rintro rfl
      exact hapart.1 c hk (List.mem_of_getElem? hi)
    have hi0 : i ≠ 0 := by
      rintro rfl
      exact hapart.2 c hi (List.mem_of_getElem? hk)
    have hgood : isGood parents a d d 0 m = some 1 := by
      refine isGood_eq_one (x := k) hq (show i < d by omega) hi ((ha c k).2 ⟨k, by omega, hk, rfl⟩)
        (by omega) (by omega) fun j' hj' c' x' hget hc' ↦ ?_
      obtain ⟨k', -, hk', rfl⟩ := (ha c' x').1 hc'
      -- From a common node on, the ways are the same.
      have hdrop := (hp.drop hk').unique (hq.drop hget)
      have hsame : p[k' + (i - j')]? = some c := by
        rw [← List.getElem?_drop, hdrop, List.getElem?_drop, Nat.add_sub_cancel' hj']
        exact hi
      have heq : k' + (i - j') = k :=
        (List.getElem?_inj (List.getElem?_eq_some_iff.1 hsame).1 hnodup).1 (hsame.trans hk.symm)
      omega
    rw [hgood, Option.some_inj, eq_comm]
    exact ⟨fun h ↦ ⟨fun _ ↦ h, fun hnot ↦ absurd hnear hnot⟩, fun h ↦ h.1 hnear⟩
  · have hgt : ∀ j < d, ∀ c x, q[j]? = some c → a c = some x →
        0 ≤ x + ((0 : ℤ) + j) ∧ d < x + ((0 : ℤ) + j) := by
      intro j hj c x hget hc
      obtain ⟨k, hk, hget', rfl⟩ := (ha c x).1 hc
      have hfar : ¬ (k + j ≤ d) := fun hle ↦ hnear ⟨k, j, c, hget', hget, hle⟩
      omega
    rw [isGood_eq_some_iff hq hgt]
    constructor
    · rintro ⟨rfl, hsum⟩
      refine ⟨fun h ↦ absurd h hnear, fun _ ↦ ⟨rfl, ?_⟩⟩
      rintro ⟨k, i, c, hk, hi, hgetk, hgeti, hge⟩
      have hlt := hsum i hi c k hgeti ((ha c k).2 ⟨k, hk, hgetk, rfl⟩)
      omega
    · rintro ⟨-, h⟩
      obtain ⟨rfl, hexceeds⟩ := h hnear
      refine ⟨rfl, fun j hj c x hget hc ↦ ?_⟩
      obtain ⟨k, hk, hget', rfl⟩ := (ha c x).1 hc
      by_contra hge
      exact hexceeds ⟨k, j, c, hk, hj, hget', hget, by omega⟩

/-- The sums that are formed for two leaves are defined. -/
def Safe (d : ℕ) (p q : List ι) : Prop := ¬ Near d p q → ¬ Exceeds d p q

variable {ls : List ι} {qs : List (List ι)} {res : ℤ}

omit [DecidableEq ι] in
/-- **The loop over the other leaves** counts those that are near enough. -/
theorem compare_eq_some_iff (hp : Climbs parents n p) (hnodup : p.Nodup) (ha : Marked d p a)
    (hd : d < 2 ^ 31) (hqs : List.Forall₂ (fun n q ↦ Climbs parents (some n) q) ls qs)
    (hapart : ∀ q ∈ qs, Apart p q) (hi : 0 ≤ i) (hilt : i < 2 ^ 31) (hres : 0 ≤ res)
    (hlt : res < 2 ^ 31) :
    compare parents a d ls i res = some x ↔ i + ls.length < 2 ^ 31 ∧ (∀ q ∈ qs, Safe d p q) ∧
      res + related (Near d) p qs < 2 ^ 31 ∧ x = res + related (Near d) p qs := by
  induction hqs generalizing i res with
  | nil =>
    have hzero : related (Near d) p [] = 0 := rfl
    rw [compare, Option.some_inj, hzero, List.length_nil, Int.natCast_zero, add_zero, add_zero,
      eq_comm]
    exact ⟨fun h ↦ ⟨hilt, fun q hq ↦ absurd hq List.not_mem_nil, hlt, h⟩, fun h ↦ h.2.2.2⟩
  | @cons m q ls qs hq _ ih =>
    have hgood (g : ℤ) := isGood_iff (x := g) hp hq hnodup (hapart q List.mem_cons_self) ha hd
    have hrest (y : ℤ) (h0 : 0 ≤ i + 1) (h1 : i + 1 < 2 ^ 31) (hy : 0 ≤ y) (hy' : y < 2 ^ 31) :=
      ih (fun q hq' ↦ hapart q (List.mem_cons_of_mem _ hq')) h0 h1 hy hy'
    rw [compare, List.forall_mem_cons, List.length_cons]
    simp only [Option.bind_eq_bind, Option.bind_eq_some_iff, fit_eq_some_iff, Int.toNat_natCast,
      hgood]
    by_cases hnear : Near d p q
    · have hsafe : Safe d p q := fun h ↦ absurd hnear h
      rw [related_cons_of_pos hnear]
      constructor
      · rintro ⟨g, ⟨hg, -⟩, _, ⟨rfl, hj⟩, _, ⟨rfl, hr⟩, hx⟩
        rw [hg hnear] at hr hx
        obtain ⟨hlen', hall, hsum, rfl⟩ := (hrest _ (by omega) hj.2 (by omega) hr.2).1 hx
        exact ⟨by omega, ⟨hsafe, hall⟩, by omega, by omega⟩
      · rintro ⟨hlen', ⟨-, hall⟩, hsum, rfl⟩
        refine ⟨1, ⟨fun _ ↦ rfl, fun h ↦ absurd hnear h⟩, _, ⟨rfl, by omega⟩, _,
          ⟨rfl, by omega⟩, ?_⟩
        exact (hrest _ (by omega) (by omega) (by omega) (by omega)).2
          ⟨by omega, hall, by omega, by omega⟩
    · rw [related_cons_of_neg hnear]
      constructor
      · rintro ⟨g, ⟨-, hg⟩, _, ⟨rfl, hj⟩, _, ⟨rfl, hr⟩, hx⟩
        obtain ⟨rfl, hexceeds⟩ := hg hnear
        rw [add_zero] at hr hx
        obtain ⟨hlen', hall, hsum, rfl⟩ := (hrest _ (by omega) hj.2 (by omega) hr.2).1 hx
        exact ⟨by omega, ⟨fun _ ↦ hexceeds, hall⟩, hsum, rfl⟩
      · rintro ⟨hlen', ⟨hsafe, hall⟩, hsum, rfl⟩
        refine ⟨0, ⟨fun h ↦ absurd h hnear, fun _ ↦ ⟨rfl, hsafe hnear⟩⟩, _, ⟨rfl, by omega⟩, _,
          ⟨rfl, by omega⟩, ?_⟩
        rw [add_zero]
        exact (hrest _ (by omega) (by omega) hres hlt).2 ⟨by omega, hall, hsum, rfl⟩

/-- **The loop over the leaves** counts the pairs. -/
theorem climb_eq_some_iff (hd : d < 2 ^ 31)
    (hqs : List.Forall₂ (fun n q ↦ Climbs parents (some n) q) ls qs)
    (hnodup : ∀ q ∈ qs, q.Nodup) (hapart : qs.Pairwise Apart) (hi : 0 ≤ i) (hilt : i < 2 ^ 31)
    (hres : 0 ≤ res) (hlt : res < 2 ^ 31) :
    climb parents d ls i res = some x ↔ i + ls.length < 2 ^ 31 ∧ qs.Pairwise (Safe d) ∧
      res + countPairs (Near d) qs < 2 ^ 31 ∧ x = res + countPairs (Near d) qs := by
  induction hqs generalizing i res with
  | nil =>
    rw [climb, Option.some_inj, countPairs, List.length_nil, Int.natCast_zero, add_zero, add_zero,
      eq_comm]
    exact ⟨fun h ↦ ⟨hilt, .nil, hlt, h⟩, fun h ↦ h.2.2.2⟩
  | @cons m q ls qs hq hqs ih =>
    obtain ⟨hapart_q, hapart⟩ := List.pairwise_cons.1 hapart
    have hnodup_q := hnodup q List.mem_cons_self
    have hcompare (y : ℤ) (h0 : 0 ≤ i + 1) (h1 : i + 1 < 2 ^ 31) := compare_eq_some_iff (x := y) hq
      hnodup_q (marked_mark hq hnodup_q d) hd hqs hapart_q h0 h1 hres hlt
    have hrest (y : ℤ) (h0 : 0 ≤ i + 1) (h1 : i + 1 < 2 ^ 31) (hy : 0 ≤ y) (hy' : y < 2 ^ 31) :=
      ih (fun q hq' ↦ hnodup q (List.mem_cons_of_mem _ hq')) hapart h0 h1 hy hy'
    rw [climb, List.pairwise_cons, List.length_cons, countPairs]
    simp only [Option.bind_eq_bind, Option.bind_eq_some_iff, fit_eq_some_iff, Int.toNat_natCast]
    constructor
    · rintro ⟨_, ⟨rfl, hj⟩, y, hy, _, ⟨rfl, -⟩, hx⟩
      obtain ⟨hlen, hsafe, hsum, rfl⟩ := (hcompare y (by omega) hj.2).1 hy
      obtain ⟨-, hall, hsum', rfl⟩ := (hrest _ (by omega) hj.2 (by omega) hsum).1 hx
      exact ⟨by omega, ⟨hsafe, hall⟩, by omega, by omega⟩
    · rintro ⟨hlen, ⟨hsafe, hall⟩, hsum, rfl⟩
      refine ⟨_, ⟨rfl, by omega⟩, _, (hcompare _ (by omega) (by omega)).2
        ⟨by omega, hsafe, by omega, rfl⟩, _, ⟨rfl, by omega⟩, ?_⟩
      exact (hrest _ (by omega) (by omega) (by omega) (by omega)).2
        ⟨by omega, hall, by omega, by omega⟩

/-- The leaves and the parents that are found. -/
theorem exists_dfs1 (t : NodeTree ι) :
    ∃ parents, dfs1 t.1 none ⟨fun _ ↦ none, []⟩ = ⟨parents, leaves t.1⟩ ∧
      List.Forall₂ (fun n q ↦ Climbs parents (some n) q) (leaves t.1) (paths t.1) ∧
      ∀ a b, Child t.1 a b ↔ parents b = some a := by
  obtain ⟨hleaves, hlinked, hframe⟩ := dfs1_spec (n := none) (s := ⟨fun _ ↦ none, []⟩) t.2
  have hclimbs := hlinked.climbs (q := []) rfl
  simp only [List.append_nil] at hclimbs
  refine ⟨_, congrArg (State.mk _) hleaves, hclimbs, fun a b ↦ ?_⟩
  by_cases hb : b ∈ inorder t.1
  · rw [hlinked.parent_iff t.2 hb]
    exact ⟨Or.inl, fun h ↦ h.resolve_right fun h ↦ by cases h.2⟩
  · rw [hframe b hb]
    exact iff_of_false (fun h ↦ hb h.mem.2) fun h ↦ by cases h

/-- **What `countPairs1` returns.** -/
theorem countPairs1_eq_some_iff (t : NodeTree ι) {distance : CInt} (hdist : distance.1 = d) :
    countPairs1 t.1 distance = some x ↔ (leaves t.1).length < 2 ^ 31 ∧
      (paths t.1).Pairwise (Safe d) ∧ countPairs (Near d) (paths t.1) < 2 ^ 31 ∧
      x = countPairs (Near d) (paths t.1) := by
  obtain ⟨parents, hdfs, hclimbs, -⟩ := exists_dfs1 t
  have hd := distance.2.2
  rw [countPairs1, hdist, hdfs, climb_eq_some_iff (by omega) hclimbs
    (fun q hq ↦ nodup_of_mem_paths t.2 hq) (pairwise_apart t.2) le_rfl (by decide) le_rfl
    (by decide), zero_add, zero_add]
  constructor
  · rintro ⟨hlen, hsafe, hsum, hx⟩
    exact ⟨by omega, hsafe, by omega, hx⟩
  · rintro ⟨hlen, hsafe, hsum, hx⟩
    exact ⟨by omega, hsafe, by omega, hx⟩

end Climb

/-! ### What `countPairs2` returns -/

section Hist

variable {t l r : BinaryTree ι} {f g : List ℤ} {d j k m fuel : ℕ} {res : ℤ}

/-- The vector that is returned for a subtree. -/
def IsHist (d : ℕ) (t : BinaryTree ι) (f : List ℤ) : Prop :=
  Entries (d + 1) (fun i x ↦ x = (hist t i.toNat : ℤ)) f

theorem IsHist.get_eq (h : IsHist d t f) (hj : j ≤ d) : get f j = some ↑(hist t j) := by
  obtain ⟨x, hx, rfl⟩ := h.exists_get (Int.natCast_nonneg j) (by omega)
  exact hx

/-- The number of pairs of a leaf of the left subtree that is `k` edges below its root and a leaf of
the right one, less than `n` edges below. -/
def row (l r : BinaryTree ι) (k n : ℕ) : ℕ := ∑ j ∈ Finset.range n, hist l k * hist r j

theorem row_succ (l r : BinaryTree ι) (k n : ℕ) :
    row l r k (n + 1) = row l r k n + hist l k * hist r n := Finset.sum_range_succ _ _

theorem row_mono (l r : BinaryTree ι) (k : ℕ) {m n : ℕ} (h : m ≤ n) : row l r k m ≤ row l r k n :=
  Finset.sum_le_sum_of_subset (Finset.range_mono h)

theorem inReach_eq (hd : d + 1 < 2 ^ 31) (hm : k + m + 1 ≤ d) (res : ℤ) :
    inReach d k (m, res) = some (decide (k + m + 2 ≤ d)) := by
  rw [inReach, fit_eq (by omega), Option.bind_eq_bind, Option.bind_some, fit_eq (by omega),
    Option.bind_some, Option.some_inj, decide_eq_decide]
  omega

theorem multiply_eq (hl : IsHist d l f) (hr : IsHist d r g) (hk : k ≤ d) (hm : m < d)
    (hd : d + 1 < 2 ^ 31) (hres : 0 ≤ res) (hsum : res + row l r k (m + 1) < 2 ^ 31) :
    multiply f g k (m, res + row l r k m) = some (↑(m + 1), res + row l r k (m + 1)) := by
  have hproduct : (hist l k : ℤ) * hist r m = ↑(hist l k * hist r m) := by push_cast; rfl
  have hsucc := row_succ l r k m
  have hadd : res + row l r k m + ↑(hist l k * hist r m) = res + row l r k (m + 1) := by omega
  rw [multiply, hl.get_eq hk, hr.get_eq hm.le, Option.bind_eq_bind, Option.bind_some,
    Option.bind_some, hproduct, fit_eq (by omega), Option.bind_some]
  dsimp only
  rw [hadd, fit_eq (by omega), Option.bind_some, fit_eq (by omega), Option.bind_some,
    Int.natCast_succ]

/-- **The inner loop** adds the pairs for one distance. -/
theorem convolve_eq (hl : IsHist d l f) (hr : IsHist d r g) (hk : k < d) (hd : d + 1 < 2 ^ 31)
    (hfuel : d < fuel) (hres : 0 ≤ res) (hsum : res + row l r k (d - 1 - k) < 2 ^ 31) :
    convolve fuel d f g res k = some (res + row l r k (d - 1 - k)) := by
  have hcond (m : ℕ) (s : ℤ × ℤ) (hs : m ≤ d - 1 - k ∧ s = ((m : ℤ), res + row l r k m)) :
      inReach d k s = some (decide (k + m + 2 ≤ d)) := by
    rw [hs.2, inReach_eq hd (by omega)]
  have hstep (m : ℕ) (s : ℤ × ℤ) (hs : m ≤ d - 1 - k ∧ s = ((m : ℤ), res + row l r k m))
      (hlt : k + m + 2 ≤ d) :
      ∃ (m' : ℕ) (t : ℤ × ℤ), multiply f g k s = some t ∧
        (m' ≤ d - 1 - k ∧ t = ((m' : ℤ), res + row l r k m')) ∧
        (d - t.1).toNat < (d - s.1).toNat := by
    obtain ⟨hm, rfl⟩ := hs
    have hle := row_mono l r k (show m + 1 ≤ d - 1 - k by omega)
    exact ⟨m + 1, _, multiply_eq hl hr hk.le (by omega) hd hres (by omega), ⟨by omega, rfl⟩,
      by dsimp only; omega⟩
  obtain ⟨m, s, hrun, ⟨hm, rfl⟩, hend⟩ := exists_run_index (fun s : ℤ × ℤ ↦ (d - s.1).toNat)
    hcond hstep (k := 0) (s := (0, res)) ⟨Nat.zero_le _, Prod.ext rfl (add_zero res).symm⟩
    (show ((d : ℤ) - 0).toNat < fuel by omega)
  obtain rfl : m = d - 1 - k := by omega
  rw [convolve, hrun]
  rfl

/-- The pairs with a leaf of the left subtree that is less than `n` edges below its root. -/
def rows (d : ℕ) (l r : BinaryTree ι) (n : ℕ) : ℕ := ∑ k ∈ Finset.range n, row l r k (d - 1 - k)

/-- **The outer loop** adds all pairs with one leaf in each subtree. -/
theorem exec_convolve (hl : IsHist d l f) (hr : IsHist d r g) (hd : d + 1 < 2 ^ 31)
    (hfuel : d < fuel) (hres : 0 ≤ res) (hsum : res + rows d l r d < 2 ^ 31) :
    exec (convolve fuel d f g) res (List.range d) = some (res + rows d l r d) := by
  have hstep (k : ℕ) (x : ℤ) (hk : k < d) (hx : x = res + rows d l r k) :
      ∃ y, convolve fuel d f g x k = some y ∧ y = res + rows d l r (k + 1) := by
    have hsucc : rows d l r (k + 1) = rows d l r k + row l r k (d - 1 - k) :=
      Finset.sum_range_succ _ _
    have hle : rows d l r (k + 1) ≤ rows d l r d :=
      Finset.sum_le_sum_of_subset (Finset.range_mono hk)
    subst hx
    exact ⟨_, convolve_eq hl hr hk hd hfuel (by omega) (by omega), by omega⟩
  obtain ⟨y, hexec, rfl⟩ := exists_exec_range (I := fun k x ↦ x = res + rows d l r k) hstep
    (add_zero res).symm
  exact hexec

/-- **The last loop** adds the histograms. -/
theorem exists_shift (a : ι) (hleaf : ¬ (isNull l && isNull r) = true) (hl : IsHist d l f)
    (hr : IsHist d r g) (hsize : (leaves l).length + (leaves r).length < 2 ^ 31) :
    ∃ h, exec (shift f g) (List.replicate (d + 1) 0) (List.range d) = some h ∧
      IsHist d (.node a l r) h := by
  have hstep (k : ℕ) (h : List ℤ) (hk : k < d)
      (hh : Entries (d + 1) (Split (k + 1) (fun i x ↦ x = (hist (.node a l r) i.toNat : ℤ))
        fun _ _ ↦ True) h) :
      ∃ h', shift f g h k = some h' ∧ Entries (d + 1) (Split ((k + 1 : ℕ) + 1)
        (fun i x ↦ x = (hist (.node a l r) i.toNat : ℤ)) fun _ _ ↦ True) h' := by
    have hle_l := hist_le l k
    have hle_r := hist_le r k
    have hsum : (hist l k : ℤ) + hist r k = hist (.node a l r) (k + 1) := by
      rw [hist_node_succ a hleaf k, Int.natCast_add]
    obtain ⟨h', hput, hh'⟩ := hh.put_up (b := ↑(hist (.node a l r) (k + 1))) (by omega)
      (by omega) rfl
    refine ⟨h', ?_, hh'⟩
    rw [shift, hl.get_eq hk.le, hr.get_eq hk.le, Option.bind_eq_bind, Option.bind_some,
      Option.bind_some, fit_eq (by omega), Option.bind_some, hsum]
    exact hput
  have hstart : Entries (d + 1) (Split ((0 : ℕ) + 1)
      (fun i x ↦ x = (hist (.node a l r) i.toNat : ℤ)) fun _ _ ↦ True)
        (List.replicate (d + 1) 0) := by
    refine entries_replicate fun i h0 _ ↦ ⟨fun hlt ↦ ?_, fun _ ↦ trivial⟩
    obtain rfl : i = 0 := by omega
    exact congrArg Nat.cast (hist_node_zero a hleaf).symm
  obtain ⟨h, hexec, hh⟩ := exists_exec_range (I := fun k h ↦ Entries (d + 1) (Split ((k : ℕ) + 1)
    (fun i x ↦ x = (hist (.node a l r) i.toNat : ℤ)) fun _ _ ↦ True) h) hstep hstart
  exact ⟨h, hexec, hh.congr fun i x _ hlt hx ↦ hx.1 (by omega)⟩

/-- The histogram of a leaf. -/
theorem exists_put_leaf (a : ι) (hleaf : (isNull l && isNull r) = true) :
    ∃ f, put (List.replicate (d + 1) 0) 0 1 = some f ∧ IsHist d (.node a l r) f := by
  have hpaths : paths (.node a l r) = [[a]] := if_pos hleaf
  have hstart : Entries (d + 1) (Split 0 (fun i x ↦ x = (hist (.node a l r) i.toNat : ℤ))
      fun _ x ↦ x = 0) (List.replicate (d + 1) (0 : ℤ)) :=
    entries_split_zero_iff.2 (entries_replicate fun i _ _ ↦ rfl)
  obtain ⟨f, hput, hf⟩ := hstart.put_up (b := 1) le_rfl (by omega) (by
    rw [hist, hpaths]
    rfl)
  refine ⟨f, hput, hf.congr fun i x h0 hlt hx ↦ ?_⟩
  by_cases hi : i < 0 + 1
  · exact hx.1 hi
  · have hcount : hist (.node a l r) i.toNat = 0 := by
      rw [hist, hpaths, List.countP_singleton, if_neg]
      rw [List.length_singleton, decide_eq_true_iff]
      omega
    rw [hx.2 (by omega), hcount]
    rfl

/-- **The histogram and the pairs** of a subtree. -/
theorem dfs2_spec (hnodup : (inorder t).Nodup) (hd : d + 1 < 2 ^ 31) (hfuel : d < fuel)
    (hsize : (leaves t).length < 2 ^ 31) (hres : 0 ≤ res)
    (hsum : res + countPairs (Near d) (paths t) < 2 ^ 31) :
    ∃ f, dfs2 fuel d t res = some (f, res + countPairs (Near d) (paths t)) ∧ IsHist d t f := by
  have hlen : ((d : ℤ) + 1).toNat = d + 1 := by omega
  induction t generalizing res with
  | nil =>
    refine ⟨List.replicate (d + 1) 0, ?_, entries_replicate fun i _ _ ↦ rfl⟩
    rw [dfs2, fit_eq (by omega), Option.bind_eq_bind, Option.bind_some, hlen]
    exact congrArg (fun x ↦ some (_, x)) (add_zero res).symm
  | node a l r ihl ihr =>
    obtain ⟨hnodup_l, hnodup_r, -⟩ := nodup_node.1 hnodup
    rw [dfs2, fit_eq (by omega), Option.bind_eq_bind, Option.bind_some, hlen]
    by_cases hleaf : (isNull l && isNull r) = true
    · rw [if_pos hleaf]
      have hpaths : paths (.node a l r) = [[a]] := if_pos hleaf
      have hzero : countPairs (Near d) [[a]] = 0 := rfl
      obtain ⟨f, hput, hf⟩ := exists_put_leaf (d := d) a hleaf
      rw [hpaths, hzero, Int.natCast_zero, add_zero]
      exact ⟨f, by rw [hput]; rfl, hf⟩
    · have hpairs := countPairs_paths_node (d := d) hnodup hleaf
      have hleaves : leaves (.node a l r) = leaves l ++ leaves r := if_neg hleaf
      rw [hleaves, List.length_append] at hsize
      obtain ⟨f, hf, hist_l⟩ := ihl hnodup_l (by omega) hres (by omega)
      obtain ⟨g, hg, hist_r⟩ := ihr hnodup_r (by omega)
        (show 0 ≤ res + countPairs (Near d) (paths l) by omega) (by omega)
      obtain ⟨h, hh, hist_h⟩ := exists_shift a hleaf hist_l hist_r hsize
      have hrows : rows d l r d =
          ∑ i ∈ Finset.range d, ∑ j ∈ Finset.range (d - 1 - i), hist l i * hist r j := rfl
      rw [← hrows] at hpairs
      have hexec := exec_convolve hist_l hist_r hd hfuel (show
        0 ≤ res + countPairs (Near d) (paths l) + countPairs (Near d) (paths r) by omega) (by omega)
      refine ⟨h, ?_, hist_h⟩
      rw [if_neg hleaf, hf, Option.bind_eq_bind, Option.bind_some]
      dsimp only
      rw [hg, Option.bind_eq_bind, Option.bind_some]
      dsimp only
      rw [Int.toNat_natCast, hexec, Option.bind_some, hh, Option.bind_some, hpairs]
      refine congrArg (fun x ↦ some (h, x)) ?_
      push_cast
      omega

theorem countPairs2_eq (t : NodeTree ι) {distance : CInt} (hdist : distance.1 = d)
    (hd : d + 1 < 2 ^ 31) (hfuel : d < fuel) (hsize : (leaves t.1).length < 2 ^ 31)
    (hsum : countPairs (Near d) (paths t.1) < 2 ^ 31) :
    countPairs2 fuel t.1 distance = some ↑(countPairs (Near d) (paths t.1)) := by
  obtain ⟨f, hf, -⟩ := dfs2_spec t.2 hd hfuel hsize (show (0 : ℤ) ≤ 0 from le_rfl)
    (by omega)
  rw [countPairs2, hdist, hf, zero_add]
  rfl

theorem dfs2_eq_none {distance : ℤ} (hdist : 2 ^ 31 ≤ distance + 1) (t : BinaryTree ι) (res : ℤ) :
    dfs2 fuel distance t res = none := by
  cases t with
  | nil => rw [dfs2, fit_eq_none (by omega)]; rfl
  | node a l r => rw [dfs2, fit_eq_none (by omega)]; rfl

end Hist

/-! ### The pairs -/

/-- The shortest path has at most `d` edges. -/
def Within (t : BinaryTree ι) (d : ℕ) (a b : ι) : Prop :=
  ∃ w : (SimpleGraph.fromRel (Child t)).Walk a b, w.length ≤ d

theorem within_symm {t : BinaryTree ι} {d : ℕ} {a b : ι} (h : Within t d a b) : Within t d b a := by
  obtain ⟨w, hw⟩ := h
  exact ⟨w.reverse, by rwa [SimpleGraph.Walk.length_reverse]⟩

/-- The pairs of different leaves that are near enough. -/
def goodPairs (t : BinaryTree ι) (d : ℕ) : Set (Sym2 ι) :=
  {z | ∃ a b, a ≠ b ∧ IsLeaf t a ∧ IsLeaf t b ∧ Within t d a b ∧ z = s(a, b)}

/-- Two nodes are less than `d` edges below a common one, with distances to it whose sum is no
`int`. -/
def SumOverflows (t : BinaryTree ι) (d : ℕ) (a b : ι) : Prop :=
  ∃ (k i : ℕ) (c : ι), k < d ∧ i < d ∧ Above (Child t) k a c ∧ Above (Child t) i b c ∧
    2 ^ 31 ≤ k + i

/-- Leaves that are not near enough have such a node. -/
def FarOverflow (t : BinaryTree ι) (d : ℕ) : Prop :=
  ∃ a b, a ≠ b ∧ IsLeaf t a ∧ IsLeaf t b ∧ ¬ Within t d a b ∧ SumOverflows t d a b

variable [DecidableEq ι]

theorem ncard_goodPairs (t : NodeTree ι) (d : ℕ) :
    (goodPairs t.1 d).ncard = countPairs (Near d) (paths t.1) := by
  obtain ⟨parents, -, hclimbs, hchild⟩ := exists_dfs1 t
  have hpairs : goodPairs t.1 d = pairs (Within t.1 d) (leaves t.1) := by
    ext z
    constructor
    · rintro ⟨a, b, hne, ha, hb, h⟩
      exact ⟨a, (mem_leaves_iff t.2).2 ha, b, (mem_leaves_iff t.2).2 hb, hne, h⟩
    · rintro ⟨a, ha, b, hb, hne, h⟩
      exact ⟨a, b, hne, (mem_leaves_iff t.2).1 ha, (mem_leaves_iff t.2).1 hb, h⟩
  rw [hpairs, ncard_pairs (t.2.sublist (leaves_sublist t.1)) fun a b ↦ within_symm]
  exact countPairs_forall₂ hclimbs fun a b p q hp hq ↦
    exists_walk_iff hchild (not_child_self t.2) hp hq

theorem ncard_leaves (t : NodeTree ι) : {a | IsLeaf t.1 a}.ncard = (leaves t.1).length := by
  have hset : {a | IsLeaf t.1 a} = ↑(leaves t.1).toFinset := by
    ext a
    rw [Finset.mem_coe, List.mem_toFinset, mem_leaves_iff t.2]
    rfl
  rw [hset, Set.ncard_coe_finset,
    List.toFinset_card_of_nodup (t.2.sublist (leaves_sublist t.1))]

theorem pairwise_safe_iff (t : NodeTree ι) (d : ℕ) :
    (paths t.1).Pairwise (Safe d) ↔ ¬ FarOverflow t.1 d := by
  obtain ⟨parents, -, hclimbs, hchild⟩ := exists_dfs1 t
  have hnodup := t.2.sublist (leaves_sublist t.1)
  have hexceeds {a b : ι} {p q : List ι} (hp : Climbs parents (some a) p)
      (hq : Climbs parents (some b) q) : Exceeds d p q ↔ SumOverflows t.1 d a b := by
    simp only [Exceeds, SumOverflows, above_iff hchild hp, above_iff hchild hq]
  have hpairs : (leaves t.1).Pairwise (fun a b ↦ ¬ Within t.1 d a b → ¬ SumOverflows t.1 d a b) ↔
      (paths t.1).Pairwise (Safe d) :=
    pairwise_forall₂ hclimbs fun a b p q hp hq ↦ imp_congr
      (not_congr (exists_walk_iff hchild (not_child_self t.2) hp hq))
      (not_congr (hexceeds hp hq).symm)
  have hsymm : Std.Symm fun a b ↦ ¬ Within t.1 d a b → ¬ SumOverflows t.1 d a b := by
    refine ⟨fun a b h hfar ⟨k, i, c, hk, hi, hb, ha, hge⟩ ↦ ?_⟩
    exact h (fun hnear ↦ hfar (within_symm hnear)) ⟨i, k, c, hi, hk, ha, hb, by omega⟩
  rw [← hpairs]
  constructor
  · rintro h ⟨a, b, hne, ha, hb, hfar, hsum⟩
    exact h.forall ((mem_leaves_iff t.2).2 ha) ((mem_leaves_iff t.2).2 hb) hne hfar hsum
  · intro h
    refine hnodup.pairwise_of_forall_ne fun a ha b hb hne hfar hsum ↦ h ?_
    exact ⟨a, b, hne, (mem_leaves_iff t.2).1 ha, (mem_leaves_iff t.2).1 hb, hfar, hsum⟩

/-- Both functions return the number of pairs. -/
def CountsPairs (t : NodeTree ι) (distance : CInt) : Prop :=
  countPairs1 t.1 distance = some ↑(goodPairs t.1 distance.1.toNat).ncard ∧
    ∃ n, ∀ fuel ≥ n,
      countPairs2 fuel t.1 distance = some ↑(goodPairs t.1 distance.1.toNat).ncard

/-- **Both functions** return the number exactly if `distance + 1`, the numbers of leaves and of
pairs and the sums that are formed are values of an `int`. -/
theorem countPairs_iff (t : NodeTree ι) (distance : CInt) (h : 0 ≤ distance.1) :
    CountsPairs t distance ↔ distance.1 + 1 < 2 ^ 31 ∧ {a | IsLeaf t.1 a}.ncard < 2 ^ 31 ∧
      (goodPairs t.1 distance.1.toNat).ncard < 2 ^ 31 ∧
      ¬ FarOverflow t.1 distance.1.toNat := by
  obtain ⟨d, hd⟩ := Int.eq_ofNat_of_zero_le h
  rw [CountsPairs, hd, Int.toNat_natCast, ncard_goodPairs, ncard_leaves, ← pairwise_safe_iff,
    countPairs1_eq_some_iff t hd]
  constructor
  · rintro ⟨⟨hsize, hsafe, hsum, -⟩, n, hn⟩
    refine ⟨?_, hsize, hsum, hsafe⟩
    by_contra hge
    have hnone := hn n le_rfl
    rw [countPairs2, dfs2_eq_none (by omega)] at hnone
    cases hnone
  · rintro ⟨hlt, hsize, hsum, hsafe⟩
    exact ⟨⟨hsize, hsafe, hsum, rfl⟩, d + 1, fun fuel hfuel ↦
      countPairs2_eq t hd (by omega) (by omega) hsize hsum⟩

/-- A root with a leaf on its right and a node with one leaf on its left. -/
def tree : NodeTree ℕ :=
  ⟨.node 1 (.node 2 .nil (.node 4 .nil .nil)) (.node 3 .nil .nil), by decide⟩

theorem countPairs_iff_three : CountsPairs tree (wrap 3) := by
  obtain ⟨hsize, hsafe, hsum, -⟩ := (countPairs1_eq_some_iff (x := 1) (d := 3) tree
    (show (wrap 3).1 = 3 by decide)).1 (by decide)
  refine (countPairs_iff tree (wrap 3) (by decide)).2 ⟨by decide, ?_, ?_, ?_⟩
  · rwa [ncard_leaves]
  · rwa [ncard_goodPairs, show (wrap 3).1.toNat = 3 by decide]
  · rwa [← pairwise_safe_iff, show (wrap 3).1.toNat = 3 by decide]

/-- The distance `INT_MAX`. -/
theorem not_forall_countsPairs : ¬ ∀ (t : NodeTree ℕ) (distance : CInt), 0 ≤ distance.1 →
    CountsPairs t distance := by
  intro h
  obtain ⟨-, n, hn⟩ := h tree INT_MAX (by decide)
  have hnone := hn n le_rfl
  rw [countPairs2, dfs2_eq_none (by decide)] at hnone
  cases hnone

end NumberOfGoodLeafNodesPairs
