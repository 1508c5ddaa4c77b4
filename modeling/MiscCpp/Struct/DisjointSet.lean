import Mathlib.Algebra.Group.Int.Defs
import Mathlib.Algebra.Group.Nat.Defs
import Mathlib.Data.Finset.Card
import Mathlib.Data.Finset.Image
import MiscCpp.Library.Machine
import MiscCpp.Library.UnionFind

/-!
# The disjoint sets

`DisjointSet` against the equivalence relation that the merged pairs generate.

`Merge` increments the rank of the winner every time, so a parent link goes to a node of greater
rank, and no rank exceeds the number of merges that joined two classes (`Forest`). That bounds the
recursion of `Find`, which points each node of the path at its root and changes no root
(`Forest.findWithin`). The nodes that have the same root are those that are joined by the merged
pairs (`Represents`).

`MakeSet` computes the new size of the vectors as an `int`, so it is not defined for `INT_MAX`; for
all other indices the structure does what it is for (`setsRight_iff`).
-/

open Connectivity ParentForest

namespace Struct

/-! ### The operations -/

/-- The parents and ranks of the nodes, and the number of merges. -/
structure DisjointSet where
  parent : List ℕ
  rank : List ℕ
  edges : ℕ

/-- `std::vector::resize`: cut, or continued with zeros. -/
def resize (v : List ℕ) (n : ℕ) : List ℕ := v.take n ++ List.replicate (n - v.length) 0

namespace DisjointSet

def initial : DisjointSet where
  parent := []
  rank := []
  edges := 0

/-- A negative node is no index, and `node + 1` is an `int`. -/
def makeSet (d : DisjointSet) (node : ℤ) : Option DisjointSet :=
  if node < 0 then none
  else
    let i := node.toNat
    if d.parent.length ≤ i then
      if node + 1 < 2 ^ 31 then
        some
          { d with
            parent := (resize d.parent (i + 1)).set i i
            rank := (resize d.rank (i + 1)).set i 0 }
      else none
    else some { d with parent := d.parent.set i i, rank := d.rank.set i 0 }

/-- `Find`, as far as `fuel` calls get. -/
def findWithin : ℕ → DisjointSet → ℕ → Option (ℕ × DisjointSet)
  | 0, _, _ => none
  | fuel + 1, d, node =>
    match d.parent[node]? with
    | none => none
    | some p =>
      if p = node then some (node, d)
      else
        (findWithin fuel d p).map fun (root, d) ↦
          (root, { d with parent := d.parent.set node root })

/-- A path that does not end within as many calls as there are entries is a cycle. -/
def find (d : DisjointSet) (node : ℕ) : Option (ℕ × DisjointSet) :=
  findWithin (d.parent.length + 1) d node

/-- The part of `Merge` behind the test of the two roots. -/
def link (d : DisjointSet) (xRoot yRoot : ℕ) : Option DisjointSet := do
  let xRootRank ← d.rank[xRoot]?
  let yRootRank ← d.rank[yRoot]?
  let large := if xRootRank < yRootRank then yRoot else xRoot
  let small := if xRootRank < yRootRank then xRoot else yRoot
  some
    { parent := d.parent.set small large
      rank := d.rank.modify large (· + 1)
      edges := d.edges + 1 }

/-- `merge(x, y)`: link the roots if they differ. -/
def merge (d : DisjointSet) (x y : ℕ) : Option (Bool × DisjointSet) := do
  let (xRoot, d) ← d.find x
  let (yRoot, d) ← d.find y
  if xRoot = yRoot then some (false, d)
  else
    let d ← d.link xRoot yRoot
    some (true, d)

/-- What `Find` returns. -/
def representative (d : DisjointSet) (x : ℕ) : Option ℕ := (d.find x).map Prod.fst

end DisjointSet

/-! ### The forest -/

namespace DisjointSet

variable (d : DisjointSet) (x : ℕ)

/-- `parent[x]` -/
def par : ℕ := d.parent[x]?.getD x

/-- `rank[x]` -/
def rankOf : ℕ := d.rank[x]?.getD 0

end DisjointSet

variable {d d' : DisjointSet} {made : Finset ℕ} {x y r s fuel : ℕ}

/-- Parent links stay among the nodes made and go to greater ranks; the nodes that are no roots are
counted by `edges`. -/
structure Forest (d : DisjointSet) (made : Finset ℕ) : Prop where
  lt : ∀ x ∈ made, x < d.parent.length
  length : d.rank.length = d.parent.length
  length_lt : d.parent.length < 2 ^ 31
  closed : ∀ x ∈ made, d.par x ∈ made
  rank_lt : ∀ x ∈ made, d.par x ≠ x → d.rankOf x < d.rankOf (d.par x)
  rank_le : ∀ x ∈ made, d.rankOf x ≤ d.edges
  edges : d.edges + (made.filter fun x ↦ d.par x = x).card = made.card

/-- `d'` is `d` with other paths to the same roots. -/
structure Compresses (d d' : DisjointSet) : Prop where
  rank : d'.rank = d.rank
  edges : d'.edges = d.edges
  length : d'.parent.length = d.parent.length
  rootOf : ∀ y s, RootOf d'.par y s ↔ RootOf d.par y s

theorem Compresses.refl (d : DisjointSet) : Compresses d d := ⟨rfl, rfl, rfl, fun _ _ ↦ Iff.rfl⟩

theorem Compresses.trans {d'' : DisjointSet} (h : Compresses d d') (h' : Compresses d' d'') :
    Compresses d d'' :=
  ⟨h'.rank.trans h.rank, h'.edges.trans h.edges, h'.length.trans h.length, fun y s ↦
    (h'.rootOf y s).trans (h.rootOf y s)⟩

theorem rootOf_self_iff {p : ℕ → ℕ} : RootOf p x x ↔ p x = x := ⟨RootOf.fixed, .root⟩

/-- Compressing a path changes no root. -/
theorem Compresses.par_eq_iff (h : Compresses d d') : d'.par x = x ↔ d.par x = x := by
  rw [← rootOf_self_iff, ← rootOf_self_iff, h.rootOf]

theorem getElem?_eq_par (h : x < d.parent.length) : d.parent[x]? = some (d.par x) :=
  getElem?_eq_parents h

theorem getElem?_eq_rankOf (h : x < d.rank.length) : d.rank[x]? = some (d.rankOf x) := by
  rw [DisjointSet.rankOf, List.getElem?_eq_getElem h, Option.getD_some]

/-- A write to the vector redirects one node. -/
theorem par_set {rank : List ℕ} {edges : ℕ} (h : x < d.parent.length) (r : ℕ) :
    (DisjointSet.mk (d.parent.set x r) rank edges).par = Function.update d.par x r :=
  parents_set h r

/-- An increment changes the rank of one node. -/
theorem rankOf_modify {parent : List ℕ} {edges : ℕ} (h : r < d.rank.length) (y : ℕ) :
    (DisjointSet.mk parent (d.rank.modify r (· + 1)) edges).rankOf y =
      if y = r then d.rankOf y + 1 else d.rankOf y := by
  rw [DisjointSet.rankOf, DisjointSet.rankOf, List.getElem?_modify]
  rcases eq_or_ne y r with rfl | hne
  · simp [List.getElem?_eq_getElem h]
  · simp [hne, hne.symm]

/-- The nodes that are made are in the vector. -/
theorem Forest.card_le (F : Forest d made) : made.card ≤ d.parent.length := by
  have hsub : made ⊆ Finset.range d.parent.length := fun x hx ↦ Finset.mem_range.2 (F.lt x hx)
  exact (Finset.card_le_card hsub).trans_eq (Finset.card_range _)

theorem Forest.mem_of_rootOf (F : Forest d made) (hx : x ∈ made) (h : RootOf d.par x r) :
    r ∈ made :=
  h.mem hx F.closed

/-- **A write of `Find`**: a node is pointed at its root. -/
theorem Forest.compress (F : Forest d made) (hx : x ∈ made) (h : RootOf d.par x r) :
    Forest { d with parent := d.parent.set x r } made ∧
      Compresses d { d with parent := d.parent.set x r } := by
  have hpar : (DisjointSet.mk (d.parent.set x r) d.rank d.edges).par = Function.update d.par x r :=
    par_set (F.lt x hx) r
  have C : Compresses d { d with parent := d.parent.set x r } :=
    ⟨rfl, rfl, List.length_set .., fun y s ↦ by rw [hpar]; exact rootOf_compress_iff h⟩
  have hlen : (d.parent.set x r).length = d.parent.length := List.length_set ..
  refine ⟨⟨fun y hy ↦ hlen.symm ▸ F.lt y hy, F.length.trans hlen.symm, hlen.symm ▸ F.length_lt,
    fun y hy ↦ ?_, fun y hy hne ↦ ?_, F.rank_le, ?_⟩, C⟩
  · rw [hpar]
    rcases eq_or_ne y x with rfl | hyx
    · rw [Function.update_self]
      exact F.mem_of_rootOf hy h
    · rw [Function.update_of_ne hyx]
      exact F.closed y hy
  · rw [hpar] at hne ⊢
    rcases eq_or_ne y x with rfl | hyx
    · rw [Function.update_self] at hne ⊢
      exact h.rank_lt (C := (· ∈ made)) hy F.closed F.rank_lt fun hfix ↦
        hne (h.eq_of_fixed hfix)
    · rw [Function.update_of_ne hyx] at hne ⊢
      exact F.rank_lt y hy hne
  · rw [← F.edges]
    exact congrArg (d.edges + ·) (congrArg Finset.card
      (Finset.filter_congr fun y _ ↦ C.par_eq_iff))

/-- **`Find`** returns the root and changes no root. -/
theorem Forest.findWithin (F : Forest d made) (hx : x ∈ made)
    (hfuel : d.edges < d.rankOf x + fuel) :
    ∃ r d', DisjointSet.findWithin fuel d x = some (r, d') ∧ RootOf d.par x r ∧
      Forest d' made ∧ Compresses d d' := by
  induction fuel generalizing x with
  | zero => exact absurd (F.rank_le x hx) (Nat.not_le_of_lt hfuel)
  | succ fuel ih =>
    rw [DisjointSet.findWithin, getElem?_eq_par (F.lt x hx)]
    by_cases hroot : d.par x = x
    · exact ⟨x, d, if_pos hroot, .root hroot, F, .refl d⟩
    · have hlt := F.rank_lt x hx hroot
      obtain ⟨r, d₁, hfind, hr, F₁, C₁⟩ := ih (F.closed x hx) (by omega)
      have hxr : RootOf d.par x r := .step hroot hr
      obtain ⟨F₂, C₂⟩ := F₁.compress hx ((C₁.rootOf x r).2 hxr)
      refine ⟨r, _, ?_, hxr, F₂, C₁.trans C₂⟩
      simp only [if_neg hroot, hfind]
      rfl

/-- **`find`** returns the root and compresses the path. -/
theorem Forest.find (F : Forest d made) (hx : x ∈ made) :
    ∃ r d', d.find x = some (r, d') ∧ RootOf d.par x r ∧ Forest d' made ∧ Compresses d d' := by
  refine F.findWithin hx ?_
  have hle := F.card_le
  have hedges := F.edges
  omega

/-- The representative of a node is its root. -/
theorem Forest.representative_eq_some_iff (F : Forest d made) (hx : x ∈ made) :
    d.representative x = some r ↔ RootOf d.par x r := by
  obtain ⟨s, d', hfind, hs, -⟩ := F.find hx
  rw [DisjointSet.representative, hfind, Option.map_some, Option.some.injEq]
  constructor
  · rintro rfl
    exact hs
  · exact fun hr ↦ hs.unique hr

/-- **The writes of `Merge`**: the root `s` gets the root `r`, of no smaller rank, as its parent. -/
theorem Forest.attach (F : Forest d made) (hr : r ∈ made) (hs : s ∈ made) (hrr : d.par r = r)
    (hss : d.par s = s) (hrs : r ≠ s) (hle : d.rankOf s ≤ d.rankOf r) :
    Forest ⟨d.parent.set s r, d.rank.modify r (· + 1), d.edges + 1⟩ made := by
  have hpar : (DisjointSet.mk (d.parent.set s r) (d.rank.modify r (· + 1)) (d.edges + 1)).par =
      Function.update d.par s r := par_set (F.lt s hs) r
  have hrank : ∀ y, (DisjointSet.mk (d.parent.set s r) (d.rank.modify r (· + 1))
      (d.edges + 1)).rankOf y = if y = r then d.rankOf y + 1 else d.rankOf y :=
    rankOf_modify (F.length.symm ▸ F.lt r hr)
  have hlen : (d.parent.set s r).length = d.parent.length := List.length_set ..
  refine ⟨fun y hy ↦ hlen.symm ▸ F.lt y hy, ?_, hlen.symm ▸ F.length_lt, fun y hy ↦ ?_,
    fun y hy hne ↦ ?_, fun y hy ↦ ?_, ?_⟩
  · exact (List.length_modify ..).trans (F.length.trans hlen.symm)
  · rw [hpar]
    rcases eq_or_ne y s with rfl | hys
    · rwa [Function.update_self]
    · rw [Function.update_of_ne hys]
      exact F.closed y hy
  · rw [hpar] at hne ⊢
    rw [hrank, hrank]
    rcases eq_or_ne y s with rfl | hys
    · rw [Function.update_self, if_neg hrs.symm, if_pos rfl]
      exact Nat.lt_succ_of_le hle
    · rw [Function.update_of_ne hys] at hne ⊢
      have hlt := F.rank_lt y hy hne
      have hyr : y ≠ r := fun heq ↦ hne (heq.symm ▸ hrr)
      rw [if_neg hyr]
      split <;> omega
  · have hley := F.rank_le y hy
    rw [hrank]
    show _ ≤ d.edges + 1
    split <;> omega
  · have hroots : (made.filter fun x ↦ Function.update d.par s r x = x) =
        (made.filter fun x ↦ d.par x = x).erase s := by
      ext y
      rw [Finset.mem_erase, Finset.mem_filter, Finset.mem_filter]
      rcases eq_or_ne y s with rfl | hys
      · rw [Function.update_self]
        exact ⟨fun h ↦ absurd h.2 hrs, fun h ↦ absurd rfl h.1⟩
      · rw [Function.update_of_ne hys]
        exact ⟨fun h ↦ ⟨hys, h⟩, fun h ↦ h.2⟩
    have hmem : s ∈ made.filter fun x ↦ d.par x = x := Finset.mem_filter.2 ⟨hs, hss⟩
    have hcard := Finset.card_erase_add_one hmem
    have hedges := F.edges
    rw [hpar, hroots]
    show d.edges + 1 + _ = _
    omega

/-- One of the two roots becomes the parent of the other. -/
theorem Forest.link (F : Forest d made) (hr : r ∈ made) (hs : s ∈ made) (hrr : d.par r = r)
    (hss : d.par s = s) (hrs : r ≠ s) :
    ∃ d', d.link r s = some d' ∧ Forest d' made ∧
      (d'.par = Function.update d.par s r ∨ d'.par = Function.update d.par r s) := by
  have hrank : ∀ x ∈ made, d.rank[x]? = some (d.rankOf x) := fun x hx ↦
    getElem?_eq_rankOf (F.length.symm ▸ F.lt x hx)
  simp only [DisjointSet.link, hrank r hr, hrank s hs, Option.bind_eq_bind, Option.bind_some]
  by_cases hlt : d.rankOf r < d.rankOf s
  · simp only [if_pos hlt]
    exact ⟨_, rfl, F.attach hs hr hss hrr hrs.symm hlt.le, .inr (par_set (F.lt r hr) s)⟩
  · simp only [if_neg hlt]
    exact ⟨_, rfl, F.attach hr hs hrr hss hrs (Nat.le_of_not_lt hlt),
      .inl (par_set (F.lt s hs) r)⟩

/-! ### The classes -/

/-- The pair of `a` and `b` has been merged. -/
def Merged (pairs : List (ℕ × ℕ)) (a b : ℕ) : Prop := (a, b) ∈ pairs

variable {pairs : List (ℕ × ℕ)}

/-- Nodes have the same root if they are joined by the merged pairs. -/
structure Represents (d : DisjointSet) (made : Finset ℕ) (pairs : List (ℕ × ℕ)) : Prop where
  forest : Forest d made
  pairs_made : ∀ p ∈ pairs, p.1 ∈ made ∧ p.2 ∈ made
  joined : ∀ x ∈ made, ∀ y ∈ made, ∀ r s, RootOf d.par x r → RootOf d.par y s →
    (r = s ↔ Joined (Merged pairs) x y)

/-- A merge more joins two nodes. -/
theorem joined_merged_cons {u v : ℕ} : Joined (Merged ((x, y) :: pairs)) u v ↔
    Joined (Adding (Merged pairs) x y) u v := by
  constructor
  · refine fun h ↦ h.mono fun a b hab ↦ ?_
    rcases List.mem_cons.1 hab with heq | hmem
    · exact .inr ⟨congrArg Prod.fst heq, congrArg Prod.snd heq⟩
    · exact .inl hmem
  · refine fun h ↦ h.mono fun a b hab ↦ ?_
    rcases hab with hmem | ⟨rfl, rfl⟩
    · exact List.mem_cons_of_mem _ hmem
    · exact List.mem_cons_self

/-- Compressing paths joins nothing and separates nothing. -/
theorem Represents.compress (R : Represents d made pairs) (F : Forest d' made)
    (C : Compresses d d') : Represents d' made pairs where
  forest := F
  pairs_made := R.pairs_made
  joined x hx y hy r s hr hs := R.joined x hx y hy r s ((C.rootOf x r).1 hr) ((C.rootOf y s).1 hs)

/-- **`Find`** -/
theorem Represents.find (R : Represents d made pairs) (hx : x ∈ made) :
    ∃ r d', d.find x = some (r, d') ∧ RootOf d.par x r ∧ Represents d' made pairs ∧
      Compresses d d' := by
  obtain ⟨r, d', hfind, hr, F, C⟩ := R.forest.find hx
  exact ⟨r, d', hfind, hr, R.compress F C, C⟩

/-- Every node made has a root. -/
theorem Represents.exists_rootOf (R : Represents d made pairs) (hx : x ∈ made) :
    ∃ r, RootOf d.par x r := by
  obtain ⟨r, -, -, hr, -⟩ := R.find hx
  exact ⟨r, hr⟩

theorem Represents.joins (R : Represents d made pairs) : Joins d.par made (Merged pairs) where
  closed := R.forest.closed
  rooted _ hx := R.exists_rootOf hx
  joined := R.joined

/-- The pairs after a link of the roots of `a` and `b`, which are `x` and `y` in some order. -/
theorem Represents.of_link {a b : ℕ} (R : Represents d made pairs) (F : Forest d' made)
    (hx : x ∈ made) (hy : y ∈ made) (ha : RootOf d.par a r) (hb : RootOf d.par b s)
    (hab : a = x ∧ b = y ∨ a = y ∧ b = x) (hrs : r ≠ s)
    (hpar : d'.par = Function.update d.par s r) : Represents d' made ((x, y) :: pairs) where
  forest := F
  pairs_made p hp := by
    rcases List.mem_cons.1 hp with rfl | hp
    · exact ⟨hx, hy⟩
    · exact R.pairs_made p hp
  joined := by
    have ham : a ∈ made ∧ b ∈ made := by
      rcases hab with ⟨rfl, rfl⟩ | ⟨rfl, rfl⟩
      · exact ⟨hx, hy⟩
      · exact ⟨hy, hx⟩
    have J := R.joins.link ham.1 ham.2 ha hb hrs
    rw [← hpar] at J
    refine (J.congr fun u v ↦ ?_).joined
    rw [joined_merged_cons, joined_add, joined_add]
    rcases hab with ⟨rfl, rfl⟩ | ⟨rfl, rfl⟩
    · exact Iff.rfl
    · exact or_congr_right or_comm

/-- **`Merge`** -/
theorem Represents.merge (R : Represents d made pairs) (hx : x ∈ made) (hy : y ∈ made) :
    ∃ b d', d.merge x y = some (b, d') ∧ (b = true ↔ ¬ Joined (Merged pairs) x y) ∧
      Represents d' made ((x, y) :: pairs) := by
  obtain ⟨r, d₁, hfind₁, hr, R₁, C₁⟩ := R.find hx
  obtain ⟨s, d₂, hfind₂, hs, R₂, C₂⟩ := R₁.find hy
  have hr₂ : RootOf d₂.par x r := (C₂.rootOf x r).2 ((C₁.rootOf x r).2 hr)
  have hs₂ : RootOf d₂.par y s := (C₂.rootOf y s).2 hs
  have hiff := R₂.joined x hx y hy r s hr₂ hs₂
  simp only [DisjointSet.merge, hfind₁, hfind₂, Option.bind_eq_bind, Option.bind_some]
  by_cases hrs : r = s
  · refine ⟨false, d₂, if_pos hrs, by simp [← hiff, hrs], ?_⟩
    refine ⟨R₂.forest, ?_, fun u hu v hv t t' ht ht' ↦ ?_⟩
    · intro p hp
      rcases List.mem_cons.1 hp with rfl | hp
      · exact ⟨hx, hy⟩
      · exact R.pairs_made p hp
    · rw [joined_merged_cons, joined_add_of_joined (hiff.1 hrs)]
      exact R₂.joined u hu v hv t t' ht ht'
  · have hrm := R₂.forest.mem_of_rootOf hx hr₂
    have hsm := R₂.forest.mem_of_rootOf hy hs₂
    obtain ⟨d₃, hlink, F₃, hpar⟩ := R₂.forest.link hrm hsm hr₂.fixed hs₂.fixed hrs
    refine ⟨true, d₃, by rw [if_neg hrs, hlink]; rfl, by simp [← hiff, hrs], ?_⟩
    rcases hpar with hpar | hpar
    · exact R₂.of_link F₃ hx hy hr₂ hs₂ (.inl ⟨rfl, rfl⟩) hrs hpar
    · exact R₂.of_link F₃ hx hy hs₂ hr₂ (.inr ⟨rfl, rfl⟩) (Ne.symm hrs) hpar

/-! ### New nodes -/

theorem length_resize (v : List ℕ) (n : ℕ) : (resize v n).length = n := by
  rw [resize, List.length_append, List.length_take, List.length_replicate]
  omega

theorem getElem?_resize {v : List ℕ} {n i : ℕ} (hi : i < v.length) (hn : i < n) :
    (resize v n)[i]? = v[i]? := by
  rw [resize, List.getElem?_append_left (by rw [List.length_take]; omega),
    List.getElem?_take_of_lt hn]

/-- `d'` is `d` with the node `x` as a new root. -/
structure AddsRoot (d d' : DisjointSet) (made : Finset ℕ) (x : ℕ) : Prop where
  notMem : x ∉ made
  lt : ∀ y ∈ insert x made, y < d'.parent.length
  length : d'.rank.length = d'.parent.length
  length_lt : d'.parent.length < 2 ^ 31
  edges : d'.edges = d.edges
  par_self : d'.par x = x
  rankOf_self : d'.rankOf x = 0
  par : ∀ y ∈ made, d'.par y = d.par y
  rankOf : ∀ y ∈ made, d'.rankOf y = d.rankOf y

/-- A new root, in vectors that have the entries of the nodes made. -/
theorem Forest.addsRoot {v w : List ℕ} (F : Forest d made) (hx : x ∉ made)
    (hlt : x < v.length) (hlen : w.length = v.length) (hlen' : v.length < 2 ^ 31)
    (hv : ∀ y ∈ made, v[y]? = d.parent[y]?) (hw : ∀ y ∈ made, w[y]? = d.rank[y]?) :
    AddsRoot d ⟨v.set x x, w.set x 0, d.edges⟩ made x := by
  have hne : ∀ y ∈ made, x ≠ y := fun y hy heq ↦ hx (heq ▸ hy)
  refine ⟨hx, ?_, ?_, ?_, rfl, ?_, ?_, fun y hy ↦ ?_, fun y hy ↦ ?_⟩
  · rw [Finset.forall_mem_insert, List.length_set]
    refine ⟨hlt, fun y hy ↦ ?_⟩
    have hsome := hv y hy
    rw [getElem?_eq_par (F.lt y hy)] at hsome
    exact (List.getElem?_eq_some_iff.1 hsome).1
  · rw [List.length_set, List.length_set, hlen]
  · rwa [List.length_set]
  · rw [DisjointSet.par, List.getElem?_set_self hlt, Option.getD_some]
  · rw [DisjointSet.rankOf, List.getElem?_set_self (hlen.symm ▸ hlt), Option.getD_some]
  · rw [DisjointSet.par, List.getElem?_set_ne (hne y hy), hv y hy, DisjointSet.par]
  · rw [DisjointSet.rankOf, List.getElem?_set_ne (hne y hy), hw y hy, DisjointSet.rankOf]

/-- A new root keeps the forest. -/
theorem Forest.add (F : Forest d made) (A : AddsRoot d d' made x) : Forest d' (insert x made) where
  lt := A.lt
  length := A.length
  length_lt := A.length_lt
  closed := by
    rw [Finset.forall_mem_insert, A.par_self]
    refine ⟨Finset.mem_insert_self x made, fun y hy ↦ ?_⟩
    rw [A.par y hy]
    exact Finset.mem_insert_of_mem (F.closed y hy)
  rank_lt := by
    rw [Finset.forall_mem_insert]
    refine ⟨fun hne ↦ absurd A.par_self hne, fun y hy hne ↦ ?_⟩
    rw [A.par y hy] at hne ⊢
    rw [A.rankOf y hy, A.rankOf _ (F.closed y hy)]
    exact F.rank_lt y hy hne
  rank_le := by
    rw [Finset.forall_mem_insert, A.rankOf_self, A.edges]
    refine ⟨Nat.zero_le _, fun y hy ↦ ?_⟩
    rw [A.rankOf y hy]
    exact F.rank_le y hy
  edges := by
    have hroots : (made.filter fun y ↦ d'.par y = y) = made.filter fun y ↦ d.par y = y :=
      Finset.filter_congr fun y hy ↦ by rw [A.par y hy]
    rw [Finset.filter_insert, if_pos A.par_self, hroots, A.edges,
      Finset.card_insert_of_notMem A.notMem,
      Finset.card_insert_of_notMem (fun hmem ↦ A.notMem (Finset.mem_filter.1 hmem).1),
      ← F.edges, Nat.add_assoc]

/-- A new root is joined with itself only. -/
theorem Represents.add (R : Represents d made pairs) (A : AddsRoot d d' made x) :
    Represents d' (insert x made) pairs := by
  have hold : ∀ y ∈ made, ∀ r, RootOf d'.par y r → RootOf d.par y r := fun y hy r hr ↦
    hr.congr (C := (· ∈ made)) hy (fun z hz ↦ (A.par z hz).symm ▸ R.forest.closed z hz)
      fun z hz ↦ (A.par z hz).symm
  have hisolated : ∀ z, ¬ Merged pairs x z ∧ ¬ Merged pairs z x := fun z ↦
    ⟨fun h ↦ A.notMem (R.pairs_made _ h).1, fun h ↦ A.notMem (R.pairs_made _ h).2⟩
  refine ⟨R.forest.add A, fun p hp ↦ ?_, fun y hy z hz r s hr hs ↦ ?_⟩
  · exact ⟨Finset.mem_insert_of_mem (R.pairs_made p hp).1,
      Finset.mem_insert_of_mem (R.pairs_made p hp).2⟩
  · rcases Finset.mem_insert.1 hy with rfl | hy'
    · obtain rfl := hr.eq_of_fixed A.par_self
      rcases Finset.mem_insert.1 hz with rfl | hz'
      · obtain rfl := hs.eq_of_fixed A.par_self
        exact iff_of_true rfl (.refl _ _)
      · refine iff_of_false (fun heq ↦ A.notMem ?_) fun h ↦
          A.notMem (h.eq_of_isolated hisolated ▸ hz')
        exact heq ▸ R.forest.mem_of_rootOf hz' (hold z hz' s hs)
    · rcases Finset.mem_insert.1 hz with rfl | hz'
      · obtain rfl := hs.eq_of_fixed A.par_self
        refine iff_of_false (fun heq ↦ A.notMem ?_) fun h ↦
          A.notMem (h.symm.eq_of_isolated hisolated ▸ hy')
        exact heq ▸ R.forest.mem_of_rootOf hy' (hold y hy' r hr)
      · exact R.joined y hy' z hz' r s (hold y hy' r hr) (hold z hz' s hs)

/-- **`MakeSet`** of a new node. -/
theorem Represents.makeSet (R : Represents d made pairs) (hx : x ∉ made) (hlt : x + 1 < 2 ^ 31) :
    ∃ d', d.makeSet x = some d' ∧ Represents d' (insert x made) pairs := by
  rw [DisjointSet.makeSet, if_neg (by omega)]
  simp only [Int.toNat_natCast]
  split
  next hle =>
    rw [if_pos (by omega)]
    refine ⟨_, rfl, R.add (R.forest.addsRoot hx ?_ ?_ ?_ (fun y hy ↦ ?_) fun y hy ↦ ?_)⟩
    · rw [length_resize]
      exact Nat.lt_succ_self x
    · rw [length_resize, length_resize]
    · rwa [length_resize]
    · have hy' := R.forest.lt y hy
      exact getElem?_resize hy' (by omega)
    · have hy' := R.forest.lt y hy
      exact getElem?_resize (R.forest.length.symm ▸ hy') (by omega)
  next hgt =>
    exact ⟨_, rfl, R.add (R.forest.addsRoot hx (Nat.lt_of_not_le hgt) R.forest.length
      R.forest.length_lt (fun _ _ ↦ rfl) fun _ _ ↦ rfl)⟩

/-- What `MakeSet` is defined for. -/
theorem Represents.of_makeSet {node : ℤ} (R : Represents d made pairs)
    (h : d.makeSet node = some d') : 0 ≤ node ∧ node < 2 ^ 31 - 1 := by
  have hlen := R.forest.length_lt
  rw [DisjointSet.makeSet] at h
  obtain ⟨hneg, h⟩ := Option.ite_none_left_eq_some.1 h
  refine ⟨by omega, ?_⟩
  simp only at h
  split at h
  next =>
    have hlt := (Option.ite_none_right_eq_some.1 h).1
    omega
  next => omega

/-- At the start nothing is made and nothing merged. -/
theorem represents_initial : Represents .initial ∅ [] where
  forest :=
    ⟨by simp, rfl, by decide, by simp, by simp, by simp, rfl⟩
  pairs_made := by simp
  joined := by simp

/-! ### Sequences of operations -/

/-- The operations on the sets. -/
inductive SetOp where
  | makeSet (node : ℤ)
  | find (node : ℕ)
  | merge (x y : ℕ)

/-- The structure, the nodes made and the pairs merged. -/
structure Sets where
  sets : DisjointSet
  made : Finset ℕ
  pairs : List (ℕ × ℕ)

namespace Sets

def initial : Sets where
  sets := .initial
  made := ∅
  pairs := []

/-- The sets after one operation, with what has been made and merged. -/
def step (s : Sets) : SetOp → Option Sets
  | .makeSet node =>
    (s.sets.makeSet node).map fun d ↦ { s with sets := d, made := insert node.toNat s.made }
  | .find node => (s.sets.find node).map fun (_, d) ↦ { s with sets := d }
  | .merge x y =>
    (s.sets.merge x y).map fun (_, d) ↦ { s with sets := d, pairs := (x, y) :: s.pairs }

/-- Nodes are made once, and the other operations are called with nodes that are made. -/
def Calls (s : Sets) : SetOp → Prop
  | .makeSet node => ∀ x ∈ s.made, (x : ℤ) ≠ node
  | .find node => node ∈ s.made
  | .merge x y => x ∈ s.made ∧ y ∈ s.made

instance decidableCalls : ∀ (s : Sets) (op : SetOp), Decidable (s.Calls op)
  | s, .makeSet node => inferInstanceAs (Decidable (∀ x ∈ s.made, (x : ℤ) ≠ node))
  | s, .find node => inferInstanceAs (Decidable (node ∈ s.made))
  | s, .merge x y => inferInstanceAs (Decidable (x ∈ s.made ∧ y ∈ s.made))

end Sets

/-- What the structure is for: `Find` returns and changes no representative, nodes share one if they
are joined by the merged pairs, `Merge` returns whether they have not been, `edges` is the number of
nodes without the number of classes, and the rank increases along each parent link. -/
structure SetsRight (s : Sets) : Prop where
  find : ∀ x ∈ s.made, ∃ r d, s.sets.find x = some (r, d) ∧
    ∀ y ∈ s.made, d.representative y = s.sets.representative y
  shares : ∀ x ∈ s.made, ∀ y ∈ s.made,
    (s.sets.representative x = s.sets.representative y ↔ Joined (Merged s.pairs) x y)
  merge : ∀ x ∈ s.made, ∀ y ∈ s.made, ∃ b d, s.sets.merge x y = some (b, d) ∧
    (b = true ↔ ¬ Joined (Merged s.pairs) x y)
  edges : s.sets.edges + (s.made.image s.sets.representative).card = s.made.card
  rank : ∀ x ∈ s.made, ∀ p, s.sets.parent[x]? = some p → p ≠ x →
    ∃ i j, s.sets.rank[x]? = some i ∧ s.sets.rank[p]? = some j ∧ i < j

theorem Represents.representative_eq (R : Represents d made pairs) (hx : x ∈ made)
    (hr : RootOf d.par x r) : d.representative x = some r :=
  (R.forest.representative_eq_some_iff hx).2 hr

/-- The classes are counted by their roots. -/
theorem Represents.card_representatives (R : Represents d made pairs) :
    (made.image d.representative).card = (made.filter fun x ↦ d.par x = x).card := by
  have himage : made.image d.representative =
      (made.filter fun x ↦ d.par x = x).image some := by
    ext o
    rw [Finset.mem_image, Finset.mem_image]
    constructor
    · rintro ⟨x, hx, rfl⟩
      obtain ⟨r, hr⟩ := R.exists_rootOf hx
      have hmem : r ∈ made.filter fun x ↦ d.par x = x :=
        Finset.mem_filter.2 ⟨R.forest.mem_of_rootOf hx hr, hr.fixed⟩
      exact ⟨r, hmem, (R.representative_eq hx hr).symm⟩
    · rintro ⟨r, hr, rfl⟩
      obtain ⟨hr, hfix⟩ := Finset.mem_filter.1 hr
      exact ⟨r, hr, R.representative_eq hr (.root hfix)⟩
  rw [himage, Finset.card_image_of_injective _ (Option.some_injective _)]

/-- Sets that represent the operations answer right. -/
theorem Represents.setsRight {s : Sets} (R : Represents s.sets s.made s.pairs) : SetsRight s where
  find x hx := by
    obtain ⟨r, d, hfind, -, R', C⟩ := R.find hx
    refine ⟨r, d, hfind, fun y hy ↦ ?_⟩
    obtain ⟨t, ht⟩ := R.exists_rootOf hy
    rw [R.representative_eq hy ht, R'.representative_eq hy ((C.rootOf y t).2 ht)]
  shares x hx y hy := by
    obtain ⟨r, hr⟩ := R.exists_rootOf hx
    obtain ⟨t, ht⟩ := R.exists_rootOf hy
    rw [R.representative_eq hx hr, R.representative_eq hy ht, Option.some.injEq]
    exact R.joined x hx y hy r t hr ht
  merge x hx y hy := by
    obtain ⟨b, d, hmerge, hb, -⟩ := R.merge hx hy
    exact ⟨b, d, hmerge, hb⟩
  edges := by rw [R.card_representatives, R.forest.edges]
  rank x hx p hp hne := by
    rw [getElem?_eq_par (R.forest.lt x hx), Option.some.injEq] at hp
    subst hp
    have hlt : ∀ y ∈ s.made, y < s.sets.rank.length := fun y hy ↦
      R.forest.length.symm ▸ R.forest.lt y hy
    exact ⟨_, _, getElem?_eq_rankOf (hlt x hx), getElem?_eq_rankOf (hlt _ (R.forest.closed x hx)),
      R.forest.rank_lt x hx hne⟩

/-- **A step** keeps the classes; it is defined if a node that it makes is one below `INT_MAX`. -/
theorem Represents.step {s : Sets} {op : SetOp} (R : Represents s.sets s.made s.pairs)
    (hcalls : s.Calls op) (hop : ∀ node, op = .makeSet node → 0 ≤ node ∧ node < 2 ^ 31 - 1) :
    ∃ s', s.step op = some s' ∧ Represents s'.sets s'.made s'.pairs := by
  cases op with
  | makeSet node =>
    obtain ⟨hnn, hlt⟩ := hop node rfl
    obtain ⟨x, rfl⟩ := Int.eq_ofNat_of_zero_le hnn
    have hx : x ∉ s.made := fun hx ↦ hcalls x hx rfl
    obtain ⟨d, hd, R'⟩ := R.makeSet hx (by omega)
    exact ⟨_, by rw [Sets.step, hd, Option.map_some], R'⟩
  | find node =>
    obtain ⟨r, d, hd, -, R', -⟩ := R.find hcalls
    exact ⟨_, by rw [Sets.step, hd, Option.map_some], R'⟩
  | merge x y =>
    obtain ⟨b, d, hd, -, R'⟩ := R.merge hcalls.1 hcalls.2
    exact ⟨_, by rw [Sets.step, hd, Option.map_some], R'⟩

/-- **A run** of operations is represented. -/
theorem Represents.exec {s : Sets} {ops : List SetOp} (R : Represents s.sets s.made s.pairs)
    (hcalls : Machine.Always Sets.step Sets.Calls s ops)
    (hops : ∀ node, .makeSet node ∈ ops → 0 ≤ node ∧ node < 2 ^ 31 - 1) :
    ∃ s', Machine.exec Sets.step s ops = some s' ∧ Represents s'.sets s'.made s'.pairs := by
  induction ops generalizing s with
  | nil => exact ⟨s, rfl, R⟩
  | cons op ops ih =>
    obtain ⟨u, hu, R'⟩ := R.step hcalls.1 fun node heq ↦ hops node (heq ▸ List.mem_cons_self)
    obtain ⟨t, ht, Rt⟩ := ih R' (hcalls.2 u hu) fun node h ↦ hops node (List.mem_cons_of_mem _ h)
    exact ⟨t, by rw [Machine.exec_cons, hu, Option.bind_some, ht], Rt⟩

/-- A run that is defined makes no other nodes. -/
theorem Represents.of_exec {s t : Sets} {ops : List SetOp} {node : ℤ}
    (R : Represents s.sets s.made s.pairs)
    (hcalls : Machine.Always Sets.step Sets.Calls s ops)
    (h : Machine.exec Sets.step s ops = some t) (hmem : .makeSet node ∈ ops) :
    0 ≤ node ∧ node < 2 ^ 31 - 1 := by
  induction ops generalizing s with
  | nil => cases hmem
  | cons op ops ih =>
    obtain ⟨u, hu, ht⟩ := Option.bind_eq_some_iff.1 h
    have hop : ∀ node, op = .makeSet node → 0 ≤ node ∧ node < 2 ^ 31 - 1 := by
      rintro node rfl
      obtain ⟨d, hd, -⟩ := Option.map_eq_some_iff.1 hu
      exact R.of_makeSet hd
    rcases List.mem_cons.1 hmem with rfl | hmem
    · exact hop node rfl
    · obtain ⟨u', hu', R'⟩ := R.step hcalls.1 hop
      obtain rfl := Option.some.inj (hu.symm.trans hu')
      exact ih R' (hcalls.2 _ hu) ht hmem

/-- **Exactly when the disjoint sets are right**: every node made is an index below `INT_MAX`. -/
theorem setsRight_iff {ops : List SetOp}
    (hcalls : Machine.Always Sets.step Sets.Calls .initial ops) :
    (∃ s, Machine.exec Sets.step .initial ops = some s ∧ SetsRight s) ↔
      ∀ node, .makeSet node ∈ ops → 0 ≤ node ∧ node < 2 ^ 31 - 1 := by
  constructor
  · rintro ⟨s, hs, -⟩ node hmem
    exact Represents.of_exec (s := .initial) represents_initial hcalls hs hmem
  · intro hops
    obtain ⟨s, hs, R⟩ := Represents.exec (s := .initial) represents_initial hcalls hops
    exact ⟨s, hs, R.setsRight⟩

/-- Three nodes, two of them merged. -/
theorem setsRight_threeNodes :
    ∃ s, Machine.exec Sets.step .initial
      [.makeSet 3, .makeSet 0, .makeSet 1, .merge 0 3, .find 0, .merge 3 0] = some s ∧
        SetsRight s :=
  (setsRight_iff (by decide)).2 (by simp)

/-- `MakeSet(INT_MAX)` is not defined. -/
theorem not_forall_setsRight : ¬ ∀ ops : List SetOp,
    Machine.Always Sets.step Sets.Calls .initial ops →
      ∃ s, Machine.exec Sets.step .initial ops = some s ∧ SetsRight s := by
  intro hall
  obtain ⟨s, hs, -⟩ := hall [.makeSet (2 ^ 31 - 1)]
    ⟨fun x hx ↦ absurd hx (Finset.notMem_empty x), fun _ _ ↦ trivial⟩
  cases hs

end Struct
