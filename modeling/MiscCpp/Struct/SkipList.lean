import Mathlib.Data.List.Induction
import Mathlib.Data.List.TakeWhile
import MiscCpp.Library.CInt
import MiscCpp.Library.SinglyLinked

/-!
# The skip list

`SkipList` against a set of integers.

The nodes are a sorted list, and the pointers of a level lead from `head_` through those that reach
this level to `tail_` (`Represents`). A search goes down the levels and finds at each of them the
last node below the value (`Represents.absLowerBound`), so an insertion that links the new node
behind these nodes inserts it at its place in the list.

The search ends at `tail_` at the latest, and `Find` and `Insert` take `tail_` for a node with the
value `INT_MAX`. So the list is a set of the other integers (`findRight_iff`).
-/

open SinglyLinked CInt

namespace Struct

/-! ### The nodes -/

/-- The address of a node: the two in the list itself, and those of `new`. -/
inductive NodeRef where
  | head
  | tail
  | new (n : ℕ)
  deriving DecidableEq

/-- A node with the pointers of its levels. -/
structure SkipNode where
  value : CInt
  level : ℕ
  forward : List (Option NodeRef)

/-- A new node, whose pointers are null. -/
def SkipNode.construct (value : CInt) (level : ℕ) : SkipNode where
  value := value
  level := level
  forward := List.replicate (level + 1) none

/-- The highest level of a node. -/
def MAX_LEVEL : ℕ := 8

/-- The loop of `GetRandomLevel` with `k` more levels to go; `coins` are the results of
`RandomInt(0, 1)`. -/
def randomLevelFrom (coins : ℕ → Bool) (ret : ℕ) : ℕ → ℕ
  | 0 => ret
  | k + 1 => if coins ret then randomLevelFrom coins (ret + 1) k else ret

/-- The level of a new node, by tosses of a coin. -/
def getRandomLevel (coins : ℕ → Bool) : ℕ := randomLevelFrom coins 0 MAX_LEVEL

/-- The level grows by at most one for each toss. -/
theorem randomLevelFrom_le (coins : ℕ → Bool) (ret k : ℕ) :
    randomLevelFrom coins ret k ≤ ret + k := by
  induction k generalizing ret with
  | zero => exact Nat.le_refl ret
  | succ k ih =>
    have hle := ih (ret + 1)
    rw [randomLevelFrom]
    split <;> omega

theorem getRandomLevel_le (coins : ℕ → Bool) : getRandomLevel coins ≤ MAX_LEVEL :=
  (randomLevelFrom_le coins 0 MAX_LEVEL).trans_eq (Nat.zero_add _)

/-- The list, with the nodes that have been allocated. -/
structure SkipList where
  head : SkipNode
  tail : SkipNode
  nodes : List SkipNode
  curMaxLevel : ℕ

namespace SkipList

/-- `SkipList()` -/
def initial : SkipList where
  head := { SkipNode.construct INT_MIN MAX_LEVEL with
    forward := List.replicate (MAX_LEVEL + 1) (some .tail) }
  tail := .construct INT_MAX MAX_LEVEL
  nodes := []
  curMaxLevel := 0

variable (s : SkipList)

/-- The node at an address. -/
def node : NodeRef → Option SkipNode
  | .head => some s.head
  | .tail => some s.tail
  | .new n => s.nodes[n]?

/-- Write a node. -/
def setNode : NodeRef → SkipNode → SkipList
  | .head, x => { s with head := x }
  | .tail, x => { s with tail := x }
  | .new n, x => { s with nodes := s.nodes.set n x }

/-- `r->forward_[i]`, undefined for an index outside the vector. -/
def forwardAt (r : NodeRef) (i : ℕ) : Option (Option NodeRef) := (s.node r).bind (·.forward[i]?)

/-- `r->forward_[i] = p` -/
def setForward (r : NodeRef) (i : ℕ) (p : Option NodeRef) : Option SkipList :=
  (s.node r).bind fun x ↦
    if i < x.forward.length then some (s.setNode r { x with forward := x.forward.set i p })
    else none

/-! ### The operations -/

/-- The inner loop of `AbsLowerBound` at level `i`, as far as `fuel` turns get. -/
def walk (value : CInt) (i : ℕ) : ℕ → NodeRef → Option NodeRef
  | 0, _ => none
  | fuel + 1, r => do
    match ← s.forwardAt r i with
    | none => some r
    | some next =>
      let x ← s.node next
      if x.value < value then walk value i fuel next else some r

/-- The outer loop, with the levels below `k` to go. A walk over more nodes than there are does not
end. -/
def searchDown (value : CInt) : ℕ → NodeRef → Option (List NodeRef)
  | 0, _ => some []
  | k + 1, r => do
    let r ← s.walk value k (s.nodes.length + 1) r
    let ret ← searchDown value k r
    some (r :: ret)

def absLowerBound (value : CInt) : Option (List NodeRef) :=
  (s.searchDown value (s.curMaxLevel + 1) .head).map List.reverse

/-- The test that `Find` and `Insert` begin with: the node that is returned, if there is one. -/
def hit (value : CInt) (prev : NodeRef) : Option (Option NodeRef) := do
  match ← s.forwardAt prev 0 with
  | none => some none
  | some next =>
    let x ← s.node next
    if x.value = value then some (some next) else some none

/-- The node with the value, if there is one. -/
def find (value : CInt) : Option (Option NodeRef) := do
  let prev ← (← s.absLowerBound value).head?
  s.hit value prev

/-- The new node is put behind `prev` at level `i`. -/
def spliceAfter (newNode : NodeRef) (prev : NodeRef) (i : ℕ) : Option SkipList := do
  let next ← s.forwardAt prev i
  let s ← s.setForward newNode i next
  s.setForward prev i (some newNode)

/-- The new node is the only one at level `i`. -/
def spliceNew (newNode : NodeRef) (i : ℕ) : Option SkipList := do
  let s ← s.setForward .head i (some newNode)
  s.setForward newNode i (some .tail)

/-- Insert a value, with tosses for the level; a value that is there stays the only one. -/
def insert (value : CInt) (coins : ℕ → Bool) : Option (NodeRef × SkipList) := do
  let lowerBound ← s.absLowerBound value
  let prev ← lowerBound.head?
  match ← s.hit value prev with
  | some r => some (r, s)
  | none =>
    let newLevel := getRandomLevel coins
    let newNode := NodeRef.new s.nodes.length
    let t := { s with nodes := s.nodes ++ [.construct value newLevel] }
    let t ← (List.range (min newLevel s.curMaxLevel + 1)).foldlM
      (fun t i ↦ lowerBound[i]?.bind fun prev ↦ t.spliceAfter newNode prev i) t
    if newLevel > s.curMaxLevel then
      -- from `newLevel` down to `cur_max_level_ + 1`
      let t ← ((List.range' (s.curMaxLevel + 1) (newLevel - s.curMaxLevel)).reverse).foldlM
        (fun t i ↦ t.spliceNew newNode i) t
      some (newNode, { t with curMaxLevel := newLevel })
    else some (newNode, t)

/-! ### What a write changes -/

/-- The pointer of a node at a level, null where there is none. -/
def next (i : ℕ) (r : NodeRef) : Option NodeRef := (s.forwardAt r i).join

end SkipList

variable {s s' t : SkipList} {r : NodeRef} {x : SkipNode} {p : Option NodeRef} {i : ℕ}

/-- A write changes its own node. -/
theorem node_setNode (hr : s.node r = some x) (y : SkipNode) (q : NodeRef) :
    (s.setNode r y).node q = if q = r then some y else s.node q := by
  cases r with
  | head => cases q <;> rfl
  | tail => cases q <;> rfl
  | new n =>
    cases q with
    | head => rfl
    | tail => rfl
    | new m =>
      have hlt : n < s.nodes.length := (List.getElem?_eq_some_iff.1 hr).1
      show (s.nodes.set n y)[m]? = _
      rcases eq_or_ne m n with rfl | hne
      · rw [if_pos rfl, List.getElem?_set_self hlt]
      · rw [if_neg (by simpa using hne), List.getElem?_set_ne hne.symm]
        rfl

/-- A list that differs in the pointers only. -/
structure Relinks (s t : SkipList) : Prop where
  node : ∀ r x, s.node r = some x → ∃ y, t.node r = some y ∧ y.value = x.value ∧
    y.level = x.level ∧ y.forward.length = x.forward.length
  length : t.nodes.length = s.nodes.length
  curMaxLevel : t.curMaxLevel = s.curMaxLevel

theorem Relinks.refl (s : SkipList) : Relinks s s :=
  ⟨fun _ x h ↦ ⟨x, h, rfl, rfl, rfl⟩, rfl, rfl⟩

theorem Relinks.trans {u : SkipList} (h : Relinks s t) (h' : Relinks t u) : Relinks s u := by
  refine ⟨fun r x hx ↦ ?_, h'.length.trans h.length, h'.curMaxLevel.trans h.curMaxLevel⟩
  obtain ⟨y, hy, hyv, hyl, hyf⟩ := h.node r x hx
  obtain ⟨z, hz, hzv, hzl, hzf⟩ := h'.node r y hy
  exact ⟨z, hz, hzv.trans hyv, hzl.trans hyl, hzf.trans hyf⟩

/-- **A write** of a pointer that the node has. -/
theorem setForward_spec (hx : s.node r = some x) (hi : i < x.forward.length)
    (p : Option NodeRef) : ∃ t, s.setForward r i p = some t ∧ Relinks s t ∧
      t.next i = Function.update (s.next i) r p ∧ ∀ j, j ≠ i → t.next j = s.next j := by
  have hnode := node_setNode hx { x with forward := x.forward.set i p }
  have hnext : ∀ j, (s.setNode r { x with forward := x.forward.set i p }).next j =
      if j = i then Function.update (s.next i) r p else s.next j := by
    intro j
    funext q
    rw [SkipList.next, SkipList.forwardAt, hnode]
    rcases eq_or_ne q r with rfl | hqr
    · rw [if_pos rfl, Option.bind_some]
      rcases eq_or_ne j i with rfl | hji
      · rw [if_pos rfl, Function.update_self, List.getElem?_set_self hi]
        rfl
      · rw [if_neg hji, List.getElem?_set_ne hji.symm, SkipList.next, SkipList.forwardAt, hx]
        rfl
    · rw [if_neg hqr]
      split
      next heq => rw [Function.update_of_ne hqr, heq, SkipList.next, SkipList.forwardAt]
      next => rfl
  refine ⟨s.setNode r { x with forward := x.forward.set i p }, ?_, ⟨fun q y hy ↦ ?_, ?_, ?_⟩, ?_,
    fun j hj ↦ ?_⟩
  · rw [SkipList.setForward, hx, Option.bind_some, if_pos hi]
  · rw [hnode]
    rcases eq_or_ne q r with rfl | hqr
    · obtain rfl := Option.some.inj (hx.symm.trans hy)
      exact ⟨_, if_pos rfl, rfl, rfl, List.length_set⟩
    · exact ⟨y, by rw [if_neg hqr, hy], rfl, rfl, rfl⟩
  · cases r with
    | head => rfl
    | tail => rfl
    | new n => exact List.length_set
  · cases r with
    | head => rfl
    | tail => rfl
    | new n => rfl
  · rw [hnext, if_pos rfl]
  · rw [hnext, if_neg hj]

/-! ### The sorted list -/

/-- A node of the list as a pointer, a value and a level. -/
structure Entry where
  ref : NodeRef
  value : CInt
  level : ℕ

/-- The nodes that reach level `i`. -/
def refsAt (es : List Entry) (i : ℕ) : List NodeRef :=
  (es.filter fun e ↦ i ≤ e.level).map Entry.ref

/-- The entries below a value, and the others. -/
def below (es : List Entry) (v : CInt) : List Entry := es.takeWhile fun e ↦ e.value < v

/-- The entries from the first one on that is not below the value. -/
def notBelow (es : List Entry) (v : CInt) : List Entry := es.dropWhile fun e ↦ e.value < v

/-- The last node below a value at level `i`. -/
def lastAt (es : List Entry) (v : CInt) (i : ℕ) : NodeRef :=
  (refsAt (below es v) i).getLast?.getD .head

/-- The first node at level `i` that is not below a value. -/
def firstAt (es : List Entry) (v : CInt) (i : ℕ) : NodeRef :=
  (refsAt (notBelow es v) i).head?.getD .tail

/-- The list `es`: the nodes have its values and levels, and at each level the pointers lead from
`head_` through those that reach it to `tail_`. -/
structure SkipList.Represents (s : SkipList) (es : List Entry) : Prop where
  node : ∀ e ∈ es, ∃ x, s.node e.ref = some x ∧ x.value = e.value ∧ x.level = e.level ∧
    x.forward.length = e.level + 1
  new : ∀ e ∈ es, ∃ n < s.nodes.length, e.ref = .new n
  nodup : (es.map Entry.ref).Nodup
  length : es.length = s.nodes.length
  head : s.head.forward.length = MAX_LEVEL + 1
  tail : s.tail.value = INT_MAX
  sorted : es.Pairwise fun a b ↦ a.value < b.value
  lt_max : ∀ e ∈ es, e.value < INT_MAX
  level_le : ∀ e ∈ es, e.level ≤ s.curMaxLevel
  max_le : s.curMaxLevel ≤ MAX_LEVEL
  chain : ∀ i ≤ MAX_LEVEL, Seg (s.next i) (some .head) (.head :: refsAt es i) (some .tail)

variable {es fs : List Entry} {e : Entry} {v : CInt} {k fuel : ℕ} {q : NodeRef}
  {mid : List NodeRef}

/-- The entries below a value, and the others. -/
theorem below_append_notBelow (es : List Entry) (v : CInt) : below es v ++ notBelow es v = es :=
  List.takeWhile_append_dropWhile

theorem refsAt_append (es fs : List Entry) (i : ℕ) :
    refsAt (es ++ fs) i = refsAt es i ++ refsAt fs i := by
  rw [refsAt, List.filter_append, List.map_append, refsAt, refsAt]

/-- The nodes of a level. -/
theorem mem_refsAt {q : NodeRef} : q ∈ refsAt es i ↔ ∃ e ∈ es, i ≤ e.level ∧ e.ref = q := by
  simp only [refsAt, List.mem_map, List.mem_filter, decide_eq_true_iff, and_assoc]

/-- The nodes of a level are on the levels below it. -/
theorem refsAt_mono {j : ℕ} (hij : i ≤ j) (hq : q ∈ refsAt es j) : q ∈ refsAt es i := by
  obtain ⟨e, he, hj, rfl⟩ := mem_refsAt.1 hq
  exact mem_refsAt.2 ⟨e, he, Nat.le_trans hij hj, rfl⟩

theorem value_lt_of_mem_below (he : e ∈ below es v) : e.value < v := by
  have hmem : e ∈ es.takeWhile fun e ↦ e.value < v := he
  simpa using List.mem_takeWhile_imp hmem

theorem le_value_of_mem_notBelow (hsorted : es.Pairwise fun a b ↦ a.value < b.value)
    (he : e ∈ notBelow es v) : v ≤ e.value := by
  induction es with
  | nil => cases he
  | cons a es ih =>
    rw [List.pairwise_cons] at hsorted
    by_cases hlt : a.value < v
    · rw [notBelow, List.dropWhile_cons, if_pos (decide_eq_true hlt)] at he
      exact ih hsorted.2 he
    · rw [notBelow, List.dropWhile_cons, if_neg (by simpa using hlt)] at he
      rw [not_lt] at hlt
      rcases List.mem_cons.1 he with rfl | he
      · exact hlt
      · exact hlt.trans (hsorted.1 e he).le

/-- The last node below the value is on the level, or the head. -/
theorem lastAt_mem (es : List Entry) (v : CInt) (i : ℕ) :
    lastAt es v i ∈ NodeRef.head :: refsAt (below es v) i :=
  List.mem_of_getLast? (List.getLast?_cons ..)

namespace SkipList.Represents

/-- The nodes of a level have a pointer there. -/
theorem exists_node (R : s.Represents es) (hi : i ≤ MAX_LEVEL)
    (hq : q ∈ NodeRef.head :: refsAt es i) : ∃ x, s.node q = some x ∧ i < x.forward.length := by
  rcases List.mem_cons.1 hq with rfl | hq
  · exact ⟨s.head, rfl, R.head ▸ Nat.lt_succ_of_le hi⟩
  · obtain ⟨e, he, hle, rfl⟩ := mem_refsAt.1 hq
    obtain ⟨x, hx, -, -, hlen⟩ := R.node e he
    exact ⟨x, hx, hlen ▸ Nat.lt_succ_of_le hle⟩

/-- The pointers of a level lead through its nodes. -/
theorem forwardAt_eq (R : s.Represents es) (hi : i ≤ MAX_LEVEL)
    (hq : q ∈ NodeRef.head :: refsAt es i) : s.forwardAt q i = some (s.next i q) := by
  obtain ⟨x, hx, hlt⟩ := R.exists_node hi hq
  rw [SkipList.next, SkipList.forwardAt, hx, Option.bind_some, List.getElem?_eq_getElem hlt]
  rfl

end SkipList.Represents

/-- **The inner loop** walks through the nodes below the value to the last of them. -/
theorem walk_eq (hseg : Seg (s.next i) (s.next i r) mid (some q))
    (hread : ∀ a ∈ r :: mid, s.forwardAt a i = some (s.next i a))
    (hmid : ∀ a ∈ mid, ∃ x, s.node a = some x ∧ x.value < v)
    (hq : ∃ x, s.node q = some x ∧ ¬ x.value < v) (hfuel : mid.length < fuel) :
    s.walk v i fuel r = some (mid.getLast?.getD r) := by
  induction mid generalizing r fuel with
  | nil =>
    obtain ⟨fuel, rfl⟩ := Nat.exists_eq_succ_of_ne_zero (Nat.ne_of_gt hfuel)
    obtain ⟨x, hx, hge⟩ := hq
    rw [seg_nil] at hseg
    rw [SkipList.walk, hread r List.mem_cons_self, hseg]
    simp only [Option.bind_eq_bind, Option.bind_some, hx, if_neg hge]
    rfl
  | cons a mid ih =>
    obtain ⟨fuel, rfl⟩ := Nat.exists_eq_succ_of_ne_zero (Nat.ne_of_gt (Nat.zero_lt_of_lt hfuel))
    obtain ⟨hnext, hseg⟩ := hseg
    obtain ⟨x, hx, hlt⟩ := hmid a List.mem_cons_self
    have hrest := ih hseg (fun b hb ↦ hread b (List.mem_cons_of_mem r hb))
      (fun b hb ↦ hmid b (List.mem_cons_of_mem a hb)) (Nat.lt_of_succ_lt_succ hfuel)
    rw [SkipList.walk, hread r List.mem_cons_self, hnext]
    simp only [Option.bind_eq_bind, Option.bind_some, hx, if_pos hlt]
    rw [hrest, List.getLast?_cons, Option.getD_some]

theorem head?_map_range_succ {α : Type*} (f : ℕ → α) (k : ℕ) :
    ((List.range (k + 1)).map f).head? = some (f 0) := by
  rw [List.range_succ_eq_map, List.map_cons, List.head?_cons]

namespace SkipList.Represents

/-- A level, split at the last node below the value. -/
theorem chain_split (R : s.Represents es) (hi : i ≤ MAX_LEVEL) (v : CInt) :
    Seg (s.next i) (some .head) (.head :: refsAt (below es v) i) (some (firstAt es v i)) ∧
      Seg (s.next i) (some (firstAt es v i)) (refsAt (notBelow es v) i) (some .tail) := by
  have hchain := R.chain i hi
  rw [← below_append_notBelow es v, refsAt_append, ← List.cons_append, seg_append] at hchain
  obtain ⟨p, hbelow, hrest⟩ := hchain
  obtain rfl : p = some (firstAt es v i) := by
    rw [firstAt]
    cases hnot : refsAt (notBelow es v) i with
    | nil =>
      rw [hnot, seg_nil] at hrest
      exact hrest
    | cons t ts =>
      rw [hnot] at hrest
      exact hrest.1
  exact ⟨hbelow, hrest⟩

/-- Behind the last node below the value comes the first one that is not. -/
theorem next_lastAt (R : s.Represents es) (hi : i ≤ MAX_LEVEL) (v : CInt) :
    s.next i (lastAt es v i) = some (firstAt es v i) :=
  (R.chain_split hi v).1.next_last (List.getLast?_cons ..)

theorem firstAt_not_lt (R : s.Represents es) (v : CInt) (i : ℕ) :
    ∃ x, s.node (firstAt es v i) = some x ∧ ¬ x.value < v := by
  rw [firstAt]
  cases hnot : refsAt (notBelow es v) i with
  | nil => exact ⟨s.tail, rfl, not_lt.2 (R.tail ▸ le_INT_MAX v)⟩
  | cons t ts =>
    obtain ⟨e, he, -, rfl⟩ := mem_refsAt.1 (hnot ▸ List.mem_cons_self : t ∈ refsAt _ i)
    obtain ⟨x, hx, hval, -⟩ := R.node e ((List.dropWhile_sublist _).mem he)
    refine ⟨x, hx, not_lt.2 ?_⟩
    rw [hval]
    exact le_value_of_mem_notBelow R.sorted he

theorem walk (R : s.Represents es) (hi : i ≤ MAX_LEVEL)
    (hr : r ∈ NodeRef.head :: refsAt (below es v) i) :
    s.walk v i (s.nodes.length + 1) r = some (lastAt es v i) := by
  obtain ⟨hbelow, -⟩ := R.chain_split hi v
  obtain ⟨pre, mid, hsplit⟩ := List.append_of_mem hr
  have hlast : lastAt es v i = mid.getLast?.getD r := by
    refine Option.some.inj ?_
    rw [lastAt, ← List.getLast?_cons, hsplit, List.getLast?_append, List.getLast?_cons]
    rfl
  have hsub : (refsAt (below es v) i).Sublist (refsAt es i) :=
    ((List.takeWhile_sublist _).filter _).map _
  have hmem : ∀ a ∈ r :: mid, a ∈ NodeRef.head :: refsAt (below es v) i := fun a ha ↦
    hsplit ▸ List.mem_append_right pre ha
  have htail : mid.Sublist (refsAt (below es v) i) := by
    rcases List.cons_eq_append_iff.1 hsplit with ⟨rfl, h⟩ | ⟨pre', rfl, h⟩
    · rw [(List.cons.inj h).2]
    · rw [h]
      exact (List.sublist_cons_self r mid).trans (List.sublist_append_right ..)
  rw [hsplit] at hbelow
  obtain ⟨p, -, rfl, hseg⟩ := seg_append.1 hbelow
  rw [hlast]
  refine walk_eq hseg (fun a ha ↦ R.forwardAt_eq hi ?_) (fun a ha ↦ ?_) (R.firstAt_not_lt v i) ?_
  · exact (hsub.cons_cons _).mem (hmem a ha)
  · obtain ⟨e, he, -, rfl⟩ := mem_refsAt.1 (htail.mem ha)
    obtain ⟨x, hx, hval, -⟩ := R.node e ((List.takeWhile_sublist _).mem he)
    exact ⟨x, hx, hval ▸ value_lt_of_mem_below he⟩
  · have hlen := htail.length_le.trans hsub.length_le
    rw [refsAt, List.length_map] at hlen
    exact Nat.lt_succ_of_le ((hlen.trans (List.length_filter_le ..)).trans_eq R.length)

theorem searchDown (R : s.Represents es) (hk : k ≤ MAX_LEVEL + 1)
    (hr : ∀ i < k, r ∈ NodeRef.head :: refsAt (below es v) i) :
    s.searchDown v k r = some ((List.range k).map (lastAt es v)).reverse := by
  induction k generalizing r with
  | zero => rfl
  | succ k ih =>
    have hwalk := R.walk (Nat.le_of_succ_le_succ hk) (hr k (Nat.lt_succ_self k))
    have hrest := ih (r := lastAt es v k) (Nat.le_of_succ_le hk) fun i hi ↦ by
      refine (List.mem_cons.1 (lastAt_mem es v k)).elim (fun h ↦ h ▸ List.mem_cons_self) fun h ↦ ?_
      exact List.mem_cons_of_mem _ (refsAt_mono hi.le h)
    rw [SkipList.searchDown, hwalk]
    simp only [Option.bind_eq_bind, Option.bind_some, hrest]
    rw [List.range_succ, List.map_append, List.reverse_append]
    rfl

/-- **`AbsLowerBound`** finds the last node below the value at each level. -/
theorem absLowerBound (R : s.Represents es) (v : CInt) :
    s.absLowerBound v = some ((List.range (s.curMaxLevel + 1)).map (lastAt es v)) := by
  rw [SkipList.absLowerBound, R.searchDown (Nat.succ_le_succ R.max_le) fun i _ ↦
    List.mem_cons_self, Option.map_some, List.reverse_reverse]

theorem forwardAt_lastAt (R : s.Represents es) (hi : i ≤ MAX_LEVEL) (v : CInt) :
    s.forwardAt (lastAt es v i) i = some (some (firstAt es v i)) := by
  have hsub : (refsAt (below es v) i).Sublist (refsAt es i) :=
    ((List.takeWhile_sublist _).filter _).map _
  rw [R.forwardAt_eq hi ((hsub.cons_cons _).mem (lastAt_mem es v i)), R.next_lastAt hi v]

/-- A value in the list is found. -/
theorem hit_of_mem (R : s.Represents es) (he : e ∈ es) :
    s.hit e.value (lastAt es e.value 0) = some (some e.ref) := by
  have hnot : e ∈ notBelow es e.value := by
    rw [← below_append_notBelow es e.value, List.mem_append] at he
    exact he.resolve_left fun h ↦ lt_irrefl _ (value_lt_of_mem_below h)
  have hfirst : firstAt es e.value 0 = e.ref := by
    rw [firstAt]
    cases hcons : notBelow es e.value with
    | nil =>
      rw [hcons] at hnot
      cases hnot
    | cons f fs =>
      have hsorted := R.sorted.sublist (List.dropWhile_sublist fun f ↦ decide (f.value < e.value))
      have hf : f ∈ notBelow es e.value := hcons ▸ List.mem_cons_self
      rw [← notBelow, hcons, List.pairwise_cons] at hsorted
      rw [hcons] at hnot
      rcases List.mem_cons.1 hnot with rfl | hmem
      · simp [refsAt]
      · exact absurd (hsorted.1 e hmem) (not_lt.2 (le_value_of_mem_notBelow R.sorted hf))
  obtain ⟨x, hx, hval, -⟩ := R.node e he
  rw [SkipList.hit, R.forwardAt_lastAt (Nat.zero_le _), hfirst]
  simp only [Option.bind_eq_bind, Option.bind_some, hx, if_pos hval]

/-- A value that is not in the list is not found, but `tail_` has the value `INT_MAX`. -/
theorem hit_of_notMem (R : s.Represents es) (hv : ∀ e ∈ es, e.value ≠ v) :
    s.hit v (lastAt es v 0) = some (if v = INT_MAX then some .tail else none) := by
  rw [SkipList.hit, R.forwardAt_lastAt (Nat.zero_le _)]
  simp only [Option.bind_eq_bind, Option.bind_some]
  rw [firstAt]
  cases hcons : refsAt (notBelow es v) 0 with
  | nil =>
    show (if s.tail.value = v then _ else _) = _
    rw [R.tail]
    simp only [eq_comm, apply_ite some]
    rfl
  | cons t ts =>
    obtain ⟨e, he, -, rfl⟩ := mem_refsAt.1 (hcons ▸ List.mem_cons_self : t ∈ refsAt _ 0)
    have hmem : e ∈ es := (List.dropWhile_sublist _).mem he
    obtain ⟨x, hx, hval, -⟩ := R.node e hmem
    have hne : v ≠ INT_MAX := by
      rintro rfl
      exact absurd (le_value_of_mem_notBelow R.sorted he) (not_le.2 (R.lt_max e hmem))
    show (s.node e.ref).bind _ = _
    rw [hx, Option.bind_some, if_neg (hval ▸ hv e hmem), if_neg hne]

/-- The lookup compares the first node that is not below the value. -/
theorem find_eq (R : s.Represents es) (v : CInt) : s.find v = s.hit v (lastAt es v 0) := by
  rw [SkipList.find, R.absLowerBound v]
  simp only [Option.bind_eq_bind, Option.bind_some, head?_map_range_succ]

end SkipList.Represents

/-! ### The insertion of a node -/

/-- The list with the allocated node, which no pointer leads to yet. -/
def SkipList.allocate (s : SkipList) (v : CInt) (level : ℕ) : SkipList :=
  { s with nodes := s.nodes ++ [.construct v level] }

/-- The entry of the next node that is allocated. -/
def newEntry (s : SkipList) (v : CInt) (level : ℕ) : Entry where
  ref := .new s.nodes.length
  value := v
  level := level

/-- The list with the new entry at its place. -/
def inserted (s : SkipList) (es : List Entry) (v : CInt) (level : ℕ) : List Entry :=
  below es v ++ newEntry s v level :: notBelow es v

/-- The new node has been inserted at the levels `done`. -/
structure Splicing (s : SkipList) (es : List Entry) (v : CInt) (level : ℕ) (done : List ℕ)
    (t : SkipList) : Prop where
  relinks : Relinks (s.allocate v level) t
  chain : ∀ i ≤ MAX_LEVEL, Seg (t.next i) (some .head)
    (.head :: if i ∈ done then refsAt (inserted s es v level) i else refsAt es i) (some .tail)

variable {level : ℕ} {done : List ℕ}

theorem node_allocate (hq : s.node q = some x) : (s.allocate v level).node q = some x := by
  cases q with
  | head => exact hq
  | tail => exact hq
  | new n =>
    show (s.nodes ++ [SkipNode.construct v level])[n]? = some x
    rw [List.getElem?_append_left (List.getElem?_eq_some_iff.1 hq).1]
    exact hq

theorem node_allocate_new : (s.allocate v level).node (.new s.nodes.length) =
    some (.construct v level) :=
  List.getElem?_concat_length

/-- Inserting adds the new entry. -/
theorem inserted_perm : (inserted s es v level).Perm (newEntry s v level :: es) := by
  conv_rhs => rw [← below_append_notBelow es v]
  exact List.perm_middle

theorem mem_inserted : e ∈ inserted s es v level ↔ e = newEntry s v level ∨ e ∈ es :=
  inserted_perm.mem_iff.trans List.mem_cons

/-- On its levels, the new node stands between those below it and the others. -/
theorem refsAt_inserted (h : i ≤ level) : refsAt (inserted s es v level) i =
    refsAt (below es v) i ++ .new s.nodes.length :: refsAt (notBelow es v) i := by
  have hpos : decide (i ≤ (newEntry s v level).level) = true := decide_eq_true h
  rw [inserted, refsAt_append]
  congr 1
  rw [refsAt, List.filter_cons, if_pos hpos]
  rfl

/-- Above its level, nothing changes. -/
theorem refsAt_inserted_of_lt (h : level < i) : refsAt (inserted s es v level) i = refsAt es i := by
  have hneg : ¬ decide (i ≤ (newEntry s v level).level) = true := by
    rw [decide_eq_true_iff]
    exact Nat.not_le_of_lt h
  have hrest : refsAt (newEntry s v level :: notBelow es v) i = refsAt (notBelow es v) i := by
    rw [refsAt, List.filter_cons, if_neg hneg, refsAt]
  rw [inserted, refsAt_append, hrest, ← refsAt_append, below_append_notBelow]

namespace SkipList.Represents

/-- A new node is none of the list. -/
theorem ne_new (R : s.Represents es) (hq : q ∈ NodeRef.head :: refsAt es i) :
    q ≠ .new s.nodes.length := by
  rintro rfl
  rcases List.mem_cons.1 hq with h | h
  · cases h
  · obtain ⟨e, he, -, heq⟩ := mem_refsAt.1 h
    obtain ⟨n, hn, href⟩ := R.new e he
    rw [href, NodeRef.new.injEq] at heq
    exact absurd heq hn.ne

/-- Before the new node is linked, no level has it. -/
theorem splicing_allocate (R : s.Represents es) (v : CInt) (level : ℕ) :
    Splicing s es v level [] (s.allocate v level) where
  relinks := .refl _
  chain i hi := by
    rw [if_neg List.not_mem_nil]
    refine (R.chain i hi).congr fun q hq ↦ ?_
    obtain ⟨x, hx, -⟩ := R.exists_node hi hq
    rw [SkipList.next, SkipList.next, SkipList.forwardAt, SkipList.forwardAt, hx,
      node_allocate hx]

end SkipList.Represents

/-- Two writes at one level: a node's pointer there, then another one's. -/
theorem setForward_twice {a b : NodeRef} {y : SkipNode} (hx : t.node a = some x)
    (hi : i < x.forward.length) (hy : t.node b = some y) (hi' : i < y.forward.length)
    (p p' : Option NodeRef) :
    ∃ u, (t.setForward a i p).bind (·.setForward b i p') = some u ∧ Relinks t u ∧
      u.next i = Function.update (Function.update (t.next i) a p) b p' ∧
      ∀ j, j ≠ i → u.next j = t.next j := by
  obtain ⟨t₁, h₁, L₁, hnext₁, hother₁⟩ := setForward_spec hx hi p
  obtain ⟨z, hz, -, -, hlen⟩ := L₁.node b y hy
  obtain ⟨t₂, h₂, L₂, hnext₂, hother₂⟩ := setForward_spec hz (hlen.symm ▸ hi') p'
  refine ⟨t₂, by rw [h₁, Option.bind_some, h₂], L₁.trans L₂, by rw [hnext₂, hnext₁],
    fun j hj ↦ by rw [hother₂ j hj, hother₁ j hj]⟩

/-- What the writes at a level are to be. -/
theorem Splicing.of_writes {u : SkipList} (h : Splicing s es v level done t) (L : Relinks t u)
    (hother : ∀ j, j ≠ i → u.next j = t.next j)
    (hlevel : i ≤ MAX_LEVEL → Seg (u.next i) (some .head)
      (.head :: refsAt (inserted s es v level) i) (some .tail)) :
    Splicing s es v level (i :: done) u where
  relinks := h.relinks.trans L
  chain j hj := by
    rcases eq_or_ne j i with rfl | hne
    · rw [if_pos List.mem_cons_self]
      exact hlevel hj
    · rw [hother j hne]
      have hiff : j ∈ i :: done ↔ j ∈ done := by
        rw [List.mem_cons, or_iff_right hne]
      simp only [hiff]
      exact h.chain j hj

/-- **Insertion at a level** behind the last node below the value. -/
theorem Splicing.spliceAfter (h : Splicing s es v level done t) (R : s.Represents es)
    (hi : i ≤ level) (hlevel : level ≤ MAX_LEVEL) (hdone : i ∉ done) :
    ∃ u, t.spliceAfter (.new s.nodes.length) (lastAt es v i) i = some u ∧
      Splicing s es v level (i :: done) u := by
  have hmax := Nat.le_trans hi hlevel
  have hsub : (refsAt (below es v) i).Sublist (refsAt es i) :=
    ((List.takeWhile_sublist _).filter _).map _
  have hprev := (hsub.cons_cons NodeRef.head).mem (lastAt_mem es v i)
  obtain ⟨x, hx, hix⟩ := R.exists_node hmax hprev
  obtain ⟨y, hy, -, -, hylen⟩ := h.relinks.node _ x (node_allocate hx)
  obtain ⟨z, hz, -, -, hzlen⟩ := h.relinks.node _ _ node_allocate_new
  have hzi : i < z.forward.length := by
    rw [hzlen, SkipNode.construct, List.length_replicate]
    exact Nat.lt_succ_of_le hi
  have hread : t.forwardAt (lastAt es v i) i = some (t.next i (lastAt es v i)) := by
    rw [SkipList.next, SkipList.forwardAt, hy, Option.bind_some,
      List.getElem?_eq_getElem (hylen.symm ▸ hix)]
    rfl
  obtain ⟨u, hu, L, hnext, hother⟩ :=
    setForward_twice hz hzi hy (hylen.symm ▸ hix) (t.next i (lastAt es v i))
      (some (.new s.nodes.length))
  refine ⟨u, ?_, h.of_writes L hother fun _ ↦ ?_⟩
  · rw [SkipList.spliceAfter, hread]
    exact hu
  · have hchain := h.chain i hmax
    rw [if_neg hdone] at hchain
    have hlast : (NodeRef.head :: refsAt (below es v) i).getLast? = some (lastAt es v i) :=
      List.getLast?_cons ..
    obtain ⟨pre, hpre⟩ := List.getLast?_eq_some_iff.1 hlast
    have hsplit : NodeRef.head :: refsAt es i =
        pre ++ lastAt es v i :: refsAt (notBelow es v) i := by
      calc NodeRef.head :: refsAt es i
          = (NodeRef.head :: refsAt (below es v) i) ++ refsAt (notBelow es v) i := by
            rw [List.cons_append, ← refsAt_append, below_append_notBelow]
        _ = pre ++ lastAt es v i :: refsAt (notBelow es v) i := by
            rw [hpre, List.append_assoc]
            rfl
    have hsplit' : NodeRef.head :: refsAt (inserted s es v level) i =
        pre ++ lastAt es v i :: .new s.nodes.length :: refsAt (notBelow es v) i := by
      rw [refsAt_inserted hi, ← List.cons_append, hpre, List.append_assoc]
      rfl
    have hnodup : (NodeRef.head :: refsAt es i).Nodup := by
      refine List.nodup_cons.2 ⟨fun hmem ↦ ?_, (R.nodup.sublist (List.filter_sublist.map _))⟩
      obtain ⟨e, he, -, heq⟩ := mem_refsAt.1 hmem
      obtain ⟨n, -, href⟩ := R.new e he
      rw [href] at heq
      cases heq
    rw [hnext, hsplit']
    rw [hsplit] at hchain hnodup
    exact hchain.insert hnodup fun hmem ↦ R.ne_new (hsplit ▸ hmem) rfl

/-- **Insertion at a level** that no other node reaches. -/
theorem Splicing.spliceNew (h : Splicing s es v level done t) (R : s.Represents es)
    (hi : i ≤ level) (hlevel : level ≤ MAX_LEVEL) (hcur : s.curMaxLevel < i) :
    ∃ u, t.spliceNew (.new s.nodes.length) i = some u ∧
      Splicing s es v level (i :: done) u := by
  obtain ⟨y, hy, -, -, hylen⟩ := h.relinks.node .head s.head rfl
  obtain ⟨z, hz, -, -, hzlen⟩ := h.relinks.node _ _ node_allocate_new
  have hzi : i < z.forward.length := by
    rw [hzlen, SkipNode.construct, List.length_replicate]
    exact Nat.lt_succ_of_le hi
  have hyi : i < y.forward.length := by
    rw [hylen, R.head]
    exact Nat.lt_succ_of_le (Nat.le_trans hi hlevel)
  obtain ⟨u, hu, L, hnext, hother⟩ :=
    setForward_twice hy hyi hz hzi (some (.new s.nodes.length)) (some .tail)
  refine ⟨u, hu, h.of_writes L hother fun _ ↦ ?_⟩
  have hempty : ∀ fs : List Entry, (∀ e ∈ fs, e ∈ es) → refsAt fs i = [] := by
    intro fs hfs
    refine List.eq_nil_iff_forall_not_mem.2 fun q hq ↦ ?_
    obtain ⟨e, he, hle, -⟩ := mem_refsAt.1 hq
    exact absurd (R.level_le e (hfs e he)) (Nat.not_le_of_lt (Nat.lt_of_lt_of_le hcur hle))
  have hbelow : refsAt (below es v) i = [] := hempty _ fun e he ↦ (List.takeWhile_sublist _).mem he
  have hnot : refsAt (notBelow es v) i = [] := hempty _ fun e he ↦ (List.dropWhile_sublist _).mem he
  rw [refsAt_inserted hi, hbelow, hnot, hnext]
  refine ⟨rfl, ?_, ?_⟩
  · rw [Function.update_of_ne (by simp), Function.update_self]
  · rw [Function.update_self]
    rfl

/-- The loops of `Insert` go through their levels one after the other. -/
theorem Splicing.foldlM (levels : List ℕ) {f : SkipList → ℕ → Option SkipList}
    (hf : ∀ i ∈ levels, ∀ done t, i ∉ done → Splicing s es v level done t →
      ∃ u, f t i = some u ∧ Splicing s es v level (i :: done) u)
    (hnodup : levels.Nodup) (hdone : ∀ i ∈ levels, i ∉ done)
    (h : Splicing s es v level done t) :
    ∃ u, levels.foldlM f t = some u ∧ Splicing s es v level (levels.reverse ++ done) u := by
  induction levels generalizing done t with
  | nil => exact ⟨t, rfl, h⟩
  | cons i levels ih =>
    rw [List.nodup_cons] at hnodup
    obtain ⟨u, hu, h'⟩ := hf i List.mem_cons_self done t (hdone i List.mem_cons_self) h
    obtain ⟨w, hw, h''⟩ := ih (fun j hj ↦ hf j (List.mem_cons_of_mem i hj)) hnodup.2
      (fun j hj hmem ↦ by
        rcases List.mem_cons.1 hmem with rfl | hmem
        · exact hnodup.1 hj
        · exact hdone j (List.mem_cons_of_mem i hj) hmem) h'
    refine ⟨w, ?_, ?_⟩
    · rw [List.foldlM_cons, hu]
      exact hw
    · rw [List.reverse_cons, List.append_assoc]
      exact h''

namespace SkipList.Represents

/-- The list is sorted again. -/
theorem inserted_sorted (R : s.Represents es) (hv : ∀ e ∈ es, e.value ≠ v) :
    (inserted s es v level).Pairwise fun a b ↦ a.value < b.value := by
  have hsorted := R.sorted
  rw [← below_append_notBelow es v, List.pairwise_append] at hsorted
  obtain ⟨hbelow, hnot, hlt⟩ := hsorted
  have hgt : ∀ e ∈ notBelow es v, v < e.value := fun e he ↦
    lt_of_le_of_ne (le_value_of_mem_notBelow R.sorted he)
      (hv e ((List.dropWhile_sublist _).mem he)).symm
  refine List.pairwise_append.2 ⟨hbelow, List.pairwise_cons.2 ⟨hgt, hnot⟩, fun a ha b hb ↦ ?_⟩
  rcases List.mem_cons.1 hb with rfl | hb
  · exact value_lt_of_mem_below ha
  · exact hlt a ha b hb

/-- **When all levels are done** the list is the one with the new entry. -/
theorem of_splicing (R : s.Represents es) (hv : ∀ e ∈ es, e.value ≠ v) (hmax : v ≠ INT_MAX)
    (hlevel : level ≤ MAX_LEVEL) (h : Splicing s es v level done t)
    (hdone : ∀ i, i ∈ done ↔ i ≤ level) :
    ({ t with curMaxLevel := max level s.curMaxLevel } : SkipList).Represents
      (inserted s es v level) where
  node e he := by
    rcases mem_inserted.1 he with rfl | he
    · obtain ⟨y, hy, hval, hlev, hlen⟩ := h.relinks.node _ _ node_allocate_new
      exact ⟨y, hy, hval, hlev, hlen.trans List.length_replicate⟩
    · obtain ⟨x, hx, hval, hlev, hlen⟩ := R.node e he
      obtain ⟨y, hy, hval', hlev', hlen'⟩ := h.relinks.node _ x (node_allocate hx)
      exact ⟨y, hy, hval'.trans hval, hlev'.trans hlev, hlen'.trans hlen⟩
  new e he := by
    have hlen : t.nodes.length = s.nodes.length + 1 := h.relinks.length.trans List.length_append
    rcases mem_inserted.1 he with rfl | he
    · exact ⟨_, hlen ▸ Nat.lt_succ_self _, rfl⟩
    · obtain ⟨n, hn, href⟩ := R.new e he
      exact ⟨n, hlen ▸ Nat.lt_succ_of_lt hn, href⟩
  nodup := by
    refine (inserted_perm.map Entry.ref).nodup_iff.2 (List.nodup_cons.2 ⟨fun hmem ↦ ?_, R.nodup⟩)
    obtain ⟨e, he, heq⟩ := List.mem_map.1 hmem
    obtain ⟨n, hn, href⟩ := R.new e he
    rw [href, newEntry, NodeRef.new.injEq] at heq
    exact hn.ne heq
  length := inserted_perm.length_eq.trans ((congrArg Nat.succ R.length).trans
    (h.relinks.length.trans List.length_append).symm)
  head := by
    obtain ⟨y, hy, -, -, hlen⟩ := h.relinks.node .head s.head rfl
    obtain rfl := Option.some.inj hy
    exact hlen.trans R.head
  tail := by
    obtain ⟨y, hy, hval, -⟩ := h.relinks.node .tail s.tail rfl
    obtain rfl := Option.some.inj hy
    exact hval.trans R.tail
  sorted := R.inserted_sorted hv
  lt_max e he := by
    rcases mem_inserted.1 he with rfl | he
    · exact lt_of_le_of_ne (le_INT_MAX v) hmax
    · exact R.lt_max e he
  level_le e he := by
    rcases mem_inserted.1 he with rfl | he
    · exact Nat.le_max_left ..
    · exact Nat.le_trans (R.level_le e he) (Nat.le_max_right ..)
  max_le := Nat.max_le.2 ⟨hlevel, R.max_le⟩
  chain i hi := by
    have hchain := h.chain i hi
    split at hchain
    next hmem => exact hchain
    next hmem =>
      rw [refsAt_inserted_of_lt (Nat.lt_of_not_le (mt (hdone i).2 hmem))]
      exact hchain

/-! ### The operations on the sorted list -/

/-- `Insert` of a value in the list finds its node. -/
theorem insert_of_mem (R : s.Represents es) (he : e ∈ es) (coins : ℕ → Bool) :
    s.insert e.value coins = some (e.ref, s) := by
  rw [SkipList.insert, R.absLowerBound]
  simp only [Option.bind_eq_bind, Option.bind_some, head?_map_range_succ, R.hit_of_mem he]

/-- `Insert` of `INT_MAX` finds `tail_`. -/
theorem insert_max (R : s.Represents es) (coins : ℕ → Bool) :
    s.insert INT_MAX coins = some (.tail, s) := by
  rw [SkipList.insert, R.absLowerBound]
  simp only [Option.bind_eq_bind, Option.bind_some, head?_map_range_succ,
    R.hit_of_notMem fun e he ↦ (R.lt_max e he).ne, if_true]

/-- **`Insert`** of another value puts a new node at its place. -/
theorem insert_of_notMem (R : s.Represents es) (hv : ∀ e ∈ es, e.value ≠ v)
    (hmax : v ≠ INT_MAX) (coins : ℕ → Bool) :
    ∃ t, s.insert v coins = some (.new s.nodes.length, t) ∧
      t.Represents (inserted s es v (getRandomLevel coins)) := by
  generalize hlev : getRandomLevel coins = newLevel
  have hlevel : newLevel ≤ MAX_LEVEL := hlev ▸ getRandomLevel_le coins
  have hhit : s.hit v (lastAt es v 0) = some none := by
    rw [R.hit_of_notMem hv, if_neg hmax]
  -- the levels with a predecessor
  obtain ⟨t, ht, hsplice⟩ := Splicing.foldlM
    (List.range (min newLevel s.curMaxLevel + 1))
    (f := fun t i ↦ ((List.range (s.curMaxLevel + 1)).map (lastAt es v))[i]?.bind
      fun prev ↦ t.spliceAfter (.new s.nodes.length) prev i)
    (fun i hi done t hdone h ↦ by
      have hle := Nat.le_of_lt_succ (List.mem_range.1 hi)
      have hget : ((List.range (s.curMaxLevel + 1)).map (lastAt es v))[i]? =
          some (lastAt es v i) := by
        rw [List.getElem?_map, List.getElem?_range (Nat.lt_succ_of_le (Nat.le_min.1 hle).2)]
        rfl
      rw [hget]
      exact h.spliceAfter R (Nat.le_min.1 hle).1 hlevel hdone)
    List.nodup_range (fun _ _ ↦ List.not_mem_nil) (R.splicing_allocate v newLevel)
  have hdone : ∀ i, i ∈ (List.range (min newLevel s.curMaxLevel + 1)).reverse ++ [] ↔
      i ≤ newLevel ∧ i ≤ s.curMaxLevel := by
    intro i
    rw [List.append_nil, List.mem_reverse, List.mem_range, Nat.lt_succ_iff, Nat.le_min]
  -- and those above
  obtain ⟨u, hu, hsplice'⟩ := Splicing.foldlM
    (List.range' (s.curMaxLevel + 1) (newLevel - s.curMaxLevel)).reverse
    (f := fun t i ↦ t.spliceNew (.new s.nodes.length) i)
    (fun i hi done t hdone h ↦ by
      rw [List.mem_reverse, List.mem_range'_1] at hi
      exact h.spliceNew R (by omega) hlevel (by omega))
    (List.nodup_reverse.2 List.nodup_range')
    (fun i hi hmem ↦ by
      rw [List.mem_reverse, List.mem_range'_1] at hi
      have := (hdone i).1 hmem
      omega) hsplice
  have R' := R.of_splicing hv hmax hlevel hsplice' fun i ↦ by
    rw [List.mem_append, hdone, List.reverse_reverse, List.mem_range'_1]
    omega
  refine ⟨_, ?_, R'⟩
  rw [SkipList.insert, R.absLowerBound]
  simp only [Option.bind_eq_bind, Option.bind_some, head?_map_range_succ, hhit, hlev]
  rw [SkipList.allocate] at ht
  rw [ht, Option.bind_some]
  split
  next hgt => rw [hu, Option.bind_some, Nat.max_eq_left hgt.le]
  next hle =>
    have hnone : newLevel - s.curMaxLevel = 0 := by omega
    rw [hnone] at hu
    obtain rfl := Option.some.inj hu
    have hcur : t.curMaxLevel = s.curMaxLevel := hsplice.relinks.curMaxLevel
    rw [Nat.max_eq_right (Nat.le_of_not_lt hle), ← hcur]

end SkipList.Represents

/-! ### Runs of the program -/

/-- A call of `Insert` with the results of its `RandomInt`. -/
abbrev Op := CInt × (ℕ → Bool)

/-- `Insert` is called for each of `ops`. -/
def SkipList.run (ops : List Op) : Option SkipList :=
  ops.foldlM (fun s op ↦ (s.insert op.1 op.2).map Prod.snd) SkipList.initial

/-- One of the calls of `Insert(v)` has allocated the node. -/
def InsertedFor (ops : List Op) (v : CInt) (r : NodeRef) : Prop :=
  ∃ pre coins post s t, ops = pre ++ (v, coins) :: post ∧ SkipList.run pre = some s ∧
    s.insert v coins = some (r, t) ∧ s.node r = none

/-- The list after `ops`. -/
structure RunOf (ops : List Op) (s : SkipList) (es : List Entry) : Prop where
  represents : s.Represents es
  inserted : ∀ e ∈ es, InsertedFor ops e.value e.ref
  called : ∀ op ∈ ops, op.1 ≠ INT_MAX → ∃ e ∈ es, e.value = op.1

/-- The new list represents no entries. -/
theorem SkipList.represents_initial : SkipList.initial.Represents [] where
  node e he := absurd he List.not_mem_nil
  new e he := absurd he List.not_mem_nil
  nodup := List.nodup_nil
  length := rfl
  head := rfl
  tail := rfl
  sorted := .nil
  lt_max e he := absurd he List.not_mem_nil
  level_le e he := absurd he List.not_mem_nil
  max_le := Nat.zero_le _
  chain i hi := by
    refine ⟨rfl, ?_⟩
    have hget : (List.replicate (MAX_LEVEL + 1) (some NodeRef.tail))[i]? = some (some .tail) :=
      List.getElem?_replicate_of_lt (Nat.lt_succ_of_le hi)
    show (List.replicate (MAX_LEVEL + 1) (some NodeRef.tail))[i]?.join = some .tail
    rw [hget]
    rfl

theorem InsertedFor.mono {ops : List Op} (h : InsertedFor ops v r) (op : Op) :
    InsertedFor (ops ++ [op]) v r := by
  obtain ⟨pre, coins, post, s, t, rfl, h⟩ := h
  exact ⟨pre, coins, post ++ [op], s, t, List.append_assoc .., h⟩

theorem InsertedFor.mem {ops : List Op} (h : InsertedFor ops v r) : v ∈ ops.map Prod.fst := by
  obtain ⟨pre, coins, post, s, t, rfl, -⟩ := h
  exact List.mem_map.2 ⟨(v, coins), List.mem_append_right pre List.mem_cons_self, rfl⟩

/-- **One call** of `Insert` after a run. -/
theorem RunOf.insert {ops : List Op} (h : RunOf ops s es) (hrun : SkipList.run ops = some s)
    (op : Op) : ∃ r t fs, s.insert op.1 op.2 = some (r, t) ∧ RunOf (ops ++ [op]) t fs := by
  obtain ⟨v, coins⟩ := op
  have hcalled : ∀ {fs : List Entry}, (∀ e ∈ es, e ∈ fs) → (v ≠ INT_MAX → ∃ e ∈ fs, e.value = v) →
      ∀ op ∈ ops ++ [(v, coins)], op.1 ≠ INT_MAX → ∃ e ∈ fs, e.value = op.1 := by
    intro fs hsub hnew op hop hne
    rcases List.mem_append.1 hop with hop | hop
    · obtain ⟨e, he, heq⟩ := h.called op hop hne
      exact ⟨e, hsub e he, heq⟩
    · rw [List.mem_singleton.1 hop] at hne ⊢
      exact hnew hne
  have hsame := fun e he ↦ (h.inserted e he).mono (v, coins)
  by_cases hmem : ∃ e ∈ es, e.value = v
  · obtain ⟨e, he, rfl⟩ := hmem
    exact ⟨e.ref, s, es, h.represents.insert_of_mem he coins, h.represents, hsame,
      hcalled (fun _ ↦ id) fun _ ↦ ⟨e, he, rfl⟩⟩
  rcases eq_or_ne v INT_MAX with rfl | hmax
  · exact ⟨.tail, s, es, h.represents.insert_max coins, h.represents, hsame,
      hcalled (fun _ ↦ id) fun hne ↦ absurd rfl hne⟩
  have hnot : ∀ e ∈ es, e.value ≠ v := fun e he heq ↦ hmem ⟨e, he, heq⟩
  obtain ⟨t, ht, R'⟩ := h.represents.insert_of_notMem hnot hmax coins
  refine ⟨_, t, _, ht, R', fun e he ↦ ?_, hcalled (fun e he ↦ mem_inserted.2 (.inr he)) fun _ ↦ ?_⟩
  · rcases mem_inserted.1 he with rfl | he
    · exact ⟨ops, coins, [], s, t, rfl, hrun, ht, List.getElem?_eq_none (Nat.le_refl _)⟩
    · exact hsame e he
  · exact ⟨_, mem_inserted.2 (.inl rfl), rfl⟩

/-- Every run of the program leads to a sorted list. -/
theorem exists_run (ops : List Op) : ∃ s es, SkipList.run ops = some s ∧ RunOf ops s es := by
  induction ops using List.reverseRecOn with
  | nil =>
    exact ⟨_, [], rfl, SkipList.represents_initial, fun e he ↦ absurd he List.not_mem_nil,
      fun op hop ↦ absurd hop List.not_mem_nil⟩
  | append_singleton ops op ih =>
    obtain ⟨s, es, hrun, h⟩ := ih
    obtain ⟨r, t, fs, ht, h'⟩ := h.insert hrun op
    refine ⟨t, fs, ?_, h'⟩
    rw [SkipList.run] at hrun ⊢
    rw [List.foldlM_append, hrun]
    show (((s.insert op.1 op.2).map Prod.snd).bind fun s ↦ some s) = some t
    rw [ht]
    rfl

/-! ### The levels -/

/-- The values go up from one node to the other. -/
def SkipList.Increases (s : SkipList) (a b : NodeRef) : Prop :=
  ∃ x y, s.node a = some x ∧ s.node b = some y ∧ x.value < y.value

/-- The levels of the list: each leads from `head_` through sorted nodes to `tail_`, from one level
to the next those nodes remain that reach it, and no node reaches beyond `cur_max_level_`. -/
def SkipList.LevelsRight (s : SkipList) : Prop :=
  s.curMaxLevel ≤ MAX_LEVEL ∧
  (∃ chain : ℕ → List NodeRef, ∀ i ≤ MAX_LEVEL,
    Seg (s.next i) (s.next i .head) (chain i) (some .tail) ∧
    (chain i ++ [NodeRef.tail]).Pairwise s.Increases ∧
    (∀ q ∈ chain i, ∃ x, s.node q = some x ∧ x.level ≤ s.curMaxLevel) ∧
    (i < MAX_LEVEL → ∀ q,
      q ∈ chain (i + 1) ↔ q ∈ chain i ∧ ∃ x, s.node q = some x ∧ i < x.level)) ∧
  ∀ i, s.curMaxLevel < i → i ≤ MAX_LEVEL → s.forwardAt .head i = some (some .tail)

/-- **A list that represents entries** has its levels right. -/
theorem SkipList.Represents.levelsRight (R : s.Represents es) : s.LevelsRight := by
  refine ⟨R.max_le, ⟨refsAt es, fun i hi ↦ ⟨(R.chain i hi).2, ?_, fun q hq ↦ ?_, fun _ q ↦ ?_⟩⟩,
    fun i hcur hi ↦ ?_⟩
  · have hrefs : (refsAt es i).Pairwise s.Increases := by
      rw [refsAt, List.pairwise_map]
      refine (R.sorted.filter _).imp_of_mem fun {a b} ha hb hlt ↦ ?_
      obtain ⟨x, hx, hxv, -⟩ := R.node a (List.mem_of_mem_filter ha)
      obtain ⟨y, hy, hyv, -⟩ := R.node b (List.mem_of_mem_filter hb)
      exact ⟨x, y, hx, hy, hxv ▸ hyv ▸ hlt⟩
    refine List.pairwise_append.2 ⟨hrefs, List.pairwise_singleton .., fun a ha b hb ↦ ?_⟩
    obtain ⟨e, he, -, rfl⟩ := mem_refsAt.1 ha
    obtain ⟨x, hx, hval, -⟩ := R.node e he
    rw [List.mem_singleton.1 hb]
    exact ⟨x, s.tail, hx, rfl, hval ▸ R.tail ▸ R.lt_max e he⟩
  · obtain ⟨e, he, -, rfl⟩ := mem_refsAt.1 hq
    obtain ⟨x, hx, -, hlev, -⟩ := R.node e he
    exact ⟨x, hx, hlev ▸ R.level_le e he⟩
  · rw [mem_refsAt, mem_refsAt]
    constructor
    · rintro ⟨e, he, hle, rfl⟩
      obtain ⟨x, hx, -, hlev, -⟩ := R.node e he
      exact ⟨⟨e, he, Nat.le_of_succ_le hle, rfl⟩, x, hx, hlev ▸ hle⟩
    · rintro ⟨⟨e, he, -, rfl⟩, x, hx, hlt⟩
      obtain ⟨y, hy, -, hlev, -⟩ := R.node e he
      obtain rfl := Option.some.inj (hx.symm.trans hy)
      exact ⟨e, he, hlev ▸ hlt, rfl⟩
  · have hempty : refsAt es i = [] := by
      refine List.eq_nil_iff_forall_not_mem.2 fun q hq ↦ ?_
      obtain ⟨e, he, hle, -⟩ := mem_refsAt.1 hq
      exact absurd (R.level_le e he) (Nat.not_le_of_lt (Nat.lt_of_lt_of_le hcur hle))
    have hchain := R.chain i hi
    rw [hempty] at hchain
    rw [R.forwardAt_eq hi List.mem_cons_self, hchain.2]

/-- **The levels of the list** are right after every run, and the next call does not read or write
outside a vector. -/
theorem levels_right (ops : List Op) : ∃ s, SkipList.run ops = some s ∧ s.LevelsRight ∧
    ∀ v, (∃ r, s.find v = some r) ∧ ∀ coins, ∃ r t, s.insert v coins = some (r, t) := by
  obtain ⟨s, es, hrun, h⟩ := exists_run ops
  refine ⟨s, hrun, h.represents.levelsRight, fun v ↦ ⟨?_, fun coins ↦ ?_⟩⟩
  · rw [h.represents.find_eq v]
    by_cases hmem : ∃ e ∈ es, e.value = v
    · obtain ⟨e, he, rfl⟩ := hmem
      exact ⟨_, h.represents.hit_of_mem he⟩
    · exact ⟨_, h.represents.hit_of_notMem fun e he heq ↦ hmem ⟨e, he, heq⟩⟩
  · obtain ⟨r, t, -, ht, -⟩ := h.insert hrun (v, coins)
    exact ⟨r, t, ht⟩

/-! ### The set -/

/-- `Find` and `Insert` of a value after a run as of a set. -/
def FindRight (ops : List Op) (v : CInt) : Prop :=
  ∃ s, SkipList.run ops = some s ∧
    (v ∈ ops.map Prod.fst → ∃ r, s.find v = some (some r) ∧ InsertedFor ops v r ∧
      ∀ coins, s.insert v coins = some (r, s)) ∧
    (v ∉ ops.map Prod.fst → s.find v = some none)

theorem findRight_of_ne (ops : List Op) (hmax : v ≠ INT_MAX) : FindRight ops v := by
  obtain ⟨s, es, hrun, h⟩ := exists_run ops
  refine ⟨s, hrun, fun hcalled ↦ ?_, fun hnot ↦ ?_⟩
  · obtain ⟨op, hop, rfl⟩ := List.mem_map.1 hcalled
    obtain ⟨e, he, heq⟩ := h.called op hop hmax
    rw [← heq]
    refine ⟨e.ref, ?_, h.inserted e he, h.represents.insert_of_mem he⟩
    rw [h.represents.find_eq, h.represents.hit_of_mem he]
  · rw [h.represents.find_eq, h.represents.hit_of_notMem fun e he heq ↦ hnot ?_, if_neg hmax]
    exact heq ▸ (h.inserted e he).mem

/-- `INT_MAX` is found at `tail_`, which is not a node that `Insert` allocates. -/
theorem not_findRight_max (ops : List Op) : ¬ FindRight ops INT_MAX := by
  rintro ⟨s, hrun, hmem, hnot⟩
  obtain ⟨s', es, hrun', h⟩ := exists_run ops
  obtain rfl := Option.some.inj (hrun.symm.trans hrun')
  have hfind : s.find INT_MAX = some (some .tail) := by
    rw [h.represents.find_eq, h.represents.hit_of_notMem fun e he ↦ (h.represents.lt_max e he).ne,
      if_pos rfl]
  by_cases hcalled : INT_MAX ∈ ops.map Prod.fst
  · obtain ⟨r, hr, ⟨pre, coins, post, t, u, -, -, -, hnew⟩, -⟩ := hmem hcalled
    obtain rfl := Option.some.inj (Option.some.inj (hfind.symm.trans hr))
    cases hnew
  · rw [hfind] at hnot
    cases hnot hcalled

/-- **The list is a set** of the integers except `INT_MAX`, after every run. -/
theorem findRight_iff (ops : List Op) (v : CInt) : FindRight ops v ↔ v ≠ INT_MAX :=
  ⟨fun h hmax ↦ not_findRight_max ops (hmax ▸ h), findRight_of_ne ops⟩

/-- `Find(INT_MAX)` in the empty list returns `&tail_`. -/
theorem not_forall_findRight : ¬ ∀ ops v, FindRight ops v := fun h ↦ by
  obtain ⟨s, hrun, -, hnot⟩ := h [] INT_MAX
  obtain rfl := Option.some.inj hrun
  cases hnot List.not_mem_nil

end Struct
