import Mathlib.Data.Finset.Card
import MiscCpp.Library.Machine
import MiscCpp.Library.SinglyLinked

/-!
# The hash table with chains

`HashTable` of `struct/hashBucket.cc`, with unsigned keys, against the set of keys that have been
inserted and not removed.

As long as nothing is removed, a new node in front of its chain leaves every other one as it was
(`Inv.insert`). But `remove` does not count down `size_`, and a table that grows reserves the memory
of the new one without any element in it: the first node that is moved is put behind its end. So the
table is right exactly as long as no key is removed and no fourth one is inserted
(`refinesMap_iff`).
-/

open Function Machine SinglyLinked

namespace HashBucket

/-! ### The operations -/

variable {Value : Type}

/-- A node of a bucket. -/
structure KVNode (Value : Type) where
  key : ℕ
  value : Value
  next : Option ℕ

/-- The members, with the nodes by their addresses and the number of nodes that have been
allocated. -/
structure HashTable (Value : Type) where
  node : ℕ → Option (KVNode Value)
  allocated : ℕ
  table : List (Option ℕ)
  size : ℕ

/-- The sizes of the table. -/
def primeList : List ℕ :=
  [53, 97, 193, 389, 769, 1543, 3079, 6151, 12289, 24593, 49157, 98317, 196613, 393241, 786433,
    1572869, 3145739, 6291469, 12582917, 25165843, 50331653, 100663319, 201326611, 402653189,
    805306457, 1610612741, 3221225473, 4294967291]

/-- `key % size` -/
def hashFunc (key size : ℕ) : Option ℕ := if size = 0 then none else some (key % size)

namespace HashTable

/-- `HashTable()` -/
def construct : HashTable Value where
  node := fun _ ↦ none
  allocated := 0
  table := List.replicate 3 none
  size := 0

variable (s : HashTable Value)

/-- `while (cur)` in `find`. -/
def findLoop (key : ℕ) : ℕ → Option ℕ → Option (Option ℕ)
  | 0, _ => none
  | _ + 1, none => some none
  | fuel + 1, some cur => do
    let n ← s.node cur
    if n.key = key then some (some cur) else findLoop key fuel n.next

/-- The turns that are enough: a chain has no more nodes than have been allocated. -/
def turns : ℕ := s.allocated + 1

/-- `find(key)` -/
def find (key : ℕ) : Option (Option ℕ) :=
  if s.size = 0 then some none
  else do
    let index ← hashFunc key s.table.length
    let cur ← s.table[index]?
    s.findLoop key s.turns cur

/-- The node `cur` is taken out behind `prev` and deleted. -/
def unlink (index : ℕ) (prev : Option ℕ) (cur : ℕ) (n : KVNode Value) :
    Option (HashTable Value) :=
  match prev with
  | none =>
    some { s with table := s.table.set index n.next, node := update s.node cur none }
  | some p => do
    let m ← s.node p
    some { s with node := update (update s.node p (some { m with next := n.next })) cur none }

/-- `while (cur)` in `remove`. -/
def removeLoop (key index : ℕ) : ℕ → Option ℕ → Option ℕ → Option (HashTable Value × Bool)
  | 0, _, _ => none
  | _ + 1, _, none => some (s, false)
  | fuel + 1, prev, some cur => do
    let n ← s.node cur
    if n.key = key then do
      let s ← s.unlink index prev cur n
      some (s, true)
    else removeLoop key index fuel (some cur) n.next

/-- `remove(key)` -/
def remove (key : ℕ) : Option (HashTable Value × Bool) :=
  if s.size = 0 then some (s, false)
  else do
    let index ← hashFunc key s.table.length
    let cur ← s.table[index]?
    s.removeLoop key index s.turns none cur

/-- `while (cur)` in `checkSize`: the nodes of a chain move to the new table. -/
def moveChain (newSize : ℕ) : ℕ → (ℕ → Option (KVNode Value)) × List (Option ℕ) → Option ℕ →
    Option ((ℕ → Option (KVNode Value)) × List (Option ℕ))
  | 0, _, _ => none
  | _ + 1, (node, tmpTable), none => some (node, tmpTable)
  | fuel + 1, (node, tmpTable), some cur => do
    let n ← node cur
    let index ← hashFunc n.key newSize
    let head ← tmpTable[index]?
    moveChain newSize fuel
      (update node cur (some { n with next := head }), tmpTable.set index (some cur)) n.next

/-- `reserve` leaves `tmpTable` without elements. -/
def checkSize : Option (HashTable Value) :=
  if s.table.length = 0 ∨ s.table.length = s.size then do
    let newSize := (primeList.find? (s.table.length < ·)).getD 0
    let (node, tmpTable) ← exec (moveChain newSize s.turns) (s.node, []) s.table
    some { s with node := node, table := tmpTable }
  else some s

/-- `insert(key, value)`: a key that is there is left, and the table grows if it is full. -/
def insert (key : ℕ) (value : Value) : Option (HashTable Value × Bool) := do
  let found ← s.find key
  if found.isSome then some (s, false)
  else do
    let s ← s.checkSize
    let index ← hashFunc key s.table.length
    let head ← s.table[index]?
    some
      ({ node := update s.node s.allocated (some ⟨key, value, head⟩)
         allocated := s.allocated + 1
         table := s.table.set index (some s.allocated)
         size := s.size + 1 }, true)

/-! ### The set of keys -/

/-- The nodes that have been allocated and not deleted. -/
def stored : Finset ℕ := (Finset.range s.allocated).filter fun a ↦ (s.node a).isSome

/-- `next_` -/
def next (a : ℕ) : Option ℕ := (s.node a).bind KVNode.next

/-- `find` finds the keys, `size_` is the number of nodes, and each node is in the bucket of its
key. -/
structure Right (keys : Finset ℕ) : Prop where
  find : ∀ key, ∃ found, s.find key = some found ∧ (found.isSome ↔ key ∈ keys)
  size : s.size = s.stored.card
  reachable : ∀ a n, s.node a = some n → ∃ index head xs,
    hashFunc n.key s.table.length = some index ∧ s.table[index]? = some head ∧
      Seg s.next head xs none ∧ a ∈ xs

end HashTable

/-- The operations on a table. -/
inductive HashOp (Value : Type) where
  | insert (key : ℕ) (value : Value)
  | find (key : ℕ)
  | remove (key : ℕ)

/-- An operation on the table, and on the keys that have been inserted and not removed. -/
def HashOp.step : HashTable Value × Finset ℕ → HashOp Value → Option (HashTable Value × Finset ℕ)
  | (s, keys), .insert key value => (s.insert key value).map fun r ↦ (r.1, Insert.insert key keys)
  | (s, keys), .find key => (s.find key).map fun _ ↦ (s, keys)
  | (s, keys), .remove key => (s.remove key).map fun r ↦ (r.1, keys.erase key)

/-- All operations are defined, and the table is right after each. -/
def RefinesMap (ops : List (HashOp Value)) : Prop :=
  ∀ bs, bs <+: ops → ∃ t, exec HashOp.step (HashTable.construct, ∅) bs = some t ∧ t.1.Right t.2

/-- No key is removed, and none inserted where there are three. -/
def HashOp.Harmless (keys : Finset ℕ) : HashOp Value → Prop
  | .insert key _ => key ∈ keys ∨ keys.card < 3
  | .find _ => True
  | .remove key => key ∉ keys

/-! ### A chain -/

variable {s t : HashTable Value} {keys : Finset ℕ} {key index a i : ℕ} {head prev : Option ℕ}
  {xs : List ℕ} {fuel : ℕ} {op : HashOp Value}

/-- `find` in a chain. -/
theorem findLoop_eq (key : ℕ) (h : Seg s.next head xs none) (hxs : ∀ a ∈ xs, ∃ n, s.node a = some n)
    (hfuel : xs.length < fuel) :
    ∃ found, s.findLoop key fuel head = some found ∧
      (found.isSome ↔ ∃ a ∈ xs, ∃ n, s.node a = some n ∧ n.key = key) := by
  induction xs generalizing head fuel with
  | nil =>
    obtain ⟨fuel, rfl⟩ := Nat.exists_eq_succ_of_ne_zero (Nat.ne_of_gt hfuel)
    obtain rfl := h
    exact ⟨none, rfl, by simp⟩
  | cons x xs ih =>
    obtain ⟨fuel, rfl⟩ := Nat.exists_eq_succ_of_ne_zero (Nat.ne_of_gt (Nat.zero_lt_of_lt hfuel))
    obtain ⟨rfl, hrest⟩ := h
    obtain ⟨n, hn⟩ := hxs x List.mem_cons_self
    have hnext : s.next x = n.next := by rw [HashTable.next, hn, Option.bind_some]
    rw [HashTable.findLoop, hn]
    simp only [Option.bind_eq_bind, Option.bind_some]
    split
    next heq =>
      exact ⟨some x, rfl, iff_of_true rfl ⟨x, List.mem_cons_self, n, hn, heq⟩⟩
    next hne =>
      rw [hnext] at hrest
      obtain ⟨found, hfound, hiff⟩ := ih hrest (fun a ha ↦ hxs a (List.mem_cons_of_mem x ha))
        (Nat.lt_of_succ_lt_succ hfuel)
      refine ⟨found, hfound, hiff.trans ⟨fun ⟨a, ha, hkey⟩ ↦ ⟨a, List.mem_cons_of_mem x ha, hkey⟩,
        fun ⟨a, ha, m, hm, hkey⟩ ↦ ?_⟩⟩
      rcases List.mem_cons.1 ha with rfl | ha
      · obtain rfl := Option.some.inj (hn.symm.trans hm)
        exact absurd hkey hne
      · exact ⟨a, ha, m, hm, hkey⟩

/-- `remove` in a chain without the key. -/
theorem removeLoop_eq (h : Seg s.next head xs none)
    (hxs : ∀ a ∈ xs, ∃ n, s.node a = some n ∧ n.key ≠ key) (hfuel : xs.length < fuel) :
    s.removeLoop key index fuel prev head = some (s, false) := by
  induction xs generalizing head prev fuel with
  | nil =>
    obtain ⟨fuel, rfl⟩ := Nat.exists_eq_succ_of_ne_zero (Nat.ne_of_gt hfuel)
    obtain rfl := h
    rfl
  | cons x xs ih =>
    obtain ⟨fuel, rfl⟩ := Nat.exists_eq_succ_of_ne_zero (Nat.ne_of_gt (Nat.zero_lt_of_lt hfuel))
    obtain ⟨rfl, hrest⟩ := h
    obtain ⟨n, hn, hne⟩ := hxs x List.mem_cons_self
    have hnext : s.next x = n.next := by rw [HashTable.next, hn, Option.bind_some]
    rw [HashTable.removeLoop, hn]
    simp only [Option.bind_eq_bind, Option.bind_some]
    rw [if_neg hne]
    exact ih (hnext ▸ hrest) (fun a ha ↦ hxs a (List.mem_cons_of_mem x ha))
      (Nat.lt_of_succ_lt_succ hfuel)

/-- What is left of the nodes when `remove` has deleted `a`. -/
structure Deleted (s : HashTable Value) (a : ℕ) (t : HashTable Value) : Prop where
  size : t.size = s.size
  allocated : t.allocated = s.allocated
  isSome : (s.node a).isSome
  node : ∀ x, (t.node x).isSome ↔ (s.node x).isSome ∧ x ≠ a

theorem deleted_unlink {n : KVNode Value} (hn : s.node a = some n)
    (h : s.unlink index prev a n = some t) : Deleted s a t := by
  have hisSome : (s.node a).isSome := by rw [hn]; rfl
  cases prev with
  | none =>
    obtain rfl := Option.some.inj h
    refine ⟨rfl, rfl, hisSome, fun x ↦ ?_⟩
    rcases eq_or_ne x a with rfl | hne
    · simp
    · simp [hne]
  | some p =>
    obtain ⟨m, hm, h⟩ := Option.bind_eq_some_iff.1 h
    obtain rfl := Option.some.inj h
    refine ⟨rfl, rfl, hisSome, fun x ↦ ?_⟩
    rcases eq_or_ne x a with rfl | hne
    · simp
    · rcases eq_or_ne x p with rfl | hnp
      · simp [hne, hm]
      · simp [hne, hnp]

/-- `remove` leaves the table as it is, or deletes a node and does not count it. -/
theorem removeLoop_cases {b : Bool} (h : s.removeLoop key index fuel prev head = some (t, b)) :
    t = s ∨ ∃ a, Deleted s a t := by
  induction fuel generalizing prev head with
  | zero => cases h
  | succ fuel ih =>
    cases head with
    | none => exact .inl (Prod.mk.inj (Option.some.inj h)).1.symm
    | some cur =>
      obtain ⟨n, hn, h⟩ := Option.bind_eq_some_iff.1 h
      split at h
      · obtain ⟨u, hu, h⟩ := Option.bind_eq_some_iff.1 h
        obtain ⟨rfl, -⟩ := Prod.mk.inj (Option.some.inj h)
        exact .inr ⟨cur, deleted_unlink hn hu⟩
      · exact ih h

/-- **Growth** is undefined where there is a node to move. -/
theorem moveChains_eq_some {newSize : ℕ} {heads : List (Option ℕ)}
    {node : ℕ → Option (KVNode Value)} {r : (ℕ → Option (KVNode Value)) × List (Option ℕ)}
    (h : exec (HashTable.moveChain newSize fuel) (node, []) heads = some r) :
    ∀ head ∈ heads, head = none := by
  induction heads with
  | nil => simp
  | cons head heads ih =>
    obtain ⟨u, hu, h⟩ := Option.bind_eq_some_iff.1 h
    cases fuel with
    | zero => cases hu
    | succ fuel =>
      cases head with
      | none =>
        obtain rfl := Option.some.inj hu
        exact List.forall_mem_cons.2 ⟨rfl, ih h⟩
      | some cur =>
        -- there is no element of `tmpTable` to put the node behind
        obtain ⟨n, -, hu⟩ := Option.bind_eq_some_iff.1 hu
        obtain ⟨index, -, hu⟩ := Option.bind_eq_some_iff.1 hu
        cases hu

/-! ### The table -/

/-- Three chains, with the nodes of at most three keys. -/
structure Inv (s : HashTable Value) (keys : Finset ℕ) : Prop where
  length : s.table.length = 3
  le : keys.card ≤ 3
  size : s.size = s.stored.card
  card : s.stored.card = keys.card
  lt : ∀ a n, s.node a = some n → a < s.allocated
  mem_iff : ∀ key, key ∈ keys ↔ ∃ a n, s.node a = some n ∧ n.key = key
  chain : ∀ i < 3, ∃ head xs, s.table[i]? = some head ∧ Seg s.next head xs none ∧
    ∀ a, a ∈ xs ↔ ∃ n, s.node a = some n ∧ n.key % 3 = i

theorem mem_stored (hlt : ∀ a n, s.node a = some n → a < s.allocated) :
    a ∈ s.stored ↔ ∃ n, s.node a = some n := by
  rw [HashTable.stored, Finset.mem_filter, Finset.mem_range, Option.isSome_iff_exists]
  exact and_iff_right_of_imp fun ⟨n, hn⟩ ↦ hlt a n hn

theorem inv_construct : Inv (HashTable.construct : HashTable Value) ∅ where
  length := List.length_replicate
  le := Nat.zero_le 3
  size := rfl
  card := rfl
  lt a n h := nomatch h
  mem_iff key := by simp [HashTable.construct]
  chain i hi := ⟨none, [], by
    rw [HashTable.construct, List.getElem?_replicate, if_pos hi], rfl, by
    simp [HashTable.construct]⟩

/-- The chain of a key, which is not longer than the loops go. -/
theorem Inv.bucket (h : Inv s keys) (key : ℕ) : ∃ head xs,
    hashFunc key s.table.length = some (key % 3) ∧ s.table[key % 3]? = some head ∧
      Seg s.next head xs none ∧ xs.length < s.turns ∧
      ∀ a, a ∈ xs ↔ ∃ n, s.node a = some n ∧ n.key % 3 = key % 3 := by
  obtain ⟨head, xs, hhead, hseg, hxs⟩ := h.chain (key % 3) (Nat.mod_lt key (by decide))
  refine ⟨head, xs, by rw [h.length]; rfl, hhead, hseg, ?_, hxs⟩
  have hsub : xs ⊆ List.range s.allocated := fun a ha ↦ by
    obtain ⟨n, hn, -⟩ := (hxs a).1 ha
    exact List.mem_range.2 (h.lt a n hn)
  have hle := (List.subperm_of_subset hseg.nodup hsub).length_le
  rw [List.length_range] at hle
  exact Nat.lt_succ_of_le hle

theorem Inv.size_eq_zero_iff (h : Inv s keys) : s.size = 0 ↔ keys = ∅ := by
  rw [h.size, h.card, Finset.card_eq_zero]

/-- **`find`** finds the keys. -/
theorem Inv.find (h : Inv s keys) (key : ℕ) :
    ∃ found, s.find key = some found ∧ (found.isSome ↔ key ∈ keys) := by
  by_cases hzero : s.size = 0
  · refine ⟨none, if_pos hzero, ?_⟩
    rw [h.size_eq_zero_iff.1 hzero]
    simp
  · obtain ⟨head, xs, hindex, hhead, hseg, hturns, hxs⟩ := h.bucket key
    have hnodes : ∀ a ∈ xs, ∃ n, s.node a = some n := fun a ha ↦
      ((hxs a).1 ha).imp fun n hn ↦ hn.1
    obtain ⟨found, hfound, hiff⟩ := findLoop_eq key hseg hnodes hturns
    refine ⟨found, ?_, hiff.trans ?_⟩
    · rw [HashTable.find, if_neg hzero, hindex]
      simp only [Option.bind_eq_bind, Option.bind_some, hhead, hfound]
    · rw [h.mem_iff]
      refine ⟨fun ⟨a, _, n, hn⟩ ↦ ⟨a, n, hn⟩, fun ⟨a, n, hn, hkey⟩ ↦ ⟨a, ?_, n, hn, hkey⟩⟩
      exact (hxs a).2 ⟨n, hn, congrArg (· % 3) hkey⟩

theorem Inv.right (h : Inv s keys) : s.Right keys where
  find := h.find
  size := h.size
  reachable a n hn := by
    obtain ⟨head, xs, hindex, hhead, hseg, -, hxs⟩ := h.bucket n.key
    exact ⟨n.key % 3, head, xs, hindex, hhead, hseg, (hxs a).2 ⟨n, hn, rfl⟩⟩

/-- **`remove`** of a key that is not there. -/
theorem Inv.remove (h : Inv s keys) (hkey : key ∉ keys) : s.remove key = some (s, false) := by
  by_cases hzero : s.size = 0
  · exact if_pos hzero
  · obtain ⟨head, xs, hindex, hhead, hseg, hturns, hxs⟩ := h.bucket key
    have hnodes : ∀ a ∈ xs, ∃ n, s.node a = some n ∧ n.key ≠ key := fun a ha ↦ by
      obtain ⟨n, hn, -⟩ := (hxs a).1 ha
      exact ⟨n, hn, fun heq ↦ hkey ((h.mem_iff key).2 ⟨a, n, hn, heq⟩)⟩
    rw [HashTable.remove, if_neg hzero, hindex]
    simp only [Option.bind_eq_bind, Option.bind_some, hhead]
    exact removeLoop_eq hseg hnodes hturns

/-- `remove` of a key that is there is not counted. -/
theorem Inv.remove_not_right {b : Bool} (h : Inv s keys) (hkey : key ∈ keys)
    (hremove : s.remove key = some (t, b)) : ¬ t.Right (keys.erase key) := by
  intro hright
  have hcases : t = s ∨ ∃ a, Deleted s a t := by
    rw [HashTable.remove] at hremove
    split at hremove
    · exact .inl (Prod.mk.inj (Option.some.inj hremove)).1.symm
    · obtain ⟨index, -, hremove⟩ := Option.bind_eq_some_iff.1 hremove
      obtain ⟨head, -, hremove⟩ := Option.bind_eq_some_iff.1 hremove
      exact removeLoop_cases hremove
  rcases hcases with rfl | ⟨a, hdeleted⟩
  · obtain ⟨found, hfound, hiff⟩ := h.find key
    obtain ⟨found', hfound', hiff'⟩ := hright.find key
    obtain rfl := Option.some.inj (hfound.symm.trans hfound')
    exact Finset.notMem_erase key keys (hiff'.1 (hiff.2 hkey))
  · have hstored : t.stored = s.stored.erase a := by
      ext x
      rw [HashTable.stored, HashTable.stored, Finset.mem_erase, Finset.mem_filter,
        Finset.mem_filter, hdeleted.allocated, hdeleted.node]
      tauto
    obtain ⟨n, hn⟩ := Option.isSome_iff_exists.1 hdeleted.isSome
    have hmem : a ∈ s.stored := (mem_stored h.lt).2 ⟨n, hn⟩
    have hsize := hright.size
    rw [hstored, Finset.card_erase_of_mem hmem, hdeleted.size, h.size] at hsize
    have hpos := Finset.card_pos.2 ⟨a, hmem⟩
    omega

/-- **Growth** of a table with nodes is undefined. -/
theorem Inv.checkSize_eq_none (h : Inv s keys) (hcard : 3 ≤ keys.card) : s.checkSize = none := by
  have hsize : s.size = 3 := by
    rw [h.size, h.card]
    exact Nat.le_antisymm h.le hcard
  rw [HashTable.checkSize, if_pos (.inr (h.length.trans hsize.symm))]
  cases hmove : exec (HashTable.moveChain ((primeList.find? (s.table.length < ·)).getD 0) s.turns)
      (s.node, []) s.table with
  | none => simp only [Option.bind_eq_bind, hmove, Option.bind_none]
  | some r =>
    obtain ⟨key, hkey⟩ := Finset.card_pos.1 (Nat.lt_of_lt_of_le (Nat.succ_pos 2) hcard)
    obtain ⟨a, n, hn, -⟩ := (h.mem_iff key).1 hkey
    obtain ⟨head, xs, hhead, hseg, hxs⟩ := h.chain (n.key % 3) (Nat.mod_lt _ (by decide))
    obtain rfl := moveChains_eq_some hmove head (List.mem_of_getElem? hhead)
    have ha : a ∈ xs := (hxs a).2 ⟨n, hn, rfl⟩
    cases xs with
    | nil => cases ha
    | cons x xs => cases hseg.1

/-! ### A new node -/

section NewNode

variable {value : Value} {n : KVNode Value}

/-- The table with a new node in front of the chain `head`. -/
def HashTable.newNode (s : HashTable Value) (key : ℕ) (value : Value) (head : Option ℕ) :
    HashTable Value where
  node := update s.node s.allocated (some ⟨key, value, head⟩)
  allocated := s.allocated + 1
  table := s.table.set (key % 3) (some s.allocated)
  size := s.size + 1

theorem Inv.node_allocated (h : Inv s keys) : s.node s.allocated = none := by
  cases hn : s.node s.allocated with
  | none => rfl
  | some n => exact absurd (h.lt _ n hn) (Nat.lt_irrefl _)

theorem node_newNode : (s.newNode key value head).node s.allocated = some ⟨key, value, head⟩ :=
  update_self ..

theorem node_newNode_of_ne (hne : a ≠ s.allocated) :
    (s.newNode key value head).node a = s.node a := update_of_ne hne ..

/-- A property of the node at an address. -/
theorem Inv.exists_newNode (h : Inv s keys) {P : KVNode Value → Prop} :
    (∃ n, (s.newNode key value head).node a = some n ∧ P n) ↔
      a = s.allocated ∧ P ⟨key, value, head⟩ ∨ ∃ n, s.node a = some n ∧ P n := by
  rcases eq_or_ne a s.allocated with rfl | hne
  · simp [node_newNode, h.node_allocated]
  · simp [node_newNode_of_ne hne, hne]

theorem Inv.lt_newNode (h : Inv s keys) (hn : (s.newNode key value head).node a = some n) :
    a < (s.newNode key value head).allocated := by
  rcases eq_or_ne a s.allocated with rfl | hne
  · exact Nat.lt_succ_self _
  · rw [node_newNode_of_ne hne] at hn
    exact Nat.lt_succ_of_lt (h.lt a n hn)

theorem Inv.card_stored_newNode (h : Inv s keys) :
    (s.newNode key value head).stored.card = s.stored.card + 1 := by
  have hstored : (s.newNode key value head).stored = Insert.insert s.allocated s.stored := by
    ext a
    rw [mem_stored fun _ _ ↦ h.lt_newNode, Finset.mem_insert, mem_stored h.lt]
    have hiff : (∃ n, (s.newNode key value head).node a = some n ∧ True) ↔ _ := h.exists_newNode
    simpa only [and_true] using hiff
  rw [hstored, Finset.card_insert_of_notMem fun hmem ↦ ?_]
  obtain ⟨n, hn⟩ := (mem_stored h.lt).1 hmem
  cases h.node_allocated.symm.trans hn

theorem Inv.mem_iff_newNode (h : Inv s keys) (k : ℕ) :
    k ∈ Insert.insert key keys ↔
      ∃ a n, (s.newNode key value head).node a = some n ∧ n.key = k := by
  simp only [h.exists_newNode, exists_or, exists_and_right, exists_eq, true_and]
  rw [Finset.mem_insert, h.mem_iff, eq_comm]

/-- The other nodes are linked as before. -/
theorem Inv.seg_newNode (h : Inv s keys) {p : Option ℕ}
    (hxs : ∀ a, a ∈ xs ↔ ∃ n, s.node a = some n ∧ n.key % 3 = i) (hseg : Seg s.next p xs none) :
    Seg (s.newNode key value head).next p xs none := by
  refine hseg.congr fun a ha ↦ ?_
  have hne : a ≠ s.allocated := by
    rintro rfl
    obtain ⟨n, hn, -⟩ := (hxs _).1 ha
    cases h.node_allocated.symm.trans hn
  rw [HashTable.next, node_newNode_of_ne hne, HashTable.next]

theorem Inv.chain_newNode (h : Inv s keys) (hseg : Seg s.next head xs none)
    (hxs : ∀ a, a ∈ xs ↔ ∃ n, s.node a = some n ∧ n.key % 3 = key % 3) (hi : i < 3) :
    ∃ p ys, (s.newNode key value head).table[i]? = some p ∧
      Seg (s.newNode key value head).next p ys none ∧
      ∀ a, a ∈ ys ↔ ∃ n, (s.newNode key value head).node a = some n ∧ n.key % 3 = i := by
  rcases eq_or_ne i (key % 3) with rfl | hne
  · refine ⟨some s.allocated, s.allocated :: xs, ?_, ⟨rfl, ?_⟩, fun a ↦ ?_⟩
    · exact List.getElem?_set_self (by rw [h.length]; exact hi)
    · rw [HashTable.next, node_newNode, Option.bind_some]
      exact h.seg_newNode hxs hseg
    · rw [List.mem_cons, hxs, h.exists_newNode, and_iff_left rfl]
  · obtain ⟨p, ys, hp, hseg', hys⟩ := h.chain i hi
    refine ⟨p, ys, (List.getElem?_set_ne hne.symm).trans hp, h.seg_newNode hys hseg', fun a ↦ ?_⟩
    rw [hys, h.exists_newNode, or_iff_right fun heq ↦ hne heq.2.symm]

end NewNode

/-- **A new key** goes to the front of its chain. -/
theorem Inv.insert (h : Inv s keys) (hkey : key ∉ keys) (hcard : keys.card < 3) (value : Value) :
    ∃ t, s.insert key value = some (t, true) ∧ Inv t (Insert.insert key keys) := by
  obtain ⟨found, hfound, hiff⟩ := h.find key
  obtain ⟨head, xs, hindex, hhead, hseg, -, hxs⟩ := h.bucket key
  have hsize : ¬ (s.table.length = 0 ∨ s.table.length = s.size) := by
    have hlength := h.length
    have hs := h.size.trans h.card
    omega
  have hcheck : s.checkSize = some s := if_neg hsize
  have hcard' := Finset.card_insert_of_notMem hkey
  refine ⟨s.newNode key value head, ?_, List.length_set.trans h.length, ?_, ?_, ?_,
    fun _ _ ↦ h.lt_newNode, h.mem_iff_newNode, fun _ ↦ h.chain_newNode hseg hxs⟩
  · rw [HashTable.insert, hfound]
    simp only [Option.bind_eq_bind, Option.bind_some]
    rw [if_neg (mt hiff.1 hkey), hcheck, Option.bind_some, hindex, Option.bind_some, hhead]
    rfl
  · rw [hcard']
    exact hcard
  · rw [h.card_stored_newNode, ← h.size]
    rfl
  · rw [h.card_stored_newNode, h.card, hcard']

/-! ### All runs -/

theorem Inv.step {s : HashTable Value × Finset ℕ} (h : Inv s.1 s.2) (hop : op.Harmless s.2) :
    ∃ t, HashOp.step s op = some t ∧ Inv t.1 t.2 := by
  obtain ⟨s, keys⟩ := s
  cases op with
  | insert key value =>
    by_cases hkey : key ∈ keys
    · obtain ⟨found, hfound, hiff⟩ := h.find key
      refine ⟨(s, Insert.insert key keys), ?_, ?_⟩
      · rw [HashOp.step, HashTable.insert, hfound]
        simp only [Option.bind_eq_bind, Option.bind_some]
        rw [if_pos (hiff.2 hkey)]
        rfl
      · rwa [Finset.insert_eq_of_mem hkey]
    · obtain ⟨t, hinsert, ht⟩ := h.insert hkey (hop.resolve_left hkey) value
      exact ⟨(t, Insert.insert key keys), by rw [HashOp.step, hinsert]; rfl, ht⟩
  | find key =>
    obtain ⟨found, hfound, -⟩ := h.find key
    exact ⟨(s, keys), by rw [HashOp.step, hfound]; rfl, h⟩
  | remove key =>
    have hkey : key ∉ keys := hop
    refine ⟨(s, keys.erase key), by rw [HashOp.step, h.remove hkey]; rfl, ?_⟩
    rwa [Finset.erase_eq_of_notMem hkey]

theorem Inv.not_right {s t : HashTable Value × Finset ℕ} (h : Inv s.1 s.2)
    (hop : ¬ op.Harmless s.2) (hstep : HashOp.step s op = some t) : ¬ t.1.Right t.2 := by
  obtain ⟨s, keys⟩ := s
  cases op with
  | insert key value =>
    obtain ⟨hkey, hcard⟩ := not_or.1 hop
    have hcard : 3 ≤ keys.card := not_lt.1 hcard
    obtain ⟨found, hfound, hiff⟩ := h.find key
    rw [HashOp.step, HashTable.insert, hfound] at hstep
    simp only [Option.bind_eq_bind, Option.bind_some] at hstep
    rw [if_neg (mt hiff.1 hkey), h.checkSize_eq_none hcard] at hstep
    cases hstep
  | find key => exact absurd trivial hop
  | remove key =>
    obtain ⟨r, hr, rfl⟩ := Option.map_eq_some_iff.1 hstep
    exact h.remove_not_right (not_not.1 hop) hr

/-- **The hash table** is right in exactly the runs that remove no key and insert no fourth one. -/
theorem refinesMap_iff (ops : List (HashOp Value)) : RefinesMap ops ↔
    Always HashOp.step (fun s op ↦ op.Harmless s.2) (HashTable.construct, ∅) ops :=
  exists_prefix_iff (I := fun s : HashTable Value × Finset ℕ ↦ Inv s.1 s.2) (fun _ h ↦ h.right)
    (fun _ _ ↦ Inv.step) (fun _ _ _ ↦ Inv.not_right) inv_construct

/-- A key is inserted and removed. -/
theorem not_forall_refinesMap : ¬ ∀ ops : List (HashOp Unit), RefinesMap ops := by
  intro h
  obtain ⟨t, hrun, hright⟩ := h [.insert 7 (), .remove 7] _ (List.prefix_refl _)
  obtain ⟨s, hinsert, hinv⟩ : ∃ s, HashOp.step (HashTable.construct, ∅) (.insert 7 ()) = some s ∧
      Inv s.1 s.2 := Inv.step inv_construct (Or.inr (Nat.zero_lt_succ 2))
  have hmem : 7 ∈ s.2 := by
    rw [HashOp.step] at hinsert
    obtain ⟨r, -, rfl⟩ := Option.map_eq_some_iff.1 hinsert
    exact Finset.mem_insert_self 7 ∅
  rw [exec_cons, hinsert, Option.bind_some, exec_cons] at hrun
  obtain ⟨u, hremove, hu⟩ := Option.bind_eq_some_iff.1 hrun
  obtain rfl := Option.some.inj hu
  have hop : ¬ HashOp.Harmless s.2 (.remove 7 : HashOp Unit) := fun hop ↦ hop hmem
  exact hinv.not_right hop hremove hright

end HashBucket
