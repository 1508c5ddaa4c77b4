import Mathlib.Data.List.Induction
import MiscCpp.Library.CInt
import MiscCpp.Library.Recency

/-!
# The cache of the least recently used keys

`LRUCache` keeps a list of nodes, the one used last in front, and a map from the keys to the nodes.

The invariant (`Inv`) says that the map and the list have the same entries. Then every iterator of
the map leads to its node, so `splice` and `erase` are defined, and an operation changes the list
of keys as a use changes a recency list. After a run of the program the cache holds the first keys
of the recency list of all keys, with the values that were put last (`CacheRight`).
-/

open Recency

namespace LeastRecentlyUsed

/-! ### The operations -/

/-- A node of the list, with its address. -/
structure CacheNode where
  it : ℕ
  key : CInt
  value : CInt
  deriving DecidableEq

/-- `cache_` from front to back, `m_`, and the number of nodes that have been allocated. -/
structure LRUCache where
  capacity : CInt
  cache : List CacheNode
  m : CInt → Option ℕ
  allocated : ℕ

namespace LRUCache

/-- `LRUCache(int capacity)` -/
def construct (capacity : CInt) : LRUCache where
  capacity := capacity
  cache := []
  m := fun _ ↦ none
  allocated := 0

variable (s : LRUCache)

/-- `*it` -/
def deref (it : ℕ) : Option CacheNode := s.cache.find? fun node ↦ node.it = it

/-- `it->second = value` -/
def setSecond (it : ℕ) (value : CInt) : Option LRUCache :=
  (s.deref it).map fun _ ↦
    { s with cache := s.cache.map fun node ↦
        if node.it = it then { node with value := value } else node }

/-- `cache_.splice(cache_.begin(), cache_, it)` -/
def spliceFront (it : ℕ) : Option LRUCache :=
  (s.deref it).map fun node ↦ { s with cache := node :: s.cache.eraseP fun node ↦ node.it = it }

/-- The node at the back and its key leave. -/
def removeOldest : Option LRUCache :=
  s.cache.getLast?.map fun node ↦
    { s with m := Function.update s.m node.key none, cache := s.cache.dropLast }

/-- `emplace_front`, and the new node in the map. -/
def emplaceFront (key value : CInt) : LRUCache :=
  { s with
    cache := ⟨s.allocated, key, value⟩ :: s.cache
    m := Function.update s.m key (some s.allocated)
    allocated := s.allocated + 1 }

/-- `get(key)`: a key that is found moves to the front. -/
def get (key : CInt) : Option (CInt × LRUCache) :=
  match s.m key with
  | none => some (⟨-1, by decide⟩, s)
  | some it => do
    let s ← s.spliceFront it
    let node ← s.deref it
    some (node.value, s)

/-- The comparison with `capacity_` is one of `size_t`. -/
def isFull : Prop := (s.cache.length : ℤ) = s.capacity.1 % 2 ^ 64

instance decidableIsFull : Decidable s.isFull := inferInstanceAs (Decidable (_ = _))

/-- `put(key, value)`: the key moves to the front, and the oldest one goes if the cache is full. -/
def put (key value : CInt) : Option LRUCache :=
  match s.m key with
  | some it => do
    let s ← s.setSecond it value
    s.spliceFront it
  | none => do
    let s ← if s.isFull then s.removeOldest else some s
    some (s.emplaceFront key value)

end LRUCache

/-! ### The invariant -/

/-- The map and the list have the same entries, each key once. -/
structure Inv (s : LRUCache) : Prop where
  its : (s.cache.map CacheNode.it).Nodup
  keys : (s.cache.map CacheNode.key).Nodup
  map : ∀ key it, s.m key = some it ↔ ∃ value, ⟨it, key, value⟩ ∈ s.cache
  allocated : ∀ node ∈ s.cache, node.it < s.allocated

variable {s t : LRUCache} {node : CacheNode} {pre post : List CacheNode} {key value : CInt}
  {it : ℕ}

theorem Inv.of_eq_some (h : Inv s) (hm : s.m key = some it) :
    ∃ pre value post, s.cache = pre ++ ⟨it, key, value⟩ :: post := by
  obtain ⟨value, hmem⟩ := (h.map key it).1 hm
  obtain ⟨pre, post, hcache⟩ := List.append_of_mem hmem
  exact ⟨pre, value, post, hcache⟩

theorem Inv.eq_none_iff (h : Inv s) : s.m key = none ↔ key ∉ s.cache.map CacheNode.key := by
  rw [Option.eq_none_iff_forall_ne_some]
  refine ⟨fun hnone hmem ↦ ?_, fun hnot it hm ↦ ?_⟩
  · obtain ⟨node, hnode, rfl⟩ := List.mem_map.1 hmem
    exact hnone node.it ((h.map _ _).2 ⟨node.value, hnode⟩)
  · obtain ⟨value, hmem⟩ := (h.map key it).1 hm
    exact hnot (List.mem_map.2 ⟨_, hmem, rfl⟩)

/-- The other nodes have other addresses. -/
theorem Inv.it_ne (h : Inv s) (hcache : s.cache = pre ++ node :: post) :
    ∀ x ∈ pre ++ post, x.it ≠ node.it := by
  have hits := (List.perm_middle.map CacheNode.it).nodup_iff.1 (hcache ▸ h.its)
  exact fun x hx heq ↦ (List.nodup_cons.1 hits).1 (heq ▸ List.mem_map_of_mem hx)

theorem Inv.deref_eq (h : Inv s) (hcache : s.cache = pre ++ node :: post) :
    s.deref node.it = some node := by
  rw [LRUCache.deref, hcache, List.find?_append,
    List.find?_eq_none.2 fun x hx ↦ by
      simpa using h.it_ne hcache x (List.mem_append_left _ hx), Option.none_or,
    List.find?_cons_of_pos (by simp)]

theorem Inv.deref_front (h : Inv s) (hcache : s.cache = node :: post) :
    s.deref node.it = some node :=
  h.deref_eq (hcache.trans (List.nil_append _).symm)

/-- **`splice`** moves the node to the front. -/
theorem Inv.spliceFront (h : Inv s) (hcache : s.cache = pre ++ node :: post) :
    s.spliceFront node.it = some { s with cache := node :: (pre ++ post) } ∧
      Inv { s with cache := node :: (pre ++ post) } := by
  have hperm : (node :: (pre ++ post)).Perm s.cache := hcache ▸ List.perm_middle.symm
  refine ⟨?_, (hperm.map _).nodup_iff.2 h.its, (hperm.map _).nodup_iff.2 h.keys,
    fun key it ↦ ?_, fun x hx ↦ h.allocated x (hperm.mem_iff.1 hx)⟩
  · rw [LRUCache.spliceFront, h.deref_eq hcache, Option.map_some, hcache,
      List.eraseP_append_right _ fun x hx ↦ by
        simpa using h.it_ne hcache x (List.mem_append_left _ hx),
      List.eraseP_cons_of_pos (by simp)]
  · simp only [hperm.mem_iff, h.map]

/-- **A write** of the value of a node. -/
theorem Inv.setSecond (h : Inv s) (hcache : s.cache = pre ++ node :: post) (value : CInt) :
    s.setSecond node.it value =
        some { s with cache := pre ++ { node with value := value } :: post } ∧
      Inv { s with cache := pre ++ { node with value := value } :: post } := by
  have hother : ∀ xs : List CacheNode, (∀ x ∈ xs, x ∈ pre ++ post) →
      xs.map (fun x ↦ if x.it = node.it then { x with value := value } else x) = xs := by
    intro xs hxs
    conv_rhs => rw [← List.map_id xs]
    exact List.map_congr_left fun x hx ↦ if_neg (h.it_ne hcache x (hxs x hx))
  have hits := h.its
  have hkeys := h.keys
  rw [hcache, List.map_append, List.map_cons] at hits hkeys
  refine ⟨?_, ?_, ?_, fun key it ↦ ?_, fun x hx ↦ ?_⟩
  · rw [LRUCache.setSecond, h.deref_eq hcache, Option.map_some, hcache, List.map_append,
      List.map_cons, if_pos rfl, hother pre fun x hx ↦ List.mem_append_left _ hx,
      hother post fun x hx ↦ List.mem_append_right _ hx]
  · rwa [List.map_append, List.map_cons]
  · rwa [List.map_append, List.map_cons]
  · obtain ⟨it', key', value'⟩ := node
    rw [h.map, hcache]
    simp only [List.mem_append, List.mem_cons, CacheNode.mk.injEq, exists_or, exists_and_left,
      exists_eq, and_true]
  · rcases List.mem_append.1 hx with hx | hx
    · exact h.allocated x (hcache ▸ List.mem_append_left _ hx)
    · rcases List.mem_cons.1 hx with rfl | hx
      · exact h.allocated node (hcache ▸ List.mem_append_right _ List.mem_cons_self)
      · exact h.allocated x (hcache ▸ List.mem_append_right _ (List.mem_cons_of_mem _ hx))

/-- **The eviction** of the node at the back. -/
theorem Inv.removeOldest (h : Inv s) (hcache : s.cache = pre ++ [node]) :
    s.removeOldest =
        some { s with m := Function.update s.m node.key none, cache := pre } ∧
      Inv { s with m := Function.update s.m node.key none, cache := pre } := by
  have hits := h.its
  have hkeys := h.keys
  rw [hcache, List.map_append, List.map_singleton] at hits hkeys
  have hnot : node.key ∉ pre.map CacheNode.key := fun hmem ↦
    (List.nodup_append.1 hkeys).2.2 _ hmem _ List.mem_cons_self rfl
  refine ⟨?_, (List.nodup_append.1 hits).1, (List.nodup_append.1 hkeys).1, fun key it ↦ ?_,
    fun x hx ↦ h.allocated x (hcache ▸ List.mem_append_left _ hx)⟩
  · rw [LRUCache.removeOldest, hcache, List.getLast?_concat, List.dropLast_concat]
    rfl
  · show Function.update s.m node.key none key = some it ↔ _
    rcases eq_or_ne key node.key with rfl | hne
    · rw [Function.update_self]
      refine iff_of_false (by simp) ?_
      rintro ⟨value, hmem⟩
      exact hnot (List.mem_map.2 ⟨_, hmem, rfl⟩)
    · rw [Function.update_of_ne hne, h.map, hcache]
      refine exists_congr fun value ↦ ?_
      rw [List.mem_append, List.mem_singleton, or_iff_left]
      rintro rfl
      exact hne rfl

/-- **A new node** for a new key. -/
theorem Inv.emplaceFront (h : Inv s) (hm : s.m key = none) (value : CInt) :
    Inv (s.emplaceFront key value) := by
  refine ⟨List.nodup_cons.2 ⟨fun hmem ↦ ?_, h.its⟩,
    List.nodup_cons.2 ⟨h.eq_none_iff.1 hm, h.keys⟩, fun k it ↦ ?_, fun x hx ↦ ?_⟩
  · obtain ⟨x, hx, heq⟩ := List.mem_map.1 hmem
    exact (h.allocated x hx).ne heq
  · show Function.update s.m key (some s.allocated) k = some it ↔ _
    rcases eq_or_ne k key with rfl | hne
    · have hnone : ¬ ∃ v, ⟨it, k, v⟩ ∈ s.cache := by
        rw [← h.map, hm]
        simp
      simp only [Function.update_self, LRUCache.emplaceFront, List.mem_cons, CacheNode.mk.injEq,
        exists_or, exists_and_left, exists_eq, or_iff_left hnone, true_and, and_true,
        Option.some.injEq]
      exact eq_comm
    · rw [Function.update_of_ne hne, h.map]
      simp only [LRUCache.emplaceFront, List.mem_cons, CacheNode.mk.injEq, hne, false_and,
        and_false, false_or]
  · rcases List.mem_cons.1 hx with rfl | hx
    · exact Nat.lt_succ_self _
    · exact Nat.lt_succ_of_lt (h.allocated x hx)

/-! ### What the operations do to the keys -/

/-- The keys from front to back. -/
def keysOf (s : LRUCache) : List CInt := s.cache.map CacheNode.key

theorem Inv.ne_none_iff (h : Inv s) : s.m key ≠ none ↔ key ∈ keysOf s :=
  not_iff_comm.1 h.eq_none_iff.symm

theorem Inv.touch_eq (h : Inv s) (hcache : s.cache = pre ++ node :: post) :
    node.key :: (pre ++ post).map CacheNode.key = touch node.key (keysOf s) := by
  have hkeys := h.keys
  rw [hcache, List.map_append, List.map_cons, List.nodup_append] at hkeys
  have hpre : node.key ∉ pre.map CacheNode.key := fun hmem ↦
    hkeys.2.2 _ hmem _ List.mem_cons_self rfl
  rw [keysOf, hcache, List.map_append, List.map_append, List.map_cons, touch_append_cons hpre]

/-- What an operation that uses `key` makes of the list: `key` is in front, with the value, and the
other nodes have been there before. -/
structure Uses (s t : LRUCache) (key value : CInt) (keys : List CInt) : Prop where
  inv : Inv t
  capacity : t.capacity = s.capacity
  keys : keysOf t = keys
  node : ∀ node ∈ t.cache, node.key = key ∧ node.value = value ∨
    node.key ≠ key ∧ node ∈ s.cache

theorem Inv.key_ne (h : Inv s) (hcache : s.cache = pre ++ node :: post) :
    ∀ x ∈ pre ++ post, x.key ≠ node.key := by
  have hkeys := (List.perm_middle.map CacheNode.key).nodup_iff.1 (hcache ▸ h.keys)
  exact fun x hx heq ↦ (List.nodup_cons.1 hkeys).1 (heq ▸ List.mem_map_of_mem hx)

/-- **A `get`** that finds its key. -/
theorem Inv.get_of_some (h : Inv s) (hm : s.m key = some it) :
    ∃ value t, s.get key = some (value, t) ∧ ⟨it, key, value⟩ ∈ s.cache ∧
      Uses s t key value (touch key (keysOf s)) := by
  obtain ⟨pre, value, post, hcache⟩ := h.of_eq_some hm
  obtain ⟨hsplice, h'⟩ := h.spliceFront hcache
  have hderef := h'.deref_front rfl
  refine ⟨value, _, ?_, hcache ▸ List.mem_append_right _ List.mem_cons_self, h', rfl,
    h.touch_eq hcache, fun x hx ↦ ?_⟩
  · rw [LRUCache.get, hm]
    simp only [Option.bind_eq_bind, hsplice, Option.bind_some, hderef]
  · rcases List.mem_cons.1 hx with rfl | hx
    · exact .inl ⟨rfl, rfl⟩
    · refine .inr ⟨h.key_ne hcache x hx, ?_⟩
      rw [hcache]
      exact List.perm_middle.mem_iff.2 (List.mem_cons_of_mem _ hx)

/-- **A `put`** of a key that is there. -/
theorem Inv.put_of_some (h : Inv s) (hm : s.m key = some it) (value : CInt) :
    ∃ t, s.put key value = some t ∧ Uses s t key value (touch key (keysOf s)) := by
  obtain ⟨pre, old, post, hcache⟩ := h.of_eq_some hm
  obtain ⟨hset, h'⟩ := h.setSecond hcache value
  obtain ⟨hsplice, h''⟩ := h'.spliceFront rfl
  have htouch := h.touch_eq hcache
  refine ⟨_, ?_, h'', rfl, htouch, fun x hx ↦ ?_⟩
  · rw [LRUCache.put, hm]
    simp only [Option.bind_eq_bind, hset, Option.bind_some]
    exact hsplice
  · rcases List.mem_cons.1 hx with rfl | hx
    · exact .inl ⟨rfl, rfl⟩
    · refine .inr ⟨h.key_ne hcache x hx, ?_⟩
      rw [hcache]
      exact List.perm_middle.mem_iff.2 (List.mem_cons_of_mem _ hx)

theorem Inv.uses_emplaceFront (h : Inv s) (hm : s.m key = none) (value : CInt) :
    Uses s (s.emplaceFront key value) key value (key :: keysOf s) where
  inv := h.emplaceFront hm value
  capacity := rfl
  keys := rfl
  node x hx := by
    rcases List.mem_cons.1 hx with rfl | hx
    · exact .inl ⟨rfl, rfl⟩
    · exact .inr ⟨fun heq ↦ h.eq_none_iff.1 hm (heq ▸ List.mem_map_of_mem hx), hx⟩

/-- **A `put`** of a new key: on a full cache the key at the back gives way. -/
theorem Inv.put_of_none {n : ℕ} (h : Inv s) (hm : s.m key = none) (value : CInt)
    (hcapacity : s.capacity.1 = n + 1) (hlen : s.cache.length ≤ n + 1) :
    ∃ t, s.put key value = some t ∧ Uses s t key value (key :: (keysOf s).take n) := by
  have hmod : s.capacity.1 % 2 ^ 64 = n + 1 := by
    have := s.capacity.2
    omega
  have hfull : s.isFull ↔ s.cache.length = n + 1 := by
    rw [LRUCache.isFull, hmod]
    omega
  rw [LRUCache.put, hm]
  by_cases hn : s.cache.length = n + 1
  · obtain ⟨pre, node, hcache⟩ : ∃ pre node, s.cache = pre ++ [node] := by
      rcases List.eq_nil_or_concat s.cache with hnil | h
      · rw [hnil] at hn
        cases hn
      · simpa [List.concat_eq_append] using h
    obtain ⟨hremove, h'⟩ := h.removeOldest hcache
    have hm' : Function.update s.m node.key none key = none := by
      rcases eq_or_ne key node.key with rfl | hne
      · exact Function.update_self ..
      · rw [Function.update_of_ne hne, hm]
    have hpre : pre.length = n := by
      rw [hcache, List.length_append] at hn
      exact Nat.succ.inj hn
    have hkeys : (keysOf s).take n = pre.map CacheNode.key := by
      rw [keysOf, hcache, List.map_append]
      exact List.take_left' (List.length_map .. |>.trans hpre)
    have U := h'.uses_emplaceFront hm' value
    refine ⟨_, ?_, U.inv, U.capacity, ?_, fun x hx ↦ ?_⟩
    · simp only [if_pos (hfull.2 hn), Option.bind_eq_bind, hremove, Option.bind_some]
    · rw [hkeys]
      exact U.keys
    · exact (U.node x hx).imp_right (And.imp_right fun hmem ↦
        hcache ▸ List.mem_append_left _ hmem)
  · refine ⟨s.emplaceFront key value, ?_, ?_⟩
    · simp only [if_neg (mt hfull.1 hn), Option.bind_eq_bind, Option.bind_some]
    · rw [List.take_of_length_le (by rw [keysOf, List.length_map]; omega)]
      exact h.uses_emplaceFront hm value

/-! ### The history -/

/-- The operations on a cache. -/
inductive CacheOp where
  | get (key : CInt)
  | put (key value : CInt)

/-- The cache after one operation. -/
def LRUCache.step (s : LRUCache) : CacheOp → Option LRUCache
  | .get key => (s.get key).map Prod.snd
  | .put key value => s.put key value

/-- A new cache after a list of operations. -/
def LRUCache.run (capacity : CInt) (ops : List CacheOp) : Option LRUCache :=
  ops.foldlM LRUCache.step (.construct capacity)

/-- One operation on the list of all keys, the one used last in front. A `put` uses its key, and so
does a `get` of a key that is one of the first `n`. -/
def recentStep (n : ℕ) (l : List CInt) : CacheOp → List CInt
  | .get key => if key ∈ l.take n then touch key l else l
  | .put key _ => touch key l

/-- The keys by how recently they were used, at most `n` of them. -/
def recent (n : ℕ) (ops : List CacheOp) : List CInt := ops.foldl (recentStep n) []

/-- The value that an operation puts for a key. -/
def putFor (key : CInt) : CacheOp → Option CInt
  | .get _ => none
  | .put k value => if k = key then some value else none

/-- The value of the last `put` of a key. -/
def latestPut (ops : List CacheOp) (key : CInt) : Option CInt := ops.reverse.findSome? (putFor key)

variable {capacity : CInt} {n : ℕ} {ops : List CacheOp}

theorem recent_concat (n : ℕ) (ops : List CacheOp) (op : CacheOp) :
    recent n (ops ++ [op]) = recentStep n (recent n ops) op :=
  List.foldl_concat ..

theorem latestPut_get (ops : List CacheOp) (key k : CInt) :
    latestPut (ops ++ [.get key]) k = latestPut ops k := by
  rw [latestPut, List.reverse_concat, List.findSome?_cons_of_isNone rfl, latestPut]

theorem latestPut_put (ops : List CacheOp) (key value k : CInt) :
    latestPut (ops ++ [.put key value]) k = if key = k then some value else latestPut ops k := by
  rw [latestPut, List.reverse_concat, List.findSome?_cons, putFor]
  split_ifs <;> rfl

/-- The cache after `ops`: the first `n` of all keys, with their last values. -/
structure Follows (capacity : CInt) (n : ℕ) (ops : List CacheOp) (s : LRUCache) : Prop where
  inv : Inv s
  capacity : s.capacity = capacity
  keys : keysOf s = (recent n ops).take n
  value : ∀ node ∈ s.cache, latestPut ops node.key = some node.value

theorem Follows.of_uses {op : CacheOp} {keys : List CInt} (h : Follows capacity n ops s)
    (U : Uses s t key value keys) (hkeys : keys = (recent n (ops ++ [op])).take n)
    (hvalue : latestPut (ops ++ [op]) key = some value)
    (hother : ∀ k, k ≠ key → latestPut (ops ++ [op]) k = latestPut ops k) :
    Follows capacity n (ops ++ [op]) t where
  inv := U.inv
  capacity := U.capacity.trans h.capacity
  keys := U.keys.trans hkeys
  value x hx := by
    rcases U.node x hx with ⟨hkey, hval⟩ | ⟨hne, hmem⟩
    · rw [hkey, hval, hvalue]
    · rw [hother _ hne, h.value x hmem]

theorem Follows.length_le (h : Follows capacity n ops s) : s.cache.length ≤ n := by
  have hlen := congrArg List.length h.keys
  rw [keysOf, List.length_map] at hlen
  exact hlen ▸ List.length_take_le ..

/-- **One operation** keeps the cache in step with the history. -/
theorem Follows.step (h : Follows capacity (n + 1) ops s) (hcapacity : capacity.1 = n + 1)
    (op : CacheOp) : ∃ t, s.step op = some t ∧ Follows capacity (n + 1) (ops ++ [op]) t := by
  have hkeys := h.keys
  cases op with
  | get key =>
    cases hm : s.m key with
    | none =>
      have hnot : key ∉ (recent (n + 1) ops).take (n + 1) := by
        rw [← hkeys]
        exact h.inv.eq_none_iff.1 hm
      refine ⟨s, by rw [LRUCache.step, LRUCache.get, hm]; rfl, h.inv, h.capacity, ?_,
        fun x hx ↦ ?_⟩
      · rw [recent_concat, recentStep, if_neg hnot, hkeys]
      · rw [latestPut_get, h.value x hx]
    | some it =>
      obtain ⟨value, t, hget, hmem, U⟩ := h.inv.get_of_some hm
      have hin : key ∈ (recent (n + 1) ops).take (n + 1) := by
        rw [← hkeys]
        exact List.mem_map.2 ⟨_, hmem, rfl⟩
      refine ⟨t, by rw [LRUCache.step, hget]; rfl, h.of_uses U ?_ ?_ fun k _ ↦ latestPut_get ..⟩
      · rw [recent_concat, recentStep, if_pos hin, take_touch_of_mem hin, hkeys]
      · rw [latestPut_get]
        exact h.value _ hmem
  | put key value =>
    have hvalue : latestPut (ops ++ [.put key value]) key = some value := by
      rw [latestPut_put, if_pos rfl]
    have hother : ∀ k, k ≠ key → latestPut (ops ++ [.put key value]) k = latestPut ops k :=
      fun k hne ↦ by rw [latestPut_put, if_neg hne.symm]
    cases hm : s.m key with
    | none =>
      have hnot : key ∉ (recent (n + 1) ops).take (n + 1) := by
        rw [← hkeys]
        exact h.inv.eq_none_iff.1 hm
      obtain ⟨t, ht, U⟩ := h.inv.put_of_none hm value (h.capacity ▸ hcapacity) h.length_le
      refine ⟨t, ht, h.of_uses U ?_ hvalue hother⟩
      rw [recent_concat, recentStep, take_touch_of_notMem hnot, hkeys, List.take_take,
        Nat.min_eq_left (Nat.le_succ n)]
    | some it =>
      obtain ⟨t, ht, U⟩ := h.inv.put_of_some hm value
      have hin : key ∈ (recent (n + 1) ops).take (n + 1) := by
        rw [← hkeys, ← h.inv.ne_none_iff, hm]
        exact Option.some_ne_none it
      refine ⟨t, ht, h.of_uses U ?_ hvalue hother⟩
      rw [recent_concat, recentStep, take_touch_of_mem hin, hkeys]

/-- **A run of the program** keeps the cache in step with the history. -/
theorem exists_follows (hcapacity : capacity.1 = n + 1) (ops : List CacheOp) :
    ∃ s, LRUCache.run capacity ops = some s ∧ Follows capacity (n + 1) ops s := by
  induction ops using List.reverseRecOn with
  | nil =>
    exact ⟨_, rfl, ⟨List.nodup_nil, List.nodup_nil, by simp [LRUCache.construct],
      fun x hx ↦ absurd hx List.not_mem_nil⟩, rfl, rfl, fun x hx ↦ absurd hx List.not_mem_nil⟩
  | append_singleton ops op ih =>
    obtain ⟨s, hrun, h⟩ := ih
    obtain ⟨t, ht, h'⟩ := h.step hcapacity op
    refine ⟨t, ?_, h'⟩
    rw [LRUCache.run] at hrun ⊢
    rw [List.foldlM_append, hrun]
    show (s.step op).bind (fun s ↦ some s) = some t
    rw [ht]
    rfl

/-! ### The cache -/

/-- The cache after `ops` as its description has it, with `n` for the capacity. -/
structure CacheRight (n : ℕ) (ops : List CacheOp) (s : LRUCache) : Prop where
  map : ∀ key it, s.m key = some it ↔ ∃ value, ⟨it, key, value⟩ ∈ s.cache
  its : (s.cache.map CacheNode.it).Nodup
  keys : (s.cache.map CacheNode.key).Nodup
  size : s.cache.length ≤ n
  /-- The value of the latest `put`, for the keys used last. -/
  get : ∀ key, ∃ value t, s.get key = some (value, t) ∧
    (key ∈ (recent n ops).take n → latestPut ops key = some value) ∧
    (key ∉ (recent n ops).take n → value.1 = -1)
  /-- On a full cache a new key takes the place of the one used least recently, the `n`th. -/
  evict : ∀ key value, s.m key = none → s.cache.length = n → ∃ oldest t,
    (recent n ops)[n - 1]? = some oldest ∧ s.m oldest ≠ none ∧ s.put key value = some t ∧
    ∀ k, t.m k ≠ none ↔ k = key ∨ k ≠ oldest ∧ s.m k ≠ none

theorem Follows.cacheRight (h : Follows capacity (n + 1) ops s) (hcapacity : capacity.1 = n + 1) :
    CacheRight (n + 1) ops s where
  map := h.inv.map
  its := h.inv.its
  keys := h.inv.keys
  size := h.length_le
  get key := by
    rw [← h.keys, ← h.inv.ne_none_iff]
    cases hm : s.m key with
    | none =>
      refine ⟨⟨-1, by decide⟩, s, by rw [LRUCache.get, hm], fun hne ↦ absurd rfl hne, fun _ ↦ rfl⟩
    | some it =>
      obtain ⟨value, t, hget, hmem, -⟩ := h.inv.get_of_some hm
      exact ⟨value, t, hget, fun _ ↦ h.value _ hmem,
        fun hnot ↦ absurd (Option.some_ne_none it) hnot⟩
  evict key value hm hfull := by
    obtain ⟨t, ht, U⟩ := h.inv.put_of_none hm value (h.capacity ▸ hcapacity) h.length_le
    have hlen : (keysOf s).length = n + 1 := by rw [keysOf, List.length_map, hfull]
    obtain ⟨oldest, hget⟩ : ∃ oldest, (keysOf s)[n]? = some oldest :=
      ⟨_, List.getElem?_eq_getElem (hlen ▸ Nat.lt_succ_self n)⟩
    have hsplit : keysOf s = (keysOf s).take n ++ [oldest] := by
      conv_lhs => rw [← List.take_of_length_le hlen.le, List.take_add_one, hget]
      rfl
    have hnot : oldest ∉ (keysOf s).take n := by
      intro hmem
      have hnodup : (keysOf s).Nodup := h.inv.keys
      rw [hsplit, List.nodup_append] at hnodup
      exact hnodup.2.2 _ hmem _ List.mem_cons_self rfl
    refine ⟨oldest, t, ?_, ?_, ht, fun k ↦ ?_⟩
    · rw [h.keys, List.getElem?_take_of_lt (Nat.lt_succ_self n)] at hget
      exact hget
    · rw [h.inv.ne_none_iff]
      exact List.mem_of_getElem? hget
    · rw [U.inv.ne_none_iff, U.keys, List.mem_cons, h.inv.ne_none_iff]
      refine or_congr_right ⟨fun hmem ↦ ⟨fun heq ↦ hnot (heq ▸ hmem), List.mem_of_mem_take hmem⟩,
        fun ⟨hne, hmem⟩ ↦ ?_⟩
      rw [hsplit, List.mem_append, List.mem_singleton] at hmem
      exact hmem.resolve_right hne

/-- **The cache refines its description**, for every capacity from one on and every sequence of
operations. -/
theorem cacheRight_run (capacity : CInt) (hpos : 1 ≤ capacity.1) (ops : List CacheOp) :
    ∃ s, LRUCache.run capacity ops = some s ∧ CacheRight capacity.1.toNat ops s := by
  obtain ⟨n, hn⟩ : ∃ n : ℕ, capacity.1 = n + 1 := ⟨(capacity.1 - 1).toNat, by omega⟩
  have htoNat : capacity.1.toNat = n + 1 := by omega
  obtain ⟨s, hrun, h⟩ := exists_follows hn ops
  exact ⟨s, hrun, htoNat ▸ h.cacheRight hn⟩

/-- The key 1 is used again before 3 takes the place of 2. -/
theorem cacheRight_run_two :
    ∃ s, LRUCache.run ⟨2, by decide⟩ [.put ⟨1, by decide⟩ ⟨5, by decide⟩,
        .put ⟨2, by decide⟩ ⟨6, by decide⟩, .get ⟨1, by decide⟩,
        .put ⟨3, by decide⟩ ⟨7, by decide⟩] = some s ∧
      CacheRight 2 [.put ⟨1, by decide⟩ ⟨5, by decide⟩, .put ⟨2, by decide⟩ ⟨6, by decide⟩,
        .get ⟨1, by decide⟩, .put ⟨3, by decide⟩ ⟨7, by decide⟩] s :=
  cacheRight_run ⟨2, by decide⟩ (by decide) _

end LeastRecentlyUsed
