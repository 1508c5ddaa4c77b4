import Mathlib.Algebra.Order.BigOperators.Group.List
import MiscCpp.Library.Machine
import MiscCpp.Library.UnionFind
import MiscCpp.Struct.Graph

/-!
# Minimum spanning trees

`prim` and `kruskal` of `struct/minmumSpanningTree.cc`.

`kruskal` keeps its classes as trees without ranks, and `find` points every other node of the path
at the root (`Trees.findWithin`); a path is short only because it does not come back to a node.

`prim` goes on until every vertex has been added, whatever it finds in the queue in the meantime, so
each of its turns is one of `MinSpanningTreePrim` (`primStep_simulates`) and nothing is missing in
the end. But `seen` counts all entries of a vertex that are taken from the queue: the run is right
exactly if none of these counts comes to `2 ^ 31` (`primAgrees_iff`). That takes as many edge ends
at one vertex (`primAgrees_of_degree`), and parallel edges are enough (`not_primAgrees_stack`).
-/

open Connectivity Machine ParentForest SpanningForest

namespace Struct.MinimumSpanningTree

/-! ### The graph -/

/-- `g[e[0]].emplace_back(e[1], e[2])`, `g[e[1]].emplace_back(e[0], e[2])` -/
def emplaceEdge (g : List (List (ℕ × ℤ))) (e : Edge) : Option (List (List (ℕ × ℤ))) :=
  if e.u < g.length ∧ e.v < g.length then
    some ((g.modify e.u (· ++ [(e.v, e.w)])).modify e.v (· ++ [(e.u, e.w)]))
  else none

/-- The adjacency lists of `main`. -/
def adjacency (edges : List Edge) (n : ℕ) : Option (List (List (ℕ × ℤ))) :=
  edges.foldlM emplaceEdge (List.replicate n [])

/-! ### Prim's algorithm -/

/-- The state of the loops, and the vertices added: as many as the outer loop has made turns. -/
structure State where
  cost : ℤ
  pq : Multiset (ℤ × ℕ)
  seen : List ℕ
  added : List ℕ

/-- At the start the node 0 is queued at no cost. -/
def State.initial (n : ℕ) : State where
  cost := 0
  pq := {(0, 0)}
  seen := List.replicate n 0
  added := []

/-- The loops go on, and `top` is an entry of least weight: one that `pq.top()` may be. -/
def Takes (n : ℕ) (s : State) (top : ℤ × ℕ) : Prop :=
  s.added.length < n ∧ top ∈ s.pq ∧ ∀ p ∈ s.pq, top.1 ≤ p.1

instance (n : ℕ) (s : State) (top : ℤ × ℕ) : Decidable (Takes n s top) :=
  inferInstanceAs (Decidable (_ ∧ _ ∧ _))

/-- A turn of the inner loop with `top` the first entry. The counter `seen[v]++` is an `int`. -/
def primStep (g : List (List (ℕ × ℤ))) (s : State) (top : ℤ × ℕ) : Option State := do
  let (w, v) := top
  let count ← s.seen[v]?
  if count + 1 < 2 ^ 31 then
    let pq := s.pq.erase top
    let seen := s.seen.set v (count + 1)
    if count ≠ 0 then some { s with pq := pq, seen := seen }
    else
      let neighbours ← g[v]?
      let entries := (neighbours.filter fun p ↦ seen[p.1]? = some 0).map fun p ↦ (p.2, p.1)
      some
        { cost := s.cost + w
          pq := pq + (entries : Multiset (ℤ × ℕ))
          seen := seen
          added := s.added ++ [v] }
  else none

/-- The counter of the vertex is below `INT_MAX`. -/
def Counts (s : State) (top : ℤ × ℕ) : Prop := s.seen[top.2]?.getD 0 + 1 < 2 ^ 31

instance (s : State) (top : ℤ × ℕ) : Decidable (Counts s top) :=
  inferInstanceAs (Decidable (_ < _))

/-! ### Kruskal's algorithm -/

/-- `{e[2], e[0], e[1]}` -/
def entry (e : Edge) : ℤ × ℕ × ℕ := (e.w, e.u, e.v)

/-- The order of the vectors. -/
def entryCompare : ℤ × ℕ × ℕ → ℤ × ℕ × ℕ → Ordering :=
  compareLex (compareOn fun t ↦ t.1)
    (compareLex (compareOn fun t ↦ t.2.1) (compareOn fun t ↦ t.2.2))

instance : Std.TransCmp entryCompare := inferInstanceAs (Std.TransCmp (compareLex _ _))

/-- `std::sort`: for a linear order there is one result. -/
def sortEntries (q : List (ℤ × ℕ × ℕ)) : List (ℤ × ℕ × ℕ) :=
  q.insertionSort fun s t ↦ (entryCompare s t).isLE

/-- `find`, as far as `fuel` calls get. -/
def findWithin : ℕ → List ℕ → ℕ → Option (ℕ × List ℕ)
  | 0, _, _ => none
  | fuel + 1, p, x => do
    let y ← p[x]?
    if x = y then some (x, p)
    else
      let (root, p) ← findWithin fuel p (← p[y]?)
      some (root, p.set x root)

/-- A path that does not end within as many calls as there are entries is a cycle. -/
def find (p : List ℕ) (x : ℕ) : Option (ℕ × List ℕ) := findWithin p.length p x

/-- The loop over the sorted entries. -/
def kruskalLoop : List (ℤ × ℕ × ℕ) → ℤ → List ℕ → Option ℤ
  | [], cost, _ => some cost
  | (w, u, v) :: q, cost, p => do
    let (ru, p) ← find p u
    let (rv, p) ← find p v
    if ru = rv then kruskalLoop q cost p else kruskalLoop q (cost + w) (p.set ru rv)

/-- The edges in order of their weights, each one that closes no cycle. -/
def kruskal (edges : List Edge) (n : ℕ) : Option ℤ :=
  kruskalLoop (sortEntries (edges.map entry)) 0 (List.range n)

example : kruskal testEdges 4 = some 6 := by decide

/-! ### The trees of `find` -/

variable {p : List ℕ} {n x y k r fuel : ℕ} {R : ℕ → ℕ → Prop}

/-- The classes of the vertices as trees. -/
structure Trees (p : List ℕ) (n : ℕ) (R : ℕ → ℕ → Prop) : Prop where
  length : p.length = n
  joins : Joins (parents p) (Finset.range n) R

/-- **`find`** returns the root and changes no root. -/
theorem Trees.findWithin (T : Trees p n R) (hx : x < n) (h : RootAfter (parents p) k x r)
    (hfuel : k < fuel) :
    ∃ p', MinimumSpanningTree.findWithin fuel p x = some (r, p') ∧ Trees p' n R ∧
      ∀ y s, RootOf (parents p') y s ↔ RootOf (parents p) y s := by
  induction fuel generalizing x k with
  | zero => omega
  | succ fuel ih =>
    have hlt : ∀ y < n, y < p.length := fun y hy ↦ T.length.symm ▸ hy
    have hclosed : ∀ y < n, parents p y < n := fun y hy ↦
      Finset.mem_range.1 (T.joins.closed y (Finset.mem_range.2 hy))
    rw [MinimumSpanningTree.findWithin, getElem?_eq_parents (hlt x hx)]
    simp only [Option.bind_eq_bind, Option.bind_some]
    cases h with
    | root h => exact ⟨p, if_pos h.symm, T, fun _ _ ↦ Iff.rfl⟩
    | @step k _ _ hne h =>
      -- the call is for the parent of the parent, which is a step or two nearer to the root
      obtain ⟨j, hj, hgrand⟩ := h.parent
      obtain ⟨p', hfind, T', hroots⟩ := ih (hclosed _ (hclosed x hx)) hgrand (by omega)
      have hroot : RootOf (parents p') x r := (hroots x r).2 (.step hne h.rootOf)
      have hset : parents (p'.set x r) = Function.update (parents p') x r :=
        parents_set (T'.length.symm ▸ hx) r
      rw [if_neg (Ne.symm hne), getElem?_eq_parents (hlt _ (hclosed x hx)), Option.bind_some, hfind]
      refine ⟨p'.set x r, rfl, ⟨(List.length_set ..).trans T'.length, ?_⟩, fun y s ↦ ?_⟩
      · rw [hset]
        exact T'.joins.compress (Finset.mem_range.2 hx) hroot
      · rw [hset, rootOf_compress_iff hroot, hroots]

theorem Trees.find (T : Trees p n R) (hx : x < n) :
    ∃ r p', MinimumSpanningTree.find p x = some (r, p') ∧ RootOf (parents p) x r ∧ Trees p' n R ∧
      ∀ y s, RootOf (parents p') y s ↔ RootOf (parents p) y s := by
  obtain ⟨r, hr⟩ := T.joins.rooted x (Finset.mem_range.2 hx)
  obtain ⟨k, hk⟩ := hr.exists_after
  have hlt := hk.lt_card (Finset.mem_range.2 hx) T.joins.closed
  rw [Finset.card_range, ← T.length] at hlt
  obtain ⟨p', hfind, T', hroots⟩ := T.findWithin hx hk hlt
  exact ⟨r, p', hfind, hr, T', hroots⟩

theorem trees_range (n : ℕ) : Trees (List.range n) n (Linked Edge.ends 0) where
  length := List.length_range
  joins := joins_id (fun _ _ ⟨_, he, _⟩ ↦ Multiset.notMem_zero _ he) fun x hx ↦ by
    rw [parents, List.getElem?_range (Finset.mem_range.1 hx), Option.getD_some]

/-! ### Kruskal's algorithm takes the minimum -/

variable {edges rest : List Edge} {E A : Multiset Edge} {e : Edge}

/-- An edge between two trees links them. -/
theorem Trees.link {ru rv : ℕ} (T : Trees p n (Linked Edge.ends A)) (hu : e.u < n) (hv : e.v < n)
    (hru : RootOf (parents p) e.u ru) (hrv : RootOf (parents p) e.v rv) (hne : ru ≠ rv) :
    Trees (p.set ru rv) n (Linked Edge.ends (e ::ₘ A)) where
  length := (List.length_set ..).trans T.length
  joins := by
    have hu' := Finset.mem_range.2 hu
    have hlt : ru < p.length := by
      rw [T.length]
      exact Finset.mem_range.1 (hru.mem hu' T.joins.closed)
    rw [parents_set hlt]
    refine (T.joins.link (Finset.mem_range.2 hv) hu' hrv hru hne.symm).congr fun x y ↦ ?_
    rw [joined_cons, joined_add, joined_add]
    exact or_congr_right or_comm

/-- **The loop** takes edges until they span the graph. -/
theorem kruskalLoop_spec (T : Trees p n (Linked Edge.ends A))
    (hV : Visits Edge.ends Edge.w E rest A) (hE : ∀ e ∈ E, e.u < n ∧ e.v < n) :
    ∃ F, kruskalLoop (rest.map entry) (totalWeight Edge.w A) p = some (totalWeight Edge.w F) ∧
      Extends Edge.ends Edge.w E F ∧ Spans Edge.ends F E := by
  induction rest generalizing A p with
  | nil => exact ⟨A, rfl, hV.choice, hV.spans⟩
  | cons e rest ih =>
    obtain ⟨hu, hv⟩ := hE e (hV.mem e List.mem_cons_self)
    obtain ⟨ru, p₁, hfind₁, hru, T₁, hroots₁⟩ := T.find hu
    obtain ⟨rv, p₂, hfind₂, hrv, T₂, hroots₂⟩ := T₁.find hv
    -- the second `find` keeps the root that the first one has found
    have hru₂ : RootOf (parents p₂) e.u ru := (hroots₂ _ _).2 ((hroots₁ _ _).2 hru)
    have hrv₂ : RootOf (parents p₂) e.v rv := (hroots₂ _ _).2 hrv
    have hiff := T₂.joins.joined _ (Finset.mem_range.2 hu) _ (Finset.mem_range.2 hv) ru rv hru₂ hrv₂
    simp only [List.map_cons, entry, kruskalLoop, hfind₁, hfind₂, Option.bind_eq_bind,
      Option.bind_some]
    by_cases heq : ru = rv
    · rw [if_pos heq]
      exact ih T₂ (hV.skip (hiff.1 heq))
    · have hcost : totalWeight Edge.w A + e.w = totalWeight Edge.w (e ::ₘ A) := by
        rw [totalWeight_cons, add_comm]
      rw [if_neg heq, hcost]
      exact ih (T₂.link hu hv hru₂ hrv₂ heq) (hV.choose fun hj ↦ heq (hiff.2 hj))

/-- The edge of an entry. -/
def edgeOf (t : ℤ × ℕ × ℕ) : Edge where
  u := t.2.1
  v := t.2.2
  w := t.1

theorem map_edgeOf (edges : List Edge) : (edges.map entry).map edgeOf = edges := by
  rw [List.map_map]
  exact List.map_id _

/-- The sorted entries are the entries of the edges in some order, the lightest ones first. -/
theorem exists_sortEntries (edges : List Edge) :
    ∃ sorted : List Edge, sortEntries (edges.map entry) = sorted.map entry ∧
      sorted.Perm edges ∧ sorted.Pairwise fun e f ↦ e.w ≤ f.w := by
  have hsorts : Search.Sorts entryCompare sortEntries := Search.sorts_insertionSort
  refine ⟨(sortEntries (edges.map entry)).map edgeOf, ?_, ?_, ?_⟩
  · rw [List.map_map]
    exact (List.map_id _).symm
  · have hperm := (hsorts.perm (edges.map entry)).map edgeOf
    rwa [map_edgeOf] at hperm
  · refine List.pairwise_map.2 ((hsorts.sorted _).imp fun {s t} hle ↦ ?_)
    exact Int.isLE_compare.1 (Ordering.isLE_left_of_isLE_then hle)

/-! ### The input -/

/-- A connected graph, as a list of edges and as the adjacency lists built from it. -/
structure Network where
  n : ℕ
  pos : 1 ≤ n
  lt : n < 2 ^ 31
  edges : List Edge
  g : List (List (ℕ × ℤ))
  built : adjacency edges n = some g
  connected : ∀ u < n, ∀ v < n, Joined (Linked Edge.ends (edges : Multiset Edge)) u v

/-- Edges without a cycle that connect all vertices. -/
structure IsSpanningTree (N : Network) (F : Multiset Edge) : Prop where
  le : F ≤ N.edges
  acyclic : Acyclic Edge.ends F
  connects : ∀ u < N.n, ∀ v < N.n, Joined (Linked Edge.ends F) u v

/-- The loop of `main` and the one of the constructor `Graph` differ in the order of two insertions,
into two different lists or of the same value. -/
theorem emplaceEdge_eq (g : List (List (ℕ × ℤ))) (e : Edge) : emplaceEdge g e = addEdge g e := by
  rw [emplaceEdge, addEdge]
  refine if_congr and_comm (congrArg some ?_) rfl
  rcases eq_or_ne e.u e.v with heq | hne
  · rw [heq]
  · exact List.modify_modify_ne _ _ _ hne

namespace Network

variable (N : Network)

/-- The same graph for `MinSpanningTreePrim`. -/
def graph : Graph where
  nodesNum := N.n
  edgeList := N.edges
  adjacencyList := N.g

theorem construct_eq : Graph.construct N.edges N.n = some N.graph := by
  have hsq : N.n * N.n ≤ (2 ^ 31 - 1) * (2 ^ 31 - 1) :=
    Nat.mul_le_mul (Nat.le_sub_one_of_lt N.lt) (Nat.le_sub_one_of_lt N.lt)
  have hbuilt := N.built
  rw [adjacency, funext₂ emplaceEdge_eq] at hbuilt
  rw [Graph.construct, if_pos (by omega), hbuilt]
  rfl

theorem built_g : Built N.edges N.n N.g := (construct_eq_some N.construct_eq).2.2.2

variable {N}

/-- In a connected graph the spanning forests are the spanning trees. -/
theorem isSpanningTree_iff {F : Multiset Edge} :
    IsSpanningTree N F ↔ IsSpanningForest Edge.ends (N.edges : Multiset Edge) F := by
  constructor
  · intro h
    refine isSpanningForest_of_spans h.le h.acyclic fun e he ↦ ?_
    obtain ⟨hu, hv⟩ := N.built_g.ends e (Multiset.mem_coe.1 he)
    exact h.connects _ hu _ hv
  · intro h
    refine ⟨h.le, h.acyclic, fun u hu v hv ↦ (N.connected u hu v hv).lift ?_⟩
    rintro a b ⟨e, he, heq⟩
    have hspans := h.spans e he
    rwa [heq] at hspans

/-- **Kruskal's algorithm** returns the minimum. -/
theorem exists_kruskal (N : Network) : ∃ F, kruskal N.edges N.n = some (totalWeight Edge.w F) ∧
    IsLeast {w | ∃ F, IsSpanningTree N F ∧ totalWeight Edge.w F = w} (totalWeight Edge.w F) := by
  obtain ⟨sorted, heq, hperm, hsorted⟩ := exists_sortEntries N.edges
  have hV : Visits Edge.ends Edge.w (N.edges : Multiset Edge) sorted 0 :=
    visits_initial (fun e ↦ hperm.mem_iff) hsorted
  obtain ⟨F, hloop, X, hspans⟩ := kruskalLoop_spec (trees_range N.n) hV fun e he ↦
    N.built_g.ends e (Multiset.mem_coe.1 he)
  refine ⟨F, ?_, ?_⟩
  · rw [kruskal, heq]
    exact hloop
  · simp only [isSpanningTree_iff]
    exact X.isLeast hspans

end Network

/-! ### Prim's algorithm, turn by turn -/

variable {N : Network} {s s' : State} {top : ℤ × ℕ} {tops : List (ℤ × ℕ)}

/-- The state in the terms of `MinSpanningTreePrim`. -/
def State.toPrim (s : State) : PrimState where
  cost := s.cost
  pq := s.pq.map Prod.swap
  connected := s.seen
  added := s.added

theorem mem_toPrim {q : ℕ × ℤ} : q ∈ s.toPrim.pq ↔ q.swap ∈ s.pq := by
  rw [State.toPrim, Multiset.mem_map]
  constructor
  · rintro ⟨p, hp, rfl⟩
    exact hp
  · exact fun h ↦ ⟨q.swap, h, rfl⟩

/-- What a turn takes and what it changes. -/
theorem primStep_eq_some {g : List (List (ℕ × ℤ))} (h : primStep g s top = some s') :
    ∃ count, s.seen[top.2]? = some count ∧ count + 1 < 2 ^ 31 ∧
      (count ≠ 0 ∧ s' =
          { s with pq := s.pq.erase top, seen := s.seen.set top.2 (count + 1) } ∨
        count = 0 ∧ ∃ neighbours, g[top.2]? = some neighbours ∧ s' =
          { cost := s.cost + top.1
            pq := s.pq.erase top + ((neighbours.filter fun p ↦
              (s.seen.set top.2 (count + 1))[p.1]? = some 0).map fun p ↦ (p.2, p.1) :
                List (ℤ × ℕ))
            seen := s.seen.set top.2 (count + 1)
            added := s.added ++ [top.2] }) := by
  obtain ⟨count, hcount, h⟩ := Option.bind_eq_some_iff.1 h
  obtain ⟨hlt, h⟩ := Option.ite_none_right_eq_some.1 h
  refine ⟨count, hcount, hlt, ?_⟩
  by_cases hzero : count = 0
  · rw [if_neg (not_not_intro hzero)] at h
    obtain ⟨neighbours, hneighbours, h⟩ := Option.bind_eq_some_iff.1 h
    exact .inr ⟨hzero, neighbours, hneighbours, (Option.some.inj h).symm⟩
  · rw [if_pos hzero] at h
    exact .inl ⟨hzero, (Option.some.inj h).symm⟩

/-- **A turn** is one of `MinSpanningTreePrim`. -/
theorem primStep_simulates (htakes : Takes N.n s top) (hlen : s.seen.length = N.n)
    (h : primStep N.g s top = some s') :
    Struct.primStep N.graph s.toPrim top.swap = some s'.toPrim := by
  obtain ⟨count, hcount, -, h⟩ := primStep_eq_some h
  obtain ⟨-, hmem, hleast⟩ := htakes
  have hlt : top.2 < N.g.length := by
    rw [N.built_g.length, ← hlen]
    exact (List.getElem?_eq_some_iff.1 hcount).1
  have hg := List.getElem?_eq_getElem hlt
  have hfirst : top.swap ∈ s.toPrim.pq ∧ ∀ q ∈ s.toPrim.pq, top.swap.2 ≤ q.2 :=
    ⟨mem_toPrim.2 hmem, fun q hq ↦ hleast _ (mem_toPrim.1 hq)⟩
  have herase : s.toPrim.pq.erase top.swap = (s.pq.erase top).map Prod.swap :=
    (Multiset.map_erase _ Prod.swap_injective _ _).symm
  have hcount' : s.toPrim.connected[top.swap.1]? = some count := hcount
  have hg' : N.graph.adjacencyList[top.swap.1]? = some N.g[top.2] := hg
  rw [Struct.primStep, if_pos hfirst, hcount', hg']
  simp only [Option.bind_eq_bind, Option.bind_some, herase]
  rcases h with ⟨hne, rfl⟩ | ⟨rfl, neighbours, hneighbours, rfl⟩
  · exact if_pos hne
  · obtain rfl := Option.some.inj (hg.symm.trans hneighbours)
    rw [if_neg (not_not_intro rfl)]
    simp only [State.toPrim, Multiset.map_add, Multiset.map_coe, List.map_map]
    rw [show (Prod.swap ∘ fun p : ℕ × ℤ ↦ (p.2, p.1)) = id from rfl, List.map_id]
    rfl

/-- The invariant of a run. -/
structure RunInv (N : Network) (turns : ℕ) (s : State) : Prop where
  prim : PrimInv N.edges N.n s.toPrim
  turns_add : turns + s.pq.card ≤ 1 + (s.added.map fun v ↦ (N.g[v]?.getD []).length).sum

theorem runInv_initial (N : Network) : RunInv N 0 (.initial N.n) where
  prim := primInv_initial N.construct_eq
  turns_add := Nat.le_refl 1

/-- A turn takes one entry, and adds at most as many as its vertex has neighbours. -/
theorem RunInv.step {turns : ℕ} (I : RunInv N turns s) (htakes : Takes N.n s top)
    (h : primStep N.g s top = some s') : RunInv N (turns + 1) s' where
  prim := I.prim.step N.built_g (primStep_simulates htakes I.prim.length h)
  turns_add := by
    have hadd := I.turns_add
    have hcard := Multiset.card_erase_add_one htakes.2.1
    obtain ⟨count, -, -, ⟨-, rfl⟩ | ⟨-, neighbours, hneighbours, rfl⟩⟩ := primStep_eq_some h
    · simp only
      omega
    · have hle := List.length_filter_le (fun p : ℕ × ℤ ↦
        decide ((s.seen.set top.2 (count + 1))[p.1]? = some 0)) neighbours
      simp only [Multiset.card_add, Multiset.coe_card, List.length_map, List.map_append,
        List.sum_append, List.map_cons, List.map_nil, List.sum_singleton, hneighbours,
        Option.getD_some]
      omega

/-- The entries are of vertices. -/
theorem lt_of_takes (I : PrimInv N.edges N.n s.toPrim) (htakes : Takes N.n s top) :
    top.2 < N.n := by
  have hmem : top.swap ∈ s.toPrim.pq := mem_toPrim.2 htakes.2.1
  exact I.lt_of_mem (g := N.graph) N.built_g N.pos hmem

/-- A turn whose counter does not overflow is defined. -/
theorem RunInv.exists_step {turns : ℕ} (I : RunInv N turns s) (htakes : Takes N.n s top)
    (hcounts : Counts s top) : ∃ s', primStep N.g s top = some s' := by
  have hlt := lt_of_takes I.prim htakes
  have hseen : top.2 < s.seen.length := I.prim.length.symm ▸ hlt
  have hg : top.2 < N.g.length := N.built_g.length.symm ▸ hlt
  rw [Counts, List.getElem?_eq_getElem hseen, Option.getD_some] at hcounts
  rw [primStep]
  simp only [List.getElem?_eq_getElem hseen, List.getElem?_eq_getElem hg, Option.bind_eq_bind,
    Option.bind_some, if_pos hcounts]
  split
  · exact ⟨_, rfl⟩
  · exact ⟨_, rfl⟩

theorem counts_of_primStep {g : List (List (ℕ × ℤ))} (s : State) (top : ℤ × ℕ) (s' : State)
    (h : primStep g s top = some s') : Counts s top := by
  obtain ⟨count, hcount, hlt, -⟩ := primStep_eq_some h
  rwa [Counts, hcount, Option.getD_some]

/-- **A run** is defined as long as no counter overflows. -/
theorem RunInv.exec {turns : ℕ} (I : RunInv N turns s)
    (htakes : Always (primStep N.g) (Takes N.n) s tops)
    (hcounts : Always (primStep N.g) Counts s tops) :
    ∃ s', Machine.exec (primStep N.g) s tops = some s' ∧ RunInv N (turns + tops.length) s' := by
  induction tops generalizing s turns with
  | nil => exact ⟨s, rfl, I⟩
  | cons top tops ih =>
    obtain ⟨u, hu⟩ := I.exists_step htakes.1 hcounts.1
    obtain ⟨s', hs', I'⟩ := ih (I.step htakes.1 hu) (htakes.2 u hu) (hcounts.2 u hu)
    refine ⟨s', by rw [exec_cons, hu, Option.bind_some, hs'], ?_⟩
    rwa [List.length_cons, Nat.add_comm tops.length, ← Nat.add_assoc]

/-! ### Both algorithms -/

/-- The turns `tops` lead to `s`: they are at most as many as there are entries, there is an entry
to take as long as a vertex is missing, and then the cost is `cost`. -/
structure RunRight (N : Network) (cost : ℤ) (tops : List (ℤ × ℕ)) (s : State) : Prop where
  run : Machine.exec (primStep N.g) (.initial N.n) tops = some s
  length_le : tops.length ≤ 1 + (N.g.map List.length).sum
  nonempty : s.added.length < N.n → s.pq ≠ 0
  cost : s.added.length = N.n → s.cost = cost

/-- `kruskal` returns the minimum of the weights of the spanning trees, and the turns of `prim` lead
to it. -/
def PrimAgrees (N : Network) (tops : List (ℤ × ℕ)) : Prop :=
  ∃ cost, kruskal N.edges N.n = some cost ∧
    IsLeast {w | ∃ F, IsSpanningTree N F ∧ totalWeight Edge.w F = w} cost ∧
      ∃ s, RunRight N cost tops s

/-- The vertices added have as many neighbours as there are in the lists, at most. -/
theorem sum_neighbours_le {added : List ℕ} (g : List (List (ℕ × ℤ))) (hnodup : added.Nodup)
    (hlt : ∀ v ∈ added, v < g.length) :
    (added.map fun v ↦ (g[v]?.getD []).length).sum ≤ (g.map List.length).sum := by
  have hall : (List.range g.length).map (fun v ↦ (g[v]?.getD []).length) = g.map List.length := by
    refine List.ext_getElem (by simp) fun v hv hv' ↦ ?_
    rw [List.length_map] at hv'
    simp [List.getElem?_eq_getElem hv']
  obtain ⟨l, hperm, hsub⟩ := List.subperm_of_subset hnodup fun v hv ↦ List.mem_range.2 (hlt v hv)
  rw [← hall, ← (hperm.map _).sum_nat]
  exact (hsub.map _).sum_le_sum fun _ _ ↦ Nat.zero_le _

theorem RunInv.pq_ne_zero {turns : ℕ} (I : RunInv N turns s) (hlt : s.added.length < N.n) :
    s.pq ≠ 0 := fun hzero ↦ by
  refine I.prim.pq_ne_zero N.connected hlt ?_
  rw [State.toPrim, hzero, Multiset.map_zero]

/-- With all vertices added the cost is the minimum. -/
theorem RunInv.isLeast {turns : ℕ} (I : RunInv N turns s) (hall : s.added.length = N.n) :
    IsLeast {w | ∃ F, IsSpanningTree N F ∧ totalWeight Edge.w F = w} s.cost := by
  simp only [Network.isSpanningTree_iff]
  exact I.prim.isLeast (g := N.graph) N.built_g hall

/-- A run is right if no turn takes an entry of a vertex whose counter is `INT_MAX`. -/
theorem primAgrees_iff_counts (N : Network) (tops : List (ℤ × ℕ))
    (htakes : Always (primStep N.g) (Takes N.n) (.initial N.n) tops) :
    PrimAgrees N tops ↔ Always (primStep N.g) Counts (.initial N.n) tops := by
  constructor
  · rintro ⟨cost, -, -, s, hright⟩
    exact always_of_exec counts_of_primStep hright.run
  · intro hcounts
    obtain ⟨F, hkruskal, hleast⟩ := N.exists_kruskal
    obtain ⟨s, hrun, I⟩ := (runInv_initial N).exec htakes hcounts
    have hle := I.turns_add
    have hsum := sum_neighbours_le N.g I.prim.nodup fun v hv ↦
      N.built_g.length.symm ▸ I.prim.lt v hv
    refine ⟨_, hkruskal, hleast, s, hrun, ?_, I.pq_ne_zero, fun hall ↦ ?_⟩
    · simp only [State.toPrim] at hsum
      omega
    · exact (I.isLeast hall).unique hleast

/-! ### The counters -/

/-- `seen[v]` -/
def State.counter (s : State) (v : ℕ) : ℕ := s.seen[v]?.getD 0

theorem counts_iff : Counts s top ↔ s.counter top.2 + 1 < 2 ^ 31 := Iff.rfl

theorem counter_of_primStep {g : List (List (ℕ × ℤ))} (h : primStep g s top = some s') (v : ℕ) :
    s'.counter v = s.counter v + if top.2 == v then 1 else 0 := by
  obtain ⟨count, hcount, -, h⟩ := primStep_eq_some h
  have hseen : s'.seen = s.seen.set top.2 (count + 1) := by
    rcases h with ⟨-, rfl⟩ | ⟨-, -, -, rfl⟩
    · rfl
    · rfl
  rw [State.counter, State.counter, hseen]
  rcases eq_or_ne top.2 v with rfl | hne
  · rw [List.getElem?_set_self (List.getElem?_eq_some_iff.1 hcount).1, hcount,
      if_pos (beq_self_eq_true _)]
    rfl
  · rw [List.getElem?_set_ne hne, if_neg (mt beq_iff_eq.1 hne)]
    rfl

/-- **The counters count the entries taken**: if none has overflowed so far, none does in a run
exactly if no count with it exceeds `INT_MAX`. -/
theorem always_counts_iff {turns : ℕ} (I : RunInv N turns s)
    (htakes : Always (primStep N.g) (Takes N.n) s tops) (hlt : ∀ v, s.counter v < 2 ^ 31) :
    Always (primStep N.g) Counts s tops ↔
      ∀ v, s.counter v + (tops.map Prod.snd).count v < 2 ^ 31 := by
  induction tops generalizing s turns with
  | nil => exact iff_of_true (always_nil s) hlt
  | cons top tops ih =>
    by_cases hcounts : Counts s top
    · obtain ⟨u, hu⟩ := I.exists_step htakes.1 hcounts
      have hcounter := counter_of_primStep hu
      have hlt' : ∀ v, u.counter v < 2 ^ 31 := by
        intro v
        rw [hcounter]
        split
        · rename_i heq
          exact beq_iff_eq.1 heq ▸ hcounts
        · exact hlt v
      rw [always_cons_of_step hu, and_iff_right hcounts,
        ih (I.step htakes.1 hu) (htakes.2 u hu) hlt']
      refine forall_congr' fun v ↦ ?_
      rw [hcounter, List.map_cons, List.count_cons, Nat.add_assoc, Nat.add_comm (ite _ _ _)]
    · refine iff_of_false (fun h ↦ hcounts h.1) fun h ↦ hcounts (counts_iff.2 ?_)
      have htop := h top.2
      rw [List.map_cons, List.count_cons_self] at htop
      omega

theorem counter_initial (n v : ℕ) : (State.initial n).counter v = 0 := by
  rw [State.counter, State.initial, List.getElem?_replicate]
  split
  · rfl
  · rfl

/-- **Exactly when `prim` is right**: no vertex has more than `INT_MAX` of its entries taken from
the queue. -/
theorem primAgrees_iff (N : Network) (tops : List (ℤ × ℕ))
    (htakes : Always (primStep N.g) (Takes N.n) (.initial N.n) tops) :
    PrimAgrees N tops ↔ ∀ v, (tops.map Prod.snd).count v < 2 ^ 31 := by
  rw [primAgrees_iff_counts N tops htakes, always_counts_iff (runInv_initial N) htakes fun v ↦ by
    rw [counter_initial]
    decide]
  simp only [counter_initial, Nat.zero_add]

/-! ### Few edges at a vertex -/

variable {added : List ℕ} {v x : ℕ}

/-- The edge ends at a vertex. -/
def degree (edges : List Edge) (v : ℕ) : ℕ :=
  (edges.countP fun e ↦ e.u = v) + edges.countP fun e ↦ e.v = v

/-- The edge ends at `v` of the edges from vertices added. -/
def endsFrom (edges : List Edge) (added : List ℕ) (v : ℕ) : ℕ :=
  (edges.countP fun e ↦ e.u = v ∧ e.v ∈ added) + edges.countP fun e ↦ e.v = v ∧ e.u ∈ added

theorem endsFrom_le (edges : List Edge) (added : List ℕ) (v : ℕ) :
    endsFrom edges added v ≤ degree edges v := by
  have hleft : ∀ (p q : Edge → Prop) [DecidablePred p] [DecidablePred q],
      (edges.countP fun e ↦ p e ∧ q e) ≤ edges.countP fun e ↦ p e := by
    intro p q _ _
    exact List.countP_mono_left fun e _ h ↦ decide_eq_true (of_decide_eq_true h).1
  exact Nat.add_le_add (hleft _ _) (hleft _ _)

/-- The edges of one vertex more. -/
theorem endsFrom_concat (hx : x ∉ added) (edges : List Edge) (v : ℕ) :
    endsFrom edges (added ++ [x]) v =
      endsFrom edges added v + ((darts edges x).map Prod.snd).count v := by
  induction edges with
  | nil => rfl
  | cons e edges ih =>
    have hone : endsFrom [e] (added ++ [x]) v =
        endsFrom [e] added v + ((darts [e] x).map Prod.snd).count v := by
      by_cases hux : e.u = x <;> by_cases hvx : e.v = x <;> by_cases huv : e.u = v <;>
        by_cases hvv : e.v = v <;> simp_all [endsFrom, darts]
    have hends : ∀ added, endsFrom (e :: edges) added v =
        endsFrom [e] added v + endsFrom edges added v := by
      intro added
      simp only [endsFrom, List.countP_cons, List.countP_nil]
      omega
    have hdarts : darts (e :: edges) x = darts [e] x ++ darts edges x := by
      simp [darts]
    rw [hends, hends, hone, ih, hdarts, List.map_append, List.count_append]
    omega

/-- The counter of a vertex and its entries in the queue are no more than its edge ends. -/
structure CountInv (N : Network) (s : State) : Prop where
  prim : PrimInv N.edges N.n s.toPrim
  counter_add : ∀ v, s.counter v + (s.pq.map Prod.snd).count v ≤ 1 + endsFrom N.edges s.added v

theorem countInv_initial (N : Network) : CountInv N (.initial N.n) where
  prim := primInv_initial N.construct_eq
  counter_add v := by
    have hcard := Multiset.count_le_card v ((State.initial N.n).pq.map Prod.snd)
    rw [counter_initial, Nat.zero_add]
    exact hcard.trans (Nat.le_add_right 1 _)

/-- The entries that a turn adds are of other ends of the edges of its vertex. -/
theorem count_entries_le {neighbours : List (ℕ × ℤ)} (hneighbours : N.g[x]? = some neighbours)
    (p : ℕ × ℤ → Bool) (v : ℕ) :
    (((neighbours.filter p).map fun q ↦ (q.2, q.1)).map Prod.snd).count v ≤
      ((darts N.edges x).map Prod.snd).count v := by
  have hsub := (List.filter_sublist (p := p) (l := neighbours)).map Prod.fst
  have heq : neighbours.map Prod.fst = (darts N.edges x).map Prod.snd := by
    rw [N.built_g.neighbours x neighbours hneighbours, List.map_map]
    rfl
  rw [List.map_map, ← heq]
  exact hsub.count_le v

/-- **A turn** moves an entry from the queue to the counter. -/
theorem CountInv.step (I : CountInv N s) (htakes : Takes N.n s top)
    (h : primStep N.g s top = some s') : CountInv N s' where
  prim := I.prim.step N.built_g (primStep_simulates htakes I.prim.length h)
  counter_add v := by
    have hadd := I.counter_add v
    have hcounter := counter_of_primStep h v
    have herase : (s.pq.map Prod.snd).count v =
        ((s.pq.erase top).map Prod.snd).count v + if top.2 == v then 1 else 0 := by
      rw [← Multiset.cons_erase htakes.2.1, Multiset.map_cons, Multiset.count_cons,
        Multiset.erase_cons_head]
      exact congrArg _ (if_congr (by rw [beq_iff_eq, eq_comm]) rfl rfl)
    obtain ⟨count, hcount, -, h⟩ := primStep_eq_some h
    rcases h with ⟨-, rfl⟩ | ⟨rfl, neighbours, hneighbours, rfl⟩
    · simp only at hcounter ⊢
      omega
    · have hnot : top.2 ∉ s.added := (I.prim.connected top.2 0 hcount).1 rfl
      have hle := count_entries_le hneighbours
        (fun p ↦ (s.seen.set top.2 (0 + 1))[p.1]? = some 0) v
      simp only [Multiset.map_add, Multiset.map_coe, Multiset.count_add, Multiset.coe_count,
        endsFrom_concat hnot] at hcounter ⊢
      omega

/-- **Few edges at each vertex**: no counter overflows. -/
theorem always_counts_of_degree (N : Network) (tops : List (ℤ × ℕ))
    (htakes : Always (primStep N.g) (Takes N.n) (.initial N.n) tops)
    (hdegree : ∀ v < N.n, degree N.edges v + 1 < 2 ^ 31) :
    Always (primStep N.g) Counts (.initial N.n) tops := by
  refine always_of_invariant (fun s top s' I htakes h ↦ CountInv.step I htakes h)
    (fun s top I htakes ↦ counts_iff.2 ?_) (countInv_initial N) htakes
  have hadd := I.counter_add top.2
  have hends := endsFrom_le N.edges s.added top.2
  have hpos := Multiset.count_pos.2 (Multiset.mem_map_of_mem Prod.snd htakes.2.1)
  have hsmall := hdegree top.2 (lt_of_takes I.prim htakes)
  omega

/-- **With fewer than `INT_MAX` edge ends at each vertex** every run is right. -/
theorem primAgrees_of_degree (N : Network) (tops : List (ℤ × ℕ))
    (htakes : Always (primStep N.g) (Takes N.n) (.initial N.n) tops)
    (hdegree : ∀ v < N.n, degree N.edges v + 1 < 2 ^ 31) : PrimAgrees N tops :=
  (primAgrees_iff_counts N tops htakes).2 (always_counts_of_degree N tops htakes hdegree)

/-! ### Two networks -/

/-- A triangle, and a vertex behind it. -/
def tailNetwork : Network where
  n := 4
  pos := by decide
  lt := by decide
  edges := tailEdges
  g := [[(1, 1), (2, 2)], [(0, 1), (2, 1)], [(0, 2), (1, 1), (3, 5)], [(2, 5)]]
  built := rfl
  connected := connected_tailGraph

/-- The entry of vertex 2 with weight 2 is taken and left out. -/
theorem primAgrees_tail : PrimAgrees tailNetwork [(0, 0), (1, 1), (1, 2), (2, 2), (5, 3)] :=
  (primAgrees_iff tailNetwork _ (by decide)).2 fun _ ↦
    List.count_le_length.trans_lt (by decide)

/-! ### Parallel edges -/

/-- `m + 1` edges of weight 0 between the vertices 0 and 1, and one of weight 1 behind them. -/
def stackEdges (m : ℕ) : List Edge := List.replicate (m + 1) ⟨0, 1, 0⟩ ++ [⟨1, 2, 1⟩]

theorem foldlM_emplaceEdge (k j : ℕ) :
    (List.replicate k (⟨0, 1, 0⟩ : Edge)).foldlM emplaceEdge
        [List.replicate j (1, 0), List.replicate j (0, 0), []] =
      some [List.replicate (j + k) (1, 0), List.replicate (j + k) (0, 0), []] := by
  induction k generalizing j with
  | zero => rfl
  | succ k ih =>
    have hstep : emplaceEdge [List.replicate j (1, 0), List.replicate j (0, 0), []] ⟨0, 1, 0⟩ =
        some [List.replicate (j + 1) (1, 0), List.replicate (j + 1) (0, 0), []] := by
      rw [List.replicate_succ', List.replicate_succ']
      rfl
    rw [List.replicate_succ, List.foldlM_cons, hstep, Option.bind_eq_bind, Option.bind_some, ih,
      Nat.add_assoc, Nat.add_comm 1]

def stackNetwork (m : ℕ) : Network where
  n := 3
  pos := by decide
  lt := by decide
  edges := stackEdges m
  g := [List.replicate (m + 1) (1, 0), List.replicate (m + 1) (0, 0) ++ [(2, 1)], [(1, 1)]]
  built := by
    have hfold := foldlM_emplaceEdge (m + 1) 0
    rw [Nat.zero_add] at hfold
    rw [adjacency, stackEdges, List.foldlM_append]
    refine (congrArg (Option.bind · _) hfold).trans ?_
    rfl
  connected := by
    have hone : Joined (Linked Edge.ends (stackEdges m : Multiset Edge)) 0 1 :=
      joined_of_edge 0 1 0 (by simp [stackEdges])
    have htwo : Joined (Linked Edge.ends (stackEdges m : Multiset Edge)) 1 2 :=
      joined_of_edge 1 2 1 (by simp [stackEdges])
    have hzero : ∀ v < 3, Joined (Linked Edge.ends (stackEdges m : Multiset Edge)) 0 v :=
      fun v hv ↦ by
        interval_cases v
        · exact .refl _ _
        · exact hone
        · exact hone.trans htwo
    exact fun u hu v hv ↦ (hzero u hu).symm.trans (hzero v hv)

/-- The vertices 0 and 1 have been added, and `r` entries of vertex 1 are left. -/
def stackState (r count : ℕ) : State where
  cost := 0
  pq := (1, 2) ::ₘ Multiset.replicate r (0, 1)
  seen := [1, count, 0]
  added := [0, 1]

theorem takes_stackState (r count : ℕ) : Takes 3 (stackState (r + 1) count) (0, 1) := by
  refine ⟨Nat.lt_succ_self 2, ?_, fun p hp ↦ ?_⟩
  · simp [stackState]
  · rw [stackState, Multiset.mem_cons] at hp
    rcases hp with rfl | hp
    · decide
    · rw [Multiset.eq_of_mem_replicate hp]

theorem primStep_stackState {m r count : ℕ} (hpos : count ≠ 0) (hlt : count + 1 < 2 ^ 31) :
    primStep (stackNetwork m).g (stackState (r + 1) count) (0, 1) =
      some (stackState r (count + 1)) := by
  have herase : ((1, 2) ::ₘ Multiset.replicate (r + 1) (0, 1) : Multiset (ℤ × ℕ)).erase (0, 1) =
      (1, 2) ::ₘ Multiset.replicate r (0, 1) := by
    rw [Multiset.replicate_succ, Multiset.erase_cons_tail _ (by decide), Multiset.erase_cons_head]
  simp only [primStep, stackState, List.getElem?_cons_succ, List.getElem?_cons_zero,
    Option.bind_eq_bind, Option.bind_some, if_pos hlt, if_pos hpos, herase]
  rfl

/-- The entries of vertex 1 are taken one after the other. -/
theorem always_takes_stackState {m r count : ℕ} (hpos : count ≠ 0) :
    Always (primStep (stackNetwork m).g) (Takes 3) (stackState r count)
      (List.replicate r (0, 1)) := by
  induction r generalizing count with
  | zero => exact always_nil _
  | succ r ih =>
    refine ⟨takes_stackState r count, fun t ht ↦ ?_⟩
    obtain ⟨c, hc, hlt, -⟩ := primStep_eq_some ht
    obtain rfl : count = c := Option.some.inj hc
    rw [primStep_stackState hpos hlt, Option.some.injEq] at ht
    exact ht ▸ ih (Nat.succ_ne_zero count)

/-- With enough of them the counter comes to `INT_MAX`. -/
theorem not_always_counts {m r count : ℕ} (hpos : count ≠ 0) (hlt : count < 2 ^ 31)
    (hle : 2 ^ 31 ≤ count + r) :
    ¬ Always (primStep (stackNetwork m).g) Counts (stackState r count)
      (List.replicate r (0, 1)) := by
  induction r generalizing count with
  | zero => omega
  | succ r ih =>
    rintro ⟨hcounts, hrest⟩
    have hstep : count + 1 < 2 ^ 31 := hcounts
    exact ih (Nat.succ_ne_zero count) hstep (by omega) (hrest _ (primStep_stackState hpos hstep))

/-- Vertex 0 has been added. -/
def firstState (m : ℕ) : State where
  cost := 0
  pq := Multiset.replicate (m + 1) (0, 1)
  seen := [1, 0, 0]
  added := [0]

theorem primStep_first (m : ℕ) :
    primStep (stackNetwork m).g (.initial 3) (0, 0) = some (firstState m) := by
  have hpq : ↑(List.replicate (m + 1) ((0 : ℤ), 1)) = Multiset.replicate (m + 1) ((0 : ℤ), 1) :=
    Multiset.coe_replicate _ _
  simpa [primStep, State.initial, stackNetwork, firstState] using hpq

theorem primStep_second (m : ℕ) :
    primStep (stackNetwork m).g (firstState m) (0, 1) = some (stackState m 1) := by
  have hpq : Multiset.replicate m ((0 : ℤ), 1) + {(1, 2)} =
      (1, 2) ::ₘ Multiset.replicate m ((0 : ℤ), 1) := by
    rw [add_comm, Multiset.singleton_add]
  simpa [primStep, stackNetwork, firstState, stackState] using hpq

/-- The first two turns, and one for each entry of vertex 1 that is left. -/
def stackTops (m : ℕ) : List (ℤ × ℕ) := (0, 0) :: (0, 1) :: List.replicate m (0, 1)

theorem always_takes_stackTops (m : ℕ) :
    Always (primStep (stackNetwork m).g) (Takes 3) (.initial 3) (stackTops m) := by
  have hfirst : Takes 3 (.initial 3) (0, 0) := by decide
  have hsecond : Takes 3 (firstState m) (0, 1) := by
    refine ⟨Nat.lt_succ_of_lt (Nat.lt_succ_self 1), ?_, fun p hp ↦ ?_⟩
    · simp [firstState]
    · rw [Multiset.eq_of_mem_replicate hp]
  refine ⟨hfirst, fun s hs ↦ ⟨?_, fun t ht ↦ ?_⟩⟩
  · rw [← Option.some.inj ((primStep_first m).symm.trans hs)]
    exact hsecond
  · rw [← Option.some.inj ((primStep_first m).symm.trans hs), primStep_second,
      Option.some.injEq] at ht
    exact ht ▸ always_takes_stackState Nat.one_ne_zero

/-- The counter of vertex 1 overflows before vertex 2 is added. -/
theorem not_primAgrees_stack {m : ℕ} (hm : 2 ^ 31 ≤ 1 + m) :
    ¬ PrimAgrees (stackNetwork m) (stackTops m) := by
  rintro ⟨cost, -, -, s, hright⟩
  have hcounts := always_of_exec counts_of_primStep hright.run
  have hrest := (hcounts.2 _ (primStep_first m)).2 _ (primStep_second m)
  exact not_always_counts Nat.one_ne_zero (by decide) hm hrest

theorem not_forall_primAgrees : ¬ ∀ (N : Network) (tops : List (ℤ × ℕ)),
    Always (primStep N.g) (Takes N.n) (.initial N.n) tops → PrimAgrees N tops := by
  intro hall
  obtain ⟨m, hm⟩ : ∃ m, 2 ^ 31 ≤ 1 + m := ⟨2 ^ 31, Nat.le_add_left _ _⟩
  exact not_primAgrees_stack hm (hall _ _ (always_takes_stackTops m))

end Struct.MinimumSpanningTree
