import Mathlib.Algebra.Order.Group.Int
import Mathlib.Data.Finset.Max
import Mathlib.Data.Int.ConditionallyCompleteOrder
import Mathlib.Tactic.IntervalCases
import MiscCpp.Library.Search
import MiscCpp.Library.SpanningForest
import MiscCpp.Struct.DisjointSet

/-!
# The spanning trees of a graph

`MinSpanningTreeKruskal` and `MinSpanningTreePrim` against the spanning forests of minimum weight.

Kruskal's algorithm takes an edge if the disjoint sets have its ends in different classes. These are
the classes that the edges taken before join, so the edge is of least weight among those that leave
the class of one of its ends, and the result is the minimum (`kruskal_isLeast`).

In Prim's algorithm the queue holds all edges that leave the connected nodes, and an edge of least
weight comes first. But it may hold entries of nodes that have been connected in the meantime as
well, and the loop makes only as many turns as there are nodes: a turn that gets such an entry is
missing in the end (`primRight_iff_fresh`).
-/

open Connectivity SpanningForest

namespace Struct

/-! ### The graph -/

/-- An element of `edge_list`: the end points and the weight. -/
structure Edge where
  u : ℕ
  v : ℕ
  w : ℤ
  deriving DecidableEq

/-- The two ends of an edge. -/
def Edge.ends (e : Edge) : ℕ × ℕ := (e.u, e.v)

/-- Without `adjacency_matrix`, which neither algorithm reads. -/
structure Graph where
  nodesNum : ℕ
  edgeList : List Edge
  adjacencyList : List (List (ℕ × ℤ))

/-- The loop of the constructor: undefined for an end point that is no index. -/
def addEdge (adjacencyList : List (List (ℕ × ℤ))) (e : Edge) : Option (List (List (ℕ × ℤ))) :=
  if e.v < adjacencyList.length ∧ e.u < adjacencyList.length then
    some ((adjacencyList.modify e.v (· ++ [(e.u, e.w)])).modify e.u (· ++ [(e.v, e.w)]))
  else none

/-- `Graph(edges, nodes)`. There is no memory for the `nodes * nodes` integers of the matrix from
`2 ^ 64` bytes on. -/
def Graph.construct (edges : List Edge) (nodes : ℕ) : Option Graph :=
  if 4 * (nodes * nodes) < 2 ^ 64 then
    (edges.foldlM addEdge (List.replicate nodes [])).map fun adjacencyList ↦
      { nodesNum := nodes, edgeList := edges, adjacencyList := adjacencyList }
  else none

/-! ### Kruskal's algorithm -/

/-- `edges_compare` -/
def edgesCompare (lhs rhs : Edge) : Ordering := compare lhs.w rhs.w

/-- The loop over the sorted edges. -/
def kruskalLoop : List Edge → ℤ → DisjointSet → Option ℤ
  | [], cost, _ => some cost
  | e :: edges, cost, disjointSet => do
    let (pu, disjointSet) ← disjointSet.find e.u
    let (pv, disjointSet) ← disjointSet.find e.v
    if pu = pv then kruskalLoop edges cost disjointSet
    else
      let (_, disjointSet) ← disjointSet.merge e.u e.v
      kruskalLoop edges (cost + e.w) disjointSet

/-- `sort` is `std::sort` with `edges_compare`. -/
def minSpanningTreeKruskal (sort : List Edge → List Edge) (g : Graph) : Option ℤ := do
  let edgesSorted := sort g.edgeList
  let disjointSet ← (List.range g.nodesNum).foldlM (fun d (i : ℕ) ↦ d.makeSet i) DisjointSet.initial
  kruskalLoop edgesSorted 0 disjointSet

/-! ### Prim's algorithm -/

/-- The state of the loop, and the nodes whose entry has been paid for. -/
structure PrimState where
  cost : ℤ
  pq : Multiset (ℕ × ℤ)
  connected : List ℕ
  added : List ℕ

/-- At the start the node 0 is queued at no cost. -/
def PrimState.initial (g : Graph) : PrimState where
  cost := 0
  pq := {(0, 0)}
  connected := List.replicate g.nodesNum 0
  added := []

/-- A turn of the loop with `top` the first entry of the queue: one of those of least weight, which
one is up to `std::priority_queue`. -/
def primStep (g : Graph) (s : PrimState) (top : ℕ × ℤ) : Option PrimState :=
  if top ∈ s.pq ∧ ∀ p ∈ s.pq, top.2 ≤ p.2 then do
    let c ← s.connected[top.1]?
    let neighbours ← g.adjacencyList[top.1]?
    let connected := s.connected.set top.1 (c + 1)
    let pq := s.pq.erase top
    if c ≠ 0 then some { s with pq := pq, connected := connected }
    else
      some
        { cost := s.cost + top.2
          pq := pq + (neighbours.filter fun p ↦ connected[p.1]? = some 0 : List (ℕ × ℤ))
          connected := connected
          added := s.added ++ [top.1] }
  else none

/-- The loop has ended with `s`: after as many turns as there are nodes, or where there is no next
one. -/
structure PrimRun (g : Graph) (tops : List (ℕ × ℤ)) (s : PrimState) : Prop where
  exec : Machine.exec (primStep g) (.initial g) tops = some s
  le : tops.length ≤ g.nodesNum
  ended : tops.length < g.nodesNum → ∀ top, primStep g s top = none

/-- There has been an entry whenever one was taken from the queue, every node has been added once,
and the cost is that of Kruskal's algorithm. -/
structure PrimRight (sort : List Edge → List Edge) (g : Graph) (tops : List (ℕ × ℤ))
    (s : PrimState) : Prop where
  nonempty : ∀ as bs, tops = as ++ bs → as.length < g.nodesNum → ∀ t,
    Machine.exec (primStep g) (.initial g) as = some t → t.pq ≠ 0
  adds : s.added.Perm (List.range g.nodesNum)
  cost : some s.cost = minSpanningTreeKruskal sort g

/-- The node of the first entry has not been connected before. -/
def Fresh (s : PrimState) (top : ℕ × ℤ) : Prop := s.connected[top.1]? = some 0

/-- Every two nodes are joined by edges. -/
def Graph.Connected (g : Graph) : Prop :=
  ∀ u < g.nodesNum, ∀ v < g.nodesNum, Joined (Linked Edge.ends (g.edgeList : Multiset Edge)) u v

/-! ### What the constructor builds -/

variable {g : Graph} {edges chosen : List Edge} {nodes u v : ℕ} {e f : Edge}
  {sort : List Edge → List Edge}

/-- The edges of a node, each with its other end. A self-loop is there twice. -/
def darts (edges : List Edge) (v : ℕ) : List (Edge × ℕ) :=
  edges.flatMap fun e ↦
    (if e.v = v then [(e, e.u)] else []) ++ if e.u = v then [(e, e.v)] else []

/-- The entry of an edge in the list of the node at its one end, for the node at its other end. -/
def dartEntry (d : Edge × ℕ) : ℕ × ℤ := (d.2, d.1.w)

theorem mem_darts {d : Edge × ℕ} :
    d ∈ darts edges v ↔ d.1 ∈ edges ∧ (d.1.ends = (v, d.2) ∨ d.1.ends = (d.2, v)) := by
  obtain ⟨e, b⟩ := d
  simp only [darts, List.mem_flatMap, List.mem_append, List.mem_ite_nil_right, List.mem_singleton,
    Prod.mk.injEq, Edge.ends]
  constructor
  · rintro ⟨f, hf, ⟨hv, rfl, rfl⟩ | ⟨hu, rfl, rfl⟩⟩
    · exact ⟨hf, .inr ⟨rfl, hv⟩⟩
    · exact ⟨hf, .inl ⟨hu, rfl⟩⟩
  · rintro ⟨he, ⟨hu, hv⟩ | ⟨hu, hv⟩⟩
    · exact ⟨e, he, .inr ⟨hu, rfl, hv.symm⟩⟩
    · exact ⟨e, he, .inl ⟨hv, rfl, hu.symm⟩⟩

/-- The edges are between nodes, and the neighbours of a node are at the other ends of its edges. -/
structure Built (edges : List Edge) (nodes : ℕ) (adjacencyList : List (List (ℕ × ℤ))) : Prop where
  length : adjacencyList.length = nodes
  ends : ∀ e ∈ edges, e.u < nodes ∧ e.v < nodes
  neighbours : ∀ v neighbours, adjacencyList[v]? = some neighbours →
    neighbours = (darts edges v).map dartEntry

theorem Built.mem_iff {adj : List (List (ℕ × ℤ))} (B : Built edges nodes adj) (v : ℕ)
    (neighbours : List (ℕ × ℤ)) (h : adj[v]? = some neighbours) (b : ℕ) (w : ℤ) :
    (b, w) ∈ neighbours ↔ ∃ e ∈ edges, e.w = w ∧ (e.ends = (v, b) ∨ e.ends = (b, v)) := by
  rw [B.neighbours v neighbours h, List.mem_map]
  constructor
  · rintro ⟨d, hd, heq⟩
    obtain ⟨rfl, rfl⟩ := Prod.mk.inj heq
    exact ⟨d.1, (mem_darts.1 hd).1, rfl, (mem_darts.1 hd).2⟩
  · rintro ⟨e, he, rfl, hends⟩
    exact ⟨(e, b), mem_darts.2 ⟨he, hends⟩, rfl⟩

theorem built_replicate (nodes : ℕ) : Built [] nodes (List.replicate nodes []) where
  length := List.length_replicate
  ends := by simp
  neighbours v neighbours h := List.eq_of_mem_replicate (List.mem_of_getElem? h)

theorem Built.addEdge {adj adj' : List (List (ℕ × ℤ))} (B : Built edges nodes adj)
    (h : addEdge adj e = some adj') : Built (edges ++ [e]) nodes adj' := by
  obtain ⟨⟨hv, hu⟩, h⟩ := Option.ite_none_right_eq_some.1 h
  obtain rfl := Option.some.inj h
  refine ⟨by simp [B.length], fun f hf ↦ ?_, fun x neighbours hx ↦ ?_⟩
  · rcases List.mem_append.1 hf with hf | hf
    · exact B.ends f hf
    · rw [List.mem_singleton.1 hf, ← B.length]
      exact ⟨hu, hv⟩
  · rw [List.getElem?_modify, List.getElem?_modify] at hx
    obtain ⟨ns', hns', rfl⟩ := Option.map_eq_some_iff.1 hx
    obtain ⟨ns, hns, rfl⟩ := Option.map_eq_some_iff.1 hns'
    obtain rfl := B.neighbours x ns hns
    by_cases hvx : e.v = x <;> by_cases hux : e.u = x <;> simp [darts, dartEntry, hvx, hux]

theorem built_foldlM {adj adj' : List (List (ℕ × ℤ))} {done : List Edge}
    (B : Built done nodes adj) (h : edges.foldlM addEdge adj = some adj') :
    Built (done ++ edges) nodes adj' := by
  induction edges generalizing done adj with
  | nil =>
    obtain rfl := Option.some.inj h
    rwa [List.append_nil]
  | cons e edges ih =>
    rw [List.foldlM_cons] at h
    obtain ⟨adj₁, h₁, h⟩ := Option.bind_eq_some_iff.1 h
    rw [List.append_cons]
    exact ih (B.addEdge h₁) h

/-- **The constructor** -/
theorem construct_eq_some (h : Graph.construct edges nodes = some g) :
    g.nodesNum = nodes ∧ g.edgeList = edges ∧ nodes < 2 ^ 31 ∧
      Built edges nodes g.adjacencyList := by
  obtain ⟨hlt, h⟩ := Option.ite_none_right_eq_some.1 h
  obtain ⟨adj, hadj, rfl⟩ := Option.map_eq_some_iff.1 h
  refine ⟨rfl, rfl, ?_, built_foldlM (built_replicate nodes) hadj⟩
  by_contra hge
  have hmul : 2 ^ 31 * 2 ^ 31 ≤ nodes * nodes :=
    Nat.mul_le_mul (Nat.le_of_not_lt hge) (Nat.le_of_not_lt hge)
  omega

/-! ### Two graphs -/

instance : Std.TransCmp edgesCompare := inferInstanceAs (Std.TransCmp (compareOn Edge.w))

/-- `std::sort` as an insertion sort. -/
def sortEdges (edges : List Edge) : List Edge :=
  edges.insertionSort fun e f ↦ (edgesCompare e f).isLE

theorem sorts_sortEdges : Search.Sorts edgesCompare sortEdges := Search.sorts_insertionSort

theorem connected_of_joined (h : ∀ v < g.nodesNum,
    Joined (Linked Edge.ends (g.edgeList : Multiset Edge)) 0 v) : g.Connected :=
  fun u hu v hv ↦ (h u hu).symm.trans (h v hv)

theorem joined_of_edge (u v : ℕ) (w : ℤ) (h : ⟨u, v, w⟩ ∈ edges) :
    Joined (Linked Edge.ends (edges : Multiset Edge)) u v :=
  joined_ends Edge.ends (Multiset.mem_coe.2 h)

/-- The edges of the repository's test. -/
def testEdges : List Edge :=
  [⟨0, 1, 1⟩, ⟨0, 3, 3⟩, ⟨0, 2, 6⟩, ⟨2, 3, 2⟩, ⟨1, 2, 4⟩, ⟨1, 3, 5⟩]

def testGraph : Graph where
  nodesNum := 4
  edgeList := testEdges
  adjacencyList := [[(1, 1), (3, 3), (2, 6)], [(0, 1), (2, 4), (3, 5)], [(0, 6), (3, 2), (1, 4)],
    [(0, 3), (2, 2), (1, 5)]]

theorem construct_testEdges : Graph.construct testEdges 4 = some testGraph := rfl

theorem connected_testGraph : testGraph.Connected := connected_of_joined fun v hv ↦ by
  have hlt : v < 4 := hv
  interval_cases v
  · exact .refl _ _
  · exact joined_of_edge 0 1 1 (by decide)
  · exact joined_of_edge 0 2 6 (by decide)
  · exact joined_of_edge 0 3 3 (by decide)

/-- A triangle, and a node behind it. -/
def tailEdges : List Edge := [⟨0, 1, 1⟩, ⟨0, 2, 2⟩, ⟨1, 2, 1⟩, ⟨2, 3, 5⟩]

def tailGraph : Graph where
  nodesNum := 4
  edgeList := tailEdges
  adjacencyList := [[(1, 1), (2, 2)], [(0, 1), (2, 1)], [(0, 2), (1, 1), (3, 5)], [(2, 5)]]

theorem connected_tailGraph : tailGraph.Connected := connected_of_joined fun v hv ↦ by
  have hlt : v < 4 := hv
  have htwo : Joined (Linked Edge.ends (tailEdges : Multiset Edge)) 0 2 :=
    joined_of_edge 0 2 2 (by decide)
  interval_cases v
  · exact .refl _ _
  · exact joined_of_edge 0 1 1 (by decide)
  · exact htwo
  · exact htwo.trans (joined_of_edge 2 3 5 (by decide))

/-! ### Kruskal's algorithm takes the minimum -/

/-- The loop that makes the nodes. -/
theorem represents_makeSets {n : ℕ} (hn : n < 2 ^ 31) :
    ∃ d, (List.range n).foldlM (fun d (i : ℕ) ↦ DisjointSet.makeSet d i) .initial = some d ∧
      Represents d (Finset.range n) [] := by
  induction n with
  | zero => exact ⟨_, rfl, represents_initial⟩
  | succ n ih =>
    obtain ⟨d, hd, R⟩ := ih (Nat.lt_of_succ_lt hn)
    obtain ⟨d', hd', R'⟩ := R.makeSet Finset.notMem_range_self hn
    rw [← Finset.range_add_one] at R'
    refine ⟨d', ?_, R'⟩
    rw [List.range_succ, List.foldlM_append, hd]
    simp only [Option.bind_eq_bind, Option.bind_some, List.foldlM_cons, List.foldlM_nil, hd']
    rfl

theorem merged_map_ends :
    Merged (chosen.map Edge.ends) = Linked Edge.ends (chosen : Multiset Edge) := by
  funext a b
  simp only [Merged, Linked, List.mem_map, Multiset.mem_coe]

/-- The loop of Kruskal's algorithm takes edges until they span the graph. -/
theorem kruskalLoop_spec {d : DisjointSet} {E : Multiset Edge}
    (R : Represents d (Finset.range nodes) (chosen.map Edge.ends))
    (hV : Visits Edge.ends Edge.w E edges chosen) (hE : ∀ e ∈ E, e.u < nodes ∧ e.v < nodes) :
    ∃ result : List Edge,
      kruskalLoop edges (totalWeight Edge.w (chosen : Multiset Edge)) d =
        some (totalWeight Edge.w (result : Multiset Edge)) ∧
      Extends Edge.ends Edge.w E result ∧ Spans Edge.ends result E := by
  induction edges generalizing chosen d with
  | nil => exact ⟨chosen, rfl, hV.choice, hV.spans⟩
  | cons e edges ih =>
    have he : e ∈ E := hV.mem e List.mem_cons_self
    have hu : e.u ∈ Finset.range nodes := Finset.mem_range.2 (hE e he).1
    have hv : e.v ∈ Finset.range nodes := Finset.mem_range.2 (hE e he).2
    obtain ⟨pu, d₁, hfind₁, hpu, R₁, C₁⟩ := R.find hu
    obtain ⟨pv, d₂, hfind₂, hpv, R₂, C₂⟩ := R₁.find hv
    have hiff := R₂.joined _ hu _ hv pu pv ((C₂.rootOf _ _).2 ((C₁.rootOf _ _).2 hpu))
      ((C₂.rootOf _ _).2 hpv)
    rw [merged_map_ends] at hiff
    simp only [kruskalLoop, hfind₁, hfind₂, Option.bind_eq_bind, Option.bind_some]
    by_cases heq : pu = pv
    · rw [if_pos heq]
      exact ih R₂ (hV.skip (hiff.1 heq))
    · rw [if_neg heq]
      obtain ⟨b, d₃, hmerge, -, R₃⟩ := R₂.merge hu hv
      simp only [hmerge, Option.bind_some]
      have hcost : totalWeight Edge.w (chosen : Multiset Edge) + e.w =
          totalWeight Edge.w ((e :: chosen : List Edge) : Multiset Edge) := by
        rw [← Multiset.cons_coe, totalWeight_cons, add_comm]
      rw [hcost]
      exact ih R₃ (hV.choose fun hj ↦ heq (hiff.2 hj))

/-- The edges that `minSpanningTreeKruskal` takes. -/
theorem exists_eq_kruskal (hg : Graph.construct edges nodes = some g)
    (hsort : Search.Sorts edgesCompare sort) :
    ∃ F, minSpanningTreeKruskal sort g = some (totalWeight Edge.w F) ∧
      Extends Edge.ends Edge.w (edges : Multiset Edge) F ∧
      Spans Edge.ends F (edges : Multiset Edge) := by
  obtain ⟨hnodes, hedges, hlt, B⟩ := construct_eq_some hg
  obtain ⟨d, hd, R⟩ := represents_makeSets hlt
  have hperm := hsort.perm edges
  have hsorted : (sort edges).Pairwise fun e f ↦ e.w ≤ f.w := by
    refine (hsort.sorted edges).imp fun {e f} hle ↦ ?_
    rwa [edgesCompare, Int.isLE_compare] at hle
  have hV : Visits Edge.ends Edge.w (edges : Multiset Edge) (sort edges)
      (([] : List Edge) : Multiset Edge) := visits_initial (fun e ↦ hperm.mem_iff) hsorted
  obtain ⟨result, hloop, X, hspans⟩ :=
    kruskalLoop_spec R hV fun e he ↦ B.ends e (Multiset.mem_coe.1 he)
  refine ⟨_, ?_, X, hspans⟩
  simp only [minSpanningTreeKruskal, hnodes, hedges, Option.bind_eq_bind, hd, Option.bind_some]
  exact hloop

/-- **Kruskal's algorithm is optimal**: it returns the minimum of the total weights of the maximal
spanning forests. -/
theorem kruskal_isLeast (hg : Graph.construct edges nodes = some g)
    (hsort : Search.Sorts edgesCompare sort) :
    ∃ cost, minSpanningTreeKruskal sort g = some cost ∧
      IsLeast {w | ∃ F, IsSpanningForest Edge.ends (edges : Multiset Edge) F ∧
        totalWeight Edge.w F = w} cost := by
  obtain ⟨F, heq, X, hspans⟩ := exists_eq_kruskal hg hsort
  exact ⟨_, heq, X.isLeast hspans⟩

theorem kruskal_isLeast_test : ∃ cost, minSpanningTreeKruskal sortEdges testGraph = some cost ∧
    IsLeast {w | ∃ F, IsSpanningForest Edge.ends (testEdges : Multiset Edge) F ∧
      totalWeight Edge.w F = w} cost :=
  kruskal_isLeast construct_testEdges sorts_sortEdges

/-! ### Prim's algorithm, turn by turn -/

variable {s s' : PrimState} {top : ℕ × ℤ} {tops : List (ℕ × ℤ)}

/-- A turn takes an entry of least weight, and adds its node if it has not been connected. -/
theorem primStep_eq_some (h : primStep g s top = some s') :
    top ∈ s.pq ∧ (∀ p ∈ s.pq, top.2 ≤ p.2) ∧ ∃ c neighbours, s.connected[top.1]? = some c ∧
      g.adjacencyList[top.1]? = some neighbours ∧
      (c ≠ 0 ∧ s' =
          { s with pq := s.pq.erase top, connected := s.connected.set top.1 (c + 1) } ∨
        c = 0 ∧ s' =
          { cost := s.cost + top.2
            pq := s.pq.erase top + (neighbours.filter fun p ↦
              (s.connected.set top.1 (c + 1))[p.1]? = some 0 : List (ℕ × ℤ))
            connected := s.connected.set top.1 (c + 1)
            added := s.added ++ [top.1] }) := by
  obtain ⟨⟨hmem, hleast⟩, h⟩ := Option.ite_none_right_eq_some.1 h
  obtain ⟨c, hc, h⟩ := Option.bind_eq_some_iff.1 h
  obtain ⟨neighbours, hneighbours, h⟩ := Option.bind_eq_some_iff.1 h
  refine ⟨hmem, hleast, c, neighbours, hc, hneighbours, ?_⟩
  by_cases hzero : c = 0
  · rw [if_neg (not_not_intro hzero)] at h
    exact .inr ⟨hzero, (Option.some.inj h).symm⟩
  · rw [if_pos hzero] at h
    exact .inl ⟨hzero, (Option.some.inj h).symm⟩

/-- The queue holds the edges that leave the nodes added so far, and nothing but edges from there;
the edges by which nodes have been added join them and belong to a minimum spanning forest. -/
structure PrimInv (edges : List Edge) (nodes : ℕ) (s : PrimState) : Prop where
  length : s.connected.length = nodes
  connected : ∀ v c, s.connected[v]? = some c → (c = 0 ↔ v ∉ s.added)
  nodup : s.added.Nodup
  lt : ∀ v ∈ s.added, v < nodes
  start : s.added = [] → s.pq = {(0, 0)}
  entries : s.added ≠ [] → ∀ p ∈ s.pq, ∃ e ∈ edges, e.w = p.2 ∧
    ∃ a ∈ s.added, e.ends = (a, p.1) ∨ e.ends = (p.1, a)
  leaving : ∀ e ∈ edges, ∀ a ∈ s.added, ∀ b ∉ s.added,
    e.ends = (a, b) ∨ e.ends = (b, a) → (b, e.w) ∈ s.pq
  tree : ∃ A : Multiset Edge, Extends Edge.ends Edge.w (edges : Multiset Edge) A ∧
    s.cost = totalWeight Edge.w A ∧ (∀ e ∈ A, e.u ∈ s.added ∧ e.v ∈ s.added) ∧
    ∀ a ∈ s.added, ∀ b ∈ s.added, Joined (Linked Edge.ends A) a b

theorem primInv_initial (hg : Graph.construct edges nodes = some g) :
    PrimInv edges nodes (.initial g) where
  length := List.length_replicate.trans (construct_eq_some hg).1
  connected v c hc := by
    obtain rfl := List.eq_of_mem_replicate (List.mem_of_getElem? hc)
    simp [PrimState.initial]
  nodup := List.nodup_nil
  lt v hv := absurd hv List.not_mem_nil
  start _ := rfl
  entries h := absurd rfl h
  leaving _ _ a ha := absurd ha List.not_mem_nil
  tree := ⟨0, extends_zero, rfl, fun e he ↦ absurd he (Multiset.notMem_zero e),
    fun a ha ↦ absurd ha List.not_mem_nil⟩

theorem ends_eq {a b : ℕ} : e.ends = (a, b) ↔ e.u = a ∧ e.v = b := by
  rw [Edge.ends, Prod.mk.injEq]

/-- An edge across the cut of some nodes has an end among them and one outside. -/
theorem exists_of_crosses {added : List ℕ} (h : Crosses Edge.ends (· ∈ added) f) :
    ∃ a ∈ added, ∃ b ∉ added, f.ends = (a, b) ∨ f.ends = (b, a) := by
  by_cases hu : f.u ∈ added
  · exact ⟨f.u, hu, f.v, h.1 hu, .inl rfl⟩
  · have hv : f.v ∈ added := by
      by_contra hv
      exact hu (h.2 hv)
    exact ⟨f.v, hv, f.u, hu, .inr rfl⟩

/-- A turn that gets the entry of a node connected before. -/
theorem PrimInv.stale {c : ℕ} (I : PrimInv edges nodes s) (hc : s.connected[top.1]? = some c)
    (hne : c ≠ 0) : PrimInv edges nodes
      { s with pq := s.pq.erase top, connected := s.connected.set top.1 (c + 1) } := by
  have hadded : top.1 ∈ s.added := by
    by_contra hnot
    exact hne ((I.connected _ c hc).2 hnot)
  refine { I with
    length := (List.length_set ..).trans I.length
    connected := fun v i hi ↦ ?_
    start := fun hnil ↦ absurd (hnil ▸ hadded) List.not_mem_nil
    entries := fun hne p hp ↦ I.entries hne p (Multiset.mem_of_mem_erase hp)
    leaving := fun e he a ha b hb hends ↦ ?_ }
  · rcases eq_or_ne v top.1 with rfl | hv
    · rw [List.getElem?_set_self (List.getElem?_eq_some_iff.1 hc).1, Option.some.injEq] at hi
      exact iff_of_false (by omega) (not_not_intro hadded)
    · rw [List.getElem?_set_ne hv.symm] at hi
      exact I.connected v i hi
  · have hmem := I.leaving e he a ha b hb hends
    refine (Multiset.mem_erase_of_ne fun heq ↦ hb ?_).2 hmem
    rw [← heq] at hadded
    exact hadded

theorem mem_concat {v x : ℕ} {added : List ℕ} : v ∈ added ++ [x] ↔ v ∈ added ∨ v = x := by
  rw [List.mem_append, List.mem_singleton]

/-- The entries of the queue after a turn that adds a node. -/
theorem PrimInv.entries_fresh {neighbours entries : List (ℕ × ℤ)} (I : PrimInv edges nodes s)
    (B : Built edges nodes g.adjacencyList)
    (hneighbours : g.adjacencyList[top.1]? = some neighbours) (hmem : top ∈ s.pq)
    (hsub : entries ⊆ neighbours) {p : ℕ × ℤ}
    (hp : p ∈ s.pq.erase top + (entries : Multiset (ℕ × ℤ))) :
    ∃ e ∈ edges, e.w = p.2 ∧
      ∃ a ∈ s.added ++ [top.1], e.ends = (a, p.1) ∨ e.ends = (p.1, a) := by
  rcases Multiset.mem_add.1 hp with hp | hp
  · have hne : s.added ≠ [] := by
      intro hnil
      rw [I.start hnil] at hmem hp
      rw [Multiset.mem_singleton.1 hmem, Multiset.erase_singleton] at hp
      exact Multiset.notMem_zero p hp
    obtain ⟨e, he, hw, a, ha, hends⟩ := I.entries hne p (Multiset.mem_of_mem_erase hp)
    exact ⟨e, he, hw, a, mem_concat.2 (.inl ha), hends⟩
  · obtain ⟨e, he, hw, hends⟩ := (B.mem_iff _ _ hneighbours p.1 p.2).1 (hsub hp)
    exact ⟨e, he, hw, top.1, mem_concat.2 (.inr rfl), hends⟩

/-- The edges that leave the nodes after a turn that adds a node. -/
theorem PrimInv.leaving_fresh {neighbours : List (ℕ × ℤ)} {connected : List ℕ}
    (I : PrimInv edges nodes s) (B : Built edges nodes g.adjacencyList)
    (hneighbours : g.adjacencyList[top.1]? = some neighbours)
    (hconnected : connected = s.connected.set top.1 (0 + 1)) {a b : ℕ} (he : e ∈ edges)
    (ha : a ∈ s.added ++ [top.1]) (hb : b ∉ s.added ++ [top.1])
    (hends : e.ends = (a, b) ∨ e.ends = (b, a)) :
    (b, e.w) ∈ s.pq.erase top +
      (neighbours.filter fun p ↦ connected[p.1]? = some 0 : List (ℕ × ℤ)) := by
  rw [mem_concat, not_or] at hb
  rcases mem_concat.1 ha with ha | rfl
  · refine Multiset.mem_add.2 (.inl ((Multiset.mem_erase_of_ne fun heq ↦ hb.2 ?_).2
      (I.leaving e he a ha b hb.1 hends)))
    rw [← heq]
  · refine Multiset.mem_add.2 (.inr (List.mem_filter.2
      ⟨(B.mem_iff _ _ hneighbours b e.w).2 ⟨e, he, rfl, hends⟩, ?_⟩))
    have hblt : b < nodes := by
      rcases hends with h | h
      · exact (ends_eq.1 h).2 ▸ (B.ends e he).2
      · exact (ends_eq.1 h).1 ▸ (B.ends e he).1
    rw [decide_eq_true_iff, hconnected, List.getElem?_set_ne (Ne.symm hb.2)]
    have hget := List.getElem?_eq_getElem (I.length.symm ▸ hblt : b < s.connected.length)
    rw [hget, (I.connected b _ hget).2 hb.1]

/-- The tree after a turn that adds a node: the lightest edge that leaves it has been added. -/
theorem PrimInv.tree_fresh (I : PrimInv edges nodes s) (hne : s.added ≠ [])
    (hnot : top.1 ∉ s.added) (hmem : top ∈ s.pq) (hleast : ∀ p ∈ s.pq, top.2 ≤ p.2) :
    ∃ A : Multiset Edge, Extends Edge.ends Edge.w (edges : Multiset Edge) A ∧
      s.cost + top.2 = totalWeight Edge.w A ∧
      (∀ e ∈ A, e.u ∈ s.added ++ [top.1] ∧ e.v ∈ s.added ++ [top.1]) ∧
      ∀ a ∈ s.added ++ [top.1], ∀ b ∈ s.added ++ [top.1], Joined (Linked Edge.ends A) a b := by
  obtain ⟨A, X, hcost, hends, hjoined⟩ := I.tree
  obtain ⟨e, he, hw, a, ha, heq⟩ := I.entries hne top hmem
  have hcross : Crosses Edge.ends (· ∈ s.added) e := by
    rcases heq with h | h
    · rw [Crosses, h]
      exact iff_of_true ha hnot
    · rw [Crosses, h]
      exact iff_of_false hnot (not_not_intro ha)
  have hA : ∀ f ∈ A, ¬ Crosses Edge.ends (· ∈ s.added) f := fun f hf hcross ↦
    hcross.1 (hends f hf).1 (hends f hf).2
  have hlight : ∀ f ∈ (edges : Multiset Edge), Crosses Edge.ends (· ∈ s.added) f →
      e.w ≤ f.w := fun f hf hfcross ↦ by
    obtain ⟨x, hx, y, hy, hxy⟩ := exists_of_crosses hfcross
    rw [hw]
    exact hleast _ (I.leaving f (Multiset.mem_coe.1 hf) x hx y hy hxy)
  have hae : Joined (Linked Edge.ends (e ::ₘ A)) a top.1 := by
    have hj := joined_ends Edge.ends (Multiset.mem_cons_self e A)
    rcases heq with h | h
    · rwa [h] at hj
    · rw [h] at hj
      exact hj.symm
  -- every node is joined with the new one
  have hall : ∀ {x}, x ∈ s.added ++ [top.1] →
      Joined (Linked Edge.ends (e ::ₘ A)) x top.1 := fun hx ↦ by
    rcases mem_concat.1 hx with hx | rfl
    · exact (Linked.mono (hjoined _ hx a ha) (Multiset.le_cons_self A e)).trans hae
    · exact .refl _ _
  refine ⟨e ::ₘ A, X.add (Multiset.mem_coe.2 he) hcross hA hlight, ?_, fun f hf ↦ ?_,
    fun x hx y hy ↦ (hall hx).trans (hall hy).symm⟩
  · rw [totalWeight_cons, hcost, hw, add_comm]
  · rcases Multiset.mem_cons.1 hf with rfl | hf
    · rcases heq with h | h
      · obtain ⟨hu, hv⟩ := ends_eq.1 h
        exact ⟨mem_concat.2 (.inl (hu.symm ▸ ha)), mem_concat.2 (.inr hv)⟩
      · obtain ⟨hu, hv⟩ := ends_eq.1 h
        exact ⟨mem_concat.2 (.inr hu), mem_concat.2 (.inl (hv.symm ▸ ha))⟩
    · exact ⟨mem_concat.2 (.inl (hends f hf).1), mem_concat.2 (.inl (hends f hf).2)⟩

/-- The tree of the first node has no edge. -/
theorem PrimInv.tree_first (I : PrimInv edges nodes s) (hnil : s.added = []) (hmem : top ∈ s.pq) :
    ∃ A : Multiset Edge, Extends Edge.ends Edge.w (edges : Multiset Edge) A ∧
      s.cost + top.2 = totalWeight Edge.w A ∧
      (∀ e ∈ A, e.u ∈ s.added ++ [top.1] ∧ e.v ∈ s.added ++ [top.1]) ∧
      ∀ a ∈ s.added ++ [top.1], ∀ b ∈ s.added ++ [top.1], Joined (Linked Edge.ends A) a b := by
  obtain ⟨A, X, hcost, hends, -⟩ := I.tree
  rw [I.start hnil] at hmem
  refine ⟨A, X, ?_, fun e he ↦ ?_, fun a ha b hb ↦ ?_⟩
  · rw [hcost, Multiset.mem_singleton.1 hmem, add_zero]
  · exact ⟨mem_concat.2 (.inl (hends e he).1), mem_concat.2 (.inl (hends e he).2)⟩
  · rw [mem_concat, hnil, or_iff_right List.not_mem_nil] at ha hb
    rw [ha, hb]
    exact .refl _ _

/-- A turn that adds a node. -/
theorem PrimInv.fresh {neighbours : List (ℕ × ℤ)} (I : PrimInv edges nodes s)
    (B : Built edges nodes g.adjacencyList) (hc : s.connected[top.1]? = some 0)
    (hneighbours : g.adjacencyList[top.1]? = some neighbours) (hmem : top ∈ s.pq)
    (hleast : ∀ p ∈ s.pq, top.2 ≤ p.2) : PrimInv edges nodes
      { cost := s.cost + top.2
        pq := s.pq.erase top + (neighbours.filter fun p ↦
          (s.connected.set top.1 (0 + 1))[p.1]? = some 0 : List (ℕ × ℤ))
        connected := s.connected.set top.1 (0 + 1)
        added := s.added ++ [top.1] } where
  length := (List.length_set ..).trans I.length
  connected v i hi := by
    rw [mem_concat]
    rcases eq_or_ne v top.1 with rfl | hv
    · rw [List.getElem?_set_self (List.getElem?_eq_some_iff.1 hc).1, Option.some.injEq] at hi
      exact iff_of_false (by omega) (not_not_intro (.inr rfl))
    · rw [List.getElem?_set_ne hv.symm] at hi
      rw [I.connected v i hi, or_iff_left hv]
  nodup := by
    have hnot : top.1 ∉ s.added := (I.connected _ 0 hc).1 rfl
    refine List.nodup_append.2 ⟨I.nodup, List.nodup_singleton _, fun a ha b hb heq ↦ ?_⟩
    exact hnot (List.mem_singleton.1 hb ▸ heq ▸ ha)
  lt v hv := by
    rcases mem_concat.1 hv with hv | rfl
    · exact I.lt v hv
    · exact I.length ▸ (List.getElem?_eq_some_iff.1 hc).1
  start hnil := absurd hnil (by simp)
  entries _ p hp := I.entries_fresh B hneighbours hmem (List.filter_subset_self _) hp
  leaving e he a ha b hb hends := I.leaving_fresh B hneighbours rfl he ha hb hends
  tree := by
    by_cases hnil : s.added = []
    · exact I.tree_first hnil hmem
    · exact I.tree_fresh hnil ((I.connected _ 0 hc).1 rfl) hmem hleast

/-- **A turn** keeps the invariant. -/
theorem PrimInv.step (I : PrimInv edges nodes s) (B : Built edges nodes g.adjacencyList)
    (h : primStep g s top = some s') : PrimInv edges nodes s' := by
  obtain ⟨hmem, hleast, c, neighbours, hc, hneighbours, h⟩ := primStep_eq_some h
  rcases h with ⟨hne, rfl⟩ | ⟨rfl, rfl⟩
  · exact I.stale hc hne
  · exact I.fresh B hc hneighbours hmem hleast

theorem PrimInv.exec (I : PrimInv edges nodes s) (B : Built edges nodes g.adjacencyList)
    (h : Machine.exec (primStep g) s tops = some s') : PrimInv edges nodes s' :=
  Machine.exec_invariant' (fun _ _ _ I h ↦ I.step B h) I h

/-- As long as a node is missing, an edge leaves the nodes added. -/
theorem PrimInv.exists_crosses (I : PrimInv edges nodes s) (hconn : ∀ u < nodes, ∀ v < nodes,
    Joined (Linked Edge.ends (edges : Multiset Edge)) u v) (hne : s.added ≠ [])
    (hlt : s.added.length < nodes) :
    ∃ f ∈ (edges : Multiset Edge), Crosses Edge.ends (· ∈ s.added) f := by
  obtain ⟨a, ha⟩ := List.exists_mem_of_ne_nil _ hne
  have hcard : s.added.toFinset.card < (Finset.range nodes).card := by
    rwa [List.toFinset_card_of_nodup I.nodup, Finset.card_range]
  obtain ⟨v, hv, hnot⟩ := Finset.exists_mem_notMem_of_card_lt_card hcard
  rw [List.mem_toFinset] at hnot
  exact SpanningForest.exists_crosses (P := (· ∈ s.added))
    (hconn a (I.lt a ha) v (Finset.mem_range.1 hv)) ha hnot

theorem PrimInv.pq_ne_zero (I : PrimInv edges nodes s) (hconn : ∀ u < nodes, ∀ v < nodes,
    Joined (Linked Edge.ends (edges : Multiset Edge)) u v) (hlt : s.added.length < nodes) :
    s.pq ≠ 0 := by
  by_cases hnil : s.added = []
  · rw [I.start hnil]
    exact Multiset.singleton_ne_zero _
  · obtain ⟨e, he, hcross⟩ := I.exists_crosses hconn hnil hlt
    obtain ⟨x, hx, y, hy, hxy⟩ := exists_of_crosses hcross
    exact fun hzero ↦ Multiset.notMem_zero _ (hzero ▸ I.leaving e (Multiset.mem_coe.1 he) x hx y
      hy hxy)

/-- The entries are of nodes. -/
theorem PrimInv.lt_of_mem (I : PrimInv edges nodes s) (B : Built edges nodes g.adjacencyList)
    (hpos : 0 < nodes) (hmem : top ∈ s.pq) : top.1 < nodes := by
  by_cases hnil : s.added = []
  · rw [I.start hnil] at hmem
    rwa [Multiset.mem_singleton.1 hmem]
  · obtain ⟨e, he, -, a, -, heq⟩ := I.entries hnil top hmem
    rcases heq with h | h
    · exact (ends_eq.1 h).2 ▸ (B.ends e he).2
    · exact (ends_eq.1 h).1 ▸ (B.ends e he).1

/-- An entry of least weight can be taken. -/
theorem PrimInv.exists_step_of_least (I : PrimInv edges nodes s)
    (B : Built edges nodes g.adjacencyList) (hpos : 0 < nodes) (hmem : top ∈ s.pq)
    (hleast : ∀ p ∈ s.pq, top.2 ≤ p.2) : ∃ s', primStep g s top = some s' := by
  have hlt := I.lt_of_mem B hpos hmem
  have hconnected := List.getElem?_eq_getElem (I.length.symm ▸ hlt : top.1 < s.connected.length)
  have hadjacent := List.getElem?_eq_getElem
    (B.length.symm ▸ hlt : top.1 < g.adjacencyList.length)
  rw [primStep, if_pos ⟨hmem, hleast⟩, hconnected, hadjacent]
  simp only [Option.bind_eq_bind, Option.bind_some]
  split
  · exact ⟨_, rfl⟩
  · exact ⟨_, rfl⟩

/-- If there is an entry, there is a turn. -/
theorem PrimInv.exists_step (I : PrimInv edges nodes s) (B : Built edges nodes g.adjacencyList)
    (hpos : 0 < nodes) (hne : s.pq ≠ 0) : ∃ top s', primStep g s top = some s' := by
  obtain ⟨p, hp⟩ := Multiset.exists_mem_of_ne_zero hne
  obtain ⟨top, htop, hleast⟩ := s.pq.toFinset.exists_min_image Prod.snd
    ⟨p, Multiset.mem_toFinset.2 hp⟩
  exact ⟨top, I.exists_step_of_least B hpos (Multiset.mem_toFinset.1 htop) fun p hp ↦
    hleast p (Multiset.mem_toFinset.2 hp)⟩

theorem PrimInv.perm_range (I : PrimInv edges nodes s) (hall : s.added.length = nodes) :
    s.added.Perm (List.range nodes) := by
  refine (List.subperm_of_subset I.nodup fun v hv ↦
    List.mem_range.2 (I.lt v hv)).perm_of_length_le ?_
  rw [List.length_range, hall]

/-- **With all nodes added** the cost is the minimum. -/
theorem PrimInv.isLeast (I : PrimInv edges nodes s) (B : Built edges nodes g.adjacencyList)
    (hall : s.added.length = nodes) :
    IsLeast {w | ∃ F, IsSpanningForest Edge.ends (edges : Multiset Edge) F ∧
      totalWeight Edge.w F = w} s.cost := by
  have hmem : ∀ v < nodes, v ∈ s.added := fun v hv ↦
    (I.perm_range hall).mem_iff.2 (List.mem_range.2 hv)
  obtain ⟨A, X, hcost, -, hjoined⟩ := I.tree
  have hspans : Spans Edge.ends A (edges : Multiset Edge) := fun e he ↦ by
    obtain ⟨hu, hv⟩ := B.ends e (Multiset.mem_coe.1 he)
    exact hjoined _ (hmem _ hu) _ (hmem _ hv)
  rw [hcost]
  exact X.isLeast hspans

/-- Each turn adds a node exactly if its entry is fresh. -/
theorem length_added (h : Machine.exec (primStep g) s tops = some s') :
    s'.added.length ≤ s.added.length + tops.length ∧
      (s'.added.length = s.added.length + tops.length ↔
        Machine.Always (primStep g) Fresh s tops) := by
  induction tops generalizing s with
  | nil =>
    obtain rfl := Option.some.inj h
    exact ⟨Nat.le_refl _, iff_of_true rfl trivial⟩
  | cons top tops ih =>
    obtain ⟨t, ht, h⟩ := Option.bind_eq_some_iff.1 h
    obtain ⟨hle, hiff⟩ := ih h
    obtain ⟨-, -, c, neighbours, hc, -, hcases⟩ := primStep_eq_some ht
    have hfresh : Fresh s top ↔ c = 0 := by rw [Fresh, hc, Option.some.injEq]
    have halways : Machine.Always (primStep g) Fresh s (top :: tops) ↔
        c = 0 ∧ Machine.Always (primStep g) Fresh t tops := by
      rw [Machine.always_cons_of_step ht, hfresh]
    rw [halways, List.length_cons, ← hiff]
    rcases hcases with ⟨hne, rfl⟩ | ⟨rfl, rfl⟩
    · simp only at hle ⊢
      omega
    · rw [List.length_append, List.length_singleton] at hle ⊢
      rw [← Nat.add_assoc, Nat.add_right_comm]
      exact ⟨hle, (and_iff_right rfl).symm⟩

theorem length_added_initial (h : Machine.exec (primStep g) (.initial g) tops = some s) :
    s.added.length ≤ tops.length ∧
      (s.added.length = tops.length ↔ Machine.Always (primStep g) Fresh (.initial g) tops) := by
  have hadded := length_added h
  rwa [show (PrimState.initial g).added.length = 0 from rfl, Nat.zero_add] at hadded

/-- A run is right if no turn gets the entry of a node that has been connected before. -/
theorem primRight_iff_fresh (hg : Graph.construct edges nodes = some g) (hconn : g.Connected)
    (hpos : 1 ≤ nodes) (hsort : Search.Sorts edgesCompare sort) (hrun : PrimRun g tops s) :
    PrimRight sort g tops s ↔ Machine.Always (primStep g) Fresh (.initial g) tops := by
  obtain ⟨hnodes, hedges, -, B⟩ := construct_eq_some hg
  rw [Graph.Connected, hnodes, hedges] at hconn
  have hinv : ∀ {as t}, Machine.exec (primStep g) (.initial g) as = some t →
      PrimInv edges nodes t := (primInv_initial hg).exec B
  have hnonempty : ∀ {as t}, as.length < nodes →
      Machine.exec (primStep g) (.initial g) as = some t → t.pq ≠ 0 := by
    intro as t hlt h
    exact (hinv h).pq_ne_zero hconn (Nat.lt_of_le_of_lt (length_added_initial h).1 hlt)
  have hlen : tops.length = nodes := by
    refine Nat.le_antisymm (hnodes ▸ hrun.le) (Nat.le_of_not_lt fun hlt ↦ ?_)
    obtain ⟨top, s', hstep⟩ := (hinv hrun.exec).exists_step B hpos (hnonempty hlt hrun.exec)
    rw [hrun.ended (hnodes.symm ▸ hlt) top] at hstep
    cases hstep
  have I := hinv hrun.exec
  rw [← (length_added_initial hrun.exec).2, hlen]
  constructor
  · intro hright
    rw [hright.adds.length_eq, List.length_range, hnodes]
  · intro hall
    obtain ⟨F, hkruskal, X, hspans⟩ := exists_eq_kruskal hg hsort
    refine ⟨fun as bs _ hlt t ht ↦ hnonempty (hnodes ▸ hlt) ht,
      hnodes.symm ▸ I.perm_range hall, ?_⟩
    rw [hkruskal, (I.isLeast B hall).unique (X.isLeast hspans)]

end Struct
