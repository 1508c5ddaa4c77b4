import Mathlib.Algebra.Order.Group.Multiset
import Mathlib.Algebra.Order.Interval.Finset.SuccPred
import Mathlib.Data.Multiset.Filter
import Mathlib.Data.Nat.SuccPred
import Mathlib.Order.Interval.Finset.Nat
import MiscCpp.Library.CInt
import MiscCpp.Library.ClassCount
import MiscCpp.Struct.DisjointSet

/-!
# Removing edges

`MaxNumEdgesToRemove` of `misc/struct/tests/disjoint_set_test.cpp`: two copies of the disjoint sets
of the shared edges take the edges of one type each, and the counter takes the edges whose two ends
have been joined already.

Each edge is counted by `edges` of the structure that takes it or by the counter, so the counter is
the number of edges without the least number that connects both graphs (`run_eq`). Both the index of
the last node plus one and the counter are of type `int` (`removalRight_iff`).
-/

open Connectivity Machine SpanningForest

namespace Struct.EdgeRemoval

/-! ### The program -/

/-- `e[0]`, `e[1]`, `e[2]` -/
structure Edge where
  type : ℕ
  u : ℕ
  v : ℕ
deriving DecidableEq

/-- The two ends of an edge. -/
def Edge.ends (e : Edge) : ℕ × ℕ := (e.u, e.v)

/-- `for (size_t i = 1; i <= n; ++i) dsu1.MakeSet(i)` -/
def makeSets (n : ℕ) : Option DisjointSet :=
  exec (fun d (i : ℕ) ↦ d.makeSet (i + 1)) .initial (List.range n)

/-- `if (!dsu.Merge(e[1], e[2])) ++ret` -/
def mergeEdge (d : DisjointSet) (ret : CInt) (e : Edge) : Option (DisjointSet × CInt) := do
  let (merged, d) ← d.merge e.u e.v
  if merged then some (d, ret) else some (d, ← ret.incr)

/-- A turn of the loop for the shared edges. -/
def sharedStep (s : DisjointSet × CInt) (e : Edge) : Option (DisjointSet × CInt) :=
  if e.type ≠ 3 then some s else mergeEdge s.1 s.2 e

/-- `dsu1` and `dsu2` -/
structure Copies where
  dsu1 : DisjointSet
  dsu2 : DisjointSet

/-- A turn of the loop for the other edges. -/
def ownStep (s : Copies × CInt) (e : Edge) : Option (Copies × CInt) :=
  if e.type = 3 then some s
  else if e.type = 1 then
    (mergeEdge s.1.dsu1 s.2 e).map fun (d, ret) ↦ ({ s.1 with dsu1 := d }, ret)
  else (mergeEdge s.1.dsu2 s.2 e).map fun (d, ret) ↦ ({ s.1 with dsu2 := d }, ret)

def zero : CInt := ⟨0, by decide⟩

theorem minusOne_range : -2 ^ 31 ≤ (-1 : ℤ) ∧ (-1 : ℤ) < 2 ^ 31 := by decide

def minusOne : CInt := ⟨-1, minusOne_range⟩

/-- The shared edges first, then each one's own, counting those that join nothing. -/
def maxNumEdgesToRemove (n : ℕ) (edges : List Edge) : Option CInt := do
  let dsu1 ← makeSets n
  let (dsu1, ret) ← exec sharedStep (dsu1, zero) edges
  let (s, ret) ← exec ownStep (⟨dsu1, dsu1⟩, ret) edges
  if (s.dsu1.edges : ℤ) = n - 1 ∧ (s.dsu2.edges : ℤ) = n - 1 then some ret else some minusOne

example : (maxNumEdgesToRemove 4 [⟨3, 1, 2⟩, ⟨3, 2, 3⟩, ⟨1, 1, 3⟩, ⟨1, 2, 4⟩, ⟨1, 1, 2⟩,
    ⟨2, 3, 4⟩]).map Subtype.val = some 2 := by decide

/-! ### What the disjoint sets hold -/

section Holds

variable {d : DisjointSet} {nodes : Finset ℕ} {E S done : Multiset Edge} {e : Edge}

/-- The disjoint sets are the components of the edges `S`. -/
def Holds (d : DisjointSet) (nodes : Finset ℕ) (S : Multiset Edge) : Prop :=
  ∃ L : List Edge, ↑L = S ∧ Represents d nodes (L.map Edge.ends)

theorem merged_map_ends (L : List Edge) :
    Merged (L.map Edge.ends) = Linked Edge.ends (L : Multiset Edge) := by
  funext a b
  simp only [Merged, Linked, List.mem_map, Multiset.mem_coe]

/-- `edges` and the number of the components are the number of the nodes. -/
theorem Holds.edges_add (h : Holds d nodes S) :
    d.edges + components Edge.ends nodes S = nodes.card := by
  obtain ⟨L, rfl, R⟩ := h
  have hclasses : components Edge.ends nodes (L : Multiset Edge) =
      (nodes.image d.representative).card := by
    refine classes_eq_card fun u hu v hv ↦ ?_
    obtain ⟨r, hr⟩ := R.exists_rootOf hu
    obtain ⟨t, ht⟩ := R.exists_rootOf hv
    rw [R.representative_eq hu hr, R.representative_eq hv ht, Option.some.injEq,
      R.joined u hu v hv r t hr ht, merged_map_ends]
  rw [hclasses, R.card_representatives, R.forest.edges]

/-- **An edge** is taken by the disjoint sets or counted. -/
theorem Holds.mergeEdge (h : Holds d nodes S) (hu : e.u ∈ nodes) (hv : e.v ∈ nodes) :
    ∃ d' k, Holds d' nodes (e ::ₘ S) ∧ k + d'.edges = d.edges + 1 ∧
      ∀ ret, EdgeRemoval.mergeEdge d ret e = (CInt.checked (ret.1 + (k : ℕ))).map (d', ·) := by
  have hadd := h.edges_add
  obtain ⟨L, rfl, R⟩ := h
  obtain ⟨b, d', hmerge, hb, R'⟩ := R.merge hu hv
  rw [merged_map_ends] at hb
  have hholds : Holds d' nodes (e ::ₘ (L : Multiset Edge)) := ⟨e :: L, rfl, R'⟩
  have hadd' := hholds.edges_add
  rw [components_cons] at hadd'
  cases b with
  | true =>
    have hone : _ + 1 = components Edge.ends nodes (L : Multiset Edge) :=
      classes_adding_of_not_joined hu hv (hb.1 rfl)
    refine ⟨d', 0, hholds, by simp only [Edge.ends] at hadd' hone; omega, fun ret ↦ ?_⟩
    rw [EdgeRemoval.mergeEdge, hmerge, Int.natCast_zero, Int.add_zero, CInt.checked_coe]
    rfl
  | false =>
    have hjoined : Joined (Linked Edge.ends (L : Multiset Edge)) e.u e.v := by
      by_contra hnot
      exact Bool.false_ne_true (hb.2 hnot)
    have hsame : _ = components Edge.ends nodes (L : Multiset Edge) :=
      classes_adding_of_joined hjoined
    refine ⟨d', 1, hholds, by simp only [Edge.ends] at hadd' hsame; omega, fun ret ↦ ?_⟩
    rw [EdgeRemoval.mergeEdge, hmerge, CInt.incr_eq, Int.natCast_one]
    cases CInt.checked (ret.1 + 1) <;> rfl

/-! ### The loops -/

theorem exec_counted_from {σ α : Type*} {step : σ × CInt → α → Option (σ × CInt)}
    (I : Multiset α → σ → Prop) (taken : σ → ℕ) (p : α → Prop) [DecidablePred p] {as : List α}
    (hstep : ∀ done s, ∀ a ∈ as, I done s → ∃ t k, I (a ::ₘ done) t ∧
      k + taken t = taken s + (if p a then 1 else 0) ∧
        ∀ ret, step (s, ret) a = (CInt.checked (ret.1 + (k : ℕ))).map (t, ·))
    {done : Multiset α} {s : σ} (hI : I done s) :
    ∃ t k, I (as + done) t ∧ k + taken t = taken s + (Multiset.filter p as).card ∧
      ∀ ret, exec step (s, ret) as = (CInt.checked (ret.1 + (k : ℕ))).map (t, ·) := by
  induction as generalizing done s with
  | nil =>
    refine ⟨s, 0, ?_, by simp, fun ret ↦ ?_⟩
    · rwa [Multiset.coe_nil, Multiset.zero_add]
    · rw [Int.natCast_zero, Int.add_zero, CInt.checked_coe]
      rfl
  | cons a as ih =>
    obtain ⟨t, k, ht, hk, hrun⟩ := hstep done s a List.mem_cons_self hI
    obtain ⟨u, j, hu, hj, hrest⟩ :=
      ih (fun done s b hb ↦ hstep done s b (List.mem_cons_of_mem a hb)) ht
    refine ⟨u, k + j, ?_, ?_, fun ret ↦ ?_⟩
    · rwa [← Multiset.cons_coe, Multiset.cons_add, ← Multiset.add_cons]
    · rw [← Multiset.cons_coe]
      by_cases hp : p a
      · rw [if_pos hp] at hk
        rw [Multiset.filter_cons_of_pos _ hp, Multiset.card_cons]
        omega
      · rw [if_neg hp] at hk
        rw [Multiset.filter_cons_of_neg _ hp]
        omega
    · rw [exec_cons, hrun, Int.natCast_add, ← Int.add_assoc,
        ← CInt.checked_bind ret (Int.natCast_nonneg k) (Int.natCast_nonneg j)]
      cases CInt.checked (ret.1 + k) with
      | none => rfl
      | some x => exact hrest x

/-- **A loop with a counter**: what each turn takes or counts, the loop takes or counts. -/
theorem exec_counted {σ α : Type*} {step : σ × CInt → α → Option (σ × CInt)}
    (I : Multiset α → σ → Prop) (taken : σ → ℕ) (p : α → Prop) [DecidablePred p] {as : List α}
    (hstep : ∀ done s, ∀ a ∈ as, I done s → ∃ t k, I (a ::ₘ done) t ∧
      k + taken t = taken s + (if p a then 1 else 0) ∧
        ∀ ret, step (s, ret) a = (CInt.checked (ret.1 + (k : ℕ))).map (t, ·))
    {s : σ} (hI : I 0 s) :
    ∃ t k, I as t ∧ k + taken t = taken s + (Multiset.filter p as).card ∧
      ∀ ret, exec step (s, ret) as = (CInt.checked (ret.1 + (k : ℕ))).map (t, ·) := by
  have hrun := exec_counted_from I taken p hstep hI
  rwa [Multiset.add_zero] at hrun

/-- The edges of a type. -/
def ofType (t : ℕ) (E : Multiset Edge) : Multiset Edge := E.filter (·.type = t)

/-- The edges that are not shared. -/
def own (E : Multiset Edge) : Multiset Edge := E.filter (·.type ≠ 3)

theorem ofType_cons_of_eq {t : ℕ} (h : e.type = t) : ofType t (e ::ₘ E) = e ::ₘ ofType t E :=
  Multiset.filter_cons_of_pos _ h

theorem ofType_cons_of_ne {t : ℕ} (h : e.type ≠ t) : ofType t (e ::ₘ E) = ofType t E :=
  Multiset.filter_cons_of_neg _ h

theorem Holds.sharedStep (h : Holds d nodes (ofType 3 done)) (hu : e.u ∈ nodes)
    (hv : e.v ∈ nodes) : ∃ t k, Holds t nodes (ofType 3 (e ::ₘ done)) ∧
      k + t.edges = d.edges + (if e.type = 3 then 1 else 0) ∧
        ∀ ret, EdgeRemoval.sharedStep (d, ret) e = (CInt.checked (ret.1 + (k : ℕ))).map (t, ·) := by
  by_cases ht : e.type = 3
  · rw [ofType_cons_of_eq ht, if_pos ht]
    obtain ⟨t, k, ht', hk, hmerge⟩ := h.mergeEdge hu hv
    exact ⟨t, k, ht', hk, fun ret ↦ by
      rw [EdgeRemoval.sharedStep, if_neg (not_not_intro ht), hmerge]⟩
  · rw [ofType_cons_of_ne ht, if_neg ht]
    refine ⟨d, 0, h, Nat.add_comm .., fun ret ↦ ?_⟩
    rw [EdgeRemoval.sharedStep, if_pos ht, Int.natCast_zero, Int.add_zero, CInt.checked_coe]
    rfl

/-- Each copy has the edges of its type and those that both have. -/
structure HoldsOwn (s : Copies) (nodes : Finset ℕ) (S done : Multiset Edge) : Prop where
  first : Holds s.dsu1 nodes (ofType 1 done + S)
  second : Holds s.dsu2 nodes (ofType 2 done + S)

/-- The edges that the two copies have taken. -/
def Copies.edges (s : Copies) : ℕ := s.dsu1.edges + s.dsu2.edges

theorem HoldsOwn.ownStep {s : Copies} (h : HoldsOwn s nodes S done) (hu : e.u ∈ nodes)
    (hv : e.v ∈ nodes) (htype : e.type = 1 ∨ e.type = 2 ∨ e.type = 3) :
    ∃ t k, HoldsOwn t nodes S (e ::ₘ done) ∧
      k + t.edges = s.edges + (if e.type ≠ 3 then 1 else 0) ∧
        ∀ ret, EdgeRemoval.ownStep (s, ret) e = (CInt.checked (ret.1 + (k : ℕ))).map (t, ·) := by
  rcases htype with ht | ht | ht
  · obtain ⟨d, k, hd, hk, hmerge⟩ := h.first.mergeEdge hu hv
    refine ⟨{ s with dsu1 := d }, k, ⟨?_, ?_⟩, ?_, fun ret ↦ ?_⟩
    · rwa [ofType_cons_of_eq ht, Multiset.cons_add]
    · rw [ofType_cons_of_ne (by omega)]
      exact h.second
    · rw [if_pos (by omega)]
      show k + (d.edges + s.dsu2.edges) = s.dsu1.edges + s.dsu2.edges + 1
      omega
    · rw [EdgeRemoval.ownStep, if_neg (by omega), if_pos ht, hmerge, Option.map_map]
      rfl
  · obtain ⟨d, k, hd, hk, hmerge⟩ := h.second.mergeEdge hu hv
    refine ⟨{ s with dsu2 := d }, k, ⟨?_, ?_⟩, ?_, fun ret ↦ ?_⟩
    · rw [ofType_cons_of_ne (by omega)]
      exact h.first
    · rwa [ofType_cons_of_eq ht, Multiset.cons_add]
    · rw [if_pos (by omega)]
      show k + (s.dsu1.edges + d.edges) = s.dsu1.edges + s.dsu2.edges + 1
      omega
    · rw [EdgeRemoval.ownStep, if_neg (by omega), if_neg (by omega), hmerge, Option.map_map]
      rfl
  · refine ⟨s, 0, ⟨?_, ?_⟩, ?_, fun ret ↦ ?_⟩
    · rw [ofType_cons_of_ne (by omega)]
      exact h.first
    · rw [ofType_cons_of_ne (by omega)]
      exact h.second
    · rw [if_neg (not_not_intro ht), Nat.zero_add, Nat.add_zero]
    · rw [EdgeRemoval.ownStep, if_pos ht, Int.natCast_zero, Int.add_zero, CInt.checked_coe]
      rfl

theorem exec_sharedStep {edges : List Edge} (hin : ∀ e ∈ edges, e.u ∈ nodes ∧ e.v ∈ nodes)
    (h : Holds d nodes 0) :
    ∃ t k, Holds t nodes (ofType 3 edges) ∧ k + t.edges = d.edges + (ofType 3 edges).card ∧
      ∀ ret, exec EdgeRemoval.sharedStep (d, ret) edges =
        (CInt.checked (ret.1 + (k : ℕ))).map (t, ·) :=
  exec_counted (fun done d ↦ Holds d nodes (ofType 3 done)) DisjointSet.edges (·.type = 3)
    (fun _ _ e he h ↦ h.sharedStep (hin e he).1 (hin e he).2) h

theorem exec_ownStep {s : Copies} {edges : List Edge}
    (hin : ∀ e ∈ edges, e.u ∈ nodes ∧ e.v ∈ nodes)
    (htypes : ∀ e ∈ edges, e.type = 1 ∨ e.type = 2 ∨ e.type = 3) (h : HoldsOwn s nodes S 0) :
    ∃ t k, HoldsOwn t nodes S edges ∧ k + t.edges = s.edges + (own edges).card ∧
      ∀ ret, exec EdgeRemoval.ownStep (s, ret) edges =
        (CInt.checked (ret.1 + (k : ℕ))).map (t, ·) :=
  exec_counted (fun done s ↦ HoldsOwn s nodes S done) Copies.edges (·.type ≠ 3)
    (fun _ _ e he h ↦ h.ownStep (hin e he).1 (hin e he).2 (htypes e he)) h

end Holds

/-! ### The graphs -/

/-- The edges of a type and the shared ones. -/
def graph (t : ℕ) (E : Multiset Edge) : Multiset Edge := E.filter fun e ↦ e.type = t ∨ e.type = 3

/-- Both graphs are connected. -/
def Traversable (nodes : Finset ℕ) (E : Multiset Edge) : Prop :=
  Connects Edge.ends nodes (graph 1 E) ∧ Connects Edge.ends nodes (graph 2 E)

theorem filter_add_of_disjoint {p q : Edge → Prop} [DecidablePred p] [DecidablePred q]
    (h : ∀ e, ¬ (p e ∧ q e)) (E : Multiset Edge) :
    E.filter p + E.filter q = E.filter fun e ↦ p e ∨ q e := by
  rw [Multiset.filter_add_filter, Multiset.filter_eq_nil.2 fun e _ ↦ h e, Multiset.add_zero]

theorem graph_eq {t : ℕ} (ht : t ≠ 3) (E : Multiset Edge) : graph t E = ofType t E + ofType 3 E :=
  (filter_add_of_disjoint (fun e ↦ by omega) E).symm

theorem types_le (E : Multiset Edge) : ofType 1 E + ofType 2 E + ofType 3 E ≤ E := by
  rw [ofType, ofType, ofType, filter_add_of_disjoint (fun e ↦ by omega),
    filter_add_of_disjoint (fun e ↦ by omega)]
  exact Multiset.filter_le _ E

theorem type_eq {t : ℕ} {E K : Multiset Edge} (h : K ≤ ofType t E) : ∀ e ∈ K, e.type = t :=
  fun _ he ↦ (Multiset.mem_filter.1 (Multiset.mem_of_le h he)).2

/-- Of edges that are sorted by their types the first graph has its own and the shared ones. -/
theorem graph_add {A B C : Multiset Edge} (hA : ∀ e ∈ A, e.type = 1) (hB : ∀ e ∈ B, e.type = 2)
    (hC : ∀ e ∈ C, e.type = 3) : graph 1 (A + B + C) = A + C ∧ graph 2 (A + B + C) = B + C := by
  have hfilter : ∀ {t s : ℕ} {K : Multiset Edge}, (∀ e ∈ K, e.type = s) →
      graph t K = if s = t ∨ s = 3 then K else 0 := fun {t s K} hK ↦ by
    split
    next h => exact Multiset.filter_eq_self.2 fun e he ↦ by rwa [hK e he]
    next h => exact Multiset.filter_eq_nil.2 fun e he ↦ by rwa [hK e he]
  have hadd : ∀ t, graph t (A + B + C) = graph t A + graph t B + graph t C := fun t ↦ by
    rw [graph, Multiset.filter_add, Multiset.filter_add, graph, graph, graph]
  rw [hadd, hadd, hfilter hA, hfilter hB, hfilter hC, hfilter hA, hfilter hB, hfilter hC]
  simp

/-! ### The function -/

/-- Nodes from 1 to `n`, and edges of the three types between them. -/
structure Roads where
  n : ℕ
  pos : 1 ≤ n
  lt : n < 2 ^ 31
  edges : List Edge
  types : ∀ e ∈ edges, e.type = 1 ∨ e.type = 2 ∨ e.type = 3
  ends : ∀ e ∈ edges, (1 ≤ e.u ∧ e.u ≤ n) ∧ 1 ≤ e.v ∧ e.v ≤ n

namespace Roads

variable (g : Roads)

/-- The nodes, from 1 on. -/
def nodes : Finset ℕ := Finset.Icc 1 g.n

/-- The number of the components of some of the edges. -/
noncomputable def count (select : Multiset Edge → Multiset Edge) : ℕ :=
  components Edge.ends g.nodes (select g.edges)

/-- The numbers of edges whose removal leaves both graphs connected. -/
def removable : Set ℤ :=
  {j | ∃ kept ≤ (g.edges : Multiset Edge), Traversable g.nodes kept ∧
    j = g.edges.length - kept.card}

variable {g}

theorem mem_nodes {e : Edge} (he : e ∈ g.edges) : e.u ∈ g.nodes ∧ e.v ∈ g.nodes :=
  ⟨Finset.mem_Icc.2 (g.ends e he).1, Finset.mem_Icc.2 (g.ends e he).2⟩

theorem card_nodes : g.nodes.card = g.n := by
  rw [nodes, Nat.card_Icc, Nat.add_sub_cancel]

theorem nodes_nonempty : g.nodes.Nonempty := ⟨1, Finset.mem_Icc.2 ⟨le_rfl, g.pos⟩⟩

/-- **What can be removed** at most: all edges but the least number that connects both graphs. -/
theorem isGreatest_removable (h : Traversable g.nodes g.edges) :
    IsGreatest g.removable (g.edges.length + 2 - g.n - g.count (ofType 3)) := by
  obtain ⟨hfirst, hsecond⟩ := h
  rw [graph_eq (by decide)] at hfirst hsecond
  constructor
  · have hends : ∀ e ∈ ofType 1 g.edges + ofType 2 g.edges + ofType 3 g.edges,
        (Edge.ends e).1 ∈ g.nodes ∧ (Edge.ends e).2 ∈ g.nodes := fun e he ↦
      mem_nodes (Multiset.mem_coe.1 (Multiset.mem_of_le (types_le _) he))
    -- what is kept: some edges of each type
    obtain ⟨A, hA, B, hB, C, hC, hAC, hBC, hcard⟩ :=
      exists_connects nodes_nonempty hends hfirst hsecond
    have hgraph := graph_add (type_eq hA) (type_eq hB) (type_eq hC)
    refine ⟨A + B + C, ?_, ⟨?_, ?_⟩, ?_⟩
    · exact (add_le_add (add_le_add hA hB) hC).trans (types_le _)
    · rw [hgraph.1]
      exact hAC
    · rw [hgraph.2]
      exact hBC
    · rw [card_nodes] at hcard
      rw [Multiset.card_add, Multiset.card_add, count]
      omega
  · rintro j ⟨kept, hle, ⟨hA, hB⟩, rfl⟩
    rw [graph_eq (by decide)] at hA hB
    have hshared : ofType 3 kept ≤ ofType 3 g.edges := Multiset.filter_le_filter _ hle
    have hcard := card_le_of_connects nodes_nonempty hshared hA hB
    have hkept := Multiset.card_le_card (types_le kept)
    rw [Multiset.card_add, Multiset.card_add] at hkept
    rw [card_nodes] at hcard
    rw [count]
    omega

/-- Nodes from 1 to `n` are made. -/
theorem exists_makeSets {n : ℕ} (hn : n < 2 ^ 31 - 1) :
    ∃ d, makeSets n = some d ∧ Represents d (Finset.Icc 1 n) [] := by
  have hstep : ∀ k d, k < n → Represents d (Finset.Icc 1 k) [] →
      ∃ d', DisjointSet.makeSet d ((k : ℤ) + 1) = some d' ∧
        Represents d' (Finset.Icc 1 (k + 1)) [] := fun k d hk R ↦ by
    obtain ⟨d', hd', R'⟩ := R.makeSet (by simp : k + 1 ∉ Finset.Icc 1 k) (by omega)
    refine ⟨d', hd', ?_⟩
    rwa [← Finset.insert_Icc_right_eq_Icc_add_one (by omega)]
  exact exists_exec_range hstep represents_initial

/-- `MakeSet(INT_MAX)` is not defined. -/
theorem lt_of_makeSets {n : ℕ} {d : DisjointSet} (hn : n < 2 ^ 31) (h : makeSets n = some d) :
    n < 2 ^ 31 - 1 := by
  cases n with
  | zero => decide
  | succ n =>
    obtain ⟨d', hd', R⟩ := exists_makeSets (Nat.lt_sub_of_add_lt hn)
    rw [makeSets, List.range_succ, exec_concat] at h
    rw [makeSets] at hd'
    rw [hd', Option.bind_some] at h
    have hlt := (R.of_makeSet h).2
    omega

/-- The number that the counter ends with is the number of edges that no copy takes. -/
theorem exists_maxNumEdgesToRemove_eq (hn : g.n < 2 ^ 31 - 1) :
    ∃ k : ℕ, k + g.n + g.count (ofType 3) =
        g.edges.length + g.count (graph 1) + g.count (graph 2) ∧
      maxNumEdgesToRemove g.n g.edges = (CInt.checked k).map fun ret ↦
        if g.count (graph 1) = 1 ∧ g.count (graph 2) = 1 then ret else minusOne := by
  obtain ⟨d, hd, R⟩ := exists_makeSets hn
  have hin : ∀ e ∈ g.edges, e.u ∈ g.nodes ∧ e.v ∈ g.nodes := fun e he ↦ mem_nodes he
  have hinit : Holds d g.nodes 0 := ⟨[], rfl, R⟩
  obtain ⟨t, k, ht, hk, hshared⟩ := exec_sharedStep hin hinit
  have hcopies : HoldsOwn ⟨t, t⟩ g.nodes (ofType 3 g.edges) 0 := by
    constructor <;> simpa only [ofType, Multiset.filter_zero, Multiset.zero_add] using ht
  obtain ⟨s, j, hs, hj, hown⟩ := exec_ownStep hin g.types hcopies
  have hall : (ofType 3 g.edges).card + (own g.edges).card = g.edges.length := by
    rw [← Multiset.card_add, ofType, own, Multiset.filter_add_not, Multiset.coe_card]
  have hzero := hinit.edges_add
  have hthree := ht.edges_add
  have hone := hs.first.edges_add
  have htwo := hs.second.edges_add
  rw [components_zero] at hzero
  rw [← graph_eq (by decide)] at hone htwo
  change j + (s.dsu1.edges + s.dsu2.edges) = t.edges + t.edges + (own g.edges).card at hj
  rw [card_nodes] at hzero hthree hone htwo
  refine ⟨k + j, by simp only [count]; omega, ?_⟩
  -- the two loops together overflow exactly when their sum does, as neither counts down
  have hsum : CInt.checked (k + j : ℕ) =
      (CInt.checked (zero.1 + k)).bind fun ret ↦ CInt.checked (ret.1 + j) := by
    rw [CInt.checked_bind zero (Int.natCast_nonneg k) (Int.natCast_nonneg j), zero, Int.zero_add,
      Int.natCast_add]
  have hfirst : (s.dsu1.edges : ℤ) = g.n - 1 ↔ g.count (graph 1) = 1 := by
    simp only [count]
    omega
  have hsecond : (s.dsu2.edges : ℤ) = g.n - 1 ↔ g.count (graph 2) = 1 := by
    simp only [count]
    omega
  rw [maxNumEdgesToRemove, hd, hsum]
  simp only [Option.bind_eq_bind, Option.bind_some, hshared]
  cases CInt.checked (zero.1 + k) with
  | none => rfl
  | some ret =>
    simp only [Option.map_some, Option.bind_some, hown]
    cases CInt.checked (ret.1 + j) with
    | none => rfl
    | some ret =>
      simp only [Option.map_some, Option.bind_some, hfirst, hsecond]
      split <;> rfl

theorem traversable_iff : Traversable g.nodes g.edges ↔
    g.count (graph 1) = 1 ∧ g.count (graph 2) = 1 :=
  and_congr (connects_iff nodes_nonempty) (connects_iff nodes_nonempty)

theorem lt_of_eq_some {k : CInt} (h : maxNumEdgesToRemove g.n g.edges = some k) :
    g.n < 2 ^ 31 - 1 := by
  obtain ⟨d, hd, -⟩ := Option.bind_eq_some_iff.1 h
  exact lt_of_makeSets g.lt hd

/-- `MaxNumEdgesToRemove` returns the largest number of edges whose removal leaves both graphs
connected, and -1 exactly when they are not connected with all edges. -/
def RemovalRight (g : Roads) : Prop :=
  ∃ k, maxNumEdgesToRemove g.n g.edges = some k ∧
    (k.1 = -1 ↔ ¬ Traversable g.nodes g.edges) ∧
      (Traversable g.nodes g.edges → IsGreatest g.removable k.1)

/-- **Exactly when it is right**: the node `n` can be made, and the edges between nodes that have
been joined already can be counted. -/
theorem removalRight_iff (g : Roads) :
    g.RemovalRight ↔ g.n < 2 ^ 31 - 1 ∧ g.edges.length + g.count (graph 1) + g.count (graph 2) <
      2 ^ 31 + g.n + g.count (ofType 3) := by
  constructor
  · rintro ⟨ret, h, -⟩
    have hn := lt_of_eq_some h
    obtain ⟨k, hk, heq⟩ := exists_maxNumEdgesToRemove_eq hn
    rw [heq, Option.map_eq_some_iff] at h
    obtain ⟨x, hx, -⟩ := h
    have hlt := x.2.2
    rw [CInt.checked_eq_some hx] at hlt
    exact ⟨hn, by omega⟩
  · rintro ⟨hn, hlt⟩
    obtain ⟨k, hk, heq⟩ := exists_maxNumEdgesToRemove_eq hn
    have hchecked : CInt.checked k = some ⟨k, by omega, by omega⟩ := dif_pos _
    rw [hchecked, Option.map_some] at heq
    by_cases h : g.count (graph 1) = 1 ∧ g.count (graph 2) = 1
    · have hgreatest := isGreatest_removable (traversable_iff.2 h)
      rw [if_pos h] at heq
      rw [show (g.edges.length : ℤ) + 2 - g.n - g.count (ofType 3) = k by omega] at hgreatest
      refine ⟨_, heq, iff_of_false ?_ (not_not_intro (traversable_iff.2 h)), fun _ ↦ hgreatest⟩
      simp only
      omega
    · rw [if_neg h] at heq
      have hnot : ¬ Traversable g.nodes g.edges := mt traversable_iff.1 h
      exact ⟨_, heq, iff_of_true rfl hnot, fun h ↦ absurd h hnot⟩

/-- The largest number of nodes. -/
theorem not_forall_removalRight : ¬ ∀ g : Roads, g.RemovalRight := by
  intro hall
  obtain ⟨k, h, -⟩ := hall
    { n := 2 ^ 31 - 1
      pos := by decide
      lt := by decide
      edges := []
      types := by simp
      ends := by simp }
  exact absurd (lt_of_eq_some h) (lt_irrefl _)

end Roads

end Struct.EdgeRemoval
